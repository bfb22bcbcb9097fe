import JudicaVM.Board.TradeSafety

/-!
# What trades cost and deliver

A purchase charges the least payment that keeps the product of the holdings and delivers the most
that this payment buys. A sale delivers the most that the sold amount buys and charges the least
payment for that delivery.
-/

namespace JudicaVM

open Checked Std OrderedMap Transition GameBoard ConstantProduct ConstantFunctionMarketMaker

/-- The two amounts of a request that fixes the amount of one asset of the pair. -/
def TradingPairID.fixing (id : TradingPairID) (p : TokenPointer) (amount : ℕ) : ℕ × ℕ :=
  if p = id.assetA then (amount, 0) else (0, amount)

namespace GameBoard

/-- The sender pays `s` units to the account of a market and receives `b` units from it, and nothing
else is moved. -/
structure Exchanges (g g' : GameBoard) (account : EntityID) (selling buying : TokenPointer)
    (s b : ℕ) (sender : EntityID) : Prop where
  pays : g'.balance selling sender + s = g.balance selling sender
  receives : g'.balance buying sender = g.balance buying sender + b
  takes : g'.balance selling account = g.balance selling account + s
  gives : g'.balance buying account + b = g.balance buying account
  others : ∀ q i, i ≠ sender → i ≠ account → g'.balance q i = g.balance q i
  tokens : ∀ q i, q ≠ selling → q ≠ buying → g'.balance q i = g.balance q i
  totals : ∀ q, g'.total q = g.total q

/-- A trade of `s` against `b`, which the cap allows or not. -/
structure TradesAt (g : GameBoard) (account : EntityID) (selling buying : TokenPointer) (s b : ℕ)
    (allowed : Prop) (simulate : Bool) (sender : EntityID)
    (x : Except TradeError TradeOutcome × GameBoard) : Prop where
  succeeds : (∃ o, x.1 = .ok o) ↔ allowed ∧ s ≤ g.balance selling sender
  amounts : ∀ o, x.1 = .ok o → o.amountPlayerSold = s ∧ o.amountPlayerPurchased = b
  exchanges : ∀ o, x.1 = .ok o → simulate = false →
    g.Exchanges x.2 account selling buying s b sender

/-- What a trade of `s` against `b` that the cap allows comes to. -/
def concluded (g : GameBoard) (m : ConstantFunctionMarketMakerPair) (pair : TradingPairID)
    (selling buying : TokenPointer) (s b : ℕ) (simulate : Bool) (sender : EntityID) :
    Except TradeError TradeOutcome × GameBoard :=
  if g.balance selling sender < s then
    (.error (.insufficientTokens "User has insufficient tokens"), g)
  else
    (.ok (g.tradeOutcome pair selling buying s b),
      if simulate then g else g.withReserves m (g.swapped m selling buying s b sender))

end GameBoard

variable {g g' : GameBoard} {id : TradingPairID} {m : ConstantFunctionMarketMakerPair}
  {selling buying : TokenPointer} {s b s' b' : ℕ} {sender : EntityID} {simulate : Bool}

theorem closeTrade_concluded {pair : TradingPairID} (hi : g.Inv)
    (h : Priced g m selling buying s b) (hparty : g.Party sender) :
    closeTrade g m (g.tradeOutcome pair selling buying s b) selling buying s b simulate sender =
      .ok (g.concluded m pair selling buying s b simulate sender) := by
  rw [closeTrade_eq hi h hparty, concluded]
  split
  · rfl
  · cases simulate <;> rfl

theorem ConstantFunctionMarketMaker.Priced.exchanges (hi : g.Inv) (h : Priced g m selling buying s b)
    (hparty : g.Party sender) (hpays : s ≤ g.balance selling sender) :
    g.Exchanges (g.withReserves m (g.swapped m selling buying s b sender)) m.id selling buying s b
      sender := by
  have hswap := h.canSwap hparty hpays
  have hne := (hi.markets m.pair m h.market).direction_ne h.direction h.funded
  have hcovers := h.covers
  exact {
    pays := by
      show (g.swapped m selling buying s b sender).balance selling sender + s = _
      rw [hswap.balance_trader hi, if_pos rfl]
      omega
    receives := by
      show (g.swapped m selling buying s b sender).balance buying sender = _
      rw [hswap.balance_trader hi, if_neg hne, if_pos rfl]
    takes := by
      show (g.swapped m selling buying s b sender).balance selling m.id = _
      rw [hswap.balance_account hi, if_pos rfl]
    gives := by
      show (g.swapped m selling buying s b sender).balance buying m.id + b = _
      rw [hswap.balance_account hi, if_neg hne, if_pos rfl]
      omega
    others := fun q i hi1 hi2 => hswap.balance_other hi hi2.symm hi1.symm
    tokens := by
      intro q i hs hb
      show (g.swapped m selling buying s b sender).balance q i = _
      rw [hswap.balance_eq hi, if_neg (Ne.symm hs), if_neg (Ne.symm hb)]
    totals := fun q => swapped_total }

private theorem ConstantFunctionMarketMaker.Priced.tradesAt {pair : TradingPairID} (hi : g.Inv)
    (h : Priced g m selling buying s b) (hparty : g.Party sender) :
    g.TradesAt m.id selling buying s b True simulate sender
      (g.concluded m pair selling buying s b simulate sender) := by
  unfold concluded
  split
  · rename_i hlack
    refine ⟨?_, ?_, ?_⟩
    · simp only [reduceCtorEq, exists_false, true_and, false_iff]
      omega
    · intro o ho
      cases ho
    · intro o ho
      cases ho
  · rename_i hpays
    refine ⟨?_, ?_, ?_⟩
    · simp only [Except.ok.injEq, exists_eq', true_and, true_iff]
      omega
    · intro o ho
      cases ho
      exact ⟨rfl, rfl⟩
    · intro o ho hreal
      subst hreal
      exact h.exchanges hi hparty (Nat.le_of_not_lt hpays)

private theorem withAmounts_fixing (hd : id.normalize.Direction selling buying)
    (hne : selling ≠ buying)
    {p : TokenPointer} (hp : p = selling ∨ p = buying) (amount : ℕ) :
    id.withAmounts (id.fixing p amount).1 (id.fixing p amount).2 =
      (id.normalize, id.normalize.fixing p amount) := by
  by_cases hnormal : id.isNormal
  · rw [TradingPairID.withAmounts_of_isNormal hnormal,
      TradingPairID.normalize_of_isNormal hnormal]
  · have hswap : id.normalize = ⟨id.assetB, id.assetA⟩ := by
      have hlt : ¬ id.assetA ≤ id.assetB := by simpa [TradingPairID.isNormal] using hnormal
      simp [TradingPairID.normalize, hlt]
    rw [hswap] at hd ⊢
    simp only [TradingPairID.withAmounts, hnormal, hswap, TradingPairID.fixing]
    rcases hd with ⟨rfl, rfl⟩ | ⟨rfl, rfl⟩ <;> rcases hp with rfl | rfl <;> simp [hne, hne.symm]

private theorem buyDirection_fixing (hd : id.Direction selling buying) (hne : selling ≠ buying)
    (hb : 0 < b) :
    buyDirection id (id.fixing buying b).1 (id.fixing buying b).2 = .ok (buying, selling, b) := by
  obtain ⟨n, rfl⟩ := Nat.exists_eq_succ_of_ne_zero hb.ne'
  rcases hd with ⟨rfl, rfl⟩ | ⟨rfl, rfl⟩
  · simp [TradingPairID.fixing, hne.symm, buyDirection]
  · simp [TradingPairID.fixing, buyDirection]

private theorem sellDirection_fixing (hd : id.Direction selling buying) (hne : selling ≠ buying)
    (hs : 0 < s) :
    sellDirection id (id.fixing selling s).1 (id.fixing selling s).2 =
      .ok (buying, selling, s) := by
  obtain ⟨n, rfl⟩ := Nat.exists_eq_succ_of_ne_zero hs.ne'
  rcases hd with ⟨rfl, rfl⟩ | ⟨rfl, rfl⟩
  · simp [TradingPairID.fixing, sellDirection]
  · simp [TradingPairID.fixing, hne, sellDirection]

private theorem withAmounts_swap (id : TradingPairID) (amountA amountB : ℕ)
    (hne : id.assetA ≠ id.assetB) :
    (⟨id.assetB, id.assetA⟩ : TradingPairID).withAmounts amountB amountA =
      id.withAmounts amountA amountB := by
  by_cases hle : id.assetA ≤ id.assetB
  · have hnot : ¬ id.assetB ≤ id.assetA := fun hge => hne (Nat.le_antisymm hle hge)
    simp [TradingPairID.withAmounts, TradingPairID.isNormal, TradingPairID.normalize, hle, hnot]
  · have hge : id.assetB ≤ id.assetA := Nat.le_of_not_le hle
    simp [TradingPairID.withAmounts, TradingPairID.isNormal, TradingPairID.normalize, hle, hge]

private theorem buying_of_direction (hi : g.Inv) (hm : g.markets[id.normalize]? = some m)
    (hd : id.normalize.Direction selling buying) (hS : 0 < g.balance selling m.id) :
    selling ≠ buying :=
  (hi.markets _ m hm).direction_ne hd (funded_of_balance_pos (hi.markets _ m hm) hd hS)

/-- What is asked of a market and a sender: the market holds both assets, and the sender is no
market. -/
structure GameBoard.Quotes (g : GameBoard) (id : TradingPairID)
    (m : ConstantFunctionMarketMakerPair) (selling buying : TokenPointer) (sender : EntityID) :
    Prop where
  inv : g.Inv
  party : g.Party sender
  market : g.markets[id.normalize]? = some m
  direction : id.normalize.Direction selling buying
  sells : 1 ≤ g.balance selling m.id
  buys : 1 ≤ g.balance buying m.id

namespace GameBoard.Quotes

variable (h : g.Quotes id m selling buying sender)
include h

private theorem ne : selling ≠ buying := buying_of_direction h.inv h.market h.direction h.sells

private theorem assets_ne : id.assetA ≠ id.assetB := by
  intro heq
  have hsame : id.normalize = id := by simp [TradingPairID.normalize, heq]
  have hdirection := h.direction
  rw [hsame] at hdirection
  rcases hdirection with ⟨rfl, rfl⟩ | ⟨rfl, rfl⟩
  · exact h.ne heq
  · exact h.ne heq.symm

private theorem buy (cap : Option ℕ) (simulate : Bool) (hb : 0 < b)
    (hquote : buyQuote (g.balance selling m.id) (g.balance buying m.id) b = .ok (s, b')) :
    doBuyTrade g id (id.fixing buying b).1 (id.fixing buying b).2 cap simulate sender =
      if cap.any (s > ·) then .ok (.error .marketSlipped, g)
      else .ok (g.concluded m id.normalize selling buying s b' simulate sender) := by
  have hpriced := buyQuote_priced (h.inv.markets _ m h.market) h.market h.direction hquote
  have hlt : b < g.balance buying m.id := (buyQuote_eq_ok_iff.mp hquote).2.1
  rw [doBuyTrade, buyTrade_quoted cap simulate sender h.inv
    (withAmounts_fixing h.direction h.ne (.inr rfl) b) h.market
    (buyDirection_fixing h.direction h.ne hb), if_neg (Nat.not_lt_of_lt hlt), hquote, ok_bind,
    closeTrade_concluded h.inv hpriced h.party]

private theorem sell (cap : Option ℕ) (simulate : Bool) (hs : 0 < s)
    (hquote : sellQuote (g.balance selling m.id) (g.balance buying m.id) s = .ok (s', b)) :
    ∃ x, doSellTrade g id (id.fixing selling s).1 (id.fixing selling s).2 cap simulate sender =
        .ok x ∧
      (if cap.any (b < ·) then (∃ e, x = (.error e, g))
      else x = g.concluded m id.normalize selling buying s' b simulate sender) := by
  have hpriced := sellQuote_priced (h.inv.markets _ m h.market) h.market h.direction hquote
  rw [doSellTrade, sellTrade_quoted cap simulate sender h.inv
    (withAmounts_fixing h.direction h.ne (.inl rfl) s) h.market
    (sellDirection_fixing h.direction h.ne hs), hquote, ok_bind,
    closeTrade_concluded h.inv hpriced h.party]
  by_cases hslip : cap.any (b < ·)
  · rw [if_pos hslip]
    split
    · exact ⟨_, rfl, _, rfl⟩
    · exact ⟨(.error .marketSlipped, g), rfl, _, rfl⟩
  · have hlack : ¬ cap.any (g.balance buying m.id < ·) := by
      intro hany
      obtain ⟨min, hmin, hlt⟩ := (Option.any_eq_true _ _).mp hany
      have hless : b < min := Nat.lt_of_le_of_lt hpriced.covers (of_decide_eq_true hlt)
      exact hslip ((Option.any_eq_true _ _).mpr ⟨min, hmin, decide_eq_true hless⟩)
    rw [if_neg hlack]
    simp only [hslip, Bool.false_eq_true, if_false]
    exact ⟨_, rfl, rfl⟩

end GameBoard.Quotes

private theorem GameBoard.TradesAt.refused {account : EntityID} {allowed : Prop} {e : TradeError}
    {board : GameBoard} (h : ¬ allowed) :
    g.TradesAt account selling buying s b allowed simulate sender (.error e, board) where
  succeeds := by simp [h]
  amounts o ho := by cases ho
  exchanges o ho := by cases ho

private theorem GameBoard.TradesAt.of_allowed {account : EntityID} {allowed : Prop}
    {x : Except TradeError TradeOutcome × GameBoard} (h : allowed)
    (ht : g.TradesAt account selling buying s b True simulate sender x) :
    g.TradesAt account selling buying s b allowed simulate sender x where
  succeeds := by simpa [h] using ht.succeeds
  amounts := ht.amounts
  exchanges := ht.exchanges

private theorem any_gt_iff {cap : Option ℕ} : cap.any (s > ·) = true ↔ ¬ ∀ max ∈ cap, s ≤ max := by
  cases cap <;> simp

private theorem any_lt_iff {cap : Option ℕ} : cap.any (b < ·) = true ↔ ¬ ∀ min ∈ cap, min ≤ b := by
  cases cap <;> simp

/-- The prices of purchases and sales, when the trades succeed, and the order of the pair. -/
theorem trades_priced (h : g.Quotes id m selling buying sender) (cap : Option ℕ)
    (simulate : Bool) :
    (∀ b, 0 < b → b < g.balance buying m.id → ∃ s b',
      IsLeast {s | Acceptable (g.balance selling m.id) (g.balance buying m.id) s b} s ∧
      IsGreatest {b' | Acceptable (g.balance selling m.id) (g.balance buying m.id) s b'} b' ∧
      b ≤ b' ∧
      (g.balance selling m.id * g.balance buying m.id + (g.balance buying m.id - b) < 2 ^ 128 →
        g.balance selling m.id * g.balance buying m.id + (g.balance selling m.id + s) < 2 ^ 128 →
        ∃ x, doBuyTrade g id (id.fixing buying b).1 (id.fixing buying b).2 cap simulate sender =
            .ok x ∧
          g.TradesAt m.id selling buying s b' (∀ max ∈ cap, s ≤ max) simulate sender x)) ∧
    (∀ s, 0 < s → ∃ s' b,
      IsGreatest {b | Acceptable (g.balance selling m.id) (g.balance buying m.id) s b} b ∧
      IsLeast {s' | s' ≤ s ∧
        IsGreatest {b | Acceptable (g.balance selling m.id) (g.balance buying m.id) s' b} b} s' ∧
      (g.balance selling m.id * g.balance buying m.id + (g.balance selling m.id + s) < 2 ^ 128 →
        g.balance selling m.id * g.balance buying m.id + (g.balance buying m.id - b) < 2 ^ 128 →
        ∃ x, doSellTrade g id (id.fixing selling s).1 (id.fixing selling s).2 cap simulate sender =
            .ok x ∧
          g.TradesAt m.id selling buying s' b (∀ min ∈ cap, min ≤ b) simulate sender x)) ∧
    ∀ amountA amountB,
      doBuyTrade g ⟨id.assetB, id.assetA⟩ amountB amountA cap simulate sender =
          doBuyTrade g id amountA amountB cap simulate sender ∧
        doSellTrade g ⟨id.assetB, id.assetA⟩ amountB amountA cap simulate sender =
          doSellTrade g id amountA amountB cap simulate sender := by
  have hS : 0 < g.balance selling m.id := h.sells
  have hB : 0 < g.balance buying m.id := h.buys
  refine ⟨?_, ?_, ?_⟩
  · intro b hb hlt
    refine ⟨_, _, swapIn_isLeast hlt, swapOut_isGreatest hS hB, le_swapOut_swapIn hS hlt, ?_⟩
    intro hfits hfits'
    have hquote := buyQuote_eq_ok_iff.mpr ⟨hS, hlt, hfits, hfits', rfl⟩
    have hpriced := buyQuote_priced (h.inv.markets _ m h.market) h.market h.direction hquote
    rw [h.buy cap simulate hb hquote]
    split
    · rename_i hslip
      exact ⟨_, rfl, .refused (any_gt_iff.mp hslip)⟩
    · rename_i hslip
      have hallowed := not_not.mp (mt any_gt_iff.mpr hslip)
      exact ⟨_, rfl, .of_allowed hallowed (hpriced.tradesAt h.inv h.party)⟩
  · intro s hs
    refine ⟨_, _, swapOut_isGreatest hS hB, swapIn_isLeast_swapOut hS hB, ?_⟩
    intro hfits hfits'
    have hquote := sellQuote_eq_ok_iff.mpr ⟨hS, hB, hfits, hfits', rfl⟩
    have hpriced := sellQuote_priced (h.inv.markets _ m h.market) h.market h.direction hquote
    obtain ⟨x, hx, hcase⟩ := h.sell cap simulate hs hquote
    refine ⟨x, hx, ?_⟩
    split at hcase
    · rename_i hslip
      obtain ⟨e, rfl⟩ := hcase
      exact .refused (any_lt_iff.mp hslip)
    · rename_i hslip
      have hallowed := not_not.mp (mt any_lt_iff.mpr hslip)
      rw [hcase]
      exact .of_allowed hallowed (hpriced.tradesAt h.inv h.party)
  · intro amountA amountB
    have hswap := withAmounts_swap id amountA amountB h.assets_ne
    simp only [doBuyTrade, internalDoTradeBuyFixedAmount, doSellTrade,
      internalDoTradeSellFixedAmount, hswap, and_self]

theorem trades_priced_steel : ∃ g m s b', Reachable twoPlayers g ∧
    g.markets[steelPair.normalize]? = some m ∧
    IsLeast {s | Acceptable (g.balance 0xc0de0001 m.id) (g.balance 0xc0de0005 m.id) s 1} s ∧
    1 ≤ b' ∧
    ∃ x, doBuyTrade g steelPair (steelPair.fixing 0xc0de0005 1).1 (steelPair.fixing 0xc0de0005 1).2
        (some 50) false 0xc0de0008 = .ok x ∧
      g.TradesAt m.id 0xc0de0001 0xc0de0005 s b' (∀ max ∈ some 50, s ≤ max) false 0xc0de0008
        x := by
  have h : returns (do playAll [(opening, "alice")] (← GameBoard.new twoPlayers)) (fun g =>
      g.IsUser 0xc0de0008 ∧ ∃ m ∈ g.markets[steelPair.normalize]?,
        (1 ≤ g.balance 0xc0de0001 m.id ∧ g.balance 0xc0de0001 m.id < 2 ^ 60) ∧
          1 < g.balance 0xc0de0005 m.id ∧ g.balance 0xc0de0005 m.id < 2 ^ 60) := by
    decide +kernel
  obtain ⟨g, hok, htest⟩ := returns_iff.mp h
  obtain ⟨g0, hnew, hplay⟩ := bind_eq_ok_iff.mp hok
  have hreach := (Reachable.new hnew).later (later_of_playAll hplay)
  obtain ⟨hsender, m, hm, ⟨hS, hSsmall⟩, hB, hBsmall⟩ := of_decide_eq_true htest
  have hi : g.Inv := (Stage.between hreach).inv
  have hquotes : g.Quotes steelPair m 0xc0de0001 0xc0de0005 0xc0de0008 :=
    ⟨hi, hi.party_of_user hsender, hm, .inl ⟨rfl, rfl⟩, hS, Nat.le_of_lt hB⟩
  obtain ⟨s, b', hs, -, hb', htrade⟩ :=
    (trades_priced hquotes (some 50) false).1 1 Nat.one_pos hB
  have hle : s ≤ g.balance 0xc0de0001 m.id * g.balance 0xc0de0005 m.id := by
    apply hs.2
    show _ ≤ (_ + _) * (g.balance 0xc0de0005 m.id - 1)
    exact Nat.le_trans (Nat.le_add_left _ _) (Nat.le_mul_of_pos_right _ (by omega))
  have hk : g.balance 0xc0de0001 m.id * g.balance 0xc0de0005 m.id < 2 ^ 120 := by
    calc
      _ < 2 ^ 60 * 2 ^ 60 := Nat.mul_lt_mul'' hSsmall hBsmall
      _ = 2 ^ 120 := by norm_num
  exact ⟨g, m, s, b', hreach, hm, hs, hb', htrade (by omega) (by omega)⟩

private theorem buyQuote_agrees {S B : ℕ} (hb : 0 < b) (h : buyQuote S B b = .ok (s, b')) :
    0 < s ∧ 0 < b' ∧ sellQuote S B s = .ok (s, b') ∧ buyQuote S B b' = .ok (s, b') := by
  obtain ⟨hS, hlt, hfits, hfits', heq⟩ := buyQuote_eq_ok_iff.mp h
  obtain ⟨rfl, rfl⟩ := Prod.mk.inj heq
  have hB : 0 < B := by omega
  have hle : b ≤ swapOut S B (swapIn S B b) := le_swapOut_swapIn hS hlt
  have hlt' : swapOut S B (swapIn S B b) < B := swapOut_lt hS hB
  have hsame : swapIn S B (swapOut S B (swapIn S B b)) = swapIn S B b :=
    swapIn_swapOut_swapIn hS hlt
  refine ⟨swapIn_pos hS hb hlt, by omega, ?_, ?_⟩
  · apply sellQuote_eq_ok_iff.mpr
    exact ⟨hS, hB, hfits', by omega, by rw [hsame]⟩
  · apply buyQuote_eq_ok_iff.mpr
    exact ⟨hS, hlt', by omega, by rw [hsame]; exact hfits', by rw [hsame]⟩

private theorem sellQuote_agrees {S B : ℕ} (hb : 0 < b) (h : sellQuote S B s = .ok (s', b)) :
    0 < s' ∧ sellQuote S B s' = .ok (s', b) ∧ buyQuote S B b = .ok (s', b) := by
  obtain ⟨hS, hB, hfits, hfits', heq⟩ := sellQuote_eq_ok_iff.mp h
  obtain ⟨rfl, rfl⟩ := Prod.mk.inj heq
  have hlt : swapOut S B s < B := swapOut_lt hS hB
  have hle : swapIn S B (swapOut S B s) ≤ s := swapIn_swapOut_le hS hB
  have hsame : swapOut S B (swapIn S B (swapOut S B s)) = swapOut S B s :=
    swapOut_swapIn_swapOut hS hB
  refine ⟨swapIn_pos hS hb hlt, ?_, ?_⟩
  · apply sellQuote_eq_ok_iff.mpr
    exact ⟨hS, hB, by omega, by rw [hsame]; exact hfits', by rw [hsame]⟩
  · apply buyQuote_eq_ok_iff.mpr
    exact ⟨hS, hlt, hfits', by omega, by rw [hsame]⟩

private theorem concluded_amounts {pair : TradingPairID} {o : TradeOutcome}
    (h : g.concluded m pair selling buying s b simulate sender = (.ok o, g')) :
    o.amountPlayerSold = s ∧ o.amountPlayerPurchased = b := by
  unfold concluded at h
  split at h
  · cases (Prod.mk.inj h).1
  · cases (Prod.mk.inj h).1
    exact ⟨rfl, rfl⟩

private theorem GameBoard.Quotes.quote_of_buy (h : g.Quotes id m selling buying sender)
    {o : TradeOutcome}
    (ho : doBuyTrade g id (id.fixing buying b).1 (id.fixing buying b).2 none simulate sender =
      .ok (.ok o, g')) :
    0 < b ∧ buyQuote (g.balance selling m.id) (g.balance buying m.id) b =
        .ok (o.amountPlayerSold, o.amountPlayerPurchased) ∧
      g.concluded m id.normalize selling buying o.amountPlayerSold o.amountPlayerPurchased simulate
        sender = (.ok o, g') := by
  have hw := withAmounts_fixing h.direction h.ne (.inr rfl) b
  by_cases hb : 0 < b
  · have hd := buyDirection_fixing h.direction h.ne hb
    have hquoted := ho
    rw [doBuyTrade, buyTrade_quoted none simulate sender h.inv hw h.market hd] at hquoted
    split at hquoted
    · simp at hquoted
    · obtain ⟨⟨s, b'⟩, hquote, -⟩ := bind_eq_ok_iff.mp hquoted
      have hbuy := h.buy none simulate hb hquote
      rw [ho] at hbuy
      have hconcluded : g.concluded m id.normalize selling buying s b' simulate sender =
          (.ok o, g') := by simpa [eq_comm] using hbuy
      obtain ⟨rfl, rfl⟩ := concluded_amounts hconcluded
      exact ⟨hb, hquote, hconcluded⟩
  · have hzero : b = 0 := Nat.eq_zero_of_not_pos hb
    have hd : buyDirection id.normalize (id.normalize.fixing buying b).1
        (id.normalize.fixing buying b).2 =
        .error (.invalidTrade "Both token amounts cannot be zero") := by
      simp [hzero, TradingPairID.fixing, buyDirection]
    rw [doBuyTrade, buyTrade_refused hw h.market hd] at ho
    simp at ho

private theorem GameBoard.Quotes.quote_of_sell (h : g.Quotes id m selling buying sender)
    {o : TradeOutcome}
    (ho : doSellTrade g id (id.fixing selling s).1 (id.fixing selling s).2 none simulate sender =
      .ok (.ok o, g')) :
    0 < s ∧ sellQuote (g.balance selling m.id) (g.balance buying m.id) s =
        .ok (o.amountPlayerSold, o.amountPlayerPurchased) ∧
      g.concluded m id.normalize selling buying o.amountPlayerSold o.amountPlayerPurchased simulate
        sender = (.ok o, g') := by
  have hw := withAmounts_fixing h.direction h.ne (.inl rfl) s
  by_cases hs : 0 < s
  · have hd := sellDirection_fixing h.direction h.ne hs
    have hquoted := ho
    rw [doSellTrade, sellTrade_quoted none simulate sender h.inv hw h.market hd] at hquoted
    split at hquoted
    · simp at hquoted
    · obtain ⟨⟨s', b⟩, hquote, -⟩ := bind_eq_ok_iff.mp hquoted
      obtain ⟨x, hx, hcase⟩ := h.sell none simulate hs hquote
      rw [ho] at hx
      have hconcluded : g.concluded m id.normalize selling buying s' b simulate sender =
          (.ok o, g') := by
        have hsame : x = (.ok o, g') := by simpa [eq_comm] using hx
        rw [← hsame]
        simpa [eq_comm] using hcase
      obtain ⟨rfl, rfl⟩ := concluded_amounts hconcluded
      exact ⟨hs, hquote, hconcluded⟩
  · have hzero : s = 0 := Nat.eq_zero_of_not_pos hs
    have hd : sellDirection id.normalize (id.normalize.fixing selling s).1
        (id.normalize.fixing selling s).2 =
        .error (.invalidTrade "Both token amounts cannot be zero") := by
      simp [hzero, TradingPairID.fixing, sellDirection]
    rw [doSellTrade, sellTrade_refused hw h.market hd] at ho
    simp at ho

private theorem GameBoard.Quotes.sell_concluded (h : g.Quotes id m selling buying sender)
    (hs : 0 < s)
    (hquote : sellQuote (g.balance selling m.id) (g.balance buying m.id) s = .ok (s', b)) :
    doSellTrade g id (id.fixing selling s).1 (id.fixing selling s).2 none simulate sender =
      .ok (g.concluded m id.normalize selling buying s' b simulate sender) := by
  obtain ⟨x, hx, hcase⟩ := h.sell none simulate hs hquote
  rw [hx, show x = _ by simpa using hcase]

/-- What a purchase charges and delivers a sale does as well, and the other way round. -/
theorem trades_agree (h : g.Quotes id m selling buying sender) (simulate : Bool) :
    (∀ b o g', doBuyTrade g id (id.fixing buying b).1 (id.fixing buying b).2 none simulate
        sender = .ok (.ok o, g') →
      doSellTrade g id (id.fixing selling o.amountPlayerSold).1
          (id.fixing selling o.amountPlayerSold).2 none simulate sender = .ok (.ok o, g') ∧
        doBuyTrade g id (id.fixing buying o.amountPlayerPurchased).1
          (id.fixing buying o.amountPlayerPurchased).2 none simulate sender = .ok (.ok o, g')) ∧
    ∀ s o g', doSellTrade g id (id.fixing selling s).1 (id.fixing selling s).2 none simulate
        sender = .ok (.ok o, g') → 0 < o.amountPlayerPurchased →
      doSellTrade g id (id.fixing selling o.amountPlayerSold).1
          (id.fixing selling o.amountPlayerSold).2 none simulate sender = .ok (.ok o, g') ∧
        doBuyTrade g id (id.fixing buying o.amountPlayerPurchased).1
          (id.fixing buying o.amountPlayerPurchased).2 none simulate sender = .ok (.ok o, g') := by
  constructor
  · intro b o g' ho
    obtain ⟨hb, hquote, hconcluded⟩ := h.quote_of_buy ho
    obtain ⟨hs, hb', hsell, hbuy⟩ := buyQuote_agrees hb hquote
    constructor
    · rw [h.sell_concluded hs hsell, hconcluded]
    · rw [h.buy none simulate hb' hbuy, hconcluded]
      simp
  · intro s o g' ho hb
    obtain ⟨hs, hquote, hconcluded⟩ := h.quote_of_sell ho
    obtain ⟨hs', hsell, hbuy⟩ := sellQuote_agrees hb hquote
    constructor
    · rw [h.sell_concluded hs' hsell, hconcluded]
    · rw [h.buy none simulate hb hbuy, hconcluded]
      simp

theorem trades_agree_steel : ∃ g o g', Reachable twoPlayers g ∧
    doBuyTrade g steelPair (steelPair.fixing 0xc0de0005 1).1 (steelPair.fixing 0xc0de0005 1).2
        none true 0xc0de0008 = .ok (.ok o, g') ∧
      doSellTrade g steelPair (steelPair.fixing 0xc0de0001 o.amountPlayerSold).1
        (steelPair.fixing 0xc0de0001 o.amountPlayerSold).2 none true 0xc0de0008 =
          .ok (.ok o, g') := by
  have h : returns (do
      let g ← playAll [(opening, "alice")] (← GameBoard.new twoPlayers)
      let x ← doBuyTrade g steelPair (steelPair.fixing 0xc0de0005 1).1
        (steelPair.fixing 0xc0de0005 1).2 none true 0xc0de0008
      pure (g, x)) (fun y => y.1.IsUser 0xc0de0008 ∧ y.2.1.isOk ∧
        ∃ m ∈ y.1.markets[steelPair.normalize]?,
          1 ≤ y.1.balance 0xc0de0001 m.id ∧ 1 ≤ y.1.balance 0xc0de0005 m.id) := by
    decide +kernel
  obtain ⟨y, hok, htest⟩ := returns_iff.mp h
  simp only [bind_eq_ok_iff, pure_eq_ok, Except.ok.injEq] at hok
  obtain ⟨g0, hnew, g, hplay, ⟨r, g'⟩, htrade, rfl⟩ := hok
  have hreach := (Reachable.new hnew).later (later_of_playAll hplay)
  obtain ⟨hsender, hr, m, hm, hS, hB⟩ := of_decide_eq_true htest
  cases r with
  | error e => cases hr
  | ok o =>
    have hi : g.Inv := (Stage.between hreach).inv
    have hquotes : g.Quotes steelPair m 0xc0de0001 0xc0de0005 0xc0de0008 :=
      ⟨hi, hi.party_of_user hsender, hm, .inl ⟨rfl, rfl⟩, hS, hB⟩
    exact ⟨g, o, g', hreach, htrade, ((trades_agree hquotes true).1 1 o g' htrade).1⟩

end JudicaVM
