import JudicaVM.Board.Endowment

/-!
# When trades return

Exactly which trades on a board that play reaches come back with a result, and which abort.
-/

namespace JudicaVM

open Checked Std OrderedMap Transition GameBoard ConstantProduct ConstantFunctionMarketMaker

variable {setup : GameSetup} {origin g g1 : GameBoard} {pair : TradingPairID}
  {m : ConstantFunctionMarketMakerPair} {sender : EntityID} {t : Trade}

/-- What the market of a pair holds of a token, which is nothing if there is no market. -/
def GameBoard.holding (g : GameBoard) (pair : TradingPairID) (p : TokenPointer) : ℕ :=
  match g.markets[pair.normalize]? with
  | some m => g.balance p m.id
  | none => 0

/-- The trades that do not abort: there is a market or room for one; the sale is to a funded market
and its arithmetic fits, unless the market holds less than the cap; and the purchase is not of
exactly what the market holds. A trade that does not fix exactly one amount is refused. -/
def GameBoard.TradeFits (g : GameBoard) (t : Trade) : Prop :=
  ((∃ m, g.markets[t.pair.normalize]? = some m) ∨ g.alloc + 2 < 2 ^ 64) ∧
    ∀ buying selling amount,
      if t.sell then
        sellDirection t.pair.normalize (t.pair.withAmounts t.amountA t.amountB).2.1
            (t.pair.withAmounts t.amountA t.amountB).2.2 = .ok (buying, selling, amount) →
          t.cap.any (g.holding t.pair buying < ·) ∨
            (0 < g.holding t.pair selling ∧
              g.holding t.pair selling * g.holding t.pair buying +
                (g.holding t.pair selling + amount) < 2 ^ 128)
      else
        buyDirection t.pair.normalize (t.pair.withAmounts t.amountA t.amountB).2.1
            (t.pair.withAmounts t.amountA t.amountB).2.2 = .ok (buying, selling, amount) →
          amount ≠ g.holding t.pair buying

/-- The market of a trade, whether it was there before or not. -/
structure Ready (g : GameBoard) (pair : TradingPairID) (g1 : GameBoard)
    (m : ConstantFunctionMarketMakerPair) : Prop where
  inv : g1.Inv
  market : g1.markets[pair.normalize]? = some m
  ensured : ConstantFunctionMarketMakerPair.ensure g pair.normalize = .ok (m, g1)
  balance_eq : ∀ p, g1.balance p m.id = g.holding pair p
  small : m.reserveA < 2 ^ 84 ∧ m.reserveB < 2 ^ 84 ∧ m.reserveA * m.reserveB < 2 ^ 101
  party : ∀ i, g.IsUser i → g1.Party i

/-- The market that is there or is opened holds what the market of the pair held. -/
theorem ensure_holding (hi : g.Inv)
    (hensure : ConstantFunctionMarketMakerPair.ensure g pair.normalize = .ok (m, g1))
    (p : TokenPointer) : g1.balance p m.id = g.holding pair p := by
  obtain ⟨hm, hcase⟩ := ConstantFunctionMarketMakerPair.ensure_cases hensure
  rw [TradingPairID.normalize_normalize] at hm hcase
  rcases hcase with rfl | hopen
  · simp [holding, hm]
  · rw [balance_of_openMarket hi hopen]
    cases hopen with
    | openMarket pair shares hnone =>
      have hnew : m = ⟨pair.normalize, g.alloc + 2, g.alloc + 1, 0, 0⟩ := by
        simpa [GameBoard.openMarket, eq_comm] using hm
      subst hnew
      simp only [holding, hnone]
      by_contra hpos
      have hle := hi.holders p (g.alloc + 2) (Nat.pos_of_ne_zero hpos)
      exact absurd hle (Nat.not_le_of_lt (Nat.lt_add_of_pos_right Nat.two_pos))

theorem Stage.ready (h : Stage setup origin g)
    (hensure : ConstantFunctionMarketMakerPair.ensure g pair.normalize = .ok (m, g1)) :
    Ready g pair g1 m := by
  have hi := h.inv
  have hholding := ensure_holding hi hensure
  obtain ⟨hm, hcase⟩ := ConstantFunctionMarketMakerPair.ensure_cases hensure
  rw [TradingPairID.normalize_normalize] at hm hcase
  rcases hcase with rfl | hopen
  · exact ⟨hi, hm, hensure, hholding, h.reserves_lt hm, fun i hu => hi.party_of_user hu⟩
  · have hext := hopen.extends hi
    cases hopen with
    | openMarket pair shares hnone hnormal hA hB hroom =>
      have hopen : Occurs g (.openMarket pair.normalize) (g.openMarket pair.normalize shares) :=
        .openMarket g pair.normalize shares hnone hnormal hA hB hroom
      have hnew : m = ⟨pair.normalize, g.alloc + 2, g.alloc + 1, 0, 0⟩ := by
        simpa [GameBoard.openMarket, eq_comm] using hm
      subst hnew
      exact ⟨hopen.inv hi, hm, hensure, hholding, by norm_num,
        fun i hu => hext.party (hi.party_of_user hu)⟩

private theorem Ready.sizes (h : Ready g pair g1 m) {selling buying : TokenPointer}
    (hd : pair.normalize.Direction selling buying) :
    g.holding pair selling < 2 ^ 84 ∧ g.holding pair buying < 2 ^ 84 ∧
      g.holding pair selling * g.holding pair buying < 2 ^ 101 ∧
      (0 < g.holding pair selling ↔ 0 < g.holding pair buying) := by
  have hs := h.inv.markets _ m h.market
  have hsmall := h.small
  have hboth := hs.both
  rw [hs.reserveA_eq, hs.reserveB_eq, h.balance_eq, h.balance_eq] at hsmall hboth
  rcases hd with ⟨rfl, rfl⟩ | ⟨rfl, rfl⟩
  · exact ⟨hsmall.1, hsmall.2.1, hsmall.2.2, by omega⟩
  · rw [Nat.mul_comm]
    exact ⟨hsmall.2.1, hsmall.1, hsmall.2.2, by omega⟩

private theorem Ready.closes (h : Ready g pair g1 m) {selling buying : TokenPointer} {s b : ℕ}
    {outcome : TradeOutcome} {simulate : Bool} (hsender : g.IsUser sender)
    (hp : Priced g1 m selling buying s b) :
    ∃ x, closeTrade g1 m outcome selling buying s b simulate sender = .ok x := by
  rw [closeTrade_eq h.inv hp (h.party sender hsender)]
  split
  · exact ⟨_, rfl⟩
  · split <;> exact ⟨_, rfl⟩

private theorem Ready.buy_returns_iff (h : Ready g pair g1 m) {amountA amountB : ℕ} {cap : Option ℕ}
    {simulate : Bool} (hsender : g.IsUser sender) :
    (∃ x, internalDoTradeBuyFixedAmount g pair amountA amountB cap simulate sender = .ok x) ↔
      ∀ buying selling amount, buyDirection pair.normalize (pair.withAmounts amountA amountB).2.1
        (pair.withAmounts amountA amountB).2.2 = .ok (buying, selling, amount) →
          amount ≠ g.holding pair buying := by
  have hw : pair.withAmounts amountA amountB =
      (pair.normalize, (pair.withAmounts amountA amountB).2) :=
    Prod.ext TradingPairID.withAmounts_fst rfl
  rw [buyTrade_of_ensure h.ensured]
  cases hd : buyDirection pair.normalize (pair.withAmounts amountA amountB).2.1
      (pair.withAmounts amountA amountB).2.2 with
  | error e =>
    rw [buyTrade_refused hw h.market hd]
    simp
  | ok x =>
    obtain ⟨buying, selling, amount⟩ := x
    obtain ⟨hdir, hpos⟩ := buyDirection_eq_ok hd
    obtain ⟨hS, hB, hk, hboth⟩ := h.sizes hdir
    have heq := buyTrade_quoted cap simulate sender
      h.inv hw h.market hd
    rw [heq]
    simp only [h.balance_eq, Except.ok.injEq, Prod.mk.injEq, and_imp]
    constructor
    · rintro ⟨x, hx⟩ _ _ _ rfl rfl rfl rfl
      rw [if_neg (lt_irrefl _)] at hx
      obtain ⟨_, hquote, _⟩ := bind_eq_ok_iff.mp hx
      exact absurd (buyQuote_eq_ok_iff.mp hquote).2.1 (lt_irrefl _)
    · intro hne
      by_cases hlack : amount > g.holding pair buying
      · exact ⟨_, if_pos hlack⟩
      · have hlt : amount < g.holding pair buying :=
          Nat.lt_of_le_of_ne (Nat.le_of_not_lt hlack) (hne _ _ _ rfl rfl rfl)
        have hpay : swapIn (g.holding pair selling) (g.holding pair buying) amount ≤
            g.holding pair selling * g.holding pair buying := by
          have hceil : (g.holding pair selling * g.holding pair buying) ⌈/⌉
              (g.holding pair buying - amount) ≤ g.holding pair selling * g.holding pair buying := by
            rw [ceilDiv_le_iff_le_mul (by omega)]
            exact Nat.le_mul_of_pos_left _ (by omega)
          unfold swapIn
          omega
        have hquote := buyQuote_eq_ok_iff.mpr ⟨hboth.mpr (by omega), hlt, by omega, by omega, rfl⟩
        have hquote' := hquote
        rw [← h.balance_eq, ← h.balance_eq] at hquote'
        have hpriced := buyQuote_priced (h.inv.markets _ m h.market) h.market hdir hquote'
        simp only [h.balance_eq] at hpriced
        rw [if_neg hlack, hquote, ok_bind]
        split
        · exact ⟨_, rfl⟩
        · exact h.closes hsender hpriced

/-- A sale on a ready market returns if the market is funded and the arithmetic fits, and if the
market holds less than is asked for at least. -/
theorem Ready.sell_returns_iff (h : Ready g pair g1 m) {amountA amountB : ℕ} {cap : Option ℕ}
    {simulate : Bool} (hsender : g.IsUser sender) :
    (∃ x, internalDoTradeSellFixedAmount g pair amountA amountB cap simulate sender = .ok x) ↔
      ∀ buying selling amount, sellDirection pair.normalize (pair.withAmounts amountA amountB).2.1
        (pair.withAmounts amountA amountB).2.2 = .ok (buying, selling, amount) →
          cap.any (g.holding pair buying < ·) ∨ (0 < g.holding pair selling ∧
            g.holding pair selling * g.holding pair buying + (g.holding pair selling + amount) <
              2 ^ 128) := by
  have hw : pair.withAmounts amountA amountB =
      (pair.normalize, (pair.withAmounts amountA amountB).2) :=
    Prod.ext TradingPairID.withAmounts_fst rfl
  rw [sellTrade_of_ensure h.ensured]
  cases hd : sellDirection pair.normalize (pair.withAmounts amountA amountB).2.1
      (pair.withAmounts amountA amountB).2.2 with
  | error e =>
    rw [sellTrade_refused hw h.market hd]
    simp
  | ok x =>
    obtain ⟨buying, selling, amount⟩ := x
    obtain ⟨hdir, hpos⟩ := sellDirection_eq_ok hd
    obtain ⟨hS, hB, hk, hboth⟩ := h.sizes hdir
    have heq := sellTrade_quoted cap simulate sender
      h.inv hw h.market hd
    rw [heq]
    simp only [h.balance_eq, Except.ok.injEq, Prod.mk.injEq, and_imp]
    constructor
    · rintro ⟨x, hx⟩ _ _ _ rfl rfl rfl
      by_cases hlack : cap.any (g.holding pair buying < ·) = true
      · exact .inl hlack
      · rw [if_neg hlack] at hx
        obtain ⟨_, hquote, _⟩ := bind_eq_ok_iff.mp hx
        obtain ⟨hfunded, _, hfits, _⟩ := sellQuote_eq_ok_iff.mp hquote
        exact .inr ⟨hfunded, hfits⟩
    · intro hfits
      by_cases hlack : cap.any (g.holding pair buying < ·) = true
      · exact ⟨_, if_pos hlack⟩
      · obtain ⟨hfunded, hfits⟩ := (hfits _ _ _ rfl rfl rfl).resolve_left hlack
        have hquote := sellQuote_eq_ok_iff.mpr ⟨hfunded, hboth.mp hfunded, hfits, by omega, rfl⟩
        have hquote' := hquote
        rw [← h.balance_eq, ← h.balance_eq] at hquote'
        have hpriced := sellQuote_priced (h.inv.markets _ m h.market) h.market hdir hquote'
        simp only [h.balance_eq] at hpriced
        rw [if_neg hlack, hquote, ok_bind]
        split
        · exact ⟨_, rfl⟩
        · exact h.closes hsender hpriced

private theorem playInner_trade_returns_iff :
    (∃ x, g.playInner (.trade t) sender = .ok x) ↔ ∃ x, g.playTrade sender t = .ok x := by
  simp only [playInner, bind_eq_ok_iff, pure_eq_ok]
  constructor
  · rintro ⟨_, y, hy, _⟩
    exact ⟨y, hy⟩
  · rintro ⟨y, hy⟩
    exact ⟨_, y, hy, rfl⟩

private theorem Trade.sanitize_has (h : t.sanitize g = .ok t) :
    g.Has t.pair.assetA ∧ g.Has t.pair.assetB := by
  simp only [Trade.sanitize, TradingPairID.sanitize, TokenPointer.sanitize, bind_eq_ok_iff] at h
  obtain ⟨_, ⟨_, hA, _, hB, _⟩, _⟩ := h
  split at hA
  · split at hB
    · rename_i hcA hcB
      exact ⟨by simpa [Has, TokenRegistry.Has] using hcA, by simpa [Has, TokenRegistry.Has] using hcB⟩
    · cases hB
  · cases hA

/-- A trade that passes sanitization returns exactly when it fits. -/
theorem trade_returns_iff (h : Stage setup origin g) (hsender : g.IsUser sender)
    (hsane : t.sanitize g = .ok t) :
    (∃ x, g.playInner (.trade t) sender = .ok x) ↔ g.TradeFits t := by
  obtain ⟨hA, hB⟩ := Trade.sanitize_has hsane
  obtain ⟨hA', hB'⟩ := ConstantFunctionMarketMakerPair.has_normalize hA hB
  have hensures := ConstantFunctionMarketMakerPair.ensure_ok_iff hA' hB'
  rw [TradingPairID.normalize_normalize] at hensures
  rw [playInner_trade_returns_iff, playTrade, TradeFits]
  cases hsell : t.sell with
  | true =>
    simp only [if_true, doSellTrade]
    constructor
    · rintro ⟨x, hx⟩
      obtain ⟨m, g1, hensure⟩ := sellTrade_ensures hx
      exact ⟨hensures.mp ⟨_, hensure⟩, ((h.ready hensure).sell_returns_iff hsender).mp ⟨x, hx⟩⟩
    · rintro ⟨hroom, hfits⟩
      obtain ⟨⟨m, g1⟩, hensure⟩ := hensures.mpr hroom
      exact ((h.ready hensure).sell_returns_iff hsender).mpr hfits
  | false =>
    simp only [Bool.false_eq_true, if_false, doBuyTrade]
    constructor
    · rintro ⟨x, hx⟩
      obtain ⟨m, g1, hensure⟩ := buyTrade_ensures hx
      exact ⟨hensures.mp ⟨_, hensure⟩, ((h.ready hensure).buy_returns_iff hsender).mp ⟨x, hx⟩⟩
    · rintro ⟨hroom, hfits⟩
      obtain ⟨⟨m, g1⟩, hensure⟩ := hensures.mpr hroom
      exact ((h.ready hensure).buy_returns_iff hsender).mpr hfits

/-- A purchase of steel. -/
def buySteel (amount : ℕ) : Trade :=
  { pair := steelPair, amountA := 0, amountB := amount, sell := false, cap := none }

/-- A purchase of one unit from a funded market fits, and so it returns. -/
theorem trade_returns_one : ∃ g, Reachable twoPlayers g ∧ g.TradeFits (buySteel 1) := by
  have h : returns (do
      let g ← playAll [(opening, "alice")] (← GameBoard.new twoPlayers)
      let x ← g.playInner (.trade (buySteel 1)) 0xc0de0008
      pure (g, x)) (fun y => y.1.IsUser 0xc0de0008 ∧ (buySteel 1).sanitize y.1 = .ok (buySteel 1)) := by
    decide +kernel
  obtain ⟨y, hok, htest⟩ := returns_iff.mp h
  simp only [bind_eq_ok_iff, pure_eq_ok, Except.ok.injEq] at hok
  obtain ⟨g0, hnew, g, hplay, x, hinner, rfl⟩ := hok
  obtain ⟨hsender, hsane⟩ := of_decide_eq_true htest
  have hreach := (Reachable.new hnew).later (later_of_playAll hplay)
  exact ⟨g, hreach, (trade_returns_iff (.between hreach) hsender hsane).mp ⟨x, hinner⟩⟩

/-- A sale of bitcoin against real sats, a pair whose market was never funded. -/
def sellUnfunded : Trade :=
  { pair := { assetA := 0xc0de0001, assetB := 0xc0de0002 }
    amountA := 5
    amountB := 0
    sell := true
    cap := none }

/-- A purchase of all that a market holds divides by zero, and a sale to a market that was never
funded subtracts one from zero. -/
theorem trade_aborts : ∃ g, Reachable twoPlayers g ∧ g.IsUser 0xc0de0008 ∧
    (buySteel 10900).sanitize g = .ok (buySteel 10900) ∧
    sellUnfunded.sanitize g = .ok sellUnfunded ∧
    g.playInner (.trade (buySteel 10900)) 0xc0de0008 = .error .divisionByZero ∧
    g.playInner (.trade sellUnfunded) 0xc0de0008 = .error .overflow := by
  have h : returns (do playAll [(opening, "alice")] (← GameBoard.new twoPlayers)) (fun g =>
      g.IsUser 0xc0de0008 ∧ (buySteel 10900).sanitize g = .ok (buySteel 10900) ∧
        sellUnfunded.sanitize g = .ok sellUnfunded ∧
        aborts (g.playInner (.trade (buySteel 10900)) 0xc0de0008) .divisionByZero ∧
        aborts (g.playInner (.trade sellUnfunded) 0xc0de0008) .overflow) := by
    decide +kernel
  obtain ⟨g, hok, htest⟩ := returns_iff.mp h
  obtain ⟨g0, hnew, hplay⟩ := bind_eq_ok_iff.mp hok
  obtain ⟨hsender, hsane1, hsane2, hbuy, hsell⟩ := of_decide_eq_true htest
  exact ⟨g, (Reachable.new hnew).later (later_of_playAll hplay), hsender, hsane1, hsane2,
    aborts_iff.mp hbuy, aborts_iff.mp hsell⟩

end JudicaVM
