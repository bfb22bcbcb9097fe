import JudicaVM.Board.Simulation

/-!
# Liquidity shares

A deposit issues shares in proportion to the supply there is. The supply of a new market is zero,
and so nothing is ever issued.
-/

namespace JudicaVM

open Checked Std OrderedMap Transition GameBoard ConstantFunctionMarketMaker

/-- A call of `deposit`. -/
structure Deposit where
  id : TradingPairID
  amountA : ℕ
  amountB : ℕ
  depositor : EntityID

variable {g g1 g' : GameBoard} {m : ConstantFunctionMarketMakerPair} {d : Deposit}
  {id : TradingPairID} {amountA amountB : ℕ} {depositor : EntityID}

/-- The supply of shares of a market, which is nothing if there is no market. -/
def GameBoard.shares (g : GameBoard) (id : TradingPairID) : ℕ :=
  match g.markets[id.normalize]? with
  | some m => g.total m.lp
  | none => 0

namespace Deposit

def call (d : Deposit) (g : GameBoard) : Except Panic GameBoard :=
  deposit g d.id d.amountA d.amountB d.depositor

/-- The amounts in the order of the normalized pair. -/
def amounts (d : Deposit) : ℕ × ℕ := (d.id.withAmounts d.amountA d.amountB).2

/-- Two positive amounts in the proportion of the holdings, which the depositor has. -/
structure Accepted (d : Deposit) (g : GameBoard) : Prop where
  positive : 0 < d.amounts.1 ∧ 0 < d.amounts.2
  ratio : d.amounts.1 * g.holding d.id d.id.normalize.assetB =
    g.holding d.id d.id.normalize.assetA * d.amounts.2
  paysA : d.amounts.1 ≤ g.balance d.id.normalize.assetA d.depositor
  paysB : d.amounts.2 ≤ g.balance d.id.normalize.assetB d.depositor

/-- Whoever calls is no market, and the assets differ. -/
structure Ready (d : Deposit) (g : GameBoard) : Prop where
  party : g.Party d.depositor
  distinct : d.id.assetA ≠ d.id.assetB

/-- An accepted deposit leaves a positive supply and issues a proportional amount to the depositor.
Any other deposit moves nothing. -/
structure Issues (d : Deposit) (g g' : GameBoard) : Prop where
  supply : d.Accepted g → 0 < g'.shares d.id
  share : d.Accepted g → 0 < g.shares d.id →
    g'.shares d.id = g.shares d.id +
        g.shares d.id * d.amounts.1 / g.holding d.id d.id.normalize.assetA ∧
      ∀ m, g'.markets[d.id.normalize]? = some m → g'.balance m.lp d.depositor =
        g.balance m.lp d.depositor +
          g.shares d.id * d.amounts.1 / g.holding d.id d.id.normalize.assetA
  refused : ¬ d.Accepted g → g.Unmoved g'

end Deposit

/-- The same board with a ledger that reads the same. -/
structure GameBoard.Restored (g g' : GameBoard) (tokens : TokenRegistry) : Prop where
  eq : g' = g.withTokens tokens
  sound : tokens.Sound
  keys : keySet tokens.tokens = keySet g.tokens.tokens
  has : ∀ p, tokens.Has p ↔ g.Has p
  boards : tokens.hashboards = g.tokens.hashboards
  balances : ∀ p i, tokens.balance p i = g.balance p i
  totals : ∀ p, tokens.total p = g.total p

namespace GameBoard.Restored

variable {tokens : TokenRegistry}

private theorem refl (hi : g.Inv) : g.Restored g g.tokens :=
  ⟨rfl, hi.tokens, rfl, fun _ => Iff.rfl, rfl, fun _ _ => rfl, fun _ => rfl⟩

private theorem unmoved (h : g.Restored g' tokens) : g.Unmoved g' := by
  have heq := h.eq
  subst heq
  exact ⟨h.balances, h.totals, fun _ _ hm => hm⟩

private theorem inv (h : g.Restored g' tokens) (hi : g.Inv) : g'.Inv := by
  have heq := h.eq
  subst heq
  apply hi.withTokens h.sound h.keys h.has h.boards
  · intro p i hpos
    exact hi.holders p i (h.balances p i ▸ hpos)
  · intro pair m hm p
    exact h.balances p m.id

private theorem undone {p : TokenPointer} {amount : ℕ} {account : EntityID} (hi : g.Inv)
    (hp : g.Has p)
    (hne : depositor ≠ account) (hpays : amount ≤ g.balance p depositor) :
    g.Restored
      (g.withTokens ((g.tokens.moved p depositor account amount).moved p account depositor amount))
      ((g.tokens.moved p depositor account amount).moved p account depositor amount) := by
  have hsound : (g.tokens.moved p depositor account amount).Sound :=
    TokenRegistry.moved_sound hi.tokens hpays
  have hhas : (g.tokens.moved p depositor account amount).Has p := TokenRegistry.moved_has.mpr hp
  have hback : (g.tokens.moved p depositor account amount).balance p account =
      g.tokens.balance p account + amount := by
    rw [TokenRegistry.moved_balance hp, if_pos rfl, if_neg hne, if_pos rfl, Nat.sub_zero]
  refine ⟨rfl, TokenRegistry.moved_sound hsound (by omega), ?_, ?_, ?_, ?_, ?_⟩
  · simp only [TokenRegistry.moved, TokenRegistry.update_keySet]
  · intro q
    rw [TokenRegistry.moved_has, TokenRegistry.moved_has]
    rfl
  · rw [TokenRegistry.moved_hashboards, TokenRegistry.moved_hashboards]
  · intro q i
    have hpays' : amount ≤ g.tokens.balance p depositor := hpays
    rw [TokenRegistry.moved_balance hhas, TokenRegistry.moved_balance hp]
    show _ = g.tokens.balance q i
    by_cases hq : p = q
    · subst hq
      by_cases hdep : depositor = i
      · subst hdep
        simp [hne.symm]
        omega
      · by_cases hacc : account = i
        · subst hacc
          simp [hne]
        · simp [hdep, hacc]
    · simp [hq, TokenRegistry.moved_balance hp]
  · intro q
    rw [TokenRegistry.moved_total, TokenRegistry.moved_total]
    rfl

end GameBoard.Restored

private theorem deposit_lacks (hi : g.Inv) (hn : id.isNormal) (hparty : g.Party depositor)
    (hne : id.assetA ≠ id.assetB)
    (hlack : ¬ (amountA ≤ g.balance id.assetA depositor ∧ amountB ≤ g.balance id.assetB depositor))
    (h : deposit g id amountA amountB depositor = .ok g') :
    g' = g ∨ ∃ m g1 tokens, ConstantFunctionMarketMakerPair.ensure g id = .ok (m, g1) ∧
      g1.Restored g' tokens := by
  simp only [deposit, TradingPairID.withAmounts_of_isNormal hn] at h
  split at h
  · cases h
    exact .inl rfl
  obtain ⟨⟨m, g1⟩, hensure, h⟩ := bind_eq_ok_iff.mp h
  obtain ⟨hm, hi1, hparty1, hbal⟩ := ensure_depositor hi hn hparty hensure
  rw [← hbal, ← hbal] at hlack
  have hms := hi1.markets _ m hm
  have hA : g1.tokens.Has id.assetA := hms.hasA
  have hB : g1.tokens.Has id.assetB := hms.hasB
  have hne' : depositor ≠ m.id := fun heq => hparty1.not_market id m hm heq.symm
  simp only [bind_eq_ok_iff, mul_eq_ok_iff] at h
  obtain ⟨_, hamtB, _, ⟨_, rfl⟩, _, hamtA, _, ⟨_, rfl⟩, h⟩ := h
  split at h
  · rw [pure_eq_ok, Except.ok.injEq] at h
    subst h
    exact .inr ⟨m, g1, _, hensure, .refl hi1⟩
  rw [TokenRegistry.transfer_eq hi1.tokens hA] at h
  by_cases hpaysA : amountA ≤ g1.tokens.balance id.assetA depositor
  · have hlackB : (g1.tokens.moved id.assetA depositor m.id amountA).balance id.assetB depositor <
        amountB := by
      rw [TokenRegistry.moved_balance hA, if_neg hne]
      exact Nat.lt_of_not_le fun hpaysB => hlack ⟨hpaysA, hpaysB⟩
    have hback : ¬ (g1.tokens.moved id.assetA depositor m.id amountA).balance id.assetA m.id <
        amountA := by
      rw [TokenRegistry.moved_balance hA, if_pos rfl, if_neg hne', if_pos rfl]
      omega
    have hsound : (g1.tokens.moved id.assetA depositor m.id amountA).Sound :=
      TokenRegistry.moved_sound hi1.tokens hpaysA
    rw [if_neg (Nat.not_lt_of_le hpaysA)] at h
    simp only [ok_bind, Bool.not_true, Bool.false_eq_true, if_false,
      TokenRegistry.transfer_eq hsound (TokenRegistry.moved_has.mpr hB), if_pos hlackB,
      Bool.not_false, if_true, TokenRegistry.transfer_eq hsound (TokenRegistry.moved_has.mpr hA),
      if_neg hback, pure_eq_ok, Except.ok.injEq] at h
    subst h
    exact .inr ⟨m, g1, _, hensure, .undone hi1 hA hne' hpaysA⟩
  · rw [if_pos (Nat.lt_of_not_le hpaysA)] at h
    simp only [ok_bind, Bool.not_false, if_true, pure_eq_ok, Except.ok.injEq] at h
    subst h
    exact .inr ⟨m, g1, _, hensure, .refl hi1⟩

/-- An accepted deposit goes through on the board with the market. -/
structure Deposit.Enters (d : Deposit) (g g1 g' : GameBoard) (m : ConstantFunctionMarketMakerPair)
    (toMint : ℕ) : Prop where
  ensured : ConstantFunctionMarketMakerPair.ensure g d.id.normalize = .ok (m, g1)
  can : g1.CanDeposit m d.amounts.1 d.amounts.2 toMint d.depositor
  eq : g' = g1.withReserves m (g1.deposited m d.amounts.1 d.amounts.2 toMint d.depositor)

private theorem ensure_inv {pair : TradingPairID} (hi : g.Inv)
    (h : ConstantFunctionMarketMakerPair.ensure g pair = .ok (m, g1)) : g1.Inv := by
  obtain ⟨-, rfl | hopen⟩ := ConstantFunctionMarketMakerPair.ensure_cases h
  · exact hi
  · exact hopen.inv hi

private theorem ensure_reserves (hi : g.Inv)
    (h : ConstantFunctionMarketMakerPair.ensure g id.normalize = .ok (m, g1)) :
    m.reserveA = g.holding id id.normalize.assetA ∧
      m.reserveB = g.holding id id.normalize.assetB := by
  have hm := (ConstantFunctionMarketMakerPair.ensure_cases h).1
  rw [TradingPairID.normalize_normalize] at hm
  have hms := (ensure_inv hi h).markets _ m hm
  rw [hms.reserveA_eq, hms.reserveB_eq]
  exact ⟨ensure_holding hi h _, ensure_holding hi h _⟩

private theorem Deposit.call_cases (hi : g.Inv) (hready : d.Ready g) (h : d.call g = .ok g') :
    (d.Accepted g ∧ ∃ m g1 toMint, d.Enters g g1 g' m toMint) ∨
      ¬ d.Accepted g ∧ (g' = g ∨ ∃ m g1 tokens,
        ConstantFunctionMarketMakerPair.ensure g d.id.normalize = .ok (m, g1) ∧
          g1.Restored g' tokens) := by
  have hne : d.id.normalize.assetA ≠ d.id.normalize.assetB := by
    unfold TradingPairID.normalize
    split
    · exact hready.distinct
    · exact hready.distinct.symm
  have hn : d.id.normalize.isNormal := TradingPairID.isNormal_normalize
  rw [Deposit.call, deposit_normalize] at h
  by_cases hpays : d.amounts.1 ≤ g.balance d.id.normalize.assetA d.depositor ∧
      d.amounts.2 ≤ g.balance d.id.normalize.assetB d.depositor
  · rcases deposit_cases hi hn hready.party hne hpays.1 hpays.2 h with
      ⟨rfl, hzero⟩ | ⟨m, g1, hensure, ⟨rfl, hratio⟩ | ⟨hratio, toMint, hcan, heq⟩⟩
    · refine .inr ⟨fun haccept => ?_, .inl rfl⟩
      have hpos := haccept.positive
      have hzero' : d.amounts.1 = 0 ∨ d.amounts.2 = 0 := hzero
      omega
    · refine .inr ⟨fun haccept => hratio ?_, .inr ⟨m, g', _, hensure,
        .refl (ensure_inv hi hensure)⟩⟩
      obtain ⟨hA, hB⟩ := ensure_reserves hi hensure
      rw [hA, hB]
      exact haccept.ratio
    · obtain ⟨hA, hB⟩ := ensure_reserves hi hensure
      rw [hA, hB] at hratio
      exact .inl ⟨⟨hcan.positive, hratio, hpays.1, hpays.2⟩, m, g1, toMint, hensure, hcan, heq⟩
  · refine .inr ⟨fun haccept => hpays ⟨haccept.paysA, haccept.paysB⟩, ?_⟩
    exact deposit_lacks hi hn hready.party hne hpays h

/-- No market has issued shares. -/
def GameBoard.NoShares (g : GameBoard) : Prop :=
  ∀ (pair : TradingPairID) m, g.markets[pair]? = some m → g.total m.lp = 0

private theorem GameBoard.NoShares.shares (h : g.NoShares) (id : TradingPairID) :
    g.shares id = 0 := by
  unfold GameBoard.shares
  cases hm : g.markets[id.normalize]? with
  | none => rfl
  | some m => exact h _ m hm

/-- The mint of a token that is the shares of a market. -/
def Event.MintsShares (g : GameBoard) : Event → Prop
  | .mint p _ _ => ∃ (pair : TradingPairID) (m : _), g.markets[pair]? = some m ∧ m.lp = p
  | _ => False

private theorem GameBoard.NoShares.of_same (hs : g.NoShares) (hmarkets : g'.markets = g.markets)
    (htotals : ∀ p, g.Has p → g'.total p = g.total p) (hi : g.Inv) : g'.NoShares := by
  intro pair m hm
  rw [hmarkets] at hm
  rw [htotals _ (hi.markets pair m hm).hasShares]
  exact hs pair m hm

private theorem GameBoard.NoShares.withReserves (hs : g.NoShares) {tokens : TokenRegistry}
    (hm : g.markets[m.pair]? = some m) (htotals : ∀ p, tokens.total p = g.total p) :
    (g.withReserves m tokens).NoShares := by
  intro pair n hn
  show tokens.total n.lp = 0
  rw [htotals]
  simp only [GameBoard.withReserves, OrderedMap.getElem?_insert] at hn
  split at hn
  · cases hn
    exact hs _ m hm
  · exact hs pair n hn

private theorem Occurs.noShares {e : Event} (hi : g.Inv) (h : Occurs g e g')
    (he : ¬ e.MintsShares g)
    (hs : g.NoShares) : g'.NoShares := by
  cases h with
  | openMarket pair shares hnone hnormal hA hB hroom =>
    intro q n hn
    simp only [GameBoard.openMarket, OrderedMap.getElem?_insert] at hn
    split at hn
    · cases hn
      simp [GameBoard.openMarket, total, TokenRegistry.total, TokenRegistry.newToken_getElem?,
        TokenBase.empty]
    · rw [openMarket_total hi (hi.markets q n hn).hasShares]
      exact hs q n hn
  | transfer p sender receiver amount hp hpays hsender hreceiver =>
    exact hs.of_same rfl (fun q _ => TokenRegistry.moved_total) hi
  | mint p dest amount hp hfits hdest =>
    intro pair m hm
    have hne : p ≠ m.lp := fun heq => he ⟨pair, m, hm, heq.symm⟩
    show (g.tokens.minted p dest amount).total m.lp = 0
    rw [TokenRegistry.minted_total hp, if_neg hne]
    exact hs pair m hm
  | swap m selling buying sellAmt buyAmt trader h =>
    exact hs.withReserves h.market fun p => swapped_total
  | deposit m amountA amountB toMint depositor h =>
    refine hs.withReserves h.market fun p => ?_
    have hzero : toMint = 0 := by
      rw [h.shares, hs _ m h.market, Nat.zero_mul, Nat.zero_div]
    rw [h.total_eq hi, hzero, ite_self, Nat.add_zero]
  | sold asset nft sale buyer hnft hsale hseller hcount hp hpays hbuyer =>
    exact hs.of_same rfl (fun q _ => TokenRegistry.moved_total) hi
  | _ => exact hs.of_same rfl (fun _ _ => rfl) hi

/-- The deposits of a history, each with the board before and after it. Between them there are
trades and other events that mint no shares. -/
inductive Deposits (g : GameBoard) :
    List (GameBoard × Deposit × GameBoard) → GameBoard → Prop
  | nil : Deposits g [] g
  | deposit {g1 g2 : GameBoard} {ds : List (GameBoard × Deposit × GameBoard)} {d : Deposit}
      (h : Deposits g ds g1) (hready : d.Ready g1) (hcall : d.call g1 = .ok g2) :
      Deposits g (ds ++ [(g1, d, g2)]) g2
  | buy {g1 g2 : GameBoard} {ds : List (GameBoard × Deposit × GameBoard)} {id : TradingPairID}
      {amountA amountB : ℕ} {cap : Option ℕ} {simulate : Bool} {sender : EntityID}
      {r : Except TradeError TradeOutcome} (h : Deposits g ds g1) (hparty : g1.Party sender)
      (htrade : doBuyTrade g1 id amountA amountB cap simulate sender = .ok (r, g2)) :
      Deposits g ds g2
  | sell {g1 g2 : GameBoard} {ds : List (GameBoard × Deposit × GameBoard)} {id : TradingPairID}
      {amountA amountB : ℕ} {cap : Option ℕ} {simulate : Bool} {sender : EntityID}
      {r : Except TradeError TradeOutcome} (h : Deposits g ds g1) (hparty : g1.Party sender)
      (htrade : doSellTrade g1 id amountA amountB cap simulate sender = .ok (r, g2)) :
      Deposits g ds g2
  | between {g1 g2 : GameBoard} {ds : List (GameBoard × Deposit × GameBoard)} {e : Event}
      (h : Deposits g ds g1) (hevent : Occurs g1 e g2) (hmint : ¬ e.MintsShares g1) :
      Deposits g ds g2

private theorem isTrade_mints {sender : EntityID} {simulate : Bool} {e : Event}
    (h : IsTrade sender simulate e) : ¬ e.MintsShares g := by
  cases e <;> simp_all [IsTrade, Event.MintsShares]

private theorem GameBoard.NoShares.trade {sender : EntityID} {simulate : Bool} (hi : g.Inv)
    (hs : g.NoShares) (h : Trace (IsTrade sender simulate) g g') : g'.NoShares :=
  (Run.invariant (I := fun s => s.Inv ∧ s.NoShares)
    (fun _ _ _ he h hstep => ⟨hstep.inv h.1, hstep.noShares h.1 (isTrade_mints he) h.2⟩) h
    ⟨hi, hs⟩).2

private theorem Deposit.noShares (hi : g.Inv) (hs : g.NoShares) (hready : d.Ready g)
    (h : d.call g = .ok g') : g'.Inv ∧ g'.NoShares := by
  have hopen {m : ConstantFunctionMarketMakerPair} {g1 : GameBoard}
      (hensure : ConstantFunctionMarketMakerPair.ensure g d.id.normalize = .ok (m, g1)) :
      g1.NoShares :=
    hs.trade hi (ensure_trace 0 true hensure)
  rcases Deposit.call_cases hi hready h with
    ⟨-, m, g1, toMint, henters⟩ | ⟨-, rfl | ⟨m, g1, tokens, hensure, hrestored⟩⟩
  · have hi1 := ensure_inv hi henters.ensured
    have hstep := Occurs.deposit g1 m _ _ toMint d.depositor henters.can
    rw [henters.eq]
    exact ⟨hstep.inv hi1, hstep.noShares hi1 not_false (hopen henters.ensured)⟩
  · exact ⟨hi, hs⟩
  · have hi1 := ensure_inv hi hensure
    refine ⟨hrestored.inv hi1, (hopen hensure).of_same ?_ ?_ hi1⟩
    · rw [hrestored.eq]
      rfl
    · intro p _
      exact hrestored.unmoved.totals p

private theorem Deposits.noShares {ds : List (GameBoard × Deposit × GameBoard)}
    (h : Deposits g ds g')
    (hi : g.Inv) (hs : g.NoShares) :
    g'.Inv ∧ g'.NoShares ∧ ∀ x ∈ ds, x.1.Inv ∧ x.2.2.NoShares ∧ x.2.1.Ready x.1 ∧
      x.2.1.call x.1 = .ok x.2.2 := by
  induction h with
  | nil => exact ⟨hi, hs, fun x hx => absurd hx (List.not_mem_nil)⟩
  | deposit h hready hcall ih =>
    obtain ⟨hi1, hs1, hall⟩ := ih
    obtain ⟨hi2, hs2⟩ := Deposit.noShares hi1 hs1 hready hcall
    refine ⟨hi2, hs2, fun x hx => ?_⟩
    rcases List.mem_append.mp hx with hx | hx
    · exact hall x hx
    · rw [List.mem_singleton.mp hx]
      exact ⟨hi1, hs2, hready, hcall⟩
  | buy h hparty htrade ih =>
    obtain ⟨hi1, hs1, hall⟩ := ih
    have htrace := doBuyTrade_trace hi1 hparty htrade
    exact ⟨htrace.inv hi1, hs1.trade hi1 htrace, hall⟩
  | sell h hparty htrade ih =>
    obtain ⟨hi1, hs1, hall⟩ := ih
    have htrace := doSellTrade_trace hi1 hparty htrade
    exact ⟨htrace.inv hi1, hs1.trade hi1 htrace, hall⟩
  | between h hevent hmint ih =>
    obtain ⟨hi1, hs1, hall⟩ := ih
    exact ⟨hevent.inv hi1, hevent.noShares hi1 hmint hs1, hall⟩

private theorem GameBoard.NoShares.mint {p : TokenPointer} {dest : EntityID} {amount : ℕ}
    {tokens : TokenRegistry} (hs : g.NoShares) (hi : g.Inv) (hb : g.Base) (hp : p ≤ g.rootUser)
    (h : g.tokens.mint p dest amount = .ok tokens) : (g.withTokens tokens).NoShares := by
  obtain ⟨hhas, hfits, rfl⟩ := (TokenRegistry.mint_eq_ok_iff hi.tokens).mp h
  intro pair m hm
  have hne : p ≠ m.lp := fun heq => absurd (heq ▸ hb.shares pair m hm) (Nat.not_lt_of_le hp)
  show (g.tokens.minted p dest amount).total m.lp = 0
  rw [TokenRegistry.minted_total hhas, if_neg hne]
  exact hs pair m hm

private theorem makeMarket_noShares {p : TokenPointer} (hi : g.Inv) (hs : g.NoShares)
    (h : makeMarket g p = .ok g') : g'.NoShares := by
  simp only [makeMarket, bind_eq_ok_iff, pure_eq_ok, Except.ok.injEq] at h
  obtain ⟨⟨m, g1⟩, hensure, rfl⟩ := h
  exact hs.trade hi (ensure_trace 0 true hensure)

private theorem addProducer_noShares {callback : Producer → Callback} {hashAsset : TokenPointer}
    {adjustsEvery : ℕ} (hs : g.NoShares)
    (h : addProducer g callback hashAsset adjustsEvery = .ok g') : g'.NoShares := by
  simp only [addProducer, EntityIDAllocator.make, bind_eq_ok_iff, add_eq_ok_iff, pure_eq_ok,
    Except.ok.injEq] at h
  obtain ⟨_, -, rfl⟩ := h
  exact hs

private theorem addStartPlants_noShares {players : List EntityID} {i : ℕ} (hi : g.Inv) (hb : g.Base)
    (hs : g.NoShares) (hplayers : ∀ p ∈ players, g.IsUser p)
    (h : addStartPlants players i g = .ok g') : g'.NoShares := by
  induction players generalizing g i with
  | nil =>
    cases h
    exact hs
  | cons player players ih =>
    simp only [addStartPlants, bind_eq_ok_iff] at h
    obtain ⟨g1, hfirst, h⟩ := h
    have htrace := addStartPlant_trace hi (hplayers player List.mem_cons_self) hfirst
    have hext := htrace.extends hi
    apply ih (htrace.inv hi) (Trace.base hi hb (htrace.mono fun _ => IsPostInitEvent.isSetupEvent))
      _ (fun p hp => hext.isUser (hplayers p (List.mem_cons_of_mem _ hp))) h
    simp only [addStartPlant, EntityIDAllocator.make, bind_eq_ok_iff, add_eq_ok_iff] at hfirst
    obtain ⟨_, -, hfirst⟩ := hfirst
    split at hfirst
    · cases hfirst
    · simp only [bind_eq_ok_iff, pure_eq_ok, Except.ok.injEq] at hfirst
      obtain ⟨_, _, tokens, hmint, rfl⟩ := hfirst
      have hasic := (hb.materials g.asicTokenId (by simp [materials])).2.1
      exact hs.mint hi hb hasic hmint

private theorem addPlayers_markets {startAmount : ℕ} {players : List String}
    (h : players.foldlM (addPlayer startAmount) g = .ok g') : g'.markets = g.markets := by
  induction players generalizing g with
  | nil =>
    cases h
    rfl
  | cons player players ih =>
    simp only [List.foldlM_cons, bind_eq_ok_iff] at h
    obtain ⟨g1, hfirst, h⟩ := h
    rw [ih h]
    simp only [addPlayer, bind_eq_ok_iff, pure_eq_ok, Except.ok.injEq] at hfirst
    obtain ⟨_, _, _, _, _, _, rfl⟩ := hfirst
    rfl

private theorem new_noShares {setup : GameSetup} (h : GameBoard.new setup = .ok g) :
    g.NoShares := by
  obtain ⟨start, g0, hstart, hplayers, hpost⟩ := new_stages h
  have htrace0 := addPlayers_trace hstart.inv hplayers
  have hi := htrace0.inv hstart.inv
  have hb := Trace.base hstart.inv hstart.base htrace0
  have hm := hstart.materials.mono (htrace0.extends hstart.inv)
  have hs : g0.NoShares := by
    intro pair m hm
    rw [addPlayers_markets hplayers, hstart.markets] at hm
    simp at hm
  obtain ⟨g1, g2, g3, g4, t1, t2, g5, g6, g7, g8, ⟨h1, h2, h3, h4⟩, hmint1, hmint2,
    ⟨h5, h6, h7, h8⟩, hopened, hscheduled, hplants⟩ := postInit_stages hi hm hpost
  have hi1 := (makeMarket_trace h1).inv hi
  have hi2 := (makeMarket_trace h2).inv hi1
  have hi3 := (makeMarket_trace h3).inv hi2
  have hi4 := hopened.inv hi
  have hs4 : g4.NoShares :=
    makeMarket_noShares hi3 (makeMarket_noShares hi2 (makeMarket_noShares hi1
      (makeMarket_noShares hi hs h1) h2) h3) h4
  have hb4 := Trace.base hi hb hopened
  have hreal : g4.realSatsTokenId ≤ g4.rootUser := by
    have hconst := ((htrace0.extends hstart.inv).trans (hopened.extends hi)).constants_eq
    simp only [constants, Constants.mk.injEq] at hconst
    obtain ⟨-, hreal, -, -, -, -, hroot, -⟩ := hconst
    have hsteel := (hstart.base.materials start.steelTokenId (by simp [materials])).2.1
    rw [hstart.ids.2.2.2.2.1] at hsteel
    rw [hreal, hroot, hstart.ids.2.1]
    exact Nat.le_trans (by decide) hsteel
  have hroot {b : GameBoard} (hb : b.Inv) : b.Party b.rootUser := hb.party_of_mem (.inr (.inl rfl))
  have hmintBtc : Trace IsPostInitEvent g4 (g4.withTokens t1) :=
    mint_trace hi4 (hroot hi4) trivial hmint1
  have hs5 := hs4.mint hi4 hb4 hb4.bitcoin_le hmint1
  have hi5 := hmintBtc.inv hi4
  have hb5 := Trace.base hi4 hb4 hmintBtc
  have hs6 : ((g4.withTokens t2).schedule
      (.powerPlantEvent { time := 0, period := 11_003 })).NoShares :=
    hs5.mint hi5 hb5 hreal hmint2
  have hs8 : g8.NoShares :=
    addProducer_noShares (addProducer_noShares (addProducer_noShares
      (addProducer_noShares hs6 h5) h6) h7) h8
  have hi8 := hscheduled.inv hi4
  exact addStartPlants_noShares hi8 (Trace.base hi4 hb4 hscheduled) hs8
    (fun _ => isUser_of_mem_sortedIds hi8) hplants

/-- The deposits of a game issue shares as they should exactly if none is accepted. -/
theorem deposits_issue_iff {setup : GameSetup} {ds : List (GameBoard × Deposit × GameBoard)}
    (hnew : GameBoard.new setup = .ok g) (h : Deposits g ds g') :
    (∀ x ∈ ds, x.2.1.Issues x.1 x.2.2) ↔ ∀ x ∈ ds, ¬ x.2.1.Accepted x.1 := by
  obtain ⟨-, -, hall⟩ := h.noShares (new_inv hnew) (new_noShares hnew)
  constructor
  · intro hissues x hx haccept
    have hpos := (hissues x hx).supply haccept
    rw [(hall x hx).2.1.shares] at hpos
    exact absurd hpos (lt_irrefl 0)
  · intro hrefused x hx
    obtain ⟨hix, -, hready, hcall⟩ := hall x hx
    have hnot := hrefused x hx
    refine ⟨fun haccept => absurd haccept hnot, fun haccept => absurd haccept hnot, fun _ => ?_⟩
    rcases Deposit.call_cases hix hready hcall with
      ⟨haccept, -⟩ | ⟨-, hsame | ⟨m, g1, tokens, hensure, hrestored⟩⟩
    · exact absurd haccept hnot
    · rw [hsame]
      exact .refl _
    · exact (ensure_unmoved hix hensure).trans hrestored.unmoved

/-- A deposit of bitcoin and real sats. -/
def satsDeposit : Deposit :=
  { id := { assetA := 0xc0de0001, assetB := 0xc0de0002 }
    amountA := 10
    amountB := 10
    depositor := 0xc0de0008 }

private theorem satsDeposit_accepted : ∃ g g', GameBoard.new twoPlayers = .ok g ∧
    Deposits g [(g, satsDeposit, g')] g' ∧ satsDeposit.Accepted g := by
  have h : returns (do
      let g ← GameBoard.new twoPlayers
      let g' ← satsDeposit.call g
      pure (g, g')) (fun y => y.1.IsUser 0xc0de0008 ∧
        (satsDeposit.amounts = (10, 10) ∧ satsDeposit.id.normalize = satsDeposit.id) ∧
        y.1.holding satsDeposit.id 0xc0de0001 = 0 ∧ y.1.holding satsDeposit.id 0xc0de0002 = 0 ∧
        10 ≤ y.1.balance 0xc0de0001 0xc0de0008 ∧ 10 ≤ y.1.balance 0xc0de0002 0xc0de0008) := by
    decide +kernel
  obtain ⟨y, hok, htest⟩ := returns_iff.mp h
  simp only [bind_eq_ok_iff, pure_eq_ok, Except.ok.injEq] at hok
  obtain ⟨g, hnew, g', hcall, rfl⟩ := hok
  obtain ⟨huser, ⟨hamounts, hid⟩, hA, hB, hpaysA, hpaysB⟩ := of_decide_eq_true htest
  have hready : satsDeposit.Ready g :=
    ⟨(new_inv hnew).party_of_user huser, by decide⟩
  refine ⟨g, g', hnew, Deposits.nil.deposit hready hcall, ?_⟩
  have hassets : satsDeposit.id.normalize.assetA = 0xc0de0001 ∧
      satsDeposit.id.normalize.assetB = 0xc0de0002 := by
    rw [hid]
    exact ⟨rfl, rfl⟩
  constructor
  · rw [hamounts]
    decide
  · rw [hassets.1, hassets.2, hA, hB, Nat.mul_zero, Nat.zero_mul]
  · rw [hassets.1, hamounts]
    exact hpaysA
  · rw [hassets.2, hamounts]
    exact hpaysB

/-- The first deposit into a market is accepted and issues nothing, and so it is in play. -/
theorem first_deposit_issues_nothing :
    (∃ g g', GameBoard.new twoPlayers = .ok g ∧ Deposits g [(g, satsDeposit, g')] g' ∧
      satsDeposit.Accepted g ∧ g'.shares satsDeposit.id = 0 ∧ ¬ satsDeposit.Issues g g') ∧
    ∃ g, Reachable twoPlayers g ∧ 0 < g.holding steelPair 0xc0de0001 ∧ g.shares steelPair = 0 := by
  constructor
  · obtain ⟨g, g', hnew, hdeposits, haccept⟩ := satsDeposit_accepted
    have hshares : g'.shares satsDeposit.id = 0 :=
      (hdeposits.noShares (new_inv hnew) (new_noShares hnew)).2.1.shares _
    refine ⟨g, g', hnew, hdeposits, haccept, hshares, fun hissues => ?_⟩
    have hpos := hissues.supply haccept
    omega
  · have h : returns (do playAll [(opening, "alice")] (← GameBoard.new twoPlayers)) (fun g =>
        0 < g.holding steelPair 0xc0de0001 ∧ g.shares steelPair = 0) := by
      decide +kernel
    obtain ⟨g, hok, htest⟩ := returns_iff.mp h
    obtain ⟨g0, hnew, hplay⟩ := bind_eq_ok_iff.mp hok
    obtain ⟨hfunded, hshares⟩ := of_decide_eq_true htest
    exact ⟨g, (Reachable.new hnew).later (later_of_playAll hplay), hfunded, hshares⟩

theorem deposits_issue_refused : ∃ g, GameBoard.new twoPlayers = .ok g ∧
    ({ satsDeposit with amountB := 0 } : Deposit).Issues g g := by
  obtain ⟨g, g', hnew, hdeposits, haccept⟩ := satsDeposit_accepted
  have hready : ({ satsDeposit with amountB := 0 } : Deposit).Ready g := by
    obtain ⟨-, -, hall⟩ := hdeposits.noShares (new_inv hnew) (new_noShares hnew)
    have hparty := (hall _ (List.mem_singleton_self _)).2.2.1.party
    exact ⟨hparty, by decide⟩
  have hcall : ({ satsDeposit with amountB := 0 } : Deposit).call g = .ok g := by
    have hnormal : satsDeposit.id.isNormal := by decide
    simp only [Deposit.call, deposit, TradingPairID.withAmounts_of_isNormal hnormal, or_true,
      if_true, pure_eq_ok]
  refine ⟨g, hnew, (deposits_issue_iff hnew (Deposits.nil.deposit hready hcall)).mpr ?_ _
    (List.mem_singleton_self _)⟩
  intro x hx haccept'
  rw [List.nil_append, List.mem_singleton] at hx
  subst hx
  have hzero : ({ satsDeposit with amountB := 0 } : Deposit).amounts.2 = 0 := by decide
  exact absurd hzero haccept'.positive.2.ne'

end JudicaVM
