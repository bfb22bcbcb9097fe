import JudicaVM.Board.Pricing
import JudicaVM.Board.Conservation

/-!
# Simulated and real trades

A simulation stops before anything is moved. Its result is that of the real trade, and a real trade
that is refused has moved nothing.
-/

namespace JudicaVM

open Checked Std OrderedMap Transition GameBoard ConstantProduct ConstantFunctionMarketMaker

/-- What either trade routine returns. -/
abbrev TradeResult := Except Panic (Except TradeError TradeOutcome × GameBoard)

variable {setup : GameSetup} {origin g g1 g' : GameBoard} {id : TradingPairID}
  {m : ConstantFunctionMarketMakerPair} {sender : EntityID}
  {direction : Except TradeError (TokenPointer × TokenPointer × ℕ)} {f : Bool → TradeResult}

namespace GameBoard

/-- No balance, total or reserve differs. -/
structure Unmoved (g g' : GameBoard) : Prop where
  balances : ∀ p i, g'.balance p i = g.balance p i
  totals : ∀ p, g'.total p = g.total p
  markets : ∀ (pair : TradingPairID) m, g.markets[pair]? = some m → g'.markets[pair]? = some m

/-- How a routine can end on a board with the market, as a function of whether it simulates. -/
inductive Settles (g : GameBoard) (m : ConstantFunctionMarketMakerPair) (id : TradingPairID)
    (direction : Except TradeError (TokenPointer × TokenPointer × ℕ)) (sender : EntityID) :
    (Bool → TradeResult) → Prop
  | aborts (p : Panic) : g.Settles m id direction sender (fun _ => .error p)
  | refused (e : TradeError) : g.Settles m id direction sender (fun _ => .ok (.error e, g))
  | priced {selling buying : TokenPointer} {amount s b : ℕ}
      (hd : direction = .ok (buying, selling, amount))
      (h : ConstantFunctionMarketMaker.Priced g m selling buying s b) :
      g.Settles m id direction sender
        (fun simulate => .ok (g.concluded m id selling buying s b simulate sender))

/-- The result does not depend on whether the trade is simulated, a trade that succeeds exchanges
the amounts that are reported, and one that fails moves nothing. -/
structure Simulates (g : GameBoard) (id : TradingPairID)
    (direction : Except TradeError (TokenPointer × TokenPointer × ℕ)) (sender : EntityID)
    (f : Bool → TradeResult) : Prop where
  predicts : (f true).map Prod.fst = (f false).map Prod.fst
  exchanges : ∀ o g', f false = .ok (.ok o, g') → ∃ m buying selling amount,
    direction = .ok (buying, selling, amount) ∧ g'.markets[id.normalize]? = some m ∧
      g.Exchanges g' m.id selling buying o.amountPlayerSold o.amountPlayerPurchased sender
  unmoved : ∀ simulate e g', f simulate = .ok (.error e, g') → g.Unmoved g'

end GameBoard

theorem GameBoard.Unmoved.refl (g : GameBoard) : g.Unmoved g :=
  ⟨fun _ _ => rfl, fun _ => rfl, fun _ _ h => h⟩

theorem ensure_unmoved {pair : TradingPairID} (hi : g.Inv)
    (h : ConstantFunctionMarketMakerPair.ensure g pair = .ok (m, g1)) : g.Unmoved g1 := by
  obtain ⟨-, rfl | hopen⟩ := ConstantFunctionMarketMakerPair.ensure_cases h
  · exact .refl _
  · refine ⟨fun p i => balance_of_openMarket hi hopen, fun p => ?_, fun q n hq => ?_⟩
    · cases hopen with
      | openMarket _ shares =>
        by_cases hp : g.Has p
        · exact openMarket_total hi hp
        · have hnone : g.tokens.tokens[p]? = none := by
            simpa [Has, TokenRegistry.Has] using hp
          simp only [total, TokenRegistry.total, openMarket, TokenRegistry.newToken_getElem?, hnone]
          split <;> rfl
    · cases hopen with
      | openMarket _ shares hnone =>
        have hne : q ≠ pair.normalize := by
          intro heq
          subst heq
          rw [hnone] at hq
          cases hq
        simp [openMarket, OrderedMap.getElem?_insert, hne.symm, hq]

private theorem buy_settles (cap : Option ℕ) {amountA amountB : ℕ} (hi : g.Inv)
    (hparty : g.Party sender)
    (hm : g.markets[id.normalize]? = some m) :
    g.Settles m id.normalize
      (buyDirection id.normalize (id.withAmounts amountA amountB).2.1
        (id.withAmounts amountA amountB).2.2) sender
      (fun simulate => internalDoTradeBuyFixedAmount g id amountA amountB cap simulate sender) := by
  have hw : id.withAmounts amountA amountB = (id.normalize, (id.withAmounts amountA amountB).2) :=
    Prod.ext TradingPairID.withAmounts_fst rfl
  cases hd : buyDirection id.normalize (id.withAmounts amountA amountB).2.1
      (id.withAmounts amountA amountB).2.2 with
  | error e =>
    simp only [buyTrade_refused hw hm hd]
    exact .refused e
  | ok x =>
    obtain ⟨buying, selling, amount⟩ := x
    simp only [fun simulate => buyTrade_quoted cap simulate sender hi hw hm hd]
    split
    · exact .refused _
    · cases hquote : buyQuote (g.balance selling m.id) (g.balance buying m.id) amount with
      | error p => exact .aborts p
      | ok x =>
        obtain ⟨s, b⟩ := x
        have hpriced := buyQuote_priced (hi.markets _ m hm) hm (buyDirection_eq_ok hd).1 hquote
        simp only [ok_bind, closeTrade_concluded hi hpriced hparty]
        split
        · exact .refused _
        · exact .priced rfl hpriced

private theorem sell_settles (cap : Option ℕ) {amountA amountB : ℕ} (hi : g.Inv)
    (hparty : g.Party sender)
    (hm : g.markets[id.normalize]? = some m) :
    g.Settles m id.normalize
      (sellDirection id.normalize (id.withAmounts amountA amountB).2.1
        (id.withAmounts amountA amountB).2.2) sender
      (fun simulate => internalDoTradeSellFixedAmount g id amountA amountB cap simulate sender) := by
  have hw : id.withAmounts amountA amountB = (id.normalize, (id.withAmounts amountA amountB).2) :=
    Prod.ext TradingPairID.withAmounts_fst rfl
  cases hd : sellDirection id.normalize (id.withAmounts amountA amountB).2.1
      (id.withAmounts amountA amountB).2.2 with
  | error e =>
    simp only [sellTrade_refused hw hm hd]
    exact .refused e
  | ok x =>
    obtain ⟨buying, selling, amount⟩ := x
    simp only [fun simulate => sellTrade_quoted cap simulate sender hi hw hm hd]
    split
    · exact .refused _
    · cases hquote : sellQuote (g.balance selling m.id) (g.balance buying m.id) amount with
      | error p => exact .aborts p
      | ok x =>
        obtain ⟨s, b⟩ := x
        have hpriced := sellQuote_priced (hi.markets _ m hm) hm (sellDirection_eq_ok hd).1 hquote
        simp only [ok_bind, closeTrade_concluded hi hpriced hparty]
        split
        · exact .refused _
        · exact .priced rfl hpriced

namespace GameBoard.Settles

variable {pair : TradingPairID}

private theorem predicts (h : g.Settles m pair direction sender f) :
    (f true).map Prod.fst = (f false).map Prod.fst := by
  cases h with
  | aborts p => rfl
  | refused e => rfl
  | @priced selling buying amount s b hd hp =>
    show Except.ok _ = Except.ok _
    unfold concluded
    split <;> rfl

private theorem unmoved (h : g.Settles m pair direction sender f) {simulate : Bool} {e : TradeError}
    (he : f simulate = .ok (.error e, g')) : g' = g := by
  cases h with
  | aborts p => cases he
  | refused e => exact (Prod.mk.inj (Except.ok.inj he)).2.symm
  | @priced selling buying amount s b hd hp =>
    have hconcluded := Except.ok.inj he
    unfold concluded at hconcluded
    split at hconcluded
    · exact (Prod.mk.inj hconcluded).2.symm
    · cases (Prod.mk.inj hconcluded).1

private theorem exchanges (h : g.Settles m pair direction sender f) (hi : g.Inv)
    (hparty : g.Party sender)
    (hm : g.markets[pair]? = some m) {o : TradeOutcome} (ho : f false = .ok (.ok o, g')) :
    ∃ m buying selling amount, direction = .ok (buying, selling, amount) ∧
      g'.markets[pair]? = some m ∧
      g.Exchanges g' m.id selling buying o.amountPlayerSold o.amountPlayerPurchased sender := by
  cases h with
  | aborts p => cases ho
  | refused e => cases (Prod.mk.inj (Except.ok.inj ho)).1
  | @priced selling buying amount s b hd hp =>
    have hconcluded := Except.ok.inj ho
    unfold concluded at hconcluded
    split at hconcluded
    · cases (Prod.mk.inj hconcluded).1
    · rename_i hpays
      obtain ⟨hout, hboard⟩ := Prod.mk.inj hconcluded
      cases hout
      subst hboard
      have hpair : m.pair = pair := (hi.markets pair m hm).pair_eq
      have hmarket : (g.withReserves m (g.swapped m selling buying s b sender)).markets[pair]? =
          some { m with
            reserveA := (g.swapped m selling buying s b sender).balance m.pair.assetA m.id
            reserveB := (g.swapped m selling buying s b sender).balance m.pair.assetB m.id } := by
        simp only [withReserves, OrderedMap.getElem?_insert, hpair, if_true]
      exact ⟨_, buying, selling, amount, hd, hmarket,
        hp.exchanges hi hparty (Nat.le_of_not_lt hpays)⟩

end GameBoard.Settles

namespace GameBoard

variable {pair : TradingPairID}

private theorem Settles.simulates (h : g.Settles m id.normalize direction sender f) (hi : g.Inv)
    (hparty : g.Party sender) (hm : g.markets[id.normalize]? = some m) :
    g.Simulates id direction sender f where
  predicts := h.predicts
  exchanges _ _ ho := h.exchanges hi hparty hm ho
  unmoved _ _ _ he := by
    rw [h.unmoved he]
    exact .refl g

private theorem Exchanges.of_unmoved {account : EntityID} {selling buying : TokenPointer} {s b : ℕ}
    (hu : g.Unmoved g1) (h : g1.Exchanges g' account selling buying s b sender) :
    g.Exchanges g' account selling buying s b sender where
  pays := by rw [h.pays, hu.balances]
  receives := by rw [h.receives, hu.balances]
  takes := by rw [h.takes, hu.balances]
  gives := by rw [h.gives, hu.balances]
  others q i hne hne' := by rw [h.others q i hne hne', hu.balances]
  tokens q i hs hb := by rw [h.tokens q i hs hb, hu.balances]
  totals q := by rw [h.totals, hu.totals]

theorem Unmoved.trans (h : g.Unmoved g1) (h' : g1.Unmoved g') : g.Unmoved g' where
  balances p i := by rw [h'.balances, h.balances]
  totals p := by rw [h'.totals, h.totals]
  markets q n hq := h'.markets q n (h.markets q n hq)

private theorem Simulates.of_unmoved (hu : g.Unmoved g1) (h : g1.Simulates id direction sender f) :
    g.Simulates id direction sender f where
  predicts := h.predicts
  exchanges o g' ho := by
    obtain ⟨m, buying, selling, amount, hd, hm, hex⟩ := h.exchanges o g' ho
    exact ⟨m, buying, selling, amount, hd, hm, hex.of_unmoved hu⟩
  unmoved simulate e g' he := hu.trans (h.unmoved simulate e g' he)

private theorem Simulates.of_aborts {p : Panic} (h : ∀ simulate, f simulate = .error p) :
    g.Simulates id direction sender f where
  predicts := by rw [h, h]
  exchanges o g' ho := by
    rw [h] at ho
    cases ho
  unmoved simulate e g' he := by
    rw [h] at he
    cases he

end GameBoard

/-- A simulated trade has the result of the real one, a trade that succeeds moves the reported
amounts, and a trade that is refused moves nothing. -/
theorem simulation_predicts (h : Stage setup origin g) (hparty : g.Party sender)
    (id : TradingPairID) (amountA amountB : ℕ) (cap : Option ℕ) :
    g.Simulates id
        (buyDirection id.normalize (id.withAmounts amountA amountB).2.1
          (id.withAmounts amountA amountB).2.2) sender
        (fun simulate => doBuyTrade g id amountA amountB cap simulate sender) ∧
      g.Simulates id
        (sellDirection id.normalize (id.withAmounts amountA amountB).2.1
          (id.withAmounts amountA amountB).2.2) sender
        (fun simulate => doSellTrade g id amountA amountB cap simulate sender) := by
  have hi := h.inv
  cases hensure : ConstantFunctionMarketMakerPair.ensure g id.normalize with
  | error p =>
    have hw : id.withAmounts amountA amountB =
        (id.normalize, (id.withAmounts amountA amountB).2) :=
      Prod.ext TradingPairID.withAmounts_fst rfl
    constructor
    · apply Simulates.of_aborts
      intro simulate
      rw [doBuyTrade, internalDoTradeBuyFixedAmount, hw]
      simp only [hensure]
      rfl
    · apply Simulates.of_aborts
      intro simulate
      rw [doSellTrade, internalDoTradeSellFixedAmount, hw]
      simp only [hensure]
      rfl
  | ok x =>
    obtain ⟨m, g1⟩ := x
    have hready := h.ready hensure
    have hm := hready.market
    have hu := ensure_unmoved hi hensure
    have hparty1 : g1.Party sender := by
      obtain ⟨-, rfl | hopen⟩ := ConstantFunctionMarketMakerPair.ensure_cases hensure
      · exact hparty
      · exact (hopen.extends hi).party hparty
    constructor
    · apply Simulates.of_unmoved hu
      simp only [doBuyTrade, buyTrade_of_ensure hensure]
      exact (buy_settles cap hready.inv hparty1 hm).simulates hready.inv hparty1 hm
    · apply Simulates.of_unmoved hu
      simp only [doSellTrade, sellTrade_of_ensure hensure]
      exact (sell_settles cap hready.inv hparty1 hm).simulates hready.inv hparty1 hm

theorem simulation_predicts_steel : ∃ g o g', Reachable twoPlayers g ∧
    doBuyTrade g steelPair 0 1 none false 0xc0de0008 = .ok (.ok o, g') ∧
      (doBuyTrade g steelPair 0 1 none true 0xc0de0008).map Prod.fst = .ok (.ok o) ∧
      g'.balance 0xc0de0005 0xc0de0008 =
        g.balance 0xc0de0005 0xc0de0008 + o.amountPlayerPurchased := by
  have h : returns (do
      let g ← playAll [(opening, "alice")] (← GameBoard.new twoPlayers)
      let x ← doBuyTrade g steelPair 0 1 none false 0xc0de0008
      pure (g, x)) (fun y => y.1.IsUser 0xc0de0008 ∧ y.2.1.isOk) := by
    decide +kernel
  obtain ⟨y, hok, htest⟩ := returns_iff.mp h
  simp only [bind_eq_ok_iff, pure_eq_ok, Except.ok.injEq] at hok
  obtain ⟨g0, hnew, g, hplay, ⟨r, g'⟩, htrade, rfl⟩ := hok
  have hreach := (Reachable.new hnew).later (later_of_playAll hplay)
  obtain ⟨hsender, hr⟩ := of_decide_eq_true htest
  cases r with
  | error e => cases hr
  | ok o =>
    have hstage := Stage.between hreach
    have hsim := (simulation_predicts hstage (hstage.inv.party_of_user hsender) steelPair 0 1
      none).1
    refine ⟨g, o, g', hreach, htrade, ?_, ?_⟩
    · rw [hsim.predicts, htrade]
      rfl
    · obtain ⟨m, buying, selling, amount, hd, -, hex⟩ := hsim.exchanges o g' htrade
      have hbuying : buying = 0xc0de0005 := by
        have hd' : buyDirection steelPair.normalize (steelPair.withAmounts 0 1).2.1
            (steelPair.withAmounts 0 1).2.2 = .ok (0xc0de0005, 0xc0de0001, 1) := by decide
        rw [hd'] at hd
        exact (Prod.mk.inj (Except.ok.inj hd)).1.symm
      rw [← hbuying]
      exact hex.receives

end JudicaVM
