import JudicaVM.Board.Reachable

/-!
# Solvency of the markets

The recorded reserves of a market are what its account holds, and no event lowers their product.
-/

namespace JudicaVM

open Transition ConstantProduct GameBoard

variable {setup : GameSetup} {g g' : GameBoard} {e : Event} {pair : TradingPairID}
  {m : ConstantFunctionMarketMakerPair}

namespace GameBoard

/-- The recorded reserves of every market are the balances of its account. -/
def Solvent (g : GameBoard) : Prop :=
  ∀ (pair : TradingPairID) m, g.markets[pair]? = some m → m.pair = pair ∧
    m.reserveA = g.balance pair.assetA m.id ∧ m.reserveB = g.balance pair.assetB m.id

/-- A market at two moments: nothing was taken out of it for free, and it is not emptied. -/
structure Kept (m m' : ConstantFunctionMarketMakerPair) : Prop where
  id_eq : m'.id = m.id
  product_le : m.reserveA * m.reserveB ≤ m'.reserveA * m'.reserveB
  gives_A : m'.reserveA < m.reserveA → m.reserveB < m'.reserveB
  gives_B : m'.reserveB < m.reserveB → m.reserveA < m'.reserveA
  funded : 0 < m.reserveA ∨ 0 < m.reserveB → 0 < m'.reserveA ∧ 0 < m'.reserveB

/-- Every market of the first board is kept on the second. -/
def MarketsKept (g g' : GameBoard) : Prop :=
  ∀ (pair : TradingPairID) m, g.markets[pair]? = some m →
    ∃ m', g'.markets[pair]? = some m' ∧ Kept m m'

private theorem Inv.solvent (hi : g.Inv) : g.Solvent := fun pair m hm =>
  have hs := hi.markets pair m hm
  ⟨hs.pair_eq, hs.reserveA_eq, hs.reserveB_eq⟩

/-- Markets persist and their products do not fall. -/
def ProductsLe (g g' : GameBoard) : Prop :=
  ∀ (pair : TradingPairID) m, g.markets[pair]? = some m →
    ∃ m', g'.markets[pair]? = some m' ∧ m'.id = m.id ∧
      m.reserveA * m.reserveB ≤ m'.reserveA * m'.reserveB

private theorem ProductsLe.refl (g : GameBoard) :
    g.ProductsLe g := fun _ m hm => ⟨m, hm, rfl, le_rfl⟩

private theorem ProductsLe.trans {g'' : GameBoard} (h : g.ProductsLe g') (h' : g'.ProductsLe g'') :
    g.ProductsLe g'' := by
  intro pair m hm
  obtain ⟨m', hm', hid', hle'⟩ := h pair m hm
  obtain ⟨m'', hm'', hid'', hle''⟩ := h' pair m' hm'
  exact ⟨m'', hm'', hid''.trans hid', hle'.trans hle''⟩

private theorem productsLe_of_eq (h : g'.markets = g.markets) : g.ProductsLe g' :=
  fun _ m hm => ⟨m, h ▸ hm, rfl, le_rfl⟩

private theorem productsLe_withReserves {tokens : TokenRegistry}
    (hm : g.markets[m.pair]? = some m)
    (hle : m.reserveA * m.reserveB ≤
      tokens.balance m.pair.assetA m.id * tokens.balance m.pair.assetB m.id) :
    g.ProductsLe (g.withReserves m tokens) := by
  intro pair m1 hm1
  by_cases hpair : m.pair = pair
  · subst hpair
    have heq : m1 = m := Option.some.inj (hm1.symm.trans hm)
    subst heq
    have hself : (g.withReserves m1 tokens).markets[m1.pair]? = some { m1 with
        reserveA := tokens.balance m1.pair.assetA m1.id
        reserveB := tokens.balance m1.pair.assetB m1.id } := by
      simp [withReserves]
    exact ⟨_, hself, rfl, hle⟩
  · exact ⟨m1, by simpa [withReserves, OrderedMap.getElem?_insert, hpair] using hm1, rfl, le_rfl⟩

private theorem CanDeposit.product_le {amountA amountB toMint : ℕ} {depositor : EntityID}
    (hi : g.Inv)
    (h : g.CanDeposit m amountA amountB toMint depositor) :
    m.reserveA * m.reserveB ≤
      (g.deposited m amountA amountB toMint depositor).balance m.pair.assetA m.id *
        (g.deposited m amountA amountB toMint depositor).balance m.pair.assetB m.id := by
  have hs := hi.markets m.pair m h.market
  rw [h.balance_account hi, h.balance_account hi, if_pos rfl, if_neg h.distinct, if_pos rfl,
    hs.reserveA_eq, hs.reserveB_eq]
  exact Nat.mul_le_mul (Nat.le_add_right _ _) (Nat.le_add_right _ _)

end GameBoard

private theorem Occurs.productsLe (hi : g.Inv) (h : Occurs g e g') : g.ProductsLe g' := by
  cases h with
  | openMarket pair shares hnone hnormal hA hB hroom =>
    intro pair1 m1 hm1
    have hne : pair ≠ pair1 := fun heq => by simp [← heq, hnone] at hm1
    exact ⟨m1, by simpa [GameBoard.openMarket, OrderedMap.getElem?_insert, hne] using hm1, rfl,
      le_rfl⟩
  | swap m selling buying sellAmt buyAmt trader h =>
    exact productsLe_withReserves h.market (h.product_le hi)
  | deposit m amountA amountB toMint depositor h =>
    exact productsLe_withReserves h.market (h.product_le hi)
  | _ => exact productsLe_of_eq rfl

private theorem Trace.productsLe {P : Event → Prop} (hi : g.Inv) (h : Trace P g g') :
    g.ProductsLe g' :=
  Run.relates (fun _ _ _ _ hi hs => hs.inv hi) ProductsLe.refl (fun _ _ _ => ProductsLe.trans)
    (fun _ _ _ _ hi hs => hs.productsLe hi) h hi

private theorem Trace.marketsKept {P : Event → Prop} (hi : g.Inv) (h : Trace P g g') :
    g.MarketsKept g' := by
  intro pair m hm
  obtain ⟨m', hm', hid, hle⟩ := h.productsLe hi pair m hm
  have hboth := (hi.markets pair m hm).both
  have hle' : m.reserveB * m.reserveA ≤ m'.reserveB * m'.reserveA := by
    rwa [Nat.mul_comm m.reserveB, Nat.mul_comm m'.reserveB]
  refine ⟨m', hm', hid, hle, fun hlt => ?_, fun hlt => ?_, fun hfunded => ?_⟩
  · exact lt_of_product_le hle (by omega) hlt
  · exact lt_of_product_le hle' (by omega) hlt
  · have hpos : 0 < m.reserveA * m.reserveB := Nat.mul_pos (by omega) (by omega)
    have hpos' := Nat.lt_of_lt_of_le hpos hle
    exact ⟨Nat.pos_of_mul_pos_right hpos', Nat.pos_of_mul_pos_left hpos'⟩

/-- On a board that play reaches, reserves are holdings. No later board and no step of a call lowers
the product of a market, takes one asset without bringing in the other, or empties the market. -/
theorem reachable_solvent (h : Reachable setup g) :
    g.Solvent ∧ (∀ g', Later g g' → g.MarketsKept g') ∧
      ∀ mv key a b, CallStep g mv key a b → a.Solvent ∧ b.Solvent ∧ a.MarketsKept b := by
  have hi := h.inv
  refine ⟨hi.solvent, fun g' hl => (hl.trace hi).marketsKept hi, fun mv key a b hstep => ?_⟩
  obtain ⟨hbefore, hcall⟩ := hstep.traces hi
  have hia := hbefore.inv hi
  exact ⟨hia.solvent, (hcall.inv hia).solvent, hcall.marketsKept hia⟩

/-- The markets after the first move of a game of two players, which are funded. -/
theorem reachable_solvent_twoPlayers : ∃ g g', GameBoard.new twoPlayers = .ok g ∧
    playAll [(opening, "alice")] g = .ok g' ∧
    (g'.markets[steelPair]?.map fun m => (m.reserveA, m.reserveB)) = some (917431193, 10900) ∧
    g'.Solvent ∧ g.MarketsKept g' := by
  obtain ⟨g, g', hnew, hplay, hfunded⟩ := twoPlayers_starts
  have hl := later_of_playAll hplay
  exact ⟨g, g', hnew, hplay, hfunded, (reachable_solvent ((Reachable.new hnew).later hl)).1,
    (reachable_solvent (.new hnew)).2.1 g' hl⟩

end JudicaVM
