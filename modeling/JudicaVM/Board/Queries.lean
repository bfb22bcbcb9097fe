import JudicaVM.Board.Endowment

/-!
# Queries

What the queries of the user interface do to the board, and when two boards that play the same moves
stay equal whatever is asked of them in between.
-/

namespace JudicaVM

open Checked Std OrderedMap Transition GameBoard

variable {setup : GameSetup} {g g' : GameBoard} {pair : TradingPairID}

/-- The queries that run on the board itself. -/
inductive Query
  | simulateBuyTrade (pair : TradingPairID) (amountA amountB : ℕ) (sender : EntityID)
  | simulateSellTrade (pair : TradingPairID) (amountA amountB : ℕ) (sender : EntityID)
  | getPowerPlantCost (scale : ℕ) (plantType : PlantType) (signingKey : String)
  | getUxMaterialsPrices

namespace Query

/-- The board after a query. -/
def run : Query → GameBoard → Except Panic GameBoard
  | simulateBuyTrade pair amountA amountB sender, g => do
    let x ← g.simulateBuyTrade pair amountA amountB sender
    pure x.2
  | simulateSellTrade pair amountA amountB sender, g => do
    let x ← g.simulateSellTrade pair amountA amountB sender
    pure x.2
  | getPowerPlantCost scale plantType signingKey, g => do
    let x ← g.getPowerPlantCost scale plantType signingKey
    pure x.2
  | getUxMaterialsPrices, g => do
    let x ← g.getUxMaterialsPrices
    pure x.2

def runAll : List Query → GameBoard → Except Panic GameBoard
  | [], g => pure g
  | q :: rest, g => do
    let g ← q.run g
    runAll rest g

/-- A simulated trade is on a pair that has a market. -/
def Ready (g : GameBoard) : Query → Prop
  | simulateBuyTrade pair _ _ _ => ConstantFunctionMarketMakerPair.hasMarket g pair
  | simulateSellTrade pair _ _ _ => ConstantFunctionMarketMakerPair.hasMarket g pair
  | getPowerPlantCost _ _ _ => True
  | getUxMaterialsPrices => True

end Query

namespace ConstantFunctionMarketMakerPair

theorem hasMarket_iff : hasMarket g pair ↔ ∃ m, g.markets[pair.normalize]? = some m := by
  rw [hasMarket, ExtTreeMap.contains_eq_isSome_getElem?, Option.isSome_iff_exists]

private theorem hasMarket_extends (h : hasMarket g pair) (hext : g.Extends g') :
    hasMarket g' pair := by
  obtain ⟨m, hm⟩ := hasMarket_iff.mp h
  obtain ⟨m', hm', _⟩ := hext.markets _ m hm
  exact hasMarket_iff.mpr ⟨m', hm'⟩

private theorem ensure_keeps_iff {m : ConstantFunctionMarketMakerPair}
    (h : ensure g pair = .ok (m, g')) :
    g' = g ↔ hasMarket g pair := by
  constructor
  · intro heq
    exact hasMarket_iff.mpr ⟨m, heq ▸ (ensure_cases h).1⟩
  · intro hhas
    obtain ⟨m', hm'⟩ := hasMarket_iff.mp hhas
    rw [ensure_of_some hm', Except.ok.injEq, Prod.mk.injEq] at h
    exact h.2.symm

end ConstantFunctionMarketMakerPair

open ConstantFunctionMarketMakerPair

/-- The board is the same, or ids were drawn. -/
def GameBoard.SameOrGrown (g g' : GameBoard) : Prop :=
  g' = g ∨ g.alloc < g'.alloc

private theorem GameBoard.SameOrGrown.trans {g'' : GameBoard} (h : g.SameOrGrown g')
    (h' : g'.SameOrGrown g'') : g.SameOrGrown g'' := by
  rcases h with rfl | hlt
  · exact h'
  · rcases h' with rfl | hlt'
    · exact .inr hlt
    · exact .inr (Nat.lt_trans hlt hlt')

private theorem ensure_sameOrGrown {m : ConstantFunctionMarketMakerPair}
    (h : ensure g pair = .ok (m, g')) : g.SameOrGrown g' := by
  obtain ⟨_, heq | hopen⟩ := ensure_cases h
  · exact .inl heq
  · cases hopen
    exact .inr (Nat.lt_add_of_pos_right Nat.two_pos)

private theorem TradingPairID.normalize_comm (p q : TokenPointer) :
    normalize { assetA := p, assetB := q } = normalize { assetA := q, assetB := p } := by
  simp only [normalize]
  rcases Nat.lt_trichotomy p q with hlt | heq | hgt
  · rw [if_pos (Nat.le_of_lt hlt), if_neg (Nat.not_le_of_lt hlt)]
  · rw [heq]
  · rw [if_neg (Nat.not_le_of_lt hgt), if_pos (Nat.le_of_lt hgt)]

namespace ConstantFunctionMarketMaker

variable {m : ConstantFunctionMarketMakerPair} {id : TradingPairID} {amountA amountB : ℕ}
  {cap : Option ℕ} {sender : EntityID} {r : Except TradeError TradeOutcome}

private theorem closeTrade_simulated {outcome : TradeOutcome} {selling buying : TokenPointer}
    {s b : ℕ}
    (h : closeTrade g m outcome selling buying s b true sender = .ok (r, g')) : g' = g := by
  simp only [closeTrade, bind_eq_ok_iff] at h
  obtain ⟨balance, _, h⟩ := h
  split at h <;> cases h <;> rfl

private theorem doBuyTrade_simulated
    (h : doBuyTrade g id amountA amountB cap true sender = .ok (r, g')) :
    ∃ m, ensure g id.normalize = .ok (m, g') := by
  obtain ⟨amount, hw⟩ := withAmounts_eq id amountA amountB
  simp only [doBuyTrade, internalDoTradeBuyFixedAmount, hw, bind_eq_ok_iff] at h
  obtain ⟨⟨m, g1⟩, hensure, h⟩ := h
  have heq : g' = g1 := by
    split at h
    · cases h
      rfl
    · simp only [bind_eq_ok_iff] at h
      obtain ⟨_, _, _, _, _, _, _, _, _, _, _, _, h⟩ := h
      split at h
      · cases h
        rfl
      · simp only [bind_eq_ok_iff] at h
        obtain ⟨_, _, h⟩ := h
        split at h
        · cases h
          rfl
        · exact closeTrade_simulated h
  exact ⟨m, heq ▸ hensure⟩

private theorem doSellTrade_simulated
    (h : doSellTrade g id amountA amountB cap true sender = .ok (r, g')) :
    ∃ m, ensure g id.normalize = .ok (m, g') := by
  obtain ⟨amount, hw⟩ := withAmounts_eq id amountA amountB
  simp only [doSellTrade, internalDoTradeSellFixedAmount, hw, bind_eq_ok_iff] at h
  obtain ⟨⟨m, g1⟩, hensure, h⟩ := h
  have heq : g' = g1 := by
    split at h
    · cases h
      rfl
    · simp only [bind_eq_ok_iff] at h
      obtain ⟨_, _, _, _, _, _, _, _, _, _, _, _, h⟩ := h
      split at h
      · cases h
        rfl
      · simp only [bind_eq_ok_iff] at h
        obtain ⟨_, _, h⟩ := h
        split at h
        · cases h
          rfl
        · exact closeTrade_simulated h
  exact ⟨m, heq ▸ hensure⟩

end ConstantFunctionMarketMaker

/-- The materials of every plant have a market against bitcoin. -/
def GameBoard.Priced (g : GameBoard) : Prop :=
  ∀ kind bill, g.plantPrices kind = some bill → ∀ x ∈ bill,
    hasMarket g { assetA := x.1, assetB := g.bitcoinTokenId }

theorem GameBoard.Priced.mono (h : g.Priced) (hext : g.Extends g') : g'.Priced := by
  intro kind bill hbill x hx
  rw [hext.bitcoin_eq]
  exact hasMarket_extends (h kind bill (hext.prices_eq ▸ hbill) x hx) hext

namespace PowerPlantProducer

variable {owner : EntityID} {bill : List (Currency × ℕ)}
  {r : Except TradeError (List (String × ℕ × ℕ))}

private theorem estimateMaterials_sameOrGrown (h : estimateMaterials owner bill g = .ok (r, g')) :
    g.SameOrGrown g' := by
  induction bill generalizing g r with
  | nil =>
    cases h
    exact .inl rfl
  | cons x rest ih =>
    simp only [estimateMaterials, bind_eq_ok_iff] at h
    obtain ⟨_, _, ⟨r1, g1⟩, htrade, h⟩ := h
    obtain ⟨m, hensure⟩ := ConstantFunctionMarketMaker.doBuyTrade_simulated htrade
    cases r1 with
    | error e =>
      cases h
      exact ensure_sameOrGrown hensure
    | ok outcome =>
      simp only [bind_eq_ok_iff] at h
      obtain ⟨⟨r2, g2⟩, hrest, h⟩ := h
      cases h
      exact (ensure_sameOrGrown hensure).trans (ih hrest)

/-- An estimate of materials that all have a market leaves the board as it is. -/
theorem estimateMaterials_eq
    (hbill : ∀ x ∈ bill, hasMarket g { assetA := x.1, assetB := g.bitcoinTokenId })
    (h : estimateMaterials owner bill g = .ok (r, g')) : g' = g := by
  induction bill generalizing r with
  | nil =>
    cases h
    rfl
  | cons x rest ih =>
    simp only [estimateMaterials, bind_eq_ok_iff] at h
    obtain ⟨_, _, ⟨r1, g1⟩, htrade, h⟩ := h
    obtain ⟨m, hensure⟩ := ConstantFunctionMarketMaker.doBuyTrade_simulated htrade
    have hsame : g1 = g := by
      apply (ensure_keeps_iff hensure).mpr
      have hx := hasMarket_iff.mp (hbill x List.mem_cons_self)
      exact hasMarket_iff.mpr (by simpa using hx)
    subst hsame
    cases r1 with
    | error e =>
      cases h
      rfl
    | ok outcome =>
      simp only [bind_eq_ok_iff] at h
      obtain ⟨⟨r2, g2⟩, hrest, h⟩ := h
      cases h
      exact ih (fun y hy => hbill y (List.mem_cons_of_mem _ hy)) hrest

end PowerPlantProducer

theorem PlantType.bill_of_rawMaterialsBill {kind : PlantType} {scale : ℕ}
    {bill : List (Currency × ℕ)} (h : kind.rawMaterialsBill g scale = .ok bill) :
    ∃ prices, g.plantPrices kind = some prices ∧ ∀ x ∈ bill, ∃ y ∈ prices, x.1 = y.1 := by
  simp only [rawMaterialsBill, bind_eq_ok_iff, unwrap_eq_ok_iff] at h
  obtain ⟨prices, hprices, hbill⟩ := h
  refine ⟨prices, hprices, fun x hx => ?_⟩
  obtain ⟨y, hy, hxy⟩ := mem_of_mapM_eq_ok hbill hx
  simp only [bind_eq_ok_iff, pure_eq_ok, Except.ok.injEq] at hxy
  obtain ⟨qty, _, rfl⟩ := hxy
  exact ⟨y, hy, rfl⟩

private theorem materialsPrices_eq {ids : List EntityID} {res : List UXMaterialsPriceData}
    (h : materialsPrices ids g = .ok (res, g')) : g' = g := by
  induction ids generalizing res with
  | nil =>
    cases h
    rfl
  | cons id rest ih =>
    simp only [materialsPrices, bind_eq_ok_iff] at h
    obtain ⟨token, _, h⟩ := h
    split at h
    · rename_i hhas
      simp only [ConstantFunctionMarketMaker.getPairPriceData, bind_eq_ok_iff, pure_eq_ok,
        Except.ok.injEq] at h
      obtain ⟨⟨amounts, g1⟩, ⟨⟨m, g2⟩, hensure, _, _, _, _, hpair⟩, _, _, _, _, ⟨res', g3⟩, hrest,
        hres⟩ := h
      cases hpair
      cases hres
      have hsame := (ensure_keeps_iff hensure).mpr hhas
      subst hsame
      exact ih hrest
    · exact ih h

private theorem makeMarket_hasMarket {id : TokenPointer} (h : makeMarket g id = .ok g') :
    hasMarket g' { assetA := id, assetB := g.bitcoinTokenId } := by
  simp only [makeMarket, bind_eq_ok_iff, pure_eq_ok, Except.ok.injEq] at h
  obtain ⟨⟨m, g1⟩, hensure, rfl⟩ := h
  rw [hasMarket_iff, TradingPairID.normalize_comm]
  exact ⟨m, (ensure_cases hensure).1⟩

private theorem blank_prices (h : blank = .ok g) : ∀ kind bill, g.plantPrices kind = some bill →
    ∀ x ∈ bill, x.1 = g.steelTokenId ∨ x.1 = g.siliconTokenId ∨ x.1 = g.concreteTokenId := by
  cases h
  intro kind bill hbill
  cases kind <;> cases hbill <;> decide

private theorem new_priced (h : GameBoard.new setup = .ok g) : g.Priced := by
  obtain ⟨g0, hblank, htrace⟩ := new_trace h
  have hconst0 := (htrace.extends ((blank_spec hblank).1.setFinishTime _)).constants_eq
  obtain ⟨start, g1, hstart, hplayers, hpost⟩ := new_stages h
  have htrace1 := addPlayers_trace hstart.inv hplayers
  have hi1 := htrace1.inv hstart.inv
  have hm1 := hstart.materials.mono (htrace1.extends hstart.inv)
  obtain ⟨b1, b2, b3, b4, _, _, _, _, _, b8, ⟨h1, h2, h3, h4⟩, _, _, _, _, hrest, hplants⟩ :=
    postInit_stages hi1 hm1 hpost
  have hi2 := (makeMarket_trace h1).inv hi1
  have hi3 := (makeMarket_trace h2).inv hi2
  have hi4 := (makeMarket_trace h3).inv hi3
  have hi5 := (makeMarket_trace h4).inv hi4
  have hi8 := hrest.inv hi5
  have hext3 : b3.Extends g := by
    have hlast := addStartPlants_trace hi8 (fun p hp => isUser_of_mem_sortedIds hi8 hp) hplants
    exact ((makeMarket_trace h4).extends hi4).trans
      ((hrest.extends hi5).trans (hlast.extends hi8))
  have hext2 := ((makeMarket_trace h3).extends hi3).trans hext3
  have hext1 := ((makeMarket_trace h2).extends hi2).trans hext2
  have hext0 := ((makeMarket_trace h1).extends hi1).trans hext1
  have hsteel : hasMarket g { assetA := g.steelTokenId, assetB := g.bitcoinTokenId } := by
    have hconst : g.steelTokenId = g1.steelTokenId :=
      congrArg Constants.steelTokenId hext0.constants_eq
    rw [hconst, hext0.bitcoin_eq]
    exact hasMarket_extends (makeMarket_hasMarket h1) hext1
  have hsilicon : hasMarket g { assetA := g.siliconTokenId, assetB := g.bitcoinTokenId } := by
    have hconst : g.siliconTokenId = b1.siliconTokenId :=
      congrArg Constants.siliconTokenId hext1.constants_eq
    rw [hconst, hext1.bitcoin_eq]
    exact hasMarket_extends (makeMarket_hasMarket h2) hext2
  have hconcrete : hasMarket g { assetA := g.concreteTokenId, assetB := g.bitcoinTokenId } := by
    have hconst : g.concreteTokenId = b2.concreteTokenId :=
      congrArg Constants.concreteTokenId hext2.constants_eq
    rw [hconst, hext2.bitcoin_eq]
    exact hasMarket_extends (makeMarket_hasMarket h3) hext3
  simp only [constants, Constants.mk.injEq] at hconst0
  obtain ⟨_, _, hsteel0, hsilicon0, hconcrete0, _, _, _, _, hprices0, _⟩ := hconst0
  intro kind bill hbill x hx
  rw [hprices0] at hbill
  rcases blank_prices hblank kind bill hbill x hx with heq | heq | heq
  · rw [heq, ← hsteel0]
    exact hsteel
  · rw [heq, ← hsilicon0]
    exact hsilicon
  · rw [heq, ← hconcrete0]
    exact hconcrete

theorem Reachable.priced (h : Reachable setup g) : g.Priced := by
  induction h with
  | new h => exact new_priced h
  | play hg h ih => exact ih.mono ((play_trace hg.inv h).extends hg.inv)

namespace Query

private theorem run_sameOrGrown {q : Query} (h : q.run g = .ok g') : g.SameOrGrown g' := by
  cases q with
  | simulateBuyTrade pair amountA amountB sender =>
    simp only [run, bind_eq_ok_iff, pure_eq_ok, Except.ok.injEq] at h
    obtain ⟨⟨r, g1⟩, htrade, rfl⟩ := h
    obtain ⟨m, hensure⟩ := ConstantFunctionMarketMaker.doBuyTrade_simulated htrade
    exact ensure_sameOrGrown hensure
  | simulateSellTrade pair amountA amountB sender =>
    simp only [run, bind_eq_ok_iff, pure_eq_ok, Except.ok.injEq] at h
    obtain ⟨⟨r, g1⟩, htrade, rfl⟩ := h
    obtain ⟨m, hensure⟩ := ConstantFunctionMarketMaker.doSellTrade_simulated htrade
    exact ensure_sameOrGrown hensure
  | getPowerPlantCost scale plantType signingKey =>
    simp only [run, GameBoard.getPowerPlantCost, PowerPlantProducer.estimateMaterialsCost,
      bind_eq_ok_iff, pure_eq_ok, Except.ok.injEq] at h
    obtain ⟨⟨r, g1⟩, ⟨_, _, _, _, hestimate⟩, rfl⟩ := h
    exact PowerPlantProducer.estimateMaterials_sameOrGrown hestimate
  | getUxMaterialsPrices =>
    simp only [run, GameBoard.getUxMaterialsPrices, bind_eq_ok_iff, pure_eq_ok,
      Except.ok.injEq] at h
    obtain ⟨⟨r, g1⟩, hprices, rfl⟩ := h
    exact .inl (materialsPrices_eq hprices)

private theorem run_eq_iff {q : Query} (hpriced : g.Priced) (h : q.run g = .ok g') :
    g' = g ↔ q.Ready g := by
  have hpair (pair : TradingPairID) :
      hasMarket g pair.normalize ↔ hasMarket g pair := by
    simp only [hasMarket_iff, TradingPairID.normalize_normalize]
  cases q with
  | simulateBuyTrade pair amountA amountB sender =>
    simp only [run, bind_eq_ok_iff, pure_eq_ok, Except.ok.injEq] at h
    obtain ⟨⟨r, g1⟩, htrade, rfl⟩ := h
    obtain ⟨m, hensure⟩ := ConstantFunctionMarketMaker.doBuyTrade_simulated htrade
    exact (ensure_keeps_iff hensure).trans (hpair pair)
  | simulateSellTrade pair amountA amountB sender =>
    simp only [run, bind_eq_ok_iff, pure_eq_ok, Except.ok.injEq] at h
    obtain ⟨⟨r, g1⟩, htrade, rfl⟩ := h
    obtain ⟨m, hensure⟩ := ConstantFunctionMarketMaker.doSellTrade_simulated htrade
    exact (ensure_keeps_iff hensure).trans (hpair pair)
  | getPowerPlantCost scale plantType signingKey =>
    simp only [run, GameBoard.getPowerPlantCost, PowerPlantProducer.estimateMaterialsCost,
      bind_eq_ok_iff, pure_eq_ok, Except.ok.injEq] at h
    obtain ⟨⟨r, g1⟩, ⟨_, _, bill, hbill, hestimate⟩, rfl⟩ := h
    obtain ⟨prices, hprices, hfrom⟩ := PlantType.bill_of_rawMaterialsBill hbill
    have hsame := PowerPlantProducer.estimateMaterials_eq (fun x hx => by
      obtain ⟨y, hy, hxy⟩ := hfrom x hx
      exact hxy ▸ hpriced plantType prices hprices y hy) hestimate
    exact iff_of_true hsame trivial
  | getUxMaterialsPrices =>
    simp only [run, GameBoard.getUxMaterialsPrices, bind_eq_ok_iff, pure_eq_ok,
      Except.ok.injEq] at h
    obtain ⟨⟨r, g1⟩, hprices, rfl⟩ := h
    exact iff_of_true (materialsPrices_eq hprices) trivial

private theorem runAll_sameOrGrown {queries : List Query} (h : runAll queries g = .ok g') :
    g.SameOrGrown g' := by
  induction queries generalizing g with
  | nil =>
    cases h
    exact .inl rfl
  | cons q rest ih =>
    simp only [runAll, bind_eq_ok_iff] at h
    obtain ⟨g1, hfirst, hrest⟩ := h
    exact (run_sameOrGrown hfirst).trans (ih hrest)

private theorem runAll_eq_iff {queries : List Query} (hpriced : g.Priced)
    (h : runAll queries g = .ok g') : g' = g ↔ ∀ q ∈ queries, q.Ready g := by
  induction queries with
  | nil =>
    cases h
    simp
  | cons q rest ih =>
    simp only [runAll, bind_eq_ok_iff] at h
    obtain ⟨g1, hfirst, hrest⟩ := h
    have hready := run_eq_iff hpriced hfirst
    rw [List.forall_mem_cons, ← hready]
    constructor
    · intro hsame
      -- ids that were drawn are not given back
      have hsame1 : g1 = g := by
        rcases run_sameOrGrown hfirst with heq | hlt
        · exact heq
        · rcases runAll_sameOrGrown hrest with heq | hlt'
          · exact heq.symm.trans hsame
          · rw [hsame] at hlt'
            exact absurd hlt (Nat.not_lt_of_gt hlt')
      subst hsame1
      exact ⟨rfl, (ih hrest).mp hsame⟩
    · rintro ⟨rfl, hall⟩
      exact (ih hrest).mpr hall

end Query

/-- What happens to one copy of the board: a query, or a move that all copies play. -/
inductive Request
  | query (q : Query)
  | call (mv : MoveEnvelope) (key : String)

namespace Request

def serve : List Request → GameBoard → Except Panic GameBoard
  | [], g => pure g
  | query q :: rest, g => do
    let g ← q.run g
    serve rest g
  | call mv key :: rest, g => do
    let (_, g) ← g.play mv key
    serve rest g

/-- The moves among the requests. -/
def calls : List Request → List (MoveEnvelope × String)
  | [] => []
  | query _ :: rest => calls rest
  | call mv key :: rest => (mv, key) :: calls rest

/-- Every query is ready on the board on which it is run. -/
def AllReady : List Request → GameBoard → Prop
  | [], _ => True
  | query q :: rest, g => q.Ready g ∧ ∀ g', q.run g = .ok g' → AllReady rest g'
  | call mv key :: rest, g => ∀ r g', g.play mv key = .ok (r, g') → AllReady rest g'

private theorem playAll_of_serve {requests : List Request} (h : Reachable setup g)
    (hready : AllReady requests g) (hserve : serve requests g = .ok g') :
    playAll (calls requests) g = .ok g' := by
  induction requests generalizing g with
  | nil => exact hserve
  | cons request rest ih =>
    cases request with
    | query q =>
      simp only [serve, bind_eq_ok_iff] at hserve
      obtain ⟨g1, hfirst, hrest⟩ := hserve
      obtain ⟨hq, hafter⟩ := hready
      have hsame := (Query.run_eq_iff h.priced hfirst).mpr hq
      subst hsame
      exact ih h (hafter g1 hfirst) hrest
    | call mv key =>
      simp only [serve, bind_eq_ok_iff] at hserve
      obtain ⟨⟨r, g1⟩, hplay, hrest⟩ := hserve
      simp only [calls, playAll, hplay, ok_bind]
      exact ih (h.play hplay) (hready r g1 hplay) hrest

end Request

open Query Request

/-- Queries leave a board that play reaches as it is exactly if they are ready. Two copies of it
that play the same moves stay equal, whatever ready queries each of them answers. -/
theorem queries_keep_board_iff (h : Reachable setup g) :
    (∀ queries g', runAll queries g = .ok g' → (g' = g ↔ ∀ q ∈ queries, q.Ready g)) ∧
      ∀ requests requests' a b, calls requests = calls requests' → AllReady requests g →
        AllReady requests' g → serve requests g = .ok a → serve requests' g = .ok b → a = b := by
  constructor
  · intro queries g' hrun
    exact runAll_eq_iff h.priced hrun
  · intro requests requests' a b hcalls hready hready' ha hb
    have ha' := playAll_of_serve h hready ha
    have hb' := playAll_of_serve h hready' hb
    rw [hcalls, hb'] at ha'
    exact (Except.ok.inj ha').symm

/-- What a unit of steel costs, which is a question about a market. -/
def askSteel : Query := .simulateBuyTrade steelPair 0 1 0xc0de0008

/-- The cost of a plant and of steel can be asked for without any effect. -/
theorem queries_keep_board_twoPlayers : ∃ g, Reachable twoPlayers g ∧
    runAll [askSteel, .getPowerPlantCost 1 .solar "alice", .getUxMaterialsPrices] g = .ok g := by
  have h : returns (do
      let g ← playAll [(opening, "alice")] (← GameBoard.new twoPlayers)
      let g' ← runAll [askSteel, .getPowerPlantCost 1 .solar "alice", .getUxMaterialsPrices] g
      pure (g, g')) (fun x => hasMarket x.1 steelPair) := by
    decide +kernel
  obtain ⟨x, hok, hmarket⟩ := returns_iff.mp h
  simp only [bind_eq_ok_iff, pure_eq_ok, Except.ok.injEq] at hok
  obtain ⟨g0, hnew, g, hplay, g', hqueries, rfl⟩ := hok
  have hreach := (Reachable.new hnew).later (later_of_playAll hplay)
  have hready : ∀ q ∈ [askSteel, .getPowerPlantCost 1 .solar "alice", .getUxMaterialsPrices],
      q.Ready g := by
    simp [askSteel, Query.Ready, hmarket]
  have hsame := ((queries_keep_board_iff hreach).1 _ g' hqueries).mpr hready
  rw [hsame] at hqueries
  exact ⟨g, hreach, hqueries⟩

/-- What a real sat costs in bitcoin, for which there is no market. -/
def askSats : Query :=
  .simulateBuyTrade { assetA := 0xc0de0001, assetB := 0xc0de0002 } 0 1 0xc0de0008

/-- Alice takes the ASIC off her plant. -/
def shipAsic : MoveEnvelope :=
  { d := .removeTokens { nftId := 0xc0de0016, amount := 1, currency := 0xc0de0004 }
    sequence := 1
    timeMillis := 0 }

/-- The question about real sats draws two ids, and the lockup that the next move creates has a
different id on the copy of the board that was asked. -/
theorem query_forks_board : ∃ g g' a b, Reachable twoPlayers g ∧ askSats.run g = .ok g' ∧
    g' ≠ g ∧ calls [.query askSats, .call shipAsic "alice"] = calls [.call shipAsic "alice"] ∧
    serve [.call shipAsic "alice"] g = .ok a ∧
    serve [.query askSats, .call shipAsic "alice"] g = .ok b ∧
    a.IsNft 0xc0de0018 ∧ ¬ b.IsNft 0xc0de0018 ∧ a ≠ b := by
  have h : returns (do
      let g ← GameBoard.new twoPlayers
      let g' ← askSats.run g
      let a ← serve [.call shipAsic "alice"] g
      let b ← serve [.query askSats, .call shipAsic "alice"] g
      pure (g, g', a, b)) (fun x => x.2.1.alloc = x.1.alloc + 2 ∧
        x.2.2.1.IsNft 0xc0de0018 ∧ ¬ x.2.2.2.IsNft 0xc0de0018) := by
    decide +kernel
  obtain ⟨x, hok, htest⟩ := returns_iff.mp h
  simp only [bind_eq_ok_iff, pure_eq_ok, Except.ok.injEq] at hok
  obtain ⟨g, hnew, g', hquery, a, ha, b, hb, rfl⟩ := hok
  obtain ⟨halloc, hnft, hnone⟩ := of_decide_eq_true htest
  refine ⟨g, g', a, b, .new hnew, hquery, ?_, rfl, ha, hb, hnft, hnone, ?_⟩
  · intro hsame
    rw [hsame] at halloc
    exact absurd halloc (Nat.ne_of_lt (Nat.lt_add_of_pos_right Nat.two_pos))
  · intro hsame
    exact hnone (hsame ▸ hnft)

end JudicaVM
