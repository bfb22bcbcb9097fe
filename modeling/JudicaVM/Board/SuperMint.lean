import JudicaVM.Board.Ending
import JudicaVM.Board.Queries

/-!
# Minting with purchased materials

The estimate asks each market of a bill once; the purchases then find every market as it was asked,
since the markets and the materials are different ones. So the plant is minted at the estimated cost.
-/

namespace JudicaVM

open Checked Std OrderedMap Transition GameBoard ConstantProduct
open ConstantFunctionMarketMaker

variable {setup : GameSetup} {origin g g' : GameBoard} {m : ConstantFunctionMarketMakerPair}
  {owner : EntityID} {x : Currency × ℕ} {cost : ℕ} {bill : List (Currency × ℕ)}

/-- The pair on which a material is bought. -/
def GameBoard.materialPair (g : GameBoard) (material : TokenPointer) : TradingPairID :=
  { assetA := material, assetB := g.bitcoinTokenId }

/-- The market of a material sells the quantity for the cost. -/
def GameBoard.Quoted (g : GameBoard) (x : Currency × ℕ) (cost : ℕ) : Prop :=
  ∃ m b, g.markets[(g.materialPair x.1).normalize]? = some m ∧ x.2 ≤ g.balance x.1 m.id ∧
    buyQuote (g.balance g.bitcoinTokenId m.id) (g.balance x.1 m.id) x.2 = .ok (cost, b)

private theorem buyDirection_material {material btc : TokenPointer} {qty : ℕ} (hpos : 0 < qty) :
    ∃ amount : ℕ × ℕ,
      ({ assetA := material, assetB := btc } : TradingPairID).withAmounts qty 0 =
        (({ assetA := material, assetB := btc } : TradingPairID).normalize, amount) ∧
      buyDirection ({ assetA := material, assetB := btc } : TradingPairID).normalize amount.1
        amount.2 = .ok (material, btc, qty) := by
  obtain ⟨n, rfl⟩ := Nat.exists_eq_succ_of_ne_zero hpos.ne'
  unfold TradingPairID.withAmounts TradingPairID.normalize TradingPairID.isNormal
  by_cases hle : material ≤ btc
  · refine ⟨(n + 1, 0), ?_, ?_⟩
    · simp [hle]
    · simp [hle, buyDirection]
  · refine ⟨(0, n + 1), ?_, ?_⟩
    · simp [hle]
    · simp [hle, buyDirection]

private theorem doBuyTrade_material (simulate : Bool) (hi : g.Inv)
    (hm : g.markets[(g.materialPair x.1).normalize]? = some m) (hpos : 0 < x.2) :
    ∃ outcome : ℕ → ℕ → TradeOutcome, (∀ s b, (outcome s b).amountPlayerSold = s) ∧
      doBuyTrade g (g.materialPair x.1) x.2 0 none simulate owner =
        if x.2 > g.balance x.1 m.id then
          .ok (.error (.insufficientTokens "Market has insufficient tokens"), g)
        else
          buyQuote (g.balance g.bitcoinTokenId m.id) (g.balance x.1 m.id) x.2 >>= fun y =>
            closeTrade g m (outcome y.1 y.2) g.bitcoinTokenId x.1 y.1 y.2 simulate owner := by
  obtain ⟨amount, hw, hd⟩ := buyDirection_material hpos
  refine ⟨g.tradeOutcome (g.materialPair x.1).normalize g.bitcoinTokenId x.1, fun _ _ => rfl,
    (buyTrade_quoted none simulate owner hi hw hm hd).trans ?_⟩
  simp only [Option.any_none, Bool.false_eq_true, if_false]
  rfl

private theorem priced_of_quote {b : ℕ} (hi : g.Inv)
    (hm : g.markets[(g.materialPair x.1).normalize]? = some m) (hpos : 0 < x.2)
    (hquote : buyQuote (g.balance g.bitcoinTokenId m.id) (g.balance x.1 m.id) x.2 = .ok (cost, b)) :
    ConstantFunctionMarketMaker.Priced g m g.bitcoinTokenId x.1 cost b := by
  obtain ⟨amount, _, hd⟩ := buyDirection_material hpos
  exact buyQuote_priced (hi.markets _ m hm) hm (buyDirection_eq_ok hd).1 hquote

private theorem materialPair_ne {p q : TokenPointer} (hne : p ≠ q) :
    (g.materialPair p).normalize ≠ (g.materialPair q).normalize := by
  intro heq
  simp only [materialPair, TradingPairID.normalize] at heq
  by_cases hp : p ≤ g.bitcoinTokenId <;> by_cases hq : q ≤ g.bitcoinTokenId <;>
    simp only [hp, hq, if_true, if_false, TradingPairID.mk.injEq] at heq
  · exact hne heq.1
  · exact hne (heq.1.trans heq.2)
  · exact hne (heq.2.trans heq.1)
  · exact hne heq.2

/-- What a purchase of a material does. -/
structure Bought (g : GameBoard) (owner : EntityID) (x : Currency × ℕ) (cost : ℕ)
    (g' : GameBoard) : Prop where
  inv : g'.Inv
  extends_board : g.Extends g'
  bitcoin : g'.balance g.bitcoinTokenId owner + cost = g.balance g.bitcoinTokenId owner
  material : g.balance x.1 owner + x.2 ≤ g'.balance x.1 owner
  others : ∀ p, p ≠ x.1 → p ≠ g.bitcoinTokenId → g'.balance p owner = g.balance p owner
  nfts : g'.nfts = g.nfts
  alloc : g'.alloc = g.alloc
  quotes : ∀ y c, y.1 ≠ x.1 → g.Quoted y c → g'.Quoted y c

private theorem buyMaterial (hi : g.Inv) (howner : g.IsUser owner) (hquoted : g.Quoted x cost)
    (hne : x.1 ≠ g.bitcoinTokenId) (hpos : 0 < x.2)
    (hpays : cost ≤ g.balance g.bitcoinTokenId owner) :
    ∃ outcome g', doBuyTrade g (g.materialPair x.1) x.2 0 none false owner =
      .ok (.ok outcome, g') ∧ Bought g owner x cost g' := by
  obtain ⟨m, b, hm, hholds, hquote⟩ := hquoted
  have hparty := hi.party_of_user howner
  have hpriced := priced_of_quote hi hm hpos hquote
  have hswap := hpriced.canSwap hparty hpays
  obtain ⟨outcome, _, heq⟩ := @doBuyTrade_material _ _ owner _ false hi hm hpos
  rw [if_neg (Nat.not_lt_of_le hholds), hquote, ok_bind, closeTrade_eq hi hpriced hparty,
    if_neg (Nat.not_lt_of_le hpays)] at heq
  have hext := (Occurs.swap g m _ _ _ _ _ hswap).extends hi
  have hbalance (q : TokenPointer) := hswap.balance_trader (q := q) hi
  obtain ⟨hS, hlt, _, _, hx⟩ := buyQuote_eq_ok_iff.mp hquote
  obtain ⟨hcost, hb⟩ := Prod.mk.inj hx
  -- rounding is in favour of the buyer
  have hdelivered : x.2 ≤ b := by
    rw [hb]
    exact (le_swapOut_iff hS hlt.le).mpr (acceptable_swapIn hlt)
  have hpair : m.pair = (g.materialPair x.1).normalize := (hi.markets _ m hm).pair_eq
  refine ⟨_, _, heq, ?_⟩
  refine
    { inv := hi.swap hswap
      extends_board := hext
      bitcoin := ?_
      material := ?_
      others := fun p hp hbtc => ?_
      nfts := rfl
      alloc := rfl
      quotes := ?_ }
  · show (g.swapped m g.bitcoinTokenId x.1 cost b owner).balance g.bitcoinTokenId owner + cost = _
    rw [hbalance, if_pos rfl]
    omega
  · show _ ≤ (g.swapped m g.bitcoinTokenId x.1 cost b owner).balance x.1 owner
    rw [hbalance, if_neg hne.symm, if_pos rfl]
    omega
  · show (g.swapped m g.bitcoinTokenId x.1 cost b owner).balance p owner = _
    rw [hbalance, if_neg hbtc.symm, if_neg hp.symm]
  · rintro y c hy ⟨m', b', hm', hholds', hquote'⟩
    have hpairs : m.pair ≠ (g.materialPair y.1).normalize := hpair ▸ materialPair_ne hy.symm
    have hids : m.id ≠ m'.id := by
      intro hsame
      exact materialPair_ne hy.symm (hi.market_eq hm hm' hsame)
    have htrader : owner ≠ m'.id := fun hsame => hparty.not_market _ m' hm' hsame.symm
    have hkept (q : TokenPointer) : (g.withReserves m (g.swapped m g.bitcoinTokenId x.1 cost b
        owner)).balance q m'.id = g.balance q m'.id := hswap.balance_other hi hids htrader
    refine ⟨m', b', ?_, ?_, ?_⟩
    · show (g.markets.insert m.pair _)[(g.materialPair y.1).normalize]? = some m'
      rw [OrderedMap.getElem?_insert, if_neg hpairs]
      exact hm'
    · rw [hkept]
      exact hholds'
    · rw [hkept]
      show buyQuote ((g.withReserves m _).balance g.bitcoinTokenId m'.id) _ _ = _
      rw [hkept]
      exact hquote'

/-- Different materials, none of them bitcoin, and some of each. -/
structure Buyable (g : GameBoard) (bill : List (Currency × ℕ)) : Prop where
  nodup : (bill.map (·.1)).Nodup
  notBitcoin : ∀ x ∈ bill, x.1 ≠ g.bitcoinTokenId
  positive : ∀ x ∈ bill, 0 < x.2

/-- What the purchases of a bill do. -/
structure BoughtAll (g : GameBoard) (owner : EntityID) (bill : List (Currency × ℕ))
    (costs : List ℕ) (g' : GameBoard) : Prop where
  inv : g'.Inv
  extends_board : g.Extends g'
  bitcoin : g'.balance g.bitcoinTokenId owner + costs.sum = g.balance g.bitcoinTokenId owner
  materials : ∀ x ∈ bill, x.2 ≤ g'.balance x.1 owner
  others : ∀ p, p ∉ bill.map (·.1) → p ≠ g.bitcoinTokenId → g'.balance p owner = g.balance p owner
  nfts : g'.nfts = g.nfts
  alloc : g'.alloc = g.alloc

private theorem BoughtAll.cons {costs : List ℕ} {g1 : GameBoard} (hbuyable : Buyable g (x :: bill))
    (hfirst : Bought g owner x cost g1) (hrest : BoughtAll g1 owner bill costs g') :
    BoughtAll g owner (x :: bill) (cost :: costs) g' := by
  obtain ⟨hx, _⟩ := List.nodup_cons.mp hbuyable.nodup
  have hbtc := hfirst.extends_board.bitcoin_eq
  have hne := hbuyable.notBitcoin x List.mem_cons_self
  refine
    { inv := hrest.inv
      extends_board := hfirst.extends_board.trans hrest.extends_board
      bitcoin := ?_
      materials := ?_
      others := fun p hp hpb => ?_
      nfts := hrest.nfts.trans hfirst.nfts
      alloc := hrest.alloc.trans hfirst.alloc }
  · have h1 := hfirst.bitcoin
    have h2 := hrest.bitcoin
    rw [hbtc] at h2
    rw [List.sum_cons]
    omega
  · intro y hy
    rcases List.mem_cons.mp hy with rfl | hy
    · have hkept := hrest.others y.1 hx (hbtc ▸ hne)
      have hmaterial := hfirst.material
      omega
    · exact hrest.materials y hy
  · rw [List.map_cons, List.mem_cons, not_or] at hp
    rw [hrest.others p hp.2 (hbtc ▸ hpb), hfirst.others p hp.1 hpb]

private theorem Bought.quotes_all {costs : List ℕ} {g1 : GameBoard} (h : Bought g owner x cost g1)
    (hx : x.1 ∉ bill.map (·.1)) (hquoted : List.Forall₂ g.Quoted bill costs) :
    List.Forall₂ g1.Quoted bill costs := by
  induction hquoted with
  | nil => exact .nil
  | cons hy _ ih =>
    rw [List.map_cons, List.mem_cons, not_or] at hx
    exact .cons (h.quotes _ _ (Ne.symm hx.1) hy) (ih hx.2)

/-- The purchases of a quoted bill that the owner can pay go through at the quoted costs. -/
theorem buyMaterials_eq {costs : List ℕ} (hi : g.Inv) (howner : g.IsUser owner)
    (hbuyable : Buyable g bill) (hquoted : List.Forall₂ g.Quoted bill costs)
    (hpays : costs.sum ≤ g.balance g.bitcoinTokenId owner) :
    ∃ g', PowerPlantProducer.buyMaterials owner bill g = .ok g' ∧
      BoughtAll g owner bill costs g' := by
  induction bill generalizing g costs with
  | nil =>
    cases hquoted
    exact ⟨g, rfl, hi, Extends.refl g, rfl, (fun x hx => by cases hx), fun _ _ _ => rfl, rfl, rfl⟩
  | cons x bill ih =>
    obtain ⟨cost, costs, hx, hrest, rfl⟩ := List.forall₂_cons_left_iff.mp hquoted
    rw [List.sum_cons] at hpays
    obtain ⟨hdistinct, hnodup⟩ := List.nodup_cons.mp hbuyable.nodup
    obtain ⟨outcome, g1, htrade, hfirst⟩ := buyMaterial hi howner hx
      (hbuyable.notBitcoin x List.mem_cons_self) (hbuyable.positive x List.mem_cons_self) (by omega)
    have hbtc := hfirst.extends_board.bitcoin_eq
    have hbuyable1 : Buyable g1 bill :=
      { nodup := hnodup
        notBitcoin := fun y hy => hbtc ▸ hbuyable.notBitcoin y (List.mem_cons_of_mem _ hy)
        positive := fun y hy => hbuyable.positive y (List.mem_cons_of_mem _ hy) }
    have hquoted1 := hfirst.quotes_all hdistinct hrest
    have hpays1 : costs.sum ≤ g1.balance g1.bitcoinTokenId owner := by
      have hspent := hfirst.bitcoin
      rw [hbtc]
      omega
    obtain ⟨g', hbuy, hall⟩ := ih hfirst.inv (hfirst.extends_board.isUser howner) hbuyable1 hquoted1
      hpays1
    refine ⟨g', ?_, hall.cons hbuyable hfirst⟩
    have htrade' : doBuyTrade g { assetA := x.1, assetB := g.bitcoinTokenId } x.2 0 none false owner =
        .ok (.ok outcome, g1) := htrade
    simp only [PowerPlantProducer.buyMaterials, htrade', ok_bind]
    exact hbuy

section

variable {outcome : TradeOutcome} {estimate : Except TradeError (List (String × ℕ × ℕ))}
  {estimates : List (String × ℕ × ℕ)}

private theorem quoted_of_simulated (hi : g.Inv) (howner : g.IsUser owner)
    (hmarket : ConstantFunctionMarketMakerPair.hasMarket g (g.materialPair x.1)) (hpos : 0 < x.2)
    (h : doBuyTrade g (g.materialPair x.1) x.2 0 none true owner = .ok (.ok outcome, g')) :
    g' = g ∧ g.Quoted x outcome.amountPlayerSold ∧
      outcome.amountPlayerSold ≤ g.balance g.bitcoinTokenId owner := by
  obtain ⟨m, hm⟩ := ConstantFunctionMarketMakerPair.hasMarket_iff.mp hmarket
  obtain ⟨make, hsold, heq⟩ := @doBuyTrade_material _ _ owner _ true hi hm hpos
  rw [heq] at h
  by_cases hlack : x.2 > g.balance x.1 m.id
  · rw [if_pos hlack] at h
    cases h
  · rw [if_neg hlack] at h
    obtain ⟨⟨s, b⟩, hquote, h⟩ := bind_eq_ok_iff.mp h
    have hpriced := priced_of_quote hi hm hpos hquote
    rw [closeTrade_eq hi hpriced (hi.party_of_user howner)] at h
    by_cases hpoor : g.balance g.bitcoinTokenId owner < s
    · rw [if_pos hpoor] at h
      cases h
    · rw [if_neg hpoor, if_pos rfl] at h
      cases h
      rw [hsold]
      exact ⟨rfl, ⟨m, b, hm, Nat.le_of_not_lt hlack, hquote⟩, Nat.le_of_not_lt hpoor⟩

/-- A quoted purchase that the owner can pay succeeds in simulation, at the quoted cost. -/
theorem simulated_of_quoted (hi : g.Inv) (howner : g.IsUser owner) (hquoted : g.Quoted x cost)
    (hpos : 0 < x.2) (hpays : cost ≤ g.balance g.bitcoinTokenId owner) :
    ∃ outcome, doBuyTrade g (g.materialPair x.1) x.2 0 none true owner = .ok (.ok outcome, g) ∧
      outcome.amountPlayerSold = cost := by
  obtain ⟨m, b, hm, hholds, hquote⟩ := hquoted
  obtain ⟨make, hsold, heq⟩ := @doBuyTrade_material _ _ owner _ true hi hm hpos
  have hpriced := priced_of_quote hi hm hpos hquote
  rw [if_neg (Nat.not_lt_of_le hholds), hquote, ok_bind,
    closeTrade_eq hi hpriced (hi.party_of_user howner), if_neg (Nat.not_lt_of_le hpays),
    if_pos rfl] at heq
  exact ⟨_, heq, hsold cost b⟩

/-- An estimate that succeeds has a quote of every material, each of which the owner can pay. -/
theorem quoted_of_estimate (hi : g.Inv) (howner : g.IsUser owner)
    (hmarkets : ∀ x ∈ bill, ConstantFunctionMarketMakerPair.hasMarket g (g.materialPair x.1))
    (hpos : ∀ x ∈ bill, 0 < x.2)
    (h : PowerPlantProducer.estimateMaterials owner bill g = .ok (.ok estimates, g')) :
    List.Forall₂ g.Quoted bill (estimates.map (·.2.2)) ∧
      ∀ e ∈ estimates, e.2.2 ≤ g.balance g.bitcoinTokenId owner := by
  induction bill generalizing estimates with
  | nil =>
    cases h
    exact ⟨.nil, fun e he => by cases he⟩
  | cons x bill ih =>
    simp only [PowerPlantProducer.estimateMaterials, bind_eq_ok_iff] at h
    obtain ⟨token, _, ⟨r, g1⟩, htrade, h⟩ := h
    cases r with
    | error e => cases h
    | ok outcome =>
      obtain ⟨rfl, hquoted, hpays⟩ := quoted_of_simulated hi howner (hmarkets x List.mem_cons_self)
        (hpos x List.mem_cons_self) htrade
      simp only [bind_eq_ok_iff, pure_eq_ok, Except.ok.injEq, Prod.mk.injEq] at h
      obtain ⟨⟨rest, g2⟩, hrest, hmap, rfl⟩ := h
      cases rest with
      | error e => cases hmap
      | ok rest =>
        cases hmap
        obtain ⟨hquotes, hle⟩ := ih (fun y hy => hmarkets y (List.mem_cons_of_mem _ hy))
          (fun y hy => hpos y (List.mem_cons_of_mem _ hy)) hrest
        refine ⟨.cons hquoted hquotes, fun e he => ?_⟩
        rcases List.mem_cons.mp he with rfl | he
        · exact hpays
        · exact hle e he

end

/-- The tokens after the materials of a bill went from the owner to the plant. -/
def TokenRegistry.billed (tokens : TokenRegistry) (owner : EntityID) (plant : NftPtr)
    (bill : List (Currency × ℕ)) : TokenRegistry :=
  bill.foldl (fun tokens x => tokens.moved x.1 owner plant x.2) tokens

section

variable {tokens : TokenRegistry} {plant : NftPtr}

private theorem payBill_eq (hs : tokens.Sound) (hhas : ∀ x ∈ bill, tokens.Has x.1)
    (hnodup : (bill.map (·.1)).Nodup) (hpays : ∀ x ∈ bill, x.2 ≤ tokens.balance x.1 owner) :
    PowerPlantProducer.payBill owner plant bill tokens = .ok (tokens.billed owner plant bill) := by
  induction bill generalizing tokens with
  | nil => rfl
  | cons x bill ih =>
    obtain ⟨hx, hnodup⟩ := List.nodup_cons.mp hnodup
    have hpaid := hpays x List.mem_cons_self
    have hhasx := hhas x List.mem_cons_self
    have htransfer : tokens.transfer x.1 owner plant x.2 =
        .ok (true, tokens.moved x.1 owner plant x.2) := by
      rw [TokenRegistry.transfer_eq hs hhasx, if_neg (Nat.not_lt_of_le hpaid)]
    simp only [PowerPlantProducer.payBill, htransfer, ok_bind]
    apply ih (TokenRegistry.moved_sound hs hpaid)
      (fun y hy => TokenRegistry.moved_has.mpr (hhas y (List.mem_cons_of_mem _ hy))) hnodup
    intro y hy
    have hne : x.1 ≠ y.1 := fun heq => hx (List.mem_map.mpr ⟨y, hy, heq.symm⟩)
    rw [TokenRegistry.moved_balance hhasx, if_neg hne]
    exact hpays y (List.mem_cons_of_mem _ hy)

private theorem billed_balance_of_notMem {p : TokenPointer} {who : EntityID}
    (hhas : ∀ x ∈ bill, tokens.Has x.1) (hp : p ∉ bill.map (·.1)) :
    (tokens.billed owner plant bill).balance p who = tokens.balance p who := by
  induction bill generalizing tokens with
  | nil => rfl
  | cons x bill ih =>
    rw [List.map_cons, List.mem_cons, not_or] at hp
    have hrest := @ih (tokens.moved x.1 owner plant x.2)
      (fun y hy => TokenRegistry.moved_has.mpr (hhas y (List.mem_cons_of_mem _ hy))) hp.2
    rw [TokenRegistry.moved_balance (hhas x List.mem_cons_self), if_neg (Ne.symm hp.1)] at hrest
    exact hrest

theorem billed_balance_of_mem (hhas : ∀ x ∈ bill, tokens.Has x.1)
    (hnodup : (bill.map (·.1)).Nodup) (hne : owner ≠ plant) (hx : x ∈ bill) :
    (tokens.billed owner plant bill).balance x.1 plant = tokens.balance x.1 plant + x.2 := by
  induction bill generalizing tokens with
  | nil => cases hx
  | cons y bill ih =>
    obtain ⟨hy, hnodup⟩ := List.nodup_cons.mp hnodup
    have hhasy := hhas y List.mem_cons_self
    have hhas' : ∀ z ∈ bill, (tokens.moved y.1 owner plant y.2).Has z.1 :=
      fun z hz => TokenRegistry.moved_has.mpr (hhas z (List.mem_cons_of_mem _ hz))
    show ((tokens.moved y.1 owner plant y.2).billed owner plant bill).balance x.1 plant = _
    rcases List.mem_cons.mp hx with rfl | hx
    · rw [billed_balance_of_notMem hhas' hy, TokenRegistry.moved_balance hhasy, if_pos rfl,
        if_neg hne, if_pos rfl, Nat.sub_zero]
    · have hdistinct : y.1 ≠ x.1 := fun heq => hy (List.mem_map.mpr ⟨x, hx, heq.symm⟩)
      rw [ih hhas' hnodup hx, TokenRegistry.moved_balance hhasy, if_neg hdistinct]

private theorem missingMaterial_eq (hhas : ∀ x ∈ bill, g.Has x.1)
    (hpays : ∀ x ∈ bill, x.2 ≤ g.balance x.1 owner) :
    PowerPlantProducer.missingMaterial g owner bill = .ok none := by
  induction bill with
  | nil => rfl
  | cons x bill ih =>
    have hbalance : g.tokens.balanceCheck x.1 owner = .ok (g.tokens.balance x.1 owner) :=
      TokenRegistry.balanceCheck_of_has (hhas x List.mem_cons_self)
    have hx : ¬ g.tokens.balance x.1 owner < x.2 := Nat.not_lt_of_le (hpays x List.mem_cons_self)
    simp only [PowerPlantProducer.missingMaterial, hbalance, ok_bind, if_neg hx]
    exact ih (fun y hy => hhas y (List.mem_cons_of_mem _ hy))
      fun y hy => hpays y (List.mem_cons_of_mem _ hy)

end

/-- The board after a plant was minted for a bill. -/
def GameBoard.minted (g : GameBoard) (d : MintPowerPlant) (owner : EntityID)
    (bill : List (Currency × ℕ)) : GameBoard :=
  { g.addNft { owner, nftId := g.alloc + 1, transferCount := 0 }
      (some
        { id := g.alloc + 1
          plantType := d.plantType
          watts := d.scale * 100_000
          coordinates := d.location }) with
    tokens := g.tokens.billed owner (g.alloc + 1) bill }

/-- An owner who has the materials gets the plant, unless there is no id left. -/
theorem mintPowerPlant_eq {d : MintPowerPlant} (hi : g.Inv)
    (hbill : d.plantType.rawMaterialsBill g d.scale = .ok bill) (hhas : ∀ x ∈ bill, g.Has x.1)
    (hnodup : (bill.map (·.1)).Nodup) (hpays : ∀ x ∈ bill, x.2 ≤ g.balance x.1 owner)
    (hwatts : d.scale * 100_000 < 2 ^ 64) :
    PowerPlantProducer.mintPowerPlant g d.scale d.location d.plantType owner =
      if g.alloc + 1 < 2 ^ 64 then .ok (.ok (), g.minted d owner bill) else .error .overflow := by
  have hnone : g.nfts.nfts[g.alloc + 1]? = none := by
    simpa [IsNft] using hi.not_isNft (Nat.lt_succ_self g.alloc)
  simp only [PowerPlantProducer.mintPowerPlant, hbill, ok_bind, missingMaterial_eq hhas hpays]
  by_cases hroom : g.alloc + 1 < 2 ^ 64
  · have hid : EntityIDAllocator.make g.alloc = .ok (g.alloc + 1) := add_of_lt hroom
    have hnew (plant : NftPtr) : PowerPlant.new plant d.plantType d.location d.scale =
        .ok { id := plant
              plantType := d.plantType
              watts := d.scale * 100_000
              coordinates := d.location } := by
      simp only [PowerPlant.new, mul_of_lt hwatts, ok_bind, pure_eq_ok]
    simp only [hid, ok_bind, hnew, payBill_eq hi.tokens hhas hnodup hpays, pure_eq_ok, if_pos hroom,
      NFTRegistry.add, insertIfNew_of_none hnone]
    rfl
  · have hid : EntityIDAllocator.make g.alloc = .error .overflow := if_neg hroom
    simp only [hid, error_bind, if_neg hroom]

/-- What the prices of plants are made of: few materials, a little of each. -/
structure PricesSound (g : GameBoard) (prices : List (Currency × ℕ)) : Prop where
  nodup : (prices.map (·.1)).Nodup
  few : 0 < prices.length ∧ prices.length ≤ 3
  notBitcoin : ∀ x ∈ prices, x.1 ≠ g.bitcoinTokenId
  material : ∀ x ∈ prices, x.1 ∈ g.materials
  positive : ∀ x ∈ prices, 0 < x.2

instance (prices : List (Currency × ℕ)) : Decidable (PricesSound g prices) :=
  decidable_of_iff ((prices.map (·.1)).Nodup ∧ (0 < prices.length ∧ prices.length ≤ 3) ∧
      (∀ x ∈ prices, x.1 ≠ g.bitcoinTokenId) ∧ (∀ x ∈ prices, x.1 ∈ g.materials) ∧
      ∀ x ∈ prices, 0 < x.2)
    ⟨fun ⟨h1, h2, h3, h4, h5⟩ => ⟨h1, h2, h3, h4, h5⟩,
      fun h => ⟨h.nodup, h.few, h.notBitcoin, h.material, h.positive⟩⟩

private theorem blank_pricesSound (h : blank = .ok g) (kind : PlantType) :
    ∃ prices, g.plantPrices kind = some prices ∧ PricesSound g prices := by
  cases h
  cases kind <;> exact ⟨_, rfl, by decide⟩

/-- Every kind of plant has sound prices. -/
def GameBoard.Stocked (g : GameBoard) : Prop :=
  ∀ kind, ∃ prices, g.plantPrices kind = some prices ∧ PricesSound g prices

private theorem GameBoard.Stocked.of_constants {time : ℕ} (h : g.Stocked)
    (hconst : g'.constants = { g.constants with finishTime := time }) : g'.Stocked := by
  intro kind
  obtain ⟨prices, hprices, hsound⟩ := h kind
  simp only [constants, Constants.mk.injEq] at hconst
  obtain ⟨hbtc, _, hsteel, hsilicon, hconcrete, hasic, _, _, _, hplant, _⟩ := hconst
  refine ⟨prices, hplant ▸ hprices, hsound.nodup, hsound.few, ?_, ?_, hsound.positive⟩
  · rw [hbtc]
    exact hsound.notBitcoin
  · simp only [materials, hsteel, hsilicon, hconcrete, hasic]
    exact hsound.material

theorem GameBoard.Stocked.mono (h : g.Stocked) (hext : g.Extends g') : g'.Stocked :=
  @of_constants _ _ g.finishTime h hext.constants_eq

theorem Reachable.stocked (h : Reachable setup g) : g.Stocked := by
  obtain ⟨g0, hblank, hconst⟩ := h.constants_eq
  have hstocked : g0.Stocked := blank_pricesSound hblank
  exact hstocked.of_constants hconst

theorem rawMaterialsBill_eq {kind : PlantType} {scale : ℕ} {prices : List (Currency × ℕ)}
    (hprices : g.plantPrices kind = some prices) (h : kind.rawMaterialsBill g scale = .ok bill) :
    bill = prices.map fun x => (x.1, x.2 * scale) := by
  simp only [PlantType.rawMaterialsBill, hprices, unwrap_some, ok_bind] at h
  clear hprices
  induction prices generalizing bill with
  | nil =>
    cases h
    rfl
  | cons x prices ih =>
    simp only [List.mapM_cons, bind_eq_ok_iff, mul_eq_ok_iff, pure_eq_ok, Except.ok.injEq] at h
    obtain ⟨_, ⟨_, ⟨_, rfl⟩, rfl⟩, rest, hrest, rfl⟩ := h
    rw [List.map_cons, ih hrest]

private theorem totalCost_eq {estimates : List (String × ℕ × ℕ)} {start : ℕ}
    (hfits : start + (estimates.map (·.2.2)).sum < 2 ^ 128) :
    estimates.foldlM (fun total i => add 128 total i.2.2) start =
      .ok (start + (estimates.map (·.2.2)).sum) := by
  induction estimates generalizing start with
  | nil => rfl
  | cons e estimates ih =>
    rw [List.map_cons, List.sum_cons] at hfits
    rw [List.foldlM_cons, add_of_lt (by omega), ok_bind, ih (by omega), List.map_cons,
      List.sum_cons, Nat.add_assoc]

theorem sum_of_totalCost {estimates : List (String × ℕ × ℕ)} {start total : ℕ}
    (h : estimates.foldlM (fun total i => add 128 total i.2.2) start = .ok total) :
    total = start + (estimates.map (·.2.2)).sum := by
  induction estimates generalizing start with
  | nil =>
    cases h
    rfl
  | cons e estimates ih =>
    simp only [List.foldlM_cons, bind_eq_ok_iff, add_eq_ok_iff] at h
    obtain ⟨_, ⟨_, rfl⟩, hrest⟩ := h
    rw [ih hrest, List.map_cons, List.sum_cons, Nat.add_assoc]

private theorem Stage.bitcoin_lt (h : Stage setup origin g) (owner : EntityID) :
    g.balance g.bitcoinTokenId owner < 2 ^ 84 := by
  obtain ⟨n, hsupplied⟩ := h.supplied
  have hbitcoin := hsupplied.bitcoin_le
  have hrounds := hsupplied.rounds_le
  have hle : g.balance g.bitcoinTokenId owner ≤ g.total g.bitcoinTokenId :=
    TokenRegistry.balance_le_total h.inv.tokens
  omega

/-- The owner paid the cost and got a new plant, which holds its materials and nothing else. -/
structure GameBoard.SuperMinted (g : GameBoard) (d : MintPowerPlant) (owner : EntityID)
    (bill : List (Currency × ℕ)) (cost : ℕ) (g' : GameBoard) : Prop where
  bitcoin : g'.balance g.bitcoinTokenId owner + cost = g.balance g.bitcoinTokenId owner
  fresh : ¬ g.IsNft (g.alloc + 1)
  nft : g'.nfts.nfts[g.alloc + 1]? =
    some { owner, nftId := g.alloc + 1, transferCount := 0 }
  plant : g'.nfts.powerPlants[g.alloc + 1]? =
    some
      { id := g.alloc + 1
        plantType := d.plantType
        watts := d.scale * 100_000
        coordinates := d.location }
  holds : ∀ x ∈ bill, g'.balance x.1 (g.alloc + 1) = x.2
  nothingElse : ∀ p, p ∉ bill.map (·.1) → g'.balance p (g.alloc + 1) = 0

private theorem superMinted_minted {d : MintPowerPlant} {costs : List ℕ} {g1 : GameBoard}
    (hi : g.Inv)
    (howner : g.IsUser owner) (hbuyable : Buyable g bill) (hhas : ∀ x ∈ bill, g1.Has x.1)
    (hall : BoughtAll g owner bill costs g1) :
    g.SuperMinted d owner bill costs.sum (g1.minted d owner bill) := by
  have halloc := hall.alloc
  have hbtc : g.bitcoinTokenId ∉ bill.map (·.1) := by
    intro hmem
    obtain ⟨x, hx, heq⟩ := List.mem_map.mp hmem
    exact hbuyable.notBitcoin x hx heq
  have hzero (p : TokenPointer) : g1.balance p (g.alloc + 1) = 0 :=
    hall.inv.balance_eq_zero (halloc ▸ Nat.lt_succ_self g.alloc)
  have howner_ne : owner ≠ g.alloc + 1 := by
    rintro rfl
    exact hi.not_isUser (Nat.lt_succ_self g.alloc) howner
  have htokens : (g1.minted d owner bill).tokens = g1.tokens.billed owner (g.alloc + 1) bill := by
    rw [GameBoard.minted, halloc]
  refine
    { bitcoin := ?_
      fresh := hi.not_isNft (Nat.lt_succ_self g.alloc)
      nft := ?_
      plant := ?_
      holds := fun x hx => ?_
      nothingElse := fun p hp => ?_ }
  · rw [GameBoard.balance, htokens, billed_balance_of_notMem hhas hbtc]
    exact hall.bitcoin
  · simp [GameBoard.minted, addNft, halloc]
  · simp [GameBoard.minted, addNft, halloc]
  · rw [GameBoard.balance, htokens, billed_balance_of_mem hhas hbuyable.nodup howner_ne hx]
    have h0 := hzero x.1
    simp only [GameBoard.balance] at h0
    rw [h0, Nat.zero_add]
  · rw [GameBoard.balance, htokens, billed_balance_of_notMem hhas hp]
    exact hzero p

theorem buyable_of_bill (hi : g.Inv) (hpriced : g.Priced) (hstocked : g.Stocked) {kind : PlantType}
    {scale : ℕ} (hscale : 1 ≤ scale) (hbill : kind.rawMaterialsBill g scale = .ok bill) :
    Buyable g bill ∧ (0 < bill.length ∧ bill.length ≤ 3) ∧ (∀ x ∈ bill, scale ≤ x.2) ∧
      (∀ x ∈ bill, x.1 ∈ g.materials) ∧ (∀ x ∈ bill, g.Has x.1) ∧
      ∀ x ∈ bill, ConstantFunctionMarketMakerPair.hasMarket g (g.materialPair x.1) := by
  obtain ⟨prices, hprices, hsound⟩ := hstocked kind
  have heq := rawMaterialsBill_eq hprices hbill
  subst heq
  have hkeys : (prices.map fun x => (x.1, x.2 * scale)).map (·.1) = prices.map (·.1) := by simp
  refine ⟨⟨hkeys ▸ hsound.nodup, ?_, ?_⟩, by simpa using hsound.few, ?_, ?_, ?_, ?_⟩
  all_goals
    intro x hx
    obtain ⟨y, hy, rfl⟩ := List.mem_map.mp hx
  · exact hsound.notBitcoin y hy
  · exact Nat.mul_pos (hsound.positive y hy) hscale
  · exact Nat.le_mul_of_pos_left scale (hsound.positive y hy)
  · exact hsound.material y hy
  · exact hi.bills kind prices hprices y hy
  · exact hpriced kind prices hprices y hy

theorem Stage.buyable (h : Stage setup origin g) {kind : PlantType} {scale : ℕ} (hscale : 1 ≤ scale)
    (hbill : kind.rawMaterialsBill g scale = .ok bill) :
    Buyable g bill ∧ (0 < bill.length ∧ bill.length ≤ 3) ∧ (∀ x ∈ bill, scale ≤ x.2) ∧
      (∀ x ∈ bill, x.1 ∈ g.materials) ∧ (∀ x ∈ bill, g.Has x.1) ∧
      ∀ x ∈ bill, ConstantFunctionMarketMakerPair.hasMarket g (g.materialPair x.1) :=
  buyable_of_bill h.inv (h.reachable.priced.mono h.extends_board)
    (h.reachable.stocked.mono h.extends_board) hscale hbill

theorem Stage.estimate_eq (h : Stage setup origin g) {kind : PlantType} {scale : ℕ}
    (hscale : 1 ≤ scale) {estimate : Except TradeError (List (String × ℕ × ℕ))}
    (hestimate : PowerPlantProducer.estimateMaterialsCost g scale kind owner = .ok (estimate, g')) :
    g' = g := by
  simp only [PowerPlantProducer.estimateMaterialsCost, bind_eq_ok_iff] at hestimate
  obtain ⟨bill, hbill, hcosts⟩ := hestimate
  obtain ⟨_, _, _, _, _, hmarkets⟩ := h.buyable hscale hbill
  exact PowerPlantProducer.estimateMaterials_eq hmarkets hcosts

private theorem Stage.quoted_le (h : Stage setup origin g) (hx : x.1 ∈ g.materials)
    (hquoted : g.Quoted x cost) : x.2 ≤ 100_010 := by
  obtain ⟨m, b, _, hle, _⟩ := hquoted
  obtain ⟨n, hsupplied⟩ := h.supplied
  have hmaterial := hsupplied.material_le x.1 hx
  have htotal : g.balance x.1 m.id ≤ g.total x.1 := TokenRegistry.balance_le_total h.inv.tokens
  omega

/-- Once the estimate has succeeded, the owner is too poor, or gets the plant at the estimated cost
unless there is no id left for it. -/
theorem Stage.superMint_of_estimate (h : Stage setup origin g) (howner : g.IsUser owner)
    {d : MintPowerPlant} (hscale : 1 ≤ d.scale) {estimates : List (String × ℕ × ℕ)}
    (hestimate : PowerPlantProducer.estimateMaterialsCost g d.scale d.plantType owner =
      .ok (.ok estimates, g)) :
    ((estimates.map (·.2.2)).sum > g.balance g.bitcoinTokenId owner ∧
      ∃ e, PowerPlantProducer.superMint g d.scale d.location d.plantType owner =
        .ok (.error e, g)) ∨
    ∃ bill g', d.plantType.rawMaterialsBill g d.scale = .ok bill ∧
      g.SuperMinted d owner bill (estimates.map (·.2.2)).sum g' ∧
      PowerPlantProducer.superMint g d.scale d.location d.plantType owner =
        if g.alloc + 1 < 2 ^ 64 then .ok (.ok (), g') else .error .overflow := by
  have hi := h.inv
  have hcosts := hestimate
  simp only [PowerPlantProducer.estimateMaterialsCost, bind_eq_ok_iff] at hcosts
  obtain ⟨bill, hbill, hcosts⟩ := hcosts
  obtain ⟨hbuyable, ⟨hsome, hfew⟩, hscaled, hmaterials, hhas, hmarkets⟩ := h.buyable hscale hbill
  obtain ⟨hquoted, hle⟩ := quoted_of_estimate hi howner hmarkets hbuyable.positive hcosts
  have hlength : estimates.length ≤ 3 := by
    have hsame := hquoted.length_eq
    rw [List.length_map] at hsame
    omega
  have htotal : (estimates.map (·.2.2)).sum < 2 ^ 128 := by
    have hbound : ∀ c ∈ estimates.map (·.2.2), c ≤ 2 ^ 84 := by
      intro c hc
      obtain ⟨e, he, rfl⟩ := List.mem_map.mp hc
      exact (hle e he).trans (h.bitcoin_lt owner).le
    have hsum := List.sum_le_card_nsmul _ _ hbound
    rw [List.length_map, smul_eq_mul] at hsum
    have hmul : estimates.length * 2 ^ 84 ≤ 3 * 2 ^ 84 := Nat.mul_le_mul_right _ hlength
    omega
  have hfold : estimates.foldlM (fun total i => add 128 total i.2.2) 0 =
      .ok (estimates.map (·.2.2)).sum := by
    rw [totalCost_eq (by omega), Nat.zero_add]
  have hbalance : g.tokens.balanceCheck g.bitcoinTokenId owner =
      .ok (g.balance g.bitcoinTokenId owner) := TokenRegistry.balanceCheck_of_has hi.bitcoin
  simp only [PowerPlantProducer.superMint, hestimate, ok_bind, hfold, hbalance, pure_eq_ok]
  by_cases hpoor : g.balance g.bitcoinTokenId owner < (estimates.map (·.2.2)).sum
  · rw [if_pos hpoor]
    exact .inl ⟨hpoor, _, rfl⟩
  · rw [if_neg hpoor]
    obtain ⟨g1, hbuy, hall⟩ := buyMaterials_eq hi howner hbuyable hquoted (Nat.le_of_not_lt hpoor)
    have hext := hall.extends_board
    have hhas1 : ∀ x ∈ bill, g1.Has x.1 := fun x hx => hext.has _ (hhas x hx)
    have hbill1 : d.plantType.rawMaterialsBill g1 d.scale = .ok bill := by
      rw [PlantType.rawMaterialsBill, hext.prices_eq]
      exact hbill
    have hwatts : d.scale * 100_000 < 2 ^ 64 := by
      obtain ⟨x, rest, hcons⟩ := List.exists_cons_of_length_pos hsome
      have hx : x ∈ bill := by simp [hcons]
      rw [hcons] at hquoted
      obtain ⟨_, _, hfirst, _⟩ := List.forall₂_cons_left_iff.mp hquoted
      have hunits := h.quoted_le (hmaterials x hx) hfirst
      have hscalex := hscaled x hx
      omega
    refine .inr ⟨bill, g1.minted d owner bill, hbill,
      superMinted_minted hi howner hbuyable hhas1 hall, ?_⟩
    simp only [hbill, ok_bind, hbuy, ← hall.alloc]
    exact mintPowerPlant_eq hall.inv hbill1 hhas1 hbuyable.nodup hall.materials hwatts

/-- What playing the minting of a plant can do: nothing, or the whole of it, unless no id is left. -/
inductive GameBoard.MintOutcome (g : GameBoard) (d : MintPowerPlant) (owner : EntityID)
    (estimate : Except TradeError (List (String × ℕ × ℕ))) : Prop
  | refused (e : MoveRejectReason)
      (h : g.playInner (.superMintPowerPlant d) owner = .ok (.error e, g))
  | minted (estimates : List (String × ℕ × ℕ)) (bill : List (Currency × ℕ)) (g' : GameBoard)
      (hestimate : estimate = .ok estimates)
      (hbill : d.plantType.rawMaterialsBill g d.scale = .ok bill)
      (h : g.playInner (.superMintPowerPlant d) owner = .ok (.ok (), g'))
      (hminted : g.SuperMinted d owner bill (estimates.map (·.2.2)).sum g')
  | exhausted (hroom : ¬ g.alloc + 1 < 2 ^ 64)
      (h : g.playInner (.superMintPowerPlant d) owner = .error .overflow)

theorem playInner_superMint {d : MintPowerPlant}
    {result : Except Panic (Except TradeError Unit × GameBoard)}
    (h : PowerPlantProducer.superMint g d.scale d.location d.plantType owner = result) :
    g.playInner (.superMintPowerPlant d) owner = result >>= fun y => pure (reject y.1, y.2) := by
  rw [← h]
  rfl

/-- Minting with purchased materials is all or nothing, at the estimated cost. -/
theorem superMint_atomic (h : Stage setup origin g) (howner : g.IsUser owner) (d : MintPowerPlant)
    (hscale : 1 ≤ d.scale) {estimate : Except TradeError (List (String × ℕ × ℕ))}
    (hestimate : PowerPlantProducer.estimateMaterialsCost g d.scale d.plantType owner =
      .ok (estimate, g')) :
    g' = g ∧ g.MintOutcome d owner estimate := by
  obtain rfl := h.estimate_eq hscale hestimate
  refine ⟨rfl, ?_⟩
  cases estimate with
  | error e =>
    have hmint : PowerPlantProducer.superMint g' d.scale d.location d.plantType owner =
        .ok (.error e, g') := by
      simp only [PowerPlantProducer.superMint, hestimate, ok_bind, pure_eq_ok]
    exact .refused _ (playInner_superMint hmint)
  | ok estimates =>
    rcases h.superMint_of_estimate howner hscale hestimate with ⟨_, e, hmint⟩ |
      ⟨bill, g1, hbill, hminted, hmint⟩
    · exact .refused _ (playInner_superMint hmint)
    · by_cases hroom : g'.alloc + 1 < 2 ^ 64
      · rw [if_pos hroom] at hmint
        exact .minted estimates bill g1 rfl hbill (playInner_superMint hmint) hminted
      · rw [if_neg hroom] at hmint
        exact .exhausted hroom (playInner_superMint hmint)

/-- Alice, who has the id 0xc0de0008, mints a small flare after her first move. -/
def smallFlare : MintPowerPlant := { scale := 1, location := (0, 0), plantType := .flare }

theorem superMint_atomic_flare : ∃ g estimates, Reachable twoPlayers g ∧ g.IsUser 0xc0de0008 ∧
    (PowerPlantProducer.estimateMaterialsCost g 1 .flare 0xc0de0008 = .ok (.ok estimates, g) ∧
      (estimates.map (·.2.2)).sum ≤ g.balance g.bitcoinTokenId 0xc0de0008) ∧
    g.MintOutcome smallFlare 0xc0de0008 (.ok estimates) := by
  have h : returns (do
      let g ← GameBoard.new twoPlayers
      let g ← playAll [(opening, "alice")] g
      let y ← PowerPlantProducer.estimateMaterialsCost g 1 .flare 0xc0de0008
      pure (g, y)) (fun x => x.1.IsUser 0xc0de0008 ∧ returns x.2.1 fun estimates =>
        (estimates.map (·.2.2)).sum ≤ x.1.balance x.1.bitcoinTokenId 0xc0de0008) := by
    decide +kernel
  obtain ⟨x, hok, htest⟩ := returns_iff.mp h
  simp only [bind_eq_ok_iff, pure_eq_ok, Except.ok.injEq] at hok
  obtain ⟨g0, hnew, g, hrun, ⟨estimate, g1⟩, hestimate, rfl⟩ := hok
  obtain ⟨halice, hcosts⟩ := of_decide_eq_true htest
  obtain ⟨estimates, heq, hpays⟩ := returns_iff.mp hcosts
  have heq : estimate = .ok estimates := heq
  subst heq
  have hreach := (Reachable.new hnew).later (later_of_playAll hrun)
  obtain ⟨rfl, houtcome⟩ := superMint_atomic (.between hreach) halice smallFlare (Nat.le_refl 1) hestimate
  exact ⟨g1, estimates, hreach, halice, ⟨hestimate, of_decide_eq_true hpays⟩, houtcome⟩

end JudicaVM
