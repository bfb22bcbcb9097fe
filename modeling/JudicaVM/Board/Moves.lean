import JudicaVM.Board.Trading

/-!
# Moves as events

Every move of a player is a run of events in which nobody but the player pays, except that a plant
of the player ships its coins to a lockup.
-/

namespace JudicaVM

open Checked Std OrderedMap Transition

/-- The events of a move of `sender` other than a listing, a purchase or a message. Among the ids in
`U`, nobody else pays. -/
def IsMoveOf (U : EntityID → Prop) (sender : EntityID) : Event → Prop
  | .openMarket _ => True
  | .swap _ _ _ _ _ trader => trader = sender
  | .transfer _ payer _ _ => payer = sender ∨ ¬ U payer
  | .newNft nft _ => nft.owner = sender
  | .schedule cb => cb.issues = false
  | _ => False

/-- The events of a move in which only the sender pays and nothing is scheduled. -/
def IsOwnEvent (sender : EntityID) : Event → Prop
  | .openMarket _ => True
  | .swap _ _ _ _ _ trader => trader = sender
  | .transfer _ payer _ _ => payer = sender
  | .newNft nft _ => nft.owner = sender
  | _ => False

/-- The events of a move of `sender`. -/
def IsPlayerEvent (U : EntityID → Prop) (sender : EntityID) : Event → Prop
  | .list _ sale => sale.seller = sender
  | .sold _ _ buyer => buyer = sender
  | .note => True
  | e => IsMoveOf U sender e

private theorem IsMoveOf.isPlayerEvent {U : EntityID → Prop} {sender : EntityID} {e : Event}
    (h : IsMoveOf U sender e) : IsPlayerEvent U sender e := by
  cases e <;> simp_all [IsMoveOf, IsPlayerEvent]

variable {U : EntityID → Prop} {sender : EntityID} {g g' : GameBoard}

private theorem IsOwnEvent.isMoveOf {e : Event} (h : IsOwnEvent sender e) :
    IsMoveOf U sender e := by
  cases e <;> simp_all [IsOwnEvent, IsMoveOf]

private theorem IsTrade.isOwnEvent {simulate : Bool} {e : Event}
    (h : ConstantFunctionMarketMaker.IsTrade sender simulate e) : IsOwnEvent sender e := by
  cases e <;> simp_all [ConstantFunctionMarketMaker.IsTrade, IsOwnEvent]

namespace GameBoard

theorem transfer_trace {P : Event → Prop} {p : TokenPointer} {payer receiver : EntityID}
    {amount : ℕ} {x : Bool × TokenRegistry} (hi : g.Inv) (hpayer : g.Party payer)
    (hreceiver : g.Party receiver) (hP : P (.transfer p payer receiver amount))
    (h : g.tokens.transfer p payer receiver amount = .ok x) :
    Trace P g (g.withTokens x.2) := by
  have hp := TokenRegistry.has_of_transfer h
  rw [TokenRegistry.transfer_eq hi.tokens hp] at h
  by_cases hpays : g.tokens.balance p payer < amount
  · rw [if_pos hpays] at h
    cases h
    exact Run.refl
  · rw [if_neg hpays] at h
    cases h
    exact Run.single hP (.transfer g p payer receiver amount hp (Nat.le_of_not_lt hpays) hpayer
      hreceiver)

private theorem add_eq_addNft {nft : BaseNFT} (hi : g.Inv) (hid : nft.nftId = g.alloc + 1) :
    ({ g with alloc := g.alloc + 1, nfts := (g.nfts.add nft).2 } : GameBoard) =
      g.addNft nft none := by
  have hnone : g.nfts.nfts[nft.nftId]? = none := by
    simpa [IsNft] using hi.not_isNft (hid ▸ Nat.lt_succ_self g.alloc)
  simp only [NFTRegistry.add, addNft, insertIfNew_of_none hnone]

theorem addPlant_eq_addNft (nft : BaseNFT) (plant : PowerPlant) (hi : g.Inv)
    (hid : nft.nftId = g.alloc + 1) :
    ({ g with
      alloc := g.alloc + 1
      nfts :=
        { (g.nfts.add nft).2 with
          powerPlants := g.nfts.powerPlants.insert nft.nftId plant } } : GameBoard) =
      g.addNft nft (some plant) := by
  have hnone : g.nfts.nfts[nft.nftId]? = none := by
    simpa [IsNft] using hi.not_isNft (hid ▸ Nat.lt_succ_self g.alloc)
  simp only [NFTRegistry.add, addNft, insertIfNew_of_none hnone]

end GameBoard

open GameBoard

/-- The NFT of a lockup, which cannot be transferred. -/
def lockupNft (g : GameBoard) (owner : EntityID) : BaseNFT :=
  { owner, nftId := g.alloc + 1, transferCount := maxTransferCount }

/-- The lockup that a shipment schedules. -/
def newLockup (g : GameBoard) (asset : TokenPointer) (time : ℕ) : CoinLockup :=
  { id := g.alloc + 1, timeWhenFree := time, asset }

/-- The board after a shipment: a new NFT, a callback, and a payment to the NFT. -/
def GameBoard.lockedUp (g : GameBoard) (owner : EntityID) (asset : TokenPointer) (time : ℕ)
    (tokens : TokenRegistry) : GameBoard :=
  ((g.addNft (lockupNft g owner) none).schedule (.coinLockup (newLockup g asset time))).withTokens
    tokens

namespace CoinLockup

theorem lockup_eq {payer owner : EntityID} {asset : TokenPointer} {amount time : ℕ} (hi : g.Inv)
    (h : lockup g payer owner asset amount time = .ok g') :
    ∃ paid tokens, g.alloc + 1 < 2 ^ 64 ∧
      g.tokens.transfer asset payer (g.alloc + 1) amount = .ok (paid, tokens) ∧
      g' = g.lockedUp owner asset time tokens := by
  simp only [lockup, EntityIDAllocator.make, bind_eq_ok_iff, add_eq_ok_iff, pure_eq_ok,
    Except.ok.injEq] at h
  obtain ⟨_, ⟨hroom, rfl⟩, ⟨paid, tokens⟩, hpaid, rfl⟩ := h
  refine ⟨paid, tokens, hroom, hpaid, ?_⟩
  rw [lockedUp, ← add_eq_addNft hi rfl]
  rfl

private theorem lockup_trace {P : Event → Prop} {payer owner : EntityID} {asset : TokenPointer}
    {amount time : ℕ} (hi : g.Inv) (hpayer : g.Party payer) (howner : g.IsUser owner)
    (hnft : P (.newNft (lockupNft g owner) none))
    (hcb : P (.schedule (.coinLockup (newLockup g asset time))))
    (hpays : P (.transfer asset payer (g.alloc + 1) amount))
    (h : lockup g payer owner asset amount time = .ok g') : Trace P g g' := by
  obtain ⟨paid, tokens, hroom, hpaid, rfl⟩ := lockup_eq hi h
  let cb : Callback := .coinLockup (newLockup g asset time)
  have hnew : Occurs g (.newNft (lockupNft g owner) none) (g.addNft (lockupNft g owner) none) :=
    .newNft g (lockupNft g owner) none hroom rfl howner (fun _ h => by simp at h)
  have hi1 := hnew.inv hi
  have hisnft : (g.addNft (lockupNft g owner) none).IsNft (g.alloc + 1) := by
    simp [IsNft, addNft, lockupNft]
  have hsched : Occurs (g.addNft (lockupNft g owner) none) (.schedule cb)
      ((g.addNft (lockupNft g owner) none).schedule cb) := by
    refine .schedule _ _ ⟨fun p hp => by simp [cb, Callback.producer?] at hp, fun l hl => ?_⟩
    simp only [cb, Callback.lockup?, Option.some.injEq] at hl
    exact hl ▸ ⟨hisnft, TokenRegistry.has_of_transfer hpaid⟩
  have hi2 := hsched.inv hi1
  have hext := (hnew.extends hi).trans (hsched.extends hi1)
  have htransfer : Trace P ((g.addNft (lockupNft g owner) none).schedule cb)
      (((g.addNft (lockupNft g owner) none).schedule cb).withTokens tokens) :=
    transfer_trace hi2 (hext.party hpayer) (hi2.party_of_nft hisnft) hpays hpaid
  have hfirst : Trace P g (g.addNft (lockupNft g owner) none) := Run.single hnft hnew
  have hsecond : Trace P (g.addNft (lockupNft g owner) none)
      ((g.addNft (lockupNft g owner) none).schedule cb) := Run.single hcb hsched
  exact hfirst.trans (hsecond.trans htransfer)

end CoinLockup

namespace PowerPlantProducer

open ConstantFunctionMarketMaker (doBuyTrade doBuyTrade_trace)

private theorem payBill_trace {plant : NftPtr} {bill : List (Currency × ℕ)} {tokens : TokenRegistry}
    (hi : g.Inv) (hsender : g.Party sender) (hplant : g.Party plant)
    (h : payBill sender plant bill g.tokens = .ok tokens) :
    Trace (IsOwnEvent sender) g (g.withTokens tokens) := by
  induction bill generalizing g with
  | nil =>
    cases h
    exact Run.refl
  | cons item bill ih =>
    obtain ⟨currency, price⟩ := item
    simp only [payBill, bind_eq_ok_iff] at h
    obtain ⟨⟨paid, tokens1⟩, hpaid, h⟩ := h
    have hstep : Trace (IsOwnEvent sender) g (g.withTokens tokens1) :=
      transfer_trace hi hsender hplant (show IsOwnEvent sender (.transfer _ _ _ _) from rfl) hpaid
    have hext := hstep.extends hi
    exact hstep.trans (ih (hstep.inv hi) (hext.party hsender) (hext.party hplant) h)

private theorem mintPowerPlant_trace {scale : ℕ} {location : ℤ × ℤ} {kind : PlantType}
    {r : Except TradeError Unit} (hi : g.Inv) (hsender : g.IsUser sender)
    (h : mintPowerPlant g scale location kind sender = .ok (r, g')) :
    Trace (IsOwnEvent sender) g g' := by
  simp only [mintPowerPlant, bind_eq_ok_iff] at h
  obtain ⟨resources, _, missing, _, h⟩ := h
  cases missing with
  | some currency =>
    cases h
    exact Run.refl
  | none =>
    simp only [EntityIDAllocator.make, PowerPlant.new, bind_eq_ok_iff, add_eq_ok_iff, pure_eq_ok,
      Except.ok.injEq, Prod.mk.injEq] at h
    obtain ⟨_, ⟨hroom, rfl⟩, plant, ⟨watts, _, rfl⟩, tokens, hpay, rfl, rfl⟩ := h
    let nft : BaseNFT := { owner := sender, nftId := g.alloc + 1, transferCount := 0 }
    let plant : PowerPlant :=
      { id := g.alloc + 1, plantType := kind, watts, coordinates := location }
    have hnew : Occurs g (.newNft nft (some plant)) (g.addNft nft (some plant)) :=
      .newNft g nft (some plant) hroom rfl hsender (fun p hp => by cases hp; rfl)
    have hi1 := hnew.inv hi
    have hparty : (g.addNft nft (some plant)).Party (g.alloc + 1) :=
      hi1.party_of_nft (by simp [IsNft, addNft, nft])
    have hpays := payBill_trace hi1
      ((hnew.extends hi).party (hi.party_of_user hsender)) hparty hpay
    have hfirst : Trace (IsOwnEvent sender) g (g.addNft nft (some plant)) :=
      Run.single (e := .newNft nft (some plant)) rfl hnew
    have htrace := hfirst.trans hpays
    rw [← addPlant_eq_addNft _ _ hi rfl] at htrace
    exact htrace

private theorem estimateMaterials_trace {bill : List (Currency × ℕ)}
    {r : Except TradeError (List (String × ℕ × ℕ))} (hi : g.Inv) (hsender : g.Party sender)
    (h : estimateMaterials sender bill g = .ok (r, g')) :
    Trace (ConstantFunctionMarketMaker.IsTrade sender true) g g' := by
  induction bill generalizing g r with
  | nil =>
    cases h
    exact Run.refl
  | cons item bill ih =>
    obtain ⟨material, qty⟩ := item
    simp only [estimateMaterials, bind_eq_ok_iff] at h
    obtain ⟨_, _, ⟨r1, g1⟩, htrade, h⟩ := h
    have hstep := doBuyTrade_trace hi hsender htrade
    cases r1 with
    | error e =>
      cases h
      exact hstep
    | ok outcome =>
      simp only [bind_eq_ok_iff] at h
      obtain ⟨⟨r2, g2⟩, hrest, h⟩ := h
      cases h
      exact hstep.trans (ih (hstep.inv hi) ((hstep.extends hi).party hsender) hrest)

private theorem buyMaterials_trace {bill : List (Currency × ℕ)} (hi : g.Inv)
    (hsender : g.Party sender)
    (h : buyMaterials sender bill g = .ok g') :
    Trace (ConstantFunctionMarketMaker.IsTrade sender false) g g' := by
  induction bill generalizing g with
  | nil =>
    cases h
    exact Run.refl
  | cons item bill ih =>
    obtain ⟨material, qty⟩ := item
    simp only [buyMaterials, bind_eq_ok_iff] at h
    obtain ⟨⟨r1, g1⟩, htrade, h⟩ := h
    have hstep := doBuyTrade_trace hi hsender htrade
    cases r1 with
    | error e => cases h
    | ok outcome => exact hstep.trans (ih (hstep.inv hi) ((hstep.extends hi).party hsender) h)

/-- The estimate and the purchases of a plant are trades; what follows them is the minting. -/
theorem superMint_stages {scale : ℕ} {location : ℤ × ℤ} {kind : PlantType}
    {r : Except TradeError Unit} (hi : g.Inv) (hsender : g.IsUser sender)
    (h : superMint g scale location kind sender = .ok (r, g')) :
    ∃ g1, Trace (fun e => ∃ simulate, ConstantFunctionMarketMaker.IsTrade sender simulate e) g g1 ∧
      (g' = g1 ∨ mintPowerPlant g1 scale location kind sender = .ok (r, g')) := by
  simp only [superMint, estimateMaterialsCost, bind_eq_ok_iff] at h
  obtain ⟨⟨r1, g1⟩, ⟨bill, _, hestimate⟩, h⟩ := h
  have hfirst := estimateMaterials_trace hi (hi.party_of_user hsender) hestimate
  have hfirst' : Trace (fun e => ∃ simulate, ConstantFunctionMarketMaker.IsTrade sender simulate e)
      g g1 := hfirst.mono fun _ he => ⟨true, he⟩
  cases r1 with
  | error e =>
    cases h
    exact ⟨_, hfirst', .inl rfl⟩
  | ok costs =>
    simp only [bind_eq_ok_iff] at h
    obtain ⟨total, _, balance, _, h⟩ := h
    have hi1 := hfirst.inv hi
    have hsender1 := (hfirst.extends hi).isUser hsender
    by_cases hpoor : balance < total
    · rw [if_pos hpoor] at h
      cases h
      exact ⟨_, hfirst', .inl rfl⟩
    · rw [if_neg hpoor] at h
      simp only [bind_eq_ok_iff] at h
      obtain ⟨resources, _, g2, hbuy, hmint⟩ := h
      have hsecond := buyMaterials_trace hi1 (hi1.party_of_user hsender1) hbuy
      exact ⟨g2, hfirst'.trans (hsecond.mono fun _ he => ⟨false, he⟩), .inr hmint⟩

private theorem superMint_trace {scale : ℕ} {location : ℤ × ℤ} {kind : PlantType}
    {r : Except TradeError Unit} (hi : g.Inv) (hsender : g.IsUser sender)
    (h : superMint g scale location kind sender = .ok (r, g')) :
    Trace (IsOwnEvent sender) g g' := by
  obtain ⟨g1, htrades, hrest⟩ := superMint_stages hi hsender h
  have hfirst : Trace (IsOwnEvent sender) g g1 :=
    htrades.mono fun _ ⟨_, he⟩ => IsTrade.isOwnEvent he
  rcases hrest with rfl | hmint
  · exact hfirst
  · exact hfirst.trans
      (mintPowerPlant_trace (htrades.inv hi) ((htrades.extends hi).isUser hsender) hmint)

end PowerPlantProducer
/-- The board after an NFT was listed by its owner. -/
def GameBoard.listed (g : GameBoard) (l : ListNFTForSale) (nft : BaseNFT) : GameBoard :=
  { g with
    nftSales := g.nftSales.insert l.nftId
      { price := l.price
        currency := l.currency
        seller := nft.owner
        transferCount := nft.transferCount } }

private theorem listNft_cases {l : ListNFTForSale} {sales : NFTSaleRegistry}
    (h : g.nftSales.listNft sender l.nftId l.price l.currency g.nfts = .ok sales) :
    sales = g.nftSales ∨ ∃ nft, g.nfts.nfts[l.nftId]? = some nft ∧ nft.owner = sender ∧
      ({ g with nftSales := sales } : GameBoard) = g.listed l nft := by
  simp only [NFTSaleRegistry.listNft, NFTRegistry.index, bind_eq_ok_iff, unwrap_eq_ok_iff,
    pure_eq_ok] at h
  obtain ⟨nft, hnft, h⟩ := h
  by_cases hown : sender = nft.owner
  · rw [if_pos hown] at h
    cases h
    exact .inr ⟨nft, hnft, hown.symm, rfl⟩
  · rw [if_neg hown] at h
    cases h
    exact .inl rfl

/-- The sale of an NFT to a buyer who accepts its terms and can pay. -/
structure GameBoard.CanSell (g : GameBoard) (p : PurchaseNFT) (nft : BaseNFT) (sale : NFTSale)
    (buyer : EntityID) : Prop where
  item : g.nfts.nfts[p.nftId]? = some nft
  listed : g.nftSales[p.nftId]? = some sale
  seller : sale.seller = nft.owner
  count : sale.transferCount = nft.transferCount
  has : g.Has sale.currency
  pays : sale.price ≤ g.balance sale.currency buyer
  currency : sale.currency = p.currency
  limit : sale.price ≤ p.limitPrice

theorem purchase_cases {p : PurchaseNFT} {x : NFTSaleRegistry × TokenRegistry × NFTRegistry}
    (hi : g.Inv)
    (h : g.nftSales.purchase sender p.nftId g.tokens g.nfts p.limitPrice p.currency = .ok x) :
    x = (g.nftSales, g.tokens, g.nfts) ∨
      ∃ nft sale, g.CanSell p nft sale sender ∧
        ({ g with nftSales := x.1, tokens := x.2.1, nfts := x.2.2 } : GameBoard) =
          g.sell p.nftId nft sale sender := by
  unfold NFTSaleRegistry.purchase at h
  cases hsale : g.nftSales[p.nftId]? with
  | none =>
    simp only [hsale] at h
    cases h
    exact .inl rfl
  | some sale =>
    simp only [hsale, NFTRegistry.index, bind_eq_ok_iff, unwrap_eq_ok_iff] at h
    obtain ⟨nft, hnft, h⟩ := h
    by_cases hseller : sale.seller ≠ nft.owner
    · rw [if_pos hseller] at h
      cases h
      exact .inl rfl
    by_cases hcount : sale.transferCount ≠ nft.transferCount
    · rw [if_neg hseller, if_pos hcount] at h
      cases h
      exact .inl rfl
    by_cases hcurrency : p.currency ≠ sale.currency
    · rw [if_neg hseller, if_neg hcount, if_pos hcurrency] at h
      cases h
      exact .inl rfl
    by_cases hlimit : p.limitPrice < sale.price
    · rw [if_neg hseller, if_neg hcount, if_neg hcurrency, if_pos hlimit] at h
      cases h
      exact .inl rfl
    rw [if_neg hseller, if_neg hcount, if_neg hcurrency, if_neg hlimit] at h
    simp only [bind_eq_ok_iff] at h
    obtain ⟨⟨paid, tokens⟩, htransfer, h⟩ := h
    have hp := TokenRegistry.has_of_transfer htransfer
    rw [TokenRegistry.transfer_eq hi.tokens hp] at htransfer
    by_cases hpays : g.tokens.balance sale.currency sender < sale.price
    · rw [if_pos hpays] at htransfer
      cases htransfer
      cases h
      exact .inl rfl
    · rw [if_neg hpays] at htransfer
      cases htransfer
      cases h
      have hsell : g.CanSell p nft sale sender :=
        { item := hnft
          listed := hsale
          seller := not_not.mp hseller
          count := not_not.mp hcount
          has := hp
          pays := Nat.le_of_not_lt hpays
          currency := (not_not.mp hcurrency).symm
          limit := Nat.le_of_not_lt hlimit }
      exact .inr ⟨nft, sale, hsell, rfl⟩

/-- What a shipment needs: a plant of the sender. -/
structure GameBoard.CanShip (g : GameBoard) (r : RemoveTokens) (sender : EntityID) : Prop where
  nft : ∃ nft, g.nfts.nfts[r.nftId]? = some nft ∧ nft.owner = sender
  plant : g.nfts.powerPlants[r.nftId]?.isSome

/-- The shipment of the sender of a plant is a lockup that is free at time one. -/
theorem playRemoveTokens_ships {d : RemoveTokens} (hi : g.Inv) (hship : g.CanShip d sender) :
    g.playRemoveTokens sender d = CoinLockup.lockup g d.nftId sender d.currency d.amount 1 := by
  obtain ⟨nft, hnft, hown⟩ := hship.nft
  obtain ⟨plant, hplant⟩ := Option.isSome_iff_exists.mp hship.plant
  obtain ⟨hid, _⟩ := hi.plants _ _ hplant
  simp only [playRemoveTokens, NFTRegistry.index, hnft, unwrap_some, ok_bind, hown, if_true, hplant,
    PowerPlant.shipHashrate, hid]

theorem playRemoveTokens_cases {d : RemoveTokens} (hi : g.Inv)
    (h : g.playRemoveTokens sender d = .ok g') :
    g' = g ∨ (g.CanShip d sender ∧
      CoinLockup.lockup g d.nftId sender d.currency d.amount 1 = .ok g') := by
  by_cases hship : g.CanShip d sender
  · exact .inr ⟨hship, playRemoveTokens_ships hi hship ▸ h⟩
  · left
    simp only [playRemoveTokens, NFTRegistry.index, bind_eq_ok_iff, unwrap_eq_ok_iff] at h
    obtain ⟨nft, hnft, h⟩ := h
    by_cases hown : nft.owner = sender
    · rw [if_pos hown] at h
      simp only [bind_eq_ok_iff, unwrap_eq_ok_iff] at h
      obtain ⟨plant, hplant, _⟩ := h
      exact absurd ⟨⟨nft, hnft, hown⟩, Option.isSome_iff_exists.mpr ⟨plant, hplant⟩⟩ hship
    · rw [if_neg hown] at h
      cases h
      rfl

private theorem playRemoveTokens_trace {d : RemoveTokens} (hi : g.Inv) (hsender : g.IsUser sender)
    (hU : ¬ U d.nftId) (h : g.playRemoveTokens sender d = .ok g') :
    Trace (IsMoveOf U sender) g g' := by
  rcases playRemoveTokens_cases hi h with rfl | ⟨hship, hlockup⟩
  · exact Run.refl
  · obtain ⟨nft, hnft, _⟩ := hship.nft
    have hplant : g.IsNft d.nftId := Option.isSome_iff_exists.mpr ⟨nft, hnft⟩
    exact CoinLockup.lockup_trace hi (hi.party_of_nft hplant) hsender
      (show IsMoveOf U sender (.newNft _ _) from rfl) (show IsMoveOf U sender (.schedule _) from rfl)
      (show IsMoveOf U sender (.transfer _ _ _ _) from .inr hU) hlockup

theorem notes_trace {P : Event → Prop} (hP : P .note) (h : g' = g.withNotes g') :
    Trace P g g' := by
  rw [h]
  exact Run.single hP (.note g g')

theorem playChat_eq {s : String} (h : g.playChat sender s = .ok g') : g' = g.withNotes g' := by
  simp only [playChat, bind_eq_ok_iff, pure_eq_ok, Except.ok.injEq] at h
  obtain ⟨_, _, rfl⟩ := h
  rfl

theorem addToEventLog_eq {e : LogEvent} (h : g.addToEventLog sender e = .ok g') :
    g' = g.withNotes g' := by
  simp only [addToEventLog, bind_eq_ok_iff, pure_eq_ok, Except.ok.injEq] at h
  obtain ⟨_, _, rfl⟩ := h
  rfl

private theorem playTrade_trace {t : Trade} {r : Except TradeError TradeOutcome} (hi : g.Inv)
    (hsender : g.Party sender) (h : g.playTrade sender t = .ok (r, g')) :
    Trace (ConstantFunctionMarketMaker.IsTrade sender false) g g' := by
  unfold playTrade at h
  split at h
  · exact ConstantFunctionMarketMaker.doSellTrade_trace hi hsender h
  · exact ConstantFunctionMarketMaker.doBuyTrade_trace hi hsender h

/-- A move is a run of events in which its player pays, a message, a listing, the sale of an NFT or a
shipment, provided that coins are not sent to the account of a market or to an id that does not
exist yet. -/
theorem playInner_kinds {d : GameMove} {r : Except MoveRejectReason Unit} (hi : g.Inv)
    (hsender : g.IsUser sender) (hdest : ∀ s, d = .sendTokens s → g.Party s.dest)
    (h : g.playInner d sender = .ok (r, g')) :
    Trace (IsOwnEvent sender) g g' ∨ (∃ s, d = .chat s ∧ g.playChat sender s = .ok g') ∨
      (∃ l nft, d = .listNFTForSale l ∧ g.nfts.nfts[l.nftId]? = some nft ∧ nft.owner = sender ∧
        g' = g.listed l nft) ∨
      (∃ p nft sale, d = .purchaseNFT p ∧ g.CanSell p nft sale sender ∧
        g' = g.sell p.nftId nft sale sender) ∨
      ∃ x, d = .removeTokens x ∧ g.playRemoveTokens sender x = .ok g' := by
  have hparty := hi.party_of_user hsender
  cases d with
  | heartbeat =>
    cases h
    exact .inl Run.refl
  | trade t =>
    simp only [playInner, bind_eq_ok_iff] at h
    obtain ⟨⟨r1, g1⟩, h1, h⟩ := h
    cases h
    exact .inl ((playTrade_trace hi hparty h1).mono fun _ => IsTrade.isOwnEvent)
  | purchaseNFT p =>
    simp only [playInner, bind_eq_ok_iff] at h
    obtain ⟨⟨sales, tokens, nfts⟩, h1, h⟩ := h
    cases h
    rcases purchase_cases hi h1 with heq | ⟨nft, sale, hsell, heq⟩
    · cases heq
      exact .inl Run.refl
    · exact .inr (.inr (.inr (.inl ⟨p, nft, sale, rfl, hsell, heq⟩)))
  | listNFTForSale l =>
    simp only [playInner, bind_eq_ok_iff] at h
    obtain ⟨sales, h1, h⟩ := h
    cases h
    rcases listNft_cases h1 with rfl | ⟨nft, hnft, hown, heq⟩
    · exact .inl Run.refl
    · exact .inr (.inr (.inl ⟨l, nft, rfl, hnft, hown, heq⟩))
  | sendTokens s =>
    simp only [playInner, bind_eq_ok_iff] at h
    obtain ⟨x, h1, h⟩ := h
    cases h
    have htrace : Trace (IsOwnEvent sender) g (g.withTokens x.2) :=
      transfer_trace hi hparty (hdest s rfl) (show IsOwnEvent sender (.transfer _ _ _ _) from rfl) h1
    exact .inl htrace
  | removeTokens d =>
    simp only [playInner, bind_eq_ok_iff] at h
    obtain ⟨g1, h1, h⟩ := h
    cases h
    exact .inr (.inr (.inr (.inr ⟨d, rfl, h1⟩)))
  | chat s =>
    simp only [playInner, bind_eq_ok_iff] at h
    obtain ⟨g1, h1, h⟩ := h
    cases h
    exact .inr (.inl ⟨s, rfl, h1⟩)
  | mintPowerPlant m =>
    simp only [playInner, bind_eq_ok_iff] at h
    obtain ⟨⟨r1, g1⟩, h1, h⟩ := h
    cases h
    exact .inl (PowerPlantProducer.mintPowerPlant_trace hi hsender h1)
  | superMintPowerPlant m =>
    simp only [playInner, bind_eq_ok_iff] at h
    obtain ⟨⟨r1, g1⟩, h1, h⟩ := h
    cases h
    exact .inl (PowerPlantProducer.superMint_trace hi hsender h1)

theorem playInner_cases {d : GameMove} {r : Except MoveRejectReason Unit} (hi : g.Inv)
    (hsender : g.IsUser sender) (husers : ∀ i, U i → g.IsUser i)
    (hdest : ∀ s, d = .sendTokens s → g.Party s.dest) (h : g.playInner d sender = .ok (r, g')) :
    Trace (IsMoveOf U sender) g g' ∨ (∃ s, d = .chat s ∧ g.playChat sender s = .ok g') ∨
      (∃ l nft, d = .listNFTForSale l ∧ g.nfts.nfts[l.nftId]? = some nft ∧ nft.owner = sender ∧
        g' = g.listed l nft) ∨
      ∃ p nft sale, d = .purchaseNFT p ∧ g.CanSell p nft sale sender ∧
        g' = g.sell p.nftId nft sale sender := by
  rcases playInner_kinds hi hsender hdest h with htrace | hchat | hlist | hsold | ⟨x, rfl, hremove⟩
  · exact .inl (htrace.mono fun _ => IsOwnEvent.isMoveOf)
  · exact .inr (.inl hchat)
  · exact .inr (.inr (.inl hlist))
  · exact .inr (.inr (.inr hsold))
  · left
    rcases playRemoveTokens_cases hi hremove with rfl | ⟨hship, _⟩
    · exact Run.refl
    · obtain ⟨nft, hnft, _⟩ := hship.nft
      have hplant : g.IsNft x.nftId := Option.isSome_iff_exists.mpr ⟨nft, hnft⟩
      exact playRemoveTokens_trace hi hsender
        (fun hu => hi.not_isUser_of_isNft hplant (husers _ hu)) hremove

theorem playInner_trace {d : GameMove} {r : Except MoveRejectReason Unit} (hi : g.Inv)
    (hsender : g.IsUser sender) (husers : ∀ i, U i → g.IsUser i)
    (hdest : ∀ s, d = .sendTokens s → g.Party s.dest) (h : g.playInner d sender = .ok (r, g')) :
    Trace (IsPlayerEvent U sender) g g' := by
  rcases playInner_cases hi hsender husers hdest h with htrace | ⟨s, _, hchat⟩ |
    ⟨l, nft, _, hnft, hown, rfl⟩ | ⟨p, nft, sale, _, hsell, rfl⟩
  · exact htrace.mono fun _ => IsMoveOf.isPlayerEvent
  · exact notes_trace trivial (playChat_eq hchat)
  · let sale : NFTSale :=
      { price := l.price
        currency := l.currency
        seller := nft.owner
        transferCount := nft.transferCount }
    exact Run.single (e := .list l.nftId sale) hown (.list g l.nftId nft sale hnft rfl rfl)
  · exact Run.single (e := .sold p.nftId sale sender) rfl
      (.sold g p.nftId nft sale sender hsell.item hsell.listed hsell.seller hsell.count hsell.has
        hsell.pays hsender)

end JudicaVM
