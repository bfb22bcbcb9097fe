import JudicaVM.Board.Event
import Mathlib.Tactic.Abel

/-!
# The invariant of a board

Balances add up to the cached totals, ids are in use once, reserves are what the market accounts
hold, and whatever a pending callback refers to exists. Every event preserves this.
-/

namespace JudicaVM

open Checked Std OrderedMap Transition

namespace TokenRegistry

variable {r : TokenRegistry} {p q : TokenPointer} {sender receiver who : EntityID} {amount : ℕ}

private theorem paid_balance (hp : r.Has p) :
    (r.paid p sender receiver amount).balance q who =
      if p = q then
        r.balance p who - (if sender = who then amount else 0)
          + (if receiver = who then amount else 0)
      else r.balance q who := by
  unfold paid
  by_cases h : amount = 0
  · by_cases hq : p = q <;> simp [h, hq]
  · rw [if_neg h]
    exact moved_balance hp

private theorem paid_sound (hr : r.Sound) (hle : amount ≤ r.balance p sender) :
    (r.paid p sender receiver amount).Sound := by
  unfold paid
  split
  · exact hr
  · exact moved_sound hr hle

@[simp] theorem paid_has : (r.paid p sender receiver amount).Has q ↔ r.Has q := by
  unfold paid
  split
  · exact Iff.rfl
  · exact moved_has

@[simp] theorem paid_total : (r.paid p sender receiver amount).total q = r.total q := by
  unfold paid
  split
  · rfl
  · exact moved_total

@[simp] theorem paid_hashboards :
    (r.paid p sender receiver amount).hashboards = r.hashboards := by
  unfold paid
  split
  · rfl
  · exact moved_hashboards

theorem update_keySet {f : TokenBase → TokenBase} :
    keySet (r.update p f).tokens = keySet r.tokens := by
  unfold update
  split
  · rename_i t ht
    exact keySet_insert_of_some ht (f t)
  · rfl

private theorem paid_keySet : keySet
    (r.paid p sender receiver amount).tokens = keySet r.tokens := by
  unfold paid
  split
  · rfl
  · exact update_keySet

end TokenRegistry

namespace GameBoard

variable {g g' : GameBoard}

theorem mem_entityIds {i : EntityID} :
    i ∈ g.entityIds ↔ g.IsUser i ∨ i = g.rootUser ∨ g.Has i ∨ g.IsNft i ∨
      ∃ (pair : TradingPairID) (m : _), g.markets[pair]? = some m ∧ m.id = i := by
  have hsome {α : Type} {o : Option α} : (∃ v, o = some v) ↔ o.isSome :=
    Option.isSome_iff_exists.symm
  have hmarkets : i ∈ (entries g.markets).map (·.2.id) ↔
      ∃ (pair : TradingPairID) (m : _), g.markets[pair]? = some m ∧ m.id = i := by
    simp [Multiset.mem_map]
  simp only [entityIds, Multiset.mem_add, mem_keySet, Multiset.mem_singleton, hmarkets, hsome,
    IsUser, Has, TokenRegistry.Has, IsNft, or_assoc]

variable {pair : TradingPairID} {m : ConstantFunctionMarketMakerPair} {tokens : TokenRegistry}

private theorem entityIds_openMarket (shares : String) (hnone : g.markets[pair]? = none)
    (hfresh : g.alloc + 1 ∉ g.entityIds) :
    (g.openMarket pair shares).entityIds = {g.alloc + 1} + {g.alloc + 2} + g.entityIds := by
  have htoken : g.tokens.tokens[g.alloc + 1]? = none := by
    rw [mem_entityIds] at hfresh
    simpa [Has, TokenRegistry.Has] using fun h => hfresh (.inr (.inr (.inl h)))
  have hkeys : keySet (g.openMarket pair shares).tokens.tokens =
      (g.alloc + 1) ::ₘ keySet g.tokens.tokens := keySet_insert_of_none htoken _
  have hmarkets : (entries (g.openMarket pair shares).markets).map (·.2.id) =
      (g.alloc + 2) ::ₘ (entries g.markets).map (·.2.id) := by
    simp [openMarket, entries_insert_of_none hnone]
  simp only [entityIds, hkeys, hmarkets, ← Multiset.singleton_add]
  simp only [openMarket]
  abel

section swapped

variable {selling buying : TokenPointer} {sellAmt buyAmt : ℕ} {trader : EntityID}
  {q : TokenPointer}

private theorem swapped_has : (g.swapped m selling buying sellAmt buyAmt trader).Has q ↔ g.Has q :=
  TokenRegistry.paid_has.trans TokenRegistry.moved_has

theorem swapped_total :
    (g.swapped m selling buying sellAmt buyAmt trader).total q = g.total q :=
  TokenRegistry.paid_total.trans TokenRegistry.moved_total

private theorem swapped_hashboards :
    (g.swapped m selling buying sellAmt buyAmt trader).hashboards = g.tokens.hashboards :=
  TokenRegistry.paid_hashboards.trans TokenRegistry.moved_hashboards

private theorem swapped_keySet :
    keySet (g.swapped m selling buying sellAmt buyAmt trader).tokens = keySet g.tokens.tokens :=
  TokenRegistry.paid_keySet.trans TokenRegistry.update_keySet

variable {amountA amountB toMint : ℕ} {depositor : EntityID}

private theorem deposited_has :
    (g.deposited m amountA amountB toMint depositor).Has q ↔ g.Has q := by
  simp only [deposited, TokenRegistry.minted_has, TokenRegistry.moved_has, Has]

private theorem deposited_hashboards :
    (g.deposited m amountA amountB toMint depositor).hashboards = g.tokens.hashboards := by
  simp only [deposited, TokenRegistry.minted_hashboards, TokenRegistry.moved_hashboards]

private theorem deposited_keySet :
    keySet (g.deposited m amountA amountB toMint depositor).tokens = keySet g.tokens.tokens := by
  simp only [deposited, TokenRegistry.moved, TokenRegistry.minted, TokenRegistry.update_keySet]

end swapped

private theorem entityIds_withTokens (h : keySet tokens.tokens = keySet g.tokens.tokens) :
    (g.withTokens tokens).entityIds = g.entityIds := by
  simp [entityIds, withTokens, h]

private theorem entityIds_withReserves (hm : g.markets[m.pair]? = some m)
    (h : keySet tokens.tokens = keySet g.tokens.tokens) :
    (g.withReserves m tokens).entityIds = g.entityIds := by
  have hc := congrArg (Multiset.map (·.2.id)) (cons_entries_insert_of_some hm
    { m with
      reserveA := tokens.balance m.pair.assetA m.id
      reserveB := tokens.balance m.pair.assetB m.id })
  simp only [Multiset.map_cons, Multiset.cons_inj_right] at hc
  simp [entityIds, withReserves, h, hc]

private theorem entityIds_addNft {nft : BaseNFT} (plant : Option PowerPlant)
    (hid : nft.nftId = g.alloc + 1)
    (hfresh : g.alloc + 1 ∉ g.entityIds) :
    (g.addNft nft plant).entityIds = {g.alloc + 1} + g.entityIds := by
  have hnone : g.nfts.nfts[nft.nftId]? = none := by
    rw [mem_entityIds, ← hid] at hfresh
    simpa [IsNft] using fun h => hfresh (.inr (.inr (.inr (.inl h))))
  have hkeys : keySet (g.addNft nft plant).nfts.nfts = nft.nftId ::ₘ keySet g.nfts.nfts :=
    keySet_insert_of_none hnone _
  simp only [entityIds, hkeys, hid, ← Multiset.singleton_add]
  simp only [addNft]
  abel

private theorem entityIds_addUser (player : String) (hfresh : g.alloc + 1 ∉ g.entityIds) :
    (g.addUser player).entityIds = {g.alloc + 1} + g.entityIds := by
  have hnone : g.users[g.alloc + 1]? = none := by
    rw [mem_entityIds] at hfresh
    simpa [IsUser] using fun h => hfresh (.inl h)
  have hkeys : keySet (g.addUser player).users = (g.alloc + 1) ::ₘ keySet g.users :=
    keySet_insert_of_none hnone _
  simp only [entityIds, hkeys, ← Multiset.singleton_add]
  simp only [addUser]
  abel

private theorem entityIds_sell {asset : NftPtr} {nft : BaseNFT} {sale : NFTSale} {buyer : EntityID}
    (hnft : g.nfts.nfts[asset]? = some nft) :
    (g.sell asset nft sale buyer).entityIds = g.entityIds := by
  simp [entityIds, sell, keySet_insert_of_some hnft, TokenRegistry.moved,
    TokenRegistry.update_keySet]

/-- A market is filed under its pair, its reserves are its holdings, and it is funded on both
sides or on neither. -/
structure MarketSound (g : GameBoard) (pair : TradingPairID)
    (m : ConstantFunctionMarketMakerPair) : Prop where
  pair_eq : m.pair = pair
  normal : pair.isNormal
  hasA : g.Has pair.assetA
  hasB : g.Has pair.assetB
  hasShares : g.Has m.lp
  reserveA_eq : m.reserveA = g.balance pair.assetA m.id
  reserveB_eq : m.reserveB = g.balance pair.assetB m.id
  both : m.reserveA = 0 ↔ m.reserveB = 0
  distinct : 0 < m.reserveA → pair.assetA ≠ pair.assetB

/-- A callback is pending at some time. -/
def Pending (g : GameBoard) (cb : Callback) : Prop :=
  ∃ (time : ℕ) (l : List Callback), g.callbacks[time]? = some l ∧ cb ∈ l

structure Inv (g : GameBoard) : Prop where
  tokens : g.tokens.Sound
  holders : ∀ p i, 0 < g.balance p i → i ≤ g.alloc
  ids_nodup : g.entityIds.Nodup
  ids_le : ∀ i ∈ g.entityIds, i ≤ g.alloc
  markets : ∀ (pair : TradingPairID) m, g.markets[pair]? = some m → g.MarketSound pair m
  nfts : ∀ (i : NftPtr) n, g.nfts.nfts[i]? = some n → n.nftId = i ∧ g.IsUser n.owner
  plants : ∀ (i : NftPtr) p, g.nfts.powerPlants[i]? = some p → p.id = i ∧ g.IsNft i
  keys : ∀ (k : String) i, g.usersByKey[k]? = some i → g.users[i]? = some { key := k }
  callbacks : ∀ cb, g.Pending cb → g.CallbackSound cb
  bitcoin : g.Has g.bitcoinTokenId
  bills : ∀ kind bill, g.plantPrices kind = some bill → ∀ x ∈ bill, g.Has x.1
  boards : ∀ (p : TokenPointer) d, g.tokens.hashboards[p]? = some d → g.Has p

/-- What is fixed when the board is built. -/
structure Constants where
  bitcoinTokenId : TokenPointer
  realSatsTokenId : TokenPointer
  steelTokenId : TokenPointer
  siliconTokenId : TokenPointer
  concreteTokenId : TokenPointer
  asicTokenId : TokenPointer
  rootUser : EntityID
  finishTime : ℕ
  miningSubsidy : ℕ
  plantPrices : PlantType → Option (List (Currency × ℕ))
  hashboards : ExtTreeMap TokenPointer HashBoardData

def constants (g : GameBoard) : Constants :=
  { bitcoinTokenId := g.bitcoinTokenId
    realSatsTokenId := g.realSatsTokenId
    steelTokenId := g.steelTokenId
    siliconTokenId := g.siliconTokenId
    concreteTokenId := g.concreteTokenId
    asicTokenId := g.asicTokenId
    rootUser := g.rootUser
    finishTime := g.finishTime
    miningSubsidy := g.miningSubsidy
    plantPrices := g.plantPrices
    hashboards := g.tokens.hashboards }

structure Extends (g g' : GameBoard) : Prop where
  alloc_le : g.alloc ≤ g'.alloc
  users : ∀ (i : EntityID) u, g.users[i]? = some u → g'.users[i]? = some u
  has : ∀ p, g.Has p → g'.Has p
  nfts : ∀ i, g.IsNft i → g'.IsNft i
  markets : ∀ (pair : TradingPairID) m, g.markets[pair]? = some m →
    ∃ m', g'.markets[pair]? = some m' ∧ m'.id = m.id ∧ m'.lp = m.lp
  newMarkets : ∀ (pair : TradingPairID) m', g'.markets[pair]? = some m' →
    (∃ m, g.markets[pair]? = some m ∧ m'.id = m.id) ∨ g.alloc < m'.id
  newIds : ∀ i ∈ g'.entityIds, i ∈ g.entityIds ∨ g.alloc < i
  constants_eq : g'.constants = g.constants

theorem Extends.refl (g : GameBoard) : g.Extends g where
  alloc_le := le_rfl
  users _ _ h := h
  has _ h := h
  nfts _ h := h
  markets _ m h := ⟨m, h, rfl, rfl⟩
  newMarkets _ m h := .inl ⟨m, h, rfl⟩
  newIds _ h := .inl h
  constants_eq := rfl

theorem Extends.trans {g'' : GameBoard} (h : g.Extends g') (h' : g'.Extends g'') :
    g.Extends g'' where
  alloc_le := h.alloc_le.trans h'.alloc_le
  users i u hu := h'.users i u (h.users i u hu)
  has p hp := h'.has p (h.has p hp)
  nfts i hi := h'.nfts i (h.nfts i hi)
  markets pair m hm := by
    obtain ⟨m', hm', hid, hlp⟩ := h.markets pair m hm
    obtain ⟨m'', hm'', hid', hlp'⟩ := h'.markets pair m' hm'
    exact ⟨m'', hm'', hid'.trans hid, hlp'.trans hlp⟩
  newMarkets pair m'' hm'' := by
    rcases h'.newMarkets pair m'' hm'' with ⟨m', hm', hid'⟩ | hlt
    · rcases h.newMarkets pair m' hm' with ⟨m, hm, hid⟩ | hlt
      · exact .inl ⟨m, hm, hid'.trans hid⟩
      · exact .inr (hid' ▸ hlt)
    · exact .inr (h.alloc_le.trans_lt hlt)
  newIds i hi := by
    rcases h'.newIds i hi with h1 | h1
    · exact h.newIds i h1
    · exact .inr (h.alloc_le.trans_lt h1)
  constants_eq := h'.constants_eq.trans h.constants_eq

theorem Extends.bitcoin_eq (h : g.Extends g') : g'.bitcoinTokenId = g.bitcoinTokenId :=
  congrArg Constants.bitcoinTokenId h.constants_eq

theorem Extends.prices_eq (h : g.Extends g') : g'.plantPrices = g.plantPrices :=
  congrArg Constants.plantPrices h.constants_eq

theorem Extends.boards_eq (h : g.Extends g') : g'.tokens.hashboards = g.tokens.hashboards :=
  congrArg Constants.hashboards h.constants_eq

theorem Extends.isUser {i : EntityID} (h : g.Extends g') (hi : g.IsUser i) : g'.IsUser i := by
  obtain ⟨u, hu⟩ := Option.isSome_iff_exists.mp hi
  exact Option.isSome_iff_exists.mpr ⟨u, h.users i u hu⟩

theorem Extends.party {i : EntityID} (h : g.Extends g') (hi : g.Party i) : g'.Party i where
  le_alloc := hi.le_alloc.trans h.alloc_le
  not_market pair m' hm' heq := by
    rcases h.newMarkets pair m' hm' with ⟨m, hm, hid⟩ | hlt
    · exact hi.not_market pair m hm (hid ▸ heq)
    · exact absurd hi.le_alloc (Nat.not_le_of_lt (heq ▸ hlt))

theorem Extends.producerSound {p : Producer} (h : g.Extends g') (hp : g.ProducerSound p) :
    g'.ProducerSound p where
  le_alloc := hp.le_alloc.trans h.alloc_le
  own_id hmem := by
    rcases h.newIds _ hmem with hold | hlt
    · exact hp.own_id hold
    · exact absurd hp.le_alloc (Nat.not_le_of_lt hlt)
  hasHash := h.has _ hp.hasHash
  hasPrice := h.has _ hp.hasPrice
  distinct := hp.distinct

theorem Extends.callbackSound {cb : Callback} (h : g.Extends g') (hcb : g.CallbackSound cb) :
    g'.CallbackSound cb where
  producer p hp := h.producerSound (hcb.producer p hp)
  lockup l hl := ⟨h.nfts _ (hcb.lockup l hl).1, h.has _ (hcb.lockup l hl).2⟩

private theorem extends_withTokens (hkeys : keySet tokens.tokens = keySet g.tokens.tokens)
    (hhas : ∀ p, tokens.Has p ↔ g.Has p) (hboards : tokens.hashboards = g.tokens.hashboards) :
    g.Extends (g.withTokens tokens) where
  alloc_le := le_rfl
  users _ _ h := h
  has p h := (hhas p).mpr h
  nfts _ h := h
  markets _ m h := ⟨m, h, rfl, rfl⟩
  newMarkets _ m h := .inl ⟨m, h, rfl⟩
  newIds _ hi := .inl (entityIds_withTokens hkeys ▸ hi)
  constants_eq := by simp only [constants, withTokens, hboards]

private theorem extends_withReserves (hm : g.markets[m.pair]? = some m)
    (hkeys : keySet tokens.tokens = keySet g.tokens.tokens)
    (hhas : ∀ p, tokens.Has p ↔ g.Has p) (hboards : tokens.hashboards = g.tokens.hashboards) :
    g.Extends (g.withReserves m tokens) where
  alloc_le := le_rfl
  users _ _ h := h
  has p h := (hhas p).mpr h
  nfts _ h := h
  markets pair m' h := by
    simp only [withReserves, OrderedMap.getElem?_insert]
    by_cases hp : m.pair = pair
    · subst hp
      have heq : m' = m := Option.some.inj (h.symm.trans hm)
      exact ⟨_, if_pos rfl, heq ▸ rfl, heq ▸ rfl⟩
    · exact ⟨m', (if_neg hp).trans h, rfl, rfl⟩
  newMarkets pair m' h := by
    simp only [withReserves, OrderedMap.getElem?_insert] at h
    by_cases hp : m.pair = pair
    · subst hp
      rw [if_pos rfl, Option.some.injEq] at h
      exact .inl ⟨m, hm, h ▸ rfl⟩
    · exact .inl ⟨m', (if_neg hp).symm.trans h, rfl⟩
  newIds i hi := .inl (entityIds_withReserves hm hkeys ▸ hi)
  constants_eq := by simp only [constants, withReserves, hboards]

theorem Inv.not_mem_entityIds {i : EntityID} (hi : g.Inv) (hlt : g.alloc < i) :
    i ∉ g.entityIds :=
  fun hmem => Nat.not_le_of_lt hlt (hi.ids_le i hmem)

theorem Inv.not_has {p : TokenPointer} (hi : g.Inv) (hlt : g.alloc < p) : ¬ g.Has p :=
  fun hp => hi.not_mem_entityIds hlt (mem_entityIds.mpr (.inr (.inr (.inl hp))))

theorem Inv.not_isUser {i : EntityID} (hi : g.Inv) (hlt : g.alloc < i) : ¬ g.IsUser i :=
  fun hu => hi.not_mem_entityIds hlt (mem_entityIds.mpr (.inl hu))

theorem Inv.not_isNft {i : NftPtr} (hi : g.Inv) (hlt : g.alloc < i) : ¬ g.IsNft i :=
  fun hn => hi.not_mem_entityIds hlt (mem_entityIds.mpr (.inr (.inr (.inr (.inl hn)))))

theorem Inv.balance_eq_zero {p : TokenPointer} {i : EntityID} (hi : g.Inv) (hlt : g.alloc < i) :
    g.balance p i = 0 :=
  Nat.eq_zero_of_not_pos fun hpos => Nat.not_le_of_lt hlt (hi.holders p i hpos)

theorem Inv.market_eq {pair pair' : TradingPairID} {m m' : ConstantFunctionMarketMakerPair}
    (hi : g.Inv) (hm : g.markets[pair]? = some m) (hm' : g.markets[pair']? = some m')
    (hid : m.id = m'.id) : pair = pair' := by
  have hnd : ((entries g.markets).map (·.2.id)).Nodup :=
    Multiset.nodup_of_le (Multiset.le_add_left _ _) hi.ids_nodup
  have heq := Multiset.inj_on_of_nodup_map hnd (pair, m) (mem_entries.mpr hm)
    (pair', m') (mem_entries.mpr hm') hid
  exact congrArg Prod.fst heq

end GameBoard

open GameBoard

variable {g g' : GameBoard} {e : Event}

theorem Occurs.extends (h : Occurs g e g') (hi : g.Inv) : g.Extends g' := by
  have hfresh := hi.not_mem_entityIds (Nat.lt_succ_self g.alloc)
  cases h with
  | openMarket pair shares hnone hnormal hA hB hroom =>
    exact
      { alloc_le := Nat.le_add_right _ _
        users := fun _ _ h => h
        has := fun p hp => by
          simp only [Has, TokenRegistry.Has, GameBoard.openMarket,
            TokenRegistry.newToken_getElem?] at hp ⊢
          split <;> simp_all
        nfts := fun _ h => h
        markets := fun pair' m h => by
          have hne : pair ≠ pair' := by
            rintro rfl
            simp [h] at hnone
          exact ⟨m, by simp [GameBoard.openMarket, OrderedMap.getElem?_insert, hne, h], rfl, rfl⟩
        newMarkets := fun pair' m h => by
          simp only [GameBoard.openMarket, OrderedMap.getElem?_insert] at h
          by_cases hp : pair = pair'
          · rw [if_pos hp, Option.some.injEq] at h
            exact .inr (h ▸ Nat.lt_add_of_pos_right (by decide))
          · exact .inl ⟨m, (if_neg hp).symm.trans h, rfl⟩
        newIds := fun i hmem => by
          rw [entityIds_openMarket _ hnone hfresh] at hmem
          simp only [Multiset.mem_add, Multiset.mem_singleton] at hmem
          rcases hmem with (rfl | rfl) | hmem
          · exact .inr (Nat.lt_succ_self _)
          · exact .inr (Nat.lt_add_of_pos_right (by decide))
          · exact .inl hmem
        constants_eq := rfl }
  | transfer p sender receiver amount hp hpays hsender hreceiver =>
    exact extends_withTokens TokenRegistry.update_keySet (fun _ => TokenRegistry.moved_has)
      TokenRegistry.moved_hashboards
  | mint p dest amount hp hfits hdest =>
    exact extends_withTokens TokenRegistry.update_keySet (fun _ => TokenRegistry.minted_has)
      TokenRegistry.minted_hashboards
  | swap m selling buying sellAmt buyAmt trader h =>
    exact extends_withReserves h.market swapped_keySet (fun _ => swapped_has) swapped_hashboards
  | deposit m amountA amountB toMint depositor h =>
    exact extends_withReserves h.market deposited_keySet (fun _ => deposited_has)
      deposited_hashboards
  | newNft nft plant hroom hid howner hplant =>
    exact
      { Extends.refl g with
        alloc_le := Nat.le_succ _
        nfts := fun i h => by
          simp only [IsNft, addNft, OrderedMap.getElem?_insert] at h ⊢
          split <;> simp_all
        newIds := fun i hmem => by
          rw [entityIds_addNft _ hid hfresh] at hmem
          simp only [Multiset.mem_add, Multiset.mem_singleton] at hmem
          rcases hmem with rfl | hmem
          · exact .inr (Nat.lt_succ_self _)
          · exact .inl hmem }
  | list asset nft sale hnft hseller hcount => exact { Extends.refl g with }
  | sold asset nft sale buyer hnft hsale hseller hcount hp hpays hbuyer =>
    exact
      { Extends.refl g with
        has := fun p h => TokenRegistry.moved_has.mpr h
        nfts := fun i h => by
          simp only [IsNft, sell, OrderedMap.getElem?_insert] at h ⊢
          split <;> simp_all
        newIds := fun i hmem => .inl (entityIds_sell hnft ▸ hmem)
        constants_eq := by simp [constants, sell] }
  | schedule cb h => exact { Extends.refl g with }
  | dequeue bound => exact { Extends.refl g with }
  | addUser player hroom =>
    exact
      { Extends.refl g with
        alloc_le := Nat.le_succ _
        users := fun i u h => by
          have hne : g.alloc + 1 ≠ i := by
            rintro rfl
            exact hi.not_isUser (Nat.lt_succ_self _) (by simp [IsUser, h])
          simp only [GameBoard.addUser, OrderedMap.getElem?_insert, if_neg hne, h]
        newIds := fun i hmem => by
          rw [entityIds_addUser _ hfresh] at hmem
          simp only [Multiset.mem_add, Multiset.mem_singleton] at hmem
          rcases hmem with rfl | hmem
          · exact .inr (Nat.lt_succ_self _)
          · exact .inl hmem }
  | drawId hroom => exact { Extends.refl g with alloc_le := Nat.le_succ _ }
  | note n => exact { Extends.refl g with }

namespace GameBoard

variable {pair : TradingPairID} {m : ConstantFunctionMarketMakerPair} {tokens : TokenRegistry}

private theorem MarketSound.mono (h : g.MarketSound pair m) (hext : g.Extends g')
    (hbal : ∀ p, g'.balance p m.id = g.balance p m.id) : g'.MarketSound pair m where
  pair_eq := h.pair_eq
  normal := h.normal
  hasA := hext.has _ h.hasA
  hasB := hext.has _ h.hasB
  hasShares := hext.has _ h.hasShares
  reserveA_eq := h.reserveA_eq.trans (hbal _).symm
  reserveB_eq := h.reserveB_eq.trans (hbal _).symm
  both := h.both
  distinct := h.distinct

/-- What the invariant says about plants, prices and callbacks is preserved by every extension
that does not touch them. -/
theorem Inv.of_extends (hi : g.Inv) (hext : g.Extends g') (htokens : g'.tokens.Sound)
    (hholders : ∀ p i, 0 < g'.balance p i → i ≤ g'.alloc) (hnodup : g'.entityIds.Nodup)
    (hle : ∀ i ∈ g'.entityIds, i ≤ g'.alloc)
    (hmarkets : ∀ (pair : TradingPairID) m, g'.markets[pair]? = some m → g'.MarketSound pair m)
    (hnfts : ∀ (i : NftPtr) n, g'.nfts.nfts[i]? = some n → n.nftId = i ∧ g'.IsUser n.owner)
    (hplants : ∀ (i : NftPtr) p, g'.nfts.powerPlants[i]? = some p → p.id = i ∧ g'.IsNft i)
    (hkeys : ∀ (k : String) i, g'.usersByKey[k]? = some i → g'.users[i]? = some { key := k })
    (hcallbacks : ∀ cb, g'.Pending cb → g.Pending cb ∨ g'.CallbackSound cb) : g'.Inv where
  tokens := htokens
  holders := hholders
  ids_nodup := hnodup
  ids_le := hle
  markets := hmarkets
  nfts := hnfts
  plants := hplants
  keys := hkeys
  callbacks cb hcb := by
    rcases hcallbacks cb hcb with hold | hnew
    · exact hext.callbackSound (hi.callbacks cb hold)
    · exact hnew
  bitcoin := hext.bitcoin_eq ▸ hext.has _ hi.bitcoin
  bills kind bill hbill x hx :=
    hext.has _ (hi.bills kind bill (hext.prices_eq ▸ hbill) x hx)
  boards p d hd := hext.has _ (hi.boards p d (hext.boards_eq ▸ hd))

private theorem Inv.of_same (hi : g.Inv) (hext : g.Extends g') (htokens : g'.tokens = g.tokens)
    (hmarkets : g'.markets = g.markets) (hnfts : g'.nfts = g.nfts) (husers : g'.users = g.users)
    (hkeys : g'.usersByKey = g.usersByKey) (hroot : g'.rootUser = g.rootUser)
    (hcallbacks : ∀ cb, g'.Pending cb → g.Pending cb ∨ g'.CallbackSound cb) : g'.Inv := by
  have hids : g'.entityIds = g.entityIds := by
    simp only [entityIds, htokens, hmarkets, hnfts, husers, hroot]
  have hbal (p : TokenPointer) (i : EntityID) : g'.balance p i = g.balance p i := by
    simp only [balance, htokens]
  refine hi.of_extends hext (htokens ▸ hi.tokens) ?_ (hids ▸ hi.ids_nodup) ?_ ?_ ?_ ?_ ?_
    hcallbacks
  · exact fun p i h => (hi.holders p i (hbal p i ▸ h)).trans hext.alloc_le
  · exact fun i h => (hi.ids_le i (hids ▸ h)).trans hext.alloc_le
  · exact fun pair m hm => (hi.markets pair m (hmarkets ▸ hm)).mono hext fun p => hbal p _
  · exact fun i n hn => (hi.nfts i n (hnfts ▸ hn)).imp_right hext.isUser
  · exact fun i p hp => (hi.plants i p (hnfts ▸ hp)).imp_right (hext.nfts i)
  · exact fun k i hk => husers ▸ hi.keys k i (hkeys ▸ hk)

theorem Inv.withTokens (hi : g.Inv) (hsound : tokens.Sound)
    (hkeys : keySet tokens.tokens = keySet g.tokens.tokens)
    (hhas : ∀ p, tokens.Has p ↔ g.Has p) (hboards : tokens.hashboards = g.tokens.hashboards)
    (hholders : ∀ p i, 0 < tokens.balance p i → i ≤ g.alloc)
    (hmarkets : ∀ (pair : TradingPairID) m, g.markets[pair]? = some m →
      ∀ p, tokens.balance p m.id = g.balance p m.id) : (g.withTokens tokens).Inv := by
  have hext := extends_withTokens hkeys hhas hboards
  refine hi.of_extends hext hsound hholders ?_ ?_ ?_ hi.nfts hi.plants hi.keys
    (fun _ => Or.inl)
  · exact (entityIds_withTokens hkeys).symm ▸ hi.ids_nodup
  · exact (entityIds_withTokens hkeys).symm ▸ hi.ids_le
  · exact fun pair m hm => (hi.markets pair m hm).mono hext (hmarkets pair m hm)

private theorem Inv.withReserves (hi : g.Inv) (hm : g.markets[m.pair]? = some m)
    (hsound : tokens.Sound)
    (hkeys : keySet tokens.tokens = keySet g.tokens.tokens)
    (hhas : ∀ p, tokens.Has p ↔ g.Has p) (hboards : tokens.hashboards = g.tokens.hashboards)
    (hholders : ∀ p i, 0 < tokens.balance p i → i ≤ g.alloc)
    (hmarkets : ∀ (pair : TradingPairID) m', g.markets[pair]? = some m' → m'.id ≠ m.id →
      ∀ p, tokens.balance p m'.id = g.balance p m'.id)
    (hdistinct : m.pair.assetA ≠ m.pair.assetB)
    (hboth : tokens.balance m.pair.assetA m.id = 0 ↔ tokens.balance m.pair.assetB m.id = 0) :
    (g.withReserves m tokens).Inv := by
  have hext := extends_withReserves hm hkeys hhas hboards
  have hms := hi.markets m.pair m hm
  refine hi.of_extends hext hsound hholders ?_ ?_ ?_ hi.nfts hi.plants hi.keys
    (fun _ => Or.inl)
  · exact (entityIds_withReserves hm hkeys).symm ▸ hi.ids_nodup
  · exact (entityIds_withReserves hm hkeys).symm ▸ hi.ids_le
  · intro pair m' hm'
    simp only [GameBoard.withReserves, OrderedMap.getElem?_insert] at hm'
    by_cases hp : m.pair = pair
    · rw [if_pos hp, Option.some.injEq] at hm'
      subst hp hm'
      exact
        { pair_eq := rfl
          normal := hms.normal
          hasA := hext.has _ hms.hasA
          hasB := hext.has _ hms.hasB
          hasShares := hext.has _ hms.hasShares
          reserveA_eq := rfl
          reserveB_eq := rfl
          both := hboth
          distinct := fun _ => hdistinct }
    · rw [if_neg hp] at hm'
      have hne : m'.id ≠ m.id := fun hid => hp (hi.market_eq hm hm' hid.symm)
      exact (hi.markets pair m' hm').mono hext (hmarkets pair m' hm' hne)

private theorem Inv.setNft {asset : NftPtr} {nft nft' : BaseNFT} {sales : NFTSaleRegistry}
    (hi : g.Inv)
    (hnft : g.nfts.nfts[asset]? = some nft) (hid : nft'.nftId = nft.nftId)
    (howner : g.IsUser nft'.owner) :
    { g with
      nftSales := sales
      nfts := { g.nfts with nfts := g.nfts.nfts.insert asset nft' } : GameBoard }.Inv := by
  have hnfts (i : NftPtr) (h : g.IsNft i) : (g.nfts.nfts.insert asset nft')[i]?.isSome := by
    simp only [IsNft, OrderedMap.getElem?_insert] at h ⊢
    split <;> simp_all
  have hids : { g with
      nftSales := sales
      nfts := { g.nfts with nfts := g.nfts.nfts.insert asset nft' } : GameBoard }.entityIds =
      g.entityIds := by
    simp [entityIds, keySet_insert_of_some hnft]
  refine hi.of_extends { Extends.refl g with nfts := hnfts, newIds := fun i h => .inl (hids ▸ h) }
    hi.tokens hi.holders ?_ ?_ ?_ ?_ ?_ hi.keys (fun _ => Or.inl)
  · exact hids.symm ▸ hi.ids_nodup
  · exact hids.symm ▸ hi.ids_le
  · exact fun pair m hm => { hi.markets pair m hm with }
  · intro i n hn
    simp only [OrderedMap.getElem?_insert] at hn
    by_cases hi' : asset = i
    · rw [if_pos hi', Option.some.injEq] at hn
      subst hi' hn
      exact ⟨hid.trans (hi.nfts asset nft hnft).1, howner⟩
    · exact hi.nfts i n ((if_neg hi').symm.trans hn)
  · exact fun i p hp => ⟨(hi.plants i p hp).1, hnfts i (hi.plants i p hp).2⟩

private theorem Inv.ids_nodup_cons {i : EntityID} {s : Multiset EntityID} (hs : s.Nodup)
    (hi : i ∉ s) :
    ({i} + s : Multiset EntityID).Nodup := by
  rw [Multiset.singleton_add]
  exact Multiset.nodup_cons.mpr ⟨hi, hs⟩

theorem openMarket_balance {shares : String} {p : TokenPointer} {i : EntityID} (hi : g.Inv) :
    (g.openMarket pair shares).balance p i = g.balance p i := by
  simp only [balance, TokenRegistry.balance, openMarket, TokenRegistry.newToken_getElem?,
    TokenBase.empty]
  by_cases hp : g.alloc + 1 = p
  · have hnone : g.tokens.tokens[p]? = none := by
      simpa [Has, TokenRegistry.Has] using hi.not_has (hp ▸ Nat.lt_succ_self g.alloc)
    simp [hp, hnone, TokenBase.balanceCheck]
  · simp [hp]

private theorem Inv.openMarket {shares : String} (hi : g.Inv) (hnone : g.markets[pair]? = none)
    (hnormal : pair.isNormal) (hA : g.Has pair.assetA) (hB : g.Has pair.assetB)
    (hext : g.Extends (g.openMarket pair shares)) : (g.openMarket pair shares).Inv := by
  have hfresh := hi.not_mem_entityIds (Nat.lt_succ_self g.alloc)
  have hids := entityIds_openMarket shares hnone hfresh
  have hshares : (g.openMarket pair shares).Has (g.alloc + 1) := by
    simp [Has, TokenRegistry.Has, GameBoard.openMarket, TokenRegistry.newToken_getElem?,
      TokenBase.empty]
  refine hi.of_extends hext (TokenRegistry.newToken_sound hi.tokens (TokenBase.empty_sound _ _) rfl)
    ?_ ?_ ?_ ?_ hi.nfts hi.plants hi.keys (fun _ => Or.inl)
  · intro p i hpos
    rw [openMarket_balance hi] at hpos
    exact (hi.holders p i hpos).trans hext.alloc_le
  · have hfresh' := hi.not_mem_entityIds (Nat.lt_add_of_pos_right (n := g.alloc) (k := 2) (by decide))
    rw [hids, add_assoc]
    refine ids_nodup_cons (ids_nodup_cons hi.ids_nodup hfresh') ?_
    simpa [Multiset.mem_add] using hfresh
  · intro i hmem
    rw [hids] at hmem
    simp only [Multiset.mem_add, Multiset.mem_singleton] at hmem
    rcases hmem with (rfl | rfl) | hmem
    · exact Nat.le_succ _
    · exact le_rfl
    · exact (hi.ids_le i hmem).trans hext.alloc_le
  · intro pair' m hm
    simp only [GameBoard.openMarket, OrderedMap.getElem?_insert] at hm
    by_cases hp : pair = pair'
    · rw [if_pos hp, Option.some.injEq] at hm
      subst hp hm
      have hzero (p : TokenPointer) : (g.openMarket pair shares).balance p (g.alloc + 2) = 0 := by
        rw [openMarket_balance hi]
        exact hi.balance_eq_zero (Nat.lt_add_of_pos_right (by decide))
      exact
        { pair_eq := rfl
          normal := hnormal
          hasA := hext.has _ hA
          hasB := hext.has _ hB
          hasShares := hshares
          reserveA_eq := (hzero _).symm
          reserveB_eq := (hzero _).symm
          both := Iff.rfl
          distinct := fun h => absurd h (Nat.lt_irrefl 0) }
    · rw [if_neg hp] at hm
      exact (hi.markets pair' m hm).mono hext fun p => openMarket_balance hi

private theorem Inv.transfer {p : TokenPointer} {sender receiver : EntityID} {amount : ℕ}
    (hi : g.Inv)
    (hp : g.Has p) (hpays : amount ≤ g.balance p sender) (hsender : g.Party sender)
    (hreceiver : g.Party receiver) :
    (g.withTokens (g.tokens.moved p sender receiver amount)).Inv := by
  refine hi.withTokens (TokenRegistry.moved_sound hi.tokens hpays) TokenRegistry.update_keySet
    (fun _ => TokenRegistry.moved_has) TokenRegistry.moved_hashboards ?_ ?_
  · intro q i hpos
    rw [TokenRegistry.moved_balance hp] at hpos
    by_cases hr : receiver = i
    · exact hr ▸ hreceiver.le_alloc
    · refine hi.holders q i (hpos.trans_le ?_)
      simp only [if_neg hr, Nat.add_zero, balance]
      split
      · rename_i hq
        exact hq ▸ Nat.sub_le _ _
      · exact le_rfl
  · intro pair m hm q
    have hs : sender ≠ m.id := fun h => hsender.not_market pair m hm h.symm
    have hr : receiver ≠ m.id := fun h => hreceiver.not_market pair m hm h.symm
    rw [TokenRegistry.moved_balance hp, if_neg hs, if_neg hr]
    split
    · rename_i hq
      simp [balance, hq]
    · rfl

private theorem Inv.mint {p : TokenPointer} {dest : EntityID} {amount : ℕ} (hi : g.Inv)
    (hp : g.Has p)
    (hfits : g.total p + amount < 2 ^ 128) (hdest : g.Party dest) :
    (g.withTokens (g.tokens.minted p dest amount)).Inv := by
  refine hi.withTokens (TokenRegistry.minted_sound hi.tokens hfits) TokenRegistry.update_keySet
    (fun _ => TokenRegistry.minted_has) TokenRegistry.minted_hashboards ?_ ?_
  · intro q i hpos
    rw [TokenRegistry.minted_balance hp] at hpos
    by_cases hd : dest = i
    · exact hd ▸ hdest.le_alloc
    · exact hi.holders q i (by simpa [hd, balance] using hpos)
  · intro pair m hm q
    have hd : dest ≠ m.id := fun h => hdest.not_market pair m hm h.symm
    rw [TokenRegistry.minted_balance hp]
    simp [hd, balance]

theorem MarketSound.has_direction {selling buying : TokenPointer} (h : g.MarketSound pair m)
    (hd : pair.Direction selling buying) : g.Has selling ∧ g.Has buying := by
  rcases hd with ⟨rfl, rfl⟩ | ⟨rfl, rfl⟩
  · exact ⟨h.hasA, h.hasB⟩
  · exact ⟨h.hasB, h.hasA⟩

theorem MarketSound.direction_ne {selling buying : TokenPointer} (h : g.MarketSound pair m)
    (hd : pair.Direction selling buying) (hfunded : 0 < m.reserveA) : selling ≠ buying := by
  rcases hd with ⟨rfl, rfl⟩ | ⟨rfl, rfl⟩
  · exact h.distinct hfunded
  · exact (h.distinct hfunded).symm

namespace CanSwap

variable {selling buying : TokenPointer} {sellAmt buyAmt : ℕ} {trader : EntityID}
  {q : TokenPointer} {i : EntityID}

private theorem trader_ne (h : g.CanSwap m selling buying sellAmt buyAmt trader) : trader ≠ m.id :=
  fun heq => h.party.not_market m.pair m h.market heq.symm

theorem balance_eq (h : g.CanSwap m selling buying sellAmt buyAmt trader) (hi : g.Inv) :
    (g.swapped m selling buying sellAmt buyAmt trader).balance q i =
      if selling = q then
        g.balance q i - (if trader = i then sellAmt else 0) + (if m.id = i then sellAmt else 0)
      else if buying = q then
        g.balance q i - (if m.id = i then buyAmt else 0) + (if trader = i then buyAmt else 0)
      else g.balance q i := by
  have hm := hi.markets m.pair m h.market
  have hhas := hm.has_direction h.direction
  have hne := hm.direction_ne h.direction h.funded
  rw [swapped, TokenRegistry.paid_balance (TokenRegistry.moved_has.mpr hhas.2),
    TokenRegistry.moved_balance hhas.1, TokenRegistry.moved_balance hhas.1]
  by_cases hs : selling = q
  · subst hs
    simp [hne.symm, balance]
  · by_cases hb : buying = q
    · subst hb
      simp [hs, balance]
    · simp [hs, hb, balance]

theorem balance_account (h : g.CanSwap m selling buying sellAmt buyAmt trader) (hi : g.Inv) :
    (g.swapped m selling buying sellAmt buyAmt trader).balance q m.id =
      if selling = q then g.balance q m.id + sellAmt
      else if buying = q then g.balance q m.id - buyAmt
      else g.balance q m.id := by
  rw [h.balance_eq hi]
  simp [h.trader_ne]

theorem balance_trader (h : g.CanSwap m selling buying sellAmt buyAmt trader) (hi : g.Inv) :
    (g.swapped m selling buying sellAmt buyAmt trader).balance q trader =
      if selling = q then g.balance q trader - sellAmt
      else if buying = q then g.balance q trader + buyAmt
      else g.balance q trader := by
  rw [h.balance_eq hi]
  simp [h.trader_ne.symm]

theorem balance_other (h : g.CanSwap m selling buying sellAmt buyAmt trader) (hi : g.Inv)
    (hacc : m.id ≠ i) (htr : trader ≠ i) :
    (g.swapped m selling buying sellAmt buyAmt trader).balance q i = g.balance q i := by
  rw [h.balance_eq hi]
  simp [hacc, htr]

private theorem tokens_sound (h : g.CanSwap m selling buying sellAmt buyAmt trader) (hi : g.Inv) :
    (g.swapped m selling buying sellAmt buyAmt trader).Sound := by
  have hm := hi.markets m.pair m h.market
  refine TokenRegistry.paid_sound (TokenRegistry.moved_sound hi.tokens h.pays) ?_
  rw [TokenRegistry.moved_balance (hm.has_direction h.direction).1,
    if_neg (hm.direction_ne h.direction h.funded)]
  exact h.covers

theorem reserves_mul (h : g.CanSwap m selling buying sellAmt buyAmt trader) (hi : g.Inv) :
    (g.swapped m selling buying sellAmt buyAmt trader).balance m.pair.assetA m.id *
        (g.swapped m selling buying sellAmt buyAmt trader).balance m.pair.assetB m.id =
      (g.balance selling m.id + sellAmt) * (g.balance buying m.id - buyAmt) := by
  have hne := (hi.markets m.pair m h.market).direction_ne h.direction h.funded
  rw [h.balance_account hi, h.balance_account hi]
  rcases h.direction with ⟨rfl, rfl⟩ | ⟨rfl, rfl⟩
  · rw [if_pos rfl, if_neg hne, if_pos rfl]
  · rw [if_neg hne, if_pos rfl, if_pos rfl, Nat.mul_comm]

theorem product_le (h : g.CanSwap m selling buying sellAmt buyAmt trader) (hi : g.Inv) :
    m.reserveA * m.reserveB ≤
      (g.swapped m selling buying sellAmt buyAmt trader).balance m.pair.assetA m.id *
        (g.swapped m selling buying sellAmt buyAmt trader).balance m.pair.assetB m.id := by
  have hm := hi.markets m.pair m h.market
  have hk : m.reserveA * m.reserveB = g.balance selling m.id * g.balance buying m.id := by
    rw [hm.reserveA_eq, hm.reserveB_eq]
    rcases h.direction with ⟨rfl, rfl⟩ | ⟨rfl, rfl⟩
    · rfl
    · exact Nat.mul_comm _ _
  rw [h.reserves_mul hi, hk]
  exact h.acceptable

end CanSwap

private theorem Inv.market_id_le (hi : g.Inv) (hm : g.markets[pair]? = some m) : m.id ≤ g.alloc :=
  hi.ids_le m.id (mem_entityIds.mpr (.inr (.inr (.inr (.inr ⟨pair, m, hm, rfl⟩)))))

theorem Inv.swap {selling buying : TokenPointer} {sellAmt buyAmt : ℕ} {trader : EntityID}
    (hi : g.Inv) (h : g.CanSwap m selling buying sellAmt buyAmt trader) :
    (g.withReserves m (g.swapped m selling buying sellAmt buyAmt trader)).Inv := by
  have hm := hi.markets m.pair m h.market
  have hpos : 0 < m.reserveA * m.reserveB :=
    Nat.mul_pos h.funded (Nat.pos_of_ne_zero fun h0 => h.funded.ne' (hm.both.mpr h0))
  have hpos' := Nat.lt_of_lt_of_le hpos (h.product_le hi)
  refine hi.withReserves h.market (h.tokens_sound hi) swapped_keySet (fun _ => swapped_has)
    swapped_hashboards ?_ ?_ (hm.distinct h.funded) ?_
  · intro p i hbal
    by_cases hacc : m.id = i
    · exact hacc ▸ hi.market_id_le h.market
    · by_cases htr : trader = i
      · exact htr ▸ h.party.le_alloc
      · exact hi.holders p i (h.balance_other hi hacc htr ▸ hbal)
  · intro pair m' hm' hne p
    exact h.balance_other hi hne.symm fun heq => h.party.not_market pair m' hm' heq.symm
  · have hA := Nat.pos_of_mul_pos_right hpos'
    have hB := Nat.pos_of_mul_pos_left hpos'
    omega

namespace CanDeposit

variable {amountA amountB toMint : ℕ} {depositor : EntityID} {q : TokenPointer} {i : EntityID}

private theorem depositor_ne (h : g.CanDeposit m amountA amountB toMint depositor) :
    depositor ≠ m.id :=
  fun heq => h.party.not_market m.pair m h.market heq.symm

private theorem balance_eq (h : g.CanDeposit m amountA amountB toMint depositor) (hi : g.Inv) :
    (g.deposited m amountA amountB toMint depositor).balance q i =
      (if m.pair.assetA = q then
        g.balance q i - (if depositor = i then amountA else 0) + (if m.id = i then amountA else 0)
      else if m.pair.assetB = q then
        g.balance q i - (if depositor = i then amountB else 0) + (if m.id = i then amountB else 0)
      else g.balance q i) + if m.lp = q ∧ depositor = i then toMint else 0 := by
  have hm := hi.markets m.pair m h.market
  have hA : g.tokens.Has m.pair.assetA := hm.hasA
  have hB : (g.tokens.moved m.pair.assetA depositor m.id amountA).Has m.pair.assetB :=
    TokenRegistry.moved_has.mpr hm.hasB
  have hlp : ((g.tokens.moved m.pair.assetA depositor m.id amountA).moved m.pair.assetB depositor
      m.id amountB).Has m.lp :=
    TokenRegistry.moved_has.mpr (TokenRegistry.moved_has.mpr hm.hasShares)
  simp only [deposited, TokenRegistry.minted_balance hlp, TokenRegistry.moved_balance hB,
    TokenRegistry.moved_balance hA, balance]
  by_cases ha : m.pair.assetA = q
  · subst ha
    simp [h.distinct.symm]
  · by_cases hb : m.pair.assetB = q
    · subst hb
      simp [ha]
    · simp [ha, hb]

theorem balance_account (h : g.CanDeposit m amountA amountB toMint depositor) (hi : g.Inv) :
    (g.deposited m amountA amountB toMint depositor).balance q m.id =
      if m.pair.assetA = q then g.balance q m.id + amountA
      else if m.pair.assetB = q then g.balance q m.id + amountB
      else g.balance q m.id := by
  rw [h.balance_eq hi]
  simp [h.depositor_ne]

theorem balance_other (h : g.CanDeposit m amountA amountB toMint depositor) (hi : g.Inv)
    (hacc : m.id ≠ i) (hdep : depositor ≠ i) :
    (g.deposited m amountA amountB toMint depositor).balance q i = g.balance q i := by
  rw [h.balance_eq hi]
  simp [hacc, hdep]

theorem total_eq (h : g.CanDeposit m amountA amountB toMint depositor) (hi : g.Inv) :
    (g.deposited m amountA amountB toMint depositor).total q =
      g.total q + if m.lp = q then toMint else 0 := by
  have hlp : ((g.tokens.moved m.pair.assetA depositor m.id amountA).moved m.pair.assetB depositor
      m.id amountB).Has m.lp :=
    TokenRegistry.moved_has.mpr (TokenRegistry.moved_has.mpr (hi.markets _ m h.market).hasShares)
  simp [deposited, TokenRegistry.minted_total hlp, total]

private theorem tokens_sound (h : g.CanDeposit m amountA amountB toMint depositor) (hi : g.Inv) :
    (g.deposited m amountA amountB toMint depositor).Sound := by
  have hm := hi.markets m.pair m h.market
  have hA : g.tokens.Has m.pair.assetA := hm.hasA
  have h1 : (g.tokens.moved m.pair.assetA depositor m.id amountA).Sound :=
    TokenRegistry.moved_sound hi.tokens h.paysA
  have hpays : amountB ≤
      (g.tokens.moved m.pair.assetA depositor m.id amountA).balance m.pair.assetB depositor := by
    rw [TokenRegistry.moved_balance hA, if_neg h.distinct]
    exact h.paysB
  refine TokenRegistry.minted_sound (TokenRegistry.moved_sound h1 hpays) ?_
  simpa [total] using h.fits

end CanDeposit

private theorem Inv.deposit {amountA amountB toMint : ℕ} {depositor : EntityID} (hi : g.Inv)
    (h : g.CanDeposit m amountA amountB toMint depositor) :
    (g.withReserves m (g.deposited m amountA amountB toMint depositor)).Inv := by
  refine hi.withReserves h.market (h.tokens_sound hi) deposited_keySet (fun _ => deposited_has)
    deposited_hashboards ?_ ?_ h.distinct ?_
  · intro p i hbal
    by_cases hacc : m.id = i
    · exact hacc ▸ hi.market_id_le h.market
    · by_cases hdep : depositor = i
      · exact hdep ▸ h.party.le_alloc
      · exact hi.holders p i (h.balance_other hi hacc hdep ▸ hbal)
  · intro pair m' hm' hne p
    exact h.balance_other hi hne.symm fun heq => h.party.not_market pair m' hm' heq.symm
  · have hpos := h.positive
    rw [h.balance_account hi, h.balance_account hi, if_pos rfl, if_neg h.distinct, if_pos rfl]
    omega

private theorem Inv.addNft {nft : BaseNFT} {plant : Option PowerPlant} (hi : g.Inv)
    (hid : nft.nftId = g.alloc + 1) (howner : g.IsUser nft.owner)
    (hplant : ∀ p, plant = some p → p.id = nft.nftId) (hext : g.Extends (g.addNft nft plant)) :
    (g.addNft nft plant).Inv := by
  have hfresh := hi.not_mem_entityIds (Nat.lt_succ_self g.alloc)
  have hids := entityIds_addNft plant hid hfresh
  refine hi.of_extends hext hi.tokens (fun p i h => (hi.holders p i h).trans (Nat.le_succ _))
    (hids ▸ ids_nodup_cons hi.ids_nodup hfresh) ?_ ?_ ?_ ?_ hi.keys (fun _ => Or.inl)
  · intro i hmem
    rw [hids, Multiset.mem_add, Multiset.mem_singleton] at hmem
    rcases hmem with rfl | hmem
    · exact le_rfl
    · exact (hi.ids_le i hmem).trans (Nat.le_succ _)
  · exact fun pair m hm => (hi.markets pair m hm).mono hext fun _ => rfl
  · intro i n hn
    simp only [GameBoard.addNft, OrderedMap.getElem?_insert] at hn
    by_cases hi' : nft.nftId = i
    · rw [if_pos hi', Option.some.injEq] at hn
      exact hn ▸ ⟨hi', howner⟩
    · exact hi.nfts i n ((if_neg hi').symm.trans hn)
  · intro i p hp
    cases plant with
    | none => exact ⟨(hi.plants i p hp).1, hext.nfts i (hi.plants i p hp).2⟩
    | some plant =>
      simp only [GameBoard.addNft, OrderedMap.getElem?_insert] at hp
      by_cases hi' : nft.nftId = i
      · rw [if_pos hi', Option.some.injEq] at hp
        refine hp ▸ ⟨(hplant plant rfl).trans hi', ?_⟩
        simp [IsNft, GameBoard.addNft, hi']
      · have hold := hi.plants i p ((if_neg hi').symm.trans hp)
        exact ⟨hold.1, hext.nfts i hold.2⟩

private theorem Inv.addUser {player : String} (hi : g.Inv) (hext : g.Extends (g.addUser player)) :
    (g.addUser player).Inv := by
  have hfresh := hi.not_mem_entityIds (Nat.lt_succ_self g.alloc)
  have hids := entityIds_addUser player hfresh
  refine hi.of_extends hext hi.tokens (fun p i h => (hi.holders p i h).trans (Nat.le_succ _))
    (hids ▸ ids_nodup_cons hi.ids_nodup hfresh) ?_ ?_ ?_ hi.plants ?_ (fun _ => Or.inl)
  · intro i hmem
    rw [hids, Multiset.mem_add, Multiset.mem_singleton] at hmem
    rcases hmem with rfl | hmem
    · exact le_rfl
    · exact (hi.ids_le i hmem).trans (Nat.le_succ _)
  · exact fun pair m hm => (hi.markets pair m hm).mono hext fun _ => rfl
  · exact fun i n hn => ⟨(hi.nfts i n hn).1, hext.isUser (hi.nfts i n hn).2⟩
  · intro k i hk
    simp only [GameBoard.addUser, OrderedMap.getElem?_insert] at hk ⊢
    by_cases hplayer : player = k
    · rw [if_pos hplayer, Option.some.injEq] at hk
      rw [if_pos hk, hplayer]
    · rw [if_neg hplayer] at hk
      have hold := hext.users i _ (hi.keys k i hk)
      simpa only [GameBoard.addUser, OrderedMap.getElem?_insert] using hold

private theorem pending_schedule {cb cb' : Callback} (h : (g.schedule cb).Pending cb') :
    g.Pending cb' ∨ cb' = cb := by
  obtain ⟨time, l, hl, hmem⟩ := h
  simp only [GameBoard.schedule, CallbackRegistry.schedule, OrderedMap.getElem?_insert] at hl
  by_cases ht : cb.time = time
  · rw [if_pos ht, Option.some.injEq] at hl
    subst hl ht
    rcases List.mem_append.mp hmem with hold | hnew
    · refine .inl ⟨cb.time, g.callbacks.getD cb.time [], ?_, hold⟩
      rw [ExtTreeMap.getD_eq_getD_getElem?] at hold ⊢
      cases hc : g.callbacks[cb.time]? with
      | none => simp [hc] at hold
      | some l => rfl
    · exact .inr (List.mem_singleton.mp hnew)
  · exact .inl ⟨time, l, (if_neg ht).symm.trans hl, hmem⟩

private theorem pending_splitOff {bound : ℕ} {cb : Callback}
    (h : { g with callbacks := CallbackRegistry.splitOff g.callbacks bound : GameBoard }.Pending
      cb) : g.Pending cb := by
  obtain ⟨time, l, hl, hmem⟩ := h
  simp only [CallbackRegistry.splitOff, ExtTreeMap.getElem?_filter, Option.pfilter_eq_some_iff]
    at hl
  obtain ⟨hl, _⟩ := hl
  exact ⟨time, l, hl, hmem⟩

theorem Inv.party_of_mem {i : EntityID} (hi : g.Inv)
    (hmem : g.IsUser i ∨ i = g.rootUser ∨ g.Has i ∨ g.IsNft i) : g.Party i where
  le_alloc := hi.ids_le i (mem_entityIds.mpr (by tauto))
  not_market pair m hm heq := by
    have hsome {α : Type} {o : Option α} : o.isSome ↔ ∃ v, o = some v :=
      Option.isSome_iff_exists
    have hleft : i ∈ keySet g.users + {g.rootUser} + keySet g.tokens.tokens + keySet g.nfts.nfts := by
      simpa only [Multiset.mem_add, mem_keySet, Multiset.mem_singleton, IsUser, Has,
        TokenRegistry.Has, IsNft, hsome, or_assoc] using hmem
    have hright : i ∈ (entries g.markets).map (·.2.id) := by
      simpa using ⟨pair, m, hm, heq⟩
    exact Multiset.disjoint_left.mp (Multiset.nodup_add.mp hi.ids_nodup).2.2 hleft hright

theorem Inv.party_of_user {i : EntityID} (hi : g.Inv) (h : g.IsUser i) : g.Party i :=
  hi.party_of_mem (.inl h)

theorem Inv.party_of_nft {i : EntityID} (hi : g.Inv) (h : g.IsNft i) : g.Party i :=
  hi.party_of_mem (.inr (.inr (.inr h)))

theorem Inv.not_isUser_root (hi : g.Inv) : ¬ g.IsUser g.rootUser := by
  intro huser
  obtain ⟨u, hu⟩ := Option.isSome_iff_exists.mp huser
  have hnd := (Multiset.nodup_add.mp (Multiset.nodup_add.mp (Multiset.nodup_add.mp
    hi.ids_nodup).1).1).1
  exact Multiset.disjoint_left.mp (Multiset.nodup_add.mp hnd).2.2 (mem_keySet.mpr ⟨u, hu⟩)
    (Multiset.mem_singleton_self _)

theorem Inv.not_isUser_of_isNft {i : EntityID} (hi : g.Inv) (h : g.IsNft i) : ¬ g.IsUser i := by
  intro hu
  obtain ⟨n, hn⟩ := Option.isSome_iff_exists.mp h
  obtain ⟨u, hu⟩ := Option.isSome_iff_exists.mp hu
  have hnd := (Multiset.nodup_add.mp hi.ids_nodup).1
  have hleft : i ∈ keySet g.users + {g.rootUser} + keySet g.tokens.tokens := by
    simp only [Multiset.mem_add, mem_keySet]
    exact .inl (.inl ⟨u, hu⟩)
  exact Multiset.disjoint_left.mp (Multiset.nodup_add.mp hnd).2.2 hleft (mem_keySet.mpr ⟨n, hn⟩)

theorem ProducerSound.not_isUser {p : Producer} (h : g.ProducerSound p) : ¬ g.IsUser p.id :=
  fun hu => h.own_id (mem_entityIds.mpr (.inl hu))

theorem ProducerSound.party {p : Producer} (h : g.ProducerSound p) : g.Party p.id where
  le_alloc := h.le_alloc
  not_market pair m hm heq :=
    h.own_id (mem_entityIds.mpr (.inr (.inr (.inr (.inr ⟨pair, m, hm, heq⟩)))))

private theorem Inv.sell {asset : NftPtr} {nft : BaseNFT} {sale : NFTSale} {buyer : EntityID}
    (hi : g.Inv)
    (hnft : g.nfts.nfts[asset]? = some nft) (hp : g.Has sale.currency)
    (hpays : sale.price ≤ g.balance sale.currency buyer) (hbuyer : g.IsUser buyer) :
    (g.sell asset nft sale buyer).Inv := by
  have howner := (hi.nfts asset nft hnft).2
  have hpaid := hi.transfer hp hpays (hi.party_of_user hbuyer) (hi.party_of_user howner)
  refine hpaid.setNft hnft ?_ ?_
  · simp only [BaseNFT.transfer]
    split <;> rfl
  · simp only [BaseNFT.transfer]
    split
    · exact howner
    · exact hbuyer

end GameBoard

theorem Occurs.inv (h : Occurs g e g') (hi : g.Inv) : g'.Inv := by
  have hext := h.extends hi
  cases h with
  | openMarket pair shares hnone hnormal hA hB hroom => exact hi.openMarket hnone hnormal hA hB hext
  | transfer p sender receiver amount hp hpays hsender hreceiver =>
    exact hi.transfer hp hpays hsender hreceiver
  | mint p dest amount hp hfits hdest => exact hi.mint hp hfits hdest
  | swap m selling buying sellAmt buyAmt trader h => exact hi.swap h
  | deposit m amountA amountB toMint depositor h => exact hi.deposit h
  | newNft nft plant hroom hid howner hplant => exact hi.addNft hid howner hplant hext
  | list asset nft sale hnft hseller hcount =>
    exact hi.of_same hext rfl rfl rfl rfl rfl rfl fun _ => Or.inl
  | sold asset nft sale buyer hnft hsale hseller hcount hp hpays hbuyer =>
    exact hi.sell hnft hp hpays hbuyer
  | schedule cb h =>
    refine hi.of_same hext rfl rfl rfl rfl rfl rfl fun cb' hcb => ?_
    rcases pending_schedule hcb with hold | rfl
    · exact .inl hold
    · exact .inr (hext.callbackSound h)
  | dequeue bound =>
    exact hi.of_same hext rfl rfl rfl rfl rfl rfl fun cb hcb => .inl (pending_splitOff hcb)
  | addUser player hroom => exact hi.addUser hext
  | drawId hroom => exact hi.of_same hext rfl rfl rfl rfl rfl rfl fun _ => Or.inl
  | note n => exact hi.of_same hext rfl rfl rfl rfl rfl rfl fun _ => Or.inl

theorem Trace.inv {P : Event → Prop} (h : Trace P g g') (hi : g.Inv) : g'.Inv :=
  Run.invariant (fun _ _ _ _ hi hs => hs.inv hi) h hi

theorem Trace.extends {P : Event → Prop} (h : Trace P g g') (hi : g.Inv) :
    g.Extends g' :=
  Run.relates (fun _ _ _ _ hi hs => hs.inv hi) GameBoard.Extends.refl
    (fun _ _ _ h h' => h.trans h') (fun _ _ _ _ hi hs => hs.extends hi) h hi

end JudicaVM
