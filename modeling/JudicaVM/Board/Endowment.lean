import JudicaVM.Board.Reserves
import JudicaVM.Lib.Members

/-!
# The initial supply

What the construction of a board issues, which bounds the reserves of all markets on every board
that play reaches.
-/

namespace JudicaVM

open Checked Std Members OrderedMap Transition GameBoard

variable {setup : GameSetup} {g g' : GameBoard} {q : TokenPointer}

theorem mem_sortedPlayers {players : List String} {p : String} :
    p ∈ sortedPlayers players ↔ p ∈ players := by
  rw [sortedPlayers, mem_destutter_ne, List.mem_insertionSort]

theorem sortedPlayers_nodup (players : List String) : (sortedPlayers players).Nodup :=
  nodup_destutter (List.pairwise_insertionSort _ _)

private theorem length_destutter_insertionSort {l : List ℕ} (h : l.Nodup) :
    ((l.insertionSort (· ≤ ·)).destutter (· ≠ ·)).length = l.length := by
  have hnodup := (List.perm_insertionSort (· ≤ ·) l).nodup_iff.mpr h
  rw [List.destutter_of_isChain _ _ hnodup.isChain, List.length_insertionSort]

theorem addPlayer_effect {startAmount : ℕ} {player : String} (hi : g.Inv)
    (h : addPlayer startAmount g player = .ok g') :
    g.Effect (fun q => (if g.realSatsTokenId = q then startAmount else 0) +
      if g.bitcoinTokenId = q then startAmount else 0) (fun _ => False) g' ∧
      g'.usersByKey = g.usersByKey.insert player (g.alloc + 1) := by
  simp only [addPlayer, EntityIDAllocator.make, bind_eq_ok_iff, add_eq_ok_iff, pure_eq_ok,
    Except.ok.injEq] at h
  obtain ⟨_, ⟨hroom, rfl⟩, t1, hmint1, t2, hmint2, rfl⟩ := h
  have hadd : Occurs g (.addUser player) (g.addUser player) := .addUser g player hroom
  have hi1 := hadd.inv hi
  have huser : (g.addUser player).IsUser (g.alloc + 1) := by simp [IsUser, addUser]
  have hfirst : Trace IsSetupEvent (g.addUser player) ((g.addUser player).withTokens t1) :=
    mint_trace hi1 (hi1.party_of_user huser) trivial hmint1
  have heffect := (mint_effect (fun _ => False) hi1 hmint1).trans (hfirst.extends hi1)
    (mint_effect _ (hfirst.inv hi1) hmint2)
  have hall := ((hadd.framed hi trivial).effect fun _ => 0).trans (hadd.extends hi)
    heffect
  exact ⟨hall.mono (fun q => (Nat.zero_add _).le) fun _ hpair => hpair, rfl⟩

theorem addPlayers_effect {startAmount : ℕ} {players : List String} (hi : g.Inv)
    (hnodup : players.Nodup) (hnew : ∀ k ∈ players, g.usersByKey[k]? = none)
    (h : players.foldlM (addPlayer startAmount) g = .ok g') :
    g.Effect (fun q => players.length * ((if g.realSatsTokenId = q then startAmount else 0) +
      if g.bitcoinTokenId = q then startAmount else 0)) (fun _ => False) g' ∧
      g'.usersByKey.size = g.usersByKey.size + players.length := by
  induction players generalizing g with
  | nil =>
    cases h
    exact ⟨(Framed.refl _).effect _, rfl⟩
  | cons player players ih =>
    simp only [List.foldlM_cons, bind_eq_ok_iff] at h
    obtain ⟨g1, hfirst, h⟩ := h
    obtain ⟨hnot, hnodup⟩ := List.nodup_cons.mp hnodup
    obtain ⟨heffect, hkeys⟩ := addPlayer_effect hi hfirst
    have htrace := addPlayer_trace hi hfirst
    have hext := htrace.extends hi
    have hreal : g1.realSatsTokenId = g.realSatsTokenId :=
      congrArg Constants.realSatsTokenId hext.constants_eq
    have hbitcoin : g1.bitcoinTokenId = g.bitcoinTokenId := bitcoin_eq hext.constants_eq
    have hnew1 (k : String) (hk : k ∈ players) : g1.usersByKey[k]? = none := by
      have hne : player ≠ k := fun heq => hnot (heq ▸ hk)
      rw [hkeys, OrderedMap.getElem?_insert, if_neg hne]
      exact hnew k (List.mem_cons_of_mem _ hk)
    obtain ⟨hrest, hsize⟩ := ih (htrace.inv hi) hnodup hnew1 h
    rw [hreal, hbitcoin] at hrest
    refine ⟨(heffect.trans hext hrest).mono (fun q => ?_) fun _ hpair => hpair, ?_⟩
    · rw [List.length_cons, Nat.succ_mul, Nat.add_comm]
    · have hplayer : player ∉ g.usersByKey := by simpa using hnew player List.mem_cons_self
      rw [hsize, hkeys, ExtTreeMap.size_insert, List.length_cons]
      simp only [← ExtTreeMap.mem_iff_contains, hplayer, if_false]
      omega

private theorem addStartPlant_effect {i : ℕ} {player : EntityID} (hi : g.Inv)
    (hplayer : g.IsUser player)
    (h : addStartPlant g i player = .ok g') :
    g.Effect (fun q => if g.asicTokenId = q then 1 else 0) (fun _ => False) g' ∧
      i < startLocations.length := by
  simp only [addStartPlant, EntityIDAllocator.make, bind_eq_ok_iff, add_eq_ok_iff] at h
  obtain ⟨_, ⟨hroom, rfl⟩, h⟩ := h
  split at h
  · cases h
  · rename_i coordinates kind hlocation
    simp only [PowerPlant.new, bind_eq_ok_iff, pure_eq_ok, Except.ok.injEq] at h
    obtain ⟨_, ⟨watts, _, rfl⟩, tokens, hmint, rfl⟩ := h
    let nft : BaseNFT := { owner := player, nftId := g.alloc + 1, transferCount := 0 }
    let plant : PowerPlant := { id := g.alloc + 1, plantType := kind, watts, coordinates }
    have hnew : Occurs g (.newNft nft (some plant)) (g.addNft nft (some plant)) :=
      .newNft g nft (some plant) hroom rfl hplayer (fun p hp => by cases hp; rfl)
    have heffect := ((hnew.framed hi trivial).effect fun _ => 0).trans (hnew.extends hi)
      (mint_effect (fun _ => False) (hnew.inv hi) hmint)
    have hboard := congrArg (fun b : GameBoard => b.withTokens tokens)
      (addPlant_eq_addNft nft plant hi rfl)
    simp only [Nat.zero_add] at heffect
    rw [← hboard] at heffect
    exact ⟨heffect, (List.getElem?_eq_some_iff.mp hlocation).1⟩

theorem addStartPlants_effect {players : List EntityID} {i : ℕ} (hi : g.Inv)
    (hplayers : ∀ p ∈ players, g.IsUser p) (h : addStartPlants players i g = .ok g') :
    g.Effect (fun q => if g.asicTokenId = q then players.length else 0) (fun _ => False) g' ∧
      players.length ≤ startLocations.length - i := by
  induction players generalizing g i with
  | nil =>
    cases h
    exact ⟨(Framed.refl _).effect _, Nat.zero_le _⟩
  | cons player players ih =>
    simp only [addStartPlants, bind_eq_ok_iff] at h
    obtain ⟨g1, hfirst, h⟩ := h
    have hplayer := hplayers player List.mem_cons_self
    obtain ⟨heffect, hlt⟩ := addStartPlant_effect hi hplayer hfirst
    have htrace := addStartPlant_trace hi hplayer hfirst
    have hext := htrace.extends hi
    have hasic : g1.asicTokenId = g.asicTokenId := congrArg Constants.asicTokenId hext.constants_eq
    obtain ⟨hrest, hle⟩ := ih (htrace.inv hi)
      (fun p hp => hext.isUser (hplayers p (List.mem_cons_of_mem _ hp))) h
    rw [hasic] at hrest
    refine ⟨(heffect.trans hext hrest).mono (fun q => ?_) fun _ hpair => hpair, ?_⟩
    · by_cases hq : g.asicTokenId = q
      · simp only [hq, if_true, List.length_cons]
        omega
      · simp [hq]
    · rw [List.length_cons]
      omega

theorem makeMarket_effect {id : TokenPointer} (hi : g.Inv) (h : makeMarket g id = .ok g') :
    g.Framed g' ∧ g'.usersByKey = g.usersByKey := by
  simp only [makeMarket, bind_eq_ok_iff, pure_eq_ok, Except.ok.injEq] at h
  obtain ⟨⟨m, g1⟩, hensure, rfl⟩ := h
  refine ⟨ensure_framed hi hensure, ?_⟩
  obtain ⟨_, rfl | hopen⟩ := ConstantFunctionMarketMakerPair.ensure_cases hensure
  · rfl
  · cases hopen
    rfl

/-- A producer that has not run yet. -/
structure Producer.Fresh (p : Producer) (hashAsset priceAsset : TokenPointer) : Prop where
  hash : p.hashAsset = hashAsset
  price : p.priceAsset = priceAsset
  units : p.totalUnits = 100_000
  base : p.basePrice = 100_000

private theorem Producer.Fresh.issue_le {p : Producer} {hashAsset priceAsset : TokenPointer}
    (h : p.Fresh hashAsset priceAsset) :
    p.issue q ≤ (if hashAsset = q then 100_000 else 0) +
      if priceAsset = q then 1_000_000_000 else 0 := by
  unfold issue
  rw [h.hash, h.price, h.units, h.base]
  split
  · exact le_rfl
  · exact Nat.zero_le _

/-- What the scheduling of a producer leaves as it is, and what it schedules. -/
structure Scheduled (callback : Producer → Callback) (hashAsset : TokenPointer) (g g' : GameBoard)
    (p : Producer) : Prop where
  fresh : p.Fresh hashAsset g.bitcoinTokenId
  tokens : g'.tokens = g.tokens
  consts : g'.constants = g.constants
  keys : g'.usersByKey = g.usersByKey
  queue : g'.queue = callback p ::ₘ g.queue

private theorem addProducer_scheduled {callback : Producer → Callback} {hashAsset : TokenPointer}
    {adjustsEvery : ℕ} (h : addProducer g callback hashAsset adjustsEvery = .ok g') :
    ∃ p, Scheduled callback hashAsset g g' p := by
  simp only [addProducer, EntityIDAllocator.make, bind_eq_ok_iff, add_eq_ok_iff, pure_eq_ok,
    Except.ok.injEq] at h
  obtain ⟨_, ⟨_, rfl⟩, rfl⟩ := h
  exact ⟨_, ⟨rfl, rfl, rfl, rfl⟩, rfl, rfl, rfl, queue_schedule⟩

theorem nodup_ids_of_keys (hi : g.Inv) : (g.usersByKey.toList.map (·.2)).Nodup := by
  refine List.Nodup.map_on ?_ (Multiset.coe_nodup.mp (entries_nodup g.usersByKey))
  rintro ⟨k, i⟩ hk ⟨k', i'⟩ hk' rfl
  have h1 := hi.keys k i (ExtTreeMap.mem_toList_iff_getElem?_eq_some.mp hk)
  have h2 := hi.keys k' i (ExtTreeMap.mem_toList_iff_getElem?_eq_some.mp hk')
  have heq : ({ key := k } : UserData) = { key := k' } := Option.some.inj (h1.symm.trans h2)
  cases heq
  rfl

/-- The ids of the users of a board, as `post_init` lists them, are as many as there are keys. -/
theorem length_sortedIds (hi : g.Inv) :
    g.sortedIds.length = g.usersByKey.size := by
  rw [sortedIds, length_destutter_insertionSort (nodup_ids_of_keys hi), List.length_map,
    ExtTreeMap.length_toList]

private theorem postInit_spec (hi : g.Inv) (hm : g.Materials) (h : postInit g = .ok g') :
    (∀ q, g.Has q → q ≤ g.rootUser → g'.total q ≤ g.total q +
      (if g.bitcoinTokenId = q then 10_000_000_000 else 0) +
      (if g.realSatsTokenId = q then 30_000 else 0) +
      if g.asicTokenId = q then g.usersByKey.size else 0) ∧
      g.usersByKey.size ≤ 10 ∧
      ∃ asic steel silicon concrete : Producer,
        asic.Fresh g.asicTokenId g.bitcoinTokenId ∧ steel.Fresh g.steelTokenId g.bitcoinTokenId ∧
        silicon.Fresh g.siliconTokenId g.bitcoinTokenId ∧
        concrete.Fresh g.concreteTokenId g.bitcoinTokenId ∧
        g'.queue = .concreteMiller concrete ::ₘ .siliconRefinery silicon ::ₘ .steelSmelter steel ::ₘ
          .asicProducer asic ::ₘ .powerPlantEvent { time := 0, period := 11_003 } ::ₘ g.queue := by
  obtain ⟨g1, g2, g3, g4, t1, t2, g5, g6, g7, g8, ⟨h1, h2, h3, h4⟩, hmint1, hmint2,
    ⟨h5, h6, h7, h8⟩, hmarkets, hrest, hplants⟩ := postInit_stages hi hm h
  have hi1 := (makeMarket_trace h1).inv hi
  have hi2 := (makeMarket_trace h2).inv hi1
  have hi3 := (makeMarket_trace h3).inv hi2
  have hi4 := hmarkets.inv hi
  obtain ⟨hframe1, hkeys1⟩ := makeMarket_effect hi h1
  obtain ⟨hframe2, hkeys2⟩ := makeMarket_effect hi1 h2
  obtain ⟨hframe3, hkeys3⟩ := makeMarket_effect hi2 h3
  obtain ⟨hframe4, hkeys4⟩ := makeMarket_effect hi3 h4
  have hframe := hframe1.trans (hframe2.trans (hframe3.trans hframe4))
  have hkeys : g4.usersByKey = g.usersByKey := by rw [hkeys4, hkeys3, hkeys2, hkeys1]
  have hconst := (hmarkets.extends hi).constants_eq
  have hmintTrace : Trace IsSetupEvent g4 (g4.withTokens t1) :=
    mint_trace hi4 (hi4.party_of_mem (.inr (.inl rfl))) trivial hmint1
  have hmints := (mint_effect (fun _ => False) hi4 hmint1).trans
    (hmintTrace.extends hi4) (mint_effect _ (hmintTrace.inv hi4) hmint2)
  obtain ⟨asic, hasic5⟩ := addProducer_scheduled h5
  obtain ⟨steel, hsteel6⟩ := addProducer_scheduled h6
  obtain ⟨silicon, hsilicon7⟩ := addProducer_scheduled h7
  obtain ⟨concrete, hconcrete8⟩ := addProducer_scheduled h8
  have hconst8 := (hrest.extends hi4).constants_eq.trans hconst
  have hconst7 := hconcrete8.consts.symm.trans hconst8
  have hconst6 := hsilicon7.consts.symm.trans hconst7
  have hconst5 := hsteel6.consts.symm.trans hconst6
  have htokens : g8.tokens = t2 :=
    hconcrete8.tokens.trans (hsilicon7.tokens.trans (hsteel6.tokens.trans hasic5.tokens))
  have hkeys8 : g8.usersByKey = g.usersByKey :=
    (hconcrete8.keys.trans (hsilicon7.keys.trans (hsteel6.keys.trans hasic5.keys))).trans hkeys
  have hqueue4 : g4.queue = g.queue := congrArg bag hframe.callbacks
  have hi8 := hrest.inv hi4
  obtain ⟨hstart, hcount⟩ := addStartPlants_effect hi8
    (fun p hp => isUser_of_mem_sortedIds hi8 hp) hplants
  rw [length_sortedIds hi8, hkeys8] at hstart hcount
  have hqueue8 : g'.queue = g8.queue := congrArg bag hstart.callbacks
  have hbtc4 : g4.bitcoinTokenId = g.bitcoinTokenId := bitcoin_eq hconst
  have hasic4 : g4.asicTokenId = g.asicTokenId := congrArg Constants.asicTokenId hconst
  have hreal4 : g4.realSatsTokenId = g.realSatsTokenId := congrArg Constants.realSatsTokenId hconst
  have hroot4 : g4.rootUser = g.rootUser := congrArg Constants.rootUser hconst
  have hbtc5 : g5.bitcoinTokenId = g.bitcoinTokenId := bitcoin_eq hconst5
  have hsteel5 : g5.steelTokenId = g.steelTokenId := congrArg Constants.steelTokenId hconst5
  have hbtc6 : g6.bitcoinTokenId = g.bitcoinTokenId := bitcoin_eq hconst6
  have hsilicon6 : g6.siliconTokenId = g.siliconTokenId := congrArg Constants.siliconTokenId hconst6
  have hbtc7 : g7.bitcoinTokenId = g.bitcoinTokenId := bitcoin_eq hconst7
  have hconcrete7 : g7.concreteTokenId = g.concreteTokenId :=
    congrArg Constants.concreteTokenId hconst7
  have hasic8 : g8.asicTokenId = g.asicTokenId := congrArg Constants.asicTokenId hconst8
  have hroot8 : g8.rootUser = g.rootUser := congrArg Constants.rootUser hconst8
  refine ⟨fun q hq hle => ?_, hcount, asic, steel, silicon, concrete, ?_, ?_, ?_, ?_, ?_⟩
  · obtain ⟨hq4, htotal4⟩ := hframe.supply q hq
    have htotal8 := hstart.total_le q ((hrest.extends hi4).has q hq4) (hroot8 ▸ hle)
    have htotal := hmints.total_le q hq4 (hroot4 ▸ hle)
    have hsame : g8.total q = ((g4.withTokens t1).withTokens t2).total q := by
      simp only [GameBoard.total, htokens, withTokens]
    simp only [hbtc4, hreal4, hasic8] at htotal htotal8
    omega
  · exact hasic4 ▸ hbtc4 ▸ hasic5.fresh
  · exact hsteel5 ▸ hbtc5 ▸ hsteel6.fresh
  · exact hsilicon6 ▸ hbtc6 ▸ hsilicon7.fresh
  · exact hconcrete7 ▸ hbtc7 ▸ hconcrete8.fresh
  · rw [hqueue8, hconcrete8.queue, hsilicon7.queue, hsteel6.queue, hasic5.queue, queue_schedule,
      ← hqueue4]
    rfl

private theorem Occurs.not_newlyFunded {e : Event} (hi : g.Inv) (h : Occurs g e g')
    (he : IsSetupEvent e)
    (pair : TradingPairID) : ¬ g.NewlyFunded g' pair := by
  cases h with
  | mint p dest amount hp hfits hdest => exact not_newlyFunded_of_eq rfl pair
  | schedule cb h => exact not_newlyFunded_of_eq rfl pair
  | openMarket p shares hnone hnormal hA hB hroom =>
    have hopen : Occurs g (.openMarket p) (g.openMarket p shares) :=
      .openMarket g p shares hnone hnormal hA hB hroom
    exact (hopen.framed hi trivial).funded pair
  | newNft nft plant hroom hid howner hplant => exact not_newlyFunded_of_eq rfl pair
  | addUser player hroom => exact not_newlyFunded_of_eq rfl pair
  | drawId hroom => exact not_newlyFunded_of_eq rfl pair
  | _ => exact he.elim

private theorem Trace.not_newlyFunded (hi : g.Inv) (h : Trace IsSetupEvent g g')
    (pair : TradingPairID) :
    ¬ g.NewlyFunded g' pair := by
  refine Run.relates (R := fun s s' => ¬ s.NewlyFunded s' pair) (fun _ _ _ _ hi hs => hs.inv hi)
    (fun s => not_newlyFunded_of_eq rfl pair) (fun s s' s'' h h' hnew => ?_)
    (fun s e s' he hs hstep => hstep.not_newlyFunded hs he pair) h hi
  exact hnew.split.elim h h'

private theorem blank_base (h : blank = .ok g) : g.Base := by
  have hmarkets : g.markets = ∅ ∧ g.callbacks = ∅ := by
    cases h
    exact ⟨rfl, rfl⟩
  have hmaterials : g.miningSubsidy = 5_000_000_000 ∧ g.bitcoinTokenId ≤ g.rootUser ∧
      ∀ q ∈ g.materials, g.Has q ∧ q ≤ g.rootUser ∧ q ≠ g.bitcoinTokenId := by
    cases h
    decide +kernel
  refine ⟨hmaterials.1, hmaterials.2.1, hmaterials.2.2, fun pair m hm => ?_, fun time l hl => ?_⟩
  · simp [hmarkets.1] at hm
  · simp [hmarkets.2] at hl

private theorem blank_ids (h : blank = .ok g) :
    g.bitcoinTokenId = 0xc0de0001 ∧ g.realSatsTokenId = 0xc0de0002 ∧
      g.concreteTokenId = 0xc0de0003 ∧ g.asicTokenId = 0xc0de0004 ∧ g.steelTokenId = 0xc0de0005 ∧
      g.siliconTokenId = 0xc0de0006 := by
  cases h
  decide

/-- A board on which nothing has been issued and nothing registered. -/
structure Blank (g : GameBoard) : Prop where
  inv : g.Inv
  materials : g.Materials
  base : g.Base
  ids : g.bitcoinTokenId = 0xc0de0001 ∧ g.realSatsTokenId = 0xc0de0002 ∧
    g.concreteTokenId = 0xc0de0003 ∧ g.asicTokenId = 0xc0de0004 ∧ g.steelTokenId = 0xc0de0005 ∧
    g.siliconTokenId = 0xc0de0006
  total_eq : ∀ q, g.total q = 0
  keys : g.usersByKey = ∅
  markets : g.markets = ∅
  callbacks : g.callbacks = ∅

/-- A new board is built by setting up the players on a blank board and by `post_init`. -/
theorem new_stages (h : GameBoard.new setup = .ok g) :
    ∃ start g1, Blank start ∧
      (sortedPlayers setup.players).foldlM (addPlayer setup.startAmount) start = .ok g1 ∧
      postInit g1 = .ok g := by
  simp only [GameBoard.new, setupGame, bind_eq_ok_iff] at h
  obtain ⟨g0, hblank, g1, hplayers, hpost⟩ := h
  obtain ⟨hi, hm⟩ := blank_spec hblank
  have hb := blank_base hblank
  have hempty : g0.usersByKey = ∅ ∧ g0.markets = ∅ ∧ g0.callbacks = ∅ := by
    cases hblank
    exact ⟨rfl, rfl, rfl⟩
  have hids := blank_ids hblank
  have htotal := (blank_unissued hblank).total_eq
  refine ⟨{ g0 with finishTime := setup.finishTime }, g1, ⟨hi.setFinishTime _, ?_, ?_, hids,
    htotal, hempty.1, hempty.2.1, hempty.2.2⟩, hplayers,
    hpost⟩
  · exact ⟨hm.steel, hm.silicon, hm.concrete, hm.asic, hm.boards⟩
  · exact ⟨hb.subsidy, hb.bitcoin_le, hb.materials, hb.shares, hb.filed⟩

theorem new_count (h : GameBoard.new setup = .ok g) :
    (sortedPlayers setup.players).length ≤ 10 := by
  obtain ⟨start, g1, hstart, hplayers, hpost⟩ := new_stages h
  have htrace := addPlayers_trace hstart.inv hplayers
  obtain ⟨-, hsize⟩ := addPlayers_effect hstart.inv (sortedPlayers_nodup _)
    (fun k _ => by simp [hstart.keys]) hplayers
  obtain ⟨-, hcount, -⟩ := postInit_spec (htrace.inv hstart.inv)
    (hstart.materials.mono (htrace.extends hstart.inv)) hpost
  rw [hstart.keys, ExtTreeMap.size_empty, Nat.zero_add] at hsize
  exact hsize ▸ hcount

/-- The callbacks that a new board has scheduled. -/
def firstCallbacks (asic steel silicon concrete : Producer) : Multiset Callback :=
  .concreteMiller concrete ::ₘ .siliconRefinery silicon ::ₘ .steelSmelter steel ::ₘ
    .asicProducer asic ::ₘ .powerPlantEvent { time := 0, period := 11_003 } ::ₘ 0

private theorem firstCallbacks_issue_le {asic steel silicon concrete : Producer}
    (hasic : asic.Fresh 0xc0de0004 0xc0de0001) (hsteel : steel.Fresh 0xc0de0005 0xc0de0001)
    (hsilicon : silicon.Fresh 0xc0de0006 0xc0de0001)
    (hconcrete : concrete.Fresh 0xc0de0003 0xc0de0001) :
    ((firstCallbacks asic steel silicon concrete).map (·.issue q)).sum ≤
      (if 0xc0de0003 = q then 100_000 else 0) + (if 0xc0de0006 = q then 100_000 else 0) +
        (if 0xc0de0005 = q then 100_000 else 0) + (if 0xc0de0004 = q then 100_000 else 0) +
        if 0xc0de0001 = q then 4_000_000_000 else 0 := by
  have h1 := hconcrete.issue_le (q := q)
  have h2 := hsilicon.issue_le (q := q)
  have h3 := hsteel.issue_le (q := q)
  have h4 := hasic.issue_le (q := q)
  simp only [firstCallbacks, Multiset.map_cons, Multiset.sum_cons, Multiset.map_zero,
    Multiset.sum_zero, Callback.issue, Callback.producer?, Option.map_some, Option.map_none,
    Option.getD_some, Option.getD_none]
  by_cases hq : 0xc0de0001 = q
  · simp only [hq, if_true] at h1 h2 h3 h4 ⊢
    omega
  · simp only [hq, if_false] at h1 h2 h3 h4 ⊢
    omega

private theorem new_supplied (h : GameBoard.new setup = .ok g) : g.Base ∧ g.Supplied g.queue 0 := by
  obtain ⟨start, g1, hstart, hplayers, hpost⟩ := new_stages h
  have htrace1 := addPlayers_trace hstart.inv hplayers
  have hext1 := htrace1.extends hstart.inv
  have hi1 := htrace1.inv hstart.inv
  have hm1 := hstart.materials.mono hext1
  have htrace2 : Trace IsSetupEvent g1 g :=
    (postInit_trace hi1 hm1 hpost).mono fun _ => IsPostInitEvent.isSetupEvent
  obtain ⟨hissued1, hsize⟩ := addPlayers_effect hstart.inv (sortedPlayers_nodup _)
    (fun k _ => by simp [hstart.keys]) hplayers
  obtain ⟨hissued2, -, asic, steel, silicon, concrete, hasic, hsteel, hsilicon, hconcrete,
    hqueue⟩ := postInit_spec hi1 hm1 hpost
  have hconst1 := hext1.constants_eq
  have hconst := (htrace2.extends hi1).constants_eq.trans hconst1
  have hbase := Trace.base hstart.inv hstart.base (htrace1.trans htrace2)
  refine ⟨hbase, ?_⟩
  have hqueue1 : g1.queue = 0 := by
    have hsame : g1.queue = start.queue := congrArg bag hissued1.callbacks
    rw [hsame, queue, hstart.callbacks, bag_empty]
  rw [hstart.keys, ExtTreeMap.size_empty, Nat.zero_add] at hsize
  rw [hqueue, hqueue1]
  obtain ⟨hbtcId, hrealId, hconcreteId, hasicId, hsteelId, hsiliconId⟩ := hstart.ids
  simp only [constants, Constants.mk.injEq] at hconst hconst1
  obtain ⟨hbtc1, hreal1, hsteel1, hsilicon1, hconcrete1, hasic1, hroot1, _⟩ := hconst1
  obtain ⟨hbtc, hreal, hsteel', hsilicon', hconcrete', hasic', hroot, _⟩ := hconst
  rw [hbtc1, hbtcId] at hasic hsteel hsilicon hconcrete
  rw [hasic1, hasicId] at hasic
  rw [hsteel1, hsteelId] at hsteel
  rw [hsilicon1, hsiliconId] at hsilicon
  rw [hconcrete1, hconcreteId] at hconcrete
  have hplayersLe : (sortedPlayers setup.players).length ≤ 10 := new_count h
  have hamount : (sortedPlayers setup.players).length * setup.startAmount ≤ 10 * 2 ^ 64 :=
    Nat.mul_le_mul hplayersLe setup.startAmount_lt.le
  have htotal (q : TokenPointer) (hq : start.Has q) (hle : q ≤ start.rootUser) :
      g.total q ≤ (sortedPlayers setup.players).length *
          ((if 0xc0de0002 = q then setup.startAmount else 0) +
            if 0xc0de0001 = q then setup.startAmount else 0) +
        (if 0xc0de0001 = q then 10_000_000_000 else 0) + (if 0xc0de0002 = q then 30_000 else 0) +
        if 0xc0de0004 = q then (sortedPlayers setup.players).length else 0 := by
    have h1 := hissued1.total_le q hq hle
    have h2 := hissued2 q (hext1.has q hq) (hroot1 ▸ hle)
    rw [hbtc1, hreal1, hasic1, hbtcId, hrealId, hasicId, hsize] at h2
    rw [hbtcId, hrealId, hstart.total_eq] at h1
    omega
  have hmaterials : g.materials = [0xc0de0005, 0xc0de0006, 0xc0de0003, 0xc0de0004] := by
    simp only [GameBoard.materials, hsteel', hsilicon', hconcrete', hasic', hsteelId, hsiliconId,
      hconcreteId, hasicId]
  have hbitcoin : g.bitcoinTokenId = 0xc0de0001 := hbtc.trans hbtcId
  have hissue (q : TokenPointer) := firstCallbacks_issue_le (q := q) hasic hsteel hsilicon hconcrete
  refine ⟨?_, ?_, ?_, by norm_num, ?_, ?_, ?_⟩
  · intro cb hcb p hp
    simp only [Multiset.mem_cons, Multiset.notMem_zero, or_false] at hcb
    rw [hmaterials, hbitcoin]
    rcases hcb with rfl | rfl | rfl | rfl | rfl <;> cases hp
    · exact ⟨by simp [hconcrete.hash], hconcrete.price⟩
    · exact ⟨by simp [hsilicon.hash], hsilicon.price⟩
    · exact ⟨by simp [hsteel.hash], hsteel.price⟩
    · exact ⟨by simp [hasic.hash], hasic.price⟩
  · intro cb hcb e he
    simp only [Multiset.mem_cons, Multiset.notMem_zero, or_false] at hcb
    rcases hcb with rfl | rfl | rfl | rfl | rfl <;> cases he
    exact ⟨rfl, Nat.zero_le _⟩
  · simp [Callback.rounds, Callback.payout?]
  · intro q hq
    have hstartq : q ∈ start.materials := by
      rw [hmaterials] at hq
      simpa only [GameBoard.materials, hsteelId, hsiliconId, hconcreteId, hasicId] using hq
    obtain ⟨hhas, hle, _⟩ := hstart.base.materials q hstartq
    refine (Nat.add_le_add (htotal q hhas hle) (hissue q)).trans ?_
    rw [hmaterials] at hq
    simp only [List.mem_cons, List.not_mem_nil, or_false] at hq
    rcases hq with rfl | rfl | rfl | rfl <;> norm_num
    omega
  · have h1 := htotal 0xc0de0001 (hbtcId ▸ hstart.inv.bitcoin) (hbtcId ▸ hstart.base.bitcoin_le)
    rw [hbitcoin]
    refine (Nat.add_le_add h1 (hissue 0xc0de0001)).trans ?_
    norm_num
    omega
  · intro pair m hm hpos
    have hnew := Trace.not_newlyFunded hstart.inv (htrace1.trans htrace2) pair
    exact absurd ⟨m, hm, hpos, fun m' hm' => by simp [hstart.markets] at hm'⟩ hnew

private theorem Occurs.supplied {e : Event} {U : EntityID → Prop} {sender : EntityID} (hi : g.Inv)
    (hb : g.Base) (h : Occurs g e g') (he : IsPlayerEvent U sender e)
    (hs : ∃ n, g.Supplied g.queue n) : ∃ n, g'.Supplied g'.queue n := by
  obtain ⟨n, hs⟩ := hs
  cases e with
  | schedule cb =>
    cases h with
    | schedule cb hcb =>
      have hissues : cb.issues = false := he
      cases cb <;> cases hissues
      refine ⟨n, ?_⟩
      rw [queue_schedule]
      refine Supplied.cons (g := g.schedule _)
        (hs.of_le rfl (fun _ _ => le_rfl) (not_newlyFunded_of_eq rfl)) (fun _ => rfl) ?_ ?_ ?_
      · intro p hp
        cases hp
      · intro ev hev
        cases hev
      · simpa [Callback.rounds, Callback.payout?] using hs.once
  | note =>
    cases h with
    | note notes => exact ⟨n, hs.withNotes notes⟩
  | mint p dest amount => exact he.elim
  | deposit pair amountA amountB depositor => exact he.elim
  | dequeue bound => exact he.elim
  | _ => exact ⟨n, (h.framed hi trivial).supplied hi hb (h.extends hi) hs⟩

private theorem Trace.supplied {U : EntityID → Prop} {sender : EntityID} (hi : g.Inv) (hb : g.Base)
    (h : Trace (IsPlayerEvent U sender) g g') (hs : ∃ n, g.Supplied g.queue n) :
    ∃ n, g'.Supplied g'.queue n :=
  (Run.invariant (I := fun s => s.Inv ∧ s.Base ∧ ∃ n, s.Supplied s.queue n)
    (fun _ _ _ he h hstep => ⟨hstep.inv h.1, hstep.base h.1 h.2.1,
      hstep.supplied h.1 h.2.1 he h.2.2⟩) h ⟨hi, hb, hs⟩).2.2

private theorem GameBoard.Base.due_le (hb : g.Base) {cb : Callback} (hcb : cb ∈ g.due) :
    cb.time ≤ g.elapsedTime := by
  simp only [due, CallbackRegistry.dueBefore, List.mem_flatMap, List.mem_filter, Prod.exists,
    decide_eq_true_eq] at hcb
  obtain ⟨time, l, ⟨hl, hlt⟩, hmem⟩ := hcb
  have hfiled := hb.filed time l (ExtTreeMap.mem_toList_iff_getElem?_eq_some.mp hl) cb hmem
  omega

/-- After some of the callbacks that are due have run, the others are pending. -/
theorem supplied_of_due {done rest : List Callback} {n : ℕ} (hi : g.Inv) (hb : g.Base)
    (hs : g.Supplied g.queue n) (hclock : g.elapsedTime + 1 < 2 ^ 64)
    (hdue : g.due = done ++ rest) (h : CallbackRegistry.runAll done g.dequeued = .ok g') :
    ∃ n', g'.Supplied (g'.queue + (rest : Multiset Callback)) n' := by
  have hdequeue : Trace (fun _ => True) g g.dequeued := dequeued_trace fun _ => trivial
  have hpending := hs.dequeued
  rw [hdue, ← Multiset.coe_add] at hpending
  refine CallbackRegistry.runAll_supplied (hdequeue.inv hi) (Trace.base hi hb hdequeue)
    (fun cb hcb => ?_) (Nat.lt_of_succ_lt hclock) hpending h
  have hmem : cb ∈ g.due := hdue ▸ List.mem_append_left rest hcb
  exact ⟨hi.due_sound hmem, hb.due_le hmem⟩

private theorem Executes.supplied {mv : MoveEnvelope} {key : String} {sender : EntityID}
    {move : GameMove}
    (hi : g.Inv) (hb : g.Base) (h : Executes g mv key sender move g')
    (hs : ∃ n, g.Supplied g.queue n) : g'.Base ∧ ∃ n, g'.Supplied g'.queue n := by
  obtain ⟨n, hs⟩ := hs
  have htrace := h.trace (U := fun _ => False) hi (fun _ => False.elim)
  refine ⟨Trace.base hi hb htrace, ?_⟩
  obtain ⟨clocked, ticked, hclock, htime, hrun, hlog⟩ := h.stages
  have hnotes : Trace (fun _ => True) g clocked := notes_trace trivial (clockSet_eq hclock)
  have hs1 : clocked.Supplied clocked.queue n := by
    rw [clockSet_eq hclock]
    exact hs.withNotes clocked
  obtain ⟨n', hs'⟩ := supplied_of_due (hnotes.inv hi) (Trace.base hi hb hnotes) hs1 htime
    (List.append_nil _).symm hrun
  rw [Multiset.coe_nil, add_zero] at hs'
  refine ⟨n', ?_⟩
  rw [addToEventLog_eq hlog]
  exact hs'.withNotes g'

theorem Reachable.supplied (h : Reachable setup g) : g.Base ∧ ∃ n, g.Supplied g.queue n := by
  induction h with
  | new h => exact ⟨(new_supplied h).1, 0, (new_supplied h).2⟩
  | @play g g' mv key r hg hplay ih =>
    refine ⟨Trace.base hg.inv ih.1 (play_trace hg.inv hplay), ?_⟩
    rcases play_cases hplay with ⟨hnotes, _⟩ | ⟨sender, move, g1, g2, hexec, hinner, hnotes⟩
    · obtain ⟨n, hs⟩ := ih.2
      rw [hnotes]
      exact ⟨n, hs.withNotes g'⟩
    · obtain ⟨hb1, hs1⟩ := hexec.supplied hg.inv ih.1 ih.2
      have htrace := hexec.move_trace (U := fun _ => False) hg.inv (fun _ => False.elim) hinner
      obtain ⟨n, hs2⟩ := Trace.supplied (hexec.inv hg.inv) hb1 htrace hs1
      rw [hnotes]
      exact ⟨n, hs2.withNotes g'⟩

theorem Stage.supplied {origin : GameBoard} (h : Stage setup origin g) :
    ∃ n, g.Supplied g.queue n := by
  cases h with
  | between h => exact h.supplied.2
  | during h hexec => exact (hexec.supplied h.inv h.supplied.1 h.supplied.2).2

theorem Stage.reserves_lt {origin : GameBoard} {pair : TradingPairID}
    {m : ConstantFunctionMarketMakerPair} (h : Stage setup origin g)
    (hm : g.markets[pair]? = some m) :
    m.reserveA < 2 ^ 84 ∧ m.reserveB < 2 ^ 84 ∧ m.reserveA * m.reserveB < 2 ^ 101 := by
  have hi := h.inv
  have hs := hi.markets pair m hm
  obtain ⟨n, hsupplied⟩ := h.supplied
  by_cases hzero : m.reserveA = 0
  · rw [hs.both.mp hzero, hzero]
    norm_num
  obtain ⟨q, hq, hdirection⟩ := hsupplied.funded pair m hm (Nat.pos_of_ne_zero hzero)
  have hmaterial := hsupplied.material_le q hq
  have hbitcoin := hsupplied.bitcoin_le
  have hrounds := hsupplied.rounds_le
  have hle (p : TokenPointer) : g.balance p m.id ≤ g.total p :=
    TokenRegistry.balance_le_total hi.tokens
  have hlt1 : g.balance q m.id < 2 ^ 17 := by
    have := hle q
    omega
  have hlt2 : g.balance g.bitcoinTokenId m.id < 2 ^ 84 := by
    have := hle g.bitcoinTokenId
    omega
  have hproduct := Nat.mul_lt_mul'' hlt1 hlt2
  rw [hs.reserveA_eq, hs.reserveB_eq]
  rcases hdirection with ⟨rfl, hB⟩ | ⟨rfl, hA⟩
  · rw [← hB]
    exact ⟨hlt1.trans (by norm_num), hlt2, by norm_num at hproduct ⊢; exact hproduct⟩
  · rw [← hA, Nat.mul_comm]
    exact ⟨hlt2, hlt1.trans (by norm_num), by norm_num at hproduct ⊢; exact hproduct⟩

end JudicaVM
