import JudicaVM.Board.Play

/-!
# New boards

A board that `GameBoard::new` returns satisfies the invariant: the six tokens do, and the rest of
the construction is a run of events.
-/

namespace JudicaVM

open Checked Std OrderedMap Transition

namespace GameBoard

variable {g g' : GameBoard}

/-- The tokens that the construction refers to. -/
structure Materials (g : GameBoard) : Prop where
  steel : g.Has g.steelTokenId ∧ g.steelTokenId ≠ g.bitcoinTokenId
  silicon : g.Has g.siliconTokenId ∧ g.siliconTokenId ≠ g.bitcoinTokenId
  concrete : g.Has g.concreteTokenId ∧ g.concreteTokenId ≠ g.bitcoinTokenId
  asic : g.Has g.asicTokenId ∧ g.asicTokenId ≠ g.bitcoinTokenId
  boards : g.tokens.hashboards.keys.head? = some g.asicTokenId

theorem Materials.mono (h : g.Materials) (hext : g.Extends g') : g'.Materials := by
  have hsteel := congrArg Constants.steelTokenId hext.constants_eq
  have hsilicon := congrArg Constants.siliconTokenId hext.constants_eq
  have hconcrete := congrArg Constants.concreteTokenId hext.constants_eq
  have hasic := congrArg Constants.asicTokenId hext.constants_eq
  simp only [constants] at hsteel hsilicon hconcrete hasic
  refine ⟨?_, ?_, ?_, ?_, ?_⟩
  · rw [hsteel, hext.bitcoin_eq]
    exact h.steel.imp_left (hext.has _)
  · rw [hsilicon, hext.bitcoin_eq]
    exact h.silicon.imp_left (hext.has _)
  · rw [hconcrete, hext.bitcoin_eq]
    exact h.concrete.imp_left (hext.has _)
  · rw [hasic, hext.bitcoin_eq]
    exact h.asic.imp_left (hext.has _)
  · rw [hext.boards_eq, hasic]
    exact h.boards

/-- A registry all of whose tokens nobody holds yet. -/
def Unissued (r : TokenRegistry) : Prop :=
  r.Sound ∧ ∀ (p : TokenPointer) t, r.tokens[p]? = some t → t.total = 0

private theorem unissued_newToken {r : TokenRegistry} (this : EntityID) (nickname : String)
    (h : Unissued r) : Unissued (r.newToken (.empty this nickname)).2 := by
  refine ⟨TokenRegistry.newToken_sound h.1 (TokenBase.empty_sound _ _) rfl, fun p t ht => ?_⟩
  rw [TokenRegistry.newToken_getElem?] at ht
  split at ht
  · cases ht
    rfl
  · exact h.2 p t ht

private theorem unissued_empty : Unissued { tokens := ∅, hashboards := ∅ } :=
  ⟨fun p t h => by simp at h, fun p t h => by simp at h⟩

theorem blank_unissued (h : blank = .ok g) : Unissued g.tokens := by
  have hchain := unissued_newToken 0xc0de0004 "ASIC Gen 1"
    (unissued_newToken 0xc0de0006 "Silicon (10kg)"
    (unissued_newToken 0xc0de0005 "Steel (1mt)"
    (unissued_newToken 0xc0de0003 "Concrete (1mt)"
    (unissued_newToken 0xc0de0002 "Real World Sats"
    (unissued_newToken 0xc0de0001 "Virtual Sats" unissued_empty)))))
  cases h
  exact ⟨fun p t => hchain.1 p t, fun p t => hchain.2 p t⟩

theorem Unissued.total_eq {r : TokenRegistry} (h : Unissued r) (p : TokenPointer) :
    r.total p = 0 := by
  cases ht : r.tokens[p]? with
  | none => simp [TokenRegistry.total, ht]
  | some t =>
    rw [TokenRegistry.total_of_some ht]
    exact h.2 p t ht

theorem blank_spec (h : blank = .ok g) : g.Inv ∧ g.Materials := by
  have hunissued := blank_unissued h
  have hids : g.entityIds.Nodup ∧ ∀ i ∈ g.entityIds, i ≤ g.alloc := by
    cases h
    decide +kernel
  have hbills : ∀ kind bill, g.plantPrices kind = some bill →
      ∀ x ∈ bill, g.tokens.tokens[x.1]?.isSome := by
    cases h
    intro kind bill hbill
    cases kind <;> cases hbill <;> decide +kernel
  have hmaterials : g.Materials := by
    cases h
    refine ⟨?_, ?_, ?_, ?_, ?_⟩ <;> decide +kernel
  have hempty : g.users = ∅ ∧ g.usersByKey = ∅ ∧ g.nfts = { nfts := ∅, powerPlants := ∅ } ∧
      g.markets = ∅ ∧ g.callbacks = ∅ := by
    cases h
    exact ⟨rfl, rfl, rfl, rfl, rfl⟩
  obtain ⟨husers, hkeys, hnfts, hmarkets, hcallbacks⟩ := hempty
  have hboards : ∀ (p : TokenPointer) d, g.tokens.hashboards[p]? = some d → p = g.asicTokenId := by
    cases h
    intro p d hd
    simp only [OrderedMap.getElem?_insert] at hd
    split at hd
    · exact ‹_ = p›.symm
    · simp at hd
  have hbtc : g.Has g.bitcoinTokenId := by
    cases h
    decide +kernel
  refine ⟨⟨hunissued.1, fun p i hpos => ?_, hids.1, hids.2, ?_, ?_, ?_, ?_, ?_, hbtc, hbills, ?_⟩,
    hmaterials⟩
  · have hle : g.tokens.balance p i ≤ g.tokens.total p :=
      TokenRegistry.balance_le_total hunissued.1
    exact absurd hpos (Nat.not_lt_of_le (hle.trans_eq (hunissued.total_eq p)))
  · intro pair m hm
    simp [hmarkets] at hm
  · intro i n hn
    simp [hnfts] at hn
  · intro i p hp
    simp [hnfts] at hp
  · intro k i hk
    simp [hkeys] at hk
  · rintro cb ⟨time, l, hl, _⟩
    simp [hcallbacks] at hl
  · intro p d hd
    exact hboards p d hd ▸ hmaterials.asic.1

/-- The events of the construction of a board. -/
def IsSetupEvent : Event → Prop
  | .openMarket _ => True
  | .mint _ _ _ => True
  | .newNft _ _ => True
  | .schedule _ => True
  | .addUser _ => True
  | .drawId => True
  | _ => False

/-- The events of `post_init`, which adds no user. -/
def IsPostInitEvent : Event → Prop
  | .addUser _ => False
  | e => IsSetupEvent e

theorem IsPostInitEvent.isSetupEvent {e : Event} (h : IsPostInitEvent e) : IsSetupEvent e := by
  cases e <;> simp_all [IsPostInitEvent, IsSetupEvent]

theorem addPlayer_stages {startAmount : ℕ} {player : String} (hi : g.Inv)
    (h : addPlayer startAmount g player = .ok g') :
    Occurs g (.addUser player) (g.addUser player) ∧
      Trace IsPostInitEvent (g.addUser player) g' := by
  simp only [addPlayer, EntityIDAllocator.make, bind_eq_ok_iff, add_eq_ok_iff, pure_eq_ok,
    Except.ok.injEq] at h
  obtain ⟨_, ⟨hroom, rfl⟩, t1, hmint1, t2, hmint2, rfl⟩ := h
  have hadd : Occurs g (.addUser player) (g.addUser player) := .addUser g player hroom
  have hi1 := hadd.inv hi
  have huser : (g.addUser player).IsUser (g.alloc + 1) := by simp [IsUser, addUser]
  have hfirst : Trace IsPostInitEvent (g.addUser player) ((g.addUser player).withTokens t1) :=
    mint_trace hi1 (hi1.party_of_user huser) trivial hmint1
  have hi2 := hfirst.inv hi1
  have huser2 := (hfirst.extends hi1).isUser huser
  have hsecond : Trace IsPostInitEvent ((g.addUser player).withTokens t1)
      ((g.addUser player).withTokens t2) :=
    mint_trace hi2 (hi2.party_of_user huser2) trivial hmint2
  exact ⟨hadd, hfirst.trans hsecond⟩

theorem addPlayer_trace {startAmount : ℕ} {player : String} (hi : g.Inv)
    (h : addPlayer startAmount g player = .ok g') : Trace IsSetupEvent g g' := by
  obtain ⟨hadd, hmints⟩ := addPlayer_stages hi h
  have hfirst : Trace IsSetupEvent g (g.addUser player) :=
    Run.single (e := .addUser player) trivial hadd
  exact hfirst.trans (hmints.mono fun _ => IsPostInitEvent.isSetupEvent)

theorem addPlayers_trace {startAmount : ℕ} {players : List String} (hi : g.Inv)
    (h : players.foldlM (addPlayer startAmount) g = .ok g') : Trace IsSetupEvent g g' := by
  induction players generalizing g with
  | nil =>
    cases h
    exact Run.refl
  | cons player players ih =>
    simp only [List.foldlM_cons, bind_eq_ok_iff] at h
    obtain ⟨g1, hfirst, h⟩ := h
    have hstep := addPlayer_trace hi hfirst
    exact hstep.trans (ih (hstep.inv hi) h)

theorem makeMarket_trace {id : TokenPointer} (h : makeMarket g id = .ok g') :
    Trace IsPostInitEvent g g' := by
  simp only [makeMarket, bind_eq_ok_iff, pure_eq_ok, Except.ok.injEq] at h
  obtain ⟨⟨m, g1⟩, hensure, rfl⟩ := h
  obtain ⟨_, rfl | hopen⟩ := ConstantFunctionMarketMakerPair.ensure_cases hensure
  · exact Run.refl
  · exact Run.single (e := .openMarket _) trivial hopen

theorem addProducer_trace {callback : Producer → Callback} {hashAsset : TokenPointer}
    {adjustsEvery : ℕ} (hi : g.Inv) (hhas : g.Has hashAsset) (hne : hashAsset ≠ g.bitcoinTokenId)
    (hcallback : ∀ q, (callback q).producer? = some q) (hlockup : ∀ q, (callback q).lockup? = none)
    (h : addProducer g callback hashAsset adjustsEvery = .ok g') :
    Trace IsPostInitEvent g g' := by
  simp only [addProducer, EntityIDAllocator.make, bind_eq_ok_iff, add_eq_ok_iff, pure_eq_ok,
    Except.ok.injEq] at h
  obtain ⟨_, ⟨hroom, rfl⟩, rfl⟩ := h
  have hfirst : Trace IsPostInitEvent g { g with alloc := g.alloc + 1 } :=
    Run.single (e := .drawId) trivial (.drawId g hroom)
  refine hfirst.tail (e := .schedule (callback _)) trivial
    (.schedule _ _ ⟨fun q hq => ?_, fun l hl => ?_⟩)
  · rw [hcallback, Option.some.injEq] at hq
    subst hq
    exact ⟨le_rfl, hi.not_mem_entityIds (Nat.lt_succ_self _), hhas, hi.bitcoin, hne⟩
  · rw [hlockup] at hl
    cases hl

theorem addStartPlant_trace {i : ℕ} {player : EntityID} (hi : g.Inv) (hplayer : g.IsUser player)
    (h : addStartPlant g i player = .ok g') : Trace IsPostInitEvent g g' := by
  simp only [addStartPlant, EntityIDAllocator.make, bind_eq_ok_iff, add_eq_ok_iff] at h
  obtain ⟨_, ⟨hroom, rfl⟩, h⟩ := h
  split at h
  · cases h
  · rename_i coordinates kind _
    simp only [PowerPlant.new, bind_eq_ok_iff, pure_eq_ok, Except.ok.injEq] at h
    obtain ⟨_, ⟨watts, _, rfl⟩, tokens, hmint, rfl⟩ := h
    let nft : BaseNFT := { owner := player, nftId := g.alloc + 1, transferCount := 0 }
    let plant : PowerPlant := { id := g.alloc + 1, plantType := kind, watts, coordinates }
    have hnew : Occurs g (.newNft nft (some plant)) (g.addNft nft (some plant)) :=
      .newNft g nft (some plant) hroom rfl hplayer (fun p hp => by cases hp; rfl)
    have hi1 := hnew.inv hi
    have hparty := hi1.party_of_nft (i := g.alloc + 1) (by simp [IsNft, addNft, nft])
    have hfirst : Trace IsPostInitEvent g (g.addNft nft (some plant)) := Run.single (e := .newNft nft (some plant)) trivial hnew
    have hsecond : Trace IsPostInitEvent (g.addNft nft (some plant))
        ((g.addNft nft (some plant)).withTokens tokens) := mint_trace hi1 hparty trivial hmint
    have htrace := hfirst.trans hsecond
    rw [← addPlant_eq_addNft _ _ hi rfl] at htrace
    exact htrace

theorem addStartPlants_trace {players : List EntityID} {i : ℕ} (hi : g.Inv)
    (hplayers : ∀ p ∈ players, g.IsUser p) (h : addStartPlants players i g = .ok g') :
    Trace IsPostInitEvent g g' := by
  induction players generalizing g i with
  | nil =>
    cases h
    exact Run.refl
  | cons player players ih =>
    simp only [addStartPlants, bind_eq_ok_iff] at h
    obtain ⟨g1, hfirst, h⟩ := h
    have hstep := addStartPlant_trace hi (hplayers player List.mem_cons_self) hfirst
    have hext := hstep.extends hi
    exact hstep.trans (ih (hstep.inv hi)
      (fun p hp => hext.isUser (hplayers p (List.mem_cons_of_mem _ hp))) h)

private theorem mem_sortedIds {ids : List EntityID} {i : EntityID}
    (h : i ∈ (ids.insertionSort (· ≤ ·)).destutter (· ≠ ·)) : i ∈ ids :=
  (List.mem_insertionSort _).mp ((List.destutter_sublist _ _).subset h)

/-- The ids of the users, as `post_init` lists them. -/
def sortedIds (g : GameBoard) : List EntityID :=
  ((g.usersByKey.toList.map (·.2)).insertionSort (· ≤ ·)).destutter (· ≠ ·)

theorem isUser_of_mem_sortedIds {i : EntityID} (hi : g.Inv) (h : i ∈ g.sortedIds) :
    g.IsUser i := by
  have hmem := mem_sortedIds h
  simp only [List.mem_map, Prod.exists, exists_eq_right] at hmem
  obtain ⟨key, hkey⟩ := hmem
  exact isUser_of_key hi (ExtTreeMap.mem_toList_iff_getElem?_eq_some.mp hkey)

/-- `post_init` opens four markets, endows the root user, schedules five callbacks and then sets up
the plants. -/
theorem postInit_stages (hi : g.Inv) (hm : g.Materials) (h : postInit g = .ok g') :
    ∃ g1 g2 g3 g4 t1 t2 g5 g6 g7 g8,
      (makeMarket g g.steelTokenId = .ok g1 ∧ makeMarket g1 g1.siliconTokenId = .ok g2 ∧
        makeMarket g2 g2.concreteTokenId = .ok g3 ∧ makeMarket g3 g3.asicTokenId = .ok g4) ∧
      g4.tokens.mint g4.bitcoinTokenId g4.rootUser 10_000_000_000 = .ok t1 ∧
      t1.mint g4.realSatsTokenId g4.rootUser 30000 = .ok t2 ∧
      (addProducer ((g4.withTokens t2).schedule (.powerPlantEvent { time := 0, period := 11_003 }))
          .asicProducer g4.asicTokenId 10_007 = .ok g5 ∧
        addProducer g5 .steelSmelter g5.steelTokenId 5_003 = .ok g6 ∧
        addProducer g6 .siliconRefinery g6.siliconTokenId 25_013 = .ok g7 ∧
        addProducer g7 .concreteMiller g7.concreteTokenId 14_009 = .ok g8) ∧
      Trace IsPostInitEvent g g4 ∧ Trace IsPostInitEvent g4 g8 ∧
      addStartPlants g8.sortedIds 0 g8 = .ok g' := by
  simp only [postInit, bind_eq_ok_iff, unwrap_eq_ok_iff] at h
  obtain ⟨g1, h1, g2, h2, g3, h3, g4, h4, t1, hmint1, t2, hmint2, hash, hhash, g5, h5, g6, h6, g7,
    h7, g8, h8, hplants⟩ := h
  have hmarkets : Trace IsPostInitEvent g g4 :=
    (makeMarket_trace h1).trans ((makeMarket_trace h2).trans
      ((makeMarket_trace h3).trans (makeMarket_trace h4)))
  have hi4 := hmarkets.inv hi
  have hm4 := hm.mono (hmarkets.extends hi)
  have hroot {b : GameBoard} (hb : b.Inv) : b.Party b.rootUser := hb.party_of_mem (.inr (.inl rfl))
  have hmintBtc : Trace IsPostInitEvent g4 (g4.withTokens t1) :=
    mint_trace hi4 (hroot hi4) trivial hmint1
  have hmintReal : Trace IsPostInitEvent (g4.withTokens t1) (g4.withTokens t2) :=
    mint_trace (hmintBtc.inv hi4) (hroot (hmintBtc.inv hi4)) trivial hmint2
  have hpayouts : Trace IsPostInitEvent (g4.withTokens t2)
      ((g4.withTokens t2).schedule (.powerPlantEvent { time := 0, period := 11_003 })) := by
    refine Run.single (e := .schedule _) trivial
      (.schedule _ _ ⟨fun q hq => ?_, fun l hl => ?_⟩)
    · cases hq
    · cases hl
  have htrace5 : Trace IsPostInitEvent g4 _ := hmintBtc.trans (hmintReal.trans hpayouts)
  have hi5 := htrace5.inv hi4
  have hm5 := hm4.mono (htrace5.extends hi4)
  have hasic : hash = g4.asicTokenId := Option.some.inj (hhash.symm.trans hm5.boards)
  subst hasic
  have hstep5 := addProducer_trace hi5 hm5.asic.1 hm5.asic.2 (fun _ => rfl) (fun _ => rfl) h5
  have hi6 := hstep5.inv hi5
  have hm6 := hm5.mono (hstep5.extends hi5)
  have hstep6 := addProducer_trace hi6 hm6.steel.1 hm6.steel.2 (fun _ => rfl) (fun _ => rfl) h6
  have hi7 := hstep6.inv hi6
  have hm7 := hm6.mono (hstep6.extends hi6)
  have hstep7 := addProducer_trace hi7 hm7.silicon.1 hm7.silicon.2 (fun _ => rfl) (fun _ => rfl) h7
  have hi8 := hstep7.inv hi7
  have hm8 := hm7.mono (hstep7.extends hi7)
  have hstep8 := addProducer_trace hi8 hm8.concrete.1 hm8.concrete.2 (fun _ => rfl) (fun _ => rfl)
    h8
  exact ⟨g1, g2, g3, g4, t1, t2, g5, g6, g7, g8, ⟨h1, h2, h3, h4⟩, hmint1, hmint2,
    ⟨h5, h6, h7, h8⟩, hmarkets,
    htrace5.trans (hstep5.trans (hstep6.trans (hstep7.trans hstep8))), hplants⟩

theorem postInit_trace (hi : g.Inv) (hm : g.Materials) (h : postInit g = .ok g') :
    Trace IsPostInitEvent g g' := by
  obtain ⟨_, _, _, _, _, _, _, _, _, g8, _, _, _, _, hmarkets, hrest, hplants⟩ :=
    postInit_stages hi hm h
  have hi8 := hrest.inv (hmarkets.inv hi)
  exact hmarkets.trans (hrest.trans (addStartPlants_trace hi8
    (fun p hp => isUser_of_mem_sortedIds hi8 hp) hplants))

theorem Inv.setFinishTime (time : ℕ) (hi : g.Inv) :
    ({ g with finishTime := time } : GameBoard).Inv where
  tokens := hi.tokens
  holders := hi.holders
  ids_nodup := hi.ids_nodup
  ids_le := hi.ids_le
  markets pair m hm :=
    have h := hi.markets pair m hm
    ⟨h.pair_eq, h.normal, h.hasA, h.hasB, h.hasShares, h.reserveA_eq, h.reserveB_eq, h.both,
      h.distinct⟩
  nfts := hi.nfts
  plants := hi.plants
  keys := hi.keys
  callbacks cb hcb :=
    have h := hi.callbacks cb hcb
    ⟨fun p hp =>
      have hp := h.producer p hp
      ⟨hp.le_alloc, hp.own_id, hp.hasHash, hp.hasPrice, hp.distinct⟩, h.lockup⟩
  bitcoin := hi.bitcoin
  bills := hi.bills
  boards := hi.boards

theorem new_trace {setup : GameSetup} (h : GameBoard.new setup = .ok g) :
    ∃ g0, blank = .ok g0 ∧ Trace IsSetupEvent { g0 with finishTime := setup.finishTime } g := by
  simp only [GameBoard.new, setupGame, bind_eq_ok_iff] at h
  obtain ⟨g0, hblank, g1, hplayers, hpost⟩ := h
  obtain ⟨hi0, hm0⟩ := blank_spec hblank
  have hi0' := hi0.setFinishTime setup.finishTime
  have hm0' : ({ g0 with finishTime := setup.finishTime } : GameBoard).Materials :=
    ⟨hm0.steel, hm0.silicon, hm0.concrete, hm0.asic, hm0.boards⟩
  have hfirst := addPlayers_trace hi0' hplayers
  exact ⟨g0, hblank,
    hfirst.trans ((postInit_trace (hfirst.inv hi0') (hm0'.mono (hfirst.extends hi0')) hpost).mono
      fun _ => IsPostInitEvent.isSetupEvent)⟩

theorem new_inv {setup : GameSetup} (h : GameBoard.new setup = .ok g) : g.Inv := by
  obtain ⟨g0, hblank, htrace⟩ := new_trace h
  exact htrace.inv ((blank_spec hblank).1.setFinishTime _)

end GameBoard
end JudicaVM
