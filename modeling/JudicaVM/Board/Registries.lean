import JudicaVM.Board.Schedule

/-!
# Ids and registries

Every id is given out once, producers included, and the registries of tokens, NFTs, plants and
markets only grow: whatever is inserted is inserted under a key that is not there yet.
-/

namespace JudicaVM

open Checked Std OrderedMap Transition TimerQueue GameBoard

variable {setup : GameSetup} {g g' : GameBoard} {e : Event} {cb : Callback} {cbs : List Callback}
  {mv : MoveEnvelope} {key : String} {r : Except MoveRejectReason Unit}

/-- The ids of the producers among some callbacks. -/
def producerIds (s : Multiset Callback) : Multiset EntityID :=
  s.filterMap fun cb => cb.producer?.map (·.id)

@[simp] theorem producerIds_zero : producerIds 0 = 0 := rfl

private theorem producerIds_add (s t : Multiset Callback) :
    producerIds (s + t) = producerIds s + producerIds t :=
  Multiset.filterMap_add _ _ _

private theorem producerIds_singleton (cb : Callback) :
    producerIds {cb} = ((cb.producer?.map (·.id)).toList : Multiset EntityID) := by
  cases cb <;> rfl

private theorem producerIds_eq_zero {s : Multiset Callback} (h : ∀ cb ∈ s, cb.issues = false) :
    producerIds s = 0 := by
  apply Multiset.eq_zero_of_forall_notMem
  intro i hmem
  obtain ⟨cb, hcb, hid⟩ := (Multiset.mem_filterMap _ _).mp hmem
  have hissues := h cb hcb
  cases hp : cb.producer? with
  | none =>
    rw [hp] at hid
    cases hid
  | some p => cases cb <;> simp_all [Callback.issues, Callback.producer?]

private theorem GameBoard.Passes.producerIds {l : List Callback} (h : g.Passes g' l) :
    producerIds g'.queue = producerIds (l : Multiset Callback) + producerIds g.queue := by
  rw [queue, h, bag_foldl_schedule, producerIds_add]
  rfl

private theorem Callback.action_producerIds (hi : g.Inv) (hb : g.Base) (hcb : g.CallbackSound cb)
    (h : cb.action g = .ok g') :
    producerIds g'.queue ≤ producerIds (cb ::ₘ g.queue) := by
  obtain ⟨next, hpasses, hall⟩ := Callback.action_repeats hi hb hcb h
  rw [hpasses.producerIds, ← Multiset.singleton_add, producerIds_add]
  apply Multiset.add_le_add_right
  cases next with
  | none => exact Multiset.zero_le _
  | some c =>
    have hid := (hall c rfl).id
    show producerIds {c} ≤ producerIds {cb}
    rw [producerIds_singleton, producerIds_singleton, hid]

private theorem CallbackRegistry.runAll_producerIds (hi : g.Inv) (hb : g.Base)
    (hcbs : ∀ cb ∈ cbs, g.CallbackSound cb) (h : runAll cbs g = .ok g') :
    producerIds g'.queue ≤ producerIds (g.queue + (cbs : Multiset Callback)) := by
  induction cbs generalizing g with
  | nil =>
    cases h
    rw [Multiset.coe_nil, add_zero]
  | cons cb cbs ih =>
    simp only [runAll, bind_eq_ok_iff] at h
    obtain ⟨g1, haction, h⟩ := h
    have hsound := hcbs cb List.mem_cons_self
    have htrace := Callback.action_trace (U := fun _ => False) hi hsound (fun _ => False.elim)
      haction
    have hfirst := Callback.action_producerIds hi hb hsound haction
    have hrest := ih (htrace.inv hi) (Trace.base hi hb htrace)
      (fun c hc => (htrace.extends hi).callbackSound (hcbs c (List.mem_cons_of_mem _ hc))) h
    rw [producerIds_add] at hrest
    have hboth := hrest.trans (Multiset.add_le_add_right hfirst)
    rwa [← producerIds_add, Multiset.cons_add, ← Multiset.add_cons] at hboth

private theorem play_producerIds (h : Reachable setup g) (hplay : g.play mv key = .ok (r, g')) :
    producerIds g'.queue ≤ producerIds g.queue := by
  by_cases hr : ∃ sender, g.Reports mv key sender
  · obtain ⟨sender, hr⟩ := hr
    obtain ⟨clocked, ticked, l, hclock, hrun, hl, hissues⟩ := hr.round h.inv hplay
    have hnotes : Trace (fun _ => True) g clocked := notes_trace trivial (clockSet_eq hclock)
    have hdequeue : Trace (fun _ => True) clocked clocked.dequeued := dequeued_trace fun _ => trivial
    have hi := hnotes.inv h.inv
    have hb := Trace.base h.inv h.supplied.1 hnotes
    simp only [CallbackRegistry.run, bind_eq_ok_iff, add_eq_ok_iff] at hrun
    obtain ⟨_, ⟨_, rfl⟩, hrun⟩ := hrun
    have hticked := CallbackRegistry.runAll_producerIds (hdequeue.inv hi)
      (Trace.base hi hb hdequeue) (fun cb hcb => hi.due_sound hcb) hrun
    have hqueue : clocked.queue = g.queue := by
      rw [clockSet_eq hclock]
      rfl
    rw [hl.producerIds, producerIds_eq_zero hissues, zero_add]
    rwa [queue_dequeued, hqueue] at hticked
  · have hnone : ∀ sender, ¬ g.Reports mv key sender := fun sender hs => hr ⟨sender, hs⟩
    rw [queue, play_callbacks hnone hplay]
    exact le_rfl

private theorem addProducer_producerIds {callback : Producer → Callback} {hashAsset : TokenPointer}
    {adjustsEvery : ℕ} (hcallback : ∀ p, (callback p).producer? = some p)
    (h : addProducer g callback hashAsset adjustsEvery = .ok g') :
    g'.alloc = g.alloc + 1 ∧ producerIds g'.queue = (g.alloc + 1) ::ₘ producerIds g.queue := by
  simp only [addProducer, EntityIDAllocator.make, bind_eq_ok_iff, add_eq_ok_iff, pure_eq_ok,
    Except.ok.injEq] at h
  obtain ⟨_, ⟨_, rfl⟩, rfl⟩ := h
  refine ⟨rfl, ?_⟩
  rw [queue_schedule, ← Multiset.singleton_add, producerIds_add, producerIds_singleton, hcallback]
  rfl

private theorem new_producerIds (h : GameBoard.new setup = .ok g) :
    (producerIds g.queue).Nodup := by
  obtain ⟨b, g5, g6, g7, g8, hempty, h5, h6, h7, h8, hlast⟩ := new_addProducers h
  obtain ⟨ha5, hp5⟩ := addProducer_producerIds (fun _ => rfl) h5
  obtain ⟨ha6, hp6⟩ := addProducer_producerIds (fun _ => rfl) h6
  obtain ⟨ha7, hp7⟩ := addProducer_producerIds (fun _ => rfl) h7
  obtain ⟨_, hp8⟩ := addProducer_producerIds (fun _ => rfl) h8
  have hfirst : producerIds (b.schedule firstPayout).queue = 0 := by
    have hqueue : b.queue = 0 := by rw [queue, hempty, bag_empty]
    rw [queue_schedule, hqueue]
    rfl
  have hqueue : g.queue = g8.queue := congrArg bag hlast
  rw [hqueue, hp8, hp7, hp6, hp5, hfirst, ha7, ha6, ha5]
  simp
  omega

/-- The ids of the pending producers. -/
def GameBoard.producers (g : GameBoard) : Multiset EntityID := producerIds g.queue

private theorem Reachable.producers_nodup (h : Reachable setup g) : g.producers.Nodup := by
  induction h with
  | new hnew => exact new_producerIds hnew
  | play hg hplay ih => exact Multiset.nodup_of_le (play_producerIds hg hplay) ih

private theorem GameBoard.Inv.of_mem_producers {i : EntityID} (hi : g.Inv) (h : i ∈ g.producers) :
    i ∉ g.entityIds ∧ i ≤ g.alloc := by
  simp only [producers, producerIds, Multiset.mem_filterMap, Option.map_eq_some_iff] at h
  obtain ⟨cb, hcb, p, hp, rfl⟩ := h
  have hsound := (hi.callbacks cb (mem_queue_iff.mp hcb)).producer p hp
  exact ⟨hsound.own_id, hsound.le_alloc⟩

/-- Every id is in use once, and none exceeds the counter of the allocator. -/
structure GameBoard.UniqueIds (g : GameBoard) : Prop where
  nodup : (g.entityIds + g.producers).Nodup
  le_alloc : ∀ i ∈ g.entityIds + g.producers, i ≤ g.alloc

private theorem Reachable.uniqueIds (h : Reachable setup g) : g.UniqueIds := by
  have hi := h.inv
  constructor
  · refine Multiset.nodup_add.mpr ⟨hi.ids_nodup, h.producers_nodup, ?_⟩
    exact Multiset.disjoint_right.mpr fun hmem => (hi.of_mem_producers hmem).1
  · intro i hmem
    rcases Multiset.mem_add.mp hmem with hmem | hmem
    · exact hi.ids_le i hmem
    · exact (hi.of_mem_producers hmem).2

/-- What is registered on the first board is registered on the second one under the same id. -/
structure GameBoard.Grows (g g' : GameBoard) : Prop where
  users : ∀ (i : EntityID) u, g.users[i]? = some u → g'.users[i]? = some u
  tokens : ∀ (p : TokenPointer) t, g.tokens.tokens[p]? = some t →
    ∃ t', g'.tokens.tokens[p]? = some t' ∧ t'.this = t.this
  nfts : ∀ (i : NftPtr) n, g.nfts.nfts[i]? = some n →
    ∃ n', g'.nfts.nfts[i]? = some n' ∧ n'.nftId = n.nftId
  plants : ∀ (i : NftPtr) p, g.nfts.powerPlants[i]? = some p → g'.nfts.powerPlants[i]? = some p
  markets : ∀ (pair : TradingPairID) m, g.markets[pair]? = some m →
    ∃ m', g'.markets[pair]? = some m' ∧ m'.id = m.id ∧ m'.lp = m.lp

theorem GameBoard.Inv.not_plant (hi : g.Inv) {i : NftPtr} (hlt : g.alloc < i) :
    g.nfts.powerPlants[i]? = none := by
  cases hp : g.nfts.powerPlants[i]? with
  | none => rfl
  | some p => exact absurd (hi.plants i p hp).2 (hi.not_isNft hlt)

private theorem Occurs.keeps_plants (h : Occurs g e g') (hi : g.Inv) (i : NftPtr) (p : PowerPlant)
    (hp : g.nfts.powerPlants[i]? = some p) : g'.nfts.powerPlants[i]? = some p := by
  cases h with
  | newNft nft plant hroom hid howner hplant =>
    have hne : nft.nftId ≠ i := by
      rintro rfl
      rw [hid, hi.not_plant (Nat.lt_succ_self _)] at hp
      cases hp
    cases plant with
    | none => exact hp
    | some plant =>
      show (g.nfts.powerPlants.insert nft.nftId plant)[i]? = some p
      rw [OrderedMap.getElem?_insert, if_neg hne]
      exact hp
  | _ => exact hp

private theorem Trace.keeps_plants {P : Event → Prop} (h : Trace P g g') (hi : g.Inv) :
    ∀ (i : NftPtr) p, g.nfts.powerPlants[i]? = some p → g'.nfts.powerPlants[i]? = some p :=
  Run.relates (R := fun s s' => ∀ (i : NftPtr) p, s.nfts.powerPlants[i]? = some p →
      s'.nfts.powerPlants[i]? = some p) (fun _ _ _ _ hi hs => hs.inv hi) (fun _ _ _ hp => hp)
    (fun _ _ _ h h' i p hp => h' i p (h i p hp)) (fun _ _ _ _ hi hs => hs.keeps_plants hi) h hi

theorem Trace.grows {P : Event → Prop} (h : Trace P g g') (hi : g.Inv) : g.Grows g' where
  users := (h.extends hi).users
  tokens p t ht := by
    have hhas : g.Has p := Option.isSome_iff_exists.mpr ⟨t, ht⟩
    obtain ⟨t', ht'⟩ := Option.isSome_iff_exists.mp ((h.extends hi).has p hhas)
    exact ⟨t', ht', ((h.inv hi).tokens p t' ht').2.1.trans (hi.tokens p t ht).2.1.symm⟩
  nfts i n hn := by
    have hnft : g.IsNft i := Option.isSome_iff_exists.mpr ⟨n, hn⟩
    obtain ⟨n', hn'⟩ := Option.isSome_iff_exists.mp ((h.extends hi).nfts i hnft)
    exact ⟨n', hn', ((h.inv hi).nfts i n' hn').1.trans (hi.nfts i n hn).1.symm⟩
  plants := h.keeps_plants hi
  markets := (h.extends hi).markets

/-- The keys under which an event inserts into a registry are not there yet. -/
def Event.InsertsFresh (g : GameBoard) : Event → Prop
  | .openMarket pair => g.markets[pair]? = none ∧ g.tokens.tokens[g.alloc + 1]? = none
  | .newNft nft _ => g.nfts.nfts[nft.nftId]? = none ∧ g.nfts.powerPlants[nft.nftId]? = none
  | .addUser player => g.users[g.alloc + 1]? = none ∧ g.usersByKey[player]? = none
  | _ => True

/-- A run of events of a kind, each of which inserts under keys that are not there yet. -/
def FreshRun (P : Event → Prop) : GameBoard → GameBoard → Prop :=
  Run (fun g e g' => Occurs g e g' ∧ e.InsertsFresh g) P

private theorem Occurs.insertsFresh (h : Occurs g e g') (hi : g.Inv)
    (hkeys : ∀ player, e = .addUser player → g.usersByKey[player]? = none) : e.InsertsFresh g := by
  have hlt := Nat.lt_succ_self g.alloc
  cases h with
  | openMarket pair shares hnone hnormal hA hB hroom =>
    exact ⟨hnone, Option.not_isSome_iff_eq_none.mp (hi.not_has hlt)⟩
  | newNft nft plant hroom hid howner hplant =>
    show _ ∧ _
    rw [hid]
    exact ⟨Option.not_isSome_iff_eq_none.mp (hi.not_isNft hlt), hi.not_plant hlt⟩
  | addUser player hroom =>
    exact ⟨Option.not_isSome_iff_eq_none.mp (hi.not_isUser hlt), hkeys player rfl⟩
  | _ => trivial

private theorem Trace.freshRun {P : Event → Prop} (h : Trace P g g') (hi : g.Inv)
    (hP : ∀ player, ¬ P (.addUser player)) : FreshRun P g g' := by
  induction h with
  | refl => exact Run.refl
  | tail hrun hstep ih =>
    obtain ⟨e, he, hstep⟩ := hstep
    have hinv := Trace.inv (P := P) hrun hi
    exact ih.tail he ⟨hstep, hstep.insertsFresh hinv fun player heq => absurd (heq ▸ he) (hP player)⟩

private theorem addPlayer_freshRun {startAmount : ℕ} {player : String} (hi : g.Inv)
    (hnew : g.usersByKey[player]? = none) (h : addPlayer startAmount g player = .ok g') :
    FreshRun IsSetupEvent g g' := by
  obtain ⟨hadd, hmints⟩ := addPlayer_stages hi h
  have hfirst : FreshRun IsSetupEvent g (g.addUser player) := by
    apply Run.single (e := .addUser player) trivial
    refine ⟨hadd, hadd.insertsFresh hi fun k heq => ?_⟩
    cases heq
    exact hnew
  exact hfirst.trans ((Trace.freshRun hmints (hadd.inv hi) fun _ h => h).mono
    fun _ => IsPostInitEvent.isSetupEvent)

private theorem addPlayers_freshRun {startAmount : ℕ} {players : List String} (hi : g.Inv)
    (hnodup : players.Nodup) (hnew : ∀ k ∈ players, g.usersByKey[k]? = none)
    (h : players.foldlM (addPlayer startAmount) g = .ok g') : FreshRun IsSetupEvent g g' := by
  induction players generalizing g with
  | nil =>
    cases h
    exact Run.refl
  | cons player players ih =>
    simp only [List.foldlM_cons, bind_eq_ok_iff] at h
    obtain ⟨g1, hfirst, h⟩ := h
    obtain ⟨hnot, hnodup⟩ := List.nodup_cons.mp hnodup
    have hkeys := (addPlayer_effect hi hfirst).2
    have hnew1 (k : String) (hk : k ∈ players) : g1.usersByKey[k]? = none := by
      have hne : player ≠ k := fun heq => hnot (heq ▸ hk)
      rw [hkeys, OrderedMap.getElem?_insert, if_neg hne]
      exact hnew k (List.mem_cons_of_mem _ hk)
    have hstep := addPlayer_freshRun hi (hnew player List.mem_cons_self) hfirst
    exact hstep.trans (ih ((addPlayer_trace hi hfirst).inv hi) hnodup hnew1 h)

private theorem new_freshRun (h : GameBoard.new setup = .ok g) :
    ∃ g0, blank = .ok g0 ∧ g0.tokens.tokens.size = 6 ∧
      FreshRun IsSetupEvent { g0 with finishTime := setup.finishTime } g := by
  simp only [GameBoard.new, setupGame, bind_eq_ok_iff] at h
  obtain ⟨g0, hblank, g1, hplayers, hpost⟩ := h
  obtain ⟨hi0, hm0⟩ := blank_spec hblank
  have hi := hi0.setFinishTime setup.finishTime
  have hm : ({ g0 with finishTime := setup.finishTime } : GameBoard).Materials :=
    ⟨hm0.steel, hm0.silicon, hm0.concrete, hm0.asic, hm0.boards⟩
  have hempty : g0.usersByKey = ∅ := by
    cases hblank
    rfl
  have hsize : returns blank (fun b => b.tokens.tokens.size = 6) := by decide +kernel
  obtain ⟨b, hb, hsix⟩ := returns_iff.mp hsize
  cases hblank.symm.trans hb
  have htrace := addPlayers_trace hi hplayers
  have hi1 := htrace.inv hi
  have hfirst := addPlayers_freshRun hi (sortedPlayers_nodup _) (fun k _ => by simp [hempty]) hplayers
  have hsecond := Trace.freshRun (postInit_trace hi1 (hm.mono (htrace.extends hi)) hpost) hi1
    fun _ h => h
  exact ⟨g0, hblank, of_decide_eq_true hsix,
    hfirst.trans (hsecond.mono fun _ => IsPostInitEvent.isSetupEvent)⟩

/-- Ids are unique, registries only grow, and no insertion meets a key that is there already. -/
theorem registries_grow (h : Reachable setup g) :
    g.UniqueIds ∧ (∀ g', Later g g' → g.Grows g') ∧
      (∃ g0 g1, blank = .ok g0 ∧ g0.tokens.tokens.size = 6 ∧ GameBoard.new setup = .ok g1 ∧
        FreshRun IsSetupEvent { g0 with finishTime := setup.finishTime } g1 ∧
        FreshRun IsPlayEvent g1 g) ∧
      ∀ mv key r g', g.play mv key = .ok (r, g') → FreshRun IsPlayEvent g g' := by
  have hplay {b b' : GameBoard} {mv key r} (hb : Reachable setup b)
      (hplay : b.play mv key = .ok (r, b')) : FreshRun IsPlayEvent b b' :=
    (play_events hb.inv hplay).freshRun hb.inv fun _ h => h
  refine ⟨h.uniqueIds, fun g' hl => (hl.trace h.inv).grows h.inv, ?_, fun mv key r g' => hplay h⟩
  induction h with
  | new hnew =>
    obtain ⟨g0, hblank, hsize, hrun⟩ := new_freshRun hnew
    exact ⟨g0, _, hblank, hsize, hnew, hrun, Run.refl⟩
  | play hg hstep ih =>
    obtain ⟨g0, g1, hblank, hsize, hnew, hrun, hrest⟩ := ih
    exact ⟨g0, g1, hblank, hsize, hnew, hrun, hrest.trans (hplay hg hstep)⟩

/-- A game after its first move. -/
theorem registries_grow_opening : ∃ g, Reachable twoPlayers g ∧ g.UniqueIds := by
  obtain ⟨g, g', hnew, hrun, _⟩ := twoPlayers_starts
  have hg : Reachable twoPlayers g' := (Reachable.new hnew).later (later_of_playAll hrun)
  exact ⟨g', hg, (registries_grow hg).1⟩

end JudicaVM
