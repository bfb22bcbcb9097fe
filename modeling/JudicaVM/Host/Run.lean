import JudicaVM.Host.Publish

/-!
# Runs of the host

Whatever the others store, whenever the task crashes and whatever the shuffle yields, the host's
chain holds the batches that were published. What a task knows is carried from step to step by a rule
whose premises are about one change of the store, one iteration and one recovery.
-/

namespace JudicaVM

open Transition

section

variable {J : Type} {C : Crypto J} {S : Signer C} {K : BroadcastCodec J} {s s' : Store J}
  {key : XOnlyPublicKey} {published : List (List CanonicalEnvelopeHash)}

namespace Store

theorem Ready.of_tables (h : s.Ready C key) (hmessages : s'.messages = s.messages)
    (husers : s'.users = s.users) : s'.Ready C key := by
  obtain ⟨users, messages, members, subscribers⟩ := s
  obtain ⟨users', messages', members', subscribers'⟩ := s'
  obtain rfl : messages' = messages := hmessages
  obtain rfl : users' = users := husers
  obtain ⟨hlinked, hsourced, hstraight, hbounded⟩ := h
  exact ⟨⟨hlinked.ids, hlinked.hashes, hlinked.checks, hlinked.parent, hlinked.root, hlinked.step,
    hlinked.rooted⟩, ⟨hsourced.userIds, hsourced.keys, hsourced.body, hsourced.user⟩,
    ⟨hstraight.genesis, hstraight.later⟩, hbounded⟩

theorem Log.of_tables (h : s.Log C K key published) (hmessages : s'.messages = s.messages) :
    s'.Log C K key published := by
  obtain ⟨users, messages, members, subscribers⟩ := s
  obtain ⟨users', messages', members', subscribers'⟩ := s'
  obtain rfl : messages' = messages := hmessages
  exact ⟨h.heights, h.decodes, h.connected, h.links⟩

theorem addMember_messages (group : ℕ) (genesis : CanonicalEnvelopeHash) :
    (s.addMemberToChainCommitGroup group genesis).messages = s.messages := by
  unfold addMemberToChainCommitGroup
  split
  · rfl
  · split <;> rfl

theorem addMember_users (group : ℕ) (genesis : CanonicalEnvelopeHash) :
    (s.addMemberToChainCommitGroup group genesis).users = s.users := by
  unfold addMemberToChainCommitGroup
  split
  · rfl
  · split <;> rfl

private theorem Reachable.straight (h : Store.Reachable C s)
    (hzero : ∀ e, C.canonicalizedHash e ≠ .genesis) : s.Straight C := by
  have hall : s.Linked ∧ s.Sourced C ∧ s.Straight C := by
    apply h.invariant ⟨.empty, .empty, .empty⟩
    intro s ev s' hs hocc
    obtain ⟨hlinked, hsourced, hstraight⟩ := hs
    refine ⟨hlinked.occurs hocc, hsourced.occurs hocc, ?_⟩
    cases hocc with
    | user => exact hstraight.addUser _ _
    | envelope _ hchecks hnew => exact hstraight.push hlinked hchecks hnew
    | connect _ => exact hstraight.connectAll hlinked hsourced (hsourced.zeroFree hzero)
  exact hall.2.2

end Store

namespace Host

variable {h h' : Host J}

/-- A host whose chain is its genesis, before its task starts for the first time. -/
structure Initial (S : Signer C) (K : BroadcastCodec J) (h : Host J) : Prop where
  reachable : Store.Reachable C { h.store with groupMembers := [], groupSubscribers := [] }
  safe : ∀ r ∈ h.store.messages, r.body.header.Safe
  genesis : ∃ r ∈ h.store.messages, r.key = S.key ∧ r.height = 0 ∧
    (∃ m, K.decode r.body.msg = some m ∧ m.data.batch? = none) ∧
    ∀ r' ∈ h.store.messages, r'.key = S.key → r' = r
  phase : h.phase = .start
  published : h.published = []
  saved : h.saved = .initial

theorem Initial.ready (hinit : h.Initial S K) (hzero : ∀ e, C.canonicalizedHash e ≠ .genesis) :
    h.store.Ready C S.key := by
  have hready : Store.Ready C S.key
      { h.store with groupMembers := [], groupSubscribers := [] } := by
    refine ⟨hinit.reachable.linked, hinit.reachable.sourced, hinit.reachable.straight hzero, ?_⟩
    intro r hr _
    have hle : r.height ≤ Serde.Json.maxSafe := (hinit.safe r hr).height.2
    have hlt : Serde.Json.maxSafe < i64Max - 1 := by decide
    omega
  exact hready.of_tables rfl rfl

theorem Initial.log (hinit : h.Initial S K) (hs : h.store.Ready C S.key) :
    h.store.Log C K S.key h.published := by
  obtain ⟨g, hg, hkey, h0, ⟨m, hm, hbatch⟩, hall⟩ := hinit.genesis
  have hown : h.store.own S.key = [(g.hash, g.body)] := by
    have hfilter : h.store.messages.filter (·.key = S.key) = [g] := by
      have hnodup : (h.store.messages.filter (·.key = S.key)).Nodup :=
        hs.linked.hashes.of_map.filter _
      apply List.perm_singleton.mp
      apply (List.perm_ext_iff_of_nodup hnodup (List.nodup_singleton g)).mpr
      intro r
      simp only [List.mem_filter, decide_eq_true_eq, List.mem_singleton]
      constructor
      · exact fun hr => hall r hr.1 hr.2
      · rintro rfl
        exact ⟨hg, hkey⟩
    rw [Store.own_eq, hfilter]
    rfl
  rw [hinit.published]
  constructor
  · rw [hown, List.map_singleton]
    show [g.height] = _
    rw [h0]
    rfl
  · refine ⟨[m], ?_, by simp [hbatch]⟩
    rw [hown, List.map_singleton, List.map_singleton, hm]
  · intro r hr hrkey
    rw [hall r hr hrkey]
    exact hs.linked.root g hg h0
  · refine ⟨g, hg, hkey, ?_⟩
    intro r hr hrkey
    rw [hall r hr hrkey]
    refine ⟨?_, fun hne => absurd h0 hne⟩
    rw [← hs.sourced.genesis_eq hg, hs.sourced.genesis_of_height hg h0]

/-- The task is in its loop. -/
def running (h : Host J) : Prop :=
  match h.phase with
  | .polling => True
  | .publishing _ => True
  | _ => False

section

variable (S K)
  (Allowed : Host J → HostEvent C → Prop) (P Q : Store J → Task J → List (Envelope J) → Prop)

/-- A change of the store keeps what the running task knows, and what is known of the published
batches. -/
structure Persists (h : Host J) (s : Store J) : Prop where
  running : h.running → ∀ done, P h.store h.task done → P s h.task done
  published : ∀ done, Q h.store h.saved done → Q s h.saved done

/-- The premises under which a task always knows `P` of the messages that it has sequenced, while `Q`
holds of those that were published. -/
structure Rule : Prop where
  store : ∀ h op, h.store.Ready C S.key → op.ByOthers S.key → Allowed h (.store op) →
    Persists P Q h (h.store.apply op)
  addMember : ∀ h group genesis, h.store.Ready C S.key → Allowed h (.addMember group genesis) →
    Persists P Q h (h.store.addMemberToChainCommitGroup group genesis)
  publish : ∀ s s' t done, s.Ready C S.key → s.SameGroups S.key s' → s.contents <+: s'.contents →
    s.SteadyUpTo S.key s.messages.length s' → P s t done → P s' t done
  settle : ∀ s t done, s.Ready C S.key → P s t done → Q s t done
  iterate : ∀ h ch done, h.store.Ready C S.key → h.store.Log C K S.key h.published →
    h.phase = .polling → h.published.flatten = done.map C.canonicalizedHash → Allowed h (.iterate ch) →
    P h.store h.task done → ∃ t batch,
      h.task.iterate C S.key ch h.store = .ok (t, batch.map C.canonicalizedHash) ∧
      P h.store t (done ++ batch)
  recover : ∀ h done, h.store.Ready C S.key →
    h.published.flatten = done.map C.canonicalizedHash → Allowed h .recover →
    Q h.store h.saved done → ∃ t,
      Task.recover C S.key h.store (done.map C.canonicalizedHash) = .ok t ∧ P h.store t done

/-- What the task knows in a phase. -/
def Follows (C : Crypto J) (P : Store J → Task J → List (Envelope J) → Prop) (h : Host J)
    (done : List (Envelope J)) : Prop :=
  match h.phase with
  | .start => True
  | .loaded already => already = h.published.flatten
  | .polling => P h.store h.task done
  | .publishing batch => ∃ batch', batch = batch'.map C.canonicalizedHash ∧
      P h.store h.task (done ++ batch')
  | .stopped panic => panic = none

/-- What holds in every state of a run. -/
structure Holds (h : Host J) : Prop where
  ready : h.store.Ready C S.key
  log : h.store.Log C K S.key h.published
  knows : ∃ done, h.published.flatten = done.map C.canonicalizedHash ∧
    Q h.store h.saved done ∧ h.Follows C P done

end

variable {Allowed : Host J → HostEvent C → Prop}
  {P Q : Store J → Task J → List (Envelope J) → Prop} {done : List (Envelope J)}

private theorem Follows.change (hfollows : h.Follows C P done) (hpersists : Persists P Q h s') :
    Follows C P { h with store := s' } done := by
  have hrunning := hpersists.running
  unfold Follows running at *
  cases hphase : h.phase with
  | start => trivial
  | loaded already => simpa only [hphase] using hfollows
  | polling =>
    simp only [hphase] at hfollows hrunning ⊢
    exact hrunning trivial done hfollows
  | publishing batch =>
    simp only [hphase] at hfollows hrunning ⊢
    obtain ⟨batch', hbatch, hP⟩ := hfollows
    exact ⟨batch', hbatch, hrunning trivial _ hP⟩
  | stopped panic => simpa only [hphase] using hfollows

private theorem Holds.change (hh : h.Holds S K P Q) (hready : s'.Ready C S.key)
    (hlog : s'.Log C K S.key h.published) (hpersists : Persists P Q h s') :
    Holds S K P Q { h with store := s' } := by
  obtain ⟨done, hdone, hQ, hfollows⟩ := hh.knows
  exact ⟨hready, hlog, done, hdone, hpersists.published done hQ, hfollows.change hpersists⟩

private theorem Holds.setPhase (hh : h.Holds S K P Q) {phase : Phase}
    (hphase : ∀ done, h.published.flatten = done.map C.canonicalizedHash →
      Follows C P { h with phase } done) : Holds S K P Q { h with phase } := by
  obtain ⟨done, hdone, hQ, _⟩ := hh.knows
  exact ⟨hh.ready, hh.log, done, hdone, hQ, hphase done hdone⟩

private theorem Holds.publish (hrule : Rule S K Allowed P Q)
    (hbound : ∀ e, (C.canonicalizedHash e).digest < 2 ^ 256) (hh : h.Holds S K P Q)
    {p : Publication J} {batch : List CanonicalEnvelopeHash} (hphase : h.phase = .publishing batch)
    (htip : h.store.IsTip S.key p.tip) :
    (h.afterPublish batch (S.publish K h.store p batch)).Holds S K P Q := by
  obtain ⟨done, hdone, hQ, hfollows⟩ := hh.knows
  have hstopped : Holds S K P Q { h with phase := .stopped none } := hh.setPhase fun _ _ => rfl
  cases hpublish : S.publish K h.store p batch with
  | none => exact hstopped
  | some result =>
    obtain ⟨result, store⟩ := result
    cases result with
    | error fail =>
      cases fail with
      | constraintCheck => exact hstopped
      | constraintNotNull => exact hstopped
      | constraintUnique => exact hh
    | ok =>
      unfold Follows at hfollows
      rw [hphase] at hfollows
      obtain ⟨batch', rfl, hP⟩ := hfollows
      have hbatch : ∀ hash ∈ batch'.map C.canonicalizedHash, hash.digest < 2 ^ 256 := by
        intro hash hmem
        obtain ⟨e, _, rfl⟩ := List.mem_map.mp hmem
        exact hbound e
      obtain ⟨hready, hlog, hgroups, hpre, hsteady⟩ :=
        hh.log.publish hh.ready htip hbatch hpublish
      have hP' := hrule.publish _ _ _ _ hh.ready hgroups hpre hsteady hP
      refine ⟨hready, hlog, done ++ batch', ?_, hrule.settle _ _ _ hready hP', hP'⟩
      show (h.published ++ [batch'.map C.canonicalizedHash]).flatten = _
      rw [List.flatten_append, hdone, List.map_append, List.flatten_singleton]

private theorem Holds.iterate (hrule : Rule S K Allowed P Q) (hh : h.Holds S K P Q) {ch : Choices C}
    (hphase : h.phase = .polling) (hallowed : Allowed h (.iterate ch)) :
    (h.afterIterate (h.task.iterate C S.key ch h.store)).Holds S K P Q := by
  obtain ⟨done, hdone, hQ, hfollows⟩ := hh.knows
  unfold Follows at hfollows
  rw [hphase] at hfollows
  obtain ⟨t, batch, hiterate, hP⟩ :=
    hrule.iterate h ch done hh.ready hh.log hphase hdone hallowed hfollows
  rw [hiterate]
  refine ⟨hh.ready, hh.log, done, hdone, hQ, ?_⟩
  unfold Host.afterIterate Follows
  by_cases hbatch : batch = []
  · subst hbatch
    rw [List.append_nil] at hP
    exact hP
  · simp only [List.map_eq_nil_iff, hbatch, if_false]
    exact ⟨batch, rfl, hP⟩

theorem Holds.recover (hrule : Rule S K Allowed P Q) (hh : h.Holds S K P Q)
    {already : List CanonicalEnvelopeHash} (hphase : h.phase = .loaded already)
    (hallowed : Allowed h .recover) :
    ∃ t, Task.recover C S.key h.store already = .ok t ∧
      Holds S K P Q { h with task := t, phase := .polling } := by
  obtain ⟨done, hdone, hQ, hfollows⟩ := hh.knows
  unfold Follows at hfollows
  rw [hphase] at hfollows
  obtain ⟨t, hrecover, hP⟩ := hrule.recover h done hh.ready hdone hallowed hQ
  refine ⟨t, by rw [hfollows, hdone, hrecover], hh.ready, hh.log, done, hdone, hQ, hP⟩

private theorem Holds.step [DecidableEq J] (hrule : Rule S K Allowed P Q)
    (hzero : ∀ e, C.canonicalizedHash e ≠ .genesis)
    (hbound : ∀ e, (C.canonicalizedHash e).digest < 2 ^ 256) (hh : h.Holds S K P Q)
    {ev : HostEvent C} (hallowed : Allowed h ev) (hstep : h.step S K ev = some h') :
    h'.Holds S K P Q := by
  cases ev with
  | store op =>
    simp only [Host.step] at hstep
    split_ifs at hstep with hop
    obtain rfl := Option.some.inj hstep
    exact hh.change (hh.ready.apply hzero hop).1 (hh.log.apply hh.ready hzero hop)
      (hrule.store h op hh.ready hop hallowed)
  | addMember group genesis =>
    obtain rfl := Option.some.inj hstep
    have hmessages := Store.addMember_messages (s := h.store) group genesis
    exact hh.change (hh.ready.of_tables hmessages (Store.addMember_users group genesis))
      (hh.log.of_tables hmessages) (hrule.addMember h group genesis hh.ready hallowed)
  | iterate ch =>
    simp only [Host.step] at hstep
    split at hstep
    · rename_i hphase
      obtain rfl := Option.some.inj hstep
      exact hh.iterate hrule hphase hallowed
    · cases hstep
  | publish p =>
    simp only [Host.step] at hstep
    split at hstep
    · rename_i batch hphase
      split_ifs at hstep with htip
      obtain rfl := Option.some.inj hstep
      exact hh.publish hrule hbound hphase htip
    · cases hstep
  | crash =>
    obtain rfl := Option.some.inj hstep
    exact hh.setPhase fun _ _ => trivial
  | load =>
    simp only [Host.step, hh.log.alreadySequenced_eq hh.ready.sourced] at hstep
    split at hstep
    · obtain rfl := Option.some.inj hstep
      exact hh.setPhase fun _ _ => rfl
    · cases hstep
  | recover =>
    simp only [Host.step] at hstep
    split at hstep
    · rename_i already hphase
      obtain ⟨t, hrecover, hh'⟩ := hh.recover hrule hphase hallowed
      rw [hrecover] at hstep
      obtain rfl := Option.some.inj hstep
      exact hh'
    · cases hstep

theorem Rule.holds [DecidableEq J] (hrule : Rule S K Allowed P Q)
    (hzero : ∀ e, C.canonicalizedHash e ≠ .genesis)
    (hbound : ∀ e, (C.canonicalizedHash e).digest < 2 ^ 256) {h₀ : Host J}
    (hinit : h₀.Initial S K) (hQ : Q h₀.store .initial [])
    (hrun : Run (fun h ev h' => Allowed h ev ∧ h.step S K ev = some h') (fun _ => True) h₀ h) :
    h.Holds S K P Q := by
  apply Run.invariant _ hrun
  · have hready := hinit.ready hzero
    refine ⟨hready, hinit.log hready, [], ?_, ?_, ?_⟩
    · rw [hinit.published]
      rfl
    · rwa [hinit.saved]
    · unfold Follows
      rw [hinit.phase]
      trivial
  · intro h ev h' _ hh hstep
    exact hh.step hrule hzero hbound hstep.1 hstep.2

end Host

end

end JudicaVM
