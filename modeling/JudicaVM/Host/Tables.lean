import JudicaVM.Attest.Arrival
import JudicaVM.Host.Lobby

/-!
# The tables of the host

The statements of a setup on tables that any operations have reached: what a genesis envelope adds
to the store, and when members can be added to a group.
-/

namespace JudicaVM

open Transition Checked

section

variable {Psbt J : Type} {W : Serializers Psbt J} {C : Crypto J}

inductive TableOp (C : Crypto J)
  | store (op : StoreOp C)
  | saveKeypair (kp : KeyPair C)
  | saveNonce (kp : KeyPair C) (nonce : ℕ)
  | newGroup (name : String)
  | addMember (group : ℕ) (genesis : CanonicalEnvelopeHash)
  | addSubscriber (group : ℕ) (genesis : CanonicalEnvelopeHash)

namespace HostTables

def apply (t : HostTables J) : TableOp C → HostTables J
  | .store op => { t with store := t.store.apply op }
  | .saveKeypair kp => (t.saveKeypair kp).2
  | .saveNonce kp nonce => (t.saveNonceForUserByKey kp nonce).2
  | .newGroup name => (t.newChainCommitGroup name).2
  | .addMember group genesis => (t.addMemberToChainCommitGroup group genesis).2
  | .addSubscriber group genesis => (t.addSubscriberToChainCommitGroup group genesis).2

/-- The tables after any operations. -/
def Reachable (C : Crypto J) : HostTables J → Prop :=
  Run (fun t (op : TableOp C) t' => t' = t.apply op) (fun _ => True) empty

/-- An envelope with a hash is stored. -/
def Holds (t : HostTables J) (h : CanonicalEnvelopeHash) : Prop :=
  h ∈ t.store.messages.map Row.hash

/-- Ids of groups are below the next one, and the tables of links name stored groups. -/
structure Consistent (t : HostTables J) : Prop where
  linked : t.store.Linked
  groups : ∀ g ∈ t.chainCommitGroups.map Prod.fst, g < t.nextGroup
  members : ∀ m ∈ t.store.groupMembers, m.1 < t.nextGroup
  subscribers : ∀ m ∈ t.store.groupSubscribers, m.1 < t.nextGroup

variable {t t' : HostTables J} {group i : ℕ} {genesis h : CanonicalEnvelopeHash}
  {links : List (ℕ × ℕ)} {row : ℕ × ℕ}

theorem link_eq_some_iff : t.link links group genesis = some row ↔
    ∃ i, t.store.idByHash genesis = some i ∧ group ∈ t.chainCommitGroups.map Prod.fst ∧
      (group, i) ∉ links ∧ row = (group, i) := by
  unfold link
  cases t.store.idByHash genesis with
  | none => simp
  | some i =>
    simp only [Option.some.injEq, exists_eq_left', List.contains_iff_mem]
    split_ifs with hrefused
    · apply iff_of_false
      · intro hnone
        cases hnone
      · intro haccepted
        exact hrefused.elim (fun hgroup => hgroup haccepted.1) haccepted.2.1
    · push Not at hrefused
      simp [hrefused, eq_comm]

theorem holds_iff : t.Holds h ↔ ∃ i, t.store.idByHash h = some i := by
  simp [Holds, Store.idByHash, Store.rowByHash, ← Option.isSome_iff_exists]

end HostTables

namespace Store

variable {s s' : Store J} {i : ℕ} {h h' : CanonicalEnvelopeHash}

private theorem apply_groups (op : StoreOp C) : (s.apply op).groupMembers = s.groupMembers ∧
    (s.apply op).groupSubscribers = s.groupSubscribers := by
  have haddUser (nickname : String) (key : XOnlyPublicKey) :
      (s.addUser nickname key).groupMembers = s.groupMembers ∧
        (s.addUser nickname key).groupSubscribers = s.groupSubscribers := by
    unfold addUser
    split <;> exact ⟨rfl, rfl⟩
  apply apply_preserves (I := fun s' => s'.groupMembers = s.groupMembers ∧
    s'.groupSubscribers = s.groupSubscribers) op ⟨rfl, rfl⟩
  · intro nickname e _
    exact haddUser nickname e.inner.header.key
  · intro s₁ e user now s' hsame _ _ hocc
    cases hocc with
    | envelope _ _ _ => exact hsame
  · intro s' hocc
    cases hocc with
    | connect _ => exact ⟨rfl, rfl⟩

private theorem Linked.idByHash_inj (hs : s.Linked) (h₁ : s.idByHash h = some i)
    (h₂ : s.idByHash h' = some i) : h = h' := by
  obtain ⟨r, hr, hhash, hid⟩ := exists_of_idByHash h₁
  obtain ⟨r', hr', hhash', hid'⟩ := exists_of_idByHash h₂
  rw [← hhash, ← hhash', hs.eq_of_messageId hr hr' (hid.trans hid'.symm)]

end Store

namespace Store

variable {s : Store J} {e : Authenticated C} {nickname : String} {now : ℤ}
  {h : CanonicalEnvelopeHash}

/-- An envelope that is its own genesis is stored when its height is 0 and it is new. -/
theorem insertUser_spec (nickname : String) (now : ℤ) (h : CanonicalEnvelopeHash)
    (hown : e.inner.getGenesisHash C = C.canonicalizedHash e.inner) :
    ((s.insertUserByGenesisEnvelope nickname e now).1.toBool = true ↔
      e.inner.header.height = 0 ∧
        C.canonicalizedHash e.inner ∉ s.messages.map Row.hash) ∧
    (h ∈ (s.insertUserByGenesisEnvelope nickname e now).2.messages.map Row.hash ↔
      h ∈ s.messages.map Row.hash ∨
        e.inner.header.height = 0 ∧ h = C.canonicalizedHash e.inner) := by
  have huser : ((s.addUser nickname e.inner.header.key).userByKey e.inner.header.key).isSome :=
    (addUser_userByKey _ _ _).mpr (.inr rfl)
  obtain ⟨user, huser⟩ := Option.isSome_iff_exists.mp huser
  have hstored : (s.rowByHash (C.canonicalizedHash e.inner)).isSome ↔
      C.canonicalizedHash e.inner ∈ s.messages.map Row.hash := by
    simp [rowByHash]
  -- the row of an envelope above height 0 needs a stored genesis, which is the envelope itself
  have hchecks : ((s.addUser nickname e.inner.header.key).newRow e user.userId now).passesChecks →
      C.canonicalizedHash e.inner ∉ s.messages.map Row.hash → e.inner.header.height = 0 := by
    intro hpasses hnew
    by_contra h0
    obtain ⟨_, r, hr, hhash⟩ := (newRow_passesChecks_iff _ _ h0).mp hpasses
    rw [addUser_messages] at hr
    rw [hown] at hhash
    exact hnew (List.mem_map.mpr ⟨r, hr, hhash⟩)
  have hroot : e.inner.header.height = 0 →
      ((s.addUser nickname e.inner.header.key).newRow e user.userId now).passesChecks := by
    intro h0
    apply Row.passesChecks_iff.mpr
    refine ⟨.inl h0, fun _ h => absurd h0 h, .inr ⟨h0, ?_⟩⟩
    simp [Row.prevMsg, newRow, Envelope.prevMsg, e.authentic.genesis h0]
  have hhash : ((s.addUser nickname e.inner.header.key).newRow e user.userId now).hash =
      C.canonicalizedHash e.inner := rfl
  have hrow : (s.addUser nickname e.inner.header.key).rowByHash (C.canonicalizedHash e.inner) =
      s.rowByHash (C.canonicalizedHash e.inner) := by
    simp [rowByHash]
  unfold insertUserByGenesisEnvelope tryInsertAuthenticatedEnvelopeWithTxn
  simp only [huser, hhash, hrow, hstored]
  split_ifs with hpasses hold
  · simp only [addUser_messages, hold, Except.toBool]
    constructor
    · simp
    · constructor
      · exact .inl
      · intro hmem
        apply hmem.elim id
        intro hsame
        rw [hsame.2]
        exact hold
  · have h0 := hchecks hpasses hold
    simp [h0, hold, Except.toBool, push, newRow, Function.comp_def]
  · have hunstored : ¬(e.inner.header.height = 0) := fun h0 => hpasses (hroot h0)
    simp [hunstored, Except.toBool]

end Store

namespace HostTables

variable {t t' : HostTables J} {group i : ℕ} {genesis h : CanonicalEnvelopeHash}

private theorem addMember_cases (group : ℕ) (genesis : CanonicalEnvelopeHash) :
    t.addMemberToChainCommitGroup group genesis = (false, t) ∨
      ∃ i, t.store.idByHash genesis = some i ∧ group ∈ t.chainCommitGroups.map Prod.fst ∧
        (group, i) ∉ t.store.groupMembers ∧
        t.addMemberToChainCommitGroup group genesis =
          (true, { t with store :=
            { t.store with groupMembers := t.store.groupMembers ++ [(group, i)] } }) := by
  unfold addMemberToChainCommitGroup
  cases hlink : t.link t.store.groupMembers group genesis with
  | none => exact .inl rfl
  | some row =>
    obtain ⟨i, hid, hgroup, hnew, rfl⟩ := link_eq_some_iff.mp hlink
    exact .inr ⟨i, hid, hgroup, hnew, rfl⟩

private theorem addSubscriber_cases (group : ℕ) (genesis : CanonicalEnvelopeHash) :
    t.addSubscriberToChainCommitGroup group genesis = (false, t) ∨
      ∃ i, t.store.idByHash genesis = some i ∧ group ∈ t.chainCommitGroups.map Prod.fst ∧
        (group, i) ∉ t.store.groupSubscribers ∧
        t.addSubscriberToChainCommitGroup group genesis =
          (true, { t with store :=
            { t.store with groupSubscribers := t.store.groupSubscribers ++ [(group, i)] } }) := by
  unfold addSubscriberToChainCommitGroup
  cases hlink : t.link t.store.groupSubscribers group genesis with
  | none => exact .inl rfl
  | some row =>
    obtain ⟨i, hid, hgroup, hnew, rfl⟩ := link_eq_some_iff.mp hlink
    exact .inr ⟨i, hid, hgroup, hnew, rfl⟩

namespace Consistent

private theorem empty : (empty : HostTables J).Consistent where
  linked := .empty
  groups := by simp [HostTables.empty]
  members := by simp [HostTables.empty, Store.empty]
  subscribers := by simp [HostTables.empty, Store.empty]

theorem store (ht : t.Consistent) (op : StoreOp C) :
    ({ t with store := t.store.apply op } : HostTables J).Consistent where
  linked := ht.linked.apply op
  groups := ht.groups
  members := by
    show ∀ m ∈ (t.store.apply op).groupMembers, m.1 < t.nextGroup
    rw [(Store.apply_groups op).1]
    exact ht.members
  subscribers := by
    show ∀ m ∈ (t.store.apply op).groupSubscribers, m.1 < t.nextGroup
    rw [(Store.apply_groups op).2]
    exact ht.subscribers

private theorem newGroup (ht : t.Consistent) (name : String) :
    ({ t with chainCommitGroups := t.chainCommitGroups ++ [(t.nextGroup, name)] } :
      HostTables J).Consistent := by
  have hnext : ({ t with chainCommitGroups := t.chainCommitGroups ++ [(t.nextGroup, name)] } :
      HostTables J).nextGroup = t.nextGroup + 1 := by
    simp [nextGroup]
  constructor
  · exact ht.linked
  · intro g hg
    rw [hnext]
    rw [List.map_append, List.mem_append] at hg
    cases hg with
    | inl hold => exact Nat.lt_succ_of_lt (ht.groups g hold)
    | inr hnew =>
      obtain rfl : g = t.nextGroup := by simpa using hnew
      exact Nat.lt_succ_self _
  · intro m hm
    rw [hnext]
    exact Nat.lt_succ_of_lt (ht.members m hm)
  · intro m hm
    rw [hnext]
    exact Nat.lt_succ_of_lt (ht.subscribers m hm)

private theorem addMember (ht : t.Consistent) (group : ℕ) (genesis : CanonicalEnvelopeHash) :
    (t.addMemberToChainCommitGroup group genesis).2.Consistent := by
  apply (addMember_cases (t := t) group genesis).elim
  · intro h
    rw [h]
    exact ht
  · intro h
    obtain ⟨i, _, hgroup, _, h⟩ := h
    rw [h]
    constructor
    · exact ht.linked.of_messages rfl
    · exact ht.groups
    · intro m hm
      apply (List.mem_append.mp hm).elim (ht.members m)
      intro hm
      rw [List.mem_singleton.mp hm]
      exact ht.groups group hgroup
    · exact ht.subscribers

private theorem addSubscriber (ht : t.Consistent) (group : ℕ) (genesis : CanonicalEnvelopeHash) :
    (t.addSubscriberToChainCommitGroup group genesis).2.Consistent := by
  apply (addSubscriber_cases (t := t) group genesis).elim
  · intro h
    rw [h]
    exact ht
  · intro h
    obtain ⟨i, _, hgroup, _, h⟩ := h
    rw [h]
    constructor
    · exact ht.linked.of_messages rfl
    · exact ht.groups
    · exact ht.members
    · intro m hm
      apply (List.mem_append.mp hm).elim (ht.subscribers m)
      intro hm
      rw [List.mem_singleton.mp hm]
      exact ht.groups group hgroup

private theorem apply (ht : t.Consistent) (op : TableOp C) : (t.apply op).Consistent := by
  cases op with
  | store op => exact ht.store op
  | saveKeypair kp =>
    show (t.saveKeypair kp).2.Consistent
    unfold saveKeypair
    split
    · exact ht
    · exact ⟨ht.linked, ht.groups, ht.members, ht.subscribers⟩
  | saveNonce kp nonce => exact ⟨ht.linked, ht.groups, ht.members, ht.subscribers⟩
  | newGroup name =>
    show (t.newChainCommitGroup name).2.Consistent
    unfold newChainCommitGroup
    split
    · exact ht
    · exact ht.newGroup name
  | addMember group genesis => exact ht.addMember group genesis
  | addSubscriber group genesis => exact ht.addSubscriber group genesis

end Consistent

theorem Reachable.consistent (h : t.Reachable C) : t.Consistent := by
  apply h.invariant _ .empty
  intro t op t' _ ht happly
  rw [happly]
  exact ht.apply op

end HostTables

section

open HostTables

variable {t t' : HostTables J} {statement : Statement J} {rest : List (Statement J)}
  {world : SetupWorld C} {name : SetupStatement} {group : ℕ}

@[simp] theorem execute_nil : execute [] t = (true, t) := rfl

theorem execute_cons_of_true (h : statement t = (true, t')) :
    execute (statement :: rest) t = execute rest t' := by
  rw [execute, h]

private theorem execute_cons_of_false (h : (statement t).1 = false) :
    (execute (statement :: rest) t).1 = false := by
  rw [execute]
  split
  · rename_i h'
    rw [h'] at h
    cases h
  · rfl

private theorem execute_cons_iff : (execute (statement :: rest) t).1 = true ↔
    (statement t).1 = true ∧ (execute rest (statement t).2).1 = true := by
  cases h : statement t with
  | mk result t' =>
    cases result with
    | false => simp [execute_cons_of_false (congrArg Prod.fst h)]
    | true => simp [execute_cons_of_true h]

theorem attempt_of_works (h : world.fails name = false) :
    world.attempt name statement = statement := by
  funext t
  simp [SetupWorld.attempt, h]

private theorem attempt_of_fails (h : world.fails name = true) (t : HostTables J) :
    world.attempt name statement t = (false, t) := by
  simp [SetupWorld.attempt, h]

/-- The rule for a sequence: the first statement works and succeeds, and the others do. -/
theorem execute_attempt_iff : (execute (world.attempt name statement :: rest) t).1 = true ↔
    world.fails name = false ∧ (statement t).1 = true ∧
      (execute rest (statement t).2).1 = true := by
  rw [execute_cons_iff]
  cases hfails : world.fails name with
  | true => simp [attempt_of_fails hfails]
  | false => simp [attempt_of_works hfails]

private theorem addMembers_iff {args : List CanonicalEnvelopeHash} {i : ℕ} (hs : t.store.Linked)
    (hgroup : group ∈ t.chainCommitGroups.map Prod.fst) :
    (execute (world.addMembers group args i) t).1 = true ↔
      (∀ k < args.length, world.fails (.addMember (i + k)) = false) ∧
      (∀ h ∈ args, ∃ j, t.store.idByHash h = some j ∧ (group, j) ∉ t.store.groupMembers) ∧
      args.Nodup := by
  induction args generalizing t i with
  | nil => simp [SetupWorld.addMembers]
  | cons genesis args ih =>
    show (execute (_ :: world.addMembers group args (i + 1)) t).1 = true ↔ _
    rw [execute_attempt_iff]
    have hcount : (∀ k < (genesis :: args).length, world.fails (.addMember (i + k)) = false) ↔
        world.fails (.addMember i) = false ∧
          ∀ k < args.length, world.fails (.addMember (i + 1 + k)) = false := by
      rw [List.length_cons, Nat.forall_lt_succ_left]
      simp [Nat.add_assoc, Nat.add_comm 1]
    rw [hcount, List.forall_mem_cons, List.nodup_cons]
    apply (addMember_cases (t := t) group genesis).elim
    · intro h
      have hrefused : ¬∃ j, t.store.idByHash genesis = some j ∧
          (group, j) ∉ t.store.groupMembers := by
        intro hlinks
        obtain ⟨j, hid, hnew⟩ := hlinks
        have hlink := link_eq_some_iff.mpr ⟨j, hid, hgroup, hnew, rfl⟩
        simp [addMemberToChainCommitGroup, hlink] at h
      simp [h, hrefused]
    · intro h
      obtain ⟨j, hid, _, hnew, h⟩ := h
      have hrest := ih (t := { t with store :=
        { t.store with groupMembers := t.store.groupMembers ++ [(group, j)] } }) (i := i + 1)
        (hs.of_messages rfl) hgroup
      rw [h]
      -- the other members differ from the new one exactly when their hashes do
      have hothers : (∀ h' ∈ args, ∃ j', t.store.idByHash h' = some j' ∧
            (group, j') ∉ t.store.groupMembers ++ [(group, j)]) ↔
          (∀ h' ∈ args, ∃ j', t.store.idByHash h' = some j' ∧
            (group, j') ∉ t.store.groupMembers) ∧ genesis ∉ args := by
        constructor
        · intro hall
          constructor
          · intro h' hmem
            obtain ⟨j', hid', hnew'⟩ := hall h' hmem
            exact ⟨j', hid', fun hold => hnew' (List.mem_append_left _ hold)⟩
          · intro hmem
            obtain ⟨j', hid', hnew'⟩ := hall genesis hmem
            rw [hid, Option.some.injEq] at hid'
            rw [hid'] at hnew'
            exact hnew' (List.mem_append_right _ (List.mem_singleton_self _))
        · intro hall h' hmem
          obtain ⟨j', hid', hnew'⟩ := hall.1 h' hmem
          refine ⟨j', hid', ?_⟩
          intro hlinked
          apply (List.mem_append.mp hlinked).elim hnew'
          intro hsame
          have heq : j' = j := by simpa using hsame
          rw [heq] at hid'
          rw [hs.idByHash_inj hid' hid] at hmem
          exact hall.2 hmem
      have hthis : ∃ j, t.store.idByHash genesis = some j ∧ (group, j) ∉ t.store.groupMembers :=
        ⟨j, hid, hnew⟩
      show world.fails (.addMember i) = false ∧ true = true ∧
        (execute (world.addMembers group args (i + 1)) _).1 = true ↔ _
      rw [hrest]
      show _ ∧ _ ∧ _ ∧ (∀ h' ∈ args, ∃ j', t.store.idByHash h' = some j' ∧
        (group, j') ∉ t.store.groupMembers ++ [(group, j)]) ∧ _ ↔ _
      rw [hothers]
      tauto

/-- A group without members takes every list of different envelopes that are stored. -/
theorem addMembers_new_iff (world : SetupWorld C) (args : List CanonicalEnvelopeHash) (hs : t.store.Linked)
    (hgroup : group ∈ t.chainCommitGroups.map Prod.fst)
    (hnew : ∀ m ∈ t.store.groupMembers, m.1 ≠ group) :
    (execute (world.addMembers group args 0) t).1 = true ↔
      (∀ k < args.length, world.fails (.addMember k) = false) ∧ (∀ h ∈ args, t.Holds h) ∧
        args.Nodup := by
  rw [addMembers_iff hs hgroup]
  have hlinks (h : CanonicalEnvelopeHash) :
      (∃ j, t.store.idByHash h = some j ∧ (group, j) ∉ t.store.groupMembers) ↔ t.Holds h := by
    rw [holds_iff]
    constructor
    · intro hlink
      obtain ⟨j, hid, _⟩ := hlink
      exact ⟨j, hid⟩
    · intro hheld
      obtain ⟨j, hid⟩ := hheld
      exact ⟨j, hid, fun hmem => hnew _ hmem rfl⟩
  simp only [hlinks, Nat.zero_add]

end
end
end JudicaVM
