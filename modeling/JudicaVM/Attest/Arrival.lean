import JudicaVM.Attest.Genesis
import Mathlib.Data.List.Perm.Basic

/-!
# The order of arrival

Genesis envelopes are registered first, the other envelopes arrive in some order, and the tips are
attached. What the store then holds depends on the order only through the genesis that an envelope
claims.
-/

namespace JudicaVM

open Transition Closure

section

variable {M : Type} {C : Crypto M}

/-- A genesis envelope, with the nickname of its author. -/
structure Registration (C : Crypto M) where
  nickname : String
  envelope : Authenticated C
  time : ℤ

structure Arrival (C : Crypto M) where
  envelope : Authenticated C
  time : ℤ

def Store.register (s : Store M) (g : Registration C) : Store M :=
  (s.insertUserByGenesisEnvelope g.nickname g.envelope g.time).2

def Store.receive (s : Store M) (a : Arrival C) : Store M :=
  (s.tryInsertAuthenticatedEnvelope a.envelope false a.time).2

/-- The store in which every envelope has arrived. -/
def deliver (gs : List (Registration C)) (as : List (Arrival C)) : Store M :=
  (as.foldl Store.receive (gs.foldl Store.register .empty)).attachTips.2

/-- The hash of the row with an id. -/
def Store.hashOfId (s : Store M) (i : ℕ) : Option CanonicalEnvelopeHash :=
  (s.messages.find? (·.messageId = i)).map Row.hash

/-- What is compared of two stores: for a hash, whether it is stored, whether its row is connected,
and the hashes of the rows to which its links lead. -/
def Store.view (s : Store M) (h : CanonicalEnvelopeHash) :
    Option (Bool × Option CanonicalEnvelopeHash × Option CanonicalEnvelopeHash) :=
  (s.rowByHash h).map fun r =>
    (r.connected, r.prevMsgId.bind s.hashOfId, r.genesisId.bind s.hashOfId)

variable {s s' : Store M} {r : Row M} {e : Authenticated C} {h : CanonicalEnvelopeHash} {now : ℤ}

theorem idByHash_isSome_iff : (s.idByHash h).isSome ↔ ∃ r ∈ s.messages, r.hash = h := by
  simp [Store.idByHash, Store.rowByHash]

theorem newRow_passesChecks_iff (userId : ℕ) (now : ℤ) (h0 : e.inner.header.height ≠ 0) :
    (s.newRow e userId now).passesChecks ↔
      0 < e.inner.header.height ∧ ∃ r ∈ s.messages, r.hash = e.inner.getGenesisHash C := by
  have hgenesis : (s.newRow e userId now).genesisId.isSome ↔
      ∃ r ∈ s.messages, r.hash = e.inner.getGenesisHash C := idByHash_isSome_iff
  have hparent : (s.newRow e userId now).connected →
      (s.newRow e userId now).prevMsgId.isSome := by
    intro hc
    obtain ⟨p, hp, hhash, _⟩ := ((Store.Linked.newRow_connected_iff _ _ _).mp hc).resolve_left h0
    exact idByHash_isSome_iff.mpr ⟨p, hp, hhash⟩
  have hheight : (s.newRow e userId now).height = e.inner.header.height := rfl
  rw [Row.passesChecks_iff, hheight, hgenesis]
  constructor
  · intro hchecks
    exact ⟨hchecks.2.2.resolve_right fun hz => h0 hz.1, hchecks.1.resolve_left h0⟩
  · intro hchecks
    exact ⟨.inr hchecks.2, fun hc _ => ⟨hparent hc, hchecks.2⟩, .inl hchecks.1⟩

/-- The rows of a store are rows of another one, up to the link that the trigger sets. -/
def Store.Kept (s s' : Store M) : Prop :=
  ∀ r ∈ s.messages, ∃ r' ∈ s'.messages, r'.messageId = r.messageId ∧ r'.body = r.body ∧
    r'.hash = r.hash ∧ r'.connected = r.connected ∧ r'.genesisId = r.genesisId

theorem Store.Kept.refl : s.Kept s :=
  fun r hr => ⟨r, hr, rfl, rfl, rfl, rfl, rfl⟩

theorem Store.Kept.trans {s'' : Store M} (h : s.Kept s') (h' : s'.Kept s'') : s.Kept s'' := by
  intro r hr
  obtain ⟨r', hr', hid, hbody, hhash, hc, hg⟩ := h r hr
  obtain ⟨r'', hr'', hid', hbody', hhash', hc', hg'⟩ := h' r' hr'
  exact ⟨r'', hr'', hid'.trans hid, hbody'.trans hbody, hhash'.trans hhash, hc'.trans hc,
    hg'.trans hg⟩

private theorem Store.kept_push {row : Row M} : s.Kept (s.push row) := by
  intro r hr
  exact ⟨row.connectGapParent r, mem_push.mpr ⟨r, .inl hr, rfl⟩, by simp, by simp, by simp,
    by simp, by simp⟩

/-- An envelope that arrives is either stored, for a registered author, or refused. -/
theorem receive_cases (a : Arrival C) :
    s.receive a = s ∨ ∃ user, s.userByKey a.envelope.inner.header.key = some user ∧
      (s.newRow a.envelope user.userId a.time).passesChecks ∧
      s.rowByHash (C.canonicalizedHash a.envelope.inner) = none ∧
      s.receive a = s.push (s.newRow a.envelope user.userId a.time) := by
  have hcases : s.receive a = s ∨
      ∃ user, s.Occurs (.envelope a.envelope user a.time) (s.receive a) := insert_cases
  apply hcases.elim .inl
  intro hocc
  obtain ⟨user, hocc⟩ := hocc
  generalize s.receive a = s' at hocc ⊢
  cases hocc with
  | envelope huser hchecks hnew => exact .inr ⟨user, huser, hchecks, hnew, rfl⟩

theorem receive_eq {a : Arrival C} {user : User}
    (huser : s.userByKey a.envelope.inner.header.key = some user)
    (hchecks : (s.newRow a.envelope user.userId a.time).passesChecks)
    (hnew : s.rowByHash (C.canonicalizedHash a.envelope.inner) = none) :
    s.receive a = s.push (s.newRow a.envelope user.userId a.time) := by
  have hnone : ¬(s.rowByHash (s.newRow a.envelope user.userId a.time).hash).isSome = true := by
    simp [Store.newRow, hnew]
  unfold Store.receive Store.tryInsertAuthenticatedEnvelope
  cases a.envelope.inner.header.ancestors <;>
    simp [Store.tryInsertAuthenticatedEnvelopeWithTxn, huser, hchecks, hnone]

theorem receive_kept (a : Arrival C) : s.Kept (s.receive a) := by
  apply (receive_cases a).elim
  · intro h
    rw [h]
    exact .refl
  · intro h
    obtain ⟨user, _, _, _, h⟩ := h
    rw [h]
    exact Store.kept_push

theorem receive_users (a : Arrival C) : (s.receive a).users = s.users := by
  apply (receive_cases a).elim
  · exact fun h => by rw [h]
  · intro h
    obtain ⟨user, _, _, _, h⟩ := h
    rw [h]
    rfl

/-- The invariant while envelopes arrive that are not genesis envelopes. -/
structure Store.Receiving (C : Crypto M) (s : Store M) : Prop where
  linked : s.Linked
  sourced : s.Sourced C
  genesisLinked : s.GenesisLinked
  ofRoot : ∀ r ∈ s.messages, ∀ p ∈ s.messages, p.hash = r.prevMsg → p.height = 0 → r.connected

private theorem Store.Receiving.of_roots (hs : s.Linked) (hsourced : s.Sourced C)
    (hg : s.GenesisLinked) (hroots : ∀ r ∈ s.messages, r.height = 0) : s.Receiving C :=
  ⟨hs, hsourced, hg, fun r hr _ _ _ _ => hs.root r hr (hroots r hr)⟩

theorem Store.Receiving.receive (hs : s.Receiving C) {a : Arrival C}
    (h0 : a.envelope.inner.header.height ≠ 0) : (s.receive a).Receiving C := by
  apply (receive_cases a).elim
  · intro h
    rwa [h]
  · intro h
    obtain ⟨user, huser, hchecks, hnew, h⟩ := h
    rw [h]
    constructor
    · exact hs.linked.push hchecks hnew
    · exact hs.sourced.push huser
    · exact .push hs.linked hs.genesisLinked hchecks hnew
    · intro r hr p hp hhash hp0
      obtain ⟨r', hr', rfl⟩ := Store.mem_push.mp hr
      obtain ⟨p', hp', rfl⟩ := Store.mem_push.mp hp
      rw [Row.connectGapParent_hash, Row.connectGapParent_prevMsg] at hhash
      rw [Row.connectGapParent_height] at hp0
      rw [Row.connectGapParent_connected]
      -- the new row is not a root
      have hold : p' ∈ s.messages := by
        apply hp'.resolve_right
        intro heq
        rw [heq] at hp0
        exact h0 hp0
      cases hr' with
      | inl hr' => exact hs.ofRoot r' hr' p' hold hhash hp0
      | inr heq =>
        subst heq
        apply (Store.Linked.newRow_connected_iff _ _ _).mpr
        exact .inr ⟨p', hold, hhash, hs.linked.root p' hold hp0⟩

theorem Store.Receiving.receiveAll (hs : s.Receiving C) {as : List (Arrival C)}
    (h0 : ∀ a ∈ as, a.envelope.inner.header.height ≠ 0) :
    (as.foldl Store.receive s).Receiving C := by
  induction as generalizing s with
  | nil => exact hs
  | cons a as ih =>
    apply ih (hs.receive (h0 a List.mem_cons_self))
    exact fun b hb => h0 b (List.mem_cons_of_mem _ hb)

theorem addUser_userByKey (nickname : String) (key k : XOnlyPublicKey) :
    ((s.addUser nickname key).userByKey k).isSome ↔ (s.userByKey k).isSome ∨ k = key := by
  unfold Store.addUser
  split_ifs with hold
  · constructor
    · exact .inl
    · intro h
      apply h.elim id
      intro h
      rwa [h]
  · have hfresh : ∀ u ∈ s.users, u.key ≠ key := by simpa [Store.userByKey] using hold
    have hlast : ([(⟨s.users.length + 1, nickname, key⟩ : User)].find? (·.key = k)).isSome ↔
        k = key := by
      by_cases hk : key = k
      · simp [hk]
      · simp [hk, Ne.symm hk]
    simp only [Store.userByKey, List.find?_append, Option.isSome_or, Bool.or_eq_true, hlast]

private theorem register_eq {g : Registration C} (h0 : g.envelope.inner.header.height = 0)
    (hnew : s.rowByHash (C.canonicalizedHash g.envelope.inner) = none) :
    ∃ user, (s.addUser g.nickname g.envelope.inner.header.key).Occurs
      (.envelope g.envelope user g.time) (s.register g) := by
  have huser : ((s.addUser g.nickname g.envelope.inner.header.key).userByKey
      g.envelope.inner.header.key).isSome := (addUser_userByKey _ _ _).mpr (.inr rfl)
  obtain ⟨user, huser⟩ := Option.isSome_iff_exists.mp huser
  have hancestors := g.envelope.authentic.genesis h0
  have hchecks : ((s.addUser g.nickname g.envelope.inner.header.key).newRow g.envelope
      user.userId g.time).passesChecks := by
    apply Row.passesChecks_iff.mpr
    refine ⟨.inl h0, fun _ h => absurd h0 h, .inr ⟨h0, ?_⟩⟩
    simp [Row.prevMsg, Store.newRow, Envelope.prevMsg, hancestors]
  have hnew' : (s.addUser g.nickname g.envelope.inner.header.key).rowByHash
      (C.canonicalizedHash g.envelope.inner) = none := by
    rw [← hnew]
    simp [Store.rowByHash]
  have hnone : ¬((s.addUser g.nickname g.envelope.inner.header.key).rowByHash
      ((s.addUser g.nickname g.envelope.inner.header.key).newRow g.envelope user.userId
        g.time).hash).isSome = true := by
    simp [Store.newRow, hnew']
  refine ⟨user, ?_⟩
  have heq : s.register g = (s.addUser g.nickname g.envelope.inner.header.key).push
      ((s.addUser g.nickname g.envelope.inner.header.key).newRow g.envelope user.userId
        g.time) := by
    simp [Store.register, Store.insertUserByGenesisEnvelope,
      Store.tryInsertAuthenticatedEnvelopeWithTxn, huser, hchecks, hnone]
  rw [heq]
  exact .envelope huser hchecks hnew'

/-- The store after the registrations. -/
structure Registered (gs : List (Registration C)) (s : Store M) : Prop where
  receiving : s.Receiving C
  roots : ∀ r ∈ s.messages, r.height = 0
  contents : s.contents = gs.map fun g => g.envelope.entry
  users : ∀ key, (s.userByKey key).isSome ↔ ∃ g ∈ gs, g.envelope.inner.header.key = key

private theorem Registered.register {gs : List (Registration C)} (hs : Registered gs s)
    {g : Registration C} (h0 : g.envelope.inner.header.height = 0)
    (hnew : ∀ g' ∈ gs, g'.envelope.entry.1 ≠ g.envelope.entry.1) :
    Registered (gs ++ [g]) (s.register g) := by
  have hfresh : s.rowByHash (C.canonicalizedHash g.envelope.inner) = none := by
    apply Store.rowByHash_eq_none_iff.mpr
    intro r hr
    have hmem := Store.mem_contents hr
    rw [hs.contents] at hmem
    obtain ⟨g', hg', heq⟩ := List.mem_map.mp hmem
    have hne := hnew g' hg'
    rwa [heq] at hne
  obtain ⟨user, hocc⟩ := register_eq h0 hfresh
  have hlinked := (hs.receiving.linked.addUser g.nickname g.envelope.inner.header.key)
  have hsourced := (hs.receiving.sourced.addUser g.nickname g.envelope.inner.header.key)
  have hg := hs.receiving.genesisLinked.addUser g.nickname g.envelope.inner.header.key
  generalize s.register g = s' at hocc ⊢
  cases hocc with
  | envelope huser hchecks hnew' =>
    have hroots : ∀ r ∈ ((s.addUser g.nickname g.envelope.inner.header.key).push
        ((s.addUser g.nickname g.envelope.inner.header.key).newRow g.envelope user.userId
          g.time)).messages, r.height = 0 := by
      intro r hr
      obtain ⟨r', hr', rfl⟩ := Store.mem_push.mp hr
      rw [Row.connectGapParent_height]
      apply hr'.elim
      · rw [Store.addUser_messages]
        exact hs.roots r'
      · intro heq
        rw [heq]
        exact h0
    constructor
    · apply Store.Receiving.of_roots _ _ _ hroots
      · exact hlinked.push hchecks hnew'
      · exact hsourced.push huser
      · exact .push hlinked hg hchecks hnew'
    · exact hroots
    · rw [Store.contents_push, Store.contents_addUser, hs.contents, List.map_append]
      rfl
    · intro key
      have hkey := addUser_userByKey (s := s) g.nickname g.envelope.inner.header.key key
      rw [hs.users] at hkey
      apply hkey.trans
      simp only [List.mem_append, List.mem_singleton, or_and_right, exists_or, exists_eq_left]
      exact or_congr Iff.rfl eq_comm

theorem registerAll {gs : List (Registration C)}
    (h0 : ∀ g ∈ gs, g.envelope.inner.header.height = 0)
    (hnodup : (gs.map fun g => g.envelope.entry.1).Nodup) :
    Registered gs (gs.foldl Store.register (.empty : Store M)) := by
  induction gs using List.reverseRecOn with
  | nil =>
    refine ⟨.of_roots .empty .empty .empty ?_, ?_, ?_, ?_⟩ <;>
      simp [Store.empty, Store.contents, Store.userByKey]
  | append_singleton gs g ih =>
    rw [List.map_append, List.nodup_append] at hnodup
    rw [List.foldl_append]
    have hih := ih (fun g' hg' => h0 g' (List.mem_append_left _ hg')) hnodup.1
    apply hih.register (h0 g (by simp))
    intro g' hg'
    apply hnodup.2.2 _ (List.mem_map_of_mem hg') _
    simp

end
end JudicaVM
