import JudicaVM.Attest.Store
import JudicaVM.Lib.Transition
import Mathlib.Data.List.Induction

/-!
# The links of the message store

The operations on the store are runs of three kinds of events: a user is registered, an envelope is
stored, the tips are attached. Every event keeps the links between the rows correct.
-/

namespace JudicaVM

open Transition

section

variable {M : Type} {C : Crypto M}

inductive StoreOp (C : Crypto M)
  | insertUser (nickname : String) (e : Authenticated C) (now : ℤ)
  | insert (e : Authenticated C) (reuseSafe : Bool) (now : ℤ)
  | attachTips

def StoreOp.envelope : StoreOp C → Option (Authenticated C)
  | .insertUser _ e _ => some e
  | .insert e _ _ => some e
  | .attachTips => none

def Store.apply (s : Store M) : StoreOp C → Store M
  | .insertUser nickname e now => (s.insertUserByGenesisEnvelope nickname e now).2
  | .insert e reuseSafe now => (s.tryInsertAuthenticatedEnvelope e reuseSafe now).2
  | .attachTips => s.attachTips.2

/-- The states that are reached from the empty store by any operations. -/
def Store.Reachable (C : Crypto M) : Store M → Prop :=
  Run (fun s (op : StoreOp C) s' => s' = s.apply op) (fun _ => True) Store.empty

theorem Store.reachable_foldl (ops : List (StoreOp C)) :
    Store.Reachable C (ops.foldl Store.apply (.empty : Store M)) := by
  induction ops using List.reverseRecOn with
  | nil => exact .refl
  | append_singleton ops op ih =>
    rw [List.foldl_append]
    exact ih.tail trivial rfl

inductive StoreEvent (C : Crypto M)
  | user (nickname : String) (key : XOnlyPublicKey)
  | envelope (e : Authenticated C) (user : User) (now : ℤ)
  | connect

/-- The store after the recursive statement. -/
def Store.connectAll (s : Store M) : Store M :=
  { s with messages := s.messages.map fun r => r.connect s.updatable }

inductive Store.Occurs : Store M → StoreEvent C → Store M → Prop
  | user {s : Store M} {nickname : String} {key : XOnlyPublicKey} :
      Occurs s (.user nickname key) (s.addUser nickname key)
  | envelope {s : Store M} {e : Authenticated C} {user : User} {now : ℤ}
      (huser : s.userByKey e.inner.header.key = some user)
      (hchecks : (s.newRow e user.userId now).passesChecks)
      (hnew : s.rowByHash (C.canonicalizedHash e.inner) = none) :
      Occurs s (.envelope e user now) (s.push (s.newRow e user.userId now))
  | connect {s : Store M} (hchecks : ∀ r ∈ s.connectAll.messages, r.passesChecks) :
      Occurs s .connect s.connectAll

variable {s s' : Store M} {e : Authenticated C} {now : ℤ} {I : Store M → Prop}

private theorem insertWithTxn_cases :
    (s.tryInsertAuthenticatedEnvelopeWithTxn e now).2 = s ∨
      ∃ user, s.Occurs (.envelope e user now) (s.tryInsertAuthenticatedEnvelopeWithTxn e now).2 := by
  unfold Store.tryInsertAuthenticatedEnvelopeWithTxn
  cases huser : s.userByKey e.inner.header.key with
  | none => exact .inl rfl
  | some user =>
    simp only
    split_ifs with hchecks hnew
    · exact .inl rfl
    · apply Or.inr
      refine ⟨user, .envelope huser hchecks ?_⟩
      simpa [Store.newRow] using hnew
    · exact .inl rfl

theorem attachTips_cases :
    s.attachTips.2 = s ∨
      s.attachTips.2 = s.connectAll ∧ ∀ r ∈ s.connectAll.messages, r.passesChecks := by
  unfold Store.attachTips
  simp only
  split_ifs with hchecks
  · apply Or.inr
    constructor
    · rfl
    · exact List.all_eq_true.mp hchecks
  · exact .inl rfl

private theorem insertUser_cases {nickname : String} :
    (s.insertUserByGenesisEnvelope nickname e now).2 = s.addUser nickname e.inner.header.key ∨
      ∃ user, (s.addUser nickname e.inner.header.key).Occurs (.envelope e user now)
        (s.insertUserByGenesisEnvelope nickname e now).2 :=
  insertWithTxn_cases

theorem insert_cases {reuseSafe : Bool} :
    (s.tryInsertAuthenticatedEnvelope e reuseSafe now).2 = s ∨
      ∃ user, s.Occurs (.envelope e user now)
        (s.tryInsertAuthenticatedEnvelope e reuseSafe now).2 := by
  unfold Store.tryInsertAuthenticatedEnvelope
  cases e.inner.header.ancestors with
  | none => exact insertWithTxn_cases
  | some a =>
    simp only
    split_ifs
    · exact .inl rfl
    · exact insertWithTxn_cases

/-- The rule for one operation: an envelope is stored when the store is as before the operation, but
for its author. -/
theorem apply_preserves (op : StoreOp C) (hs : I s)
    (huser : ∀ nickname e, op.envelope = some e → I (s.addUser nickname e.inner.header.key))
    (henvelope : ∀ s₁ e user now s', I s₁ → s₁.messages = s.messages → op.envelope = some e →
      s₁.Occurs (.envelope e user now) s' → I s')
    (hconnect : ∀ s', s.Occurs (.connect : StoreEvent C) s' → I s') : I (s.apply op) := by
  cases op with
  | insertUser nickname e now =>
    have hsame : (s.addUser nickname e.inner.header.key).messages = s.messages := by
      unfold Store.addUser
      split <;> rfl
    apply insertUser_cases.elim
    · intro h
      rw [Store.apply, h]
      exact huser nickname e rfl
    · intro h
      obtain ⟨user, h⟩ := h
      exact henvelope _ e user now _ (huser nickname e rfl) hsame rfl h
  | insert e reuseSafe now =>
    apply insert_cases.elim
    · intro h
      rw [Store.apply, h]
      exact hs
    · intro h
      obtain ⟨user, h⟩ := h
      exact henvelope s e user now _ hs rfl rfl h
  | attachTips =>
    apply attachTips_cases.elim
    · intro h
      rw [Store.apply, h]
      exact hs
    · intro h
      rw [Store.apply, h.1]
      exact hconnect _ (.connect h.2)

theorem Store.Reachable.invariant (hempty : I .empty)
    (hstep : ∀ s (ev : StoreEvent C) s', I s → s.Occurs ev s' → I s')
    (h : Store.Reachable C s) : I s := by
  apply Run.invariant _ h hempty
  intro s op s' _ hs h
  rw [h]
  apply apply_preserves op hs
  · exact fun nickname e _ => hstep s (.user nickname e.inner.header.key) _ hs .user
  · exact fun s₁ e user now s' hs₁ _ _ hocc => hstep s₁ _ s' hs₁ hocc
  · exact fun s' hocc => hstep s _ s' hs hocc

end
end JudicaVM
