import JudicaVM.Attest.Links
import Mathlib.Data.List.Nodup

/-!
# Connected envelopes

An envelope is rooted when the parents that its chain names are stored down to a genesis envelope.
The rows that the store marks as connected are rooted, their links lead along their chains, and
attaching the tips connects every rooted row.
-/

namespace JudicaVM

open Transition Closure

section

variable {M : Type}

/-- What is stored, without the links between the rows. -/
def Store.contents (s : Store M) : List (CanonicalEnvelopeHash × Envelope M) :=
  s.messages.map fun r => (r.hash, r.body)

/-- How an authenticated envelope is stored. -/
def Authenticated.entry {C : Crypto M} (e : Authenticated C) : CanonicalEnvelopeHash × Envelope M :=
  (C.canonicalizedHash e.inner, e.inner)

/-- A chain of parents leads from the hash to an envelope at height 0. -/
inductive Rooted (l : List (CanonicalEnvelopeHash × Envelope M)) : CanonicalEnvelopeHash → Prop
  | genesis {h : CanonicalEnvelopeHash} {e : Envelope M} (hmem : (h, e) ∈ l)
      (hheight : e.header.height = 0) : Rooted l h
  | child {h : CanonicalEnvelopeHash} {e : Envelope M} (hmem : (h, e) ∈ l)
      (hparent : Rooted l e.prevMsg) : Rooted l h

theorem Rooted.mono {l l' : List (CanonicalEnvelopeHash × Envelope M)} {h : CanonicalEnvelopeHash}
    (hsub : l ⊆ l') (hr : Rooted l h) : Rooted l' h := by
  induction hr with
  | genesis hmem hheight => exact .genesis (hsub hmem) hheight
  | child hmem _ ih => exact .child (hsub hmem) ih

theorem Rooted.exists_mem {l : List (CanonicalEnvelopeHash × Envelope M)}
    {h : CanonicalEnvelopeHash} (hr : Rooted l h) : ∃ e, (h, e) ∈ l := by
  cases hr with
  | genesis hmem _ => exact ⟨_, hmem⟩
  | child hmem _ => exact ⟨_, hmem⟩

end

namespace Row

variable {M : Type} (r new : Row M) (us : List Updatable)

@[simp] theorem connectGapParent_messageId : (new.connectGapParent r).messageId = r.messageId := by
  unfold connectGapParent; split <;> rfl

@[simp] theorem connectGapParent_body : (new.connectGapParent r).body = r.body := by
  unfold connectGapParent; split <;> rfl

@[simp] theorem connectGapParent_hash : (new.connectGapParent r).hash = r.hash := by
  unfold connectGapParent; split <;> rfl

@[simp] theorem connectGapParent_userId : (new.connectGapParent r).userId = r.userId := by
  unfold connectGapParent; split <;> rfl

@[simp] theorem connectGapParent_genesisId : (new.connectGapParent r).genesisId = r.genesisId := by
  unfold connectGapParent; split <;> rfl

@[simp] theorem connectGapParent_nonce : (new.connectGapParent r).nonce = r.nonce := by
  unfold connectGapParent; split <;> rfl

@[simp] theorem connectGapParent_connected : (new.connectGapParent r).connected = r.connected := by
  unfold connectGapParent; split <;> rfl

@[simp] theorem connectGapParent_height : (new.connectGapParent r).height = r.height := by
  simp [height]

@[simp] theorem connectGapParent_prevMsg : (new.connectGapParent r).prevMsg = r.prevMsg := by
  simp [prevMsg]

@[simp] theorem connect_messageId : (r.connect us).messageId = r.messageId := by
  unfold connect; split <;> rfl

@[simp] theorem connect_body : (r.connect us).body = r.body := by
  unfold connect; split <;> rfl

@[simp] theorem connect_hash : (r.connect us).hash = r.hash := by
  unfold connect; split <;> rfl

@[simp] theorem connect_userId : (r.connect us).userId = r.userId := by
  unfold connect; split <;> rfl

@[simp] theorem connect_nonce : (r.connect us).nonce = r.nonce := by
  unfold connect; split <;> rfl

@[simp] theorem connect_height : (r.connect us).height = r.height := by
  simp [height]

@[simp] theorem connect_prevMsg : (r.connect us).prevMsg = r.prevMsg := by
  simp [prevMsg]

end Row

namespace Store

variable {M : Type} {C : Crypto M} {s s' : Store M} {r p row : Row M}
  {h : CanonicalEnvelopeHash}

@[simp] theorem addUser_messages (nickname : String) (key : XOnlyPublicKey) :
    (s.addUser nickname key).messages = s.messages := by
  unfold addUser; split <;> rfl

theorem mem_push : r ∈ (s.push row).messages ↔
    ∃ r', (r' ∈ s.messages ∨ r' = row) ∧ row.connectGapParent r' = r := by
  simp [push, or_and_right, exists_or, eq_comm]

theorem mem_connectAll :
    r ∈ s.connectAll.messages ↔ ∃ r' ∈ s.messages, r'.connect s.updatable = r := by
  simp [connectAll]

@[simp] theorem contents_addUser (nickname : String) (key : XOnlyPublicKey) :
    (s.addUser nickname key).contents = s.contents := by
  simp [contents]

@[simp] theorem contents_push : (s.push row).contents = s.contents ++ [(row.hash, row.body)] := by
  simp [contents, push]

@[simp] theorem contents_connectAll : s.connectAll.contents = s.contents := by
  simp [contents, connectAll]

private theorem contents_occurs {e : Authenticated C} {user : User} {now : ℤ}
    (h : s.Occurs (.envelope e user now) s') : s'.contents = s.contents ++ [e.entry] := by
  cases h with
  | envelope _ _ _ => exact contents_push

theorem contents_apply (op : StoreOp C) : (s.apply op).contents = s.contents ∨
    ∃ e, op.envelope = some e ∧ (s.apply op).contents = s.contents ++ [e.entry] := by
  apply apply_preserves (I := fun s' => s'.contents = s.contents ∨
    ∃ e, op.envelope = some e ∧ s'.contents = s.contents ++ [e.entry]) op (.inl rfl)
  · exact fun nickname e _ => .inl (contents_addUser nickname e.inner.header.key)
  · intro s₁ e user now s' _ hsame hop hocc
    have hcontents : s₁.contents = s.contents := by simp [contents, hsame]
    refine .inr ⟨e, hop, ?_⟩
    rw [contents_occurs hocc, hcontents]
  · intro s' hocc
    cases hocc with
    | connect _ => exact .inl contents_connectAll

theorem prefix_apply (op : StoreOp C) : s.contents <+: (s.apply op).contents := by
  apply (contents_apply (s := s) op).elim
  · intro h
    exact h ▸ List.prefix_rfl
  · intro h
    obtain ⟨e, _, h⟩ := h
    rw [h]
    exact List.prefix_append _ _

theorem length_le_of_prefix {s' : Store M} (h : s.contents <+: s'.contents) :
    s.messages.length ≤ s'.messages.length := by
  have hle := h.length_le
  rwa [contents, List.length_map, contents, List.length_map] at hle

theorem mem_contents (hr : r ∈ s.messages) : (r.hash, r.body) ∈ s.contents :=
  List.mem_map_of_mem hr

/-- The row to which a link along a hash leads. -/
def idByHash (s : Store M) (h : CanonicalEnvelopeHash) : Option ℕ :=
  (s.rowByHash h).map Row.messageId

@[simp] theorem idByHash_addUser (nickname : String) (key : XOnlyPublicKey) :
    (s.addUser nickname key).idByHash h = s.idByHash h := by
  simp [idByHash, rowByHash]

theorem idByHash_push : (s.push row).idByHash h =
    (s.idByHash h).or (if row.hash = h then some row.messageId else none) := by
  unfold idByHash rowByHash push
  rw [List.find?_map, Option.map_map, List.find?_append, Option.map_or]
  congr 1
  · simp [Function.comp_def]
  · by_cases hh : row.hash = h <;> simp [hh]

@[simp] theorem idByHash_connectAll : s.connectAll.idByHash h = s.idByHash h := by
  simp [idByHash, rowByHash, connectAll, List.find?_map, Function.comp_def]

theorem rowByHash_eq_none_iff : s.rowByHash h = none ↔ ∀ r ∈ s.messages, r.hash ≠ h := by
  simp [rowByHash]

theorem exists_of_idByHash {i : ℕ} (hi : s.idByHash h = some i) :
    ∃ r ∈ s.messages, r.hash = h ∧ r.messageId = i := by
  obtain ⟨r, hfind, hid⟩ := Option.map_eq_some_iff.mp hi
  exact ⟨r, List.mem_of_find?_eq_some hfind, by simpa using List.find?_some hfind, hid⟩

end Store
end JudicaVM
