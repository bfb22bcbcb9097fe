import JudicaVM.Attest.Rooted
import Mathlib.Data.List.Range

/-!
# The invariant of the message store

Message ids count the rows, no hash is stored twice, links lead to the rows that they name and every
connected row is rooted.
-/

namespace JudicaVM

open Transition Closure

variable {M : Type} {C : Crypto M} {s s' : Store M} {r p row : Row M}

structure Store.Linked (s : Store M) : Prop where
  ids : s.messages.map Row.messageId = List.range' 1 s.messages.length
  hashes : (s.messages.map Row.hash).Nodup
  checks : ∀ r ∈ s.messages, r.passesChecks
  parent : ∀ r ∈ s.messages, r.prevMsgId = s.idByHash r.prevMsg
  root : ∀ r ∈ s.messages, r.height = 0 → r.connected
  step : ∀ r ∈ s.messages, r.connected → r.height ≠ 0 →
    ∃ p ∈ s.messages, p.hash = r.prevMsg ∧ p.connected
  rooted : ∀ r ∈ s.messages, r.connected → Rooted s.contents r.hash

theorem Row.passesChecks_iff : r.passesChecks ↔
    (r.height = 0 ∨ r.genesisId.isSome) ∧
    (r.connected → r.height ≠ 0 → r.prevMsgId.isSome ∧ r.genesisId.isSome) ∧
    (0 < r.height ∨ r.height = 0 ∧ r.prevMsg = .genesis) := by
  unfold passesChecks
  cases r.connected
  · simp
  · by_cases h : r.height = 0 <;> simp [h, and_assoc]

namespace Store.Linked

theorem eq_of_hash (hs : s.Linked) (hr : r ∈ s.messages) (hp : p ∈ s.messages)
    (h : r.hash = p.hash) : r = p :=
  List.inj_on_of_nodup_map hs.hashes hr hp h

theorem eq_of_messageId (hs : s.Linked) (hr : r ∈ s.messages) (hp : p ∈ s.messages)
    (h : r.messageId = p.messageId) : r = p := by
  have hnodup : (s.messages.map Row.messageId).Nodup := by
    rw [hs.ids]
    exact List.nodup_range'
  exact List.inj_on_of_nodup_map hnodup hr hp h

theorem messageId_le (hs : s.Linked) (hr : r ∈ s.messages) : r.messageId ≤ s.messages.length := by
  have hmem : r.messageId ∈ List.range' 1 s.messages.length :=
    hs.ids ▸ List.mem_map_of_mem hr
  have hbounds := List.mem_range'_1.mp hmem
  omega

theorem idByHash_hash (hs : s.Linked) (hr : r ∈ s.messages) :
    s.idByHash r.hash = some r.messageId := by
  unfold Store.idByHash
  cases hfind : s.rowByHash r.hash with
  | none => exact absurd rfl (rowByHash_eq_none_iff.mp hfind r hr)
  | some q =>
    have hq := List.mem_of_find?_eq_some hfind
    have hhash : q.hash = r.hash := by simpa using List.find?_some hfind
    rw [Option.map_some, hs.eq_of_hash hq hr hhash]

theorem height_nonneg (hs : s.Linked) (hr : r ∈ s.messages) : 0 ≤ r.height := by
  have h := (Row.passesChecks_iff.mp (hs.checks r hr)).2.2
  omega

theorem genesis_isSome (hs : s.Linked) (hr : r ∈ s.messages) (h : r.height ≠ 0) :
    r.genesisId.isSome :=
  (Row.passesChecks_iff.mp (hs.checks r hr)).1.resolve_left h

theorem genesisForChild_isSome (hs : s.Linked) (hr : r ∈ s.messages) :
    r.genesisForChild.isSome := by
  unfold Row.genesisForChild
  split_ifs with h
  · rfl
  · exact hs.genesis_isSome hr h

theorem exists_row {h : CanonicalEnvelopeHash} (hr : Rooted s.contents h) :
    ∃ r ∈ s.messages, r.hash = h := by
  obtain ⟨e, he⟩ := hr.exists_mem
  obtain ⟨r, hr, heq⟩ := List.mem_map.mp he
  exact ⟨r, hr, congrArg Prod.fst heq⟩

theorem empty : Store.Linked (.empty : Store M) := by
  constructor <;> simp [Store.empty]

theorem addUser (hs : s.Linked) (nickname : String) (key : XOnlyPublicKey) :
    (s.addUser nickname key).Linked := by
  constructor
  · simpa using hs.ids
  · simpa using hs.hashes
  · simpa using hs.checks
  · simpa using hs.parent
  · simpa using hs.root
  · simpa using hs.step
  · simpa using hs.rooted

private theorem push_parent (hs : s.Linked) (hid : row.prevMsgId = s.idByHash row.prevMsg)
    (hnew : s.rowByHash row.hash = none) (hr : r ∈ (s.push row).messages) :
    r.prevMsgId = (s.push row).idByHash r.prevMsg := by
  obtain ⟨r', hr', rfl⟩ := mem_push.mp hr
  have hid' : r'.prevMsgId = s.idByHash r'.prevMsg := by
    apply hr'.elim (hs.parent r')
    intro h
    rw [h]
    exact hid
  rw [idByHash_push, Row.connectGapParent_prevMsg]
  unfold Row.connectGapParent
  by_cases h : r'.prevMsg = row.hash
  · -- the trigger links the row to the new one, whose hash was not stored before
    have hnone : s.idByHash row.hash = none := by simp [Store.idByHash, hnew]
    simp [h, hnone]
  · simp [h, Ne.symm h, hid']

private theorem passesChecks_connectGapParent (h : r.passesChecks) :
    (row.connectGapParent r).passesChecks := by
  obtain ⟨hgenesis, hconnected, hheight⟩ := Row.passesChecks_iff.mp h
  apply Row.passesChecks_iff.mpr
  refine ⟨by simpa using hgenesis, ?_, by simpa using hheight⟩
  intro hc h0
  have hsome := hconnected (by simpa using hc) (by simpa using h0)
  refine ⟨?_, by simpa using hsome.2⟩
  unfold Row.connectGapParent
  split
  · rfl
  · exact hsome.1

theorem newRow_connected_iff (e : Authenticated C) (userId : ℕ) (now : ℤ) :
    (s.newRow e userId now).connected ↔ e.inner.header.height = 0 ∨
      ∃ p ∈ s.messages, p.hash = e.inner.prevMsg ∧ p.connected := by
  simp [newRow]

theorem push (hs : s.Linked) {e : Authenticated C} {userId : ℕ} {now : ℤ}
    (hchecks : (s.newRow e userId now).passesChecks)
    (hnew : s.rowByHash (C.canonicalizedHash e.inner) = none) :
    (s.push (s.newRow e userId now)).Linked := by
  have hconnected := newRow_connected_iff (s := s) e userId now
  -- a row of the old store is still there, up to the link that the trigger sets
  have hkept : ∀ p ∈ s.messages, (s.newRow e userId now).connectGapParent p ∈
      (s.push (s.newRow e userId now)).messages :=
    fun p hp => mem_push.mpr ⟨p, .inl hp, rfl⟩
  constructor
  · have hids : (s.newRow e userId now).messageId = 1 + s.messages.length := Nat.add_comm _ _
    simp [Store.push, Function.comp_def, hs.ids, hids, List.range'_1_concat]
  · have hnodup := hs.hashes
    have hfresh := rowByHash_eq_none_iff.mp hnew
    simp only [Store.push, List.map_map, List.map_append, List.map_cons, List.map_nil,
      Function.comp_def, Row.connectGapParent_hash]
    apply hnodup.append (List.nodup_singleton _)
    intro h hmem hrow
    obtain ⟨r, hr, rfl⟩ := List.mem_map.mp hmem
    exact hfresh r hr (List.mem_singleton.mp hrow)
  · intro r hr
    obtain ⟨r', hr', rfl⟩ := mem_push.mp hr
    apply passesChecks_connectGapParent
    apply hr'.elim (hs.checks r')
    intro h
    rw [h]
    exact hchecks
  · intro r hr
    exact push_parent hs rfl hnew hr
  · intro r hr h0
    obtain ⟨r', hr', rfl⟩ := mem_push.mp hr
    rw [Row.connectGapParent_height] at h0
    rw [Row.connectGapParent_connected]
    cases hr' with
    | inl hold => exact hs.root r' hold h0
    | inr heq =>
      subst heq
      exact hconnected.mpr (.inl h0)
  · intro r hr hc h0
    obtain ⟨r', hr', rfl⟩ := mem_push.mp hr
    rw [Row.connectGapParent_connected] at hc
    rw [Row.connectGapParent_height] at h0
    rw [Row.connectGapParent_prevMsg]
    have hparent : ∃ p ∈ s.messages, p.hash = r'.prevMsg ∧ p.connected := by
      cases hr' with
      | inl hold => exact hs.step r' hold hc h0
      | inr heq =>
        subst heq
        exact (hconnected.mp hc).resolve_left h0
    obtain ⟨p, hp, hhash, hpc⟩ := hparent
    exact ⟨_, hkept p hp, by simpa using hhash, by simpa using hpc⟩
  · intro r hr hc
    obtain ⟨r', hr', rfl⟩ := mem_push.mp hr
    rw [Row.connectGapParent_connected] at hc
    rw [Row.connectGapParent_hash, contents_push]
    have hsub : s.contents ⊆ s.contents ++ [((s.newRow e userId now).hash, e.inner)] :=
      List.subset_append_left _ _
    cases hr' with
    | inl hold => exact (hs.rooted r' hold hc).mono hsub
    | inr heq =>
      subst heq
      have hmem : ((s.newRow e userId now).hash, e.inner) ∈
          s.contents ++ [((s.newRow e userId now).hash, e.inner)] := by simp
      apply (hconnected.mp hc).elim
      · exact fun h0 => .genesis hmem h0
      · intro hparent
        obtain ⟨p, hp, hhash, hpc⟩ := hparent
        apply Rooted.child hmem
        rw [← hhash]
        exact (hs.rooted p hp hpc).mono hsub

end Store.Linked
end JudicaVM
