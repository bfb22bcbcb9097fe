import JudicaVM.Attest.Linked
import Mathlib.Algebra.BigOperators.Group.List.Basic
import Mathlib.Algebra.Group.Action.Defs
import Mathlib.Tactic.Ring

/-!
# Attaching the tips

The recursive statement reaches exactly the rooted rows that are not connected yet. The invariant of
the store holds in every reachable state.
-/

namespace JudicaVM

open Transition Closure

section

variable {M : Type} {C : Crypto M} {s s' : Store M} {r p row : Row M} {u : Updatable}

namespace Store

/-- Every choice of a message, a parent and a genesis. -/
def candidates (s : Store M) : List Updatable :=
  s.messages.flatMap fun m => s.messages.flatMap fun parent =>
    (s.messages.map (fun g => some g.messageId) ++ s.messages.map Row.genesisId).map
      fun genesisId => m.updatable parent.messageId genesisId

private theorem length_candidates : s.candidates.length = 2 * s.messages.length ^ 3 := by
  simp only [candidates, List.length_flatMap, List.length_map, List.length_append, List.map_const',
    List.sum_replicate, smul_eq_mul]
  ring

private theorem mem_candidates : u ∈ s.candidates ↔ ∃ m ∈ s.messages, ∃ parent ∈ s.messages,
    ∃ g ∈ s.messages, m.updatable parent.messageId (some g.messageId) = u ∨
      m.updatable parent.messageId g.genesisId = u := by
  simp only [candidates, List.mem_flatMap, List.mem_map, List.mem_append]
  constructor
  · intro h
    obtain ⟨m, hm, parent, hparent, genesisId, ⟨g, hg, rfl⟩ | ⟨g, hg, rfl⟩, rfl⟩ := h
    · exact ⟨m, hm, parent, hparent, g, hg, .inl rfl⟩
    · exact ⟨m, hm, parent, hparent, g, hg, .inr rfl⟩
  · intro h
    obtain ⟨m, hm, parent, hparent, g, hg, rfl | rfl⟩ := h
    · exact ⟨m, hm, parent, hparent, _, .inl ⟨g, hg, rfl⟩, rfl⟩
    · exact ⟨m, hm, parent, hparent, _, .inr ⟨g, hg, rfl⟩, rfl⟩

theorem mem_connectable : u ∈ s.connectable ↔ ∃ m ∈ s.messages, m.connected = false ∧
    ∃ parent ∈ s.messages, parent.hash = m.prevMsg ∧ parent.connected ∧
      m.updatable parent.messageId parent.genesisForChild = u := by
  simp [connectable, and_assoc]

theorem mem_children {asParent : Updatable} : u ∈ s.children asParent ↔
    ∃ m ∈ s.messages, asParent.messageHash = m.prevMsg ∧
      m.updatable asParent.rowId asParent.genesisId = u := by
  simp [children, and_assoc]

private theorem connectable_subset (h : u ∈ s.connectable) : u ∈ s.candidates := by
  obtain ⟨m, hm, _, parent, hparent, _, _, rfl⟩ := mem_connectable.mp h
  apply mem_candidates.mpr
  refine ⟨m, hm, parent, hparent, parent, hparent, ?_⟩
  unfold Row.genesisForChild
  split_ifs
  · exact .inl rfl
  · exact .inr rfl

private theorem children_subset {asParent : Updatable} (hparent : asParent ∈ s.candidates)
    (h : u ∈ s.children asParent) : u ∈ s.candidates := by
  obtain ⟨m, hm, _, rfl⟩ := mem_children.mp h
  obtain ⟨q, hq, _, _, g, hg, rfl | rfl⟩ := mem_candidates.mp hparent
  · exact mem_candidates.mpr ⟨m, hm, q, hq, g, hg, .inl rfl⟩
  · exact mem_candidates.mpr ⟨m, hm, q, hq, g, hg, .inr rfl⟩

theorem mem_updatable : u ∈ s.updatable ↔ ∃ c ∈ s.connectable, Reaches s.children c u := by
  apply mem_collect s.candidates
  · exact fun c hc d hd => children_subset hc hd
  · exact fun c hc => connectable_subset hc
  · exact length_candidates.le

private theorem updatable_of_connectable (h : u ∈ s.connectable) : u ∈ s.updatable :=
  mem_updatable.mpr ⟨u, h, .refl⟩

private theorem updatable_of_children {asParent : Updatable} (hparent : asParent ∈ s.updatable)
    (h : u ∈ s.children asParent) : u ∈ s.updatable := by
  obtain ⟨c, hc, hreach⟩ := mem_updatable.mp hparent
  exact mem_updatable.mpr ⟨c, hc, hreach.tail h⟩

/-- What a row of the recursive table says: a rooted message and its parent, which is connected or
is in the table itself. -/
structure Attaches (s : Store M) (u : Updatable) (r p : Row M) : Prop where
  row : r ∈ s.messages
  parent : p ∈ s.messages
  rowId : u.rowId = r.messageId
  messageHash : u.messageHash = r.hash
  parentId : u.parentId = p.messageId
  prevMsg : p.hash = r.prevMsg
  genesis : u.genesisId.isSome
  rooted : Rooted s.contents r.hash
  source : p.connected ∨ ∃ u' ∈ s.updatable, u'.rowId = p.messageId

end Store

namespace Store.Linked

theorem attaches (hs : s.Linked) (h : u ∈ s.updatable) : ∃ r p, s.Attaches u r p := by
  obtain ⟨c, hc, hreach⟩ := mem_updatable.mp h
  induction hreach with
  | refl =>
    obtain ⟨m, hm, _, parent, hparent, hhash, hconnected, rfl⟩ := mem_connectable.mp hc
    refine ⟨m, parent, hm, hparent, rfl, rfl, rfl, hhash, hs.genesisForChild_isSome hparent, ?_,
      .inl hconnected⟩
    apply Rooted.child (mem_contents hm)
    have hrooted := hs.rooted parent hparent hconnected
    rwa [hhash] at hrooted
  | tail hreach' hstep ih =>
    have hmem := mem_updatable.mpr ⟨c, hc, hreach'⟩
    obtain ⟨m, hm, hhash, rfl⟩ := mem_children.mp hstep
    obtain ⟨r, p, hparent⟩ := ih hmem
    refine ⟨m, r, hm, hparent.row, rfl, rfl, hparent.rowId, ?_, hparent.genesis, ?_,
      .inr ⟨_, hmem, hparent.rowId⟩⟩
    · rw [← hparent.messageHash, hhash]
    · apply Rooted.child (mem_contents hm)
      have hrooted := hparent.rooted
      rwa [← hparent.messageHash, hhash] at hrooted

private theorem updatable_of_rooted (hs : s.Linked) {h : CanonicalEnvelopeHash}
    (hrooted : Rooted s.contents h) (hr : r ∈ s.messages) (hh : r.hash = h) :
    r.connected ∨ ∃ u ∈ s.updatable, u.rowId = r.messageId := by
  induction hrooted generalizing r with
  | genesis hmem hheight =>
    obtain ⟨q, hq, heq⟩ := List.mem_map.mp hmem
    obtain ⟨hhash, rfl⟩ := Prod.mk.inj heq
    have hrq : r = q := hs.eq_of_hash hr hq (hh.trans hhash.symm)
    subst hrq
    exact .inl (hs.root r hr hheight)
  | child hmem hparent ih =>
    obtain ⟨q, hq, heq⟩ := List.mem_map.mp hmem
    obtain ⟨hhash, rfl⟩ := Prod.mk.inj heq
    have hrq : r = q := hs.eq_of_hash hr hq (hh.trans hhash.symm)
    subst hrq
    obtain ⟨p, hp, hphash⟩ := exists_row hparent
    by_cases hc : r.connected
    · exact .inl hc
    apply Or.inr
    apply (ih hp hphash).elim
    · intro hpc
      refine ⟨r.updatable p.messageId p.genesisForChild, ?_, rfl⟩
      apply updatable_of_connectable
      exact mem_connectable.mpr ⟨r, hr, by simpa using hc, p, hp, hphash, hpc, rfl⟩
    · intro hu
      obtain ⟨u, hu, hid⟩ := hu
      obtain ⟨p', _, hattaches⟩ := hs.attaches hu
      have hpp' : p' = p := hs.eq_of_messageId hattaches.row hp (hattaches.rowId.symm.trans hid)
      subst hpp'
      refine ⟨r.updatable u.rowId u.genesisId, ?_, rfl⟩
      apply updatable_of_children hu
      refine mem_children.mpr ⟨r, hr, ?_, rfl⟩
      rw [hattaches.messageHash, hphash]
      rfl

theorem connect_cases (hs : s.Linked) (hr : r ∈ s.messages) :
    (r.connect s.updatable = r ∧ ∀ u ∈ s.updatable, u.rowId ≠ r.messageId) ∨
    ∃ u ∈ s.updatable, ∃ p, s.Attaches u r p ∧ r.connect s.updatable =
      { r with connected := true, prevMsgId := some u.parentId, genesisId := u.genesisId } := by
  unfold Row.connect
  cases hfind : s.updatable.find? (·.rowId = r.messageId) with
  | none =>
    refine .inl ⟨rfl, ?_⟩
    intro u hu
    simpa using List.find?_eq_none.mp hfind u hu
  | some u =>
    have hu := List.mem_of_find?_eq_some hfind
    have hid : u.rowId = r.messageId := by simpa using List.find?_some hfind
    obtain ⟨r', p, hattaches⟩ := hs.attaches hu
    have hrr' : r' = r := hs.eq_of_messageId hattaches.row hr (hattaches.rowId.symm.trans hid)
    subst hrr'
    exact .inr ⟨u, hu, p, hattaches, rfl⟩

theorem connect_connected_iff (hs : s.Linked) (hr : r ∈ s.messages) :
    (r.connect s.updatable).connected ↔ Rooted s.contents r.hash := by
  apply (hs.connect_cases hr).elim
  · intro h
    rw [h.1]
    constructor
    · exact hs.rooted r hr
    · intro hrooted
      apply (hs.updatable_of_rooted hrooted hr rfl).resolve_right
      intro hu
      obtain ⟨u, hu, hid⟩ := hu
      exact h.2 u hu hid
  · intro h
    obtain ⟨u, _, p, hattaches, heq⟩ := h
    rw [heq]
    exact ⟨fun _ => hattaches.rooted, fun _ => rfl⟩

private theorem connectAll_checks (hs : s.Linked) (hr : r ∈ s.messages) :
    (r.connect s.updatable).passesChecks := by
  have hchecks := hs.checks r hr
  apply (hs.connect_cases hr).elim
  · intro h
    rwa [h.1]
  · intro h
    obtain ⟨u, _, p, hattaches, heq⟩ := h
    have hheight := (Row.passesChecks_iff.mp hchecks).2.2
    rw [heq]
    exact Row.passesChecks_iff.mpr
      ⟨.inr hattaches.genesis, fun _ _ => ⟨rfl, hattaches.genesis⟩, hheight⟩

theorem attachTips_eq (hs : s.Linked) : s.attachTips.2 = s.connectAll := by
  apply attachTips_cases.elim _ And.left
  intro h
  unfold Store.attachTips at h ⊢
  simp only at h ⊢
  split_ifs with hchecks
  · rfl
  · apply absurd _ hchecks
    apply List.all_eq_true.mpr
    intro r hr
    obtain ⟨r', hr', rfl⟩ := List.mem_map.mp hr
    exact hs.connectAll_checks hr'

theorem connectAll (hs : s.Linked) : s.connectAll.Linked := by
  constructor
  · simpa [Store.connectAll, Function.comp_def] using hs.ids
  · simpa [Store.connectAll, Function.comp_def] using hs.hashes
  · intro r hr
    obtain ⟨r', hr', rfl⟩ := mem_connectAll.mp hr
    exact hs.connectAll_checks hr'
  · intro r hr
    obtain ⟨r', hr', rfl⟩ := mem_connectAll.mp hr
    rw [idByHash_connectAll, Row.connect_prevMsg]
    apply (hs.connect_cases hr').elim
    · intro h
      rw [h.1]
      exact hs.parent r' hr'
    · intro h
      obtain ⟨u, _, p, hattaches, heq⟩ := h
      rw [heq, ← hattaches.prevMsg, hs.idByHash_hash hattaches.parent, hattaches.parentId]
  · intro r hr h0
    obtain ⟨r', hr', rfl⟩ := mem_connectAll.mp hr
    rw [Row.connect_height] at h0
    exact (hs.connect_connected_iff hr').mpr (.genesis (mem_contents hr') h0)
  · intro r hr hc h0
    obtain ⟨r', hr', rfl⟩ := mem_connectAll.mp hr
    rw [Row.connect_height] at h0
    rw [Row.connect_prevMsg]
    -- the parent of a rooted row is rooted
    cases (hs.connect_connected_iff hr').mp hc with
    | genesis hmem hheight =>
      obtain ⟨q, hq, heq⟩ := List.mem_map.mp hmem
      obtain ⟨hhash, rfl⟩ := Prod.mk.inj heq
      exact absurd ((congrArg Row.height (hs.eq_of_hash hr' hq hhash.symm)).trans hheight) h0
    | child hmem hparent =>
      obtain ⟨q, hq, heq⟩ := List.mem_map.mp hmem
      obtain ⟨hhash, rfl⟩ := Prod.mk.inj heq
      rw [hs.eq_of_hash hr' hq hhash.symm]
      obtain ⟨p, hp, hphash⟩ := exists_row hparent
      refine ⟨_, mem_connectAll.mpr ⟨p, hp, rfl⟩, by rw [Row.connect_hash, hphash]; rfl, ?_⟩
      apply (hs.connect_connected_iff hp).mpr
      rwa [hphash]
  · intro r hr hc
    obtain ⟨r', hr', rfl⟩ := mem_connectAll.mp hr
    rw [contents_connectAll, Row.connect_hash]
    exact (hs.connect_connected_iff hr').mp hc

theorem occurs {ev : StoreEvent C} (hs : s.Linked) (h : s.Occurs ev s') : s'.Linked := by
  cases h with
  | user => exact hs.addUser _ _
  | envelope _ hchecks hnew => exact hs.push hchecks hnew
  | connect _ => exact hs.connectAll

theorem of_messages (hs : s.Linked) (h : s'.messages = s.messages) : s'.Linked := by
  obtain ⟨users, messages, members, subscribers⟩ := s
  obtain ⟨users', messages', members', subscribers'⟩ := s'
  obtain rfl : messages' = messages := h
  exact ⟨hs.ids, hs.hashes, hs.checks, hs.parent, hs.root, hs.step, hs.rooted⟩

end Store.Linked

theorem Store.Linked.apply (hs : s.Linked) (op : StoreOp C) : (s.apply op).Linked := by
  apply apply_preserves (I := Store.Linked) op hs
  · exact fun nickname e _ => hs.addUser nickname e.inner.header.key
  · exact fun s₁ e user now s' hs₁ _ _ hocc => hs₁.occurs hocc
  · exact fun s' hocc => hs.occurs hocc

theorem Store.Reachable.linked (h : Store.Reachable C s) : s.Linked :=
  h.invariant .empty fun _ _ _ hs => hs.occurs

/-- Following the links from a row ends in a row at height 0. -/
inductive Store.EndsInGenesis (s : Store M) : Row M → Prop
  | genesis {r : Row M} (hheight : r.height = 0) : EndsInGenesis s r
  | parent {r p : Row M} (hp : p ∈ s.messages) (hlink : r.prevMsgId = some p.messageId)
      (h : EndsInGenesis s p) : EndsInGenesis s r

theorem Store.Linked.parent_link (hs : s.Linked) (hr : r ∈ s.messages) (hc : r.connected)
    (h0 : 0 < r.height) : ∃ p ∈ s.messages, r.prevMsgId = some p.messageId ∧
      p.hash = r.prevMsg ∧ p.connected := by
  obtain ⟨p, hp, hhash, hpc⟩ := hs.step r hr hc (by omega)
  refine ⟨p, hp, ?_, hhash, hpc⟩
  rw [hs.parent r hr, ← hhash, hs.idByHash_hash hp]

private theorem Store.Linked.endsInGenesis (hs : s.Linked) {h : CanonicalEnvelopeHash}
    (hrooted : Rooted s.contents h) (hr : r ∈ s.messages) (hh : r.hash = h) :
    s.EndsInGenesis r := by
  induction hrooted generalizing r with
  | genesis hmem hheight =>
    obtain ⟨q, hq, heq⟩ := List.mem_map.mp hmem
    obtain ⟨hhash, rfl⟩ := Prod.mk.inj heq
    rw [hs.eq_of_hash hr hq (hh.trans hhash.symm)]
    exact .genesis hheight
  | child hmem hparent ih =>
    obtain ⟨q, hq, heq⟩ := List.mem_map.mp hmem
    obtain ⟨hhash, rfl⟩ := Prod.mk.inj heq
    rw [hs.eq_of_hash hr hq (hh.trans hhash.symm)]
    obtain ⟨p, hp, hphash⟩ := exists_row hparent
    apply Store.EndsInGenesis.parent hp _ (ih hp hphash)
    rw [hs.parent q hq]
    exact (congrArg s.idByHash hphash.symm).trans (hs.idByHash_hash hp)

private theorem Store.Linked.updatable_connectAll (hs : s.Linked) : s.connectAll.updatable =
    [] := by
  apply List.eq_nil_iff_forall_not_mem.mpr
  intro u hu
  obtain ⟨c, hc, _⟩ := mem_updatable.mp hu
  obtain ⟨m, hm, hfalse, p, hp, hhash, hpc, _⟩ := mem_connectable.mp hc
  have hrooted := hs.connectAll.rooted p hp hpc
  rw [hhash] at hrooted
  obtain ⟨m', hm', rfl⟩ := mem_connectAll.mp hm
  rw [contents_connectAll, Row.connect_prevMsg] at hrooted
  have htrue := (hs.connect_connected_iff hm').mpr (.child (mem_contents hm') hrooted)
  rw [htrue] at hfalse
  cases hfalse

/-- Links of connected rows, completeness of attaching the tips and its idempotence. -/
theorem connectedness (hs : Store.Reachable C s) :
    (∀ r ∈ s.messages, r.connected → s.EndsInGenesis r ∧
      (0 < r.height → ∃ p ∈ s.messages, r.prevMsgId = some p.messageId ∧
        p.hash = r.prevMsg ∧ p.connected)) ∧
    (∀ r ∈ s.attachTips.2.messages, r.connected ↔ Rooted s.attachTips.2.contents r.hash) ∧
    s.attachTips.2.attachTips = (.ok 0, s.attachTips.2) := by
  have hlinked := hs.linked
  refine ⟨?_, ?_, ?_⟩
  · intro r hr hc
    exact ⟨hlinked.endsInGenesis (hlinked.rooted r hr hc) hr rfl, hlinked.parent_link hr hc⟩
  · intro r hr
    rw [hlinked.attachTips_eq] at hr ⊢
    obtain ⟨r', hr', rfl⟩ := Store.mem_connectAll.mp hr
    rw [Store.contents_connectAll, Row.connect_hash]
    exact hlinked.connect_connected_iff hr'
  · rw [hlinked.attachTips_eq]
    have hchecks : (s.connectAll.messages.all Row.passesChecks) = true :=
      List.all_eq_true.mpr hlinked.connectAll.checks
    simp [Store.attachTips, hlinked.updatable_connectAll, Row.connect, hchecks]

end

/-- A genesis envelope and two descendants, the younger of which arrives first. -/
def lateParent : Store ℕ :=
  ([.insertUser "alice" (smallGenesis 5 10 11 0) 0,
    .insert (smallLater 5 (1, 0) 1 12 13 2) false 0,
    .insert (smallLater 5 (0, 0) 0 11 12 1) false 0].foldl
      Store.apply (.empty : Store ℕ) : Store ℕ)

theorem lateParent_reachable : Store.Reachable smallCrypto lateParent :=
  Store.reachable_foldl _

theorem connectedness_lateParent :
    lateParent.messages.map Row.connected = [true, false, true] ∧
    lateParent.attachTips.2.messages.map Row.connected = [true, true, true] ∧
    lateParent.attachTips.2.attachTips = (.ok 0, lateParent.attachTips.2) :=
  ⟨by decide +kernel, by decide +kernel, (connectedness lateParent_reachable).2.2⟩

end JudicaVM
