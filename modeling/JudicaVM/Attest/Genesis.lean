import JudicaVM.Attest.Sourced

/-!
# Genesis links

The insert statement links a row to the genesis that its envelope claims, the recursive statement to
the genesis of its parent. Both agree when the late rows claim the genesis of their parents.
-/

namespace JudicaVM

open Transition Closure

variable {M : Type} {C : Crypto M} {s s' : Store M} {r p row : Row M} {u : Updatable}
  {h : CanonicalEnvelopeHash} {i : ℕ}

namespace Store

/-- No stored envelope has the hash that stands for an absent parent. -/
def ZeroFree (s : Store M) : Prop :=
  ∀ r ∈ s.messages, r.hash ≠ .genesis

/-- A row above height 0 is linked to the genesis that its envelope claims. -/
structure GenesisLinked (s : Store M) : Prop where
  genesis : ∀ r ∈ s.messages, r.height = 0 → r.genesisId = none
  later : ∀ r ∈ s.messages, r.height ≠ 0 → r.genesisId = s.idByHash r.genesis

/-- A rooted row that is not connected yet claims the genesis of its parent. -/
def LateSameGenesis (s : Store M) : Prop :=
  ∀ r ∈ s.messages, ∀ p ∈ s.messages, r.connected = false → Rooted s.contents r.hash →
    p.hash = r.prevMsg → r.genesis = p.genesis

theorem idByHash_push_of_some (hi : s.idByHash h = some i) :
    (s.push row).idByHash h = some i := by
  rw [idByHash_push, hi]
  rfl

end Store

namespace Row

@[simp] theorem connectGapParent_genesis (new r : Row M) :
    (new.connectGapParent r).genesis = r.genesis := by
  simp [genesis]

@[simp] theorem connect_genesis (us : List Updatable) (r : Row M) :
    (r.connect us).genesis = r.genesis := by
  simp [genesis]

end Row

namespace Store.Linked

theorem prevMsg_eq_genesis (hs : s.Linked) (hr : r ∈ s.messages) (h0 : r.height = 0) :
    r.prevMsg = .genesis := by
  have hcheck := (Row.passesChecks_iff.mp (hs.checks r hr)).2.2
  apply (hcheck.resolve_left (by omega)).2

private theorem not_connected_of_child (hs : s.Linked) (hzero : s.ZeroFree) (hr : r ∈ s.messages)
    (hp : p ∈ s.messages) (hhash : p.hash = r.prevMsg) (hpc : p.connected = false) :
    r.connected = false := by
  by_contra hc
  rw [Bool.not_eq_false] at hc
  by_cases h0 : r.height = 0
  · apply hzero p hp
    rw [hhash, hs.prevMsg_eq_genesis hr h0]
  · obtain ⟨q, hq, hqhash, hqc⟩ := hs.step r hr hc h0
    rw [hs.eq_of_hash hq hp (hqhash.trans hhash.symm), hpc] at hqc
    cases hqc

theorem updatable_not_connected (hs : s.Linked) (hzero : s.ZeroFree)
    (hu : u ∈ s.updatable) :
    ∃ r ∈ s.messages, u.rowId = r.messageId ∧ u.messageHash = r.hash ∧ r.connected = false := by
  obtain ⟨c, hc, hreach⟩ := mem_updatable.mp hu
  induction hreach with
  | refl =>
    obtain ⟨m, hm, hmc, _, _, _, _, rfl⟩ := mem_connectable.mp hc
    exact ⟨m, hm, rfl, rfl, hmc⟩
  | tail hreach' hstep ih =>
    obtain ⟨m, hm, hhash, rfl⟩ := mem_children.mp hstep
    obtain ⟨p, hp, _, hphash, hpc⟩ := ih (mem_updatable.mpr ⟨c, hc, hreach'⟩)
    exact ⟨m, hm, rfl, rfl, hs.not_connected_of_child hzero hm hp (hphash.symm.trans hhash) hpc⟩

theorem connect_of_connected (hs : s.Linked) (hzero : s.ZeroFree)
    (hr : r ∈ s.messages) (hc : r.connected) : r.connect s.updatable = r := by
  apply (hs.connect_cases hr).elim And.left
  intro h
  obtain ⟨u, hu, p, hattaches, _⟩ := h
  obtain ⟨r', hr', hid, _, hc'⟩ := hs.updatable_not_connected hzero hu
  rw [hs.eq_of_messageId hr hr' (hattaches.rowId.symm.trans hid), hc'] at hc
  cases hc

theorem height_ne_zero (hs : s.Linked) (hr : r ∈ s.messages) (hc : r.connected = false) :
    r.height ≠ 0 := by
  intro h0
  rw [hs.root r hr h0] at hc
  cases hc

private theorem genesisForChild_eq (hs : s.Linked) (hsourced : s.Sourced C) (hg : s.GenesisLinked)
    (hp : p ∈ s.messages) : p.genesisForChild = s.idByHash p.genesis := by
  unfold Row.genesisForChild
  split_ifs with h0
  · have hgenesis : p.genesis = p.hash := by
      unfold Row.genesis
      rw [(hsourced.authentic hp).genesis h0]
    rw [hgenesis, hs.idByHash_hash hp]
  · exact hg.later p hp h0

private theorem updatable_genesis (hs : s.Linked) (hsourced : s.Sourced C) (hzero : s.ZeroFree)
    (hg : s.GenesisLinked) (hsame : s.LateSameGenesis) (hu : u ∈ s.updatable) :
    ∃ r ∈ s.messages, u.rowId = r.messageId ∧ u.messageHash = r.hash ∧ r.connected = false ∧
      u.genesisId = s.idByHash r.genesis := by
  obtain ⟨c, hc, hreach⟩ := mem_updatable.mp hu
  induction hreach with
  | refl =>
    obtain ⟨m, hm, hmc, parent, hparent, hhash, hpc, rfl⟩ := mem_connectable.mp hc
    refine ⟨m, hm, rfl, rfl, hmc, ?_⟩
    have hrooted := hs.rooted parent hparent hpc
    rw [hhash] at hrooted
    have hgenesis := hsame m hm parent hparent hmc (.child (mem_contents hm) hrooted) hhash
    rw [hgenesis]
    exact hs.genesisForChild_eq hsourced hg hparent
  | tail hreach' hstep ih =>
    have hmem := mem_updatable.mpr ⟨c, hc, hreach'⟩
    obtain ⟨m, hm, hhash, rfl⟩ := mem_children.mp hstep
    obtain ⟨p, hp, hid, hphash, hpc, hpg⟩ := ih hmem
    obtain ⟨p', _, hattaches⟩ := hs.attaches hmem
    have hpp' := hs.eq_of_messageId hattaches.row hp (hattaches.rowId.symm.trans hid)
    subst hpp'
    have hparent : p'.hash = m.prevMsg := hphash.symm.trans hhash
    have hmc := hs.not_connected_of_child hzero hm hp hparent hpc
    refine ⟨m, hm, rfl, rfl, hmc, ?_⟩
    have hrooted := hattaches.rooted
    rw [hparent] at hrooted
    rw [hsame m hm p' hp hmc (.child (mem_contents hm) hrooted) hparent]
    exact hpg

end Store.Linked

namespace Store.GenesisLinked

theorem empty : (Store.empty : Store M).GenesisLinked := by
  constructor <;> simp [Store.empty]

theorem addUser (hg : s.GenesisLinked) (nickname : String) (key : XOnlyPublicKey) :
    (s.addUser nickname key).GenesisLinked := by
  constructor
  · simpa using hg.genesis
  · simpa using hg.later

theorem push (hs : s.Linked) (hg : s.GenesisLinked) {e : Authenticated C} {userId : ℕ} {now : ℤ}
    (hchecks : (s.newRow e userId now).passesChecks)
    (hnew : s.rowByHash (C.canonicalizedHash e.inner) = none) :
    (s.push (s.newRow e userId now)).GenesisLinked := by
  constructor
  · intro r hr h0
    obtain ⟨r', hr', rfl⟩ := mem_push.mp hr
    rw [Row.connectGapParent_height] at h0
    rw [Row.connectGapParent_genesisId]
    cases hr' with
    | inl hold => exact hg.genesis r' hold h0
    | inr heq =>
      subst heq
      have hgenesis : e.inner.getGenesisHash C = C.canonicalizedHash e.inner := by
        unfold Envelope.getGenesisHash
        rw [e.authentic.genesis h0]
      simp only [newRow, hgenesis, hnew, Option.map_none]
  · intro r hr h0
    obtain ⟨r', hr', rfl⟩ := mem_push.mp hr
    rw [Row.connectGapParent_height] at h0
    rw [Row.connectGapParent_genesisId, Row.connectGapParent_genesis]
    have hlink : r'.genesisId = s.idByHash r'.genesis ∧ r'.genesisId.isSome := by
      cases hr' with
      | inl hold => exact ⟨hg.later r' hold h0, hs.genesis_isSome hold h0⟩
      | inr heq =>
        subst heq
        exact ⟨rfl, (Row.passesChecks_iff.mp hchecks).1.resolve_left h0⟩
    obtain ⟨i, hi⟩ := Option.isSome_iff_exists.mp hlink.2
    rw [idByHash_push_of_some (hlink.1.symm.trans hi), hi]

theorem connectAll (hs : s.Linked) (hsourced : s.Sourced C) (hzero : s.ZeroFree)
    (hg : s.GenesisLinked) (hsame : s.LateSameGenesis) : s.connectAll.GenesisLinked := by
  have hconnect : ∀ r ∈ s.messages, r.connect s.updatable = r ∨
      (r.connect s.updatable).genesisId = s.idByHash r.genesis ∧ r.connected = false := by
    intro r hr
    apply (hs.connect_cases hr).elim
    · exact fun h => .inl h.1
    · intro h
      obtain ⟨u, hu, p, hattaches, heq⟩ := h
      obtain ⟨r', hr', hid, _, hc, hgenesis⟩ :=
        hs.updatable_genesis hsourced hzero hg hsame hu
      have hrr' := hs.eq_of_messageId hr' hr (hid.symm.trans hattaches.rowId)
      subst hrr'
      refine .inr ⟨?_, hc⟩
      rw [heq]
      exact hgenesis
  constructor
  · intro r hr h0
    obtain ⟨r', hr', rfl⟩ := mem_connectAll.mp hr
    rw [Row.connect_height] at h0
    apply (hconnect r' hr').elim
    · intro h
      rw [h]
      exact hg.genesis r' hr' h0
    · exact fun h => absurd h0 (hs.height_ne_zero hr' h.2)
  · intro r hr h0
    obtain ⟨r', hr', rfl⟩ := mem_connectAll.mp hr
    rw [Row.connect_height] at h0
    rw [idByHash_connectAll, Row.connect_genesis]
    apply (hconnect r' hr').elim
    · intro h
      rw [h]
      exact hg.later r' hr' h0
    · exact And.left

end Store.GenesisLinked
end JudicaVM
