import JudicaVM.Attest.Sourced

/-!
# Chains of envelopes

An author who builds every envelope upon its parent, as `wrap_message_in_envelope_for_user_by_key`
does, writes a chain whose heights count the distance from its genesis. The store does not compare
an envelope with its parent; when the offered envelopes do follow their parents, the connected rows
form such chains.
-/

namespace JudicaVM

open Transition Closure

section

variable {M : Type} {C : Crypto M} {s s' : Store M} {r p row : Row M} {e : Authenticated C}
  {l : List (CanonicalEnvelopeHash × Envelope M)}

/-- The states reached by operations whose envelopes satisfy a condition on the stored ones. -/
def Store.ReachableBy (Offer : List (CanonicalEnvelopeHash × Envelope M) → Authenticated C → Prop) :
    Store M → Prop :=
  Run (fun s (op : StoreOp C) s' => (∀ e, op.envelope = some e → Offer s.contents e) ∧
    s' = s.apply op) (fun _ => True) Store.empty

variable {Offer : List (CanonicalEnvelopeHash × Envelope M) → Authenticated C → Prop}
  {I : Store M → Prop}

theorem Store.ReachableBy.reachable (h : Store.ReachableBy Offer s) : Store.Reachable C s := by
  apply Relation.ReflTransGen.mono _ _ _ h
  intro s s' hstep
  obtain ⟨op, hop, hstep⟩ := hstep
  exact ⟨op, hop, hstep.2⟩

private theorem Store.ReachableBy.invariant (hempty : I .empty)
    (huser : ∀ s nickname key, I s → I (s.addUser nickname key))
    (henvelope : ∀ s e user now s', I s → Offer s.contents e →
      s.Occurs (.envelope e user now) s' → I s')
    (hconnect : ∀ s s', I s → s.Occurs (.connect : StoreEvent C) s' → I s')
    (h : Store.ReachableBy Offer s) : I s := by
  apply Run.invariant _ h hempty
  intro s op s' _ hs hstep
  obtain ⟨hoffer, rfl⟩ := hstep
  apply apply_preserves op hs
  · exact fun nickname e _ => huser s nickname e.inner.header.key hs
  · intro s₁ e user now s' hs₁ hsame hop hocc
    have hcontents : s₁.contents = s.contents := by simp [Store.contents, hsame]
    apply henvelope s₁ e user now s' hs₁ _ hocc
    rw [hcontents]
    exact hoffer e hop
  · exact fun s' hocc => hconnect s s' hs hocc

/-- An envelope that is offered fits the stored envelope that it names as its parent, and the stored
envelopes that name it as theirs fit it. -/
def OfferedWith (Fits : Envelope M → Envelope M → Prop)
    (l : List (CanonicalEnvelopeHash × Envelope M)) (e : Authenticated C) : Prop :=
  (0 < e.inner.header.height → ∀ p ∈ l, p.1 = e.inner.prevMsg → Fits e.inner p.2) ∧
  ∀ c ∈ l, 0 < c.2.header.height → c.2.prevMsg = C.canonicalizedHash e.inner → Fits c.2 e.inner

variable {Fits : Envelope M → Envelope M → Prop}

/-- Stored envelopes fit the envelopes that they name as their parents. -/
def AllFit (Fits : Envelope M → Envelope M → Prop)
    (l : List (CanonicalEnvelopeHash × Envelope M)) : Prop :=
  ∀ c ∈ l, ∀ p ∈ l, 0 < c.2.header.height → p.1 = c.2.prevMsg → p.1 ≠ c.1 → Fits c.2 p.2

private theorem AllFit.append (hl : AllFit Fits l) (h : OfferedWith Fits l e) :
    AllFit Fits (l ++ [(C.canonicalizedHash e.inner, e.inner)]) := by
  intro c hc p hp hheight hparent hne
  rw [List.mem_append, List.mem_singleton] at hc hp
  cases hc with
  | inl hc =>
    cases hp with
    | inl hp => exact hl c hc p hp hheight hparent hne
    | inr hp =>
      subst hp
      exact h.2 c hc hheight hparent.symm
  | inr hc =>
    subst hc
    cases hp with
    | inl hp => exact h.1 hheight p hp hparent
    | inr hp =>
      subst hp
      exact absurd rfl hne

theorem Store.ReachableBy.allFit (h : Store.ReachableBy (C := C) (OfferedWith Fits) s) :
    AllFit Fits s.contents := by
  apply Store.ReachableBy.invariant (I := fun s => AllFit Fits s.contents) _ _ _ _ h
  · simp [AllFit, Store.contents, Store.empty]
  · intro s nickname key hs
    rwa [Store.contents_addUser]
  · intro s e user now s' hs hoffer hocc
    cases hocc with
    | envelope _ _ _ =>
      rw [Store.contents_push]
      exact hs.append hoffer
  · intro s s' hs hocc
    cases hocc with
    | connect _ => rwa [Store.contents_connectAll]

private theorem Store.Linked.parent_ne (hs : s.Linked) {h : CanonicalEnvelopeHash}
    (hrooted : Rooted s.contents h) (hr : r ∈ s.messages) (hh : r.hash = h) (h0 : r.height ≠ 0) :
    r.prevMsg ≠ h := by
  induction hrooted generalizing r with
  | genesis hmem hheight =>
    obtain ⟨q, hq, heq⟩ := List.mem_map.mp hmem
    obtain ⟨hhash, rfl⟩ := Prod.mk.inj heq
    rw [hs.eq_of_hash hr hq (hh.trans hhash.symm)] at h0
    exact absurd hheight h0
  | child hmem _ ih =>
    obtain ⟨q, hq, heq⟩ := List.mem_map.mp hmem
    obtain ⟨hhash, rfl⟩ := Prod.mk.inj heq
    have hrq := hs.eq_of_hash hr hq (hh.trans hhash.symm)
    subst hrq
    intro hself
    exact ih hr (hh.trans hself.symm) h0 rfl

/-- The parent of a connected row is stored and connected, the link leads to it, and the row fits
it. -/
theorem Store.Linked.fits_parent (hs : s.Linked) (hfit : AllFit Fits s.contents)
    (hr : r ∈ s.messages) (hc : r.connected) (h0 : 0 < r.height) :
    ∃ p ∈ s.messages, r.prevMsgId = some p.messageId ∧ p.hash = r.prevMsg ∧ p.connected ∧
      Fits r.body p.body := by
  obtain ⟨p, hp, hlink, hhash, hpc⟩ := hs.parent_link hr hc h0
  refine ⟨p, hp, hlink, hhash, hpc, ?_⟩
  apply hfit _ (mem_contents hr) _ (mem_contents hp) h0 hhash
  have hne := hs.parent_ne (hs.rooted r hr hc) hr rfl (by omega)
  rwa [← hhash] at hne

/-- What an envelope has in common with its parent when its author builds upon it. -/
structure Envelope.Follows (C : Crypto M) (child parent : Envelope M) : Prop where
  height : child.header.height = parent.header.height + 1
  key : child.header.key = parent.header.key
  genesis : child.getGenesisHash C = parent.getGenesisHash C

/-- A number of links leads from one row to another. -/
inductive Store.Descends (s : Store M) : ℕ → Row M → Row M → Prop
  | refl {r : Row M} : Descends s 0 r r
  | step {n : ℕ} {r p g : Row M} (hp : p ∈ s.messages) (hlink : r.prevMsgId = some p.messageId)
      (h : Descends s n p g) : Descends s (n + 1) r g

/-- The connected rows of a genesis are one author's, and their heights are their distances from
it. -/
def Store.ChainWellFormed (s : Store M) (r : Row M) : Prop :=
  (0 < r.height → ∃ p ∈ s.messages, p.hash = r.prevMsg ∧ p.connected ∧ r.height = p.height + 1 ∧
    r.key = p.key ∧ r.genesis = p.genesis) ∧
  ∃ g ∈ s.messages, g.height = 0 ∧ s.Descends r.height.toNat r g ∧ r.key = g.key ∧
    r.genesis = g.hash

theorem Store.Sourced.genesis_of_height (hs : s.Sourced C) (hr : r ∈ s.messages)
    (h0 : r.height = 0) : r.genesis = r.hash := by
  unfold Row.genesis
  rw [(hs.authentic hr).genesis h0]

private theorem descends_to_genesis (hs : s.Linked) (hsourced : s.Sourced C)
    (hfit : AllFit (Envelope.Follows C) s.contents) {h : CanonicalEnvelopeHash}
    (hrooted : Rooted s.contents h) (hr : r ∈ s.messages) (hh : r.hash = h) (hc : r.connected) :
    ∃ g ∈ s.messages, g.height = 0 ∧ s.Descends r.height.toNat r g ∧ r.key = g.key ∧
      r.genesis = g.hash := by
  induction hrooted generalizing r with
  | genesis hmem hheight =>
    obtain ⟨q, hq, heq⟩ := List.mem_map.mp hmem
    obtain ⟨hhash, rfl⟩ := Prod.mk.inj heq
    have hrq := hs.eq_of_hash hr hq (hh.trans hhash.symm)
    subst hrq
    have h0 : r.height = 0 := hheight
    refine ⟨r, hr, h0, ?_, rfl, hsourced.genesis_of_height hr h0⟩
    rw [h0]
    exact .refl
  | child hmem _ ih =>
    obtain ⟨q, hq, heq⟩ := List.mem_map.mp hmem
    obtain ⟨hhash, rfl⟩ := Prod.mk.inj heq
    have hrq := hs.eq_of_hash hr hq (hh.trans hhash.symm)
    subst hrq
    by_cases h0 : r.height = 0
    · refine ⟨r, hr, h0, ?_, rfl, hsourced.genesis_of_height hr h0⟩
      rw [h0]
      exact .refl
    · have hpos : 0 < r.height := lt_of_le_of_ne (hs.height_nonneg hr) (Ne.symm h0)
      obtain ⟨p, hp, hlink, hphash, hpc, hfollows⟩ := hs.fits_parent hfit hr hc hpos
      obtain ⟨g, hg, hg0, hdescends, hkey, hgenesis⟩ := ih hp hphash hpc
      have hheight : r.height = p.height + 1 := hfollows.height
      have hgenesis' : r.genesis = p.genesis := by
        rw [hsourced.genesis_eq hr, hsourced.genesis_eq hp, hfollows.genesis]
      refine ⟨g, hg, hg0, ?_, (hfollows.key).trans hkey, hgenesis'.trans hgenesis⟩
      rw [hheight, Int.toNat_add (hs.height_nonneg hp) (by decide)]
      exact .step hp hlink hdescends

/-- When every offered envelope follows its parent, the connected rows form well-formed chains. -/
theorem chains_well_formed
    (hs : Store.ReachableBy (C := C) (OfferedWith (Envelope.Follows C)) s) :
    ∀ r ∈ s.messages, r.connected → s.ChainWellFormed r := by
  have hlinked := hs.reachable.linked
  have hsourced := hs.reachable.sourced
  have hfit := hs.allFit
  intro r hr hc
  constructor
  · intro h0
    obtain ⟨p, hp, _, hhash, hpc, hfollows⟩ := hlinked.fits_parent hfit hr hc h0
    refine ⟨p, hp, hhash, hpc, hfollows.height, hfollows.key, ?_⟩
    rw [hsourced.genesis_eq hr, hsourced.genesis_eq hp, hfollows.genesis]
  · exact descends_to_genesis hlinked hsourced hfit (hlinked.rooted r hr hc) hr rfl hc

end

instance {M : Type} (C : Crypto M) (child parent : Envelope M) :
    Decidable (child.Follows C parent) :=
  decidable_of_iff (child.header.height = parent.header.height + 1 ∧
    child.header.key = parent.header.key ∧ child.getGenesisHash C = parent.getGenesisHash C)
    ⟨fun h => ⟨h.1, h.2.1, h.2.2⟩, fun h => ⟨h.height, h.key, h.genesis⟩⟩

instance {M : Type} {C : Crypto M} (Fits : Envelope M → Envelope M → Prop)
    [∀ child parent, Decidable (Fits child parent)]
    (l : List (CanonicalEnvelopeHash × Envelope M)) (e : Authenticated C) :
    Decidable (OfferedWith Fits l e) :=
  inferInstanceAs (Decidable (_ ∧ _))

theorem Store.ReachableBy.apply {M : Type} {C : Crypto M} {s : Store M}
    {Offer : List (CanonicalEnvelopeHash × Envelope M) → Authenticated C → Prop}
    (h : Store.ReachableBy Offer s) (op : StoreOp C)
    (hop : ∀ e, op.envelope = some e → Offer s.contents e) :
    Store.ReachableBy Offer (s.apply op) :=
  h.tail trivial ⟨hop, rfl⟩

private theorem lateParent_follows :
    Store.ReachableBy (C := smallCrypto) (OfferedWith (Envelope.Follows smallCrypto))
      lateParent := by
  have hempty : Store.ReachableBy (C := smallCrypto)
    (OfferedWith (Envelope.Follows smallCrypto)) .empty := .refl
  have hgenesis := hempty.apply (.insertUser "alice" (smallGenesis 5 10 11 0) 0) (by
    intro e he
    cases he
    decide)
  have hsecond := hgenesis.apply (.insert (smallLater 5 (1, 0) 1 12 13 2) false 0) (by
    intro e he
    cases he
    decide +kernel)
  exact hsecond.apply (.insert (smallLater 5 (0, 0) 0 11 12 1) false 0) (by
    intro e he
    cases he
    decide +kernel)

theorem chains_well_formed_lateParent :
    ∃ r ∈ lateParent.messages, r.height = 1 ∧ r.connected ∧ lateParent.ChainWellFormed r := by
  have hrow : ∃ r ∈ lateParent.messages, r.height = 1 ∧ r.connected := by decide +kernel
  obtain ⟨r, hr, hheight, hc⟩ := hrow
  exact ⟨r, hr, hheight, hc, chains_well_formed lateParent_follows r hr hc⟩

/-- Mallory's first message claims the genesis of alice as its parent, at height 7. -/
def forgedHeight : Store ℕ :=
  ([.insertUser "alice" (smallGenesis 5 10 11 0) 0,
    .insertUser "mallory" (smallGenesis 6 20 21 1) 0,
    .insert (smallLater 6 (0, 0) 6 21 22 2) false 0].foldl Store.apply (.empty : Store ℕ))

private theorem forgedHeight_reachable : Store.Reachable smallCrypto forgedHeight :=
  Store.reachable_foldl _

theorem chain_not_well_formed :
    ∃ s, Store.Reachable smallCrypto s ∧
      ∃ r ∈ s.messages, r.connected ∧ ¬s.ChainWellFormed r := by
  have hrow : ∃ r ∈ forgedHeight.messages, r.connected ∧ 0 < r.height ∧
      ¬∃ p ∈ forgedHeight.messages, p.hash = r.prevMsg ∧ r.height = p.height + 1 := by
    decide +kernel
  obtain ⟨r, hr, hc, h0, hnone⟩ := hrow
  refine ⟨forgedHeight, forgedHeight_reachable, r, hr, hc, ?_⟩
  intro hwf
  obtain ⟨p, hp, hhash, _, hheight, _⟩ := hwf.1 h0
  exact hnone ⟨p, hp, hhash, hheight⟩

end JudicaVM
