import JudicaVM.Attest.Chain
import JudicaVM.Lib.Members

/-!
# Reused nonces

An author commits in every envelope to the nonce of the next signature, so that two envelopes upon
one parent share a nonce and reveal the key. The store does not compare the nonce of a signature
with the commitment of the parent.
-/

namespace JudicaVM

open Members Transition

section

variable {M : Type} {C : Crypto M} {s : Store M} {r r' : Row M}

/-- The rows of `reused_nonces.sql`, in the order of the table. -/
def Store.reusedNonces (s : Store M) : List (Row M) :=
  s.messages.filter fun outer =>
    1 < s.messages.countP fun m => m.nonce = outer.nonce && m.userId = outer.userId

/-- The envelopes that `get_reused_nonces` collects for a key from the rows of the query. -/
def getReusedNonces (rows : List (Row M)) (key : XOnlyPublicKey) : List (Envelope M) :=
  (rows.filter (·.key = key)).map Row.body

theorem Store.Sourced.mem_reusedNonces (hs : s.Sourced C) (hr : r ∈ s.messages)
    (hr' : r' ∈ s.messages) (hne : r ≠ r') (hkey : r.key = r'.key) (hnonce : r.nonce = r'.nonce) :
    r ∈ s.reusedNonces := by
  have huser := (hs.userId_eq_iff hr hr').mpr hkey
  apply List.mem_filter.mpr
  refine ⟨hr, decide_eq_true ?_⟩
  apply one_lt_countP hr hr' hne
  · simp
  · simp [hnonce, huser]

/-- The first 32 bytes of the signature are the nonce that the parent committed to. -/
def Envelope.SignedAsCommitted (child parent : Envelope M) : Prop :=
  child.header.unsigned.signature.map Signature.r = some parent.header.nextNonce.point.x

/-- Every connected envelope above height 0 uses the nonce of its parent, and two of them that have
one key and one parent are returned as reused. -/
structure Store.Punishable (s : Store M) : Prop where
  committed : ∀ r ∈ s.messages, r.connected → 0 < r.height →
    ∃ p ∈ s.messages, p.hash = r.prevMsg ∧ r.nonce = p.body.header.nextNonce.point.x
  reused : ∀ r ∈ s.messages, ∀ r' ∈ s.messages, r ≠ r' → r.connected → r'.connected →
    r.key = r'.key → 0 < r.height → 0 < r'.height → r.prevMsg = r'.prevMsg →
    r.nonce = r'.nonce ∧ ∀ rows, rows.Perm s.reusedNonces →
      r.body ∈ getReusedNonces rows r.key ∧ r'.body ∈ getReusedNonces rows r.key

private theorem Store.Sourced.nonce_eq (hs : s.Sourced C) {p : Envelope M} (hr : r ∈ s.messages)
    (h : r.body.SignedAsCommitted p) : r.nonce = p.header.nextNonce.point.x := by
  obtain ⟨sig, hsig, hnonce⟩ := hs.signature_eq hr
  unfold Envelope.SignedAsCommitted at h
  rw [hsig, Option.map_some] at h
  rw [hnonce]
  exact Option.some.inj h

theorem Store.Sourced.mem_getReusedNonces (hs : s.Sourced C) (hr : r ∈ s.messages)
    (hr' : r' ∈ s.messages) (hne : r ≠ r') (hkey : r.key = r'.key) (hnonce : r.nonce = r'.nonce)
    {rows : List (Row M)} (hrows : rows.Perm s.reusedNonces) :
    r.body ∈ getReusedNonces rows r.key := by
  have hmem := hrows.mem_iff.mpr (hs.mem_reusedNonces hr hr' hne hkey hnonce)
  exact List.mem_map_of_mem (List.mem_filter.mpr ⟨hmem, by simp⟩)

/-- When every offered envelope is signed as its parent committed, equivocation is punishable. -/
theorem equivocation_punishable
    (hs : Store.ReachableBy (C := C) (OfferedWith Envelope.SignedAsCommitted) s) :
    s.Punishable := by
  have hlinked := hs.reachable.linked
  have hsourced := hs.reachable.sourced
  have hcommitted : ∀ r ∈ s.messages, r.connected → 0 < r.height →
      ∃ p ∈ s.messages, p.hash = r.prevMsg ∧ r.nonce = p.body.header.nextNonce.point.x := by
    intro r hr hc h0
    obtain ⟨p, hp, _, hhash, _, hsigned⟩ := hlinked.fits_parent hs.allFit hr hc h0
    exact ⟨p, hp, hhash, hsourced.nonce_eq hr hsigned⟩
  constructor
  · exact hcommitted
  · intro r hr r' hr' hne hc hc' hkey h0 h0' hprev
    obtain ⟨p, hp, hhash, hnonce⟩ := hcommitted r hr hc h0
    obtain ⟨p', hp', hhash', hnonce'⟩ := hcommitted r' hr' hc' h0'
    have hpp' : p = p' := hlinked.eq_of_hash hp hp' (by rw [hhash, hhash', hprev])
    have heq : r.nonce = r'.nonce := by rw [hnonce, hnonce', hpp']
    refine ⟨heq, ?_⟩
    intro rows hrows
    constructor
    · exact hsourced.mem_getReusedNonces hr hr' hne hkey heq hrows
    · rw [hkey]
      exact hsourced.mem_getReusedNonces hr' hr (Ne.symm hne) hkey.symm heq.symm hrows

end

instance {M : Type} (child parent : Envelope M) : Decidable (child.SignedAsCommitted parent) :=
  inferInstanceAs (Decidable (_ = _))

/-- Alice signs two messages upon her genesis with the nonce that it commits to. -/
def punished : Store ℕ :=
  ([.insertUser "alice" (smallGenesis 5 10 11 0) 0,
    .insert (smallLater 5 (0, 0) 0 11 12 1) false 0,
    .insert (smallLater 5 (0, 0) 0 11 13 2) false 0].foldl Store.apply (.empty : Store ℕ))

private theorem punished_reachable :
    Store.ReachableBy (C := smallCrypto) (OfferedWith Envelope.SignedAsCommitted) punished := by
  have hempty : Store.ReachableBy (C := smallCrypto) (OfferedWith Envelope.SignedAsCommitted)
    .empty := .refl
  have hgenesis := hempty.apply (.insertUser "alice" (smallGenesis 5 10 11 0) 0) (by
    intro e he
    cases he
    decide)
  have hfirst := hgenesis.apply (.insert (smallLater 5 (0, 0) 0 11 12 1) false 0) (by
    intro e he
    cases he
    decide +kernel)
  exact hfirst.apply (.insert (smallLater 5 (0, 0) 0 11 13 2) false 0) (by
    intro e he
    cases he
    decide +kernel)

theorem equivocation_punishable_twice :
    punished.messages.map Row.connected = [true, true, true] ∧
    punished.messages.map Row.height = [0, 1, 1] ∧ punished.Punishable :=
  ⟨by decide +kernel, by decide +kernel, equivocation_punishable punished_reachable⟩

/-- Alice signs two messages upon her genesis with nonces that she never committed to. -/
def unpunished : Store ℕ :=
  ([.insertUser "alice" (smallGenesis 5 10 11 0) 0,
    .insert (smallLater 5 (0, 0) 0 20 12 1) false 0,
    .insert (smallLater 5 (0, 0) 0 30 13 2) false 0].foldl Store.apply (.empty : Store ℕ))

private theorem unpunished_reachable : Store.Reachable smallCrypto unpunished :=
  Store.reachable_foldl _

theorem equivocation_unpunished :
    ∃ s, Store.Reachable smallCrypto s ∧ ¬s.Punishable ∧
      ∃ r ∈ s.messages, ∃ r' ∈ s.messages, r ≠ r' ∧ r.connected ∧ r'.connected ∧ r.key = r'.key ∧
        r.height = 1 ∧ r'.height = 1 ∧ r.prevMsg = r'.prevMsg ∧ s.reusedNonces = [] := by
  have hrows : ∃ r ∈ unpunished.messages, ∃ r' ∈ unpunished.messages, r ≠ r' ∧ r.connected ∧
      r'.connected ∧ r.key = r'.key ∧ r.height = 1 ∧ r'.height = 1 ∧ r.prevMsg = r'.prevMsg ∧
      unpunished.reusedNonces = [] := by
    decide +kernel
  refine ⟨unpunished, unpunished_reachable, ?_, hrows⟩
  intro h
  obtain ⟨r, hr, r', hr', hne, hc, hc', hkey, h1, h1', hprev, hnone⟩ := hrows
  have hpos : 0 < r.height := by omega
  have hpos' : 0 < r'.height := by omega
  have hreused := (h.reused r hr r' hr' hne hc hc' hkey hpos hpos' hprev).2 [] (by rw [hnone])
  simp [getReusedNonces] at hreused

end JudicaVM
