import JudicaVM.Sequencer.Offline

/-!
# Traces that are handed over

A trace is the chain of a host with the envelopes that it sequences. It is read without checking a
signature or a hash: its author swears that the envelopes are authentic.
-/

namespace JudicaVM

open Checked

section

variable {M : Type}

/-- Only the presence of the ancestors is checked. -/
def Envelope.solemnlySwearSelfAuthenticated (e : Envelope M) :
    Except AuthenticationError (Envelope M) :=
  if e.header.height = 0 ∧ e.header.ancestors.isSome then .error .noAncestorsForGenesis
  else if 0 < e.header.height ∧ e.header.ancestors.isNone then .error .missingAncestors
  else .ok e

structure UnauthenticatedRawSequencer (M : Type) where
  sequencerEnvelopes : List (Envelope (Channelized BroadcastByHost))
  msgCache : List (CanonicalEnvelopeHash × Envelope M)

/-- An entry of a trace, with its envelope sworn to be authentic. -/
def swearEntry (x : CanonicalEnvelopeHash × Envelope M) :
    Except AuthenticationError (CanonicalEnvelopeHash × Envelope M) := do
  let e ← x.2.solemnlySwearSelfAuthenticated
  pure (x.1, e)

/-- `TryFrom<UnauthenticatedRawSequencer<M>> for RawSequencer<M>`. -/
def RawSequencer.tryFrom (value : UnauthenticatedRawSequencer M) :
    Except AuthenticationError (RawSequencer M) := do
  let sequencerEnvelopes ←
    value.sequencerEnvelopes.mapM Envelope.solemnlySwearSelfAuthenticated
  let msgCache ← value.msgCache.mapM swearEntry
  pure { sequencerEnvelopes, msgCache }

inductive SequenceingError (E : Type)
  | mappingError (e : E)
  | missingEnvelope (hash : CanonicalEnvelopeHash)
  deriving DecidableEq, Repr

/-- The loops of `directly_sequence_map` over the hashes of all batches. Every envelope is taken out
of the cache. -/
def sequenceMap {E R : Type} (f : Envelope M → Except E (Option R)) :
    List CanonicalEnvelopeHash → List (CanonicalEnvelopeHash × Envelope M) →
      Except (SequenceingError E) (List R)
  | [], _ => .ok []
  | h :: rest, cache =>
    match cache.lookup h with
    | none => .error (.missingEnvelope h)
    | some e =>
      match f e with
      | .error err => .error (.mappingError err)
      | .ok r => do
        let v ← sequenceMap f rest (cache.filter (·.1 ≠ h))
        pure (r.toList ++ v)

namespace OfflineSequencer

def directlySequenceMap {E R : Type} (o : OfflineSequencer M)
    (f : Envelope M → Except E (Option R)) : Except (SequenceingError E) (List R) :=
  sequenceMap f o.batchesToSequence.flatten o.msgCache

def directlySequence (o : OfflineSequencer M) :
    Except (SequenceingError Empty) (List (Envelope M)) :=
  o.directlySequenceMap fun e => .ok (some e)

end OfflineSequencer

end

variable {M : Type} {value : UnauthenticatedRawSequencer M} {raw : RawSequencer M}
  {o : OfflineSequencer M} {e e' : Envelope M}

/-- The ancestors are absent at height 0 and present above. -/
def Envelope.Rooted (e : Envelope M) : Prop :=
  (e.header.height = 0 → e.header.ancestors = none) ∧
    (0 < e.header.height → e.header.ancestors.isSome)

private theorem swear_eq_ok_iff :
    e.solemnlySwearSelfAuthenticated = .ok e' ↔ e' = e ∧ e.Rooted := by
  unfold Envelope.solemnlySwearSelfAuthenticated Envelope.Rooted
  split_ifs with hgenesis hlater
  · simp [hgenesis.1, Option.ne_none_iff_isSome.mpr hgenesis.2]
  · simp [hlater.1, Option.isNone_iff_eq_none.mp hlater.2]
  · have hroot : (e.header.height = 0 → e.header.ancestors = none) ∧
        (0 < e.header.height → e.header.ancestors.isSome) := by
      constructor
      · intro h0
        simpa [h0] using hgenesis
      · intro hpos
        simpa [hpos, Option.isSome_iff_ne_none] using hlater
    rw [Except.ok.injEq]
    constructor
    · intro h
      exact ⟨h.symm, hroot⟩
    · intro h
      exact h.1.symm

private theorem mapM_eq_ok_iff_of_id {ε α : Type} {f : α → Except ε α} {P : α → Prop}
    {l l' : List α}
    (hf : ∀ a b, f a = .ok b ↔ b = a ∧ P a) : l.mapM f = .ok l' ↔ l' = l ∧ ∀ a ∈ l, P a := by
  induction l generalizing l' with
  | nil => simp [pure_eq_ok, eq_comm]
  | cons a l ih =>
    simp only [List.mapM_cons, bind_eq_ok_iff, pure_eq_ok, Except.ok.injEq, hf, ih]
    constructor
    · rintro ⟨b, ⟨rfl, ha⟩, l'', ⟨rfl, hl⟩, rfl⟩
      exact ⟨rfl, List.forall_mem_cons.mpr ⟨ha, hl⟩⟩
    · rintro ⟨rfl, hall⟩
      obtain ⟨ha, hl⟩ := List.forall_mem_cons.mp hall
      exact ⟨a, ⟨rfl, ha⟩, l, ⟨rfl, hl⟩, rfl⟩

private theorem swearEntry_eq_ok_iff {x y : CanonicalEnvelopeHash × Envelope M} :
    swearEntry x = .ok y ↔ y = x ∧ x.2.Rooted := by
  simp only [swearEntry, bind_eq_ok_iff, pure_eq_ok, Except.ok.injEq, swear_eq_ok_iff]
  constructor
  · rintro ⟨e, ⟨rfl, hroot⟩, rfl⟩
    exact ⟨rfl, hroot⟩
  · rintro ⟨rfl, hroot⟩
    exact ⟨_, ⟨rfl, hroot⟩, rfl⟩

private theorem RawSequencer.tryFrom_eq_ok_iff : RawSequencer.tryFrom value = .ok raw ↔
    raw = ⟨value.sequencerEnvelopes, value.msgCache⟩ ∧
      (∀ e ∈ value.sequencerEnvelopes, e.Rooted) ∧ ∀ x ∈ value.msgCache, x.2.Rooted := by
  have hswear (a b : Envelope (Channelized BroadcastByHost)) :
      a.solemnlySwearSelfAuthenticated = .ok b ↔ b = a ∧ a.Rooted := swear_eq_ok_iff
  have hentry (a b : CanonicalEnvelopeHash × Envelope M) :
      swearEntry a = .ok b ↔ b = a ∧ a.2.Rooted := swearEntry_eq_ok_iff
  simp only [RawSequencer.tryFrom, bind_eq_ok_iff, pure_eq_ok, Except.ok.injEq,
    mapM_eq_ok_iff_of_id hswear, mapM_eq_ok_iff_of_id hentry]
  constructor
  · rintro ⟨envelopes, ⟨rfl, henvelopes⟩, cache, ⟨rfl, hcache⟩, rfl⟩
    exact ⟨rfl, henvelopes, hcache⟩
  · rintro ⟨rfl, henvelopes, hcache⟩
    exact ⟨_, ⟨rfl, henvelopes⟩, _, ⟨rfl, hcache⟩, rfl⟩

private theorem OfflineSequencer.of_tryFrom (h : OfflineSequencer.tryFrom raw = .ok o) :
    (∀ v ∈ raw.sequencerEnvelopes.head?, v.header.height = 0) ∧
      (raw.sequencerEnvelopes.IsChain fun a b => a.header.height + 1 = b.header.height) ∧
      (raw.sequencerEnvelopes.IsChain fun a b => a.header.key = b.header.key) ∧
      o = ⟨raw.sequencerEnvelopes.filterMap fun v => v.msg.data.batch?, raw.msgCache⟩ := by
  unfold OfflineSequencer.tryFrom at h
  split_ifs at h with htip hgap hentity
  rw [Bool.not_eq_true, anyWindow_eq_false_iff] at hgap hentity
  refine ⟨?_, by simpa using hgap, by simpa using hentity, (Except.ok.inj h).symm⟩
  intro v hv
  rw [Option.mem_def.mp hv] at htip
  simpa using htip

/-- What the conversions check of a trace. -/
structure UnauthenticatedRawSequencer.Consistent (value : UnauthenticatedRawSequencer M) : Prop where
  heights : ∀ (i : ℕ) (hi : i < value.sequencerEnvelopes.length),
    (value.sequencerEnvelopes.get ⟨i, hi⟩).header.height = i
  keys : ∀ a ∈ value.sequencerEnvelopes, ∀ b ∈ value.sequencerEnvelopes,
    a.header.key = b.header.key
  ancestors : ∀ v ∈ value.sequencerEnvelopes, v.header.ancestors = none ↔ v.header.height = 0
  cached : ∀ x ∈ value.msgCache, x.2.Rooted

/-- The hashes that the chain of a trace lists, in order. -/
def UnauthenticatedRawSequencer.hashes (value : UnauthenticatedRawSequencer M) :
    List CanonicalEnvelopeHash :=
  (value.sequencerEnvelopes.filterMap fun v => v.msg.data.batch?).flatten

private theorem heights_eq_iff {l : List (Envelope (Channelized BroadcastByHost))} :
    ((∀ v ∈ l.head?, v.header.height = 0) ∧
      l.IsChain fun a b => a.header.height + 1 = b.header.height) ↔
    ∀ (i : ℕ) (hi : i < l.length), (l.get ⟨i, hi⟩).header.height = i := by
  simp only [List.get_eq_getElem, List.isChain_iff_getElem]
  constructor
  · rintro ⟨hfirst, hchain⟩ i hi
    induction i with
    | zero =>
      apply hfirst
      rw [List.head?_eq_getElem?, List.getElem?_eq_getElem hi]
      exact rfl
    | succ i ih =>
      have hheight := ih (by omega)
      have hnext := hchain i hi
      omega
  · intro h
    constructor
    · intro v hv
      rw [List.head?_eq_getElem?] at hv
      obtain ⟨hi, rfl⟩ := List.getElem?_eq_some_iff.mp hv
      exact h 0 hi
    · intro i hi
      have hheight := h i (by omega)
      have hnext := h (i + 1) hi
      omega

private theorem keys_eq_iff {l : List (Envelope (Channelized BroadcastByHost))} :
    (l.IsChain fun a b => a.header.key = b.header.key) ↔
      ∀ a ∈ l, ∀ b ∈ l, a.header.key = b.header.key := by
  constructor
  · intro h
    have hfirst (i : ℕ) (hi : i < l.length) (h0 : 0 < l.length) :
        l[i].header.key = l[0].header.key := by
      induction i with
      | zero => rfl
      | succ i ih => rw [← List.isChain_iff_getElem.mp h i hi, ih (by omega)]
    intro a ha b hb
    obtain ⟨i, hi, rfl⟩ := List.getElem_of_mem ha
    obtain ⟨j, hj, rfl⟩ := List.getElem_of_mem hb
    rw [hfirst i hi (by omega), hfirst j hj (by omega)]
  · intro h
    apply List.Pairwise.isChain
    exact List.pairwise_of_forall_mem_list fun a ha b hb => h a ha b hb

theorem accepted_iff : (∃ raw, RawSequencer.tryFrom value = .ok raw ∧
      OfflineSequencer.tryFrom raw = .ok o) ↔
    value.Consistent ∧ o = ⟨value.sequencerEnvelopes.filterMap fun v => v.msg.data.batch?,
      value.msgCache⟩ := by
  constructor
  · rintro ⟨raw, hraw, ho⟩
    obtain ⟨rfl, hroots, hcache⟩ := RawSequencer.tryFrom_eq_ok_iff.mp hraw
    obtain ⟨hfirst, hchain, hkeys, rfl⟩ := OfflineSequencer.of_tryFrom ho
    have hheights := heights_eq_iff.mp ⟨hfirst, hchain⟩
    refine ⟨⟨hheights, keys_eq_iff.mp hkeys, fun v hv => ?_, hcache⟩, rfl⟩
    refine ⟨fun hnone => ?_, (hroots v hv).1⟩
    obtain ⟨⟨i, hi⟩, rfl⟩ := List.get_of_mem hv
    by_contra hne
    have hheight : (value.sequencerEnvelopes.get ⟨i, hi⟩).header.height = i := hheights i hi
    have hsome := (hroots _ hv).2 (by omega)
    rw [hnone] at hsome
    cases hsome
  · rintro ⟨h, rfl⟩
    obtain ⟨hfirst, hchain⟩ := heights_eq_iff.mpr h.heights
    refine ⟨_, RawSequencer.tryFrom_eq_ok_iff.mpr ⟨rfl, fun v hv => ?_, h.cached⟩, ?_⟩
    · refine ⟨(h.ancestors v hv).mpr, fun hpos => Option.isSome_iff_ne_none.mpr fun hnone => ?_⟩
      have h0 := (h.ancestors v hv).mp hnone
      omega
    · exact OfflineSequencer.tryFrom_eq hfirst hchain (keys_eq_iff.mpr h.keys)

private theorem lookup_filter_ne {α : Type} {cache : List (CanonicalEnvelopeHash × α)}
    {h h' : CanonicalEnvelopeHash} :
    (cache.filter (·.1 ≠ h)).lookup h' = if h' = h then none else cache.lookup h' := by
  induction cache with
  | nil => simp
  | cons x cache ih =>
    by_cases hx : x.1 = h
    · rw [List.filter_cons_of_neg (by simp [hx]), ih]
      split_ifs with hh
      · rfl
      · rw [List.lookup_cons, beq_false_of_ne (hx ▸ hh)]
    · rw [List.filter_cons_of_pos (by simp [hx]), List.lookup_cons, List.lookup_cons, ih]
      by_cases hh : h' = x.1
      · subst hh
        simp [hx]
      · rw [beq_false_of_ne hh]

section

variable {E R : Type} {f : Envelope M → Except E (Option R)}
  {cache cache' : List (CanonicalEnvelopeHash × Envelope M)} {h : CanonicalEnvelopeHash}
  {hashes : List CanonicalEnvelopeHash} {v : List R}

/-- What the envelope of a hash is mapped to. -/
def picked (f : Envelope M → Except E (Option R))
    (cache : List (CanonicalEnvelopeHash × Envelope M)) (h : CanonicalEnvelopeHash) : Option R :=
  (cache.lookup h).bind fun e => (f e).toOption.join

/-- The cache has the envelope of a hash, and it can be mapped. -/
def Picks (f : Envelope M → Except E (Option R))
    (cache : List (CanonicalEnvelopeHash × Envelope M)) (h : CanonicalEnvelopeHash) : Prop :=
  ∃ e r, cache.lookup h = some e ∧ f e = .ok r

private theorem picks_congr (heq : cache'.lookup h = cache.lookup h) :
    Picks f cache' h ↔ Picks f cache h := by
  unfold Picks
  rw [heq]

private theorem filterMap_picked_congr (heq : ∀ h ∈ hashes, cache'.lookup h = cache.lookup h) :
    hashes.filterMap (picked f cache') = hashes.filterMap (picked f cache) := by
  apply List.filterMap_congr
  intro h hh
  unfold picked
  rw [heq h hh]

/-- The envelopes of the hashes are mapped in order. The hashes must be distinct. -/
theorem sequenceMap_eq_ok_iff : sequenceMap f hashes cache = .ok v ↔
    hashes.Nodup ∧ (∀ h ∈ hashes, Picks f cache h) ∧ v = hashes.filterMap (picked f cache) := by
  induction hashes generalizing cache v with
  | nil => simp [sequenceMap, eq_comm]
  | cons h rest ih =>
    -- an envelope that is taken out is missing for a second occurrence of its hash
    have hgone : ¬Picks f (cache.filter (·.1 ≠ h)) h := by
      rintro ⟨e, r, he, _⟩
      rw [lookup_filter_ne, if_pos rfl] at he
      cases he
    have hrest (hmem : h ∉ rest) (h' : CanonicalEnvelopeHash) (hh' : h' ∈ rest) :
        (cache.filter (·.1 ≠ h)).lookup h' = cache.lookup h' := by
      have hne : h' ≠ h := fun heq => hmem (heq ▸ hh')
      rw [lookup_filter_ne, if_neg hne]
    rw [List.nodup_cons, List.forall_mem_cons]
    constructor
    · intro hok
      unfold sequenceMap at hok
      split at hok
      · cases hok
      · rename_i e hlookup
        split at hok
        · cases hok
        · rename_i r hr
          simp only [bind_eq_ok_iff, pure_eq_ok, Except.ok.injEq, ih] at hok
          obtain ⟨v', ⟨hnodup, hall, rfl⟩, rfl⟩ := hok
          have hmem : h ∉ rest := fun hmem => hgone (hall h hmem)
          have hpicked : picked f cache h = r := by
            simp only [picked, hlookup, Option.bind_some, hr]
            cases r <;> rfl
          refine ⟨⟨hmem, hnodup⟩, ⟨⟨e, r, hlookup, hr⟩, fun h' hh' => ?_⟩, ?_⟩
          · exact (picks_congr (hrest hmem h' hh')).mp (hall h' hh')
          · rw [filterMap_picked_congr (hrest hmem), List.filterMap_cons, hpicked]
            cases r <;> rfl
    · rintro ⟨⟨hmem, hnodup⟩, ⟨⟨e, r, hlookup, hr⟩, hall⟩, rfl⟩
      have hlater := ih.mpr ⟨hnodup, fun h' hh' => (picks_congr (hrest hmem h' hh')).mpr (hall h' hh'),
        rfl⟩
      have hpicked : picked f cache h = r := by
        simp only [picked, hlookup, Option.bind_some, hr]
        cases r <;> rfl
      simp only [sequenceMap, hlookup, hr, hlater, ok_bind, pure_eq_ok]
      rw [filterMap_picked_congr (hrest hmem), List.filterMap_cons, hpicked]
      cases r <;> rfl

end

theorem map_some_eq_map_iff {α β : Type} {g : α → Option β} {l : List α} {v : List β} :
    v.map some = l.map g ↔ (∀ a ∈ l, (g a).isSome) ∧ v = l.filterMap g := by
  induction l generalizing v with
  | nil => simp
  | cons a l ih =>
    rw [List.map_cons, List.map_eq_cons_iff, List.forall_mem_cons]
    constructor
    · rintro ⟨b, rest, rfl, hb, hrest⟩
      obtain ⟨hall, rfl⟩ := ih.mp hrest
      refine ⟨⟨hb ▸ rfl, hall⟩, ?_⟩
      rw [List.filterMap_cons, ← hb]
    · rintro ⟨⟨ha, hall⟩, rfl⟩
      obtain ⟨b, hb⟩ := Option.isSome_iff_exists.mp ha
      refine ⟨b, l.filterMap g, ?_, hb.symm, ih.mpr ⟨hall, rfl⟩⟩
      rw [List.filterMap_cons, hb]

theorem directlySequence_eq_ok_iff {v : List (Envelope M)} : o.directlySequence = .ok v ↔
    o.batchesToSequence.flatten.Nodup ∧
      v.map some = o.batchesToSequence.flatten.map fun h => o.msgCache.lookup h := by
  have hpicked : picked (fun e => .ok (some e) : Envelope M → Except Empty _) o.msgCache =
      fun h => o.msgCache.lookup h := by
    funext h
    unfold picked
    cases o.msgCache.lookup h <;> rfl
  have hpicks (h : CanonicalEnvelopeHash) :
      Picks (fun e => .ok (some e) : Envelope M → Except Empty _) o.msgCache h ↔
        (o.msgCache.lookup h).isSome := by
    rw [Option.isSome_iff_exists]
    exact ⟨fun ⟨e, _, he, _⟩ => ⟨e, he⟩, fun ⟨e, he⟩ => ⟨e, _, he, rfl⟩⟩
  unfold OfflineSequencer.directlySequence OfflineSequencer.directlySequenceMap
  rw [sequenceMap_eq_ok_iff, map_some_eq_map_iff, hpicked]
  simp only [hpicks]

/-- A trace that is accepted is one chain of one key by its heights. Its envelopes are output under
the hashes that the chain lists, whose preimages they are when the author of the trace has keyed them
so. -/
theorem accepted_trace (hraw : RawSequencer.tryFrom value = .ok raw)
    (ho : OfflineSequencer.tryFrom raw = .ok o) :
    value.Consistent ∧ ∀ v, o.directlySequence = .ok v →
      value.hashes.Nodup ∧ v.map some = value.hashes.map (fun h => value.msgCache.lookup h) ∧
        ∀ C : Crypto M, (∀ x ∈ value.msgCache, x.1 = C.canonicalizedHash x.2) →
          v.map C.canonicalizedHash = value.hashes := by
  obtain ⟨hconsistent, rfl⟩ := accepted_iff.mp ⟨raw, hraw, ho⟩
  refine ⟨hconsistent, fun v hv => ?_⟩
  obtain ⟨hnodup, hlookup⟩ := directlySequence_eq_ok_iff.mp hv
  refine ⟨hnodup, hlookup, fun C hkeyed => ?_⟩
  have hlookup : v.map some = value.hashes.map fun h => value.msgCache.lookup h := hlookup
  have hhash : (v.map C.canonicalizedHash).map some = value.hashes.map some := by
    have hmap := congrArg (List.map (Option.map C.canonicalizedHash)) hlookup
    rw [List.map_map, List.map_map] at hmap
    rw [List.map_map]
    refine Eq.trans hmap (List.map_congr_left fun h hh => ?_)
    obtain ⟨hall, _⟩ := map_some_eq_map_iff.mp hlookup
    obtain ⟨e, he⟩ := Option.isSome_iff_exists.mp (hall h hh)
    have hmem : (h, e) ∈ value.msgCache := by
      obtain ⟨l₁, l₂, heq, _⟩ := List.lookup_eq_some_iff.mp he
      simp [heq]
    simp only [Function.comp_apply, he, Option.map_some]
    rw [← hkeyed (h, e) hmem]
  exact List.map_injective_iff.mpr (Option.some_injective _) hhash

/-- An envelope of the host with a batch, whose parent has the hash 5. -/
def swornBatch (height : ℤ) (batch : List CanonicalEnvelopeHash) :
    Envelope (Channelized BroadcastByHost) where
  header :=
    { key := ⟨7⟩
      nextNonce := ⟨⟨1⟩⟩
      ancestors := if height = 0 then none else some ⟨⟨5⟩, ⟨5⟩⟩
      tips := []
      height
      sentTimeMs := 0
      unsigned := ⟨none⟩
      checkpoints := .default }
  msg := ⟨.sequence batch, "default"⟩

/-- Two envelopes of the host with one parent, and one envelope under two hashes. -/
def swornTrace : UnauthenticatedRawSequencer ℕ where
  sequencerEnvelopes := [swornBatch 0 [], swornBatch 1 [⟨1⟩], swornBatch 2 [⟨2⟩]]
  msgCache := [(⟨1⟩, smallEnvelope 1 none 0 0 0 0), (⟨2⟩, smallEnvelope 1 none 0 0 0 0)]

def swornSequencer : OfflineSequencer ℕ := ⟨[[], [⟨1⟩], [⟨2⟩]], swornTrace.msgCache⟩

private theorem swornTrace_consistent : swornTrace.Consistent := by
  constructor
  · intro i hi
    have hlt : i < 3 := hi
    have hcases : i = 0 ∨ i = 1 ∨ i = 2 := by omega
    rcases hcases with rfl | rfl | rfl <;> rfl
  · intro a ha b hb
    have hkey (v : Envelope (Channelized BroadcastByHost)) (hv : v ∈ swornTrace.sequencerEnvelopes) :
        v.header.key = ⟨7⟩ := by
      simp only [swornTrace, List.mem_cons, List.not_mem_nil, or_false] at hv
      rcases hv with rfl | rfl | rfl <;> rfl
    rw [hkey a ha, hkey b hb]
  · intro v hv
    simp only [swornTrace, List.mem_cons, List.not_mem_nil, or_false] at hv
    rcases hv with rfl | rfl | rfl <;> simp [swornBatch]
  · intro x hx
    simp only [swornTrace, List.mem_cons, List.not_mem_nil, or_false] at hx
    rcases hx with rfl | rfl <;> simp [smallEnvelope, Envelope.Rooted]

theorem accepted_trace_sworn : swornTrace.Consistent ∧ ∀ v, swornSequencer.directlySequence = .ok v →
    swornTrace.hashes.Nodup ∧
      v.map some = swornTrace.hashes.map (fun h => swornTrace.msgCache.lookup h) ∧
      ∀ C : Crypto ℕ, (∀ x ∈ swornTrace.msgCache, x.1 = C.canonicalizedHash x.2) →
        v.map C.canonicalizedHash = swornTrace.hashes := by
  obtain ⟨raw, hraw, ho⟩ := accepted_iff.mpr ⟨swornTrace_consistent, rfl⟩
  exact accepted_trace hraw ho

/-- The trace is accepted. Whatever the hash function is, one of its envelopes is not under its hash
and is output; and the chain is not linked unless the hash function has a collision. -/
theorem sworn_trace_not_committed : ∃ raw v, RawSequencer.tryFrom swornTrace = .ok raw ∧
    OfflineSequencer.tryFrom raw = .ok swornSequencer ∧
    swornSequencer.directlySequence = .ok v ∧
    (∀ C : Crypto ℕ, v.map C.canonicalizedHash ≠ swornTrace.hashes ∧
      ¬∀ x ∈ swornTrace.msgCache, x.1 = C.canonicalizedHash x.2) ∧
    ∀ C : Crypto (Channelized BroadcastByHost), Function.Injective C.canonicalizedHash →
      ¬swornTrace.sequencerEnvelopes.IsChain fun a b => b.prevMsg = C.canonicalizedHash a := by
  obtain ⟨raw, hraw, ho⟩ := accepted_iff.mpr ⟨swornTrace_consistent, rfl⟩
  refine ⟨raw, [smallEnvelope 1 none 0 0 0 0, smallEnvelope 1 none 0 0 0 0], hraw, ho, ?_, ?_, ?_⟩
  · exact directlySequence_eq_ok_iff.mpr ⟨by decide, rfl⟩
  · intro C
    have hne : (⟨1⟩ : CanonicalEnvelopeHash) ≠ ⟨2⟩ := by
      decide
    constructor
    · intro h
      obtain ⟨h1, hrest⟩ := List.cons.inj h
      exact hne (h1.symm.trans (List.cons.inj hrest).1)
    · intro h
      have h1 := h _ List.mem_cons_self
      have h2 := h _ (List.mem_cons_of_mem _ List.mem_cons_self)
      exact hne (h1.trans h2.symm)
  · intro C hinj hchain
    simp only [swornTrace, List.isChain_cons_cons] at hchain
    have hsame := hinj (hchain.1.symm.trans hchain.2.1)
    have hheight := congrArg (fun v => v.header.height) hsame
    exact absurd hheight (by decide)

end JudicaVM
