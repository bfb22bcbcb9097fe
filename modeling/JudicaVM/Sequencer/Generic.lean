import JudicaVM.Sequencer.Online

/-!
# The generic sequencer

The envelopes that the batcher pushes are handed to an extractor, in a task of its own. When all
batches are scheduled and the cache is filled before the two start, they come to rest, and what was
pushed is as much of the scheduled hashes as the cache can serve.
-/

namespace JudicaVM

variable {E R Err : Type}

namespace EnvelopeBatcher

variable {s s' : EnvelopeBatcher E} {cache : CanonicalEnvelopeHash → Option E}
  {batches : List (List CanonicalEnvelopeHash)} {entries : List (CanonicalEnvelopeHash × E)}

/-- The batches are scheduled and the cache is filled before the batcher starts. -/
def loaded (batches : List (List CanonicalEnvelopeHash))
    (entries : List (CanonicalEnvelopeHash × E)) : EnvelopeBatcher E :=
  { initial with
    batchesToSequence := batches
    msgCache := fillCache (fun _ => none) entries
    scheduled := batches
    filled := entries }

private theorem loaded_inv : (loaded batches entries).Inv := by
  constructor
  · show [].map Prod.fst ++ [] ++ batches.flatten = batches.flatten
    simp
  · intro h e hc
    rcases mem_of_fillCache hc with hnone | hmem
    · cases hnone
    · exact hmem
  · exact List.nil_subset _
  · exact fun x hx => .inl (isSome_fillCache.mpr (.inr (List.mem_map_of_mem hx)))
  · exact fun h rest n hphase => by cases hphase
  · exact fun hashes n hphase => by cases hphase
  · exact fun hashes hphase => by cases hphase

/-- Every envelope of a cache is pushed at most once, under its hash. -/
structure Drains (cache : CanonicalEnvelopeHash → Option E) (s : EnvelopeBatcher E) : Prop where
  nodup : (s.pushed.map Prod.fst).Nodup
  pushed : ∀ x ∈ s.pushed, cache x.1 = some x.2
  left : ∀ h, s.msgCache h = if h ∈ s.pushed.map Prod.fst then none else cache h

private theorem loaded_drains : (loaded batches entries).Drains
    (fillCache (fun _ => none) entries) := by
  constructor
  · exact List.nodup_nil
  · exact fun x hx => by cases hx
  · exact fun h => rfl

private theorem batcherStep_pushes (hstep : s.batcherStep = some s') :
    s'.msgCache = s.msgCache ∧ s'.pushed = s.pushed ∨
      ∃ h e, s.msgCache h = some e ∧ s'.msgCache = Function.update s.msgCache h none ∧
        s'.pushed = s.pushed ++ [(h, e)] := by
  unfold EnvelopeBatcher.batcherStep at hstep
  split at hstep
  · split at hstep
    · split_ifs at hstep
      cases hstep
      exact .inl ⟨rfl, rfl⟩
    · cases hstep
      exact .inl ⟨rfl, rfl⟩
  · split_ifs at hstep <;> cases hstep <;> exact .inl ⟨rfl, rfl⟩
  · cases hstep
    exact .inl ⟨rfl, rfl⟩
  · cases hstep
    exact .inl ⟨rfl, rfl⟩
  · split at hstep
    · rename_i h rest e hcached
      cases hstep
      exact .inr ⟨_, e, hcached, rfl, rfl⟩
    · cases hstep
      exact .inl ⟨rfl, rfl⟩
  · cases hstep

private theorem Drains.batcherStep (hs : s.Drains cache) (hstep : s.batcherStep = some s') :
    s'.Drains cache := by
  rcases batcherStep_pushes hstep with ⟨hcache, hpushed⟩ | ⟨h, e, hcached, hcache, hpushed⟩
  · exact ⟨by rw [hpushed]; exact hs.nodup, by rw [hpushed]; exact hs.pushed,
      by rw [hcache, hpushed]; exact hs.left⟩
  · have hleft := hs.left h
    have hnew : h ∉ s.pushed.map Prod.fst := by
      intro hmem
      rw [if_pos hmem, hcached] at hleft
      cases hleft
    rw [if_neg hnew, hcached] at hleft
    constructor
    · rw [hpushed, List.map_append, List.nodup_append]
      refine ⟨hs.nodup, List.nodup_singleton h, ?_⟩
      intro a ha b hb heq
      rw [heq, List.mem_singleton.mp hb] at ha
      exact hnew ha
    · intro x hx
      rw [hpushed] at hx
      rcases List.mem_append.mp hx with hold | hlast
      · exact hs.pushed x hold
      · rw [List.mem_singleton.mp hlast]
        exact hleft.symm
    · intro h'
      rw [hcache, hpushed]
      by_cases heq : h' = h
      · subst heq
        simp
      · have hmem : h' ∈ (s.pushed ++ [(h, e)]).map Prod.fst ↔ h' ∈ s.pushed.map Prod.fst := by
          simp [heq]
        rw [Function.update_of_ne heq, hs.left h']
        exact (if_congr hmem rfl rfl).symm

/-- As much of some hashes as a cache can serve: the first that is left was served before, or is
missing. -/
structure Serves (cache : CanonicalEnvelopeHash → Option E) (hashes : List CanonicalEnvelopeHash)
    (pushed : List (CanonicalEnvelopeHash × E)) (rest : List CanonicalEnvelopeHash) : Prop where
  order : hashes = pushed.map Prod.fst ++ rest
  nodup : (pushed.map Prod.fst).Nodup
  served : ∀ x ∈ pushed, cache x.1 = some x.2
  stops : ∀ h ∈ rest.head?, h ∈ pushed.map Prod.fst ∨ cache h = none

private theorem Inv.serves (hs : s.Inv) (hdrains : s.Drains cache) (hdue : s.due = 0)
    (hrunning : s.shutdown = false) (hblocked : s.batcherStep = none) :
    ∃ rest, Serves cache s.scheduled.flatten s.pushed rest := by
  have horder := hs.order
  unfold EnvelopeBatcher.batcherStep at hblocked
  split at hblocked
  · rename_i hphase
    split at hblocked
    · rename_i hbatches
      rw [hphase, hbatches] at horder
      exact ⟨[], ⟨by rw [← horder]; simp [Batcher.hashes], hdrains.nodup, hdrains.pushed, by simp⟩⟩
    · cases hblocked
  · rename_i hashes n hphase
    split_ifs at hblocked with hwoken
    obtain ⟨hne, _⟩ := hs.waits hashes n hphase
    obtain ⟨h, rest, rfl⟩ := List.exists_cons_of_ne_nil hne
    rw [hphase, List.append_assoc] at horder
    refine ⟨_, ⟨horder.symm, hdrains.nodup, hdrains.pushed, fun h' hh' => ?_⟩⟩
    obtain rfl : h = h' := by simpa [Batcher.hashes] using hh'
    by_contra hcached
    rw [not_or] at hcached
    have hsome : (s.msgCache h).isSome := by
      rw [hdrains.left h, if_neg hcached.1]
      exact Option.isSome_iff_ne_none.mpr hcached.2
    exact hs.not_stuck ⟨h, rest, n, hphase, hsome, Nat.le_of_not_lt hwoken, hdue⟩
  · cases hblocked
  · cases hblocked
  · split at hblocked <;> cases hblocked
  · rename_i hashes hphase
    rcases hs.stops hashes hphase with hshutdown | ⟨rfl, hbatches, _⟩
    · rw [hrunning] at hshutdown
      cases hshutdown
    · rw [hphase, hbatches] at horder
      exact ⟨[], ⟨by rw [← horder]; simp [Batcher.hashes], hdrains.nodup, hdrains.pushed, by simp⟩⟩

theorem Serves.complete {hashes rest : List CanonicalEnvelopeHash}
    {pushed : List (CanonicalEnvelopeHash × E)} (h : Serves cache hashes pushed rest)
    (hnodup : hashes.Nodup) (hall : ∀ h ∈ hashes, (cache h).isSome) :
    (pushed.map Prod.snd).map some = hashes.map cache := by
  have hrest : rest = [] := by
    cases rest with
    | nil => rfl
    | cons h' rest =>
      rw [h.order] at hnodup hall
      rcases h.stops h' rfl with hpushed | hmissing
      · exact absurd rfl ((List.nodup_append.mp hnodup).2.2 h' hpushed h' List.mem_cons_self)
      · have hsome := hall h' (List.mem_append_right _ List.mem_cons_self)
        rw [hmissing] at hsome
        cases hsome
  rw [h.order, hrest, List.append_nil, List.map_map, List.map_map]
  exact List.map_congr_left fun x hx => (h.served x hx).symm

private theorem prefix_of_batcherStep (hstep : s.batcherStep = some s') :
    s.pushed <+: s'.pushed := by
  rcases batcherStep_pushes hstep with ⟨_, hpushed⟩ | ⟨h, e, _, _, hpushed⟩
  · rw [hpushed]
  · rw [hpushed]
    exact List.prefix_append _ _

private theorem serves_of_settles (hsettles : (loaded batches entries).Settles s) :
    ∃ rest, Serves (fillCache (fun _ => none) entries) batches.flatten s.pushed rest := by
  have hkept : s.Inv ∧ s.Drains (fillCache (fun _ => none) entries) := by
    obtain ⟨hrun, -⟩ := hsettles
    induction hrun with
    | refl => exact ⟨loaded_inv, loaded_drains⟩
    | tail _ hstep ih => exact ⟨ih.1.batcherStep hstep, ih.2.batcherStep hstep⟩
  obtain ⟨hscheduled, _, hdue, hrunning⟩ := hsettles.frame
  obtain ⟨rest, hserves⟩ := hkept.1.serves hkept.2 hdue hrunning hsettles.2
  rw [hscheduled] at hserves
  exact ⟨rest, hserves⟩

end EnvelopeBatcher

/-- The batcher and the deserializer. The channel between them holds what was pushed, of which the
deserializer has taken the first envelopes; what it puts out awaits `output_move`. -/
structure GenericSequencer (E R : Type) where
  batcher : EnvelopeBatcher E
  extracted : ℕ
  outputMove : List R

namespace GenericSequencer

/-- The next step of `start_move_deserializer`, if it can take one. What cannot be extracted is
skipped. -/
def deserializerStep (envelopeExtractor : E → Except Err R) (s : GenericSequencer E R) :
    Option (GenericSequencer E R) :=
  match s.batcher.output[s.extracted]? with
  | none => none
  | some envelope =>
    match envelopeExtractor envelope with
    | .ok extracted =>
      some { s with extracted := s.extracted + 1, outputMove := s.outputMove ++ [extracted] }
    | .error _ => some { s with extracted := s.extracted + 1 }

/-- One of the two tasks takes a step. -/
def Advances (envelopeExtractor : E → Except Err R) (s s' : GenericSequencer E R) : Prop :=
  (∃ b, s.batcher.batcherStep = some b ∧ s' = { s with batcher := b }) ∨
    s.deserializerStep envelopeExtractor = some s'

/-- The second state is one in which the tasks may come to rest when they start in the first. -/
def Settles (envelopeExtractor : E → Except Err R) (s s' : GenericSequencer E R) : Prop :=
  Relation.ReflTransGen (Advances envelopeExtractor) s s' ∧ ∀ s'', ¬Advances envelopeExtractor s' s''

/-- The sequencer before its tasks start, when all batches are scheduled and the cache is filled. -/
def loaded (batches : List (List CanonicalEnvelopeHash))
    (entries : List (CanonicalEnvelopeHash × E)) : GenericSequencer E R where
  batcher := .loaded batches entries
  extracted := 0
  outputMove := []

variable {extract : E → Except Err R} {s s' : GenericSequencer E R}
  {batches : List (List CanonicalEnvelopeHash)} {entries : List (CanonicalEnvelopeHash × E)}

private theorem deserializerStep_eq_some_iff : s.deserializerStep extract = some s' ↔
    ∃ e, s.batcher.output[s.extracted]? = some e ∧
      s' = { s with
        extracted := s.extracted + 1
        outputMove := s.outputMove ++ (extract e).toOption.toList } := by
  unfold deserializerStep
  cases hget : s.batcher.output[s.extracted]? with
  | none => simp
  | some e =>
    cases hextract : extract e with
    | error err => simp [hextract, Except.toOption, eq_comm]
    | ok r => simp [hextract, Except.toOption, eq_comm]

/-- The deserializer has put out what it could extract from the envelopes that it has taken. -/
structure Extracts (extract : E → Except Err R) (s : GenericSequencer E R) : Prop where
  extracted_le : s.extracted ≤ s.batcher.output.length
  outputMove : s.outputMove =
    (s.batcher.output.take s.extracted).filterMap fun e => (extract e).toOption

private theorem Extracts.advances (hs : s.Extracts extract) (hstep : Advances extract s s') :
    s'.Extracts extract := by
  rcases hstep with ⟨b, hb, rfl⟩ | hstep
  · obtain ⟨later, hlater⟩ := EnvelopeBatcher.prefix_of_batcherStep hb
    have houtput : b.output = s.batcher.output ++ later.map Prod.snd := by
      rw [EnvelopeBatcher.output, ← hlater, List.map_append]
      rfl
    constructor
    · show s.extracted ≤ b.output.length
      rw [houtput, List.length_append]
      exact hs.extracted_le.trans (Nat.le_add_right _ _)
    · show s.outputMove = (b.output.take s.extracted).filterMap _
      rw [houtput, List.take_append_of_le_length hs.extracted_le]
      exact hs.outputMove
  · obtain ⟨e, hget, rfl⟩ := deserializerStep_eq_some_iff.mp hstep
    obtain ⟨hlt, _⟩ := List.getElem?_eq_some_iff.mp hget
    constructor
    · exact hlt
    · show s.outputMove ++ _ = (s.batcher.output.take (s.extracted + 1)).filterMap _
      rw [List.take_add_one, hget, List.filterMap_append, hs.outputMove]
      cases hextract : (extract e).toOption <;> simp [hextract]

/-- The steps that the tasks have left, at most. -/
def fuel (s : GenericSequencer E R) : ℕ :=
  2 * s.batcher.fuel + (s.batcher.output.length - s.extracted)

private theorem Extracts.fuel_lt (hs : s.Extracts extract) (hstep : Advances extract s s') :
    s'.fuel < s.fuel := by
  have hle := hs.extracted_le
  rcases hstep with ⟨b, hb, rfl⟩ | hstep
  · have hfuel := EnvelopeBatcher.fuel_lt_of_batcherStep hb
    have hlength : b.output.length ≤ s.batcher.output.length + 1 := by
      rcases EnvelopeBatcher.batcherStep_pushes hb with ⟨_, hpushed⟩ | ⟨h, e, _, _, hpushed⟩
      · simp [EnvelopeBatcher.output, hpushed]
      · simp [EnvelopeBatcher.output, hpushed]
    simp only [fuel]
    omega
  · obtain ⟨e, hget, rfl⟩ := deserializerStep_eq_some_iff.mp hstep
    obtain ⟨hlt, _⟩ := List.getElem?_eq_some_iff.mp hget
    simp only [fuel]
    omega

private theorem Extracts.exists_settles (hs : s.Extracts extract) : ∃ s', Settles extract s s' := by
  induction hn : s.fuel using Nat.strong_induction_on generalizing s with
  | h n ih =>
    by_cases hblocked : ∀ s', ¬Advances extract s s'
    · exact ⟨s, .refl, hblocked⟩
    · push Not at hblocked
      obtain ⟨s₁, hstep⟩ := hblocked
      obtain ⟨s', hrun, hrest⟩ := ih s₁.fuel (hn ▸ hs.fuel_lt hstep) (hs.advances hstep) rfl
      exact ⟨s', hrun.head hstep, hrest⟩

private theorem Settles.batcher (hsettles : Settles extract s s') :
    s.batcher.Settles s'.batcher := by
  obtain ⟨hrun, hrest⟩ := hsettles
  constructor
  · clear hrest
    induction hrun with
    | refl => exact .refl
    | tail _ hstep ih =>
      rcases hstep with ⟨b, hb, rfl⟩ | hstep
      · exact ih.tail hb
      · obtain ⟨e, _, rfl⟩ := deserializerStep_eq_some_iff.mp hstep
        exact ih
  · cases hb : s'.batcher.batcherStep with
    | none => rfl
    | some b => exact absurd (.inl ⟨b, hb, rfl⟩) (hrest { s' with batcher := b })

private theorem Settles.outputMove_eq (hs : s.Extracts extract) (hsettles : Settles extract s s') :
    s'.outputMove = s'.batcher.output.filterMap fun e => (extract e).toOption := by
  obtain ⟨hrun, hrest⟩ := hsettles
  have hs' : s'.Extracts extract := by
    clear hrest
    induction hrun with
    | refl => exact hs
    | tail _ hstep ih => exact ih.advances hstep
  have hall : s'.batcher.output.length ≤ s'.extracted := by
    by_contra hlt
    have hget := List.getElem?_eq_getElem (Nat.lt_of_not_le hlt)
    exact hrest _ (.inr (deserializerStep_eq_some_iff.mpr ⟨_, hget, rfl⟩))
  rw [hs'.outputMove, List.take_of_length_le hall]

private theorem loaded_extracts :
    (loaded batches entries : GenericSequencer E R).Extracts extract :=
  ⟨Nat.zero_le _, rfl⟩

/-- A sequencer whose cache has been filled comes to rest, and wherever it does it has served what the
cache can serve. -/
theorem loaded_settles : (∃ s', Settles extract (loaded batches entries) s') ∧
    ∀ s', Settles extract (loaded batches entries) s' →
      (∃ rest, EnvelopeBatcher.Serves (fillCache (fun _ => none) entries) batches.flatten
        s'.batcher.pushed rest) ∧
      s'.outputMove = s'.batcher.output.filterMap fun e => (extract e).toOption :=
  ⟨loaded_extracts.exists_settles, fun _ hsettles =>
    ⟨EnvelopeBatcher.serves_of_settles hsettles.batcher, hsettles.outputMove_eq loaded_extracts⟩⟩

end GenericSequencer

end JudicaVM
