import JudicaVM.Attest.ArrivalOrder
import JudicaVM.Attest.PeerInput
import JudicaVM.Sequencer.Fetcher

/-!
# Envelopes that cannot be decoded

The fetcher skips a row that it cannot decode, but the batcher waits for its envelope when the hash is
scheduled. What is scheduled after it is not put out.
-/

namespace JudicaVM

open Serde

section

variable {J E R Err : Type}

/-- The scheduled envelopes that can be decoded, in order. -/
def Store.scheduledEnvelopes (s : Store J) (decode : Envelope J → Option E)
    (batches : List (List CanonicalEnvelopeHash)) : List E :=
  batches.flatten.filterMap (s.decoded decode)

/-- No envelope, as it is decoded, has the hash under which another one is stored. -/
def Store.Distinguishes (s : Store J) (decode : Envelope J → Option E)
    (hash : E → CanonicalEnvelopeHash) : Prop :=
  ∀ r ∈ s.messages, ∀ r' ∈ s.messages, ∀ v, decode r.body = some v → hash v = r'.hash → r = r'

/-- The envelope that is stored under a hash has it also as it is decoded. -/
def Store.FiledUnder (s : Store J) (decode : Envelope J → Option E)
    (hash : E → CanonicalEnvelopeHash) (h : CanonicalEnvelopeHash) : Prop :=
  ∃ v, s.decoded decode h = some v ∧ hash v = h

/-- Up to every scheduled envelope that can be decoded, the hashes are distinct and the envelopes are
filed under them. -/
def Store.Unstalled (s : Store J) (decode : Envelope J → Option E)
    (hash : E → CanonicalEnvelopeHash) (hashes : List CanonicalEnvelopeHash) : Prop :=
  ∀ l h l', hashes = l ++ h :: l' → (s.decoded decode h).isSome →
    (l ++ [h]).Nodup ∧ ∀ h' ∈ l ++ [h], s.FiledUnder decode hash h'

/-- The sequencer with all batches scheduled, after the fetcher has polled the whole store. -/
def GenericSequencer.polled (batches : List (List CanonicalEnvelopeHash))
    (decode : Envelope J → Option E) (hash : E → CanonicalEnvelopeHash) (rows : List (Row J)) :
    GenericSequencer E R :=
  let c := ((Reader.all true).collect decode hash rows (Reader.all true).start).2
  { batcher :=
      { EnvelopeBatcher.initial with
        batchesToSequence := batches
        msgCache := c.map
        scheduled := batches
        filled := fetchedEntries decode hash rows }
    extracted := 0
    outputMove := [] }

variable {C : Crypto J} {decode : Envelope J → Option E} {hash : E → CanonicalEnvelopeHash}
  {extract : E → Except Err R} {s : Store J} {rows : List (Row J)} {h : CanonicalEnvelopeHash}
  {v : E} {batches : List (List CanonicalEnvelopeHash)}

theorem Store.filedUnder_of_any
    (hfiled : (s.decoded decode h).any fun v => decide (hash v = h)) :
    s.FiledUnder decode hash h := by
  cases hv : s.decoded decode h with
  | none =>
    rw [hv] at hfiled
    cases hfiled
  | some v =>
    rw [hv, Option.any_some, decide_eq_true_eq] at hfiled
    exact ⟨v, hv, hfiled⟩

private theorem GenericSequencer.polled_eq :
    (polled batches decode hash rows : GenericSequencer E R) =
      loaded batches (fetchedEntries decode hash rows) := by
  unfold polled loaded EnvelopeBatcher.loaded
  simp only [Reader.collect_map]
  rfl

private theorem fillCache_fetched_iff (hs : s.Linked) (hdistinct : s.Distinguishes decode hash)
    (hrows : rows ⊆ s.messages) (hall : s.messages ⊆ rows)
    (hstored : ∃ r ∈ s.messages, r.hash = h) :
    fillCache (fun _ => none) (fetchedEntries decode hash rows) h = some v ↔
      s.decoded decode h = some v ∧ hash v = h := by
  obtain ⟨r, hr, rfl⟩ := hstored
  have hdecoded : s.decoded decode r.hash = decode r.body := by
    rw [Store.decoded, hs.rowByHash_eq hr]
    rfl
  have hsound (v : E) (hv : fillCache (fun _ => none) (fetchedEntries decode hash rows) r.hash =
      some v) : decode r.body = some v ∧ hash v = r.hash := by
    rcases mem_of_fillCache hv with hnone | hmem
    · cases hnone
    · obtain ⟨r', hr', hdecode, hhash⟩ := OnlineDBFetcher.mem_fetchedEntries.mp hmem
      obtain rfl := hdistinct r' (hrows hr') r hr v hdecode hhash
      exact ⟨hdecode, hhash⟩
  rw [hdecoded]
  constructor
  · exact hsound v
  · rintro ⟨hdecode, hhash⟩
    have hsome : (fillCache (fun _ => none) (fetchedEntries decode hash rows) r.hash).isSome := by
      rw [isSome_fillCache]
      refine .inr (List.mem_map.mpr ⟨(r.hash, v), ?_, rfl⟩)
      exact OnlineDBFetcher.mem_fetchedEntries.mpr ⟨r, hall hr, hdecode, hhash⟩
    obtain ⟨w, hw⟩ := Option.isSome_iff_exists.mp hsome
    rw [hw, ← (hsound w hw).1, hdecode]

private theorem serves_all_iff {cache : CanonicalEnvelopeHash → Option E}
    {hashes rest : List CanonicalEnvelopeHash} {pushed : List (CanonicalEnvelopeHash × E)}
    (hcache : ∀ h ∈ hashes, ∀ v, cache h = some v ↔ s.decoded decode h = some v ∧ hash v = h)
    (hserves : EnvelopeBatcher.Serves cache hashes pushed rest) :
    pushed.map Prod.snd = hashes.filterMap (s.decoded decode) ↔ s.Unstalled decode hash hashes := by
  have hpushed (x : CanonicalEnvelopeHash × E) (hx : x ∈ pushed) :
      s.decoded decode x.1 = some x.2 ∧ hash x.2 = x.1 := by
    have hmem : x.1 ∈ hashes := by
      rw [hserves.order]
      exact List.mem_append_left _ (List.mem_map_of_mem hx)
    exact (hcache x.1 hmem x.2).mp (hserves.served x hx)
  have hserved : (pushed.map Prod.fst).filterMap (s.decoded decode) = pushed.map Prod.snd := by
    rw [List.filterMap_map, ← List.filterMap_eq_map]
    exact List.filterMap_congr fun x hx => (hpushed x hx).1
  have hfiled : ∀ h ∈ pushed.map Prod.fst, s.FiledUnder decode hash h := by
    intro h hh
    obtain ⟨x, hx, rfl⟩ := List.mem_map.mp hh
    exact ⟨x.2, hpushed x hx⟩
  -- all that can be decoded is put out just if nothing that is left can be decoded
  have hrest : pushed.map Prod.snd = hashes.filterMap (s.decoded decode) ↔
      ∀ h ∈ rest, s.decoded decode h = none := by
    rw [hserves.order, List.filterMap_append, hserved, List.self_eq_append_right,
      List.filterMap_eq_nil_iff]
  rw [hrest]
  constructor
  · intro hnone l h l' hsplit hsome
    have hleft : h ∉ rest := by
      intro hmem
      rw [hnone h hmem] at hsome
      cases hsome
    have hpre : l ++ [h] <+: pushed.map Prod.fst := by
      rw [hserves.order, List.append_eq_append_iff] at hsplit
      rcases hsplit with ⟨later, rfl, hrest⟩ | ⟨later, hpushed, hrest⟩
      · exact absurd (by simp [hrest]) hleft
      · cases later with
        | nil =>
          rw [List.nil_append] at hrest
          exact absurd (hrest ▸ List.mem_cons_self) hleft
        | cons h' later =>
          obtain ⟨rfl, rfl⟩ := List.cons.inj hrest
          exact ⟨later, by rw [hpushed, List.append_assoc]; rfl⟩
    exact ⟨hserves.nodup.sublist hpre.sublist, fun h' hh' => hfiled h' (hpre.subset hh')⟩
  · intro hunstalled h hh
    by_contra hsome
    obtain ⟨l, l', hsplit⟩ := List.append_of_mem hh
    have horder : hashes = (pushed.map Prod.fst ++ l) ++ h :: l' := by
      rw [hserves.order, hsplit, List.append_assoc]
    obtain ⟨hnodup, hall⟩ := hunstalled _ h l' horder (Option.isSome_iff_ne_none.mpr hsome)
    -- the first hash that is left is among those that are filed
    obtain ⟨h₀, hhead, hmem⟩ : ∃ h₀ ∈ rest.head?, h₀ ∈ l ++ [h] := by
      rw [hsplit]
      cases l with
      | nil => exact ⟨h, rfl, List.mem_cons_self⟩
      | cons h₀ l => exact ⟨h₀, rfl, List.mem_cons_self⟩
    rw [List.append_assoc] at hnodup hall
    rcases hserves.stops h₀ hhead with hserved | hmissing
    · exact (List.nodup_append.mp hnodup).2.2 h₀ hserved h₀ hmem rfl
    · obtain ⟨v, hv⟩ := hall h₀ (List.mem_append_right _ hmem)
      have hrest : h₀ ∈ hashes := by
        rw [hserves.order]
        exact List.mem_append_right _ (List.mem_of_mem_head? hhead)
      rw [(hcache h₀ hrest v).mpr hv] at hmissing
      cases hmissing

/-- The sequencer comes to rest, and wherever it does it has put out the scheduled envelopes that can
be decoded just if none before them stalls it. -/
theorem polled_outputs_iff (hs : s.Linked) (hdistinct : s.Distinguishes decode hash)
    (hrows : (OnlineDBFetcher.initial s : OnlineDBFetcher J E).Returns rows)
    (hstored : ∀ h ∈ batches.flatten, ∃ r ∈ s.messages, r.hash = h) :
    (∃ q, GenericSequencer.Settles extract (.polled batches decode hash rows) q) ∧
      ∀ q, GenericSequencer.Settles extract (.polled batches decode hash rows) q →
        (q.outputMove = q.batcher.output.filterMap fun e => (extract e).toOption) ∧
          (q.batcher.output = s.scheduledEnvelopes decode batches ↔
            s.Unstalled decode hash batches.flatten) := by
  have hquery : (Reader.all true).query s (OnlineDBFetcher.initial s : OnlineDBFetcher J E).cursor =
      s.messages := by
    apply List.filter_eq_self.mpr
    intro r hr
    simp [Reader.selects, Cursor.Passed, OnlineDBFetcher.initial, OnlineDBFetcher.cursor]
  have hsub : rows ⊆ s.messages := hquery ▸ hrows.1
  have hsup : s.messages ⊆ rows := hquery ▸ hrows.2
  rw [GenericSequencer.polled_eq]
  obtain ⟨hexists, hsettled⟩ :=
    @GenericSequencer.loaded_settles _ _ _ extract batches (fetchedEntries decode hash rows)
  refine ⟨hexists, fun q hq => ?_⟩
  obtain ⟨⟨rest, hserves⟩, hmoves⟩ := hsettled q hq
  refine ⟨hmoves, serves_all_iff (fun h hh v => ?_) hserves⟩
  exact fillCache_fetched_iff hs hdistinct hsub hsup (hstored h hh)

/-- Malformed payloads stall a game just if one of them, or an envelope that is not filed under its
hash, or a hash for the second time, is scheduled before an envelope that can be decoded. -/
theorem decoded_output_iff (hstore : Store.Reachable C s) (hdistinct : s.Distinguishes decode hash)
    (hrows : (OnlineDBFetcher.initial s : OnlineDBFetcher J E).Returns rows)
    (hstored : ∀ h ∈ batches.flatten, ∃ r ∈ s.messages, r.hash = h) :
    (∃ q, GenericSequencer.Settles extract (.polled batches decode hash rows) q) ∧
      ∀ q, GenericSequencer.Settles extract (.polled batches decode hash rows) q →
        (q.batcher.output = s.scheduledEnvelopes decode batches ∧
            q.outputMove = (s.scheduledEnvelopes decode batches).filterMap
              (fun e => (extract e).toOption) ↔
          s.Unstalled decode hash batches.flatten) := by
  obtain ⟨hexists, hsettled⟩ :=
    @polled_outputs_iff _ _ _ _ _ _ extract _ _ batches hstore.linked hdistinct hrows hstored
  refine ⟨hexists, fun q hq => ?_⟩
  obtain ⟨hmoves, houtput⟩ := hsettled q hq
  rw [← houtput]
  constructor
  · exact And.left
  · intro h
    rw [hmoves, h]
    exact ⟨rfl, rfl⟩

end

/-- The scheme under which envelopes are stored. -/
abbrev depthCrypto : Crypto Json := depthLibraries.crypto wrappedJson

/-- The consumer decodes actions of participants. -/
def decodeAction (e : Envelope Json) : Option (Envelope (ParticipantAction Unit)) :=
  (ParticipantAction.decode depthLibraries e.msg).map fun msg => ⟨e.header, msg⟩

abbrev actionHash : Envelope (ParticipantAction Unit) → CanonicalEnvelopeHash :=
  (depthLibraries.crypto (participantAction depthLibraries)).canonicalizedHash

def payloadEnvelope (key : ℕ) (msg : Json) : Envelope Json where
  header := (smallEnvelope key none 0 0 0 0).header
  msg

def payloadGenesis (key : ℕ) (msg : Json) : Authenticated depthCrypto where
  inner := payloadEnvelope key msg
  accepted := selfAuthenticate_eq_ok_iff.mpr
    ⟨rfl, fun _ => rfl, fun h => absurd h (Int.lt_irrefl 0), _, rfl, rfl⟩

/-- Alice builds a plant. -/
def buildPlant : Json :=
  .obj [("MoveEnvelope", MoveEnvelope.encode
    { d := .mintPowerPlant { scale := 1, location := (0, 0), plantType := .solar }
      sequence := 1
      timeMillis := 0 })]

/-- Bob's payload is null, Alice's is a move. -/
def nullStore : Store Json :=
  [.insertUser "bob" (payloadGenesis 6 .null) 0,
    .insertUser "alice" (payloadGenesis 5 buildPlant) 0].foldl Store.apply .empty

private theorem nullStore_reachable : Store.Reachable depthCrypto nullStore :=
  Store.reachable_foldl _

private theorem nullStore_distinguishes : nullStore.Distinguishes decodeAction actionHash := by
  have hplant : ∀ r ∈ nullStore.messages, (decodeAction r.body).all fun v =>
      r.hash = ⟨6⟩ ∧ actionHash v = ⟨6⟩ := by
    decide +kernel
  intro r hr r' hr' v hv hhash
  have hall := hplant r hr
  rw [hv, Option.all_some, decide_eq_true_eq] at hall
  apply nullStore_reachable.linked.eq_of_hash hr hr'
  rw [hall.1, ← hhash, hall.2]

private theorem nullStore_returns :
    (OnlineDBFetcher.initial nullStore : OnlineDBFetcher Json (Envelope (ParticipantAction Unit))).Returns
      nullStore.messages := by
  constructor
  · intro r hr
    exact List.mem_filter.mpr ⟨hr, by simp [Reader.selects, Cursor.Passed,
      OnlineDBFetcher.initial, OnlineDBFetcher.cursor]⟩
  · exact fun r hr => (List.mem_filter.mp hr).1

/-- The extractor of the consumer that tells the kinds of actions apart. -/
abbrev keepEnvelope (e : Envelope (ParticipantAction Unit)) :
    Except Empty (Envelope (ParticipantAction Unit)) :=
  .ok e

abbrev nullPolled (batches : List (List CanonicalEnvelopeHash)) :
    GenericSequencer (Envelope (ParticipantAction Unit)) (Envelope (ParticipantAction Unit)) :=
  .polled batches decodeAction actionHash nullStore.messages

theorem decoded_output_plant :
    (∃ q, GenericSequencer.Settles keepEnvelope (nullPolled [[⟨6⟩]]) q) ∧
      ∀ q, GenericSequencer.Settles keepEnvelope (nullPolled [[⟨6⟩]]) q →
        q.outputMove = nullStore.scheduledEnvelopes decodeAction [[⟨6⟩]] ∧
          (nullStore.scheduledEnvelopes decodeAction [[⟨6⟩]]).length = 1 := by
  have hstored : ∀ h ∈ [[(⟨6⟩ : CanonicalEnvelopeHash)]].flatten,
      ∃ r ∈ nullStore.messages, r.hash = h := by
    decide +kernel
  have hfiled : (nullStore.decoded decodeAction ⟨6⟩).any fun v => actionHash v = ⟨6⟩ := by
    decide +kernel
  have hunstalled : nullStore.Unstalled decodeAction actionHash [⟨6⟩] := by
    intro l h l' hsplit _
    obtain ⟨rfl, rfl, rfl⟩ : l = [] ∧ h = ⟨6⟩ ∧ l' = [] := by
      cases l with
      | nil => simpa [eq_comm] using hsplit
      | cons a l => simp at hsplit
    refine ⟨List.nodup_singleton _, fun h' hh' => ?_⟩
    obtain rfl := List.mem_singleton.mp hh'
    exact Store.filedUnder_of_any hfiled
  obtain ⟨hexists, hsettled⟩ := @decoded_output_iff _ _ _ _ _ _ _ keepEnvelope _ _ _
    nullStore_reachable nullStore_distinguishes nullStore_returns hstored
  refine ⟨hexists, fun q hq => ⟨?_, by decide +kernel⟩⟩
  have houtput := ((hsettled q hq).mpr hunstalled).2
  rw [houtput]
  simp [Except.toOption]

/-- After Bob's null payload Alice's move is scheduled in vain. -/
theorem null_payload_stalls :
    ∃ q, GenericSequencer.Settles keepEnvelope (nullPolled [[⟨5⟩, ⟨6⟩]]) q ∧
      (nullStore.decoded decodeAction ⟨5⟩).isNone ∧ (nullStore.decoded decodeAction ⟨6⟩).isSome ∧
        ¬(q.batcher.output = nullStore.scheduledEnvelopes decodeAction [[⟨5⟩, ⟨6⟩]]) := by
  have hstored : ∀ h ∈ [[(⟨5⟩ : CanonicalEnvelopeHash), ⟨6⟩]].flatten,
      ∃ r ∈ nullStore.messages, r.hash = h := by
    decide +kernel
  have hnull : (nullStore.decoded decodeAction ⟨5⟩).isNone := by
    decide +kernel
  have hplant : (nullStore.decoded decodeAction ⟨6⟩).isSome := by
    decide +kernel
  obtain ⟨⟨q, hq⟩, hsettled⟩ := @polled_outputs_iff _ _ _ _ _ _ keepEnvelope _ _ _
    nullStore_reachable.linked nullStore_distinguishes nullStore_returns hstored
  refine ⟨q, hq, hnull, hplant, fun houtput => ?_⟩
  have hunstalled := (hsettled q hq).2.mp houtput
  obtain ⟨v, hv, _⟩ := (hunstalled [⟨5⟩] ⟨6⟩ [] rfl hplant).2 ⟨5⟩ List.mem_cons_self
  rw [hv] at hnull
  cases hnull

end JudicaVM
