import JudicaVM.Attest.Reading
import JudicaVM.Sequencer.Consumers

/-!
# Observations of a game

The trace of a game as a JSON value: the chain of the host with the envelopes that it sequences,
which the contract reads as the moves of the game. What the conversions ask of a trace can be read
off the trace before it is written.
-/

namespace Serde

variable {α β : Type}

/-- A map whose keys are texts. -/
def decodeMap (key : String → Option α) (value : Json → Option β) : Json → Option (List (α × β))
  | .obj fields => fields.mapM fun f => do
    let k ← key f.1
    let v ← value f.2
    pure (k, v)
  | _ => none

variable {key : String → Option α} {value : Json → Option β} {keyText : α → String}
  {encode : β → Json} {l l' : List (α × β)}

theorem mapM_map_eq_some_iff {f : α → β} {g : β → Option α} {l : List α} :
    (l.map f).mapM g = some l ↔ ∀ a ∈ l, g (f a) = some a := by
  induction l with
  | nil => simp
  | cons a l ih =>
    rw [List.map_cons, List.mapM_cons, List.forall_mem_cons, ← ih]
    cases ha : g (f a) with
    | none => simp
    | some b =>
      cases hl : (l.map f).mapM g <;> simp

/-- The entries of a map in the order of the texts of their keys. -/
def sortEntries (keyText : α → String) (l : List (α × β)) : List (α × β) :=
  l.insertionSort fun a b => keyText a.1 ≤ keyText b.1

private theorem sortEntries_perm : (sortEntries keyText l).Perm l :=
  List.perm_insertionSort _ l

private theorem normalize_map (hnodup : (l.map fun x => keyText x.1).Nodup) :
    (Json.obj (l.map fun x => (keyText x.1, encode x.2))).normalize =
      .obj ((sortEntries keyText l).map fun x => (keyText x.1, (encode x.2).normalize)) := by
  rw [Json.normalize, Json.normalizeFields_eq, Json.keepLast_of_nodup, Json.sortFields, List.map_map]
  · congr 1
    symm
    apply List.map_insertionSort
    intro a _ b _
    exact Iff.rfl
  · rw [List.map_map, List.map_map]
    exact hnodup

end Serde

namespace JudicaVM

open Serde

section

variable {E : Type} {entries : List (CanonicalEnvelopeHash × E)} {h : CanonicalEnvelopeHash}

/-- `HashMap::insert` -/
def insertEntry (map : List (CanonicalEnvelopeHash × E)) (x : CanonicalEnvelopeHash × E) :
    List (CanonicalEnvelopeHash × E) :=
  map.filter (·.1 ≠ x.1) ++ [x]

/-- Entries as they are collected into a map. -/
def collectMap (entries : List (CanonicalEnvelopeHash × E)) : List (CanonicalEnvelopeHash × E) :=
  entries.foldl insertEntry []

theorem collectMap_concat (x : CanonicalEnvelopeHash × E) :
    collectMap (entries ++ [x]) = insertEntry (collectMap entries) x := by
  simp [collectMap]

theorem mem_collectMap_keys :
    h ∈ (collectMap entries).map Prod.fst ↔ h ∈ entries.map Prod.fst := by
  induction entries using List.reverseRecOn with
  | nil => rfl
  | append_singleton entries x ih =>
    rw [collectMap_concat, insertEntry, List.map_append, List.mem_append, List.map_append,
      List.mem_append, ← ih]
    simp only [List.mem_map, List.mem_filter, decide_eq_true_eq]
    constructor
    · intro hmem
      exact hmem.imp (fun hold => hold.imp fun _ hy => ⟨hy.1.1, hy.2⟩) id
    · intro hmem
      by_cases heq : h = x.1
      · exact .inr ⟨x, List.mem_singleton_self x, heq.symm⟩
      · refine hmem.imp_left fun hold => ?_
        obtain ⟨y, hy, rfl⟩ := hold
        exact ⟨y, ⟨hy, heq⟩, rfl⟩

theorem collectMap_nodup : ((collectMap entries).map Prod.fst).Nodup := by
  induction entries using List.reverseRecOn with
  | nil => exact List.nodup_nil
  | append_singleton entries x ih =>
    rw [collectMap_concat, insertEntry, List.map_append]
    apply List.Nodup.append
    · exact ih.sublist (List.filter_sublist.map _)
    · exact List.nodup_singleton _
    · intro k hk hx
      obtain ⟨y, hy, rfl⟩ := List.mem_map.mp hk
      have hne := (List.mem_filter.mp hy).2
      rw [List.map_singleton, List.mem_singleton] at hx
      simp [hx] at hne

theorem collectMap_of_nodup (hnodup : (entries.map Prod.fst).Nodup) :
    collectMap entries = entries := by
  induction entries using List.reverseRecOn with
  | nil => rfl
  | append_singleton entries x ih =>
    rw [List.map_append, List.nodup_append] at hnodup
    obtain ⟨hold, _, hdisjoint⟩ := hnodup
    rw [collectMap_concat, ih hold, insertEntry, List.filter_eq_self.mpr]
    intro y hy
    simpa using hdisjoint y.1 (List.mem_map_of_mem hy) x.1 (by simp)

end

private theorem ofHexDigits_hexText (digits n : ℕ) : ofHexDigits
    (hexText digits n).toList = some n := by
  rw [hexText, String.toList_ofList, List.leftpad, ofHexDigits_append, ofHexDigits_replicate]
  exact ofHexDigits_toDigits n

private theorem CanonicalEnvelopeHash.eq_of_decode_encode {h h' : CanonicalEnvelopeHash}
    (heq : CanonicalEnvelopeHash.decode h.encode = some h') : h' = h := by
  obtain ⟨n, hn, rfl⟩ := Option.map_eq_some_iff.mp heq
  have hn : (if (hexText 64 h.digest).length = 64 then ofHexDigits (hexText 64 h.digest).toList
      else none) = some n := hn
  rw [ofHexDigits_hexText] at hn
  split_ifs at hn
  rw [← Option.some.inj hn]

/-- The text of a hash as the key of a map. -/
def CanonicalEnvelopeHash.text (h : CanonicalEnvelopeHash) : String :=
  hexText 64 h.digest

private theorem CanonicalEnvelopeHash.text_injective :
    Function.Injective CanonicalEnvelopeHash.text := by
  intro h h' heq
  have hdigits := ofHexDigits_hexText 64 h.digest
  have htexts : hexText 64 h.digest = hexText 64 h'.digest := heq
  rw [htexts, ofHexDigits_hexText] at hdigits
  exact congrArg CanonicalEnvelopeHash.mk (Option.some.inj hdigits).symm

section

variable {Psbt : Type} (L : Libraries Psbt)

namespace UnauthenticatedRawSequencer

def encode (v : UnauthenticatedRawSequencer (ParticipantAction Psbt)) : Json :=
  .obj [("sequencer_envelopes",
      .arr (v.sequencerEnvelopes.map (Envelope.encode channelizedBroadcast))),
    ("msg_cache",
      .obj (v.msgCache.map fun x => (x.1.text, x.2.encode (participantAction L))))]

def decode : Json → Option (UnauthenticatedRawSequencer (ParticipantAction Psbt)) :=
  record 2 fun j => do
    let sequencerEnvelopes ← required ["sequencer_envelopes"] 0
      (decodeSeq (channelizedBroadcast.readEnvelope L)) j
    let msgCache ← required ["msg_cache"] 1
      (decodeMap (fun s => CanonicalEnvelopeHash.decode (.str s))
        ((participantAction L).readEnvelope L)) j
    pure { sequencerEnvelopes, msgCache := collectMap msgCache }

end UnauthenticatedRawSequencer

/-- The chain of conversions by which the contract reads its argument. -/
def ExtractedMoveEnvelopes.decode (j : Json) : Option (List (MoveEnvelope × XOnlyPublicKey)) := do
  let value ← UnauthenticatedRawSequencer.decode L j
  let raw ← (RawSequencer.tryFrom value).toOption
  let sequencer ← (OfflineSequencer.tryFrom raw).toOption
  (ExtractedMoveEnvelopes.tryFrom sequencer).toOption

end

section

variable {Psbt : Type} {L : Libraries Psbt}
  {v v' : UnauthenticatedRawSequencer (ParticipantAction Psbt)}
  {entries : List (CanonicalEnvelopeHash × Envelope (ParticipantAction Psbt))}

namespace UnauthenticatedRawSequencer

/-- How an entry of the cache is read that was written. -/
def rereadEntry (L : Libraries Psbt)
    (x : CanonicalEnvelopeHash × Envelope (ParticipantAction Psbt)) :
    Option (CanonicalEnvelopeHash × Envelope (ParticipantAction Psbt)) := do
  let k ← CanonicalEnvelopeHash.decode x.1.encode
  let e ← (participantAction L).readEnvelope L (x.2.encode (participantAction L)).normalize
  pure (k, e)

private theorem keys_of_rereadEntry
    {cache : List (CanonicalEnvelopeHash × Envelope (ParticipantAction Psbt))}
    (h : entries.mapM (rereadEntry L) = some cache) :
    cache.map Prod.fst = entries.map Prod.fst := by
  induction entries generalizing cache with
  | nil =>
    cases h
    rfl
  | cons x entries ih =>
    rw [List.mapM_cons] at h
    obtain ⟨y, hy, h⟩ := Option.bind_eq_some_iff.mp h
    obtain ⟨rest, hrest, h⟩ := Option.bind_eq_some_iff.mp h
    obtain rfl := Option.some.inj h
    obtain ⟨k, hk, hy⟩ := Option.bind_eq_some_iff.mp hy
    obtain ⟨e, _, hy⟩ := Option.bind_eq_some_iff.mp hy
    obtain rfl := Option.some.inj hy
    rw [List.map_cons, List.map_cons, ih hrest, CanonicalEnvelopeHash.eq_of_decode_encode hk]

private theorem decode_encode (hchain : ∀ e ∈ v.sequencerEnvelopes,
      channelizedBroadcast.readEnvelope L (e.encode channelizedBroadcast).normalize = some e)
    (hnodup : (v.msgCache.map Prod.fst).Nodup) : decode L (v.encode L).normalize =
      ((sortEntries CanonicalEnvelopeHash.text v.msgCache).mapM (rereadEntry L)).map fun cache =>
        ⟨v.sequencerEnvelopes, collectMap cache⟩ := by
  have htexts : (v.msgCache.map fun x => x.1.text).Nodup := by
    have htext := hnodup.map CanonicalEnvelopeHash.text_injective
    rwa [List.map_map] at htext
  have hwritten : (v.encode L).normalize =
      .obj [("msg_cache", (Json.obj (v.msgCache.map fun x =>
          (x.1.text, x.2.encode (participantAction L)))).normalize),
        ("sequencer_envelopes", (Json.arr (v.sequencerEnvelopes.map
          (Envelope.encode channelizedBroadcast))).normalize)] := by
    simp [encode, Json.normalize, Json.normalizeFields, Json.keepLast, Json.sortFields]
  have henvelopes : decodeSeq (channelizedBroadcast.readEnvelope L) (Json.arr
      (v.sequencerEnvelopes.map (Envelope.encode channelizedBroadcast))).normalize =
        some v.sequencerEnvelopes := by
    rw [Json.normalize, Json.normalizeAll_eq, List.map_map]
    exact mapM_map_eq_some_iff.mpr hchain
  have hcache : decodeMap (fun s => CanonicalEnvelopeHash.decode (.str s))
      ((participantAction L).readEnvelope L) (Json.obj (v.msgCache.map fun x =>
          (x.1.text, x.2.encode (participantAction L)))).normalize =
        (sortEntries CanonicalEnvelopeHash.text v.msgCache).mapM (rereadEntry L) := by
    rw [normalize_map htexts]
    exact List.mapM_map
  have hdecode {a b : Json}
      (ha : decodeMap (fun s => CanonicalEnvelopeHash.decode (.str s))
        ((participantAction L).readEnvelope L) a =
          (sortEntries CanonicalEnvelopeHash.text v.msgCache).mapM (rereadEntry L))
      (hb : decodeSeq (channelizedBroadcast.readEnvelope L) b = some v.sequencerEnvelopes) :
      decode L (.obj [("msg_cache", a), ("sequencer_envelopes", b)]) =
        ((sortEntries CanonicalEnvelopeHash.text v.msgCache).mapM (rereadEntry L)).map fun cache =>
          ⟨v.sequencerEnvelopes, collectMap cache⟩ := by
    simp only [decode, record, fits, required, member]
    simp [ha, hb, Option.map_eq_bind]
  rw [hwritten]
  exact hdecode hcache henvelopes

end UnauthenticatedRawSequencer

private theorem toOption_eq_some_iff {ε α : Type} {x : Except ε α} {a : α} :
    x.toOption = some a ↔ x = .ok a := by
  cases x <;> simp [Except.toOption]

theorem lookup_eq_some_iff_mem {E : Type} {l : List (CanonicalEnvelopeHash × E)}
    {h : CanonicalEnvelopeHash} {e : E} (hnodup : (l.map Prod.fst).Nodup) :
    l.lookup h = some e ↔ (h, e) ∈ l := by
  induction l with
  | nil => simp
  | cons x l ih =>
    rw [List.map_cons, List.nodup_cons] at hnodup
    rw [List.lookup_cons, List.mem_cons]
    by_cases heq : h = x.1
    · subst heq
      have hnew : (x.1, e) ∉ l := fun hmem =>
        hnodup.1 (List.mem_map.mpr ⟨(x.1, e), hmem, rfl⟩)
      simp [hnew, Prod.ext_iff, eq_comm]
    · rw [beq_false_of_ne heq]
      have hne : (h, e) ≠ x := fun hx => heq (congrArg Prod.fst hx)
      simp [hne, ih hnodup.2]

private theorem lookup_perm {E : Type} {l l' : List (CanonicalEnvelopeHash × E)} (hperm : l'.Perm l)
    (hnodup : (l.map Prod.fst).Nodup) (h : CanonicalEnvelopeHash) : l'.lookup h = l.lookup h := by
  have hnodup' : (l'.map Prod.fst).Nodup := (hperm.map Prod.fst).nodup_iff.mpr hnodup
  apply Option.ext
  intro e
  rw [lookup_eq_some_iff_mem hnodup', lookup_eq_some_iff_mem hnodup, hperm.mem_iff]

namespace ExtractedMoveEnvelopes

variable {moves : List (MoveEnvelope × XOnlyPublicKey)}

/-- A trace that passes the checks and has the envelopes of its chain is read as their moves. -/
theorem decode_encode (hchain : ∀ e ∈ v.sequencerEnvelopes,
      channelizedBroadcast.readEnvelope L (e.encode channelizedBroadcast).normalize = some e)
    (hnodup : (v.msgCache.map Prod.fst).Nodup)
    (hreads : ∀ x ∈ v.msgCache, UnauthenticatedRawSequencer.rereadEntry L x = some x)
    (hv : v.Consistent) (hdistinct : v.hashes.Nodup)
    (hcached : ∀ h ∈ v.hashes, (v.msgCache.lookup h).isSome) :
    ExtractedMoveEnvelopes.decode L (v.encode L).normalize =
      some ((v.hashes.filterMap fun h => v.msgCache.lookup h).filterMap Envelope.move?) := by
  let sorted := sortEntries CanonicalEnvelopeHash.text v.msgCache
  have hperm : sorted.Perm v.msgCache := sortEntries_perm
  have hsorted : (sorted.map Prod.fst).Nodup := (hperm.map Prod.fst).nodup_iff.mpr hnodup
  have hread : sorted.mapM (UnauthenticatedRawSequencer.rereadEntry L) = some sorted := by
    have hmap : (sorted.map id).mapM (UnauthenticatedRawSequencer.rereadEntry L) = some sorted :=
      mapM_map_eq_some_iff.mpr fun x hx => hreads x (hperm.mem_iff.mp hx)
    rwa [List.map_id] at hmap
  have hdecode : UnauthenticatedRawSequencer.decode L (v.encode L).normalize =
      some ⟨v.sequencerEnvelopes, sorted⟩ := by
    rw [UnauthenticatedRawSequencer.decode_encode hchain hnodup, hread, Option.map_some,
      collectMap_of_nodup hsorted]
  have hconsistent : UnauthenticatedRawSequencer.Consistent ⟨v.sequencerEnvelopes, sorted⟩ :=
    ⟨hv.heights, hv.keys, hv.ancestors, fun x hx => hv.cached x (hperm.mem_iff.mp hx)⟩
  obtain ⟨raw, hraw, ho⟩ := accepted_iff.mpr ⟨hconsistent, rfl⟩
  have hlookup : (fun h => sorted.lookup h) = fun h => v.msgCache.lookup h :=
    funext fun h => lookup_perm hperm hnodup h
  have hcomplete : OfflineSequencer.Complete
      ⟨v.sequencerEnvelopes.filterMap fun e => e.msg.data.batch?, sorted⟩ := by
    refine ⟨hdistinct, fun h hh => ?_⟩
    show (sorted.lookup h).isSome
    rw [lookup_perm hperm hnodup]
    exact hcached h hh
  have hmoves := hcomplete.tryFrom_eq
  rw [OfflineSequencer.scheduled, hlookup] at hmoves
  simp only [decode, hdecode, hraw, ho, Except.toOption, Option.bind_eq_bind, Option.bind_some, hmoves]
  rfl

theorem of_decode (hchain : ∀ e ∈ v.sequencerEnvelopes,
      channelizedBroadcast.readEnvelope L (e.encode channelizedBroadcast).normalize = some e)
    (hnodup : (v.msgCache.map Prod.fst).Nodup)
    (hmoves : ExtractedMoveEnvelopes.decode L (v.encode L).normalize = some moves) :
    (∀ (i : ℕ) (hi : i < v.sequencerEnvelopes.length),
      (v.sequencerEnvelopes.get ⟨i, hi⟩).header.height = i) ∧
    v.hashes.Nodup ∧ ∀ h ∈ v.hashes, h ∈ v.msgCache.map Prod.fst := by
  obtain ⟨value, hvalue, hconverted⟩ := Option.bind_eq_some_iff.mp hmoves
  obtain ⟨raw, hraw, hsequenced⟩ := Option.bind_eq_some_iff.mp hconverted
  obtain ⟨o, ho, hextracted⟩ := Option.bind_eq_some_iff.mp hsequenced
  rw [UnauthenticatedRawSequencer.decode_encode hchain hnodup] at hvalue
  obtain ⟨cache, hcache, rfl⟩ := Option.map_eq_some_iff.mp hvalue
  rw [toOption_eq_some_iff] at hraw ho hextracted
  obtain ⟨hconsistent, rfl⟩ := accepted_iff.mp ⟨raw, hraw, ho⟩
  obtain ⟨hdistinct, hpicks, _⟩ := sequenceMap_eq_ok_iff.mp hextracted
  refine ⟨hconsistent.heights, hdistinct, fun h hh => ?_⟩
  obtain ⟨e, _, hlookup, _⟩ := hpicks h hh
  have hmem : (h, e) ∈ collectMap cache := (lookup_eq_some_iff_mem collectMap_nodup).mp hlookup
  have hkey : h ∈ cache.map Prod.fst :=
    mem_collectMap_keys.mp (List.mem_map.mpr ⟨(h, e), hmem, rfl⟩)
  rw [UnauthenticatedRawSequencer.keys_of_rereadEntry hcache] at hkey
  exact (sortEntries_perm.map Prod.fst).mem_iff.mp hkey

end ExtractedMoveEnvelopes

end

end JudicaVM
