import JudicaVM.Contract.EventLog
import JudicaVM.Contract.Observation
import JudicaVM.Contract.Replay
import JudicaVM.Sequencer.Stall

/-!
# The report of a finished game

The litigator plays the moves that it receives until one is rejected because the game is over. A
task then reads the chain of the host and the envelopes that it schedules from the database once
more, and logs them as an observation, from which the contract replays the game.
-/

namespace JudicaVM

open Checked Serde GameBoard Members

section

variable {Psbt : Type} (L : Libraries Psbt)

/-- The loop of `start_game`, up to the move that is rejected because the game is over: the number
of that move, and the reason. -/
def startGame : List (MoveEnvelope × XOnlyPublicKey) → ℕ → GameBoard →
    Except Panic (Option (ℕ × FinishReason))
  | [], _, _ => pure none
  | (nextMove, signedBy) :: moves, moveCount, game => do
    let moveCount ← Checked.add 64 moveCount 1
    let (r, game) ← game.play nextMove signedBy.toText
    match r with
    | .error (.gameIsFinished reason) => pure (some (moveCount, reason))
    | _ => startGame moves moveCount game

/-- The event for which the observation of a finished game is made. -/
def eventFor : FinishReason → String
  | .timeExpired => "game_action_players_win"
  | .dominatingPlayer _ => "game_action_players_lose"

/-- The event `NewRecompileTriggeringObservation`. -/
def newObservation (observation : Json) (eventKey : String) : Json :=
  .obj [("NewRecompileTriggeringObservation", .arr [observation, .str eventKey])]

/-- The observation of an event and the key of the events that it is for, if it is one. -/
def observation? : Json → Option (Json × String) :=
  enumeration fun name v =>
    match name with
    | "NewRecompileTriggeringObservation" => newtypeVariant (decodePair some decodeString) v
    | _ => none

/-- The text of `Tag::ScopedCounter("game_move", move_count)`, whose number must be canonical. -/
def gameMoveTag (moveCount : ℕ) : Except Panic String :=
  if Json.Safe moveCount then
    pure ("\x7b\"scoped_counter\":[\"game_move\"," ++ toString moveCount ++ "]\x7d")
  else .error (.message "Tag Type Should not have Fallible Serialization")

inductive SnapshotError
  | databaseFetch
  | sql
  deriving DecidableEq

/-- The hashes that a chain schedules. -/
def scheduledBy (envelopes : List (Envelope (Channelized BroadcastByHost))) :
    List CanonicalEnvelopeHash :=
  envelopes.flatMap fun m =>
    match m.msg.data with
    | .sequence d => d
    | _ => []

abbrev readAction (e : Envelope Json) : Option (Envelope (ParticipantAction Psbt)) :=
  e.readAs (participantAction L)

abbrev typedHash : Envelope (ParticipantAction Psbt) → CanonicalEnvelopeHash :=
  (L.crypto (participantAction L)).canonicalizedHash

/-- The trace that `make_snapshot` makes of what it has read. -/
def snapshot (sequencerEnvelopes : List (Envelope (Channelized BroadcastByHost)))
    (m : List (Envelope (ParticipantAction Psbt))) :
    UnauthenticatedRawSequencer (ParticipantAction Psbt) :=
  ⟨sequencerEnvelopes, collectMap (m.map fun v => (typedHash L v, v))⟩

/-- The insertion of an occurrence, which is no error when there is one with its tag already. -/
def logOccurrence (l : EventLog) (group : ℕ) (o : Occurrence) (id : ℕ) :
    Except SnapshotError EventLog :=
  match l.insertOccurrence group o id with
  | (.error .sql, _) => .error .sql
  | (_, l) => .ok l

def makeSnapshot (s : Store Json) (oracleKey : XOnlyPublicKey) (l : EventLog)
    (group moveCount : ℕ) (eventKey : String) (id : ℕ) (now : ℤ) :
    Except Panic (Except SnapshotError EventLog) :=
  match (s.loadAllMessagesForUserByKeyConnected oracleKey).mapM fun r =>
    r.body.readAs channelizedBroadcast with
  | none => pure (.error .databaseFetch)
  | some sequencerEnvelopes =>
    match s.messagesByHash (readAction L) (scheduledBy sequencerEnvelopes) with
    | none => pure (.error .databaseFetch)
    | some m => do
      let observation := (snapshot L sequencerEnvelopes m).encode L
      let data ← unwrap (newObservation observation eventKey).toCanonical
      let tag ← gameMoveTag moveCount
      pure (logOccurrence l group ⟨data, now, litigatorEvent, some tag⟩ id)

/-- The replay of moves on the board of a setup. -/
def replayFrom (setup : GameSetup) (moves : List (MoveEnvelope × XOnlyPublicKey)) :
    Except Panic (Except GameBoard (FinishReason × GameBoard)) := do
  let game ← GameBoard.new setup
  replay XOnlyPublicKey.toText moves game

/-- The log has one more occurrence, an observation that is read as moves which begin with those
that were played and from which the game is replayed to the end. -/
structure Reports (l l' : EventLog) (group : ℕ) (setup : GameSetup) (reason : FinishReason)
    (played : List (MoveEnvelope × XOnlyPublicKey)) : Prop where
  logged : ∃ row observation moves, l' = { l with occurrences := l.occurrences ++ [row] } ∧
    row.group = group ∧ row.occurrence.typeid = litigatorEvent ∧
    observation? row.occurrence.data = some (observation, eventFor reason) ∧
    ExtractedMoveEnvelopes.decode L observation = some moves ∧ played <+: moves ∧
    ∃ b, replayFrom setup moves = .ok (.ok (reason, b))

/-- The chain of the host, as far as it can be read. -/
def Store.hostChain (s : Store Json) (oracleKey : XOnlyPublicKey) :
    List (Envelope (Channelized BroadcastByHost)) :=
  (s.loadAllMessagesForUserByKeyConnected oracleKey).filterMap fun r =>
    r.body.readAs channelizedBroadcast

/-- Envelopes that were delivered: the host has scheduled them in this order before any others, and
they are stored. -/
structure Store.Delivers (s : Store Json) (oracleKey : XOnlyPublicKey)
    (hashes : List CanonicalEnvelopeHash) : Prop where
  scheduled : hashes <+: scheduledBy (s.hostChain oracleKey)
  stored : ∀ h ∈ hashes, s.FiledUnder (readAction L) (typedHash L) h

/-- The moves among the envelopes with some hashes. -/
def Store.movesOf (s : Store Json) (hashes : List CanonicalEnvelopeHash) :
    List (MoveEnvelope × XOnlyPublicKey) :=
  hashes.filterMap fun h => (s.decoded (readAction L) h).bind Envelope.move?

/-- The chain of the host can be read and has one envelope at every height. The envelopes that it
schedules are distinct, and all of them are stored, under the hashes that they have as actions. -/
structure Store.Replayable (s : Store Json) (oracleKey : XOnlyPublicKey) : Prop where
  readable : ∀ r ∈ s.loadAllMessagesForUserByKeyConnected oracleKey,
    (r.body.readAs channelizedBroadcast).isSome
  heights : ∀ (i : ℕ) (hi : i < (s.hostChain oracleKey).length),
    ((s.hostChain oracleKey).get ⟨i, hi⟩).header.height = i
  distinct : (scheduledBy (s.hostChain oracleKey)).Nodup
  filed : ∀ h ∈ scheduledBy (s.hostChain oracleKey),
    s.FiledUnder (readAction L) (typedHash L) h

end

section

variable {moves more : List (MoveEnvelope × XOnlyPublicKey)} {n moveCount : ℕ} {g : GameBoard}
  {reason : FinishReason}

private theorem replay_of_startGame (h : startGame moves n g = .ok (some (moveCount, reason)))
    (more : List (MoveEnvelope × XOnlyPublicKey)) :
    ∃ b, replay XOnlyPublicKey.toText (moves ++ more) g = .ok (.ok (reason, b)) := by
  induction moves generalizing n g with
  | nil => cases h
  | cons first moves ih =>
    obtain ⟨mv, key⟩ := first
    simp only [startGame, bind_eq_ok_iff] at h
    obtain ⟨next, _, ⟨r, g'⟩, hplay, hrest⟩ := h
    by_cases hr : ∃ reason', r = .error (.gameIsFinished reason')
    · obtain ⟨reason', rfl⟩ := hr
      obtain ⟨_, rfl⟩ := Prod.mk.inj (Option.some.inj (Except.ok.inj hrest))
      exact ⟨g', replay_cons_rejected hplay⟩
    · rw [List.cons_append, replay_cons hplay fun reason' heq => hr ⟨reason', heq⟩]
      apply ih (n := next)
      rw [← hrest]
      cases r with
      | ok _ => rfl
      | error e =>
        cases e with
        | gameIsFinished reason' => exact absurd ⟨reason', rfl⟩ hr
        | _ => rfl

end

private theorem scheduledBy_eq {E : Type} {v : UnauthenticatedRawSequencer E} :
    scheduledBy v.sequencerEnvelopes = v.hashes := by
  unfold scheduledBy UnauthenticatedRawSequencer.hashes
  induction v.sequencerEnvelopes with
  | nil => rfl
  | cons m envelopes ih =>
    rw [List.flatMap_cons, ih]
    cases hdata : m.msg.data <;> simp [BroadcastByHost.batch?, hdata]

private theorem Channelized.exists_data {j : Json} {c : Channelized BroadcastByHost}
    (h : Channelized.decode j = some c) : ∃ v, BroadcastByHost.decode v = some c.data := by
  unfold Channelized.decode record at h
  split_ifs at h
  obtain ⟨data, hdata, h⟩ := Option.bind_eq_some_iff.mp h
  obtain ⟨channel, _, h⟩ := Option.bind_eq_some_iff.mp h
  obtain rfl := Option.some.inj h
  exact exists_of_required hdata

private theorem BroadcastByHost.hashes_reread {j : Json} {b : BroadcastByHost}
    (h : BroadcastByHost.decode j = some b) {batch : List CanonicalEnvelopeHash}
    (hbatch : b.batch? = some batch) :
    ∀ x ∈ batch, CanonicalEnvelopeHash.decode x.encode = some x := by
  have hreread := BroadcastByHost.rereads j b h
  cases b with
  | sequence d =>
    obtain rfl : d = batch := Option.some.inj hbatch
    have hvariant (v : Json) : decode (.obj [("Sequence", v)]) =
        (decodeSeq CanonicalEnvelopeHash.decode v).map sequence := rfl
    rw [encode, Json.normalize_single, hvariant, Json.normalize, Json.normalizeAll_eq,
      List.map_map] at hreread
    obtain ⟨l, hl, heq⟩ := Option.map_eq_some_iff.mp hreread
    obtain rfl := BroadcastByHost.sequence.inj heq
    exact mapM_map_eq_some_iff.mp hl
  | _ => cases hbatch

section

variable {Psbt : Type} {L : Libraries Psbt} {s : Store Json} {key : XOnlyPublicKey}
  {hashes : List CanonicalEnvelopeHash} {h : CanonicalEnvelopeHash} {r : Row Json}
  {l l' : EventLog} {group moveCount id : ℕ} {now : ℤ} {eventKey : String}

private theorem Store.mem_chain (hs : s.Sourced (L.crypto wrappedJson)) :
    r ∈ s.loadAllMessagesForUserByKeyConnected key ↔
      r ∈ s.messages ∧ r.key = key ∧ r.connected := by
  rw [loadAllMessagesForUserByKeyConnected, (List.perm_insertionSort _ _).mem_iff, List.mem_filter,
    Bool.and_eq_true, decide_eq_true_eq]
  refine and_congr_right fun hr => ?_
  rw [hs.userByKey_eq_iff hr]

private theorem Store.row_of_hostChain {e : Envelope (Channelized BroadcastByHost)}
    (he : e ∈ s.hostChain key) : ∃ r ∈ s.loadAllMessagesForUserByKeyConnected key,
      r.body.readAs channelizedBroadcast = some e ∧ e.header = r.body.header := by
  obtain ⟨r, hr, hread⟩ := List.mem_filterMap.mp he
  obtain ⟨msg, _, rfl⟩ := Option.map_eq_some_iff.mp hread
  exact ⟨r, hr, hread, rfl⟩

private theorem Store.filed_hashes
    (hfiled : ∀ h ∈ hashes, s.FiledUnder (readAction L) (typedHash L) h) :
    (hashes.filterMap (s.decoded (readAction L))).map (typedHash L) = hashes := by
  induction hashes with
  | nil => rfl
  | cons h hashes ih =>
    obtain ⟨hfirst, hrest⟩ := List.forall_mem_cons.mp hfiled
    obtain ⟨v, hv, hhash⟩ := hfirst
    rw [List.filterMap_cons_some hv, List.map_cons, hhash, ih hrest]

private theorem snapshot_cache (chain : List (Envelope (Channelized BroadcastByHost)))
    (hdistinct : hashes.Nodup)
    (hfiled : ∀ h ∈ hashes, s.FiledUnder (readAction L) (typedHash L) h) :
    let v := snapshot L chain (hashes.filterMap (s.decoded (readAction L)))
    v.msgCache.map Prod.fst = hashes ∧
      ∀ h ∈ hashes, v.msgCache.lookup h = s.decoded (readAction L) h := by
  have hkeys : ((hashes.filterMap (s.decoded (readAction L))).map fun v =>
      (typedHash L v, v)).map Prod.fst = hashes := by
    rw [List.map_map]
    exact Store.filed_hashes hfiled
  have hcache : collectMap ((hashes.filterMap (s.decoded (readAction L))).map fun v =>
      (typedHash L v, v)) = (hashes.filterMap (s.decoded (readAction L))).map fun v =>
        (typedHash L v, v) := collectMap_of_nodup (by rwa [hkeys])
  intro v
  constructor
  · show (collectMap _).map Prod.fst = hashes
    rw [hcache, hkeys]
  · intro h hh
    obtain ⟨e, he, hhash⟩ := hfiled h hh
    show (collectMap _).lookup h = _
    rw [hcache, he, lookup_eq_some_iff_mem (by rwa [hkeys])]
    refine List.mem_map.mpr ⟨e, List.mem_filterMap.mpr ⟨h, hh, he⟩, ?_⟩
    rw [hhash]

private theorem Store.Replayable.consistent (hr : s.Replayable L key)
    (hs : s.Sourced (L.crypto wrappedJson))
    {cache : List (CanonicalEnvelopeHash × Envelope (ParticipantAction Psbt))}
    (hcache : ∀ x ∈ cache, ∃ r ∈ s.messages, x.2.header = r.body.header) :
    UnauthenticatedRawSequencer.Consistent ⟨s.hostChain key, cache⟩ := by
  have hrooted {M : Type} (e : Envelope M) (hrow : ∃ r ∈ s.messages, e.header = r.body.header) :
      e.Rooted := by
    obtain ⟨r, hmem, hheader⟩ := hrow
    have hauthentic := hs.authentic hmem
    rw [Envelope.Rooted, hheader]
    exact ⟨hauthentic.genesis, hauthentic.later⟩
  have hrow (e : Envelope (Channelized BroadcastByHost)) (he : e ∈ s.hostChain key) :
      ∃ r ∈ s.messages, e.header = r.body.header ∧ r.key = key := by
    obtain ⟨r, hr, _, hheader⟩ := row_of_hostChain he
    obtain ⟨hmem, hkey, _⟩ := (mem_chain hs).mp hr
    exact ⟨r, hmem, hheader, hkey⟩
  constructor
  · exact hr.heights
  · intro a ha b hb
    obtain ⟨ra, _, hheader, hkey⟩ := hrow a ha
    obtain ⟨rb, _, hheader', hkey'⟩ := hrow b hb
    rw [hheader, hheader']
    exact hkey.trans hkey'.symm
  · intro e he
    obtain ⟨⟨i, hi⟩, rfl⟩ := List.get_of_mem he
    obtain ⟨r, hmem, hheader, _⟩ := hrow _ he
    have hroot := hrooted ((s.hostChain key).get ⟨i, hi⟩) ⟨r, hmem, hheader⟩
    have hheight : ((s.hostChain key).get ⟨i, hi⟩).header.height = i := hr.heights i hi
    constructor
    · intro hnone
      show ((s.hostChain key).get ⟨i, hi⟩).header.height = 0
      by_contra hne
      have hsome := hroot.2 (by omega)
      rw [hnone] at hsome
      cases hsome
    · exact hroot.1
  · intro x hx
    exact hrooted _ (hcache x hx)

private theorem Store.exists_row_of_decoded {e : Envelope (ParticipantAction Psbt)}
    (he : s.decoded (readAction L) h = some e) :
    ∃ r ∈ s.messages, r.hash = h ∧ readAction L r.body = some e := by
  obtain ⟨r, hrow, hread⟩ := Option.bind_eq_some_iff.mp he
  exact ⟨r, List.mem_of_find?_eq_some hrow, by simpa using List.find?_some hrow, hread⟩

private theorem Store.rereadEntry_eq (hs : s.Sourced (L.crypto wrappedJson))
    (hreceived : ∀ r ∈ s.messages, r.body.Received L)
    (hseparates : ∀ r ∈ s.messages, ∀ v, readAction L r.body = some v →
      L.Separates (v.encode (participantAction L)).normalize
        (r.body.encode wrappedJson).normalize)
    (hread : CanonicalEnvelopeHash.decode h.encode = some h)
    {e : Envelope (ParticipantAction Psbt)} (he : s.decoded (readAction L) h = some e)
    (hhash : typedHash L e = h) :
    UnauthenticatedRawSequencer.rereadEntry L (h, e) = some (h, e) := by
  obtain ⟨r, hr, hrow, hdecode⟩ := exists_row_of_decoded he
  have hbody : (e.encode (participantAction L)).normalize =
      (r.body.encode wrappedJson).normalize := by
    apply hseparates r hr e hdecode
    show typedHash L e = (L.crypto wrappedJson).canonicalizedHash r.body
    rw [hhash, ← hrow, hs.hash_eq hr]
  have hreread : (participantAction L).readEnvelope L (e.encode (participantAction L)).normalize =
      some e := by
    rw [hbody, (hreceived r hr).readEnvelope_eq]
    exact hdecode
  simp [UnauthenticatedRawSequencer.rereadEntry, hread, hreread]

private theorem Envelope.Received.encode_isCanonical {M : Type} {A : AttestEnvelopable M}
    {u : Envelope Json} {e : Envelope M} (hu : u.Received L) (h : u.readAs A = some e) :
    (e.encode A).isCanonical := by
  obtain ⟨msg, hmsg, rfl⟩ := Option.map_eq_some_iff.mp h
  have hheader : (⟨u.header, msg⟩ : Envelope M).header.Safe := hu.safe
  exact Envelope.encode_isCanonical hheader (A.canonical _ _ hu.read.canonical hmsg)

private theorem mem_collectMap {E : Type} {entries : List (CanonicalEnvelopeHash × E)}
    {x : CanonicalEnvelopeHash × E} (hx : x ∈ collectMap entries) : x ∈ entries := by
  induction entries using List.reverseRecOn with
  | nil => exact hx
  | append_singleton entries y ih =>
    rw [collectMap_concat, insertEntry] at hx
    apply (List.mem_append.mp hx).elim
    · intro hold
      exact List.mem_append_left _ (ih (List.mem_filter.mp hold).1)
    · intro hlast
      exact List.mem_append_right _ hlast

private theorem snapshot_isCanonical (hreceived : ∀ r ∈ s.messages, r.body.Received L)
    (hs : s.Sourced (L.crypto wrappedJson)) :
    ((snapshot L (s.hostChain key)
      (hashes.filterMap (s.decoded (readAction L)))).encode L).isCanonical := by
  have hchain : ∀ e ∈ s.hostChain key, (e.encode channelizedBroadcast).isCanonical := by
    intro e he
    obtain ⟨r, hr, hread, _⟩ := Store.row_of_hostChain he
    exact (hreceived r ((Store.mem_chain hs).mp hr).1).encode_isCanonical hread
  have hcache : ∀ x ∈ (snapshot L (s.hostChain key)
      (hashes.filterMap (s.decoded (readAction L)))).msgCache,
      (x.2.encode (participantAction L)).isCanonical := by
    intro x hx
    obtain ⟨e, he, rfl⟩ := List.mem_map.mp (mem_collectMap hx)
    obtain ⟨h, _, hdecoded⟩ := List.mem_filterMap.mp he
    obtain ⟨r, hr, _, hread⟩ := Store.exists_row_of_decoded hdecoded
    exact (hreceived r hr).encode_isCanonical hread
  rw [UnauthenticatedRawSequencer.encode, Json.isCanonical_obj]
  simp only [List.forall_mem_cons, List.not_mem_nil, false_imp_iff, implies_true, and_true,
    Json.isCanonical_arr, Json.isCanonical_obj, List.forall_mem_map]
  exact ⟨hchain, hcache⟩

private theorem toCanonical_newObservation {j : Json} (hj : j.isCanonical) :
    (newObservation j eventKey).toCanonical = some (newObservation j.normalize eventKey) := by
  have hcanonical : (newObservation j eventKey).isCanonical := by
    simp [newObservation, hj]
  rw [Json.toCanonical_of_isCanonical hcanonical, newObservation, Json.normalize_single]
  rfl

private theorem observation?_newObservation (j : Json) :
    observation? (newObservation j eventKey) = some (j, eventKey) :=
  rfl

/-- The observation that a snapshot of the store makes. -/
def Store.observation (L : Libraries Psbt) (s : Store Json) (key : XOnlyPublicKey) : Json :=
  ((snapshot L (s.hostChain key) ((scheduledBy (s.hostChain key)).filterMap
    (s.decoded (readAction L)))).encode L).normalize

private theorem makeSnapshot_of_read (hreceived : ∀ r ∈ s.messages, r.body.Received L)
    (hs : s.Sourced (L.crypto wrappedJson))
    (hreadable : ∀ r ∈ s.loadAllMessagesForUserByKeyConnected key,
      (r.body.readAs channelizedBroadcast).isSome)
    (hstored : ∀ h ∈ scheduledBy (s.hostChain key), (s.decoded (readAction L) h).isSome) :
    makeSnapshot L s key l group moveCount eventKey id now =
      (gameMoveTag moveCount).map fun tag => logOccurrence l group
        ⟨newObservation (s.observation L key) eventKey, now, litigatorEvent, some tag⟩ id := by
  have hchain : ((s.loadAllMessagesForUserByKeyConnected key).mapM fun r =>
      r.body.readAs channelizedBroadcast) = some (s.hostChain key) :=
    mapM_eq_some_iff.mpr ⟨hreadable, rfl⟩
  have hcache : s.messagesByHash (readAction L) (scheduledBy (s.hostChain key)) =
      some ((scheduledBy (s.hostChain key)).filterMap (s.decoded (readAction L))) :=
    mapM_eq_some_iff.mpr ⟨hstored, rfl⟩
  have hcanonical : (newObservation ((snapshot L (s.hostChain key) ((scheduledBy
      (s.hostChain key)).filterMap (s.decoded (readAction L)))).encode L) eventKey).toCanonical =
        some (newObservation (s.observation L key) eventKey) :=
    toCanonical_newObservation (snapshot_isCanonical hreceived hs)
  rw [makeSnapshot, hchain]
  dsimp only
  rw [hcache]
  dsimp only
  rw [hcanonical]
  rfl

private theorem read_of_makeSnapshot
    (h : makeSnapshot L s key l group moveCount eventKey id now = .ok (.ok l')) :
    (∀ r ∈ s.loadAllMessagesForUserByKeyConnected key,
      (r.body.readAs channelizedBroadcast).isSome) ∧
    ∀ h ∈ scheduledBy (s.hostChain key), (s.decoded (readAction L) h).isSome := by
  unfold makeSnapshot at h
  split at h
  · cases h
  · rename_i chain hchain
    obtain ⟨hreadable, rfl⟩ := mapM_eq_some_iff.mp hchain
    split at h
    · cases h
    · rename_i m hcache
      exact ⟨hreadable, (mapM_eq_some_iff.mp hcache).1⟩

private theorem logOccurrence_eq {o : Occurrence} (hgroup : group ∈ l.groups.map Prod.fst) :
    logOccurrence l group o id = .ok (if l.hasTag group o.uniqueTag then l else
      { l with occurrences := l.occurrences ++ [⟨id, o, group⟩] }) := by
  unfold logOccurrence EventLog.insertOccurrence EventLog.newOccurrence
  by_cases htag : l.hasTag group o.uniqueTag <;> simp [hgroup, htag]

private theorem makeSnapshot_logs_iff {row : OccurrenceRow}
    (hreceived : ∀ r ∈ s.messages, r.body.Received L) (hs : s.Sourced (L.crypto wrappedJson))
    (hgroup : group ∈ l.groups.map Prod.fst) :
    makeSnapshot L s key l group moveCount eventKey id now =
      .ok (.ok { l with occurrences := l.occurrences ++ [row] }) ↔
    ((∀ r ∈ s.loadAllMessagesForUserByKeyConnected key,
        (r.body.readAs channelizedBroadcast).isSome) ∧
      ∀ h ∈ scheduledBy (s.hostChain key), (s.decoded (readAction L) h).isSome) ∧
    ∃ tag, gameMoveTag moveCount = .ok tag ∧ ¬l.hasTag group (some tag) ∧
      row = ⟨id, ⟨newObservation (s.observation L key) eventKey, now, litigatorEvent, some tag⟩,
        group⟩ := by
  have hlogged (tag : String) : logOccurrence l group
      ⟨newObservation (s.observation L key) eventKey, now, litigatorEvent, some tag⟩ id =
        .ok { l with occurrences := l.occurrences ++ [row] } ↔ ¬l.hasTag group (some tag) ∧
      row = ⟨id, ⟨newObservation (s.observation L key) eventKey, now, litigatorEvent, some tag⟩,
        group⟩ := by
    rw [logOccurrence_eq hgroup, Except.ok.injEq]
    by_cases htag : l.hasTag group (some tag)
    · rw [if_pos htag]
      constructor
      · intro h
        have hlength := congrArg (fun l => l.occurrences.length) h
        simp at hlength
      · intro h
        exact absurd htag h.1
    · simp [htag, eq_comm]
  constructor
  · intro h
    have hread := read_of_makeSnapshot h
    rw [makeSnapshot_of_read hreceived hs hread.1 hread.2] at h
    cases htag : gameMoveTag moveCount with
    | error e =>
      rw [htag] at h
      cases h
    | ok tag =>
      rw [htag] at h
      exact ⟨hread, tag, rfl, (hlogged tag).mp (Except.ok.inj h)⟩
  · intro h
    obtain ⟨hread, tag, htag, hrow⟩ := h
    rw [makeSnapshot_of_read hreceived hs hread.1 hread.2, htag]
    exact congrArg Except.ok ((hlogged tag).mpr hrow)

end

section

variable {Psbt : Type} {L : Libraries Psbt} {s : Store Json} {key : XOnlyPublicKey}
  {hashes : List CanonicalEnvelopeHash} {l l' : EventLog} {group moveCount id : ℕ} {now : ℤ}
  {setup : GameSetup} {g : GameBoard} {reason : FinishReason}
  {played : List (MoveEnvelope × XOnlyPublicKey)}

private theorem Store.movesOf_eq : s.movesOf L hashes =
    (hashes.filterMap (s.decoded (readAction L))).filterMap Envelope.move? := by
  rw [movesOf, List.filterMap_filterMap]

private theorem Store.hashes_reread : ∀ h ∈ scheduledBy (s.hostChain key),
    CanonicalEnvelopeHash.decode h.encode = some h := by
  intro h hh
  obtain ⟨e, he, hbatch⟩ := List.mem_flatMap.mp hh
  obtain ⟨r, _, hread, _⟩ := row_of_hostChain he
  obtain ⟨msg, hmsg, rfl⟩ := Option.map_eq_some_iff.mp hread
  obtain ⟨v, hdata⟩ := Channelized.exists_data hmsg
  cases hbatch' : msg.data with
  | sequence d =>
    rw [hbatch'] at hbatch hdata
    exact BroadcastByHost.hashes_reread hdata rfl h hbatch
  | _ =>
    rw [hbatch'] at hbatch
    cases hbatch

private theorem Store.hostChain_reread (hs : s.Sourced (L.crypto wrappedJson))
    (hreceived : ∀ r ∈ s.messages, r.body.Received L) : ∀ e ∈ s.hostChain key,
      channelizedBroadcast.readEnvelope L (e.encode channelizedBroadcast).normalize = some e := by
  intro e he
  obtain ⟨r, hr, hread, _⟩ := row_of_hostChain he
  exact (hreceived r ((mem_chain hs).mp hr).1).broadcast_rereads hread

private theorem Store.Replayable.decode_observation (hr : s.Replayable L key)
    (hs : s.Sourced (L.crypto wrappedJson)) (hreceived : ∀ r ∈ s.messages, r.body.Received L)
    (hseparates : ∀ r ∈ s.messages, ∀ v, readAction L r.body = some v →
      L.Separates (v.encode (participantAction L)).normalize
        (r.body.encode wrappedJson).normalize) :
    ExtractedMoveEnvelopes.decode L (s.observation L key) =
      some (s.movesOf L (scheduledBy (s.hostChain key))) := by
  obtain ⟨hkeys, hlookup⟩ := snapshot_cache (s.hostChain key) hr.distinct hr.filed
  have hhashes : (snapshot L (s.hostChain key) ((scheduledBy (s.hostChain key)).filterMap
      (s.decoded (readAction L)))).hashes = scheduledBy (s.hostChain key) := scheduledBy_eq.symm
  have hentry : ∀ x ∈ (snapshot L (s.hostChain key) ((scheduledBy (s.hostChain key)).filterMap
      (s.decoded (readAction L)))).msgCache,
      x.1 ∈ scheduledBy (s.hostChain key) ∧ s.decoded (readAction L) x.1 = some x.2 := by
    intro x hx
    have hmem : x.1 ∈ scheduledBy (s.hostChain key) := by
      rw [← hkeys]
      exact List.mem_map_of_mem hx
    refine ⟨hmem, ?_⟩
    rw [← hlookup x.1 hmem]
    exact (lookup_eq_some_iff_mem collectMap_nodup).mpr hx
  rw [Store.observation, ExtractedMoveEnvelopes.decode_encode]
  · rw [hhashes, Store.movesOf_eq]
    congr 2
    exact List.filterMap_congr hlookup
  · exact Store.hostChain_reread hs hreceived
  · exact collectMap_nodup
  · intro x hx
    obtain ⟨hmem, he⟩ := hentry x hx
    obtain ⟨v, hv, hhash⟩ := hr.filed x.1 hmem
    obtain rfl := Option.some.inj (hv.symm.trans he)
    exact Store.rereadEntry_eq hs hreceived hseparates (Store.hashes_reread x.1 hmem) he hhash
  · apply hr.consistent hs
    intro x hx
    obtain ⟨r, hrow, _, hread⟩ := Store.exists_row_of_decoded (hentry x hx).2
    obtain ⟨msg, _, heq⟩ := Option.map_eq_some_iff.mp hread
    exact ⟨r, hrow, by rw [← heq]⟩
  · rw [hhashes]
    exact hr.distinct
  · intro h hh
    rw [hhashes] at hh
    rw [hlookup h hh]
    obtain ⟨v, hv, _⟩ := hr.filed h hh
    rw [hv]
    rfl

private theorem Store.replayable_of_decode (hs : s.Sourced (L.crypto wrappedJson))
    (hreceived : ∀ r ∈ s.messages, r.body.Received L)
    (hdistinct : s.Distinguishes (readAction L) (typedHash L))
    (hreadable : ∀ r ∈ s.loadAllMessagesForUserByKeyConnected key,
      (r.body.readAs channelizedBroadcast).isSome)
    (hstored : ∀ h ∈ scheduledBy (s.hostChain key), (s.decoded (readAction L) h).isSome)
    {moves : List (MoveEnvelope × XOnlyPublicKey)}
    (hmoves : ExtractedMoveEnvelopes.decode L (s.observation L key) = some moves) :
    s.Replayable L key := by
  obtain ⟨hheights, hnodup, hcached⟩ :=
    ExtractedMoveEnvelopes.of_decode (hostChain_reread hs hreceived) collectMap_nodup hmoves
  rw [← scheduledBy_eq] at hnodup hcached
  refine ⟨hreadable, hheights, hnodup, ?_⟩
  intro h hh
  obtain ⟨v, hv⟩ := Option.isSome_iff_exists.mp (hstored h hh)
  refine ⟨v, hv, ?_⟩
  -- the cache has the hash, so that some envelope has it as it is decoded
  have hkey := mem_collectMap_keys.mp (hcached h hh)
  rw [List.map_map] at hkey
  obtain ⟨w, hw, hhash⟩ := List.mem_map.mp hkey
  obtain ⟨h', _, hdecoded⟩ := List.mem_filterMap.mp hw
  obtain ⟨r, hr, hrow, hread⟩ := exists_row_of_decoded hv
  obtain ⟨r', hr', _, hread'⟩ := exists_row_of_decoded hdecoded
  obtain rfl := hdistinct r' hr' r hr w hread' (hhash.trans hrow.symm)
  rw [hread, Option.some.injEq] at hread'
  rw [hread']
  exact hhash

/-- The observation of a finished game is logged, and the game is replayed from it to the end, just
if the store can be replayed and the log does not have the tag of the move yet. -/
theorem finished_game_reported_iff (hstore : Store.Reachable (L.crypto wrappedJson) s)
    (hreceived : ∀ r ∈ s.messages, r.body.Received L)
    (hdistinct : s.Distinguishes (readAction L) (typedHash L))
    (hseparates : ∀ r ∈ s.messages, ∀ v, readAction L r.body = some v →
      L.Separates (v.encode (participantAction L)).normalize
        (r.body.encode wrappedJson).normalize)
    (hgroup : group ∈ l.groups.map Prod.fst) (hnew : GameBoard.new setup = .ok g)
    (hdelivered : s.Delivers L key hashes)
    (hgame : startGame (s.movesOf L hashes) 0 g = .ok (some (moveCount, reason))) :
    (∃ l', makeSnapshot L s key l group moveCount (eventFor reason) id now = .ok (.ok l') ∧
      Reports L l l' group setup reason ((s.movesOf L hashes).take moveCount)) ↔
    s.Replayable L key ∧
      ∃ tag, gameMoveTag moveCount = .ok tag ∧ ¬l.hasTag group (some tag) := by
  have hs := hstore.sourced
  constructor
  · intro h
    obtain ⟨l', hmake, hreports⟩ := h
    obtain ⟨row, observation, moves, rfl, _, _, hdata, hmoves, _⟩ := hreports.logged
    obtain ⟨hread, tag, htag, hnewTag, rfl⟩ := (makeSnapshot_logs_iff hreceived hs hgroup).mp hmake
    rw [observation?_newObservation, Option.some.injEq, Prod.mk.injEq] at hdata
    obtain ⟨rfl, _⟩ := hdata
    exact ⟨Store.replayable_of_decode hs hreceived hdistinct hread.1 hread.2 hmoves, tag, htag,
      hnewTag⟩
  · intro h
    obtain ⟨hr, tag, htag, hnewTag⟩ := h
    have hstored : ∀ h ∈ scheduledBy (s.hostChain key), (s.decoded (readAction L) h).isSome := by
      intro h hh
      obtain ⟨v, hv, _⟩ := hr.filed h hh
      rw [hv]
      rfl
    let row : OccurrenceRow := ⟨id, ⟨newObservation (s.observation L key) (eventFor reason), now,
      litigatorEvent, some tag⟩, group⟩
    have hmake : makeSnapshot L s key l group moveCount (eventFor reason) id now =
        .ok (.ok { l with occurrences := l.occurrences ++ [row] }) :=
      (makeSnapshot_logs_iff hreceived hs hgroup).mpr
        ⟨⟨hr.readable, hstored⟩, tag, htag, hnewTag, rfl⟩
    have hprefix : s.movesOf L hashes <+: s.movesOf L (scheduledBy (s.hostChain key)) :=
      hdelivered.scheduled.filterMap _
    refine ⟨_, hmake, ⟨row, s.observation L key, _, rfl, rfl, rfl, rfl,
      hr.decode_observation hs hreceived hseparates, ?_, ?_⟩⟩
    · exact (List.take_prefix _ _).trans hprefix
    · obtain ⟨more, hmore⟩ := hprefix
      obtain ⟨b, hb⟩ := replay_of_startGame hgame more
      refine ⟨b, ?_⟩
      rw [replayFrom, hnew, ← hmore]
      exact hb

end

/-- Alice plays a game that has no time. -/
def overdueGame : GameSetup :=
  { players := [XOnlyPublicKey.toText ⟨5⟩], startAmount := 0, finishTime := 0,
    startAmount_lt := by decide }

def scheduling (hashes : List CanonicalEnvelopeHash) : Json :=
  (Channelized.encode ⟨.sequence hashes, "default"⟩).normalize

/-- The host schedules envelopes, and Alice's is a move. -/
def hostedStore (hashes : List CanonicalEnvelopeHash) : Store Json :=
  [.insertUser "host" (payloadGenesis 7 (scheduling hashes)) 0,
    .insertUser "alice" (payloadGenesis 5 buildPlant.normalize) 0].foldl Store.apply .empty

def emptyLog : EventLog := ⟨[(1, "game")], [], none⟩

private theorem hostedStore_reachable (hashes : List CanonicalEnvelopeHash) :
    Store.Reachable depthCrypto (hostedStore hashes) :=
  Store.reachable_foldl _

/-- What can be evaluated of a store that schedules Alice's move first. -/
structure PlaysOverdue (s : Store Json) : Prop where
  received : ∀ r ∈ s.messages, r.body.Received depthLibraries
  distinguishes : s.Distinguishes (readAction depthLibraries) (typedHash depthLibraries)
  separates : ∀ r ∈ s.messages, ∀ v, readAction depthLibraries r.body = some v →
    depthLibraries.Separates (v.encode (participantAction depthLibraries)).normalize
      (r.body.encode wrappedJson).normalize
  delivers : s.Delivers depthLibraries ⟨7⟩ [⟨6⟩]
  game : ∃ g, GameBoard.new overdueGame = .ok g ∧
    startGame (s.movesOf depthLibraries [⟨6⟩]) 0 g = .ok (some (1, .timeExpired))

private theorem playsOverdue {s : Store Json} (hs : s.Linked)
    (hheaders : ∀ r ∈ s.messages,
      Header.decode depthLibraries r.body.header.encode = some r.body.header)
    (hbodies : ∀ r ∈ s.messages, r.body.header.Safe ∧ r.body.msg.depth ≤ 126 ∧
      r.body.msg.normalize = r.body.msg ∧ r.body.msg.isCanonical ∧
        r.body.msg.readValue = some r.body.msg)
    (hactions : ∀ r ∈ s.messages, (readAction depthLibraries r.body).all fun v =>
      r.hash = ⟨6⟩ ∧ typedHash depthLibraries v = ⟨6⟩ ∧
        (v.encode (participantAction depthLibraries)).normalize =
          (r.body.encode wrappedJson).normalize)
    (hscheduled : [(⟨6⟩ : CanonicalEnvelopeHash)] <+: scheduledBy (s.hostChain ⟨7⟩))
    (hstored : (s.decoded (readAction depthLibraries) ⟨6⟩).any fun v =>
      decide (typedHash depthLibraries v = ⟨6⟩))
    (hgame : returns (do
      let g ← GameBoard.new overdueGame
      let r ← startGame (s.movesOf depthLibraries [⟨6⟩]) 0 g
      pure (g, r)) fun x => x.2 = some (1, .timeExpired)) :
    PlaysOverdue s := by
  have hall (r : Row Json) (hr : r ∈ s.messages) (v : Envelope (ParticipantAction Unit))
      (hv : readAction depthLibraries r.body = some v) : r.hash = ⟨6⟩ ∧
        typedHash depthLibraries v = ⟨6⟩ ∧ (v.encode (participantAction depthLibraries)).normalize =
          (r.body.encode wrappedJson).normalize := by
    have htest := hactions r hr
    rw [hv, Option.all_some, decide_eq_true_eq] at htest
    exact htest
  constructor
  · intro r hr
    obtain ⟨hsafe, hdepth, hnormal, hcanonical, hvalue⟩ := hbodies r hr
    exact ⟨⟨⟨_, hheaders r hr⟩, hdepth, hnormal, hcanonical, Json.mixed_readValue _ hvalue⟩, hvalue,
      hsafe⟩
  · intro r hr r' hr' v hv hhash
    obtain ⟨hrow, htyped, _⟩ := hall r hr v hv
    apply hs.eq_of_hash hr hr'
    rw [hrow, ← hhash]
    exact htyped.symm
  · intro r hr v hv _
    exact (hall r hr v hv).2.2
  · constructor
    · exact hscheduled
    · intro h hh
      obtain rfl := List.mem_singleton.mp hh
      exact Store.filedUnder_of_any hstored
  · obtain ⟨x, hok, htest⟩ := returns_iff.mp hgame
    simp only [bind_eq_ok_iff, pure_eq_ok, Except.ok.injEq] at hok
    obtain ⟨g, hnew, r, hstart, rfl⟩ := hok
    have hr : r = some (1, .timeExpired) := of_decide_eq_true htest
    rw [hr] at hstart
    exact ⟨g, hnew, hstart⟩

private theorem playsOverdue_alone : PlaysOverdue (hostedStore [⟨6⟩]) :=
  playsOverdue (hostedStore_reachable _).linked (by decide +kernel) (by decide +kernel)
    (by decide +kernel) (by decide +kernel) (by decide +kernel) (by decide +kernel)

private theorem playsOverdue_ahead : PlaysOverdue (hostedStore [⟨6⟩, ⟨9⟩]) :=
  playsOverdue (hostedStore_reachable _).linked (by decide +kernel) (by decide +kernel)
    (by decide +kernel) (by decide +kernel) (by decide +kernel) (by decide +kernel)

/-- When only Alice's move is scheduled the game is reported. -/
theorem finished_game_reported_alone : ∃ l',
    makeSnapshot depthLibraries (hostedStore [⟨6⟩]) ⟨7⟩ emptyLog 1 1 (eventFor .timeExpired) 1 0 =
      .ok (.ok l') ∧
    Reports depthLibraries emptyLog l' 1 overdueGame .timeExpired
      (((hostedStore [⟨6⟩]).movesOf depthLibraries [⟨6⟩]).take 1) := by
  obtain ⟨hreceived, hdistinct, hseparates, hdelivers, g, hnew, hgame⟩ := playsOverdue_alone
  apply (finished_game_reported_iff (hostedStore_reachable _) hreceived hdistinct hseparates
    (by decide) hnew hdelivers hgame).mpr
  have hscheduled : scheduledBy ((hostedStore [⟨6⟩]).hostChain ⟨7⟩) = [⟨6⟩] := by
    decide +kernel
  have hreadable : ∀ r ∈ (hostedStore [⟨6⟩]).loadAllMessagesForUserByKeyConnected ⟨7⟩,
      (r.body.readAs channelizedBroadcast).isSome := by
    decide +kernel
  have hheights : ((hostedStore [⟨6⟩]).hostChain ⟨7⟩).map (fun e => e.header.height) = [0] := by
    decide +kernel
  have htag : ¬emptyLog.hasTag 1 (some "\x7b\"scoped_counter\":[\"game_move\",1]\x7d") := by
    decide
  refine ⟨⟨hreadable, ?_, ?_, ?_⟩, _, rfl, htag⟩
  · intro i hi
    have hheight : (((hostedStore [⟨6⟩]).hostChain ⟨7⟩).map fun e => e.header.height)[i]? =
        some (((hostedStore [⟨6⟩]).hostChain ⟨7⟩).get ⟨i, hi⟩).header.height := by
      rw [List.getElem?_map, List.getElem?_eq_getElem hi]
      rfl
    rw [hheights] at hheight
    cases i with
    | zero => exact (Option.some.inj hheight).symm
    | succ i => cases hheight
  · rw [hscheduled]
    exact List.nodup_singleton _
  · rw [hscheduled]
    exact hdelivers.stored

/-- When the host has scheduled one more envelope, which is not stored, nothing is logged. -/
theorem scheduled_ahead_unreported : Store.Reachable depthCrypto (hostedStore [⟨6⟩, ⟨9⟩]) ∧
    ∃ g, GameBoard.new overdueGame = .ok g ∧
    (hostedStore [⟨6⟩, ⟨9⟩]).Delivers depthLibraries ⟨7⟩ [⟨6⟩] ∧
    startGame ((hostedStore [⟨6⟩, ⟨9⟩]).movesOf depthLibraries [⟨6⟩]) 0 g =
      .ok (some (1, .timeExpired)) ∧
    makeSnapshot depthLibraries (hostedStore [⟨6⟩, ⟨9⟩]) ⟨7⟩ emptyLog 1 1 (eventFor .timeExpired)
      1 0 = .ok (.error .databaseFetch) ∧
    ¬∃ l', makeSnapshot depthLibraries (hostedStore [⟨6⟩, ⟨9⟩]) ⟨7⟩ emptyLog 1 1
        (eventFor .timeExpired) 1 0 = .ok (.ok l') ∧
      Reports depthLibraries emptyLog l' 1 overdueGame .timeExpired
        (((hostedStore [⟨6⟩, ⟨9⟩]).movesOf depthLibraries [⟨6⟩]).take 1) := by
  obtain ⟨_, _, _, hdelivers, g, hnew, hgame⟩ := playsOverdue_ahead
  have hfetch : makeSnapshot depthLibraries (hostedStore [⟨6⟩, ⟨9⟩]) ⟨7⟩ emptyLog 1 1
      (eventFor .timeExpired) 1 0 = .ok (.error .databaseFetch) := by
    have hchain : ((hostedStore [⟨6⟩, ⟨9⟩]).loadAllMessagesForUserByKeyConnected ⟨7⟩).mapM
        (fun r => r.body.readAs channelizedBroadcast) =
          some ((hostedStore [⟨6⟩, ⟨9⟩]).hostChain ⟨7⟩) :=
      mapM_eq_some_iff.mpr ⟨by decide +kernel, rfl⟩
    have hmissing : ((hostedStore [⟨6⟩, ⟨9⟩]).messagesByHash (readAction depthLibraries)
        (scheduledBy ((hostedStore [⟨6⟩, ⟨9⟩]).hostChain ⟨7⟩))).isNone := by
      decide +kernel
    rw [makeSnapshot, hchain]
    dsimp only
    rw [Option.isNone_iff_eq_none.mp hmissing]
    rfl
  refine ⟨hostedStore_reachable _, g, hnew, hdelivers, hgame, hfetch, ?_⟩
  intro h
  obtain ⟨l', hmake, _⟩ := h
  rw [hfetch] at hmake
  cases hmake

end JudicaVM
