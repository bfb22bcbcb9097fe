import JudicaVM.Sequencer.Generic

/-!
# The consumers of moves

The user interface reads moves from a sequencer until it gets none, the contract reads all moves of a
trace, and the demultiplexer sends every kind of action on a channel of its own.
-/

namespace JudicaVM

section

variable {Psbt : Type}

/-- The move of an envelope, if it carries one, with the key of its author. Reading never fails. -/
def readMove (m : Envelope (ParticipantAction Psbt)) :
    Except Empty (Option (MoveEnvelope × XOnlyPublicKey)) :=
  match m.msg with
  | .moveEnvelope me => .ok (some (me, m.header.key))
  | .custom _ => .ok none
  | .psbtSigningCoordination _ => .ok none

/-- What `while let Some(m) = sequencer.output_move().await` reads of what the sequencer puts out. An
envelope without a move looks like the end. -/
def whileSome {α : Type} : List (Option α) → List α
  | some a :: rest => a :: whileSome rest
  | _ => []

/-- `TryFrom<OfflineSequencer<ParticipantAction>> for ExtractedMoveEnvelopes`. -/
def ExtractedMoveEnvelopes.tryFrom (value : OfflineSequencer (ParticipantAction Psbt)) :
    Except (SequenceingError Empty) (List (MoveEnvelope × XOnlyPublicKey)) :=
  value.directlySequenceMap readMove

/-- A channel without a bound, whose receiver may have been dropped. -/
structure UnboundedChannel (α : Type) where
  sent : List α
  closed : Bool

namespace UnboundedChannel

variable {α : Type}

def new : UnboundedChannel α where
  sent := []
  closed := false

/-- The channel after a value is sent, and whether that succeeds. -/
def send (c : UnboundedChannel α) (a : α) : UnboundedChannel α × Bool :=
  if c.closed then (c, false) else ({ c with sent := c.sent ++ [a] }, true)

end UnboundedChannel

structure DemuxedSequencer (Psbt : Type) where
  sendMove : UnboundedChannel (MoveEnvelope × XOnlyPublicKey)
  sendPsbt : UnboundedChannel (Psbt × String)
  sendCustom : UnboundedChannel Serde.Json
  listeningMoves : Bool
  listeningCustom : Bool
  listeningPsbt : Bool

namespace DemuxedSequencer

/-- The sequencer holds the receivers of its channels, which are open. -/
def new : DemuxedSequencer Psbt where
  sendMove := .new
  sendPsbt := .new
  sendCustom := .new
  listeningMoves := true
  listeningCustom := true
  listeningPsbt := true

def demux (this : DemuxedSequencer Psbt) (e : Envelope (ParticipantAction Psbt)) :
    DemuxedSequencer Psbt :=
  match e.msg with
  | .moveEnvelope m =>
    if this.listeningMoves then
      let (sendMove, listeningMoves) := this.sendMove.send (m, e.header.key)
      { this with sendMove, listeningMoves }
    else this
  | .custom c =>
    if this.listeningCustom then
      let (sendCustom, listeningCustom) := this.sendCustom.send c
      { this with sendCustom, listeningCustom }
    else this
  | .psbtSigningCoordination c =>
    if this.listeningPsbt then
      let (sendPsbt, listeningPsbt) := this.sendPsbt.send (c.data, c.channel)
      { this with sendPsbt, listeningPsbt }
    else this

/-- The loop over the envelopes that the inner sequencer puts out. -/
def run : List (Envelope (ParticipantAction Psbt)) → DemuxedSequencer Psbt → DemuxedSequencer Psbt
  | [], this => this
  | e :: rest, this =>
    let this := this.demux e
    if !(this.listeningCustom || this.listeningMoves || this.listeningPsbt) then this
    else run rest this

end DemuxedSequencer

variable {e : Envelope (ParticipantAction Psbt)} {envelopes : List (Envelope (ParticipantAction Psbt))}

/-- The move of an envelope, if it carries one. -/
def Envelope.move? (e : Envelope (ParticipantAction Psbt)) : Option (MoveEnvelope × XOnlyPublicKey) :=
  match e.msg with
  | .moveEnvelope me => some (me, e.header.key)
  | _ => none

/-- No move comes after an action of another kind. -/
def MovesFirst (envelopes : List (Envelope (ParticipantAction Psbt))) : Prop :=
  envelopes.Pairwise fun a b => b.move?.isSome → a.move?.isSome

private theorem readMove_eq : readMove e = .ok e.move? := by
  unfold readMove Envelope.move?
  cases e.msg <;> rfl

private theorem whileSome_eq_iff :
    whileSome (envelopes.map Envelope.move?) = envelopes.filterMap Envelope.move? ↔
      MovesFirst envelopes := by
  induction envelopes with
  | nil => simp [whileSome, MovesFirst]
  | cons e rest ih =>
    rw [MovesFirst, List.pairwise_cons, List.map_cons, List.filterMap_cons]
    cases hmove : e.move? with
    | none =>
      show [] = rest.filterMap Envelope.move? ↔ _
      rw [eq_comm, List.filterMap_eq_nil_iff]
      constructor
      · intro hnone
        have hlater (b : Envelope (ParticipantAction Psbt)) (hb : b ∈ rest) : b.move?.isSome = false := by
          rw [hnone b hb]
          rfl
        refine ⟨fun b hb => ?_, List.pairwise_of_forall_mem_list fun a _ b hb => ?_⟩
        · simp [hlater b hb]
        · simp [hlater b hb]
      · intro h b hb
        by_contra hne
        have hnone := h.1 b hb (Option.isSome_iff_ne_none.mpr hne)
        cases hnone
    | some m =>
      show m :: whileSome (rest.map Envelope.move?) = m :: rest.filterMap Envelope.move? ↔ _
      rw [List.cons_inj_right, ih]
      simp [MovesFirst]

namespace DemuxedSequencer

/-- The channels are open, and all kinds of actions are listened to. -/
structure Open (this : DemuxedSequencer Psbt) : Prop where
  move : this.sendMove.closed = false ∧ this.listeningMoves = true
  custom : this.sendCustom.closed = false ∧ this.listeningCustom = true
  psbt : this.sendPsbt.closed = false ∧ this.listeningPsbt = true

variable {this : DemuxedSequencer Psbt}

private theorem Open.demux (h : this.Open) : (this.demux e).Open ∧
    (this.demux e).sendMove.sent = this.sendMove.sent ++ e.move?.toList := by
  unfold DemuxedSequencer.demux Envelope.move?
  cases e.msg with
  | moveEnvelope m =>
    simp only [h.move.2, if_true, UnboundedChannel.send, h.move.1]
    exact ⟨⟨⟨rfl, rfl⟩, h.custom, h.psbt⟩, rfl⟩
  | custom c =>
    simp only [h.custom.2, if_true, UnboundedChannel.send, h.custom.1]
    exact ⟨⟨h.move, ⟨rfl, rfl⟩, h.psbt⟩, (List.append_nil _).symm⟩
  | psbtSigningCoordination c =>
    simp only [h.psbt.2, if_true, UnboundedChannel.send, h.psbt.1]
    exact ⟨⟨h.move, h.custom, ⟨rfl, rfl⟩⟩, (List.append_nil _).symm⟩

private theorem Open.run (h : this.Open) : (run envelopes this).sendMove.sent =
    this.sendMove.sent ++ envelopes.filterMap Envelope.move? := by
  induction envelopes generalizing this with
  | nil => simp [DemuxedSequencer.run]
  | cons e rest ih =>
    obtain ⟨hopen, hsent⟩ := h.demux (e := e)
    rw [DemuxedSequencer.run, if_neg (by simp [hopen.move.2]), ih hopen, hsent, List.append_assoc,
      List.filterMap_cons]
    cases e.move? <;> rfl

private theorem new_open : (new : DemuxedSequencer Psbt).Open :=
  ⟨⟨rfl, rfl⟩, ⟨rfl, rfl⟩, ⟨rfl, rfl⟩⟩

end DemuxedSequencer

/-- The sequencer of a consumer, which has the batches and the cache from the start. -/
def OfflineSequencer.started {R : Type} (o : OfflineSequencer (ParticipantAction Psbt)) :
    GenericSequencer (Envelope (ParticipantAction Psbt)) R :=
  .loaded o.batchesToSequence o.msgCache.reverse

/-- The scheduled hashes are distinct, and the cache has their envelopes. -/
structure OfflineSequencer.Complete (o : OfflineSequencer (ParticipantAction Psbt)) : Prop where
  nodup : o.batchesToSequence.flatten.Nodup
  cached : ∀ h ∈ o.batchesToSequence.flatten, (o.msgCache.lookup h).isSome

/-- The scheduled envelopes, in order. -/
def OfflineSequencer.scheduled (o : OfflineSequencer (ParticipantAction Psbt)) :
    List (Envelope (ParticipantAction Psbt)) :=
  o.batchesToSequence.flatten.filterMap fun h => o.msgCache.lookup h

/-- The loop over the moves of one sequencer, the offline sequencer and the channel of moves of the
demultiplexer on another one agree on the moves. -/
def MovesAgree (o : OfflineSequencer (ParticipantAction Psbt))
    (moves : List (Option (MoveEnvelope × XOnlyPublicKey)))
    (actions : List (Envelope (ParticipantAction Psbt))) : Prop :=
  ExtractedMoveEnvelopes.tryFrom o = .ok (whileSome moves) ∧
    (DemuxedSequencer.run actions .new).sendMove.sent = whileSome moves

variable {o : OfflineSequencer (ParticipantAction Psbt)}

private theorem fillCache_reverse {E : Type} (cache : List (CanonicalEnvelopeHash × E))
    (h : CanonicalEnvelopeHash) : fillCache (fun _ => none) cache.reverse h = cache.lookup h := by
  induction cache with
  | nil => rfl
  | cons x cache ih =>
    rw [List.reverse_cons, fillCache, List.foldl_append]
    show Function.update (fillCache (fun _ => none) cache.reverse) x.1 (some x.2) h = _
    rw [List.lookup_cons]
    by_cases heq : h = x.1
    · subst heq
      simp
    · rw [Function.update_of_ne heq, ih, beq_false_of_ne heq]

private theorem OfflineSequencer.Complete.outputMove_eq {R : Type} (ho : o.Complete)
    {extract : Envelope (ParticipantAction Psbt) → Except Empty R}
    {q : GenericSequencer (Envelope (ParticipantAction Psbt)) R}
    (hq : GenericSequencer.Settles extract o.started q) :
    q.outputMove = o.scheduled.filterMap fun e => (extract e).toOption := by
  obtain ⟨_, hsettled⟩ := @GenericSequencer.loaded_settles _ _ _ extract o.batchesToSequence
    o.msgCache.reverse
  obtain ⟨⟨rest, hserves⟩, hmoves⟩ := hsettled q hq
  have hcache : fillCache (fun _ => none) o.msgCache.reverse = fun h => o.msgCache.lookup h :=
    funext (fillCache_reverse o.msgCache)
  rw [hcache] at hserves
  have houtput : q.batcher.output = o.scheduled :=
    (map_some_eq_map_iff.mp (hserves.complete ho.nodup ho.cached)).2
  rw [hmoves, houtput]

theorem OfflineSequencer.Complete.tryFrom_eq (ho : o.Complete) :
    ExtractedMoveEnvelopes.tryFrom o = .ok (o.scheduled.filterMap Envelope.move?) := by
  apply sequenceMap_eq_ok_iff.mpr
  refine ⟨ho.nodup, fun h hh => ?_, ?_⟩
  · obtain ⟨e, he⟩ := Option.isSome_iff_exists.mp (ho.cached h hh)
    exact ⟨e, _, he, readMove_eq⟩
  · rw [OfflineSequencer.scheduled, List.filterMap_filterMap]
    apply List.filterMap_congr
    intro h _
    unfold picked
    cases o.msgCache.lookup h with
    | none => rfl
    | some e =>
      simp only [Option.bind_some, readMove_eq]
      rfl

/-- All consumers get the same moves just if no move is scheduled after an action of another kind. -/
theorem moves_agree_iff (ho : o.Complete) :
    (∃ q, GenericSequencer.Settles readMove o.started q) ∧
    (∃ q, GenericSequencer.Settles (fun e => .ok e : _ → Except Empty _) o.started q) ∧
      ∀ q q', GenericSequencer.Settles readMove o.started q →
        GenericSequencer.Settles (fun e => .ok e : _ → Except Empty _) o.started q' →
          (MovesAgree o q.outputMove q'.outputMove ↔ MovesFirst o.scheduled) := by
  refine ⟨GenericSequencer.loaded_settles.1, GenericSequencer.loaded_settles.1, ?_⟩
  intro q q' hq hq'
  have hmoves : q.outputMove = o.scheduled.map Envelope.move? := by
    rw [ho.outputMove_eq hq, ← List.filterMap_eq_map]
    apply List.filterMap_congr
    intro e _
    rw [readMove_eq]
    rfl
  have hactions : q'.outputMove = o.scheduled := by
    rw [ho.outputMove_eq hq']
    exact List.filterMap_some
  rw [MovesAgree, ho.tryFrom_eq, hmoves, hactions, DemuxedSequencer.new_open.run, Except.ok.injEq,
    ← whileSome_eq_iff]
  show _ ∧ o.scheduled.filterMap Envelope.move? = _ ↔ _
  rw [and_self, eq_comm]

/-- An envelope of a key with a payload. -/
def actionEnvelope (key : ℕ) (msg : ParticipantAction Unit) : Envelope (ParticipantAction Unit) where
  header := (smallEnvelope key none 0 0 0 0).header
  msg

def heartbeatAction : ParticipantAction Unit :=
  .moveEnvelope { d := .heartbeat, sequence := 1, timeMillis := 0 }

/-- Two moves and a custom action. -/
def mixedTrace (batches : List (List CanonicalEnvelopeHash)) :
    OfflineSequencer (ParticipantAction Unit) where
  batchesToSequence := batches
  msgCache := [(⟨1⟩, actionEnvelope 5 heartbeatAction), (⟨2⟩, actionEnvelope 6 (.custom .null)),
    (⟨3⟩, actionEnvelope 7 heartbeatAction)]

private theorem mixedTrace_complete (batches : List (List CanonicalEnvelopeHash))
    (hnodup : batches.flatten.Nodup) (hsub : batches.flatten ⊆ [⟨1⟩, ⟨2⟩, ⟨3⟩]) :
    (mixedTrace batches).Complete := by
  have hall : ∀ h ∈ [(⟨1⟩ : CanonicalEnvelopeHash), ⟨2⟩, ⟨3⟩],
      ((mixedTrace batches).msgCache.lookup h).isSome := by
    intro h hh
    simp only [List.mem_cons, List.not_mem_nil, or_false] at hh
    rcases hh with rfl | rfl | rfl <;> rfl
  exact ⟨hnodup, fun h hh => hall h (hsub hh)⟩

theorem moves_agree_last : ∃ q q', GenericSequencer.Settles readMove
      (mixedTrace [[⟨1⟩, ⟨3⟩], [⟨2⟩]]).started q ∧
    GenericSequencer.Settles (fun e => .ok e : _ → Except Empty _)
      (mixedTrace [[⟨1⟩, ⟨3⟩], [⟨2⟩]]).started q' ∧
      MovesAgree (mixedTrace [[⟨1⟩, ⟨3⟩], [⟨2⟩]]) q.outputMove q'.outputMove := by
  obtain ⟨⟨q, hq⟩, ⟨q', hq'⟩, hiff⟩ :=
    moves_agree_iff (mixedTrace_complete [[⟨1⟩, ⟨3⟩], [⟨2⟩]] (by decide) (by decide))
  refine ⟨q, q', hq, hq', (hiff q q' hq hq').mpr ?_⟩
  show List.Pairwise _ [actionEnvelope 5 heartbeatAction, actionEnvelope 7 heartbeatAction,
    actionEnvelope 6 (.custom .null)]
  decide

/-- The loop over the moves stops at the custom action, before the second move. -/
theorem custom_action_ends_loop : ∃ q, GenericSequencer.Settles readMove
      (mixedTrace [[⟨1⟩, ⟨2⟩, ⟨3⟩]]).started q ∧
    (mixedTrace [[⟨1⟩, ⟨2⟩, ⟨3⟩]]).Complete ∧ (whileSome q.outputMove).length = 1 ∧
      ∀ v, ExtractedMoveEnvelopes.tryFrom (mixedTrace [[⟨1⟩, ⟨2⟩, ⟨3⟩]]) = .ok v → v.length = 2 := by
  have ho : (mixedTrace [[⟨1⟩, ⟨2⟩, ⟨3⟩]]).Complete :=
    mixedTrace_complete _ (by decide) (by decide)
  obtain ⟨q, hq⟩ := @GenericSequencer.loaded_settles _ _ _ readMove
    (mixedTrace [[⟨1⟩, ⟨2⟩, ⟨3⟩]]).batchesToSequence (mixedTrace [[⟨1⟩, ⟨2⟩, ⟨3⟩]]).msgCache.reverse |>.1
  refine ⟨q, hq, ho, ?_, fun v hv => ?_⟩
  · rw [ho.outputMove_eq hq]
    rfl
  · rw [ho.tryFrom_eq] at hv
    obtain rfl := Except.ok.inj hv
    rfl

end

end JudicaVM
