import JudicaVM.Attest.Payloads

/-!
# The sequence that a host has published

The chain of a host, read as batches of the envelopes that it has sequenced.
-/

namespace JudicaVM

inductive SequencerError
  | badMessageType
  | messageFromWrongEntity
  | missingTip
  | gap
  | authenticationError
  deriving DecidableEq, Repr

/-- The chain of a host, and the envelopes that it sequences by their hashes. -/
structure RawSequencer (M : Type) where
  sequencerEnvelopes : List (Envelope (Channelized BroadcastByHost))
  msgCache : List (CanonicalEnvelopeHash × Envelope M)

structure OfflineSequencer (M : Type) where
  batchesToSequence : List (List CanonicalEnvelopeHash)
  msgCache : List (CanonicalEnvelopeHash × Envelope M)

def BroadcastByHost.batch? : BroadcastByHost → Option (List CanonicalEnvelopeHash)
  | .sequence s => some s
  | .newPeer _ => none
  | .heartbeat => none
  | .gameSetup _ => none

/-- Some two neighbours satisfy a test. -/
def anyWindow {α : Type} (test : α → α → Bool) : List α → Bool
  | a :: b :: rest => test a b || anyWindow test (b :: rest)
  | _ => false

/-- `TryFrom<RawSequencer<M>> for OfflineSequencer<M>`. -/
def OfflineSequencer.tryFrom {M : Type} (value : RawSequencer M) :
    Except SequencerError (OfflineSequencer M) :=
  if value.sequencerEnvelopes.head?.any fun v => v.header.height ≠ 0 then .error .missingTip
  else if anyWindow (fun a b => a.header.height + 1 ≠ b.header.height)
      value.sequencerEnvelopes then .error .gap
  else if anyWindow (fun a b => a.header.key ≠ b.header.key) value.sequencerEnvelopes then
    .error .messageFromWrongEntity
  else
    .ok
      { batchesToSequence := value.sequencerEnvelopes.filterMap fun v => v.msg.data.batch?
        msgCache := value.msgCache }

theorem anyWindow_eq_false_iff {α : Type} {test : α → α → Bool} {l : List α} :
    anyWindow test l = false ↔ l.IsChain fun a b => test a b = false := by
  induction l with
  | nil => simp [anyWindow]
  | cons a rest ih =>
    cases rest with
    | nil => simp [anyWindow]
    | cons b rest => simp [anyWindow, ih]

theorem OfflineSequencer.tryFrom_eq {M : Type} {value : RawSequencer M}
    (hfirst : ∀ v ∈ value.sequencerEnvelopes.head?, v.header.height = 0)
    (hheights : value.sequencerEnvelopes.IsChain fun a b =>
      a.header.height + 1 = b.header.height)
    (hkeys : value.sequencerEnvelopes.IsChain fun a b => a.header.key = b.header.key) :
    OfflineSequencer.tryFrom value = .ok
      { batchesToSequence := value.sequencerEnvelopes.filterMap fun v => v.msg.data.batch?
        msgCache := value.msgCache } := by
  have htip : (value.sequencerEnvelopes.head?.any fun v => v.header.height ≠ 0) = false := by
    cases hhead : value.sequencerEnvelopes.head? with
    | none => rfl
    | some v => simp [hfirst v hhead]
  have hgap : anyWindow (fun a b => a.header.height + 1 ≠ b.header.height)
      value.sequencerEnvelopes = false := by
    rw [anyWindow_eq_false_iff]
    simpa using hheights
  have hentity : anyWindow (fun a b => a.header.key ≠ b.header.key)
      value.sequencerEnvelopes = false := by
    rw [anyWindow_eq_false_iff]
    simpa using hkeys
  unfold OfflineSequencer.tryFrom
  rw [htip, hgap, hentity]
  rfl

end JudicaVM
