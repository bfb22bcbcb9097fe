import JudicaVM.Attest.Line
import JudicaVM.Attest.Payloads
import JudicaVM.Board.Sequence

/-!
# Concurrent moves

A call of `make_move_inner_inner` takes the write handle of its `MsgDB`, reads the number of the last
move of its key, walking back from the tip, and then hands a move with the next number to
`retry_insert_authenticated_envelope_atomic`, which stores that move upon whatever the tip has
become. The handle is given back when the call ends. `Database::get` clones one `MsgDB` for all
calls, until `Database::connect` opens another one, possibly of the same file.
-/

namespace JudicaVM

open Checked Transition

section

variable {Psbt : Type} {C : Crypto (ParticipantAction Psbt)}

/-- Where a call is: it waits for the handle, or looks for the last move at the envelope with hash
`h` (at the tip without one), or has handed its move over. -/
inductive SeekState
  | idle
  | waiting (nextMove : GameMove)
  | seek (nextMove : GameMove) (h : Option CanonicalEnvelopeHash)
  | store

/-- The call has no message yet. -/
def SeekState.searching : SeekState → Bool
  | .waiting _ => true
  | .seek _ _ => true
  | _ => false

/-- The call holds the write handle. -/
def SeekState.holds : SeekState → Bool
  | .seek _ _ => true
  | .store => true
  | _ => false

/-- The calls and the `MsgDB`s of one file: the one that `Database` hands out now, the one of each
call, and the call that has locked the write connection of each. -/
structure Movers (C : Crypto (ParticipantAction Psbt)) where
  writers : Writers C
  seeks : ℕ → SeekState
  database : ℕ
  msgdbs : ℕ → ℕ
  locks : ℕ → Option ℕ

inductive MoverEvent (C : Crypto (ParticipantAction Psbt))
  | connect
  | makeNewChain (nickname : String) (genesis : Authenticated C) (nextNonce : ℕ) (now : ℤ)
  | makeMove (i : ℕ) (nextMove : GameMove)
  | getHandleAll (i : ℕ)
  | seek (i : ℕ) (tip : Row (ParticipantAction Psbt)) (timeMillis : ℕ)
  | fail (i : ℕ)
  | drop (i : ℕ)
  | write (ev : WriterEvent C)

/-- The message of the genesis that `make_new_chain_genesis` makes. -/
def ParticipantAction.isFirstHeartbeat : ParticipantAction Psbt → Bool
  | .moveEnvelope m => m.d = .heartbeat && m.sequence = 0
  | _ => false

def ParticipantAction.isMove : ParticipantAction Psbt → Bool
  | .moveEnvelope _ => true
  | _ => false

namespace Movers

variable (S : Signer C) (w : Movers C)

def setSeek (i : ℕ) (state : SeekState) : Movers C :=
  { w with seeks := Function.update w.seeks i state }

/-- A call locks the write connection of its `MsgDB`. -/
def lock (i : ℕ) (nextMove : GameMove) : Movers C :=
  { w.setSeek i (.seek nextMove none) with
    locks := Function.update w.locks (w.msgdbs i) (some i) }

/-- A call ends and its handle is dropped. -/
def release (i : ℕ) : Movers C :=
  { w.setSeek i .idle with locks := Function.update w.locks (w.msgdbs i) none }

/-- The row that a call reads: a tip of the key, or the row with a hash. -/
def IsRead (s : Store (ParticipantAction Psbt)) (key : XOnlyPublicKey)
    (h : Option CanonicalEnvelopeHash) (tip : Row (ParticipantAction Psbt)) : Prop :=
  match h with
  | none => s.IsTip key tip
  | some prev => s.rowByHash prev = some tip

instance [DecidableEq Psbt] (s : Store (ParticipantAction Psbt)) (key : XOnlyPublicKey)
    (h : Option CanonicalEnvelopeHash) (tip : Row (ParticipantAction Psbt)) :
    Decidable (IsRead s key h tip) :=
  match h with
  | none => inferInstanceAs (Decidable (s.IsTip key tip))
  | some prev => inferInstanceAs (Decidable (s.rowByHash prev = some tip))

/-- The steps that are left to the other writers: they store no moves and make no chains. -/
def admits : WriterEvent C → Bool
  | .generateUser _ _ _ _ => false
  | .call i msg => !msg.isMove && match w.seeks i with
    | .idle => true
    | _ => false
  | _ => true

/-- What a call does with the envelope that it reads. A number that does not fit aborts it. -/
def seekStep [DecidableEq Psbt] (i : ℕ) (nextMove : GameMove)
    (tip : Envelope (ParticipantAction Psbt)) (timeMillis : ℕ) : Option (Movers C) :=
  match tip.msg with
  | .moveEnvelope m =>
    match Checked.add 64 m.sequence 1 with
    | .error _ => some (w.release i)
    | .ok sequence =>
      (w.writers.step S (.call i (.moveEnvelope { d := nextMove, sequence, timeMillis }))).map
        fun writers => { w.setSeek i .store with writers }
  | _ =>
    match tip.header.ancestors with
    | none => some (w.release i)
    | some a => some (w.setSeek i (.seek nextMove (some a.prevMsg)))

def step [DecidableEq Psbt] : MoverEvent C → Option (Movers C)
  | .connect => some { w with database := w.database + 1 }
  | .makeNewChain nickname genesis nextNonce now =>
    if w.locks w.database = none ∧ w.writers.store.userByKey S.key = none ∧
        genesis.inner.msg.isFirstHeartbeat then
      (w.writers.step S (.generateUser nickname genesis nextNonce now)).map
        fun writers => { w with writers }
    else none
  | .makeMove i nextMove =>
    match w.seeks i, w.writers.tasks i with
    | .idle, .idle => some { w.setSeek i (.waiting nextMove) with
        msgdbs := Function.update w.msgdbs i w.database }
    | _, _ => none
  | .getHandleAll i =>
    match w.seeks i with
    | .waiting nextMove => if w.locks (w.msgdbs i) = none then some (w.lock i nextMove) else none
    | _ => none
  | .seek i tip timeMillis =>
    match w.seeks i with
    | .seek nextMove h =>
      if IsRead w.writers.store S.key h tip then w.seekStep S i nextMove tip.body timeMillis
      else none
    | _ => none
  | .fail i =>
    match w.seeks i with
    | .seek _ _ => some (w.release i)
    | _ => none
  | .drop i =>
    match w.seeks i, w.writers.tasks i with
    | .store, .idle => some (w.release i)
    | _, _ => none
  | .write ev =>
    if w.admits ev then (w.writers.step S ev).map fun writers => { w with writers } else none

def initial : Movers C := ⟨.initial, fun _ => .idle, 0, fun _ => 0, fun _ => none⟩

end Movers

def ParticipantAction.sequence : ParticipantAction Psbt → Option ℕ
  | .moveEnvelope m => some m.sequence
  | _ => none

/-- The numbers of the moves on the chain of a key, from its genesis to its tip. -/
def Store.moveSequences (s : Store (ParticipantAction Psbt)) (key : XOnlyPublicKey) : List ℕ :=
  ((s.messages.filter fun r => r.connected && r.key = key).insertionSort
    fun a b => a.height ≤ b.height).filterMap fun r => r.body.msg.sequence

/-- The calls, and how many moves were stored when each of them read the tip. -/
structure Watched (C : Crypto (ParticipantAction Psbt)) where
  movers : Movers C
  counted : ℕ → ℕ

namespace Watched

variable (S : Signer C) (w : Watched C)

def moves : List ℕ := w.movers.writers.store.moveSequences S.key

/-- The counts after a step: a call counts the moves when it reads the tip. -/
def count : MoverEvent C → ℕ → ℕ
  | .seek i _ _ =>
    match w.movers.seeks i with
    | .seek _ none => Function.update w.counted i (w.moves S).length
    | _ => w.counted
  | _ => w.counted

def step [DecidableEq Psbt] (ev : MoverEvent C) : Option (Watched C) :=
  (w.movers.step S ev).map fun movers => { movers, counted := w.count S ev }

def initial : Watched C := ⟨.initial, fun _ => 0⟩

def run [DecidableEq Psbt] (S : Signer C) : List (MoverEvent C) → Watched C → Option (Watched C)
  | [], w => some w
  | ev :: evs, w => (w.step S ev).bind (run S evs)

/-- When the step stores a move, no other move has been stored since its call read the tip. -/
def Undisturbed : MoverEvent C → Prop
  | .write (.insert i now) => ∀ m wrapped,
    w.movers.writers.Stores i (.moveEnvelope m) wrapped now → w.counted i = (w.moves S).length
  | _ => True

/-- Another `MsgDB` of the file is opened only while no call is under way. -/
def Quiet : MoverEvent C → Prop
  | .connect => ∀ i, w.movers.seeks i = .idle
  | _ => True

end Watched

variable {S : Signer C} {l : List (CanonicalEnvelopeHash × Envelope (ParticipantAction Psbt))}
  {c : CanonicalEnvelopeHash × Envelope (ParticipantAction Psbt)}

/-- The numbers of the moves among envelopes. -/
def sequences (l : List (CanonicalEnvelopeHash × Envelope (ParticipantAction Psbt))) : List ℕ :=
  l.filterMap fun c => c.2.msg.sequence

theorem sequences_append {l' : List (CanonicalEnvelopeHash × Envelope (ParticipantAction Psbt))} :
    sequences (l ++ l') = sequences l ++ sequences l' :=
  List.filterMap_append

theorem sequences_snoc_move {n : ℕ} (hc : c.2.msg.sequence = some n) :
    sequences (l ++ [c]) = sequences l ++ [n] := by
  rw [sequences_append]
  simp [sequences, hc]

theorem sequences_snoc_other (hc : c.2.msg.sequence = none) : sequences (l ++ [c]) = sequences l := by
  rw [sequences_append]
  simp [sequences, hc]

theorem Writers.Linear.moveSequences_eq {w : Writers C} (h : w.Linear S) :
    w.store.moveSequences S.key = sequences (w.store.own S.key) := by
  have hrows : (w.store.messages.filter fun r => r.connected && r.key = S.key) =
      w.store.messages.filter fun r => r.key = S.key := by
    apply List.filter_congr
    intro r hr
    by_cases hkey : r.key = S.key
    · simp [hkey, h.connected r hr hkey]
    · simp [hkey]
  have hown : w.store.own S.key =
      (w.store.messages.filter fun r => r.key = S.key).map fun r => (r.hash, r.body) := by
    rw [Store.own, Store.contents, List.filter_map]
    rfl
  have hsorted : (w.store.messages.filter fun r => r.key = S.key).Pairwise
      fun a b => a.height ≤ b.height := by
    have hheights := h.line.heights
    rw [hown, List.pairwise_map] at hheights
    apply hheights.imp
    intro a b hab
    exact Int.le_of_lt hab
  rw [Store.moveSequences, hrows, hsorted.insertionSort_eq, hown, sequences,
    List.filterMap_map]
  rfl

end

end JudicaVM
