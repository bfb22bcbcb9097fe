import JudicaVM.Board.Construction

/-!
# Reachable boards

The boards that calls of `play` reach from a new board, the boards inside a call, and the steps of
a call: each callback that is due, and the move.
-/

namespace JudicaVM

open Checked Std OrderedMap Transition GameBoard

/-- The boards that calls of `play` reach from a new board. -/
inductive Reachable (setup : GameSetup) : GameBoard → Prop
  | new {g : GameBoard} (h : GameBoard.new setup = .ok g) : Reachable setup g
  | play {g g' : GameBoard} {mv : MoveEnvelope} {key : String} {r : Except MoveRejectReason Unit}
      (hg : Reachable setup g) (h : g.play mv key = .ok (r, g')) : Reachable setup g'

/-- A call of `play` returns the second board. -/
def PlayStep (g g' : GameBoard) : Prop :=
  ∃ mv key r, g.play mv key = .ok (r, g')

/-- The second board comes from the first by calls of `play`. -/
def Later : GameBoard → GameBoard → Prop := Relation.ReflTransGen PlayStep

variable {setup : GameSetup} {g g' a b : GameBoard}

theorem Reachable.inv (h : Reachable setup g) : g.Inv := by
  induction h with
  | new h => exact new_inv h
  | play _ h ih => exact (play_trace ih h).inv ih

theorem Reachable.later (h : Reachable setup g) (hl : Later g g') : Reachable setup g' := by
  induction hl with
  | refl => exact h
  | tail _ hstep ih =>
    obtain ⟨mv, key, r, hplay⟩ := hstep
    exact ih.play hplay

theorem Later.trace (h : Later g g') (hi : g.Inv) : Trace (fun _ => True) g g' := by
  induction h with
  | refl => exact Run.refl
  | tail _ hstep ih =>
    obtain ⟨mv, key, r, hplay⟩ := hstep
    exact ih.trans (play_trace (ih.inv hi) hplay)

/-- The second board is the first, between two calls, or the board on which a call of `play` on the
first executes its move. -/
inductive Stage (setup : GameSetup) : GameBoard → GameBoard → Prop
  | between {g : GameBoard} (h : Reachable setup g) : Stage setup g g
  | during {g g1 : GameBoard} {mv : MoveEnvelope} {key : String} {sender : EntityID}
      {move : GameMove} (h : Reachable setup g) (hexec : Executes g mv key sender move g1) :
      Stage setup g g1

theorem Stage.inv {origin : GameBoard} (h : Stage setup origin g) : g.Inv := by
  cases h with
  | between h => exact h.inv
  | during h hexec => exact hexec.inv h.inv

theorem Stage.extends_board {origin : GameBoard} (h : Stage setup origin g) : origin.Extends g := by
  cases h with
  | between h => exact Extends.refl _
  | during h hexec => exact hexec.extends_board h.inv

theorem Stage.reachable {origin : GameBoard} (h : Stage setup origin g) :
    Reachable setup origin := by
  cases h with
  | between h => exact h
  | during h _ => exact h

namespace GameBoard

/-- The board of a call when its clock has been set. -/
def clockSet (g : GameBoard) (sender : EntityID) (mv : MoveEnvelope) : Except Panic GameBoard :=
  updateCurrentTime { g with
    playerMoveSequence := g.playerMoveSequence.insert sender mv.sequence } sender mv.timeMillis

/-- The callbacks at or before the current time. -/
def due (g : GameBoard) : List Callback :=
  CallbackRegistry.dueBefore g.callbacks (g.elapsedTime + 1)

/-- The board without the callbacks that are due. -/
def dequeued (g : GameBoard) : GameBoard :=
  { g with callbacks := CallbackRegistry.splitOff g.callbacks (g.elapsedTime + 1) }

theorem clockSet_eq {sender : EntityID} {mv : MoveEnvelope} (h : g.clockSet sender mv = .ok g') :
    g' = g.withNotes g' := by
  rw [clockSet] at h
  have heq := updateCurrentTime_eq h
  exact heq

theorem dequeued_trace {P : Event → Prop} (hP : ∀ bound, P (.dequeue bound)) :
    Trace P g g.dequeued :=
  Run.single (e := .dequeue _) (hP _) (.dequeue g _)

theorem Inv.due_sound (hi : g.Inv) {cb : Callback} (hcb : cb ∈ g.due) :
    g.dequeued.CallbackSound cb := by
  have htrace : Trace (fun _ => True) g g.dequeued := dequeued_trace fun _ => trivial
  exact (htrace.extends hi).callbackSound
    (hi.callbacks cb (CallbackRegistry.pending_of_mem_dueBefore hcb))

end GameBoard

/-- Between the start of a call and its move: the clock, the callbacks that are due, and the log. -/
theorem Executes.stages {mv : MoveEnvelope} {key : String} {sender : EntityID} {move : GameMove}
    (h : Executes g mv key sender move g') :
    ∃ clocked ticked, g.clockSet sender mv = .ok clocked ∧ clocked.elapsedTime + 1 < 2 ^ 64 ∧
      CallbackRegistry.runAll clocked.due clocked.dequeued = .ok ticked ∧
      ticked.addToEventLog sender (.gameMove move) = .ok g' := by
  have hadv := h.advanced
  simp only [advance, processTicks, CallbackRegistry.run, bind_eq_ok_iff, add_eq_ok_iff] at hadv
  obtain ⟨clocked, hclock, ticked, ⟨_, ⟨htime, rfl⟩, hrun⟩, hlog⟩ := hadv
  exact ⟨clocked, ticked, hclock, htime, hrun, hlog⟩

/-- The steps of the call of `play` on `g`: one for each callback that is due, and the move. -/
inductive CallStep (g : GameBoard) (mv : MoveEnvelope) (key : String) : GameBoard → GameBoard → Prop
  | callback {sender : EntityID} {clocked a b : GameBoard} {done rest : List Callback}
      {cb : Callback} (hclock : g.clockSet sender mv = .ok clocked)
      (hdue : clocked.due = done ++ cb :: rest)
      (hdone : CallbackRegistry.runAll done clocked.dequeued = .ok a)
      (haction : cb.action a = .ok b) : CallStep g mv key a b
  | move {sender : EntityID} {move : GameMove} {a b : GameBoard} {r : Except MoveRejectReason Unit}
      (hexec : Executes g mv key sender move a) (hinner : a.playInner move sender = .ok (r, b)) :
      CallStep g mv key a b

/-- A step of a call starts from a board that events reach, and it is a run of events. -/
theorem CallStep.traces {mv : MoveEnvelope} {key : String} (hi : g.Inv)
    (h : CallStep g mv key a b) : Trace (fun _ => True) g a ∧ Trace (fun _ => True) a b := by
  cases h with
  | callback hclock hdue hdone haction =>
    rename_i sender clocked done rest cb
    have hnotes : Trace (fun _ => True) g clocked := notes_trace trivial (clockSet_eq hclock)
    have hi1 := hnotes.inv hi
    have hdequeue : Trace (fun _ => True) clocked clocked.dequeued :=
      dequeued_trace fun _ => trivial
    have hi2 := hdequeue.inv hi1
    have hsound (c : Callback) (hc : c ∈ done ++ cb :: rest) := hi1.due_sound (hdue ▸ hc)
    have hrun := CallbackRegistry.runAll_trace (U := fun _ => False) hi2
      (fun c hc => hsound c (List.mem_append_left _ hc)) (fun _ => False.elim) hdone
    have hcb := (hrun.extends hi2).callbackSound (hsound cb (by simp))
    have hlast := Callback.action_trace (U := fun _ => False) (hrun.inv hi2) hcb
      (fun _ => False.elim) haction
    exact ⟨hnotes.trans (hdequeue.trans (hrun.mono fun _ _ => trivial)),
      hlast.mono fun _ _ => trivial⟩
  | move hexec hinner =>
    have hfirst := hexec.trace (U := fun _ => False) hi (fun _ => False.elim)
    have hsecond := hexec.move_trace (U := fun _ => False) hi (fun _ => False.elim) hinner
    exact ⟨hfirst.mono fun _ _ => trivial, hsecond.mono fun _ _ => trivial⟩

/-- The calls of `play` for a list of moves, each with the key that signed it. -/
def GameBoard.playAll : List (MoveEnvelope × String) → GameBoard → Except Panic GameBoard
  | [], g => pure g
  | (mv, key) :: rest, g => do
    let (_, g) ← g.play mv key
    playAll rest g

theorem later_of_playAll {calls : List (MoveEnvelope × String)} (h : playAll calls g = .ok g') :
    Later g g' := by
  induction calls generalizing g with
  | nil =>
    cases h
    exact .refl
  | cons call calls ih =>
    obtain ⟨mv, key⟩ := call
    simp only [playAll, bind_eq_ok_iff] at h
    obtain ⟨⟨r, g1⟩, hplay, h⟩ := h
    exact .head ⟨mv, key, r, hplay⟩ (ih h)

/-- A game of two players. -/
def twoPlayers : GameSetup :=
  { players := ["bob", "alice"], startAmount := 100_000_000, finishTime := 1_000_000 }

/-- The first move of a player. -/
def opening : MoveEnvelope := { d := .heartbeat, sequence := 1, timeMillis := 0 }

/-- The pair of bitcoin and steel, whose ids are the same on every board. -/
def steelPair : TradingPairID := { assetA := 0xc0de0001, assetB := 0xc0de0005 }

/-- After the first move the producers have funded the markets and made their first sale. -/
theorem twoPlayers_starts : ∃ g g', GameBoard.new twoPlayers = .ok g ∧
    playAll [(opening, "alice")] g = .ok g' ∧
    (g'.markets[steelPair]?.map fun m => (m.reserveA, m.reserveB)) = some (917431193, 10900) := by
  have h : returns (do playAll [(opening, "alice")] (← GameBoard.new twoPlayers)) fun g' =>
      (g'.markets[steelPair]?.map fun m => (m.reserveA, m.reserveB)) = some (917431193, 10900) := by
    decide +kernel
  obtain ⟨g', hg', hfunded⟩ := returns_iff.mp h
  obtain ⟨g, hg, hplay⟩ := bind_eq_ok_iff.mp hg'
  exact ⟨g, g', hg, hplay, of_decide_eq_true hfunded⟩

end JudicaVM
