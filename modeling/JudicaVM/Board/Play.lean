import JudicaVM.Board.Callbacks

/-!
# Runs of the game

A call of `play` is a run of events, a new board satisfies the invariant, and therefore so does
every board that can be reached.
-/

namespace JudicaVM

open Checked Std OrderedMap Transition GameBoard

variable {U : EntityID → Prop} {sender : EntityID} {g g' : GameBoard}

theorem isUser_of_key {key : String} (hi : g.Inv) (h : g.usersByKey[key]? = some sender) :
    g.IsUser sender := by
  simp [IsUser, hi.keys key sender h]

theorem sanitize_sendTokens {d : GameMove} {s : SendTokens}
    (h : d.sanitize g = .ok (.sendTokens s)) : g.IsUser s.dest ∨ g.IsNft s.dest := by
  cases d <;> simp only [GameMove.sanitize, bind_eq_ok_iff, pure_eq_ok, Except.ok.injEq,
    reduceCtorEq, and_false, exists_false] at h
  obtain ⟨s', hs', heq⟩ := h
  cases heq
  unfold SendTokens.sanitize at hs'
  split at hs'
  · rename_i hdest
    simp only [bind_eq_ok_iff, pure_eq_ok, Except.ok.injEq] at hs'
    obtain ⟨_, _, rfl⟩ := hs'
    simpa [IsUser, IsNft] using hdest
  · cases hs'

theorem updateCurrentTime_eq {time : ℕ} (h : g.updateCurrentTime sender time = .ok g') :
    g' = g.withNotes g' := by
  simp only [updateCurrentTime, bind_eq_ok_iff, pure_eq_ok, Except.ok.injEq] at h
  obtain ⟨_, _, rfl⟩ := h
  rfl

/-- What `play` does between sanitization and the move itself. -/
def GameBoard.advance (g : GameBoard) (mv : GameMove) (timeMillis : ℕ) (sender : EntityID) :
    Except Panic GameBoard := do
  let g ← g.updateCurrentTime sender timeMillis
  let g ← g.processTicks
  g.addToEventLog sender (.gameMove mv)

/-- The clock and the log are notes, and the callbacks are events. -/
def IsTickEvent (U : EntityID → Prop) : Event → Prop
  | .note => True
  | e => IsCallbackEvent U e

theorem IsCallbackEvent.isTickEvent {e : Event} (h : IsCallbackEvent U e) :
    IsTickEvent U e := by
  cases e <;> simp_all [IsTickEvent, IsCallbackEvent]

theorem advance_trace {mv : GameMove} {time : ℕ} (hi : g.Inv)
    (husers : ∀ i, U i → g.IsUser i) (h : g.advance mv time sender = .ok g') :
    Trace (IsTickEvent U) g g' := by
  simp only [advance, processTicks, bind_eq_ok_iff] at h
  obtain ⟨g1, hclock, g2, hticks, hlog⟩ := h
  have hfirst : Trace (IsTickEvent U) g g1 := notes_trace trivial (updateCurrentTime_eq hclock)
  have hext := hfirst.extends hi
  have hsecond := CallbackRegistry.run_trace (U := U) (hfirst.inv hi)
    (fun i hu => hext.isUser (husers i hu)) hticks
  have hthird : Trace (IsTickEvent U) g2 g' := notes_trace trivial (addToEventLog_eq hlog)
  exact hfirst.trans ((hsecond.mono fun _ => IsCallbackEvent.isTickEvent).trans hthird)

/-- The call of `play` on `g` reaches the execution of the sanitized move on `g1`. -/
structure Executes (g : GameBoard) (mv : MoveEnvelope) (key : String) (sender : EntityID)
    (move : GameMove) (g1 : GameBoard) : Prop where
  user : g.usersByKey[key]? = some sender
  running : g.gameIsFinished = .ok none
  accepted : acceptsSequence (g.playerMoveSequence.getD sender 0) mv.sequence = .ok true
  sane : mv.d.sanitize { g with
    playerMoveSequence := g.playerMoveSequence.insert sender mv.sequence } = .ok move
  advanced : { g with
    playerMoveSequence := g.playerMoveSequence.insert sender mv.sequence : GameBoard }.advance move
      mv.timeMillis sender = .ok g1

/-- A call of `play` that returns is refused at one of the stages, or it executes its move. -/
theorem play_cases {mv : MoveEnvelope} {key : String} {r : Except MoveRejectReason Unit}
    (h : g.play mv key = .ok (r, g')) :
    (g' = g.withNotes g' ∧
      ((g.usersByKey[key]? = none ∧ r = .error .noSuchUser) ∨
        ∃ sender, g.usersByKey[key]? = some sender ∧
          ((∃ reason, g.gameIsFinished = .ok (some reason) ∧ r = .error (.gameIsFinished reason)) ∨
            (g.gameIsFinished = .ok none ∧
              acceptsSequence (g.playerMoveSequence.getD sender 0) mv.sequence = .ok false ∧
              r = .ok ()) ∨
            (g.gameIsFinished = .ok none ∧
              acceptsSequence (g.playerMoveSequence.getD sender 0) mv.sequence = .ok true ∧
              ∃ e, r = .error (.moveSanitizationError e))))) ∨
      ∃ sender move g1 g2, Executes g mv key sender move g1 ∧
        g1.playInner move sender = .ok (r, g2) ∧ g' = g2.withNotes g' := by
  unfold GameBoard.play at h
  cases hkey : g.usersByKey[key]? with
  | none =>
    simp only [hkey, pure_eq_ok, Except.ok.injEq, Prod.mk.injEq] at h
    obtain ⟨rfl, rfl⟩ := h
    exact .inl ⟨rfl, .inl ⟨rfl, rfl⟩⟩
  | some sender =>
    simp only [hkey, bind_eq_ok_iff] at h
    obtain ⟨finished, hfinished, h⟩ := h
    cases finished with
    | some reason =>
      simp only [bind_eq_ok_iff, pure_eq_ok, Except.ok.injEq, Prod.mk.injEq] at h
      obtain ⟨g1, hlog, rfl, rfl⟩ := h
      exact .inl ⟨addToEventLog_eq hlog, .inr ⟨sender, rfl, .inl ⟨reason, hfinished, rfl⟩⟩⟩
    | none =>
      simp only [bind_eq_ok_iff] at h
      obtain ⟨accepted, haccepted, h⟩ := h
      cases accepted with
      | false =>
        simp only [Bool.false_eq_true, if_false, pure_eq_ok, Except.ok.injEq, Prod.mk.injEq] at h
        obtain ⟨rfl, rfl⟩ := h
        exact .inl ⟨rfl, .inr ⟨sender, rfl, .inr (.inl ⟨hfinished, haccepted, rfl⟩)⟩⟩
      | true =>
        simp only [if_true, execute] at h
        split at h
        · rename_i e hsane
          simp only [pure_eq_ok, Except.ok.injEq, Prod.mk.injEq] at h
          obtain ⟨rfl, rfl⟩ := h
          exact .inl ⟨rfl, .inr ⟨sender, rfl, .inr (.inr ⟨hfinished, haccepted, e, rfl⟩)⟩⟩
        · rename_i move hsane
          simp only [bind_eq_ok_iff] at h
          obtain ⟨ga, hclock, gb, hticks, g1, hlog, ⟨r2, g2⟩, hinner, h⟩ := h
          have hexec : Executes g mv key sender move g1 :=
            ⟨hkey, hfinished, haccepted, hsane, by simp [advance, hclock, hticks, hlog]⟩
          refine .inr ⟨sender, move, g1, g2, hexec, ?_⟩
          cases r2 with
          | ok u =>
            simp only [pure_eq_ok, Except.ok.injEq, Prod.mk.injEq] at h
            obtain ⟨rfl, rfl⟩ := h
            exact ⟨hinner, rfl⟩
          | error e =>
            simp only [bind_eq_ok_iff, pure_eq_ok, Except.ok.injEq, Prod.mk.injEq] at h
            obtain ⟨g3, hlog3, rfl, rfl⟩ := h
            exact ⟨hinner, addToEventLog_eq hlog3⟩

namespace Executes

variable {mv : MoveEnvelope} {key : String} {move : GameMove} {g1 : GameBoard}

theorem isUser (h : Executes g mv key sender move g1) (hi : g.Inv) : g.IsUser sender :=
  isUser_of_key hi h.user

theorem trace (h : Executes g mv key sender move g1) (hi : g.Inv)
    (husers : ∀ i, U i → g.IsUser i) : Trace (IsTickEvent U) g g1 := by
  have hfirst : Trace (IsTickEvent U) g { g with
      playerMoveSequence := g.playerMoveSequence.insert sender mv.sequence } :=
    notes_trace trivial rfl
  have hext := hfirst.extends hi
  exact hfirst.trans (advance_trace (hfirst.inv hi) (fun i hu => hext.isUser (husers i hu))
    h.advanced)

theorem inv (h : Executes g mv key sender move g1) (hi : g.Inv) : g1.Inv :=
  (h.trace (U := fun _ => False) hi (fun _ => False.elim)).inv hi

theorem extends_board (h : Executes g mv key sender move g1) (hi : g.Inv) : g.Extends g1 :=
  (h.trace (U := fun _ => False) hi (fun _ => False.elim)).extends hi

theorem party_dest (h : Executes g mv key sender move g1) (hi : g.Inv) (s : SendTokens)
    (hs : move = .sendTokens s) : g1.Party s.dest := by
  have hdest := sanitize_sendTokens (hs ▸ h.sane)
  refine (h.extends_board hi).party (hi.party_of_mem ?_)
  exact hdest.imp id fun hn => .inr (.inr hn)

theorem play_eq {r : Except MoveRejectReason Unit} (h : Executes g mv key sender move g1)
    (hplay : g.play mv key = .ok (r, g')) :
    ∃ g2, g1.playInner move sender = .ok (r, g2) ∧ g' = g2.withNotes g' := by
  have hadv := h.advanced
  simp only [advance, bind_eq_ok_iff] at hadv
  obtain ⟨clocked, hclock, ticked, hticks, hlog⟩ := hadv
  simp only [GameBoard.play, h.user, h.running, h.accepted, ok_bind, if_true, execute, h.sane,
    hclock, hticks, hlog, bind_eq_ok_iff] at hplay
  obtain ⟨⟨r2, g2⟩, hinner, hrest⟩ := hplay
  cases r2 with
  | ok u =>
    simp only [pure_eq_ok, Except.ok.injEq, Prod.mk.injEq] at hrest
    obtain ⟨rfl, rfl⟩ := hrest
    exact ⟨g2, hinner, rfl⟩
  | error e =>
    simp only [bind_eq_ok_iff, pure_eq_ok, Except.ok.injEq, Prod.mk.injEq] at hrest
    obtain ⟨g3, hlog3, rfl, rfl⟩ := hrest
    exact ⟨g2, hinner, addToEventLog_eq hlog3⟩

theorem move_trace {g2 : GameBoard} {r : Except MoveRejectReason Unit}
    (h : Executes g mv key sender move g1) (hi : g.Inv) (husers : ∀ i, U i → g1.IsUser i)
    (hinner : g1.playInner move sender = .ok (r, g2)) : Trace (IsPlayerEvent U sender) g1 g2 :=
  playInner_trace (h.inv hi) ((h.extends_board hi).isUser (h.isUser hi)) husers (h.party_dest hi)
    hinner

end Executes

/-- The events of a call of `play`, which adds no user and draws no id that it does not register. -/
def IsPlayEvent : Event → Prop
  | .addUser _ => False
  | .drawId => False
  | _ => True

private theorem IsTickEvent.isPlayEvent {e : Event} (h : IsTickEvent U e) : IsPlayEvent e := by
  cases e <;> trivial

private theorem IsPlayerEvent.isPlayEvent {e : Event} (h : IsPlayerEvent U sender e) :
    IsPlayEvent e := by
  cases e <;> trivial

theorem play_events {mv : MoveEnvelope} {key : String} {r : Except MoveRejectReason Unit}
    (hi : g.Inv) (h : g.play mv key = .ok (r, g')) : Trace IsPlayEvent g g' := by
  rcases play_cases h with ⟨hnotes, _⟩ | ⟨sender, move, g1, g2, hexec, hinner, hnotes⟩
  · exact notes_trace trivial hnotes
  · have hfirst := hexec.trace (U := fun _ => False) hi (fun _ => False.elim)
    have hsecond := hexec.move_trace (U := fun _ => False) hi (fun _ => False.elim) hinner
    have hthird : Trace IsPlayEvent g2 g' := notes_trace trivial hnotes
    exact (hfirst.mono fun _ => IsTickEvent.isPlayEvent).trans
      ((hsecond.mono fun _ => IsPlayerEvent.isPlayEvent).trans hthird)

theorem play_trace {mv : MoveEnvelope} {key : String} {r : Except MoveRejectReason Unit}
    (hi : g.Inv) (h : g.play mv key = .ok (r, g')) : Trace (fun _ => True) g g' :=
  (play_events hi h).mono fun _ _ => trivial

end JudicaVM
