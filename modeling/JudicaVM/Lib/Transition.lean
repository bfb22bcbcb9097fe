import Mathlib.Logic.Relation
import Mathlib.Tactic.Common

/-!
# Labelled transition systems

Runs whose events all satisfy a predicate, the rule by which an invariant extends from one event to
a run, and the rule by which a preorder between states does.
-/

namespace Transition

variable {State Event : Type*} {Step : State → Event → State → Prop} {P Q : Event → Prop}
  {s s' s'' : State}

/-- The second state is reached from the first by events that satisfy `P`. -/
def Run (Step : State → Event → State → Prop) (P : Event → Prop) : State → State → Prop :=
  Relation.ReflTransGen fun s s' => ∃ e, P e ∧ Step s e s'

namespace Run

theorem refl : Run Step P s s := Relation.ReflTransGen.refl

theorem single {e : Event} (he : P e) (h : Step s e s') : Run Step P s s' :=
  Relation.ReflTransGen.single ⟨e, he, h⟩

theorem trans (h : Run Step P s s') (h' : Run Step P s' s'') : Run Step P s s'' :=
  Relation.ReflTransGen.trans h h'

theorem tail {e : Event} (h : Run Step P s s') (he : P e) (h' : Step s' e s'') :
    Run Step P s s'' :=
  Relation.ReflTransGen.tail h ⟨e, he, h'⟩

theorem mono (hPQ : ∀ e, P e → Q e) (h : Run Step P s s') : Run Step Q s s' :=
  Relation.ReflTransGen.mono (fun _ _ ⟨e, he, hs⟩ => ⟨e, hPQ e he, hs⟩) _ _ h

theorem of_step {Step' : State → Event → State → Prop} (hstep : ∀ s e s', Step s e s' → Step' s e s')
    (h : Run Step P s s') : Run Step' P s s' :=
  Relation.ReflTransGen.mono (fun _ _ ⟨e, he, hs⟩ => ⟨e, he, hstep _ e _ hs⟩) _ _ h

/-- The events of a list, taken one after the other by a step function. -/
theorem of_foldlM {step : State → Event → Option State} {es : List Event} (hP : ∀ e ∈ es, P e)
    (h : es.foldlM step s = some s') : Run (fun s e s' => step s e = some s') P s s' := by
  induction es generalizing s with
  | nil =>
    obtain rfl := Option.some.inj h
    exact refl
  | cons e es ih =>
    obtain ⟨s₁, hstep, h⟩ := Option.bind_eq_some_iff.mp h
    have hrest := ih (fun e' he' => hP e' (List.mem_cons_of_mem _ he')) h
    exact (single (hP e List.mem_cons_self) hstep).trans hrest

variable {I : State → Prop}

/-- An invariant of every event is an invariant of every run. -/
theorem invariant (preserves : ∀ s e s', P e → I s → Step s e s' → I s')
    (h : Run Step P s s') (hs : I s) : I s' := by
  induction h with
  | refl => exact hs
  | tail _ hstep ih =>
    obtain ⟨e, he, hstep⟩ := hstep
    exact preserves _ e _ he ih hstep

/-- A preorder that relates the states before and after every event relates those of every run. -/
theorem relates {R : State → State → Prop}
    (preserves : ∀ s e s', P e → I s → Step s e s' → I s') (hrefl : ∀ s, R s s)
    (htrans : ∀ s s' s'', R s s' → R s' s'' → R s s'')
    (step : ∀ s e s', P e → I s → Step s e s' → R s s')
    (h : Run Step P s s') (hs : I s) : R s s' := by
  induction h with
  | refl => exact hrefl s
  | tail hrun hstep ih =>
    obtain ⟨e, he, hstep⟩ := hstep
    exact htrans _ _ _ ih (step _ e _ he (invariant preserves hrun hs) hstep)

end Run

section

variable {step : State → Event → Option State} {es : List Event}
  {I Good : State → Prop} {Allowed : State → Event → Prop}

/-- A property of the state in which the events start and of every state to which they lead. An
event that is not enabled leads nowhere. -/
def Throughout (step : State → Event → Option State) (Good : State → Prop) :
    List Event → State → Prop
  | [], s => Good s
  | e :: es, s => Good s ∧ ∀ s', step s e = some s' → Throughout step Good es s'

/-- A property of every event that is taken, in the state in which it is taken. -/
def Along (step : State → Event → Option State) (Allowed : State → Event → Prop) :
    List Event → State → Prop
  | [], _ => True
  | e :: es, s => ∀ s', step s e = some s' → Allowed s e ∧ Along step Allowed es s'

/-- When a step keeps the property exactly if it is allowed, the property holds throughout exactly
the runs whose steps are all allowed. -/
theorem throughout_iff_along (hI : ∀ s e s', I s → step s e = some s' → I s')
    (hstep : ∀ s e s', I s → Good s → step s e = some s' → (Good s' ↔ Allowed s e))
    (hs : I s) (hgood : Good s) : Throughout step Good es s ↔ Along step Allowed es s := by
  induction es generalizing s with
  | nil => exact iff_of_true hgood trivial
  | cons e es ih =>
    constructor
    · intro h s' htaken
      have hafter := h.2 s' htaken
      have hgood' : Good s' := by
        cases es with
        | nil => exact hafter
        | cons _ _ => exact hafter.1
      have hinv := hI s e s' hs htaken
      exact ⟨(hstep s e s' hs hgood htaken).mp hgood', (ih hinv hgood').mp hafter⟩
    · intro h
      refine ⟨hgood, ?_⟩
      intro s' htaken
      obtain ⟨hallowed, hrest⟩ := h s' htaken
      exact (ih (hI s e s' hs htaken) ((hstep s e s' hs hgood htaken).mpr hallowed)).mpr hrest

theorem Along.imp {Allowed' : State → Event → Prop}
    (hI : ∀ s e s', I s → Allowed s e → step s e = some s' → I s')
    (himp : ∀ s e, I s → Allowed s e → Allowed' s e) (hs : I s) (h : Along step Allowed es s) :
    Along step Allowed' es s := by
  induction es generalizing s with
  | nil => trivial
  | cons e es ih =>
    intro s' htaken
    obtain ⟨hallowed, hrest⟩ := h s' htaken
    exact ⟨himp s e hs hallowed, ih (hI s e s' hs hallowed htaken) hrest⟩

theorem throughout_of_invariant (hI : ∀ s e s', I s → step s e = some s' → I s')
    (hgood : ∀ s, I s → Good s) (hs : I s) : Throughout step Good es s := by
  induction es generalizing s with
  | nil => exact hgood s hs
  | cons e es ih => exact ⟨hgood s hs, fun s' htaken => ih (hI s e s' hs htaken)⟩

end
end Transition
