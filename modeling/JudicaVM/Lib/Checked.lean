import Mathlib.Algebra.Group.Nat.Defs
import Mathlib.Tactic.Common

/-!
# Machine integers with overflow checks

Unsigned machine integers are natural numbers. An operation whose result does not fit the width,
or that divides by zero, aborts the computation: `Except Panic` is the type of results that may
abort.
-/

namespace Checked

/-- The ways in which a computation aborts. -/
inductive Panic
  | overflow
  | divisionByZero
  | unwrapNone
  | indexOutOfBounds
  | message (text : String)
  deriving DecidableEq, Repr

def add (width a b : ℕ) : Except Panic ℕ :=
  if a + b < 2 ^ width then .ok (a + b) else .error .overflow

def sub (a b : ℕ) : Except Panic ℕ :=
  if b ≤ a then .ok (a - b) else .error .overflow

def mul (width a b : ℕ) : Except Panic ℕ :=
  if a * b < 2 ^ width then .ok (a * b) else .error .overflow

def div (a b : ℕ) : Except Panic ℕ :=
  if b = 0 then .error .divisionByZero else .ok (a / b)

/-- The content of an optional value that is expected to be present. -/
def unwrap {α : Type} : Option α → Except Panic α
  | some a => .ok a
  | none => .error .unwrapNone

theorem add_eq_ok_iff {width a b c : ℕ} :
    add width a b = .ok c ↔ a + b < 2 ^ width ∧ a + b = c := by
  by_cases h : a + b < 2 ^ width <;> simp [add, h]

theorem sub_eq_ok_iff {a b c : ℕ} : sub a b = .ok c ↔ b ≤ a ∧ a - b = c := by
  by_cases h : b ≤ a <;> simp [sub, h]

theorem mul_eq_ok_iff {width a b c : ℕ} :
    mul width a b = .ok c ↔ a * b < 2 ^ width ∧ a * b = c := by
  by_cases h : a * b < 2 ^ width <;> simp [mul, h]

theorem div_eq_ok_iff {a b c : ℕ} : div a b = .ok c ↔ b ≠ 0 ∧ a / b = c := by
  by_cases h : b = 0 <;> simp [div, h]

theorem unwrap_eq_ok_iff {α : Type} {o : Option α} {a : α} : unwrap o = .ok a ↔ o = some a := by
  cases o <;> simp [unwrap]

@[simp] theorem unwrap_some {α : Type} (a : α) : unwrap (some a) = .ok a := rfl

theorem add_of_lt {width a b : ℕ} (h : a + b < 2 ^ width) : add width a b = .ok (a + b) :=
  if_pos h

theorem sub_of_le {a b : ℕ} (h : b ≤ a) : sub a b = .ok (a - b) :=
  if_pos h

theorem mul_of_lt {width a b : ℕ} (h : a * b < 2 ^ width) : mul width a b = .ok (a * b) :=
  if_pos h

theorem div_of_ne {a b : ℕ} (h : b ≠ 0) : div a b = .ok (a / b) :=
  if_neg h

/-- The first step of a computation that returned has returned itself. -/
theorem bind_eq_ok_iff {ε α β : Type} {x : Except ε α} {f : α → Except ε β} {b : β} :
    x >>= f = .ok b ↔ ∃ a, x = .ok a ∧ f a = .ok b := by
  cases x <;> simp [bind, Except.bind]

theorem mapError_eq_ok_iff {ε ε' α : Type} {x : Except ε α} {f : ε → ε'} {a : α} :
    x.mapError f = .ok a ↔ x = .ok a := by
  cases x <;> simp [Except.mapError]

@[simp] theorem ok_bind {ε α β : Type} (a : α) (f : α → Except ε β) :
    (Except.ok a >>= f) = f a := rfl

@[simp] theorem error_bind {ε α β : Type} (e : ε) (f : α → Except ε β) :
    (Except.error e >>= f) = .error e := rfl

@[simp] theorem pure_eq_ok {ε α : Type} (a : α) : (pure a : Except ε α) = .ok a := rfl

/-- The computation returns a value that satisfies a test. -/
def returns {ε α : Type} (x : Except ε α) (p : α → Bool) : Bool :=
  match x with
  | .ok a => p a
  | .error _ => false

theorem returns_iff {ε α : Type} {x : Except ε α} {p : α → Bool} :
    returns x p ↔ ∃ a, x = .ok a ∧ p a := by
  cases x <;> simp [returns]

/-- The computation aborts in a given way. -/
def aborts {α : Type} (x : Except Panic α) (e : Panic) : Bool :=
  match x with
  | .ok _ => false
  | .error e' => e' = e

theorem aborts_iff {α : Type} {x : Except Panic α} {e : Panic} : aborts x e ↔ x = .error e := by
  cases x <;> simp [aborts]

/-- What a traversal returns comes from the elements of the list. -/
theorem mem_of_mapM_eq_ok {ε α β : Type} {f : α → Except ε β} {l : List α} {l' : List β} {b : β}
    (h : l.mapM f = .ok l') (hb : b ∈ l') : ∃ a ∈ l, f a = .ok b := by
  induction l generalizing l' with
  | nil =>
    simp only [List.mapM_nil, pure_eq_ok, Except.ok.injEq] at h
    simp [← h] at hb
  | cons a l ih =>
    simp only [List.mapM_cons, bind_eq_ok_iff, pure_eq_ok, Except.ok.injEq] at h
    obtain ⟨b', hb', l'', hl'', rfl⟩ := h
    rcases List.mem_cons.mp hb with rfl | hmem
    · exact ⟨a, List.mem_cons_self, hb'⟩
    · obtain ⟨a', ha', hf⟩ := ih hl'' hmem
      exact ⟨a', List.mem_cons_of_mem _ ha', hf⟩

theorem foldlM_invariant {ε α β : Type} {f : β → α → Except ε β} {P : β → Prop}
    (hf : ∀ b a b', P b → f b a = .ok b' → P b') {l : List α} {b b' : β} (hb : P b)
    (h : l.foldlM f b = .ok b') : P b' := by
  induction l generalizing b with
  | nil =>
    cases h
    exact hb
  | cons a l ih =>
    rw [List.foldlM_cons] at h
    obtain ⟨c, hc, h⟩ := bind_eq_ok_iff.mp h
    exact ih (hf b a c hb hc) h

end Checked
