import JudicaVM.Lib.Checked

/-!
# How a computation can abort

A rule for each way of putting computations together, for the claim that all aborts are of a kind.
-/

namespace Checked

variable {ε α β : Type} {P : ε → Prop} {x y : Except ε α} {f : α → Except ε β}

/-- All aborts of the computation are of a kind. -/
def AbortsOnly (P : ε → Prop) (x : Except ε α) : Prop := ∀ e, x = .error e → P e

namespace AbortsOnly

@[simp] theorem ok (a : α) : AbortsOnly P (.ok a) := by
  intro e h
  cases h

theorem of_ok {a : α} (h : x = .ok a) : AbortsOnly P x := h ▸ ok a

theorem error {e : ε} (h : P e) : AbortsOnly P (.error e : Except ε α) := by
  intro e' he
  cases he
  exact h

theorem bind (hx : AbortsOnly P x) (hf : ∀ a, x = .ok a → AbortsOnly P (f a)) :
    AbortsOnly P (x >>= f) := by
  cases hcase : x with
  | error e => exact error (hx e hcase)
  | ok a => exact hf a hcase

theorem ite {c : Prop} [Decidable c] (hx : c → AbortsOnly P x) (hy : ¬ c → AbortsOnly P y) :
    AbortsOnly P (if c then x else y) := by
  by_cases h : c
  · rw [if_pos h]
    exact hx h
  · rw [if_neg h]
    exact hy h

theorem mapM {l : List α} (hf : ∀ a ∈ l, AbortsOnly P (f a)) : AbortsOnly P (l.mapM f) := by
  induction l with
  | nil => exact ok []
  | cons a l ih =>
    rw [List.mapM_cons]
    apply bind (hf a List.mem_cons_self)
    intro b _
    apply bind (ih fun c hc => hf c (List.mem_cons_of_mem _ hc))
    intro bs _
    exact ok (b :: bs)

theorem foldlM {γ : Type} {g : γ → α → Except ε γ} {l : List α} {c : γ}
    (hg : ∀ c a, AbortsOnly P (g c a)) : AbortsOnly P (l.foldlM g c) := by
  induction l generalizing c with
  | nil => exact ok c
  | cons a l ih =>
    rw [List.foldlM_cons]
    exact bind (hg c a) fun d _ => ih

end AbortsOnly

/-- An abort of arithmetic, as opposed to one of a look-up. -/
def Panic.IsArithmetic (e : Panic) : Prop := e = .overflow ∨ e = .divisionByZero

section

variable {width a b : ℕ}

@[simp] theorem add_aborts : AbortsOnly Panic.IsArithmetic (add width a b) :=
  .ite (fun _ => .ok _) fun _ => .error (.inl rfl)

@[simp] theorem sub_aborts : AbortsOnly Panic.IsArithmetic (sub a b) :=
  .ite (fun _ => .ok _) fun _ => .error (.inl rfl)

@[simp] theorem mul_aborts : AbortsOnly Panic.IsArithmetic (mul width a b) :=
  .ite (fun _ => .ok _) fun _ => .error (.inl rfl)

@[simp] theorem div_aborts : AbortsOnly Panic.IsArithmetic (div a b) :=
  .ite (fun _ => .error (.inr rfl)) fun _ => .ok _

end

end Checked
