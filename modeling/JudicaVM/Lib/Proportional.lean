import JudicaVM.Lib.Checked
import Mathlib.Algebra.BigOperators.Group.List.Basic
import Mathlib.Algebra.GroupWithZero.Nat
import Mathlib.Algebra.Order.Ring.Nat

/-!
# Amounts that are split in proportion

The shares of an amount are rounded down. They do not exceed the amount together, and what is left of
it is less than the number of shares. Sums with overflow checks return when they fit.
-/

namespace Checked

variable {α β : Type} {width : ℕ}

theorem foldlM_add_eq (f : α → ℕ) {l : List α} {sum : ℕ}
    (h : sum + (l.map f).sum < 2 ^ width) :
    l.foldlM (fun sum a => add width sum (f a)) sum = .ok (sum + (l.map f).sum) := by
  induction l generalizing sum with
  | nil => rfl
  | cons a l ih =>
    rw [List.map_cons, List.sum_cons, ← Nat.add_assoc] at h ⊢
    have hfirst : add width sum (f a) = .ok (sum + f a) :=
      add_of_lt ((Nat.le_add_right _ _).trans_lt h)
    rw [List.foldlM_cons, hfirst, ok_bind]
    exact ih h

theorem mapM_eq_map {ε : Type} {f : α → Except ε β} {g : α → β} {l : List α}
    (h : ∀ a ∈ l, f a = .ok (g a)) : l.mapM f = .ok (l.map g) := by
  induction l with
  | nil => rfl
  | cons a l ih =>
    rw [List.mapM_cons, h a List.mem_cons_self, ok_bind,
      ih fun b hb => h b (List.mem_cons_of_mem _ hb)]
    rfl

end Checked

namespace Proportional

/-- The shares of an amount for weights with a total. -/
def shares (amount total : ℕ) (weights : List ℕ) : List ℕ :=
  weights.map fun w => w * amount / total

variable {amount total : ℕ} {weights : List ℕ}

theorem mul_sum_shares_le : total * (shares amount total weights).sum ≤ weights.sum * amount := by
  induction weights with
  | nil => simp [shares]
  | cons w weights ih =>
    have hshare : total * (w * amount / total) ≤ w * amount := Nat.mul_div_le _ _
    simp only [shares, List.map_cons, List.sum_cons, Nat.mul_add, Nat.add_mul] at ih ⊢
    exact Nat.add_le_add hshare ih

theorem sum_mul_lt_shares (htotal : 0 < total) (hweights : weights ≠ []) :
    weights.sum * amount < total * ((shares amount total weights).sum + weights.length) := by
  induction weights with
  | nil => exact absurd rfl hweights
  | cons w weights ih =>
    have hshare : w * amount < total * (w * amount / total + 1) := by
      rw [Nat.mul_comm total]
      exact Nat.lt_mul_of_div_lt (Nat.lt_succ_self _) htotal
    simp only [shares, List.map_cons, List.sum_cons, List.length_cons, Nat.mul_add, Nat.add_mul,
      Nat.mul_one] at ih hshare ⊢
    cases weights with
    | nil =>
      simp only [List.sum_nil, List.map_nil, List.length_nil]
      omega
    | cons w' weights =>
      have hrest := ih (List.cons_ne_nil _ _)
      omega

theorem sum_shares_le (htotal : 0 < total) (hsum : weights.sum = total) :
    (shares amount total weights).sum ≤ amount := by
  have hle : total * (shares amount total weights).sum ≤ weights.sum * amount := mul_sum_shares_le
  rw [hsum] at hle
  exact Nat.le_of_mul_le_mul_left hle htotal

/-- What is left of the amount is less than the number of shares. -/
theorem lt_sum_shares_add_length (htotal : 0 < total) (hsum : weights.sum = total) :
    amount < (shares amount total weights).sum + weights.length := by
  have hweights : weights ≠ [] := by
    rintro rfl
    exact absurd hsum htotal.ne
  have hlt : weights.sum * amount <
      total * ((shares amount total weights).sum + weights.length) :=
    sum_mul_lt_shares htotal hweights
  rw [hsum] at hlt
  exact Nat.lt_of_mul_lt_mul_left hlt

theorem share_le {w : ℕ} (hw : w ≤ total) : w * amount / total ≤ amount := by
  apply Nat.div_le_of_le_mul
  exact Nat.mul_le_mul_right amount hw

/-- Scaling by a factor before the division and out of it afterwards changes nothing. -/
theorem share_scaled {w k : ℕ} (hk : 0 < k) : w * k * amount / total / k = w * amount / total := by
  rw [Nat.div_div_eq_div_mul, Nat.mul_right_comm, Nat.mul_div_mul_right _ _ hk]

end Proportional
