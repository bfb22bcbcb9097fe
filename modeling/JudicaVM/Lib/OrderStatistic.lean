import Mathlib.Data.List.Sort
import Mathlib.Tactic.Common

/-!
# Order statistics by counting

The value at an index of a sorted list is compared with a bound by counting the values below the
bound, and so is the median, for which an even number of values takes the mean of the middle two.
-/

namespace OrderStatistic

variable {l l' : List ℕ} {k b : ℕ}

/-- The value at an index is below a bound exactly if more values than the index are. -/
theorem getD_lt_iff (hsorted : l.Pairwise (· ≤ ·)) (hk : k < l.length) :
    l.getD k 0 < b ↔ k < l.countP (· < b) := by
  induction l generalizing k with
  | nil => simp at hk
  | cons a l ih =>
    obtain ⟨hle, hrest⟩ := List.pairwise_cons.mp hsorted
    by_cases ha : a < b
    · rw [List.countP_cons_of_pos (by simpa using ha)]
      cases k with
      | zero => simp [ha]
      | succ k =>
        rw [List.getD_cons_succ, ih hrest (Nat.lt_of_succ_lt_succ hk)]
        omega
    · -- no value is below the bound if the least one is not
      have hnone : (a :: l).countP (· < b) = 0 := by
        rw [List.countP_eq_zero]
        intro c hc
        rcases List.mem_cons.mp hc with rfl | hc
        · simpa using ha
        · have := hle c hc
          simp only [decide_eq_true_eq]
          omega
      rw [hnone]
      cases k with
      | zero => simp [ha]
      | succ k =>
        have hk' : k < l.length := Nat.lt_of_succ_lt_succ hk
        have hge : a ≤ l.getD k 0 := by
          simp only [List.getD, List.getElem?_eq_getElem hk', Option.getD_some]
          exact hle _ (List.getElem_mem hk')
        rw [List.getD_cons_succ]
        omega

/-- The median is below a bound: more than half of the values are, or the middle two values lie
below two bounds that add up to twice the bound. -/
def MedianBefore (l : List ℕ) (b : ℕ) : Prop :=
  if l.length % 2 = 0 then
    ∀ x y, x + y = 2 * b → l.length / 2 < l.countP (· < x) ∨ l.length / 2 ≤ l.countP (· < y)
  else
    l.length / 2 < l.countP (· < b)

theorem MedianBefore.perm (h : l.Perm l') : MedianBefore l b ↔ MedianBefore l' b := by
  simp only [MedianBefore, h.length_eq, h.countP_eq]

theorem medianBefore_even (hsorted : l.Pairwise (· ≤ ·)) (heven : l.length % 2 = 0)
    (hne : l ≠ []) :
    MedianBefore l b ↔ l.getD (l.length / 2) 0 + l.getD (l.length / 2 - 1) 0 < 2 * b := by
  have hpos := List.length_pos_iff.mpr hne
  obtain ⟨m, hm⟩ : ∃ m, l.length / 2 = m + 1 := ⟨l.length / 2 - 1, by omega⟩
  have hhi (x : ℕ) := getD_lt_iff (b := x) hsorted (show m + 1 < l.length by omega)
  have hlo (y : ℕ) := getD_lt_iff (b := y) hsorted (show m < l.length by omega)
  rw [MedianBefore, if_pos heven, hm, Nat.add_sub_cancel]
  constructor
  · intro h
    by_contra hge
    -- the greater of the two middle values, cut off at the bound, is the first of the two bounds
    have hcut := h (min (l.getD (m + 1) 0) (2 * b)) (2 * b - min (l.getD (m + 1) 0) (2 * b))
      (by omega)
    rw [← hhi, Nat.succ_le_iff, ← hlo] at hcut
    omega
  · intro h x y hxy
    rw [← hhi, Nat.succ_le_iff, ← hlo]
    omega

theorem medianBefore_odd (hsorted : l.Pairwise (· ≤ ·)) (hodd : l.length % 2 ≠ 0) :
    MedianBefore l b ↔ l.getD (l.length / 2) 0 < b := by
  rw [MedianBefore, if_neg hodd, getD_lt_iff hsorted]
  omega

/-- The median is below a bound when more than half of the values are. -/
theorem medianBefore_of_majority (h : l.length < 2 * l.countP (· < b)) : MedianBefore l b := by
  unfold MedianBefore
  split
  · intro x y hxy
    have hmono {c : ℕ} (hbc : b ≤ c) : l.countP (· < b) ≤ l.countP (· < c) := by
      apply List.countP_mono_left
      intro a _ ha
      simp only [decide_eq_true_eq] at ha ⊢
      exact ha.trans_le hbc
    rcases Nat.le_total b x with hbx | hxb
    · left
      have := hmono hbx
      omega
    · right
      have := hmono (show b ≤ y by omega)
      omega
  · omega

end OrderStatistic
