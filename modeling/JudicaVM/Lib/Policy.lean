import Mathlib.Data.List.Count
import Mathlib.Data.Nat.Notation

/-!
# Spending policies

A policy is built of signatures, of numbers of blocks since the confirmation, and of a number of
policies out of some. With more signatures or more blocks a satisfied policy stays satisfied.
-/

namespace Policy

inductive Clause (K : Type)
  | key (key : K)
  | older (blocks : ℕ)
  | and (clauses : List (Clause K))
  | threshold (count : ℕ) (clauses : List (Clause K))

section

variable {K : Type} (signed : K → Bool) (height : ℕ)

mutual

/-- With the signatures of some keys, at a height above the confirmation. -/
def Clause.satisfied : Clause K → Bool
  | .key key => signed key
  | .older blocks => blocks ≤ height
  | .and clauses => satisfiedCount clauses = clauses.length
  | .threshold count clauses => count ≤ satisfiedCount clauses

def satisfiedCount : List (Clause K) → ℕ
  | [] => 0
  | c :: clauses => (if c.satisfied then 1 else 0) + satisfiedCount clauses

end

end

namespace Clause

variable {K : Type} {signed signed' : K → Bool} {height height' count : ℕ} {c : Clause K}
  {clauses : List (Clause K)} {keys : List K}

theorem satisfiedCount_eq :
    satisfiedCount signed height clauses = clauses.countP (satisfied signed height) := by
  induction clauses with
  | nil => rfl
  | cons c clauses ih =>
    rw [satisfiedCount, ih, List.countP_cons, Nat.add_comm]

@[simp] theorem satisfied_key (k : K) : (Clause.key k).satisfied signed height = signed k := by
  rw [satisfied]

@[simp] theorem satisfied_older (blocks : ℕ) :
    (Clause.older blocks : Clause K).satisfied signed height ↔ blocks ≤ height := by
  rw [satisfied, decide_eq_true_eq]

@[simp] theorem satisfied_and :
    (Clause.and clauses).satisfied signed height ↔ ∀ c ∈ clauses, c.satisfied signed height := by
  rw [satisfied, decide_eq_true_eq, satisfiedCount_eq, List.countP_eq_length]

theorem satisfied_threshold : (Clause.threshold count clauses).satisfied signed height ↔
    count ≤ clauses.countP (satisfied signed height) := by
  rw [satisfied, decide_eq_true_eq, satisfiedCount_eq]

theorem satisfied_threshold_one : (Clause.threshold 1 clauses).satisfied signed height ↔
    ∃ c ∈ clauses, c.satisfied signed height := by
  rw [satisfied_threshold]
  exact List.countP_pos_iff

theorem satisfied_threshold_length :
    (Clause.threshold clauses.length clauses).satisfied signed height ↔
      ∀ c ∈ clauses, c.satisfied signed height := by
  rw [satisfied_threshold, ← List.countP_eq_length]
  have hle : clauses.countP (satisfied signed height) ≤ clauses.length := List.countP_le_length
  omega

theorem satisfied_threshold_keys :
    (Clause.threshold count (keys.map Clause.key)).satisfied signed height ↔
      count ≤ keys.countP signed := by
  rw [satisfied_threshold, List.countP_map]
  have hkey : satisfied signed height ∘ Clause.key = signed := funext satisfied_key
  rw [hkey]

mutual

/-- More signatures and more blocks keep a policy satisfied. -/
theorem satisfied_mono (hsigned : ∀ k, signed k → signed' k) (hheight : height ≤ height') :
    ∀ c : Clause K, c.satisfied signed height → c.satisfied signed' height'
  | .key k, h => by
    rw [satisfied_key] at h ⊢
    exact hsigned k h
  | .older blocks, h => by
    rw [satisfied_older] at h ⊢
    exact Nat.le_trans h hheight
  | .and clauses, h => by
    rw [satisfied, decide_eq_true_eq] at h ⊢
    have hle := satisfiedCount_mono hsigned hheight clauses
    have hlength : satisfiedCount signed' height' clauses ≤ clauses.length := by
      rw [satisfiedCount_eq]
      exact List.countP_le_length
    omega
  | .threshold count clauses, h => by
    rw [satisfied, decide_eq_true_eq] at h ⊢
    exact Nat.le_trans h (satisfiedCount_mono hsigned hheight clauses)

theorem satisfiedCount_mono (hsigned : ∀ k, signed k → signed' k) (hheight : height ≤ height') :
    ∀ clauses : List (Clause K),
      satisfiedCount signed height clauses ≤ satisfiedCount signed' height' clauses
  | [] => Nat.le_refl 0
  | c :: clauses => by
    rw [satisfiedCount, satisfiedCount]
    have hrest := satisfiedCount_mono hsigned hheight clauses
    by_cases hc : c.satisfied signed height
    · rw [if_pos hc, if_pos (satisfied_mono hsigned hheight c hc)]
      omega
    · rw [if_neg hc]
      omega

end

end Clause

end Policy
