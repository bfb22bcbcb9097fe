import Mathlib.Data.List.Dedup
import Mathlib.Data.List.Nodup
import Mathlib.Data.List.Perm.Subperm
import Mathlib.Logic.Relation
import Mathlib.Tactic.Common

/-!
# Recursive queries

A recursive query collects what is reachable from its first rows: a queue of rows whose successors
are still to be computed, and the list of all rows found so far, in which no row is repeated.
-/

namespace Closure

variable {α : Type} [DecidableEq α]

/-- The rows that are found next, without repetitions. -/
def fresh (next : α → List α) (a : α) (seen : List α) : List α :=
  (next a).dedup.filter (· ∉ seen)

/-- The loop of a recursive query, for a number of rounds. -/
def loop (next : α → List α) : ℕ → List α → List α → List α
  | 0, _, seen => seen
  | _ + 1, [], seen => seen
  | n + 1, a :: queue, seen =>
    loop next n (queue ++ fresh next a seen) (seen ++ fresh next a seen)

/-- The result of a recursive query. -/
def collect (next : α → List α) (rounds : ℕ) (init : List α) : List α :=
  loop next rounds init.dedup init.dedup

/-- A row is found from another one in any number of steps. -/
def Reaches (next : α → List α) : α → α → Prop :=
  Relation.ReflTransGen fun a b => b ∈ next a

variable {next : α → List α} {queue seen : List α} {a b : α} {n : ℕ}

theorem mem_fresh : b ∈ fresh next a seen ↔ b ∈ next a ∧ b ∉ seen := by
  simp [fresh]

theorem nodup_fresh : (fresh next a seen).Nodup :=
  (List.nodup_dedup _).filter _

theorem nodup_append_fresh (h : seen.Nodup) : (seen ++ fresh next a seen).Nodup := by
  apply h.append nodup_fresh
  intro b hb hfresh
  exact (mem_fresh.mp hfresh).2 hb

theorem mem_loop_of_mem (h : a ∈ seen) : a ∈ loop next n queue seen := by
  induction n generalizing queue seen with
  | zero => exact h
  | succ n ih =>
    cases queue with
    | nil => exact h
    | cons c queue => exact ih (List.mem_append_left _ h)

/-- Only rows that are reached from a row already found are found. -/
theorem reaches_of_mem_loop (hqueue : ∀ c ∈ queue, c ∈ seen) (h : a ∈ loop next n queue seen) :
    ∃ c ∈ seen, Reaches next c a := by
  induction n generalizing queue seen with
  | zero => exact ⟨a, h, .refl⟩
  | succ n ih =>
    cases queue with
    | nil => exact ⟨a, h, .refl⟩
    | cons c queue =>
      have hc : c ∈ seen := hqueue c List.mem_cons_self
      have hqueue' : ∀ d ∈ queue ++ fresh next c seen, d ∈ seen ++ fresh next c seen := by
        intro d hd
        apply (List.mem_append.mp hd).elim
        · exact fun hd => List.mem_append_left _ (hqueue d (List.mem_cons_of_mem _ hd))
        · exact List.mem_append_right _
      obtain ⟨d, hd, hreach⟩ := ih hqueue' h
      apply (List.mem_append.mp hd).elim
      · exact fun hd => ⟨d, hd, hreach⟩
      · exact fun hd => ⟨c, hc, .head (mem_fresh.mp hd).1 hreach⟩

/-- When every row lies in a list and there is a round for each row of it, the rows found are closed
under successors. -/
theorem loop_closed {all : List α} (hall : ∀ c ∈ all, ∀ d ∈ next c, d ∈ all)
    (hsub : ∀ c ∈ seen, c ∈ all) (hnodup : seen.Nodup) (hqueue : ∀ c ∈ queue, c ∈ seen)
    (hdone : ∀ c ∈ seen, c ∉ queue → ∀ d ∈ next c, d ∈ seen)
    (hrounds : all.length + queue.length ≤ n + seen.length) (ha : a ∈ loop next n queue seen)
    (hb : b ∈ next a) : b ∈ loop next n queue seen := by
  have hlength : seen.length ≤ all.length :=
    (List.subperm_of_subset hnodup fun c hc => hsub c hc).length_le
  induction n generalizing queue seen with
  | zero =>
    have hempty : queue = [] := List.length_eq_zero_iff.mp (by omega)
    exact hdone a ha (by simp [hempty]) b hb
  | succ n ih =>
    cases queue with
    | nil => exact hdone a ha (by simp) b hb
    | cons c queue =>
      have hc : c ∈ seen := hqueue c List.mem_cons_self
      have hsub' : ∀ d ∈ seen ++ fresh next c seen, d ∈ all := by
        intro d hd
        apply (List.mem_append.mp hd).elim (hsub d)
        exact fun hd => hall c (hsub c hc) d (mem_fresh.mp hd).1
      have hnodup' : (seen ++ fresh next c seen).Nodup := nodup_append_fresh hnodup
      apply ih hsub' hnodup' _ _ _ ha
      · exact (List.subperm_of_subset hnodup' fun d hd => hsub' d hd).length_le
      · intro d hd
        apply (List.mem_append.mp hd).elim
        · exact fun hd => List.mem_append_left _ (hqueue d (List.mem_cons_of_mem _ hd))
        · exact List.mem_append_right _
      · intro d hd hnew e he
        by_cases hse : e ∈ seen
        · exact List.mem_append_left _ hse
        · -- a row whose successors are missing is the one taken from the queue
          have hd' : d ∈ seen := by
            apply (List.mem_append.mp hd).resolve_right
            exact fun h => hnew (List.mem_append_right _ h)
          have hdc : d = c := by
            by_contra hne
            apply hse (hdone d hd' _ e he)
            simp only [List.mem_cons, hne, false_or]
            exact fun h => hnew (List.mem_append_left _ h)
          subst hdc
          exact List.mem_append_right _ (mem_fresh.mpr ⟨he, hse⟩)
      · simp only [List.length_append, List.length_cons] at hrounds ⊢
        omega

/-- A recursive query finds exactly the rows reached from its first rows. -/
theorem mem_collect {init : List α} (all : List α) (hall : ∀ c ∈ all, ∀ d ∈ next c, d ∈ all)
    (hinit : ∀ c ∈ init, c ∈ all) (hrounds : all.length ≤ n) :
    a ∈ collect next n init ↔ ∃ c ∈ init, Reaches next c a := by
  constructor
  · intro h
    obtain ⟨c, hc, hreach⟩ := reaches_of_mem_loop (fun _ => id) h
    exact ⟨c, List.mem_dedup.mp hc, hreach⟩
  · intro h
    obtain ⟨c, hc, hreach⟩ := h
    induction hreach with
    | refl => exact mem_loop_of_mem (List.mem_dedup.mpr hc)
    | tail _ hstep ih =>
      apply loop_closed hall _ (List.nodup_dedup _) (fun _ => id) _ _ ih hstep
      · exact fun d hd => hinit d (List.mem_dedup.mp hd)
      · exact fun d hd hnot => absurd hd hnot
      · omega

end Closure
