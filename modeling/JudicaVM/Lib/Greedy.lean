import Mathlib.Algebra.BigOperators.Group.List.Basic
import Mathlib.Algebra.Order.BigOperators.Group.List
import Mathlib.Algebra.Order.Ring.Nat
import Mathlib.Data.List.Sort
import Mathlib.Order.Bounds.Basic

/-!
# Greedy allocation

Units are allocated to sources of different worth, each of which takes a number of them, up to a limit
on all units. When the sources come in order of their worth, it is best to give each as many units as
it takes.
-/

namespace Greedy

variable {ι : Type*} {worth capacity capacity' x y : ι → ℕ} {sources sources' : List ι}
  {limit limit' bound : ℕ}

/-- An allocation of units within the capacities and the limit. -/
structure Feasible (sources : List ι) (capacity : ι → ℕ) (limit : ℕ) (x : ι → ℕ) : Prop where
  within : ∀ i ∈ sources, x i ≤ capacity i
  total : (sources.map x).sum ≤ limit

/-- What the units of an allocation are worth. -/
def yield (sources : List ι) (worth x : ι → ℕ) : ℕ :=
  (sources.map fun i => x i * worth i).sum

/-- The yields of all allocations. -/
def yields (sources : List ι) (worth capacity : ι → ℕ) (limit : ℕ) : Set ℕ :=
  {n | ∃ x, Feasible sources capacity limit x ∧ yield sources worth x = n}

/-- The yield of the allocation in order. -/
def greedy (worth capacity : ι → ℕ) : List ι → ℕ → ℕ
  | [], _ => 0
  | i :: sources, limit =>
    min (capacity i) limit * worth i + greedy worth capacity sources (limit - min (capacity i) limit)

theorem Feasible.perm (hperm : sources.Perm sources') (h : Feasible sources capacity limit x) :
    Feasible sources' capacity limit x where
  within := fun i hi => h.within i (hperm.mem_iff.mpr hi)
  total := (hperm.map x).sum_eq ▸ h.total

theorem yields_perm (hperm : sources.Perm sources') :
    yields sources worth capacity limit = yields sources' worth capacity limit := by
  ext n
  have hyield (x : ι → ℕ) : yield sources worth x = yield sources' worth x :=
    (hperm.map _).sum_eq
  simp only [yields, Set.mem_ofPred_eq, hyield]
  constructor
  · intro h
    obtain ⟨x, hx, hn⟩ := h
    exact ⟨x, hx.perm hperm, hn⟩
  · intro h
    obtain ⟨x, hx, hn⟩ := h
    exact ⟨x, hx.perm hperm.symm, hn⟩

theorem yields_mono (hcapacity : ∀ i ∈ sources, capacity i ≤ capacity' i) (hlimit : limit ≤ limit') :
    yields sources worth capacity limit ⊆ yields sources worth capacity' limit' := by
  intro n h
  obtain ⟨x, hx, hn⟩ := h
  exact ⟨x, ⟨fun i hi => (hx.within i hi).trans (hcapacity i hi), hx.total.trans hlimit⟩, hn⟩

/-- More units are worth no more than the best of the sources. -/
theorem greedy_add_le (hworth : ∀ i ∈ sources, worth i ≤ bound) (extra : ℕ) :
    greedy worth capacity sources (limit + extra) ≤
      greedy worth capacity sources limit + extra * bound := by
  induction sources generalizing limit extra with
  | nil => simp [greedy]
  | cons i sources ih =>
    obtain ⟨hi, hrest⟩ := List.forall_mem_cons.mp hworth
    obtain ⟨more, hmore⟩ : ∃ more, min (capacity i) (limit + extra) =
        min (capacity i) limit + more := ⟨_, (Nat.add_sub_of_le (by omega)).symm⟩
    have hle : more ≤ extra := by omega
    have hlimit : limit + extra - (min (capacity i) limit + more) =
        limit - min (capacity i) limit + (extra - more) := by omega
    have hothers : greedy worth capacity sources (limit - min (capacity i) limit + (extra - more)) ≤
        greedy worth capacity sources (limit - min (capacity i) limit) + (extra - more) * bound :=
      ih hrest (extra - more)
    have hunits : more * worth i ≤ more * bound := Nat.mul_le_mul_left _ hi
    have hextra : extra * bound = more * bound + (extra - more) * bound := by
      rw [← Nat.add_mul, Nat.add_sub_of_le hle]
    rw [greedy, greedy, hmore, hlimit, Nat.add_mul, hextra]
    omega

theorem yield_le_greedy (hsorted : sources.Pairwise fun i j => worth j ≤ worth i)
    (hx : Feasible sources capacity limit x) :
    yield sources worth x ≤ greedy worth capacity sources limit := by
  induction sources generalizing limit with
  | nil => exact Nat.zero_le _
  | cons i sources ih =>
    obtain ⟨hbest, hsorted⟩ := List.pairwise_cons.mp hsorted
    obtain ⟨hi, hwithin⟩ := List.forall_mem_cons.mp hx.within
    have htotal := hx.total
    rw [List.map_cons, List.sum_cons] at htotal
    have hothers : yield sources worth x ≤ greedy worth capacity sources (limit - x i) :=
      ih hsorted ⟨hwithin, by omega⟩
    -- the units that the first source could have taken are worth no more to the others
    obtain ⟨spare, hspare⟩ : ∃ spare, min (capacity i) limit = x i + spare :=
      ⟨_, (Nat.add_sub_of_le (by omega)).symm⟩
    have hlimit : limit - x i = limit - min (capacity i) limit + spare := by omega
    have hbound : greedy worth capacity sources (limit - min (capacity i) limit + spare) ≤
        greedy worth capacity sources (limit - min (capacity i) limit) + spare * worth i :=
      greedy_add_le hbest spare
    rw [hlimit] at hothers
    have hyield : yield (i :: sources) worth x = x i * worth i + yield sources worth x := by
      rw [yield, List.map_cons, List.sum_cons]
      rfl
    rw [hyield, greedy, hspare, Nat.add_mul]
    rw [hspare] at hothers hbound
    omega

theorem exists_yield_eq_greedy (hnodup : sources.Nodup) :
    ∃ x, Feasible sources capacity limit x ∧
      yield sources worth x = greedy worth capacity sources limit := by
  classical
  induction sources generalizing limit with
  | nil => exact ⟨fun _ => 0, ⟨by simp, by simp⟩, rfl⟩
  | cons i sources ih =>
    obtain ⟨hnew, hnodup⟩ := List.nodup_cons.mp hnodup
    obtain ⟨x, hx, hyield⟩ : ∃ x, Feasible sources capacity (limit - min (capacity i) limit) x ∧
        yield sources worth x =
          greedy worth capacity sources (limit - min (capacity i) limit) := ih hnodup
    let x' := Function.update x i (min (capacity i) limit)
    have hfirst : x' i = min (capacity i) limit := Function.update_self i _ x
    have hothers : ∀ j ∈ sources, x' j = x j := by
      intro j hj
      have hne : j ≠ i := fun heq => hnew (heq ▸ hj)
      exact Function.update_of_ne hne _ x
    have hunits : sources.map x' = sources.map x := List.map_congr_left hothers
    refine ⟨x', ⟨?_, ?_⟩, ?_⟩
    · intro j hj
      apply (List.mem_cons.mp hj).elim
      · intro heq
        rw [heq, hfirst]
        exact min_le_left _ _
      · intro hj
        rw [hothers j hj]
        exact hx.within j hj
    · rw [List.map_cons, List.sum_cons, hfirst, hunits]
      have htotal := hx.total
      omega
    · rw [yield, List.map_cons, List.sum_cons, hfirst, greedy, ← hyield]
      congr 2
      apply List.map_congr_left
      intro j hj
      rw [hothers j hj]

theorem isGreatest_greedy (hnodup : sources.Nodup)
    (hsorted : sources.Pairwise fun i j => worth j ≤ worth i) :
    IsGreatest (yields sources worth capacity limit) (greedy worth capacity sources limit) := by
  constructor
  · exact exists_yield_eq_greedy hnodup
  · intro n h
    obtain ⟨x, hx, rfl⟩ := h
    exact yield_le_greedy hsorted hx

end Greedy
