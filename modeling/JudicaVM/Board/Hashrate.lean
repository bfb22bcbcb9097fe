import JudicaVM.Board.Ending
import JudicaVM.Lib.Greedy
import JudicaVM.Lib.Proportional

/-!
# The best use of power

A plant has machines of several kinds, and each running machine takes a watt. Its hashrate is the
best that any choice of running machines gives.
-/

namespace JudicaVM

open Checked Std Greedy PowerPlant

section

variable {ι : Type} {worth capacity : ι → ℕ} {sources : List ι} {watts hashrate n : ℕ}

private theorem greedy_zero : greedy worth capacity sources 0 = 0 := by
  induction sources with
  | nil => rfl
  | cons i sources ih => simp [greedy, ih]

private theorem runBoards_eq_ok_iff (hhashrate : hashrate < 2 ^ 128) :
    runBoards (sources.map fun i => (worth i, capacity i)) watts hashrate = .ok n ↔
      hashrate + greedy worth capacity sources watts < 2 ^ 128 ∧
        n = hashrate + greedy worth capacity sources watts := by
  induction sources generalizing watts hashrate with
  | nil =>
    show Except.ok hashrate = .ok n ↔ hashrate < 2 ^ 128 ∧ n = hashrate
    rw [Except.ok.injEq, eq_comm]
    exact (and_iff_right hhashrate).symm
  | cons i sources ih =>
    have hle : min (capacity i) watts ≤ watts := min_le_right _ _
    rw [List.map_cons, runBoards, greedy]
    by_cases hfits : hashrate + min (capacity i) watts * worth i < 2 ^ 128
    · rw [mul_of_lt (by omega), ok_bind, add_of_lt hfits, ok_bind, sub_of_le hle, ok_bind]
      by_cases hrest : watts - min (capacity i) watts = 0
      · rw [if_pos hrest, hrest, greedy_zero, Nat.add_zero, pure_eq_ok, Except.ok.injEq, eq_comm]
        exact (and_iff_right hfits).symm
      · rw [if_neg hrest, ih hfits, Nat.add_assoc]
    · constructor
      · intro h
        simp only [bind_eq_ok_iff, mul_eq_ok_iff, add_eq_ok_iff] at h
        obtain ⟨rate, ⟨_, rfl⟩, total, ⟨hlt, _⟩, _⟩ := h
        exact absurd hlt hfits
      · intro h
        omega

end

namespace PowerPlant

variable {g g' : GameBoard} {plant plant' : PowerPlant} {n n' : ℕ}

/-- The hash rates of all choices of running machines. -/
def hashrates (plant : PowerPlant) (g : GameBoard) : Set ℕ :=
  yields g.tokens.hashboards.toList (fun b => b.2.hashPerWatt) (fun b => g.balance b.1 plant.id)
    plant.watts

private theorem mapM_counts (htokens : ∀ b ∈ g.tokens.hashboards.toList, g.Has b.1) :
    (g.tokens.hashboards.toList.mapM fun b => do
      let count ← g.tokens.balanceCheck b.1 plant.id
      pure (b.2.hashPerWatt, count)) =
    (.ok (g.tokens.hashboards.toList.map fun b => (b.2.hashPerWatt, g.balance b.1 plant.id)) :
      Except Panic (List (ℕ × ℕ))) := by
  apply mapM_eq_map
  intro b hb
  have hcount : g.tokens.balanceCheck b.1 plant.id = .ok (g.balance b.1 plant.id) :=
    TokenRegistry.balanceCheck_of_has (htokens b hb)
  rw [hcount]
  rfl

/-- The machines in the order of the loop, the most efficient ones first. -/
def inOrder (plant : PowerPlant) (g : GameBoard) : List (TokenPointer × HashBoardData) :=
  (g.tokens.hashboards.toList.insertionSort fun a b =>
    boardLe (a.2.hashPerWatt, g.balance a.1 plant.id)
      (b.2.hashPerWatt, g.balance b.1 plant.id)).reverse

private theorem inOrder_perm : (plant.inOrder g).Perm g.tokens.hashboards.toList :=
  (List.reverse_perm _).trans (List.perm_insertionSort _ _)

private theorem boardLe_total (x y : ℕ × ℕ) : boardLe x y ∨ boardLe y x := by
  unfold boardLe
  omega

private theorem boardLe_trans {x y z : ℕ × ℕ} (h : boardLe x y) (h' : boardLe y z) :
    boardLe x z := by
  unfold boardLe at *
  omega

private theorem inOrder_sorted : (plant.inOrder g).Pairwise fun a b =>
    b.2.hashPerWatt ≤ a.2.hashPerWatt := by
  let r (a b : TokenPointer × HashBoardData) : Prop :=
    boardLe (a.2.hashPerWatt, g.balance a.1 plant.id) (b.2.hashPerWatt, g.balance b.1 plant.id)
  have htotal : Std.Total r := ⟨fun a b => boardLe_total _ _⟩
  have htrans : IsTrans _ r := ⟨fun a b c => boardLe_trans⟩
  rw [inOrder, List.pairwise_reverse]
  apply (List.pairwise_insertionSort r _).imp
  intro a b h
  unfold r boardLe at h
  omega

private theorem computeHashrate_eq_ok_iff (htokens : ∀ b ∈ g.tokens.hashboards.toList, g.Has b.1) :
    plant.computeHashrate g = .ok n ↔
      greedy (fun b => b.2.hashPerWatt) (fun b => g.balance b.1 plant.id) (plant.inOrder g)
        plant.watts < 2 ^ 128 ∧
      n = greedy (fun b => b.2.hashPerWatt) (fun b => g.balance b.1 plant.id) (plant.inOrder g)
        plant.watts := by
  have hsorted : ((g.tokens.hashboards.toList.map fun b =>
      (b.2.hashPerWatt, g.balance b.1 plant.id)).insertionSort boardLe).reverse =
        (plant.inOrder g).map fun b => (b.2.hashPerWatt, g.balance b.1 plant.id) := by
    rw [inOrder, List.map_reverse]
    congr 1
    symm
    apply List.map_insertionSort
    intro a _ b _
    exact Iff.rfl
  have hloop : runBoards ((plant.inOrder g).map fun b =>
      (b.2.hashPerWatt, g.balance b.1 plant.id)) plant.watts 0 = .ok n ↔
        0 + greedy (fun b => b.2.hashPerWatt) (fun b => g.balance b.1 plant.id) (plant.inOrder g)
          plant.watts < 2 ^ 128 ∧
        n = 0 + greedy (fun b => b.2.hashPerWatt) (fun b => g.balance b.1 plant.id)
          (plant.inOrder g) plant.watts := runBoards_eq_ok_iff (by decide)
  have hcompute : plant.computeHashrate g = (do
      let hash ← g.tokens.hashboards.toList.mapM fun b => do
        let count ← g.tokens.balanceCheck b.1 plant.id
        pure (b.2.hashPerWatt, count)
      runBoards (hash.insertionSort boardLe).reverse plant.watts 0) := rfl
  rw [Nat.zero_add] at hloop
  rw [← hloop, ← hsorted, hcompute, mapM_counts htokens]
  rfl

private theorem isGreatest_hashrates : IsGreatest (plant.hashrates g)
    (greedy (fun b => b.2.hashPerWatt) (fun b => g.balance b.1 plant.id) (plant.inOrder g)
      plant.watts) := by
  have hnodup : (plant.inOrder g).Nodup :=
    inOrder_perm.nodup_iff.mpr (Multiset.coe_nodup.mp (OrderedMap.entries_nodup _))
  rw [hashrates, ← yields_perm plant.inOrder_perm]
  exact isGreatest_greedy hnodup inOrder_sorted

/-- The hashrate is the best of all choices of running machines, and more watts or machines do not
lower it. -/
theorem hashrate_optimal (htokens : ∀ b ∈ g.tokens.hashboards.toList, g.Has b.1) :
    (∃ m, IsGreatest (plant.hashrates g) m ∧ (m < 2 ^ 128 → plant.computeHashrate g = .ok m)) ∧
    ∀ (plant' : PowerPlant) (g' : GameBoard), g'.tokens.hashboards = g.tokens.hashboards →
      (∀ b ∈ g.tokens.hashboards.toList, g'.Has b.1 ∧
        g.balance b.1 plant.id ≤ g'.balance b.1 plant'.id) →
      plant.watts ≤ plant'.watts → ∀ n n', plant.computeHashrate g = .ok n →
        plant'.computeHashrate g' = .ok n' → n ≤ n' := by
  constructor
  · refine ⟨_, isGreatest_hashrates, ?_⟩
    intro hlt
    exact (computeHashrate_eq_ok_iff htokens).mpr ⟨hlt, rfl⟩
  · intro plant' g' hboards hmachines hwatts n n' hn hn'
    obtain ⟨_, rfl⟩ := (computeHashrate_eq_ok_iff htokens).mp hn
    have htokens' : ∀ b ∈ g'.tokens.hashboards.toList, g'.Has b.1 := by
      rw [hboards]
      exact fun b hb => (hmachines b hb).1
    obtain ⟨_, rfl⟩ := (computeHashrate_eq_ok_iff htokens').mp hn'
    have hmore : plant.hashrates g ⊆ plant'.hashrates g' := by
      rw [hashrates, hashrates, hboards]
      exact yields_mono (fun b hb => (hmachines b hb).2) hwatts
    apply isGreatest_hashrates.2
    exact hmore isGreatest_hashrates.1

/-- The plant of the first of two players runs its machine. -/
theorem hashrate_optimal_two : ∃ (g : GameBoard) (plant : PowerPlant) (m : ℕ),
    GameBoard.new twoPlayers = .ok g ∧ 0 < m ∧ IsGreatest (plant.hashrates g) m ∧
      plant.computeHashrate g = .ok m := by
  have h : returns (do
      let g ← GameBoard.new twoPlayers
      let plant ← unwrap g.nfts.powerPlants.toList.head?
      let n ← plant.2.computeHashrate g
      pure (g, plant.2, n)) (fun x => 0 < x.2.2) := by
    decide +kernel
  obtain ⟨x, hok, hpos⟩ := returns_iff.mp h
  simp only [bind_eq_ok_iff, pure_eq_ok, Except.ok.injEq] at hok
  obtain ⟨g, hnew, plant, _, n, hn, rfl⟩ := hok
  have hreach : Reachable twoPlayers g := .new hnew
  have htokens : ∀ b ∈ g.tokens.hashboards.toList, g.Has b.1 := by
    intro b hb
    exact hreach.inv.boards b.1 b.2 (ExtTreeMap.mem_toList_iff_getElem?_eq_some.mp hb)
  obtain ⟨hlt, heq⟩ := (computeHashrate_eq_ok_iff htokens).mp hn
  obtain ⟨⟨m, hm, hcompute⟩, _⟩ := @hashrate_optimal g plant.2 htokens
  have hmn : m = n := by
    rw [heq]
    exact hm.unique isGreatest_hashrates
  exact ⟨g, plant.2, m, hnew, hmn ▸ of_decide_eq_true hpos, hm, hcompute (by rwa [hmn, heq])⟩

end PowerPlant

end JudicaVM
