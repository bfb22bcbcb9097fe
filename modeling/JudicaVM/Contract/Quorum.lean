import JudicaVM.Contract.Replay
import JudicaVM.Lib.Policy

/-!
# The degraded quorum

The contract can be closed by all players, and by fewer of them the longer it is confirmed. The host
makes up for half of a period.
-/

namespace JudicaVM

open Checked Policy Std

section

variable {PK : Type}

def degradeEveryNBlocks : ℕ := 6

/-- The policies of a number of players: with the host, and half of a period later without. -/
def quorumLoop (keys : List (Clause PK)) (gameHost : PK) :
    List ℕ → List (Clause PK) → ℕ → Except Panic (List (Clause PK))
  | [], clauses, _ => pure clauses
  | parties :: rest, clauses, nextTriggerAt => do
    let v := [.older (max nextTriggerAt 1), .threshold parties keys, .key gameHost]
    let clauses := clauses ++ [.threshold v.length v]
    let nextTriggerAt ← Checked.add 16 nextTriggerAt degradeEveryNBlocks
    let clauses := clauses ++ [.and [.threshold parties keys, .older nextTriggerAt]]
    let nextTriggerAt ← Checked.add 16 nextTriggerAt degradeEveryNBlocks
    quorumLoop keys gameHost rest clauses nextTriggerAt

/-- The capacity that is reserved for the policies needs a player. -/
def GameKernel.degradedQuorum [Ord PK] [TransOrd PK] (self : GameKernel PK) :
    Except Panic (Clause PK) := do
  let total := self.players.size
  let keys := self.players.keys.map Clause.key
  let _ ← Checked.sub total 1
  let clauses ← quorumLoop keys self.gameHost (List.range' 1 total).reverse [] 0
  pure (.threshold 1 clauses)

variable {keys : List PK} {gameHost : PK} {clauses : List (Clause PK)} {m next : ℕ}
  {signed : PK → Bool} {height : ℕ}

/-- The policies of a number of players and of all smaller numbers. -/
def stages (keys : List (Clause PK)) (gameHost : PK) : ℕ → ℕ → List (Clause PK)
  | 0, _ => []
  | m + 1, next =>
    .threshold 3 [.older (max next 1), .threshold (m + 1) keys, .key gameHost] ::
      .and [.threshold (m + 1) keys, .older (next + 6)] :: stages keys gameHost m (next + 12)

private theorem quorumLoop_eq {keys : List (Clause PK)} (hlt : next + 12 * m < 2 ^ 16) :
    quorumLoop keys gameHost (List.range' 1 m).reverse clauses next =
      .ok (clauses ++ stages keys gameHost m next) := by
  induction m generalizing clauses next with
  | zero => simp [quorumLoop, stages, pure_eq_ok]
  | succ m ih =>
    have hparties : (List.range' 1 (m + 1)).reverse = (m + 1) :: (List.range' 1 m).reverse := by
      rw [List.range'_1_concat, List.reverse_append, Nat.add_comm 1 m]
      rfl
    have hhalf : Checked.add 16 next degradeEveryNBlocks = .ok (next + 6) := by
      apply add_of_lt
      show next + 6 < 2 ^ 16
      omega
    have hperiod : Checked.add 16 (next + 6) degradeEveryNBlocks = .ok (next + 12) := by
      apply add_of_lt
      show next + 6 + 6 < 2 ^ 16
      omega
    rw [hparties]
    simp only [quorumLoop, hhalf, hperiod, ok_bind]
    rw [ih (by omega)]
    simp [stages]

private theorem satisfied_stages_iff :
    (∃ c ∈ stages (keys.map Clause.key) gameHost m next, c.satisfied signed height) ↔
      ∃ p, 1 ≤ p ∧ p ≤ m ∧ p ≤ keys.countP signed ∧
        (next + 12 * (m - p) + 6 ≤ height ∨
          signed gameHost ∧ max (next + 12 * (m - p)) 1 ≤ height) := by
  induction m generalizing next with
  | zero =>
    constructor
    · intro h
      obtain ⟨c, hc, _⟩ := h
      cases hc
    · intro h
      obtain ⟨p, hpos, hle, _⟩ := h
      omega
  | succ m ih =>
    have hfirst : (Clause.threshold 3 [.older (max next 1), .threshold (m + 1) (keys.map .key),
        .key gameHost]).satisfied signed height ↔
          max next 1 ≤ height ∧ m + 1 ≤ keys.countP signed ∧ signed gameHost := by
      rw [show 3 = [Clause.older (max next 1), .threshold (m + 1) (keys.map .key),
        .key gameHost].length from rfl, Clause.satisfied_threshold_length]
      simp [Clause.satisfied_threshold_keys]
    have hsecond : (Clause.and [.threshold (m + 1) (keys.map .key), .older (next + 6)]).satisfied
        signed height ↔ m + 1 ≤ keys.countP signed ∧ next + 6 ≤ height := by
      simp [Clause.satisfied_threshold_keys]
    rw [stages, List.exists_mem_cons_iff, List.exists_mem_cons_iff, hfirst, hsecond, ih]
    have hshift (p : ℕ) (hp : p ≤ m) : next + 12 + 12 * (m - p) = next + 12 * (m + 1 - p) := by
      omega
    have hlast : next + 12 * (m + 1 - (m + 1)) = next := by
      omega
    constructor
    · intro h
      rcases h with ⟨hheight, hkeys, hhost⟩ | ⟨hkeys, hheight⟩ | ⟨p, hpos, hle, hkeys, h⟩
      · refine ⟨m + 1, by omega, Nat.le_refl _, hkeys, .inr ⟨hhost, ?_⟩⟩
        rwa [hlast]
      · refine ⟨m + 1, by omega, Nat.le_refl _, hkeys, .inl ?_⟩
        rwa [hlast]
      · refine ⟨p, hpos, Nat.le_succ_of_le hle, hkeys, ?_⟩
        rwa [← hshift p hle]
    · intro h
      obtain ⟨p, hpos, hle, hkeys, h⟩ := h
      by_cases hp : p = m + 1
      · rw [hp] at hkeys
        rw [hp, hlast] at h
        apply h.elim
        · intro hheight
          exact .inr (.inl ⟨hkeys, hheight⟩)
        · intro hhost
          exact .inl ⟨hhost.2, hkeys, hhost.1⟩
      · have hle : p ≤ m := by omega
        rw [← hshift p hle] at h
        exact .inr (.inr ⟨p, hpos, hle, hkeys, h⟩)

end

section

variable {PK : Type} [Ord PK] [TransOrd PK] {kernel : GameKernel PK}

/-- The number of players whose signatures there are. -/
def GameKernel.signers (kernel : GameKernel PK) (signed : PK → Bool) : ℕ :=
  kernel.players.keys.countP signed

private theorem GameKernel.signers_le (signed : PK → Bool) :
    kernel.signers signed ≤ kernel.players.size := by
  rw [← ExtTreeMap.length_keys]
  exact List.countP_le_length

private theorem GameKernel.degradedQuorum_eq (hpos : 1 ≤ kernel.players.size)
    (hlt : 12 * kernel.players.size < 2 ^ 16) :
    kernel.degradedQuorum = .ok (.threshold 1 (stages (kernel.players.keys.map Clause.key)
      kernel.gameHost kernel.players.size 0)) := by
  have hloop : quorumLoop (kernel.players.keys.map Clause.key) kernel.gameHost
      (List.range' 1 kernel.players.size).reverse [] 0 =
        .ok ([] ++ stages (kernel.players.keys.map Clause.key) kernel.gameHost
          kernel.players.size 0) := quorumLoop_eq (by omega)
  simp only [degradedQuorum, sub_of_le hpos, hloop, ok_bind, List.nil_append]
  rfl

private theorem GameKernel.satisfied_quorum_iff {signed : PK → Bool} {height : ℕ} :
    (Clause.threshold 1 (stages (kernel.players.keys.map Clause.key) kernel.gameHost
      kernel.players.size 0)).satisfied signed height ↔
    1 ≤ kernel.signers signed ∧
      (12 * (kernel.players.size - kernel.signers signed) + 6 ≤ height ∨
        signed kernel.gameHost ∧
          max 1 (12 * (kernel.players.size - kernel.signers signed)) ≤ height) := by
  have hle := kernel.signers_le signed
  rw [Clause.satisfied_threshold_one, satisfied_stages_iff]
  constructor
  · intro h
    obtain ⟨p, hpos, _, hsigned, h⟩ := h
    have hsigned : p ≤ kernel.signers signed := hsigned
    refine ⟨by omega, ?_⟩
    apply h.imp
    · intro hheight
      omega
    · intro hhost
      refine ⟨hhost.1, ?_⟩
      have hheight := hhost.2
      omega
  · intro h
    obtain ⟨hpos, h⟩ := h
    refine ⟨kernel.signers signed, hpos, hle, Nat.le_refl _, ?_⟩
    rwa [Nat.zero_add, max_comm]

/-- When the policy of a game is satisfied: a missing player costs a period, a missing host half of
one. -/
theorem degraded_quorum_frontier (hpos : 1 ≤ kernel.players.size)
    (hlt : 12 * kernel.players.size < 2 ^ 16) : ∃ clause, kernel.degradedQuorum = .ok clause ∧
      (∀ signed height, signed kernel.gameHost = false → 1 ≤ kernel.signers signed →
        (clause.satisfied signed height ↔
          12 * (kernel.players.size - kernel.signers signed) + 6 ≤ height)) ∧
      (∀ signed height, signed kernel.gameHost = true → 1 ≤ kernel.signers signed →
        (clause.satisfied signed height ↔
          max 1 (12 * (kernel.players.size - kernel.signers signed)) ≤ height)) ∧
      (∀ signed height, kernel.signers signed = 0 → ¬clause.satisfied signed height) ∧
      ∀ signed signed' height height', (∀ k, signed k → signed' k) → height ≤ height' →
        clause.satisfied signed height → clause.satisfied signed' height' := by
  refine ⟨_, kernel.degradedQuorum_eq hpos hlt, ?_, ?_, ?_, ?_⟩
  · intro signed height hhost hsigners
    rw [kernel.satisfied_quorum_iff, hhost]
    simp [hsigners]
  · intro signed height hhost hsigners
    rw [kernel.satisfied_quorum_iff, hhost]
    simp only [hsigners, true_and]
    omega
  · intro signed height hsigners
    rw [kernel.satisfied_quorum_iff, hsigners]
    simp
  · intro signed signed' height height' hsigned hheight
    exact Clause.satisfied_mono hsigned hheight _

/-- Of two players, Bob can close the game after eighteen blocks. -/
theorem degraded_quorum_short : ∃ clause, shortKernel.degradedQuorum = .ok clause ∧
    clause.satisfied (· = bobPk) 18 ∧ ¬clause.satisfied (· = bobPk) 17 := by
  have hsize : shortKernel.players.size = 2 := by decide +kernel
  have hsigners : shortKernel.signers (· = bobPk) = 1 := by decide +kernel
  obtain ⟨clause, hclause, hplayers, _⟩ := @degraded_quorum_frontier _ _ _ shortKernel
    (by decide +kernel) (by decide +kernel)
  have hbob (height : ℕ) : clause.satisfied (· = bobPk) height ↔ 18 ≤ height := by
    have hheight := hplayers (· = bobPk) height (by decide) (by rw [hsigners])
    rwa [hsize, hsigners] at hheight
  exact ⟨clause, hclause, (hbob 18).mpr (Nat.le_refl 18), fun h => absurd ((hbob 17).mp h) (by decide)⟩

end

end JudicaVM
