import Mathlib.Tactic.Common

/-!
# Loops without a condition

A loop repeats its body, which takes an input in each round and either goes round or ends the loop
with a result.
-/

namespace Loop

variable {σ ι ρ : Type} {body : ι → σ → σ ⊕ ρ} {input : ℕ → ι} {s s' : σ} {r r' : ρ} {n m : ℕ}

/-- The state after some rounds, or the result with which the loop has ended. -/
def rounds (body : ι → σ → σ ⊕ ρ) (input : ℕ → ι) (s : σ) : ℕ → σ ⊕ ρ
  | 0 => .inl s
  | n + 1 =>
    match rounds body input s n with
    | .inl s' => body (input n) s'
    | .inr r => .inr r

theorem rounds_succ_of_inl (h : rounds body input s n = .inl s') :
    rounds body input s (n + 1) = body (input n) s' := by
  rw [rounds, h]

theorem rounds_of_ended (h : rounds body input s n = .inr r) (hle : n ≤ m) :
    rounds body input s m = .inr r := by
  induction hle with
  | refl => exact h
  | step _ ih => rw [rounds, ih]

theorem result_unique (h : rounds body input s n = .inr r) (h' : rounds body input s m = .inr r') :
    r = r' := by
  have hmax := rounds_of_ended h (Nat.le_max_left n m)
  rw [rounds_of_ended h' (Nat.le_max_right n m)] at hmax
  exact (Sum.inr.inj hmax).symm

theorem exists_last_round (h : rounds body input s n = .inr r) :
    ∃ k s', k < n ∧ rounds body input s k = .inl s' ∧ body (input k) s' = .inr r := by
  induction n with
  | zero => cases h
  | succ n ih =>
    cases hn : rounds body input s n with
    | inl s' => exact ⟨n, s', Nat.lt_succ_self n, hn, (rounds_succ_of_inl hn).symm.trans h⟩
    | inr r' =>
      obtain rfl := result_unique hn h
      obtain ⟨k, s', hk, hrounds, hbody⟩ := ih hn
      exact ⟨k, s', Nat.lt_succ_of_lt hk, hrounds, hbody⟩

/-- What every round keeps holds as long as the loop goes round. -/
theorem invariant {I : ℕ → σ → Prop} (h0 : I 0 s)
    (hstep : ∀ n s s', I n s → body (input n) s = .inl s' → I (n + 1) s')
    (h : rounds body input s n = .inl s') : I n s' := by
  induction n generalizing s' with
  | zero =>
    obtain rfl := Sum.inl.inj h
    exact h0
  | succ n ih =>
    cases hn : rounds body input s n with
    | inl s'' => exact hstep n s'' s' (ih hn) ((rounds_succ_of_inl hn).symm.trans h)
    | inr r =>
      rw [rounds_of_ended hn (Nat.le_succ n)] at h
      cases h

/-- A loop that goes round in some rounds goes round in the earlier ones. -/
theorem rounds_of_le (h : rounds body input s n = .inl s') (hle : m ≤ n) :
    ∃ s'', rounds body input s m = .inl s'' := by
  cases hm : rounds body input s m with
  | inl s'' => exact ⟨s'', rfl⟩
  | inr r =>
    rw [rounds_of_ended hm hle] at h
    cases h

/-- A loop goes round as another one does if each of its rounds does. -/
theorem rounds_imp {ι' ρ' : Type} {body' : ι' → σ → σ ⊕ ρ'} {input' : ℕ → ι'}
    (hbody : ∀ m < n, ∀ t t', body (input m) t = .inl t' → body' (input' m) t = .inl t')
    (h : rounds body input s n = .inl s') : rounds body' input' s n = .inl s' := by
  induction n generalizing s' with
  | zero =>
    obtain rfl := Sum.inl.inj h
    rfl
  | succ n ih =>
    obtain ⟨t, ht⟩ := rounds_of_le h (Nat.le_succ n)
    have hbefore := ih (fun m hm => hbody m (Nat.lt_succ_of_lt hm)) ht
    rw [rounds_succ_of_inl ht] at h
    rw [rounds_succ_of_inl hbefore]
    exact hbody n (Nat.lt_succ_self n) t s' h

/-- A loop does not end when every round goes round from the states of an invariant into them. -/
theorem rounds_of_going_round {I : ℕ → σ → Prop} (h0 : I 0 s)
    (hstep : ∀ n s, I n s → ∃ s', body (input n) s = .inl s' ∧ I (n + 1) s') (n : ℕ) :
    ∃ s', rounds body input s n = .inl s' ∧ I n s' := by
  induction n with
  | zero => exact ⟨s, rfl, h0⟩
  | succ n ih =>
    obtain ⟨s', hn, hs'⟩ := ih
    obtain ⟨s'', hbody, hs''⟩ := hstep n s' hs'
    exact ⟨s'', (rounds_succ_of_inl hn).trans hbody, hs''⟩

end Loop
