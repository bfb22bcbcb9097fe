import Mathlib.Algebra.Order.Floor.Div
import Mathlib.Tactic.Ring
import Mathlib.Tactic.Linarith

/-!
# Constant-product exchange with integer amounts

A pool holds `S` units of one asset and `B` units of another. Paying in `s` units of the first
against `b` units of the second is acceptable when the product of the two holdings does not fall.
The least acceptable payment and the greatest acceptable delivery are ceiling divisions, and they
form a Galois connection.
-/

namespace ConstantProduct

/-- The payment of `s` against `b` does not lower the product of the holdings. -/
def Acceptable (S B s b : ℕ) : Prop := S * B ≤ (S + s) * (B - b)

/-- The least payment for `b` units. -/
def swapIn (S B b : ℕ) : ℕ := (S * B) ⌈/⌉ (B - b) - S

/-- The greatest delivery for a payment of `s` units. -/
def swapOut (S B s : ℕ) : ℕ := B - (S * B) ⌈/⌉ (S + s)

/-- Rounding up the quotient of the product by a smaller divisor gives at least the cofactor. -/
theorem le_ceilDiv_of_le {a b d : ℕ} (hd : 0 < d) (h : d ≤ b) : a ≤ (a * b) ⌈/⌉ d := by
  have hle := le_smul_ceilDiv (b := a * b) hd
  have hmul : a * d ≤ d * ((a * b) ⌈/⌉ d) :=
    (Nat.mul_le_mul_left a h).trans hle
  rw [Nat.mul_comm a d] at hmul
  exact Nat.le_of_mul_le_mul_left hmul hd

theorem ceilDiv_le_of_le {a b d : ℕ} (hd : 0 < d) (h : b ≤ d) : (a * b) ⌈/⌉ d ≤ a := by
  rw [ceilDiv_le_iff_le_mul hd, Nat.mul_comm d a]
  exact Nat.mul_le_mul_left a h

theorem mul_ceilDiv_lt {a d : ℕ} (hd : 0 < d) : d * (a ⌈/⌉ d) < a + d := by
  rw [Nat.ceilDiv_eq_add_pred_div]
  have h := Nat.mul_div_le (a + d - 1) d
  omega

theorem ceilDiv_pos {a d : ℕ} (hd : 0 < d) (ha : 0 < a) : 0 < a ⌈/⌉ d := by
  by_contra h
  have h0 : a ⌈/⌉ d ≤ 0 := Nat.le_of_not_lt h
  rw [ceilDiv_le_iff_le_mul hd] at h0
  omega

variable {S B s b : ℕ}

theorem swapIn_add (hb : b < B) : S + swapIn S B b = (S * B) ⌈/⌉ (B - b) := by
  have h : S ≤ (S * B) ⌈/⌉ (B - b) := le_ceilDiv_of_le (by omega) (by omega)
  unfold swapIn
  omega

theorem sub_swapOut (hS : 0 < S) : B - swapOut S B s = (S * B) ⌈/⌉ (S + s) := by
  have h : (S * B) ⌈/⌉ (S + s) ≤ B := by
    rw [Nat.mul_comm S B]
    exact ceilDiv_le_of_le (by omega) (by omega)
  unfold swapOut
  omega

theorem swapOut_lt (hS : 0 < S) (hB : 0 < B) : swapOut S B s < B := by
  have h := ceilDiv_pos (d := S + s) (by omega) (Nat.mul_pos hS hB)
  unfold swapOut
  omega

/-- The price of `b` units is at most `s` exactly when paying `s` is acceptable. -/
theorem swapIn_le_iff (hb : b < B) : swapIn S B b ≤ s ↔ Acceptable S B s b := by
  have h := swapIn_add (S := S) hb
  have hle : (S * B) ⌈/⌉ (B - b) ≤ S + s ↔ S * B ≤ (B - b) * (S + s) :=
    ceilDiv_le_iff_le_mul (by omega)
  unfold Acceptable
  rw [Nat.mul_comm (S + s) (B - b), ← hle]
  omega

/-- At least `b` units are delivered for `s` exactly when paying `s` is acceptable. -/
theorem le_swapOut_iff (hS : 0 < S) (hb : b ≤ B) : b ≤ swapOut S B s ↔ Acceptable S B s b := by
  have hle : (S * B) ⌈/⌉ (S + s) ≤ B - b ↔ S * B ≤ (S + s) * (B - b) :=
    ceilDiv_le_iff_le_mul (by omega)
  have hcap : (S * B) ⌈/⌉ (S + s) ≤ B := by
    rw [Nat.mul_comm S B]
    exact ceilDiv_le_of_le (by omega) (by omega)
  unfold Acceptable swapOut
  rw [← hle]
  omega

theorem acceptable_swapIn (hb : b < B) : Acceptable S B (swapIn S B b) b :=
  (swapIn_le_iff hb).mp le_rfl

theorem acceptable_swapOut (hS : 0 < S) : Acceptable S B s (swapOut S B s) :=
  (le_swapOut_iff hS (Nat.sub_le _ _)).mp le_rfl

theorem swapIn_isLeast (hb : b < B) : IsLeast {s | Acceptable S B s b} (swapIn S B b) :=
  ⟨acceptable_swapIn hb, fun _ hs => (swapIn_le_iff hb).mpr hs⟩

theorem Acceptable.le (hS : 0 < S) (hB : 0 < B) (h : Acceptable S B s b) : b ≤ B := by
  by_contra hlt
  have hzero : B - b = 0 := by omega
  rw [Acceptable, hzero, Nat.mul_zero] at h
  exact absurd h (Nat.not_le_of_lt (Nat.mul_pos hS hB))

theorem swapOut_isGreatest (hS : 0 < S) (hB : 0 < B) :
    IsGreatest {b | Acceptable S B s b} (swapOut S B s) :=
  ⟨acceptable_swapOut hS, fun _ hb => (le_swapOut_iff hS (hb.le hS hB)).mpr hb⟩

theorem le_swapOut_swapIn (hS : 0 < S) (hb : b < B) : b ≤ swapOut S B (swapIn S B b) :=
  (le_swapOut_iff hS hb.le).mpr (acceptable_swapIn hb)

theorem swapIn_pos (hS : 0 < S) (hb : 0 < b) (hlt : b < B) : 0 < swapIn S B b := by
  by_contra hzero
  have haccept : Acceptable S B 0 b := (swapIn_le_iff hlt).mp (Nat.le_of_not_lt hzero)
  have hless : S * (B - b) < S * B := Nat.mul_lt_mul_of_pos_left (by omega) hS
  exact absurd haccept (Nat.not_le_of_lt hless)

theorem swapIn_swapOut_le (hS : 0 < S) (hB : 0 < B) : swapIn S B (swapOut S B s) ≤ s :=
  (swapIn_le_iff (swapOut_lt hS hB)).mpr (acceptable_swapOut hS)

theorem swapIn_mono {b' : ℕ} (hb' : b' < B) (h : b ≤ b') : swapIn S B b ≤ swapIn S B b' := by
  apply (swapIn_le_iff (h.trans_lt hb')).mpr
  have haccept : Acceptable S B (swapIn S B b') b' := acceptable_swapIn hb'
  exact haccept.trans (Nat.mul_le_mul_left _ (Nat.sub_le_sub_left h B))

theorem swapOut_mono {s' : ℕ} (hS : 0 < S) (h : s ≤ s') : swapOut S B s ≤ swapOut S B s' := by
  apply (le_swapOut_iff hS (Nat.sub_le _ _)).mpr
  have haccept : Acceptable S B s (swapOut S B s) := acceptable_swapOut hS
  exact haccept.trans (Nat.mul_le_mul_right _ (Nat.add_le_add_left h S))

theorem swapIn_swapOut_swapIn (hS : 0 < S) (hb : b < B) :
    swapIn S B (swapOut S B (swapIn S B b)) = swapIn S B b := by
  have hB : 0 < B := by omega
  apply le_antisymm (swapIn_swapOut_le hS hB)
  exact swapIn_mono (swapOut_lt hS hB) (le_swapOut_swapIn hS hb)

theorem swapOut_swapIn_swapOut (hS : 0 < S) (hB : 0 < B) :
    swapOut S B (swapIn S B (swapOut S B s)) = swapOut S B s := by
  apply le_antisymm (swapOut_mono hS (swapIn_swapOut_le hS hB))
  exact le_swapOut_swapIn hS (swapOut_lt hS hB)

/-- What a payment buys is bought by no less than its price. -/
theorem swapIn_isLeast_swapOut (hS : 0 < S) (hB : 0 < B) :
    IsLeast {s' | s' ≤ s ∧ IsGreatest {b | Acceptable S B s' b} (swapOut S B s)}
      (swapIn S B (swapOut S B s)) := by
  constructor
  · refine ⟨swapIn_swapOut_le hS hB, ?_⟩
    have hgreatest : IsGreatest {b | Acceptable S B (swapIn S B (swapOut S B s)) b} _ :=
      swapOut_isGreatest hS hB
    rwa [swapOut_swapIn_swapOut hS hB] at hgreatest
  · intro s' hs'
    exact (swapIn_le_iff (swapOut_lt hS hB)).mpr hs'.2.1

/-- Two holdings whose product did not fall: what was paid out of one came into the other. -/
theorem lt_of_product_le {a b a' b' : ℕ} (h : a * b ≤ a' * b') (hb : 0 < b) (ha : a' < a) :
    b < b' := by
  by_contra hle
  have hb' : b' ≤ b := Nat.le_of_not_lt hle
  have h1 : a' * b' ≤ a' * b := Nat.mul_le_mul_left a' hb'
  have h2 : a' * b < a * b := Nat.mul_lt_mul_of_pos_right ha hb
  omega

end ConstantProduct
