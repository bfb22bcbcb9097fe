import JudicaVM.Attest.Plain
import JudicaVM.Lib.Text

/-!
# Ids and pairs as text

An id is written in hexadecimal digits, and a trading pair as two ids with a colon between them. What
is written is read again, and a text is read as a pair just if it has this form.
-/

namespace JudicaVM

open Checked Serde GameBoard

def EntityID.tryFrom (value : String) : Except IntErrorKind EntityID :=
  fromStrRadix 64 value

inductive TradingPairIDParseError
  | wrongNumberOfTerms
  | entityIDParseError (e : IntErrorKind)
  deriving DecidableEq, Repr

def TradingPairID.tryFrom (value : String) : Except TradingPairIDParseError TradingPairID :=
  match value.splitOn ":" with
  | [a, b] => do
    let assetA ← (EntityID.tryFrom a).mapError .entityIDParseError
    let assetB ← (EntityID.tryFrom b).mapError .entityIDParseError
    pure { assetA, assetB }
  | _ => .error .wrongNumberOfTerms

variable {s a b : String} {id : EntityID} {p q : TradingPairID}

private theorem EntityID.colon_not_mem (h : EntityID.tryFrom s = .ok id) : ':' ∉ s.toList := by
  have hnone (digits : List Char) (n : ℕ) (hread : accumulate 64 digits 0 = .ok n) :
      ':' ∉ digits := by
    intro hc
    have hdigits := ((accumulate_eq_ok_iff (Nat.two_pow_pos 64)).mp hread).1
    have hcolon := mem_hexDigit_of_ofHexDigits hdigits hc
    cases hcolon
  unfold EntityID.tryFrom fromStrRadix at h
  split at h
  · cases h
  · cases h
  · cases h
  · rename_i digits _ hs
    rw [hs, List.mem_cons, not_or]
    exact ⟨by decide, hnone digits _ h⟩
  · exact hnone _ _ h

private theorem TradingPairID.tryFrom_eq_ok_iff : TradingPairID.tryFrom s = .ok p ↔
    ∃ a b, s = a ++ ":" ++ b ∧ EntityID.tryFrom a = .ok p.assetA ∧
      EntityID.tryFrom b = .ok p.assetB := by
  have hsplit : s.splitOn ":" = (s.toList.splitOn ':').map String.ofList :=
    splitOn_singleton ':' s
  constructor
  · intro h
    unfold TradingPairID.tryFrom at h
    split at h
    · rename_i a b hs
      have hpieces : s.toList.splitOn ':' = [a.toList, b.toList] := by
        have htexts := congrArg (List.map String.toList) (hsplit.symm.trans hs)
        simpa [List.map_map, Function.comp_def] using htexts
      obtain ⟨hjoined, _, _⟩ := splitOn_eq_pair_iff.mp hpieces
      simp only [bind_eq_ok_iff, mapError_eq_ok_iff, pure_eq_ok, Except.ok.injEq] at h
      obtain ⟨assetA, ha, assetB, hb, rfl⟩ := h
      refine ⟨a, b, ?_, ha, hb⟩
      apply String.toList_inj.mp
      simpa using hjoined
    · cases h
  · intro h
    obtain ⟨a, b, rfl, ha, hb⟩ := h
    have hpieces : (a ++ ":" ++ b).toList.splitOn ':' = [a.toList, b.toList] := by
      rw [splitOn_eq_pair_iff]
      exact ⟨by simp, EntityID.colon_not_mem ha, EntityID.colon_not_mem hb⟩
    rw [hpieces] at hsplit
    have hfirst : (EntityID.tryFrom a).mapError TradingPairIDParseError.entityIDParseError =
        .ok p.assetA := mapError_eq_ok_iff.mpr ha
    have hsecond : (EntityID.tryFrom b).mapError TradingPairIDParseError.entityIDParseError =
        .ok p.assetB := mapError_eq_ok_iff.mpr hb
    rw [TradingPairID.tryFrom, hsplit, List.map_cons, List.map_cons, List.map_nil,
      String.ofList_toList, String.ofList_toList]
    simp only [hfirst, hsecond, ok_bind]
    rfl

private theorem EntityID.tryFrom_idToString (hid : id < 2 ^ 64) :
    EntityID.tryFrom (idToString id) = .ok id :=
  fromStrRadix_toDigits hid

private theorem EntityID.lt_of_tryFrom (h : EntityID.tryFrom s = .ok id) : id < 2 ^ 64 := by
  have hlt (digits : List Char) (hread : accumulate 64 digits 0 = .ok id) : id < 2 ^ 64 :=
    ((accumulate_eq_ok_iff (Nat.two_pow_pos 64)).mp hread).2
  unfold EntityID.tryFrom fromStrRadix at h
  split at h
  · cases h
  · cases h
  · cases h
  · exact hlt _ h
  · exact hlt _ h

private theorem TradingPairID.tryFrom_text (hA : p.assetA < 2 ^ 64) (hB : p.assetB < 2 ^ 64) :
    TradingPairID.tryFrom p.text = .ok p :=
  tryFrom_eq_ok_iff.mpr ⟨_, _, rfl, EntityID.tryFrom_idToString hA, EntityID.tryFrom_idToString hB⟩

/-- Ids and pairs are read again from what is written for them, and a text is read as a pair just if
it is two ids with a colon between them. -/
theorem ids_roundtrip :
    (∀ p : TradingPairID, p.assetA < 2 ^ 64 → p.assetB < 2 ^ 64 →
      TradingPairID.tryFrom p.text = .ok p) ∧
    (∀ id : EntityID, id < 2 ^ 64 → EntityID.tryFrom (idToString id) = .ok id) ∧
    (∀ p q : TradingPairID, p.assetA < 2 ^ 64 → p.assetB < 2 ^ 64 → q.assetA < 2 ^ 64 →
      q.assetB < 2 ^ 64 → p.text = q.text → p = q) ∧
    ∀ (s : String) (p : TradingPairID), TradingPairID.tryFrom s = .ok p →
      (∃ a b, s = a ++ ":" ++ b ∧ ':' ∉ a.toList ∧ ':' ∉ b.toList ∧
        EntityID.tryFrom a = .ok p.assetA ∧ EntityID.tryFrom b = .ok p.assetB) ∧
      TradingPairID.tryFrom p.text = .ok p := by
  refine ⟨fun p => TradingPairID.tryFrom_text, fun id => EntityID.tryFrom_idToString, ?_, ?_⟩
  · intro p q hpA hpB hqA hqB htext
    have hp := TradingPairID.tryFrom_text hpA hpB
    rw [htext, TradingPairID.tryFrom_text hqA hqB] at hp
    exact (Except.ok.inj hp).symm
  · intro s p h
    obtain ⟨a, b, hs, ha, hb⟩ := TradingPairID.tryFrom_eq_ok_iff.mp h
    constructor
    · exact ⟨a, b, hs, EntityID.colon_not_mem ha, EntityID.colon_not_mem hb, ha, hb⟩
    · exact TradingPairID.tryFrom_text (EntityID.lt_of_tryFrom ha) (EntityID.lt_of_tryFrom hb)

/-- The pair of the first two ids of a game. -/
theorem ids_roundtrip_first :
    TradingPairID.text ⟨0xc0de0001, 0xc0de0002⟩ = "c0de0001:c0de0002" ∧
    TradingPairID.tryFrom (TradingPairID.text ⟨0xc0de0001, 0xc0de0002⟩) =
      .ok ⟨0xc0de0001, 0xc0de0002⟩ :=
  ⟨by decide +kernel, ids_roundtrip.1 ⟨0xc0de0001, 0xc0de0002⟩ (by decide) (by decide)⟩

/-- A sign, leading zeros and upper case are accepted, and not written. -/
example : TradingPairID.tryFrom "+00C0DE0001:2" = .ok ⟨0xc0de0001, 2⟩ :=
  TradingPairID.tryFrom_eq_ok_iff.mpr
    ⟨"+00C0DE0001", "2", by decide +kernel, by decide +kernel, by decide +kernel⟩

end JudicaVM
