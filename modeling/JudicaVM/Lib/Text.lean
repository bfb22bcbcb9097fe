import JudicaVM.Lib.Normal
import Mathlib.Data.String.Basic

/-!
# Separated texts and numbers as text

A text is split at every separator. A number in hexadecimal digits may have a sign and leading zeros,
and its digits in either case; it is read digit by digit, until one is none or the number overflows.
-/

namespace Serde

open String

/-- The loop of `splitOn` behind the pieces `acc`, with `l` split and `m` of the next piece read. -/
theorem splitOnAux_char (c : Char) (l m r : List Char) (acc : List String) :
    splitOnAux (ofList (l ++ m ++ r)) (ofList [c]) ⟨utf8Len l⟩ ⟨utf8Len l + utf8Len m⟩ 0 acc =
      acc.reverse ++ (List.splitOnPPrepend (· == c) r m.reverse).map ofList := by
  have hposition : utf8Len (l ++ m) = utf8Len l + utf8Len m := utf8Len_append l m
  induction r generalizing l m acc with
  | nil =>
    have hend : Pos.Raw.atEnd (ofList (l ++ m ++ [])) ⟨utf8Len l + utf8Len m⟩ = true := by
      rw [← hposition]
      exact (atEnd_of_valid (l ++ m) []).mpr rfl
    rw [splitOnAux, if_pos hend, extract_of_valid l m []]
    simp
  | cons a r ih =>
    have hend : ¬Pos.Raw.atEnd (ofList (l ++ m ++ a :: r)) ⟨utf8Len l + utf8Len m⟩ = true := by
      rw [← hposition, atEnd_of_valid]
      exact List.cons_ne_nil a r
    have hget : Pos.Raw.get (ofList (l ++ m ++ a :: r)) ⟨utf8Len l + utf8Len m⟩ = a := by
      rw [← hposition]
      exact get_of_valid (l ++ m) (a :: r)
    have hnext : Pos.Raw.next (ofList (l ++ m ++ a :: r)) ⟨utf8Len l + utf8Len m⟩ =
        ⟨utf8Len l + utf8Len m + a.utf8Size⟩ := by
      rw [← hposition]
      exact next_of_valid (l ++ m) a r
    have hseparator : Pos.Raw.get (ofList [c]) 0 = c := get_of_valid [] [c]
    have hseparatorNext : Pos.Raw.next (ofList [c]) 0 = ⟨c.utf8Size⟩ := by
      have h := next_of_valid [] c []
      rw [utf8Len_nil, Nat.zero_add] at h
      exact h
    have hseparatorEnd : Pos.Raw.atEnd (ofList [c]) ⟨c.utf8Size⟩ = true := by
      have h := (atEnd_of_valid [c] []).mpr rfl
      simpa using h
    rw [splitOnAux, if_neg hend, hget, hseparator]
    by_cases hac : a = c
    · subst hac
      rw [if_pos (beq_self_eq_true a)]
      simp only [hnext, hseparatorNext, hseparatorEnd, if_true]
      have hback : (⟨utf8Len l + utf8Len m + a.utf8Size⟩ : Pos.Raw).unoffsetBy ⟨a.utf8Size⟩ =
          ⟨utf8Len l + utf8Len m⟩ := by
        rw [Pos.Raw.unoffsetBy, Nat.add_sub_cancel]
      have hrest := ih (l ++ m ++ [a]) [] (ofList m :: acc) (by simp)
      have hstart : utf8Len (l ++ m ++ [a]) = utf8Len l + utf8Len m + a.utf8Size := by
        rw [utf8Len_append, hposition]
        simp
      rw [hstart] at hrest
      have hsplit : List.splitOnPPrepend (· == a) (a :: r) m.reverse =
          m.reverse.reverse :: List.splitOnP (· == a) r :=
        List.splitOnPPrepend_cons_pos (by simp)
      rw [hback, extract_of_valid l m (a :: r), hsplit]
      simpa using hrest
    · rw [if_neg (by simpa using hac)]
      have hback : (⟨utf8Len l + utf8Len m⟩ : Pos.Raw).unoffsetBy 0 = ⟨utf8Len l + utf8Len m⟩ := rfl
      have hrest := ih l (m ++ [a]) acc (by simp)
      have hstop : utf8Len l + utf8Len (m ++ [a]) = utf8Len l + utf8Len m + a.utf8Size := by
        rw [utf8Len_append]
        simp [Nat.add_assoc]
      rw [hstop] at hrest
      rw [hback, hnext, List.splitOnPPrepend_cons_neg (by simpa using hac)]
      simpa using hrest

theorem splitOn_singleton (c : Char) (s : String) :
    s.splitOn (ofList [c]) = (s.toList.splitOn c).map ofList := by
  have hne : ¬(ofList [c] == "") = true := by
    simp [← toList_inj]
  have hrest := splitOnAux_char c [] [] s.toList []
  rw [splitOn, if_neg hne, List.splitOn_eq_splitOnP, ← List.splitOnPPrepend_nil_right]
  simpa using hrest

theorem not_mem_of_mem_splitOn {α : Type} [BEq α] [LawfulBEq α] {a : α} {l piece : List α}
    (h : piece ∈ l.splitOn a) : a ∉ piece := by
  induction l generalizing piece with
  | nil =>
    rw [List.splitOn_nil, List.mem_singleton] at h
    rw [h]
    exact List.not_mem_nil
  | cons x l ih =>
    rw [List.splitOn_cons_eq_if_modifyHead] at h
    split_ifs at h with hx
    · apply (List.mem_cons.mp h).elim
      · intro hempty
        rw [hempty]
        exact List.not_mem_nil
      · exact ih
    · cases hrest : l.splitOn a with
      | nil => exact absurd hrest (List.splitOn_ne_nil a l)
      | cons first rest =>
        rw [hrest] at h ih
        apply (List.mem_cons.mp h).elim
        · intro hfirst
          rw [hfirst, List.mem_cons, not_or]
          exact ⟨fun heq => hx (by simp [heq]), ih List.mem_cons_self⟩
        · intro hrest
          exact ih (List.mem_cons_of_mem _ hrest)

theorem splitOn_eq_pair_iff {α : Type} [BEq α] [LawfulBEq α] {a : α} {l first second : List α} :
    l.splitOn a = [first, second] ↔ l = first ++ a :: second ∧ a ∉ first ∧ a ∉ second := by
  constructor
  · intro h
    have hjoined : [a].intercalate (l.splitOn a) = l := List.intercalate_splitOn a
    rw [h] at hjoined
    refine ⟨by simpa [List.intercalate] using hjoined.symm, ?_, ?_⟩
    · apply not_mem_of_mem_splitOn (l := l)
      rw [h]
      exact List.mem_cons_self
    · apply not_mem_of_mem_splitOn (l := l)
      rw [h]
      exact List.mem_cons_of_mem _ (List.mem_singleton_self _)
  · intro h
    obtain ⟨rfl, hfirst, hsecond⟩ := h
    rw [List.splitOn_append_cons_self_of_not_mem hfirst, List.splitOn_eq_singleton hsecond]

variable {l : List Char} {n m width : ℕ}

inductive IntErrorKind
  | empty
  | invalidDigit
  | posOverflow
  deriving DecidableEq, Repr

/-- The digits behind a number, which must not overflow. -/
def accumulate (width : ℕ) : List Char → ℕ → Except IntErrorKind ℕ
  | [], n => .ok n
  | c :: rest, n =>
    match hexDigit c with
    | none => .error .invalidDigit
    | some d =>
      if 16 * n + d < 2 ^ width then accumulate width rest (16 * n + d) else .error .posOverflow

/-- `from_str_radix` for an unsigned type, with the radix 16. -/
def fromStrRadix (width : ℕ) (src : String) : Except IntErrorKind ℕ :=
  match src.toList with
  | [] => .error .empty
  | ['+'] => .error .invalidDigit
  | ['-'] => .error .invalidDigit
  | '+' :: digits => accumulate width digits 0
  | digits => accumulate width digits 0

theorem le_of_digits {l : List Char}
    (h : l.foldlM (fun n c => (hexDigit c).map (16 * n + ·)) n = some m) : n ≤ m := by
  induction l generalizing n with
  | nil =>
    obtain rfl := Option.some.inj h
    exact le_refl n
  | cons c l ih =>
    rw [List.foldlM_cons] at h
    obtain ⟨next, hnext, h⟩ := Option.bind_eq_some_iff.mp h
    obtain ⟨d, _, rfl⟩ := Option.map_eq_some_iff.mp hnext
    have hle := ih h
    omega

/-- The digits are read as their number, if it has the width. -/
theorem accumulate_eq_ok_iff (hn : n < 2 ^ width) : accumulate width l n = .ok m ↔
    l.foldlM (fun n c => (hexDigit c).map (16 * n + ·)) n = some m ∧ m < 2 ^ width := by
  induction l generalizing n with
  | nil =>
    show Except.ok n = .ok m ↔ some n = some m ∧ m < 2 ^ width
    rw [Except.ok.injEq, Option.some.injEq]
    constructor
    · intro h
      exact ⟨h, h ▸ hn⟩
    · intro h
      exact h.1
  | cons c l ih =>
    rw [List.foldlM_cons, accumulate]
    cases hexDigit c with
    | none => simp
    | some d =>
      show (if 16 * n + d < 2 ^ width then accumulate width l (16 * n + d)
        else .error .posOverflow) = .ok m ↔
          l.foldlM (fun n c => (hexDigit c).map (16 * n + ·)) (16 * n + d) = some m ∧ m < 2 ^ width
      by_cases hlt : 16 * n + d < 2 ^ width
      · rw [if_pos hlt, ih hlt]
      · rw [if_neg hlt]
        constructor
        · intro h
          cases h
        · intro h
          have hle := le_of_digits h.1
          omega

theorem mem_hexDigit_of_ofHexDigits {c : Char} (h : ofHexDigits l = some n) (hc : c ∈ l) :
    (hexDigit c).isSome := by
  have hall (l : List Char) (k : ℕ)
      (hl : l.foldlM (fun n c => (hexDigit c).map (16 * n + ·)) k = some n) (hc : c ∈ l) :
      (hexDigit c).isSome := by
    induction l generalizing k with
    | nil => cases hc
    | cons x l ih =>
      rw [List.foldlM_cons] at hl
      obtain ⟨next, hnext, hl⟩ := Option.bind_eq_some_iff.mp hl
      obtain ⟨d, hd, rfl⟩ := Option.map_eq_some_iff.mp hnext
      apply (List.mem_cons.mp hc).elim
      · intro heq
        rw [heq, hd]
        rfl
      · exact ih _ hl
  exact hall l 0 h hc

theorem fromStrRadix_toDigits (hn : n < 2 ^ width) :
    fromStrRadix width (String.ofList (Nat.toDigits 16 n)) = .ok n := by
  have hread := ofHexDigits_toDigits n
  have hplus (rest : List Char) : Nat.toDigits 16 n ≠ '+' :: rest := by
    intro h
    have hdigit := mem_hexDigit_of_ofHexDigits hread (h ▸ List.mem_cons_self)
    cases hdigit
  have hminus : Nat.toDigits 16 n ≠ ['-'] := by
    intro h
    have hdigit := mem_hexDigit_of_ofHexDigits hread (h ▸ List.mem_cons_self)
    cases hdigit
  unfold fromStrRadix
  rw [String.toList_ofList]
  split
  · rename_i h
    exact absurd h Nat.toDigits_ne_nil
  · rename_i h
    exact absurd h (hplus [])
  · rename_i h
    exact absurd h hminus
  · rename_i h
    exact absurd h (hplus _)
  · exact (accumulate_eq_ok_iff (Nat.two_pow_pos width)).mpr ⟨hread, hn⟩

end Serde
