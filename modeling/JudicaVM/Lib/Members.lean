import Mathlib.Data.List.Destutter
import Mathlib.Data.List.Induction
import Mathlib.Data.List.Perm.Subperm
import Mathlib.Tactic.Common

/-!
# Members of lists

Several members of a list, and the orders in which they come first or last.
-/

namespace Members

theorem one_lt_countP {α : Type} {p : α → Bool} {l : List α} {a b : α} (ha : a ∈ l) (hb : b ∈ l)
    (hne : a ≠ b) (hpa : p a) (hpb : p b) : 1 < l.countP p := by
  induction l with
  | nil => cases ha
  | cons c l ih =>
    rw [List.countP_cons]
    by_cases hac : a = c
    · subst hac
      have hb' : b ∈ l := (List.mem_cons.mp hb).resolve_left (Ne.symm hne)
      have hpos : 0 < l.countP p := List.countP_pos_iff.mpr ⟨b, hb', hpb⟩
      simp only [hpa, if_true]
      omega
    · have ha' : a ∈ l := (List.mem_cons.mp ha).resolve_left hac
      by_cases hbc : b = c
      · subst hbc
        have hpos : 0 < l.countP p := List.countP_pos_iff.mpr ⟨a, ha', hpa⟩
        simp only [hpb, if_true]
        omega
      · have hb' : b ∈ l := (List.mem_cons.mp hb).resolve_left hbc
        exact Nat.lt_of_lt_of_le (ih ha' hb') (Nat.le_add_right _ _)

theorem exists_perm_append {α : Type} (l l' : List α) (hnodup : l.Nodup) (hsub : l ⊆ l') :
    ∃ t, l'.Perm (l ++ t) := by
  obtain ⟨l₁, hperm, hsublist⟩ := List.subperm_of_subset hnodup hsub
  obtain ⟨t, ht⟩ := hsublist.exists_perm_append
  exact ⟨t, ht.trans (hperm.append_right t)⟩

/-- A member of a list with different keys can be moved to its front. -/
theorem perm_cons_filter {α β : Type} [DecidableEq β] {f : α → β} {l : List α}
    (hnodup : (l.map f).Nodup) {a : α} (ha : a ∈ l) :
    (a :: l.filter fun b => f b ≠ f a).Perm l := by
  induction l with
  | nil => cases ha
  | cons b rest ih =>
    obtain ⟨hb, hrest⟩ := List.nodup_cons.mp hnodup
    by_cases heq : b = a
    · subst heq
      have hall : (rest.filter fun c => f c ≠ f b) = rest := by
        apply List.filter_eq_self.mpr
        intro c hc
        apply decide_eq_true
        intro hf
        exact hb (hf ▸ List.mem_map_of_mem hc)
      rw [List.filter_cons_of_neg (by simp), hall]
    · have hmem := (List.mem_cons.mp ha).resolve_left (Ne.symm heq)
      have hne : f b ≠ f a := fun hf => hb (hf ▸ List.mem_map_of_mem hmem)
      rw [List.filter_cons_of_pos (by simp [hne])]
      exact (List.Perm.swap _ _ _).trans ((ih hrest hmem).cons b)

/-- A list with the images of some members lists these members in its order. -/
theorem exists_map_of_perm {α β : Type} {f : α → β} {l : List β} {l' : List α}
    (h : l.Perm (l'.map f)) : ∃ l'' : List α, l''.Perm l' ∧ l = l''.map f := by
  generalize himage : l'.map f = image at h
  induction h generalizing l' with
  | nil =>
    obtain rfl := List.map_eq_nil_iff.mp himage
    exact ⟨[], .nil, rfl⟩
  | cons b _ ih =>
    obtain ⟨a, rest, rfl, rfl, hrest⟩ := List.map_eq_cons_iff.mp himage
    obtain ⟨l'', hperm, rfl⟩ := ih hrest
    exact ⟨a :: l'', hperm.cons a, rfl⟩
  | swap b b' _ =>
    obtain ⟨a, _, rfl, rfl, hrest⟩ := List.map_eq_cons_iff.mp himage
    obtain ⟨a', rest, rfl, rfl, rfl⟩ := List.map_eq_cons_iff.mp hrest
    exact ⟨a' :: a :: rest, .swap _ _ _, rfl⟩
  | trans _ _ ih ih' =>
    obtain ⟨l₁, hperm₁, rfl⟩ := ih' himage
    obtain ⟨l₂, hperm₂, rfl⟩ := ih rfl
    exact ⟨l₂, hperm₂.trans hperm₁, rfl⟩

theorem exists_last_two {α : Type} {l : List α} (h : 1 < l.length) :
    ∃ t a b, l = t ++ [a, b] := by
  induction l using List.reverseRecOn with
  | nil => simp at h
  | append_singleton l b _ =>
    induction l using List.reverseRecOn with
    | nil => simp at h
    | append_singleton t a _ => exact ⟨t, a, b, by simp⟩

theorem exists_ne_of_one_lt {α : Type} {l : List α} (hnodup : l.Nodup) (h : 1 < l.length) (a : α) :
    ∃ b ∈ l, b ≠ a := by
  obtain ⟨t, x, y, rfl⟩ := exists_last_two h
  have hxy : x ≠ y := by
    have hlast := (List.nodup_append.mp hnodup).2.1
    simpa using hlast
  by_cases hx : x = a
  · exact ⟨y, by simp, fun hy => hxy (hx.trans hy.symm)⟩
  · exact ⟨x, by simp, hx⟩

theorem nodup_destutter {α : Type} [PartialOrder α] [DecidableEq α] {l : List α}
    (h : l.Pairwise (· ≤ ·)) : (l.destutter (· ≠ ·)).Nodup := by
  have hne : (l.destutter (· ≠ ·)).IsChain (· ≠ ·) := l.isChain_destutter _
  have hle := (h.sublist (l.destutter_sublist (· ≠ ·))).isChain
  have hlt : (l.destutter (· ≠ ·)).IsChain (· < ·) := by
    rw [List.isChain_iff_getElem] at *
    exact fun i hi => (hle i hi).lt_of_ne (hne i hi)
  exact hlt.pairwise.imp fun h => h.ne

theorem mem_destutter'_ne {α : Type} [DecidableEq α] {l : List α} {a b : α} :
    a ∈ l.destutter' (· ≠ ·) b ↔ a = b ∨ a ∈ l := by
  induction l generalizing b with
  | nil => simp
  | cons c l ih =>
    rw [List.destutter'_cons]
    split
    · simp [ih]
    · rename_i hbc
      simp [ih, not_not.mp hbc]

theorem mem_destutter_ne {α : Type} [DecidableEq α] {l : List α} {a : α} :
    a ∈ l.destutter (· ≠ ·) ↔ a ∈ l := by
  cases l with
  | nil => simp
  | cons b rest => rw [List.destutter_cons', mem_destutter'_ne, List.mem_cons]

theorem mapM_eq_some_iff {α β : Type} {f : α → Option β} {l : List α} {l' : List β} :
    l.mapM f = some l' ↔ (∀ a ∈ l, (f a).isSome) ∧ l' = l.filterMap f := by
  induction l generalizing l' with
  | nil =>
    show some [] = some l' ↔ _
    rw [Option.some.injEq, @eq_comm _ [] l']
    simp
  | cons a l ih =>
    rw [List.mapM_cons, List.filterMap_cons, List.forall_mem_cons]
    cases f a with
    | none => simp
    | some b =>
      rw [Option.bind_eq_bind, Option.bind_some, Option.bind_eq_bind, Option.bind_eq_some_iff]
      constructor
      · intro h
        obtain ⟨rest, hrest, h⟩ := h
        obtain rfl := Option.some.inj h
        obtain ⟨hall, rfl⟩ := ih.mp hrest
        exact ⟨⟨rfl, hall⟩, rfl⟩
      · intro h
        obtain ⟨hall, rfl⟩ := h
        exact ⟨_, ih.mpr ⟨hall.2, rfl⟩, rfl⟩

section

variable {α β : Type} {f : α → β} {a b : List α}

theorem prefix_of_map (h : a.map f <+: b.map f) (hinj : ∀ x ∈ a, ∀ y ∈ b, f x = f y → x = y) :
    a <+: b := by
  induction a generalizing b with
  | nil => exact List.nil_prefix
  | cons x a ih =>
    cases b with
    | nil => exact absurd h (by simp)
    | cons y b =>
      rw [List.map_cons, List.map_cons, List.cons_prefix_cons] at h
      rw [hinj x List.mem_cons_self y List.mem_cons_self h.1, List.cons_prefix_cons]
      refine ⟨rfl, ih h.2 ?_⟩
      intro x' hx' y' hy'
      exact hinj x' (List.mem_cons_of_mem _ hx') y' (List.mem_cons_of_mem _ hy')

/-- Lists whose keys are in one order are in one order when the keys identify their elements. -/
theorem prefix_or_prefix_of_map {l : List β} (ha : a.map f <+: l) (hb : b.map f <+: l)
    (hinj : ∀ x ∈ a, ∀ y ∈ b, f x = f y → x = y) : a <+: b ∨ b <+: a := by
  obtain hab | hba := List.prefix_or_prefix_of_prefix ha hb
  · exact .inl (prefix_of_map hab hinj)
  · exact .inr (prefix_of_map hba fun y hy x hx heq => (hinj x hx y hy heq.symm).symm)

end

end Members
