import Mathlib.Algebra.Group.Int.Defs
import Mathlib.Algebra.Group.Nat.Defs
import Mathlib.Data.List.Sort
import Mathlib.Data.String.Basic

/-!
# JSON trees

Trees as they are written, with repeated names and with numbers that are not integers, and their
canonical form: the last entry of a name counts, names are sorted, and the numbers are integers
between -(2^53-1) and 2^53-1.
-/

namespace Serde

/-- A number that no integer type reads (with a fraction, with an exponent, or negative zero) keeps
its text. -/
inductive Json
  | null
  | bool (b : Bool)
  | int (i : ℤ)
  | float (text : String)
  | str (s : String)
  | arr (elements : List Json)
  | obj (fields : List (String × Json))

namespace Json

def maxSafe : ℤ := 2 ^ 53 - 1

/-- The integers that a canonical form may contain. -/
def Safe (i : ℤ) : Prop :=
  -maxSafe ≤ i ∧ i ≤ maxSafe

instance (i : ℤ) : Decidable (Safe i) :=
  inferInstanceAs (Decidable (_ ∧ _))

mutual

def isCanonical : Json → Bool
  | .null => true
  | .bool _ => true
  | .int i => Safe i
  | .float _ => false
  | .str _ => true
  | .arr elements => areCanonical elements
  | .obj fields => fieldsCanonical fields

def areCanonical : List Json → Bool
  | [] => true
  | j :: rest => isCanonical j && areCanonical rest

def fieldsCanonical : List (String × Json) → Bool
  | [] => true
  | (_, j) :: rest => isCanonical j && fieldsCanonical rest

end

mutual

/-- How deeply arrays and objects are nested. -/
def depth : Json → ℕ
  | .arr elements => depths elements + 1
  | .obj fields => fieldDepths fields + 1
  | _ => 0

def depths : List Json → ℕ
  | [] => 0
  | j :: rest => max (depth j) (depths rest)

def fieldDepths : List (String × Json) → ℕ
  | [] => 0
  | (_, j) :: rest => max (depth j) (fieldDepths rest)

end

/-- The last entry of every name. -/
def keepLast : List (String × Json) → List (String × Json)
  | [] => []
  | (k, j) :: rest => if k ∈ rest.map Prod.fst then keepLast rest else (k, j) :: keepLast rest

def sortFields (fields : List (String × Json)) : List (String × Json) :=
  fields.insertionSort fun a b => a.1 ≤ b.1

mutual

/-- The tree as a value: a map has one entry for a name. -/
def normalize : Json → Json
  | .arr elements => .arr (normalizeAll elements)
  | .obj fields => .obj (sortFields (keepLast (normalizeFields fields)))
  | j => j

def normalizeAll : List Json → List Json
  | [] => []
  | j :: rest => normalize j :: normalizeAll rest

def normalizeFields : List (String × Json) → List (String × Json)
  | [] => []
  | (k, j) :: rest => (k, normalize j) :: normalizeFields rest

end

def toCanonical (j : Json) : Option Json :=
  if j.normalize.isCanonical then some j.normalize else none

mutual

/-- No object has two entries of one name. -/
def WellKeyed : Json → Prop
  | .arr elements => AllWellKeyed elements
  | .obj fields => (fields.map Prod.fst).Nodup ∧ FieldsWellKeyed fields
  | _ => True

def AllWellKeyed : List Json → Prop
  | [] => True
  | j :: rest => WellKeyed j ∧ AllWellKeyed rest

def FieldsWellKeyed : List (String × Json) → Prop
  | [] => True
  | (_, j) :: rest => WellKeyed j ∧ FieldsWellKeyed rest

end

variable {j : Json} {elements : List Json} {fields : List (String × Json)} {k : String} {i : ℤ}

theorem areCanonical_iff : areCanonical elements ↔ ∀ j ∈ elements, j.isCanonical := by
  induction elements with
  | nil => simp [areCanonical]
  | cons j rest ih => simp [areCanonical, ih]

theorem fieldsCanonical_iff : fieldsCanonical fields ↔ ∀ f ∈ fields, f.2.isCanonical := by
  induction fields with
  | nil => simp [fieldsCanonical]
  | cons f rest ih => simp [fieldsCanonical, ih]

@[simp] theorem isCanonical_arr : (Json.arr elements).isCanonical ↔
    ∀ j ∈ elements, j.isCanonical := by
  rw [isCanonical, areCanonical_iff]

@[simp] theorem isCanonical_obj : (Json.obj fields).isCanonical ↔
    ∀ f ∈ fields, f.2.isCanonical := by
  rw [isCanonical, fieldsCanonical_iff]

@[simp] theorem isCanonical_int : (Json.int i).isCanonical ↔ Safe i := by
  simp [isCanonical]

@[simp] theorem isCanonical_str (s : String) : (Json.str s).isCanonical := by
  simp [isCanonical]

@[simp] theorem isCanonical_bool (b : Bool) : (Json.bool b).isCanonical := by
  simp [isCanonical]

@[simp] theorem isCanonical_null : Json.null.isCanonical := by
  simp [isCanonical]

theorem allWellKeyed_iff : AllWellKeyed elements ↔ ∀ j ∈ elements, j.WellKeyed := by
  induction elements with
  | nil => simp [AllWellKeyed]
  | cons j rest ih => simp [AllWellKeyed, ih]

theorem fieldsWellKeyed_iff : FieldsWellKeyed fields ↔ ∀ f ∈ fields, f.2.WellKeyed := by
  induction fields with
  | nil => simp [FieldsWellKeyed]
  | cons f rest ih => simp [FieldsWellKeyed, ih]

@[simp] theorem wellKeyed_arr : (Json.arr elements).WellKeyed ↔ ∀ j ∈ elements, j.WellKeyed := by
  rw [WellKeyed, allWellKeyed_iff]

@[simp] theorem wellKeyed_obj : (Json.obj fields).WellKeyed ↔
    (fields.map Prod.fst).Nodup ∧ ∀ f ∈ fields, f.2.WellKeyed := by
  rw [WellKeyed, fieldsWellKeyed_iff]

@[simp] theorem wellKeyed_int : (Json.int i).WellKeyed := trivial

@[simp] theorem wellKeyed_str (s : String) : (Json.str s).WellKeyed := trivial

@[simp] theorem wellKeyed_null : Json.null.WellKeyed := trivial

theorem keepLast_sublist : (keepLast fields).Sublist fields := by
  induction fields with
  | nil => exact List.Sublist.refl _
  | cons f rest ih =>
    rw [keepLast]
    split
    · exact ih.cons f
    · exact ih.cons_cons f

theorem keepLast_of_nodup (h : (fields.map Prod.fst).Nodup) : keepLast fields = fields := by
  induction fields with
  | nil => rfl
  | cons f rest ih =>
    obtain ⟨hnew, hrest⟩ := List.nodup_cons.mp h
    rw [keepLast, if_neg hnew, ih hrest]

theorem mem_sortFields {f : String × Json} : f ∈ sortFields fields ↔ f ∈ fields :=
  (List.perm_insertionSort _ _).mem_iff

theorem normalizeFields_eq :
    normalizeFields fields = fields.map fun f => (f.1, f.2.normalize) := by
  induction fields with
  | nil => rfl
  | cons f rest ih => rw [normalizeFields, ih]; rfl

theorem normalizeAll_eq : normalizeAll elements = elements.map normalize := by
  induction elements with
  | nil => rfl
  | cons j rest ih => rw [normalizeAll, ih]; rfl

mutual

theorem isCanonical_normalize (j : Json) (h : j.isCanonical) : j.normalize.isCanonical := by
  cases j with
  | arr elements =>
    rw [normalize, isCanonical]
    exact areCanonical_normalize elements h
  | obj fields =>
    have hfields := fieldsCanonical_iff.mp (fieldsCanonical_normalize fields h)
    rw [normalize, isCanonical_obj]
    intro f hf
    exact hfields f (keepLast_sublist.subset (mem_sortFields.mp hf))
  | null => exact h
  | bool b => exact h
  | int i => exact h
  | float text => exact h
  | str s => exact h

theorem areCanonical_normalize (elements : List Json) (h : areCanonical elements) :
    areCanonical (normalizeAll elements) := by
  cases elements with
  | nil => rfl
  | cons j rest =>
    rw [areCanonical, Bool.and_eq_true] at h
    rw [normalizeAll, areCanonical, Bool.and_eq_true]
    exact ⟨isCanonical_normalize j h.1, areCanonical_normalize rest h.2⟩

theorem fieldsCanonical_normalize (fields : List (String × Json)) (h : fieldsCanonical fields) :
    fieldsCanonical (normalizeFields fields) := by
  cases fields with
  | nil => rfl
  | cons f rest =>
    obtain ⟨k, j⟩ := f
    rw [fieldsCanonical, Bool.and_eq_true] at h
    rw [normalizeFields, fieldsCanonical, Bool.and_eq_true]
    exact ⟨isCanonical_normalize j h.1, fieldsCanonical_normalize rest h.2⟩

end

mutual

/-- Without repeated names the canonical form keeps every number. -/
theorem isCanonical_of_normalize (j : Json) (hj : j.WellKeyed) (h : j.normalize.isCanonical) :
    j.isCanonical := by
  cases j with
  | arr elements =>
    rw [normalize, isCanonical] at h
    exact areCanonical_of_normalize elements hj h
  | obj fields =>
    rw [normalize, isCanonical_obj] at h
    apply fieldsCanonical_of_normalize fields hj.2
    have hnodup : ((normalizeFields fields).map Prod.fst).Nodup := by
      rw [normalizeFields_eq, List.map_map]
      exact hj.1
    rw [keepLast_of_nodup hnodup] at h
    apply fieldsCanonical_iff.mpr
    intro f hf
    exact h f (mem_sortFields.mpr hf)
  | null => exact h
  | bool b => exact h
  | int i => exact h
  | float text => exact h
  | str s => exact h

theorem areCanonical_of_normalize (elements : List Json) (hj : AllWellKeyed elements)
    (h : areCanonical (normalizeAll elements)) : areCanonical elements := by
  cases elements with
  | nil => rfl
  | cons j rest =>
    rw [normalizeAll, areCanonical, Bool.and_eq_true] at h
    rw [areCanonical, Bool.and_eq_true]
    exact ⟨isCanonical_of_normalize j hj.1 h.1, areCanonical_of_normalize rest hj.2 h.2⟩

theorem fieldsCanonical_of_normalize (fields : List (String × Json)) (hj : FieldsWellKeyed fields)
    (h : fieldsCanonical (normalizeFields fields)) : fieldsCanonical fields := by
  cases fields with
  | nil => rfl
  | cons f rest =>
    obtain ⟨k, j⟩ := f
    rw [normalizeFields, fieldsCanonical, Bool.and_eq_true] at h
    rw [fieldsCanonical, Bool.and_eq_true]
    exact ⟨isCanonical_of_normalize j hj.1 h.1, fieldsCanonical_of_normalize rest hj.2 h.2⟩

end

theorem toCanonical_of_isCanonical (h : j.isCanonical) : j.toCanonical = some j.normalize :=
  if_pos (isCanonical_normalize j h)

theorem isCanonical_of_toCanonical {c : Json} (h : j.toCanonical = some c) : c.isCanonical := by
  unfold toCanonical at h
  split_ifs at h with hc
  rwa [← Option.some.inj h]

/-- A part of an object without repeated names must be canonical. -/
theorem isCanonical_of_field (hnodup : (fields.map Prod.fst).Nodup) {c : Json}
    (h : (Json.obj fields).toCanonical = some c) {f : String × Json} (hf : f ∈ fields)
    (hkeyed : f.2.WellKeyed) : f.2.isCanonical := by
  unfold toCanonical at h
  split_ifs at h with hc
  have hnodup' : ((normalizeFields fields).map Prod.fst).Nodup := by
    rw [normalizeFields_eq, List.map_map]
    exact hnodup
  rw [normalize, keepLast_of_nodup hnodup', isCanonical_obj] at hc
  apply isCanonical_of_normalize f.2 hkeyed
  apply hc (f.1, f.2.normalize)
  rw [mem_sortFields, normalizeFields_eq]
  exact List.mem_map_of_mem hf

mutual

def same : Json → Json → Bool
  | .null, .null => true
  | .bool a, .bool b => a = b
  | .int a, .int b => a = b
  | .float a, .float b => a = b
  | .str a, .str b => a = b
  | .arr a, .arr b => sameAll a b
  | .obj a, .obj b => sameFields a b
  | _, _ => false

def sameAll : List Json → List Json → Bool
  | [], [] => true
  | a :: as, b :: bs => same a b && sameAll as bs
  | _, _ => false

def sameFields : List (String × Json) → List (String × Json) → Bool
  | [], [] => true
  | (k, a) :: as, (k', b) :: bs => k = k' && same a b && sameFields as bs
  | _, _ => false

end

mutual

theorem same_iff (a b : Json) : same a b ↔ a = b := by
  cases a with
  | arr as => cases b <;> simp [same, sameAll_iff as]
  | obj as => cases b <;> simp [same, sameFields_iff as]
  | _ => cases b <;> simp [same]

theorem sameAll_iff (as bs : List Json) : sameAll as bs ↔ as = bs := by
  cases as with
  | nil => cases bs <;> simp [sameAll]
  | cons a as => cases bs <;> simp [sameAll, same_iff a, sameAll_iff as]

theorem sameFields_iff (as bs : List (String × Json)) : sameFields as bs ↔ as = bs := by
  cases as with
  | nil => cases bs <;> simp [sameFields]
  | cons a as =>
    cases bs with
    | nil => simp [sameFields]
    | cons b bs => simp [sameFields, same_iff a.2, sameFields_iff as, Prod.ext_iff]

end

instance : DecidableEq Json := fun a b =>
  decidable_of_iff (same a b) (same_iff a b)

end Json
end Serde
