import JudicaVM.Lib.Json

/-!
# JSON values with numbers of arbitrary precision

Numbers of arbitrary precision are passed on as an object with one entry, under a private name, that
holds their text. A value is read from a tree accordingly: an object that begins with the private name
is a number or an error, wherever it comes from. Negative zero is read as the integer 0.
-/

namespace Serde.Json

/-- The name under which a number is passed on. -/
def numberToken : String := "$serde_json::private::Number"

/-- Some digits, and what follows. -/
def scanDigits (l : List Char) : Option (List Char × List Char) :=
  let (digits, rest) := l.span Char.isDigit
  if digits = [] then none else some (digits, rest)

/-- The digits of an integer, without leading zeros, and what follows. -/
def scanInteger (l : List Char) : Option (List Char × List Char) :=
  (scanDigits l).filter fun x => x.1.head? ≠ some '0' || x.1 = ['0']

/-- The end of a number after its exponent sign. -/
def scanExponent : List Char → Bool
  | '+' :: rest | '-' :: rest => (scanDigits rest).any (·.2 = [])
  | l => (scanDigits l).any (·.2 = [])

/-- The end of a number after its integer: a fraction, an exponent, or both. -/
def scanNumber : List Char → Bool
  | '.' :: rest => (scanDigits rest).any fun (_, rest) =>
    match rest with
    | [] => true
    | e :: rest => (e = 'e' || e = 'E') && scanExponent rest
  | e :: rest => (e = 'e' || e = 'E') && scanExponent rest
  | [] => false

def ofDigits (digits : List Char) : ℕ :=
  digits.foldl (fun n c => 10 * n + (c.toNat - '0'.toNat)) 0

/-- The number that a text is. -/
def numberFromStr (s : String) : Option Json :=
  let (negative, l) := match s.toList with
    | '-' :: rest => (true, rest)
    | l => (false, l)
  (scanInteger l).bind fun (digits, rest) =>
    if rest = [] then some (.int (if negative then -ofDigits digits else ofDigits digits))
    else if scanNumber rest then some (.float s) else none

/-- The number that an object with the private name stands for. -/
def privateNumber : List (String × Json) → Option Json
  | [(_, .str s)] => numberFromStr s
  | _ => none

mutual

/-- The value that is read from a tree. -/
def readValue : Json → Option Json
  | .float text => some (if text = "-0" then .int 0 else .float text)
  | .arr elements => (readValues elements).map .arr
  | .obj fields =>
    if fields.head?.any (·.1 = numberToken) then privateNumber fields
    else (readFields fields).map .obj
  | j => some j

def readValues : List Json → Option (List Json)
  | [] => some []
  | j :: rest => (readValue j).bind fun v => (readValues rest).map (v :: ·)

def readFields : List (String × Json) → Option (List (String × Json))
  | [] => some []
  | (k, j) :: rest => (readValue j).bind fun v => (readFields rest).map ((k, v) :: ·)

end

/-- The canonical form of the value that is read from a tree. -/
def readCanonical (j : Json) : Option Json := j.readValue.bind toCanonical

example : (obj [(numberToken, .str "-7")]).readCanonical = some (.int (-7)) := by
  decide +kernel

example : (obj [("a", .null), (numberToken, .str "-7")]).readCanonical.bind readCanonical = none := by
  decide +kernel

variable {j v c : Json} {elements values : List Json} {fields : List (String × Json)}

theorem exists_of_readCanonical (h : j.readCanonical = some c) :
    ∃ v, j.readValue = some v ∧ v.toCanonical = some c :=
  Option.bind_eq_some_iff.mp h

theorem isCanonical_of_readCanonical (h : j.readCanonical = some c) : c.isCanonical := by
  obtain ⟨v, _, hv⟩ := exists_of_readCanonical h
  exact isCanonical_of_toCanonical hv

mutual

/-- Every object with an entry has one under another name than that of numbers. -/
def Mixed : Json → Prop
  | .arr elements => AllMixed elements
  | .obj fields => (fields ≠ [] → ∃ f ∈ fields, f.1 ≠ numberToken) ∧ FieldsMixed fields
  | _ => True

def AllMixed : List Json → Prop
  | [] => True
  | j :: rest => Mixed j ∧ AllMixed rest

def FieldsMixed : List (String × Json) → Prop
  | [] => True
  | (_, j) :: rest => Mixed j ∧ FieldsMixed rest

end

theorem fieldsMixed_iff : FieldsMixed fields ↔ ∀ f ∈ fields, f.2.Mixed := by
  induction fields with
  | nil => simp [FieldsMixed]
  | cons f rest ih => simp [FieldsMixed, ih]

theorem mixed_numberFromStr {s : String} (h : numberFromStr s = some v) : v.Mixed := by
  obtain ⟨x, _, h⟩ := Option.bind_eq_some_iff.mp h
  dsimp only at h
  split_ifs at h
  all_goals
    obtain rfl := Option.some.inj h
    trivial

theorem readFields_names {fields' : List (String × Json)} (h : readFields fields = some fields') :
    fields'.map Prod.fst = fields.map Prod.fst := by
  induction fields generalizing fields' with
  | nil =>
    cases h
    rfl
  | cons f rest ih =>
    obtain ⟨v, _, h⟩ := Option.bind_eq_some_iff.mp h
    obtain ⟨rest', hrest, rfl⟩ := Option.map_eq_some_iff.mp h
    simp [ih hrest]

mutual

theorem mixed_readValue (j : Json) {v : Json} (h : j.readValue = some v) : v.Mixed := by
  cases j with
  | arr elements =>
    obtain ⟨values, hvalues, rfl⟩ := Option.map_eq_some_iff.mp h
    exact mixed_readValues elements hvalues
  | obj fields =>
    rw [readValue] at h
    split_ifs at h with htoken
    · unfold privateNumber at h
      split at h
      · exact mixed_numberFromStr h
      · cases h
    · obtain ⟨fields', hfields, rfl⟩ := Option.map_eq_some_iff.mp h
      refine ⟨fun _ => ?_, mixed_readFields fields hfields⟩
      have hnames := readFields_names hfields
      cases fields with
      | nil =>
        cases hfields
        contradiction
      | cons f rest =>
        cases fields' with
        | nil => cases hnames
        | cons f' rest' =>
          have hname : f'.1 = f.1 := (List.cons.inj hnames).1
          exact ⟨f', List.mem_cons_self, by simpa [hname] using htoken⟩
  | float text =>
    cases h
    split_ifs <;> trivial
  | null | bool _ | int _ | str _ =>
    cases h
    trivial

theorem mixed_readValues (elements : List Json) {values : List Json}
    (h : readValues elements = some values) : AllMixed values := by
  cases elements with
  | nil =>
    cases h
    trivial
  | cons j rest =>
    obtain ⟨v, hv, h⟩ := Option.bind_eq_some_iff.mp h
    obtain ⟨rest', hrest, rfl⟩ := Option.map_eq_some_iff.mp h
    exact ⟨mixed_readValue j hv, mixed_readValues rest hrest⟩

theorem mixed_readFields (fields : List (String × Json)) {fields' : List (String × Json)}
    (h : readFields fields = some fields') : FieldsMixed fields' := by
  cases fields with
  | nil =>
    cases h
    trivial
  | cons f rest =>
    obtain ⟨v, hv, h⟩ := Option.bind_eq_some_iff.mp h
    obtain ⟨rest', hrest, rfl⟩ := Option.map_eq_some_iff.mp h
    exact ⟨mixed_readValue f.2 hv, mixed_readFields rest hrest⟩

end

theorem mem_names_keepLast {k : String} :
    k ∈ (keepLast fields).map Prod.fst ↔ k ∈ fields.map Prod.fst := by
  induction fields with
  | nil => rfl
  | cons f rest ih =>
    rw [keepLast]
    split
    · rename_i hmem
      rw [ih, List.map_cons, List.mem_cons]
      exact ⟨.inr, fun h => h.elim (fun heq => heq ▸ hmem) id⟩
    · rw [List.map_cons, List.map_cons, List.mem_cons, List.mem_cons, ih]

mutual

theorem mixed_normalize (j : Json) (h : j.Mixed) : j.normalize.Mixed := by
  cases j with
  | arr elements => exact mixed_normalizeAll elements h
  | obj fields =>
    have hfields := fieldsMixed_iff.mp (mixed_normalizeFields fields h.2)
    rw [normalize]
    refine ⟨fun hne => ?_, fieldsMixed_iff.mpr fun f hf => ?_⟩
    · have hne' : fields ≠ [] := by
        rintro rfl
        exact hne rfl
      obtain ⟨f, hf, hname⟩ := h.1 hne'
      have hnames : f.1 ∈ (keepLast (normalizeFields fields)).map Prod.fst := by
        rw [mem_names_keepLast, normalizeFields_eq, List.map_map]
        exact List.mem_map_of_mem hf
      obtain ⟨f', hf', heq⟩ := List.mem_map.mp hnames
      exact ⟨f', mem_sortFields.mpr hf', heq ▸ hname⟩
    · exact hfields f (keepLast_sublist.subset (mem_sortFields.mp hf))
  | null | bool _ | int _ | float _ | str _ => exact h

theorem mixed_normalizeAll (elements : List Json) (h : AllMixed elements) :
    AllMixed (normalizeAll elements) := by
  cases elements with
  | nil => trivial
  | cons j rest => exact ⟨mixed_normalize j h.1, mixed_normalizeAll rest h.2⟩

theorem mixed_normalizeFields (fields : List (String × Json)) (h : FieldsMixed fields) :
    FieldsMixed (normalizeFields fields) := by
  cases fields with
  | nil => trivial
  | cons f rest => exact ⟨mixed_normalize f.2 h.1, mixed_normalizeFields rest h.2⟩

end

theorem mixed_of_readCanonical (h : j.readCanonical = some c) : c.Mixed := by
  obtain ⟨v, hv, h⟩ := exists_of_readCanonical h
  unfold toCanonical at h
  split_ifs at h
  obtain rfl := Option.some.inj h
  exact mixed_normalize v (mixed_readValue j hv)

mutual

theorem readValue_eq (j : Json) (hmixed : j.Mixed) (hc : j.isCanonical) {v : Json}
    (h : j.readValue = some v) : v = j := by
  cases j with
  | arr elements =>
    obtain ⟨values, hvalues, rfl⟩ := Option.map_eq_some_iff.mp h
    rw [readValues_eq elements hmixed hc hvalues]
  | obj fields =>
    rw [readValue] at h
    split_ifs at h with htoken
    · unfold privateNumber at h
      split at h
      · obtain ⟨f, hf, hname⟩ := hmixed.1 (List.cons_ne_nil _ _)
        rw [List.mem_singleton.mp hf] at hname
        exact absurd (by simpa using htoken) hname
      · cases h
    · obtain ⟨fields', hfields, rfl⟩ := Option.map_eq_some_iff.mp h
      rw [readFields_eq fields hmixed.2 hc hfields]
  | float text => cases hc
  | null | bool _ | int _ | str _ =>
    cases h
    rfl

theorem readValues_eq (elements : List Json) (hmixed : AllMixed elements)
    (hc : areCanonical elements) {values : List Json} (h : readValues elements = some values) :
    values = elements := by
  cases elements with
  | nil =>
    cases h
    rfl
  | cons j rest =>
    rw [areCanonical, Bool.and_eq_true] at hc
    obtain ⟨v, hv, h⟩ := Option.bind_eq_some_iff.mp h
    obtain ⟨rest', hrest, rfl⟩ := Option.map_eq_some_iff.mp h
    rw [readValue_eq j hmixed.1 hc.1 hv, readValues_eq rest hmixed.2 hc.2 hrest]

theorem readFields_eq (fields : List (String × Json)) (hmixed : FieldsMixed fields)
    (hc : fieldsCanonical fields) {fields' : List (String × Json)}
    (h : readFields fields = some fields') : fields' = fields := by
  cases fields with
  | nil =>
    cases h
    rfl
  | cons f rest =>
    rw [fieldsCanonical, Bool.and_eq_true] at hc
    obtain ⟨v, hv, h⟩ := Option.bind_eq_some_iff.mp h
    obtain ⟨rest', hrest, rfl⟩ := Option.map_eq_some_iff.mp h
    rw [readValue_eq f.2 hmixed.1 hc.1 hv, readFields_eq rest hmixed.2 hc.2 hrest]

end

theorem depth_numberFromStr {s : String} (h : numberFromStr s = some v) : v.depth = 0 := by
  obtain ⟨x, _, h⟩ := Option.bind_eq_some_iff.mp h
  dsimp only at h
  split_ifs at h
  all_goals
    obtain rfl := Option.some.inj h
    rfl

mutual

theorem depth_readValue_le (j : Json) {v : Json} (h : j.readValue = some v) : v.depth ≤ j.depth := by
  cases j with
  | arr elements =>
    obtain ⟨values, hvalues, rfl⟩ := Option.map_eq_some_iff.mp h
    exact Nat.succ_le_succ (depths_readValues_le elements hvalues)
  | obj fields =>
    rw [readValue] at h
    split_ifs at h
    · unfold privateNumber at h
      split at h
      · rw [depth_numberFromStr h]
        exact Nat.zero_le _
      · cases h
    · obtain ⟨fields', hfields, rfl⟩ := Option.map_eq_some_iff.mp h
      exact Nat.succ_le_succ (fieldDepths_readFields_le fields hfields)
  | float text =>
    cases h
    split_ifs <;> exact Nat.le_refl _
  | null | bool _ | int _ | str _ =>
    cases h
    exact Nat.le_refl _

theorem depths_readValues_le (elements : List Json) {values : List Json}
    (h : readValues elements = some values) : depths values ≤ depths elements := by
  cases elements with
  | nil =>
    cases h
    exact Nat.le_refl _
  | cons j rest =>
    obtain ⟨v, hv, h⟩ := Option.bind_eq_some_iff.mp h
    obtain ⟨rest', hrest, rfl⟩ := Option.map_eq_some_iff.mp h
    exact max_le_max (depth_readValue_le j hv) (depths_readValues_le rest hrest)

theorem fieldDepths_readFields_le (fields : List (String × Json)) {fields' : List (String × Json)}
    (h : readFields fields = some fields') : fieldDepths fields' ≤ fieldDepths fields := by
  cases fields with
  | nil =>
    cases h
    exact Nat.le_refl _
  | cons f rest =>
    obtain ⟨v, hv, h⟩ := Option.bind_eq_some_iff.mp h
    obtain ⟨rest', hrest, rfl⟩ := Option.map_eq_some_iff.mp h
    exact max_le_max (depth_readValue_le f.2 hv) (fieldDepths_readFields_le rest hrest)

end

end Serde.Json
