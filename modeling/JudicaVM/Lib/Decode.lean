import JudicaVM.Lib.Json

/-!
# Decoders of JSON trees

Derived decoders of records and enumerations: a record is read from an object or from an array of
its fields, an enumeration from a name or from an object with one entry. What is decoded from a
canonical tree has canonical parts.
-/

namespace Serde

variable {α β : Type}

def decodeInt (lo hi : ℤ) : Json → Option ℤ
  | .int i => if lo ≤ i ∧ i ≤ hi then some i else none
  | _ => none

def decodeI64 : Json → Option ℤ :=
  decodeInt (-2 ^ 63) (2 ^ 63 - 1)

/-- An unsigned integer of a width. -/
def decodeUnsigned (width : ℕ) : Json → Option ℕ
  | .int i => if 0 ≤ i ∧ i < 2 ^ width then some i.toNat else none
  | _ => none

def decodeBool : Json → Option Bool
  | .bool b => some b
  | _ => none

def decodeString : Json → Option String
  | .str s => some s
  | _ => none

/-- A value that is written as a string. -/
def decodeFromStr (fromStr : String → Option α) (j : Json) : Option α :=
  (decodeString j).bind fromStr

def decodeOption (decode : Json → Option α) : Json → Option (Option α)
  | .null => some none
  | j => (decode j).map some

def decodeSeq (decode : Json → Option α) : Json → Option (List α)
  | .arr elements => elements.mapM decode
  | _ => none

def decodePair (decode : Json → Option α) (decode' : Json → Option β) : Json → Option (α × β)
  | .arr [j, j'] => (decode j).bind fun a => (decode' j').map fun b => (a, b)
  | _ => none

def decodeVector (n : ℕ) (decode : Json → Option α) (j : Json) : Option (Vector α n) :=
  (decodeSeq decode j).bind fun l =>
    if h : l.length = n then some ⟨l.toArray, by simpa using h⟩ else none

def encodeOption (encode : α → Json) : Option α → Json
  | none => .null
  | some a => encode a

def hexDigit (c : Char) : Option ℕ :=
  if '0' ≤ c ∧ c ≤ '9' then some (c.toNat - '0'.toNat)
  else if 'a' ≤ c ∧ c ≤ 'f' then some (c.toNat - 'a'.toNat + 10)
  else if 'A' ≤ c ∧ c ≤ 'F' then some (c.toNat - 'A'.toNat + 10)
  else none

def ofHexDigits (digits : List Char) : Option ℕ :=
  digits.foldlM (fun n c => (hexDigit c).map (16 * n + ·)) 0

/-- A number that is written with all of its digits. -/
def decodeHex (digits : ℕ) : Json → Option ℕ :=
  decodeFromStr fun s => if s.length = digits then ofHexDigits s.toList else none

def encodeHex (digits n : ℕ) : Json :=
  .str (String.ofList ((Nat.toDigits 16 n).leftpad digits '0'))

/-- An unsigned integer of a width, with an optional sign. -/
def fromStrRadix16 (width : ℕ) (s : String) : Option ℕ :=
  let digits := match s.toList with
    | '+' :: rest => rest
    | l => l
  if digits = [] then none
  else (ofHexDigits digits).filter fun n => n < 2 ^ width

/-- The value of a field with some names, the first of which it is written with, at an index.
Repeated fields are an error. -/
def member (names : List String) (index : ℕ) : Json → Option (Option Json)
  | .obj fields =>
    match fields.filter fun f => f.1 ∈ names with
    | [] => some none
    | [f] => some (some f.2)
    | _ => none
  | .arr elements => some elements[index]?
  | _ => none

/-- An array has no more elements than the record has fields. -/
def fits (size : ℕ) : Json → Bool
  | .obj _ => true
  | .arr elements => elements.length ≤ size
  | _ => false

def required (names : List String) (index : ℕ) (decode : Json → Option α) (j : Json) : Option α :=
  (member names index j).bind fun v => v.bind decode

/-- A field that may be absent, with a default value. -/
def defaulted (names : List String) (index : ℕ) (decode : Json → Option α) (default : α)
    (j : Json) : Option α :=
  (member names index j).bind fun v =>
    match v with
    | some v => decode v
    | none => some default

/-- An optional field without a default value, which may be absent from an object only. -/
def optional (names : List String) (index : ℕ) (decode : Json → Option α) (j : Json) :
    Option (Option α) :=
  (member names index j).bind fun v =>
    match v, j with
    | some v, _ => decodeOption decode v
    | none, .obj _ => some none
    | none, _ => none

/-- A record with a number of fields. -/
def record (size : ℕ) (decode : Json → Option α) (j : Json) : Option α :=
  if fits size j then decode j else none

/-- The name of a variant, and its content when it is written as an object. -/
def decodeVariant : Json → Option (String × Option Json)
  | .str s => some (s, none)
  | .obj [(k, j)] => some (k, some j)
  | _ => none

/-- An enumeration whose variants are read from their name and their content. -/
def enumeration (variant : String → Option Json → Option α) (j : Json) : Option α :=
  (decodeVariant j).bind fun x => variant x.1 x.2

/-- A variant without content. -/
def unitVariant (a : α) : Option Json → Option α
  | none => some a
  | some .null => some a
  | some _ => none

/-- A variant with one value. -/
def newtypeVariant (decode : Json → Option α) (v : Option Json) : Option α :=
  v.bind decode

/-- What a decoder returns for canonical trees satisfies a predicate. -/
def Yields (decode : Json → Option α) (P : α → Prop) : Prop :=
  ∀ j a, j.isCanonical → decode j = some a → P a

variable {decode : Json → Option α} {decode' : Json → Option β} {P : α → Prop} {Q : β → Prop}
  {names : List String} {index : ℕ} {j v : Json} {a : α}

theorem yields_decodeInt (lo hi : ℤ) : Yields (decodeInt lo hi) Json.Safe := by
  intro j i hj h
  cases j with
  | int i' =>
    change (if lo ≤ i' ∧ i' ≤ hi then some i' else none) = some i at h
    split_ifs at h
    obtain rfl := Option.some.inj h
    exact Json.isCanonical_int.mp hj
  | _ => cases h

theorem yields_decodeUnsigned (width : ℕ) :
    Yields (decodeUnsigned width) fun n => Json.Safe (n : ℤ) := by
  intro j n hj h
  cases j with
  | int i =>
    change (if 0 ≤ i ∧ i < 2 ^ width then some i.toNat else none) = some n at h
    split_ifs at h with hi
    obtain rfl := Option.some.inj h
    rw [Int.toNat_of_nonneg hi.1]
    exact Json.isCanonical_int.mp hj
  | _ => cases h

theorem yields_decodeOption (h : Yields decode P) :
    Yields (decodeOption decode) fun o => ∀ a ∈ o, P a := by
  intro j o hj ho a ha
  cases j with
  | null =>
    obtain rfl := Option.some.inj ho
    cases ha
  | _ =>
    obtain ⟨a', ha', rfl⟩ := Option.map_eq_some_iff.mp ho
    obtain rfl := Option.some.inj ha
    exact h _ _ hj ha'

theorem yields_decodePair (h : Yields decode P) (h' : Yields decode' Q) :
    Yields (decodePair decode decode') fun x => P x.1 ∧ Q x.2 := by
  intro j x hj hx
  unfold decodePair at hx
  split at hx
  · rw [Json.isCanonical_arr] at hj
    obtain ⟨a, ha, hmap⟩ := Option.bind_eq_some_iff.mp hx
    obtain ⟨b, hb, rfl⟩ := Option.map_eq_some_iff.mp hmap
    exact ⟨h _ _ (hj _ List.mem_cons_self) ha,
      h' _ _ (hj _ (List.mem_cons_of_mem _ List.mem_cons_self)) hb⟩
  · cases hx

theorem member_isCanonical (hj : j.isCanonical) (h : member names index j = some (some v)) :
    v.isCanonical := by
  unfold member at h
  split at h
  · rename_i fields
    split at h
    · cases h
    · rename_i f hfilter
      have hmem : f ∈ fields := by
        apply List.mem_of_mem_filter (p := fun f => decide (f.1 ∈ names))
        rw [hfilter]
        exact List.mem_singleton.mpr rfl
      rw [← Option.some.inj (Option.some.inj h)]
      exact Json.isCanonical_obj.mp hj f hmem
    · cases h
  · exact Json.isCanonical_arr.mp hj v (List.mem_of_getElem? (Option.some.inj h))
  · cases h

theorem yields_required (h : Yields decode P) : Yields (required names index decode) P := by
  intro j a hj ha
  obtain ⟨o, ho, ha⟩ := Option.bind_eq_some_iff.mp ha
  obtain ⟨v, rfl, ha⟩ := Option.bind_eq_some_iff.mp ha
  exact h v a (member_isCanonical hj ho) ha

theorem yields_defaulted (h : Yields decode P) {default : α} (hdefault : P default) :
    Yields (defaulted names index decode default) P := by
  intro j a hj ha
  obtain ⟨o, ho, ha⟩ := Option.bind_eq_some_iff.mp ha
  cases o with
  | none =>
    obtain rfl := Option.some.inj ha
    exact hdefault
  | some v => exact h v a (member_isCanonical hj ho) ha

theorem variant_isCanonical {name : String} (hj : j.isCanonical)
    (h : decodeVariant j = some (name, some v)) : v.isCanonical := by
  unfold decodeVariant at h
  split at h
  · cases h
  · obtain ⟨rfl, hv⟩ := Prod.mk.inj (Option.some.inj h)
    rw [← Option.some.inj hv]
    exact Json.isCanonical_obj.mp hj _ (List.mem_singleton.mpr rfl)
  · cases h

theorem yields_any : Yields decode fun _ => True :=
  fun _ _ _ _ => trivial

theorem yields_pure (h : P a) : Yields (fun _ => pure a) P := by
  intro j b _ hb
  rwa [← Option.some.inj hb]

/-- The rule for decoders that read one part after the other. -/
theorem yields_bind {decode' : α → Json → Option β} (h : Yields decode P)
    (h' : ∀ a, P a → Yields (decode' a) Q) : Yields (fun j => decode j >>= fun a => decode' a j) Q := by
  intro j b hj hb
  obtain ⟨a, ha, hb⟩ := Option.bind_eq_some_iff.mp hb
  exact h' a (h j a hj ha) j b hj hb

theorem yields_map {f : α → β} (h : Yields decode P) (h' : ∀ a, P a → Q (f a)) :
    Yields (fun j => (decode j).map f) Q := by
  intro j b hj hb
  obtain ⟨a, ha, rfl⟩ := Option.map_eq_some_iff.mp hb
  exact h' a (h j a hj ha)

theorem yields_record {size : ℕ} (h : Yields decode P) : Yields (record size decode) P := by
  intro j a hj ha
  unfold record at ha
  split_ifs at ha
  exact h j a hj ha

theorem yields_enumeration {variant : String → Option Json → Option α}
    (h : ∀ name v a, (∀ c ∈ v, c.isCanonical) → variant name v = some a → P a) :
    Yields (enumeration variant) P := by
  intro j a hj ha
  obtain ⟨x, hx, ha⟩ := Option.bind_eq_some_iff.mp ha
  apply h x.1 x.2 a _ ha
  intro c hc
  have hvariant : decodeVariant j = some (x.1, some c) := by
    rw [hx, ← Option.mem_def.mp hc]
  exact variant_isCanonical hj hvariant

theorem newtypeVariant_yields (h : Yields decode P) {o : Option Json}
    (ho : ∀ c ∈ o, c.isCanonical) (ha : newtypeVariant decode o = some a) : P a := by
  obtain ⟨c, hc, ha⟩ := Option.bind_eq_some_iff.mp ha
  exact h c a (ho c hc) ha

@[simp] theorem isCanonical_encodeHex (digits n : ℕ) : (encodeHex digits n).isCanonical :=
  Json.isCanonical_str _

theorem isCanonical_encodeOption {encode : α → Json} {o : Option α}
    (h : ∀ a ∈ o, (encode a).isCanonical) : (encodeOption encode o).isCanonical := by
  cases o with
  | none => exact Json.isCanonical_null
  | some a => exact h a rfl

end Serde
