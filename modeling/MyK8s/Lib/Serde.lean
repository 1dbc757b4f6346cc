import Mathlib

/-!
# JSON documents and derived implementations

The values of JSON, and what derived `Serialize` and `Deserialize` implementations make of them: a
struct is an object of its fields, or on the way in also an array of them; a missing `Option` field
reads as none; fields with a default may be absent; enums are externally tagged. Unknown fields are
ignored.

This is between values and documents. What becomes of a document that is printed and parsed again is for
`Lib/JsonText`.
-/

namespace Serde

/-! ## Documents -/

inductive Number
  | int (n : ℤ)
  /-- A number that is not an integer of 64 bits, by the bits of its double. -/
  | float (bits : UInt64)
  deriving DecidableEq, Repr

inductive Value
  | null
  | bool (b : Bool)
  | number (n : Number)
  | string (s : String)
  | array (items : List Value)
  | object (fields : List (String × Value))
  deriving Repr

inductive Error
  | missingField (field : String)
  | unknownVariant (variant : String)
  | invalidType
  | invalidValue
  | invalidLength
  deriving DecidableEq, Repr

/-- The message of an error, without the details that serde adds about types and positions. -/
def Error.message : Error → String
  | .missingField field => "missing field " ++ field
  | .unknownVariant variant => "unknown variant " ++ variant
  | .invalidType => "invalid type"
  | .invalidValue => "invalid value"
  | .invalidLength => "invalid length"

end Serde

/-- `Serialize` and `DeserializeOwned`. -/
class Serde (T : Type) where
  toValue : T → Serde.Value
  fromValue : Serde.Value → Except Serde.Error T

namespace Serde

/-! ## Plain values -/

instance : Serde Value where
  toValue v := v
  fromValue v := .ok v

instance : Serde String where
  toValue := .string
  fromValue
    | .string s => .ok s
    | _ => .error .invalidType

instance : Serde Bool where
  toValue := .bool
  fromValue
    | .bool b => .ok b
    | _ => .error .invalidType

/-- An integer between the bounds, for the machine integer types. -/
def boundedInt {T : Type} (lo hi : ℤ) (mk : ℤ → T) : Value → Except Error T
  | .number (.int n) => if lo ≤ n ∧ n ≤ hi then .ok (mk n) else .error .invalidValue
  | _ => .error .invalidType

instance : Serde UInt8 where
  toValue n := .number (.int n.toNat)
  fromValue := boundedInt 0 (2 ^ 8 - 1) fun n => UInt8.ofNat n.toNat

instance : Serde UInt16 where
  toValue n := .number (.int n.toNat)
  fromValue := boundedInt 0 (2 ^ 16 - 1) fun n => UInt16.ofNat n.toNat

instance : Serde UInt32 where
  toValue n := .number (.int n.toNat)
  fromValue := boundedInt 0 (2 ^ 32 - 1) fun n => UInt32.ofNat n.toNat

instance : Serde UInt64 where
  toValue n := .number (.int n.toNat)
  fromValue := boundedInt 0 (2 ^ 64 - 1) fun n => UInt64.ofNat n.toNat

instance : Serde Int32 where
  toValue n := .number (.int n.toInt)
  fromValue := boundedInt (-2 ^ 31) (2 ^ 31 - 1) Int32.ofInt

instance {T : Type} [Serde T] : Serde (Option T) where
  toValue
    | some x => Serde.toValue x
    | none => .null
  fromValue
    | .null => .ok none
    | v => (Serde.fromValue v).map some

instance {T : Type} [Serde T] : Serde (List T) where
  toValue xs := .array (xs.map Serde.toValue)
  fromValue
    | .array vs => vs.mapM Serde.fromValue
    | _ => .error .invalidType

/-- `BTreeMap<String, String>`. -/
abbrev StringMap := Std.ExtTreeMap String String

instance : Serde StringMap where
  toValue m := .object (m.toList.map fun (k, v) => (k, .string v))
  fromValue
    | .object fields => do
      let entries ← fields.mapM fun (k, v) => do
        let s : String ← Serde.fromValue v
        pure (k, s)
      pure (entries.foldl (fun m (k, s) => m.insert k s) ∅)
    | _ => .error .invalidType

/-! ## Structs -/

/-- Where the fields of a struct are read from: by name, or by position. -/
inductive Fields
  | map (fields : List (String × Value))
  | seq (items : List Value)

/-- A struct of `arity` fields. -/
def struct {T : Type} (arity : ℕ) (v : Value) (read : Fields → Except Error T) : Except Error T :=
  match v with
  | .object fields => read (.map fields)
  | .array items => if items.length ≤ arity then read (.seq items) else .error .invalidLength
  | _ => .error .invalidType

namespace Fields

variable {T : Type} [Serde T]

/-- The field at a position, under its name on the wire. -/
def find (fs : Fields) (pos : ℕ) (name : String) : Option Value :=
  match fs with
  | .map fields => fields.lookup name
  | .seq items => items[pos]?

/-- A field that must be there. -/
def required (fs : Fields) (pos : ℕ) (name : String) : Except Error T :=
  match fs.find pos name with
  | some v => Serde.fromValue v
  | none =>
    match fs with
    | .map _ => .error (.missingField name)
    | .seq _ => .error .invalidLength

/-- An `Option` field, which may be missing from an object but not from an array. -/
def optional (fs : Fields) (pos : ℕ) (name : String) : Except Error (Option T) :=
  match fs.find pos name with
  | some v => Serde.fromValue v
  | none =>
    match fs with
    | .map _ => .ok none
    | .seq _ => .error .invalidLength

/-- A field with `#[serde(default)]`. -/
def defaulted (fs : Fields) (pos : ℕ) (name : String) (default : T) : Except Error T :=
  match fs.find pos name with
  | some v => Serde.fromValue v
  | none => .ok default

end Fields

/-- A field that is always written. -/
def field {T : Type} [Serde T] (name : String) (x : T) : List (String × Value) :=
  [(name, Serde.toValue x)]

/-- A field that is left out under `skip_serializing_if`. -/
def fieldUnless {T : Type} [Serde T] (skip : T → Bool) (name : String) (x : T) :
    List (String × Value) :=
  if skip x then [] else [(name, Serde.toValue x)]

/-! ## Enums -/

/-- The variant that an externally tagged value names, with its content. -/
def variant (v : Value) : Except Error (String × Option Value) :=
  match v with
  | .string s => .ok (s, none)
  | .object [(name, content)] => .ok (name, some content)
  | .object _ => .error .invalidValue
  | _ => .error .invalidType

/-- A variant without fields. -/
def unitVariant {T : Type} (x : T) (content : Option Value) : Except Error T :=
  match content with
  | none | some .null => .ok x
  | some _ => .error .invalidType

/-- A variant around one value. -/
def newtypeVariant {T : Type} [Serde T] (content : Option Value) : Except Error T :=
  match content with
  | some v => Serde.fromValue v
  | none => .error .invalidType

/-- A variant with `arity` fields, as it is read from a text. -/
def structVariant {T : Type} (arity : ℕ) (content : Option Value)
    (read : Fields → Except Error T) : Except Error T :=
  match content with
  | some v => struct arity v read
  | none => .error .invalidType

/-- A variant with fields, as `from_value` reads it from a document. An array of them is refused. -/
def structVariantOfValue {T : Type} (content : Option Value) (read : Fields → Except Error T) :
    Except Error T :=
  match content with
  | some (.object fields) => read (.map fields)
  | _ => .error .invalidType

/-! ## Round trips

`Lawful T` says that what was written is read back. For a struct this is a computation: each field
is looked up among the fields written, and a field left out is one that reads as its default. -/

class Lawful (T : Type) [Serde T] : Prop where
  fromValue_toValue : ∀ x : T, Serde.fromValue (Serde.toValue x) = .ok x

export Lawful (fromValue_toValue)

attribute [simp] fromValue_toValue

/-- No value of the type is written as null, so none is taken for a missing one. -/
class NonNull (T : Type) [Serde T] : Prop where
  toValue_ne_null : ∀ x : T, Serde.toValue x ≠ .null

instance : Lawful Value := ⟨fun _ => rfl⟩
instance : Lawful String := ⟨fun _ => rfl⟩
instance : Lawful Bool := ⟨fun _ => rfl⟩

theorem boundedInt_of_mem {T : Type} {lo hi n : ℤ} {mk : ℤ → T} (h : lo ≤ n ∧ n ≤ hi) :
    boundedInt lo hi mk (.number (.int n)) = .ok (mk n) := if_pos h

instance : Lawful UInt8 := ⟨fun n => by
  show boundedInt _ _ _ (.number (.int n.toNat)) = _
  have := n.toNat_lt
  rw [boundedInt_of_mem (by omega)]
  simp⟩

instance : Lawful UInt16 := ⟨fun n => by
  show boundedInt _ _ _ (.number (.int n.toNat)) = _
  have := n.toNat_lt
  rw [boundedInt_of_mem (by omega)]
  simp⟩

instance : Lawful UInt32 := ⟨fun n => by
  show boundedInt _ _ _ (.number (.int n.toNat)) = _
  have := n.toNat_lt
  rw [boundedInt_of_mem (by omega)]
  simp⟩

instance : Lawful UInt64 := ⟨fun n => by
  show boundedInt _ _ _ (.number (.int n.toNat)) = _
  have := n.toNat_lt
  rw [boundedInt_of_mem (by omega)]
  simp⟩

instance : Lawful Int32 := ⟨fun n => by
  show boundedInt _ _ _ (.number (.int n.toInt)) = _
  have hlt := n.toInt_lt
  have hle := n.le_toInt
  rw [boundedInt_of_mem (by omega)]
  simp⟩

instance : NonNull String := ⟨fun _ h => by cases h⟩
instance : NonNull UInt64 := ⟨fun _ h => by cases h⟩

/-- What is written item by item is read item by item. -/
theorem mapM_map_of_ok_mem {α β ε : Type} {read : β → Except ε α} {write : α → β} (xs : List α)
    (h : ∀ x ∈ xs, read (write x) = .ok x) : (xs.map write).mapM read = .ok xs := by
  induction xs with
  | nil => rfl
  | cons x xs ih =>
    rw [List.map_cons, List.mapM_cons, h x List.mem_cons_self,
      ih fun y hy => h y (List.mem_cons_of_mem x hy)]
    rfl

theorem mapM_map_of_ok {α β ε : Type} {read : β → Except ε α} {write : α → β}
    (h : ∀ x, read (write x) = .ok x) (xs : List α) : (xs.map write).mapM read = .ok xs :=
  mapM_map_of_ok_mem xs fun x _ => h x

section Containers

variable {T : Type} [Serde T]

theorem fromValue_option {v : Value} (h : v ≠ .null) :
    (Serde.fromValue v : Except Error (Option T)) = (Serde.fromValue v).map some := by
  cases v with
  | null => exact absurd rfl h
  | _ => rfl

instance [Lawful T] [NonNull T] : Lawful (Option T) := ⟨fun x => by
  cases x with
  | none => rfl
  | some x =>
    show Serde.fromValue (Serde.toValue x) = _
    rw [fromValue_option (NonNull.toValue_ne_null x), fromValue_toValue]
    rfl⟩

instance [Lawful T] : Lawful (List T) := ⟨mapM_map_of_ok fromValue_toValue⟩

end Containers

/-- A map is what its entries, inserted in order, make of the empty map. -/
theorem foldl_insert_toList (m : StringMap) :
    m.toList.foldl (fun acc p => acc.insert p.1 p.2) ∅ = m := by
  rw [← Std.ExtTreeMap.ofList_eq_foldl]
  ext k v
  cases h : m[k]? with
  | some w =>
    rw [Std.ExtTreeMap.getElem?_ofList_of_mem (k := k) (v := w) (by simp)
      Std.ExtTreeMap.distinct_keys_toList (by simpa using h)]
  | none =>
    rw [Std.ExtTreeMap.getElem?_ofList_of_contains_eq_false]
    rw [Std.ExtTreeMap.map_fst_toList_eq_keys]
    simpa using h

instance : Lawful StringMap := ⟨fun m => by
  have hread : (m.toList.map fun (k, v) => (k, Value.string v)).mapM
      (fun (k, v) => (do
        let s : String ← Serde.fromValue v
        pure (k, s) : Except Error (String × String))) = .ok m.toList := by
    induction m.toList with
    | nil => rfl
    | cons p l ih =>
      simp only [List.map_cons, List.mapM_cons, ih]
      rfl
  show (do
    let entries ← _
    pure _ : Except Error StringMap) = _
  rw [hread]
  exact congrArg Except.ok (foldl_insert_toList m)⟩

section Structs

variable {T : Type} {fs : List (String × Value)} {name : String}

@[simp] theorem struct_object (arity : ℕ) (read : Fields → Except Error T) :
    struct arity (.object fs) read = read (.map fs) := rfl

variable [Serde T]

@[simp] theorem lookup_field (k : String) (x : T) :
    (field name x).lookup k = if k = name then some (Serde.toValue x) else none := by
  unfold field
  by_cases h : k = name
  · simp [List.lookup, h]
  · have hb : (k == name) = false := by simp [h]
    simp [List.lookup, h, hb]

@[simp] theorem lookup_fieldUnless (skip : T → Bool) (k : String) (x : T) :
    (fieldUnless skip name x).lookup k =
      if k = name then (if skip x then none else some (Serde.toValue x)) else none := by
  unfold fieldUnless
  split
  · simp
  · exact lookup_field k x

@[simp] theorem Fields.required_map (pos : ℕ) :
    ((Fields.map fs).required pos name : Except Error T) =
      (fs.lookup name).elim (.error (.missingField name)) Serde.fromValue := by
  unfold Fields.required Fields.find
  cases h : fs.lookup name <;> simp [h]

@[simp] theorem Fields.optional_map (pos : ℕ) :
    ((Fields.map fs).optional pos name : Except Error (Option T)) =
      (fs.lookup name).elim (.ok none) Serde.fromValue := by
  unfold Fields.optional Fields.find
  cases h : fs.lookup name <;> simp [h]

@[simp] theorem Fields.defaulted_map (pos : ℕ) (default : T) :
    (Fields.map fs).defaulted pos name default =
      (fs.lookup name).elim (.ok default) Serde.fromValue := by
  unfold Fields.defaulted Fields.find
  cases h : fs.lookup name <;> simp [h]

end Structs

@[simp] theorem elim_unless {α β : Type} (c : Prop) [Decidable c] (v : α) (d : β) (f : α → β) :
    (if c then none else some v).elim d f = if c then d else f v := by
  split <;> rfl

@[simp] theorem ok_or_none {T : Type} (x : Option T) :
    (if x = none then .ok none else .ok x : Except Error (Option T)) = .ok x := by
  cases x <;> rfl

@[simp] theorem ok_or_nil {T : Type} (xs : List T) :
    (if xs = [] then .ok [] else .ok xs : Except Error (List T)) = .ok xs := by
  cases xs <;> rfl

@[simp] theorem ok_or_empty (m : StringMap) :
    (if m = ∅ then .ok ∅ else .ok m : Except Error StringMap) = .ok m := by
  split <;> simp_all

@[simp] theorem ok_bind {α β : Type} (x : α) (f : α → Except Error β) :
    (Except.ok x >>= f) = f x := rfl

@[simp] theorem map_ok {α β : Type} (x : α) (f : α → β) :
    (f <$> (Except.ok x : Except Error α)) = .ok (f x) := rfl

end Serde
