import MyK8s.Lib.Serde

/-!
# The text of a document

A document is printed as a text, and what is parsed again need not be the same document: the parser gives up
where arrays and objects are nested too deep, and it may miss the double that a number was printed from.

`TextLayer.readsBack_iff` says which values are read back from their text. Where what is written is known to be
`Plain`, this is the case (`TextLayer.readsBack_of_plain`).
-/

namespace Serde

/-! ## Depth and numbers -/

namespace Value

mutual

/-- How deep arrays and objects are nested. -/
def depth : Value → ℕ
  | .array items => depthItems items + 1
  | .object fields => depthFields fields + 1
  | _ => 0

def depthItems : List Value → ℕ
  | [] => 0
  | v :: vs => max v.depth (depthItems vs)

def depthFields : List (String × Value) → ℕ
  | [] => 0
  | (_, v) :: fields => max v.depth (depthFields fields)

end

mutual

/-- Another number in the place of each. -/
def mapNumbers (f : Number → Number) : Value → Value
  | .number n => .number (f n)
  | .array items => .array (mapItems f items)
  | .object fields => .object (mapFields f fields)
  | v => v

def mapItems (f : Number → Number) : List Value → List Value
  | [] => []
  | v :: vs => v.mapNumbers f :: mapItems f vs

def mapFields (f : Number → Number) : List (String × Value) → List (String × Value)
  | [] => []
  | (name, v) :: fields => (name, v.mapNumbers f) :: mapFields f fields

end

theorem depthItems_le_iff {d : ℕ} {items : List Value} :
    depthItems items ≤ d ↔ ∀ v ∈ items, v.depth ≤ d := by
  induction items with
  | nil => simp [depthItems]
  | cons v vs ih => simp [depthItems, ih]

theorem depthFields_le_iff {d : ℕ} {fields : List (String × Value)} :
    depthFields fields ≤ d ↔ ∀ p ∈ fields, p.2.depth ≤ d := by
  induction fields with
  | nil => simp [depthFields]
  | cons p fields ih =>
    obtain ⟨name, v⟩ := p
    simp [depthFields, ih]

theorem mapItems_eq (f : Number → Number) (items : List Value) :
    mapItems f items = items.map (mapNumbers f) := by
  induction items with
  | nil => rfl
  | cons v vs ih => rw [mapItems, ih, List.map_cons]

theorem mapFields_eq (f : Number → Number) (fields : List (String × Value)) :
    mapFields f fields = fields.map fun p => (p.1, p.2.mapNumbers f) := by
  induction fields with
  | nil => rfl
  | cons p fields ih =>
    obtain ⟨name, v⟩ := p
    rw [mapFields, ih, List.map_cons]

/-- The value is nested at most `d` deep, and its numbers are integers of 64 bits. -/
def Plain : ℕ → Value → Prop
  | _, .null => True
  | _, .bool _ => True
  | _, .string _ => True
  | _, .number (.int n) => -2 ^ 63 ≤ n ∧ n < 2 ^ 64
  | _, .number (.float _) => False
  | 0, .array _ => False
  | 0, .object _ => False
  | d + 1, .array items => ∀ v ∈ items, v.Plain d
  | d + 1, .object fields => ∀ p ∈ fields, p.2.Plain d

section Plain

variable {d : ℕ} {v : Value}

@[simp] theorem plain_array {items : List Value} :
    (Value.array items).Plain (d + 1) ↔ ∀ v ∈ items, v.Plain d := Iff.rfl

/-- All values of an object are plain. -/
def PlainFields (d : ℕ) (fields : List (String × Value)) : Prop := ∀ p ∈ fields, p.2.Plain d

@[simp] theorem plain_object {fields : List (String × Value)} :
    (Value.object fields).Plain (d + 1) ↔ PlainFields d fields := Iff.rfl

@[simp] theorem plainFields_append {fields fields' : List (String × Value)} :
    PlainFields d (fields ++ fields') ↔ PlainFields d fields ∧ PlainFields d fields' := by
  unfold PlainFields
  exact List.forall_mem_append

@[simp] theorem plainFields_singleton {p : String × Value} : PlainFields d [p] ↔ p.2.Plain d := by
  unfold PlainFields
  exact List.forall_mem_singleton

@[simp] theorem plain_string (s : String) : (Value.string s).Plain d := by cases d <;> trivial

theorem plain_int {n : ℤ} (h : -2 ^ 63 ≤ n ∧ n < 2 ^ 64) : (Value.number (.int n)).Plain d := by
  cases d <;> exact h

theorem Plain.depth_le (h : v.Plain d) : v.depth ≤ d := by
  induction d generalizing v with
  | zero => cases v <;> first | exact le_rfl | cases h
  | succ d ih =>
    cases v with
    | array items =>
      rw [depth, Nat.add_le_add_iff_right, depthItems_le_iff]
      exact fun v hv => ih (h v hv)
    | object fields =>
      rw [depth, Nat.add_le_add_iff_right, depthFields_le_iff]
      exact fun p hp => ih (h p hp)
    | _ => exact Nat.zero_le _

section Numbers

variable {f : Number → Number} (hf : ∀ n : ℤ, -2 ^ 63 ≤ n → n < 2 ^ 64 → f (.int n) = .int n)
include hf

theorem Plain.number_eq {n : Number} (h : (Value.number n).Plain d) : f n = n := by
  cases n with
  | int n =>
    have hbounds : -2 ^ 63 ≤ n ∧ n < 2 ^ 64 := by cases d <;> exact h
    exact hf n hbounds.1 hbounds.2
  | float bits => cases d <;> cases h

/-- Where integers of 64 bits are kept, a plain value is. -/
theorem Plain.mapNumbers_eq (h : v.Plain d) : v.mapNumbers f = v := by
  induction d generalizing v with
  | zero =>
    cases v with
    | number n => exact congrArg Value.number (h.number_eq hf)
    | array items => cases h
    | object fields => cases h
    | _ => rfl
  | succ d ih =>
    cases v with
    | number n => exact congrArg Value.number (h.number_eq hf)
    | array items =>
      have hall : items.map (mapNumbers f) = items.map id := List.map_congr_left fun v hv => ih (h v hv)
      rw [mapNumbers, mapItems_eq, hall, List.map_id]
    | object fields =>
      have hall : (fields.map fun p => (p.1, p.2.mapNumbers f)) = fields.map id :=
        List.map_congr_left fun p hp => Prod.ext rfl (ih (h p hp))
      rw [mapNumbers, mapFields_eq, hall, List.map_id]
    | _ => rfl

end Numbers

end Plain

end Value

/-! ## The layer of texts -/

/-- How documents are printed and parsed, and what is read of the digits of a number. -/
structure TextLayer (Text : Type) where
  print : Value → Text
  parse : Text → Option Value
  reread : Number → Number

namespace TextLayer

variable {Text : Type} (L : TextLayer Text)

/-- As `serde_json` has it by default: 127 levels are read and the next one is refused, and integers of 64 bits
are read as they are. (Doubles are read as well as can be done fast.) -/
structure Documented : Prop where
  parse_print : ∀ v, L.parse (L.print v) = if v.depth ≤ 127 then some (v.mapNumbers L.reread) else none
  reread_int : ∀ n : ℤ, -2 ^ 63 ≤ n → n < 2 ^ 64 → L.reread (.int n) = .int n

variable {T : Type} [Serde T]

/-- `to_vec`. -/
def encode (x : T) : Text := L.print (Serde.toValue x)

/-- `from_slice`, where what does not parse is none. -/
def decode (text : Text) : Option T := (L.parse text).bind fun v => (Serde.fromValue v).toOption

/-- What is read from the encoding of the value is the value. -/
def ReadsBack (x : T) : Prop := L.decode (L.encode x) = some x

variable {L} {x : T}

theorem readsBack_iff (hL : L.Documented) : L.ReadsBack x ↔
    (Serde.toValue x).depth ≤ 127 ∧ Serde.fromValue ((Serde.toValue x).mapNumbers L.reread) = .ok x := by
  unfold ReadsBack decode encode
  rw [hL.parse_print]
  by_cases hdepth : (Serde.toValue x).depth ≤ 127
  · rw [if_pos hdepth, Option.bind_some, and_iff_right hdepth]
    cases (Serde.fromValue ((Serde.toValue x).mapNumbers L.reread) : Except Error T) <;> simp [Except.toOption]
  · rw [if_neg hdepth, Option.bind_none]
    exact iff_of_false (Option.some_ne_none x).symm fun h => hdepth h.1

/-- **A plain value** is read back. -/
theorem readsBack_of_plain (hL : L.Documented) {d : ℕ} (hplain : (Serde.toValue x).Plain d) (hd : d ≤ 127)
    (hx : Serde.fromValue (Serde.toValue x) = .ok x) : L.ReadsBack x := by
  rw [readsBack_iff hL, hplain.mapNumbers_eq hL.reread_int]
  exact ⟨hplain.depth_le.trans hd, hx⟩

end TextLayer

/-! ## Plain types -/

section Types

variable {d : ℕ} {T : Type} [Serde T] {name : String}

@[simp] theorem plain_toValue_string (s : String) : (Serde.toValue s).Plain d := Value.plain_string s

@[simp] theorem plain_toValue_bool (b : Bool) : (Serde.toValue b).Plain d := by cases d <;> trivial

@[simp] theorem plain_toValue_uint8 (n : UInt8) : (Serde.toValue n).Plain d :=
  Value.plain_int (by have := n.toNat_lt; omega)

@[simp] theorem plain_toValue_uint16 (n : UInt16) : (Serde.toValue n).Plain d :=
  Value.plain_int (by have := n.toNat_lt; omega)

@[simp] theorem plain_toValue_uint32 (n : UInt32) : (Serde.toValue n).Plain d :=
  Value.plain_int (by have := n.toNat_lt; omega)

@[simp] theorem plain_toValue_uint64 (n : UInt64) : (Serde.toValue n).Plain d :=
  Value.plain_int (by have := n.toNat_lt; omega)

@[simp] theorem plain_toValue_int32 (n : Int32) : (Serde.toValue n).Plain d :=
  Value.plain_int (by have := n.toInt_lt; have := n.le_toInt; omega)

@[simp] theorem plain_toValue_option {x : Option T} :
    (Serde.toValue x).Plain d ↔ ∀ y ∈ x, (Serde.toValue y).Plain d := by
  cases x with
  | none => exact iff_of_true (by cases d <;> trivial) fun y hy => by cases hy
  | some x => exact ⟨fun h y hy => Option.some.inj hy ▸ h, fun h => h x rfl⟩

@[simp] theorem plain_toValue_list {xs : List T} :
    (Serde.toValue xs).Plain (d + 1) ↔ ∀ y ∈ xs, (Serde.toValue y).Plain d := by
  show (Value.array _).Plain (d + 1) ↔ _
  simp

@[simp] theorem plain_toValue_map (m : StringMap) : (Serde.toValue m).Plain (d + 1) := by
  show (Value.object _).Plain (d + 1)
  rw [Value.plain_object, Value.PlainFields, List.forall_mem_map]
  exact fun p _ => Value.plain_string p.2

@[simp] theorem plain_field {x : T} :
    Value.PlainFields d (field name x) ↔ (Serde.toValue x).Plain d := Value.plainFields_singleton

@[simp] theorem plain_fieldUnless {skip : T → Bool} {x : T} :
    Value.PlainFields d (fieldUnless skip name x) ↔ (skip x = false → (Serde.toValue x).Plain d) := by
  unfold fieldUnless
  by_cases h : skip x <;> simp [h, Value.PlainFields]

end Types

end Serde
