import Mathlib

/-!
# Decimal numbers as text

`str::parse` for an unsigned type: digits, with or without a plus sign in front, of a number within
the range of the type. What `to_string` prints of such a number is read back (`parse_toString`).

Numbers that are padded with zeros to one width have the order of their bytes (`compare_utf8_padded`).
-/

namespace Decimal

/-- The digits of the text, without its plus sign. -/
def unsigned (s : String) : List Char :=
  match s.toList with
  | '+' :: ds => ds
  | ds => ds

def parse (max : ℕ) (s : String) : Option ℕ :=
  let ds := unsigned s
  if ds ≠ [] ∧ ds.all Char.isDigit ∧ Nat.ofDigitChars 10 ds 0 ≤ max then
    some (Nat.ofDigitChars 10 ds 0)
  else none

theorem toList_toString (n : ℕ) : (toString n).toList = Nat.toDigits 10 n := by
  rw [Nat.toString_eq_repr, Nat.toList_repr]

theorem all_isDigit_toDigits (n : ℕ) : (Nat.toDigits 10 n).all Char.isDigit = true := by
  rw [List.all_eq_true]
  intro c hc
  exact Nat.isDigit_of_mem_toDigits (by decide) (by decide) hc

/-- What is printed has no sign. -/
theorem unsigned_toString (n : ℕ) : unsigned (toString n) = Nat.toDigits 10 n := by
  unfold unsigned
  rw [toList_toString]
  have hdigit := List.all_eq_true.mp (all_isDigit_toDigits n)
  split
  · rename_i ds heq
    have hplus := hdigit '+' (heq ▸ List.mem_cons_self)
    exact absurd hplus (by decide)
  · rfl

/-- **Round trip** of a number. -/
theorem parse_toString {max n : ℕ} (h : n ≤ max) : parse max (toString n) = some n := by
  unfold parse
  simp only [unsigned_toString, all_isDigit_toDigits, Nat.ofDigitChars_ten_toDigits]
  rw [if_pos ⟨Nat.toDigits_ne_nil, trivial, h⟩]

theorem toString_injective : Function.Injective (toString : ℕ → String) := by
  intro m n h
  have hm := parse_toString (le_max_left m n)
  rw [h, parse_toString (le_max_right m n)] at hm
  exact (Option.some.inj hm).symm

example : parse 300 "+042" = some 42 := by decide

example : parse 300 "301" = none := by decide

/-! ## Padded numbers -/

/-- The number with zeros in front, up to the width. -/
def padded (width n : ℕ) : String :=
  String.ofList (List.replicate (width - (Nat.toDigits 10 n).length) '0' ++ Nat.toDigits 10 n)

/-- The last digits of a number, with their zeros. -/
def fixedDigits : ℕ → ℕ → List ℕ
  | 0, _ => []
  | width + 1, n => fixedDigits width (n / 10) ++ [n % 10]

theorem length_fixedDigits (width n : ℕ) : (fixedDigits width n).length = width := by
  induction width generalizing n with
  | zero => rfl
  | succ width ih => rw [fixedDigits, List.length_append, ih, List.length_singleton]

theorem lt_ten_of_mem_fixedDigits {width n d : ℕ} (h : d ∈ fixedDigits width n) : d < 10 := by
  induction width generalizing n with
  | zero => cases h
  | succ width ih =>
    obtain h | h := List.mem_append.mp h
    · exact ih h
    · rw [List.mem_singleton.mp h]
      exact Nat.mod_lt n (by decide)

theorem fixedDigits_zero (width : ℕ) : fixedDigits width 0 = List.replicate width 0 := by
  induction width with
  | zero => rfl
  | succ width ih =>
    show fixedDigits width 0 ++ [0] = _
    rw [ih, List.replicate_succ']

/-- A number that fits is padded to its fixed digits. -/
theorem toList_padded {width n : ℕ} (hwidth : 0 < width) (h : n < 10 ^ width) :
    (padded width n).toList = (fixedDigits width n).map Nat.digitChar := by
  unfold padded
  rw [String.toList_ofList]
  induction width generalizing n with
  | zero => omega
  | succ width ih =>
    rcases Nat.lt_or_ge n 10 with hn | hn
    · rw [Nat.toDigits_of_lt_base hn, fixedDigits, Nat.div_eq_of_lt hn, fixedDigits_zero, Nat.mod_eq_of_lt hn]
      simp [Nat.digitChar]
    · have hdiv : n / 10 < 10 ^ width := by
        rw [Nat.div_lt_iff_lt_mul (by decide)]
        rwa [pow_succ] at h
      have hpos : 0 < width := by
        by_contra hzero
        obtain rfl : width = 0 := by omega
        omega
      rw [Nat.toDigits_of_base_le (by decide) hn, fixedDigits, List.map_append, ← ih hpos hdiv,
        List.length_append, List.length_singleton, Nat.add_sub_add_right, List.append_assoc]
      rfl

/-- Lists that begin with lists of one length are in the order of these first. -/
theorem compare_append {α : Type} [Ord α] {as bs cs ds : List α} (h : as.length = bs.length) :
    compare (as ++ cs) (bs ++ ds) = (compare as bs).then (compare cs ds) := by
  simp only [List.compare_eq_compareLex]
  induction as generalizing bs with
  | nil =>
    obtain rfl := List.length_eq_zero_iff.mp h.symm
    rfl
  | cons a as ih =>
    cases bs with
    | nil => cases h
    | cons b bs =>
      rw [List.cons_append, List.cons_append, List.compareLex_cons_cons, List.compareLex_cons_cons,
        ih (Nat.succ.inj h), Ordering.then_assoc]

/-- The bytes of a text. -/
def utf8 (s : String) : List UInt8 := s.toByteArray.data.toList

theorem utf8_eq (s : String) : utf8 s = s.toList.flatMap String.utf8EncodeChar := by
  unfold utf8
  rw [← String.utf8Encode_toList, List.utf8Encode, List.toList_data_toByteArray]

theorem utf8_append (s t : String) : utf8 (s ++ t) = utf8 s ++ utf8 t := by
  rw [utf8_eq, utf8_eq, utf8_eq, String.toList_append, List.flatMap_append]

def digitByte (d : ℕ) : UInt8 := UInt8.ofNat (48 + d)

theorem utf8EncodeChar_digitChar : ∀ d < 10, String.utf8EncodeChar (Nat.digitChar d) = [digitByte d] := by
  decide

theorem compare_digitByte : ∀ m < 10, ∀ n < 10, compare (digitByte m) (digitByte n) = compare m n := by
  decide

theorem utf8_padded {width n : ℕ} (hwidth : 0 < width) (h : n < 10 ^ width) :
    utf8 (padded width n) = (fixedDigits width n).map digitByte := by
  rw [utf8_eq, toList_padded hwidth h, List.flatMap_map]
  have hall : ∀ d ∈ fixedDigits width n, d < 10 := fun d hd => lt_ten_of_mem_fixedDigits hd
  generalize fixedDigits width n = ds at hall
  induction ds with
  | nil => rfl
  | cons d ds ih =>
    rw [List.flatMap_cons, List.map_cons, utf8EncodeChar_digitChar d (hall d List.mem_cons_self),
      ih fun e he => hall e (List.mem_cons_of_mem d he)]
    rfl

theorem compare_div_mod (m n : ℕ) :
    (compare (m / 10) (n / 10)).then (compare (m % 10) (n % 10)) = compare m n := by
  rcases lt_trichotomy (m / 10) (n / 10) with hlt | heq | hgt
  · have hmn : m < n := by omega
    rw [Nat.compare_eq_lt.mpr hlt, Nat.compare_eq_lt.mpr hmn]
    rfl
  · have hmod : compare (m % 10) (n % 10) = compare m n := by
      simp only [Nat.compare_eq_ite_lt]
      split_ifs <;> first | rfl | omega
    rw [Nat.compare_eq_eq.mpr heq, hmod]
    rfl
  · have hnm : n < m := by omega
    rw [Nat.compare_eq_gt.mpr hgt, Nat.compare_eq_gt.mpr hnm]
    rfl

/-- Fixed digits have the order of their numbers. -/
theorem compare_fixedDigits {width m n : ℕ} (hm : m < 10 ^ width) (hn : n < 10 ^ width) :
    compare ((fixedDigits width m).map digitByte) ((fixedDigits width n).map digitByte) = compare m n := by
  induction width generalizing m n with
  | zero =>
    obtain rfl : m = 0 := by omega
    obtain rfl : n = 0 := by omega
    rfl
  | succ width ih =>
    rw [pow_succ] at hm hn
    have hlast : compare [digitByte (m % 10)] [digitByte (n % 10)] = compare (m % 10) (n % 10) := by
      rw [← compare_digitByte _ (Nat.mod_lt m (by decide)) _ (Nat.mod_lt n (by decide)),
        List.compare_eq_compareLex, List.compareLex_cons_cons]
      exact Ordering.then_eq
    rw [fixedDigits, fixedDigits, List.map_append, List.map_append, compare_append (by simp [length_fixedDigits]),
      ih (by omega) (by omega)]
    show (compare (m / 10) (n / 10)).then (compare [digitByte (m % 10)] [digitByte (n % 10)]) = _
    rw [hlast, compare_div_mod]

/-- **Padded numbers are in the order of their bytes.** -/
theorem compare_utf8_padded {width m n : ℕ} (hwidth : 0 < width) (hm : m < 10 ^ width)
    (hn : n < 10 ^ width) : compare (utf8 (padded width m)) (utf8 (padded width n)) = compare m n := by
  rw [utf8_padded hwidth hm, utf8_padded hwidth hn, compare_fixedDigits hm hn]

example : padded 4 42 = "0042" := by decide

end Decimal
