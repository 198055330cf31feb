/-!
# Fixed-width numerals

Digits of a number in a small base, most significant first, and the value of a digit string.
Reading the last digits of a number gives it modulo the count of numbers of that width, so a byte
survives eight binary or two hexadecimal digits.
-/
namespace EightBit.Numerals

/-- The last `width` digits of `n`, padded with zeros on the left. -/
def digits (base : Nat) : Nat → Nat → List Char
  | 0, _ => []
  | width + 1, n => digits base width (n / base) ++ [Nat.digitChar (n % base)]

/-- How many numbers have no more digits than this. -/
def span (base : Nat) : Nat → Nat
  | 0 => 1
  | width + 1 => base * span base width

/-- The value of one digit, for bases up to sixteen. -/
def digitValue (c : Char) : Nat :=
  if c.isDigit then c.toNat - 48 else c.toNat - 87

def value (base : Nat) (ds : List Char) : Nat :=
  ds.foldl (fun v c => base * v + digitValue c) 0

def binary (b : UInt8) : String := String.ofList (digits 2 8 b.toNat)

def hex (b : UInt8) : String := String.ofList (digits 16 2 b.toNat)

/-- A non-empty string of decimal digits, read without a sign. -/
def decimal? (cs : List Char) : Option Nat :=
  if !cs.isEmpty && cs.all Char.isDigit then some (value 10 cs) else none

theorem length_digits (base width n : Nat) : (digits base width n).length = width := by
  induction width generalizing n with
  | zero => rfl
  | succ width ih => simp [digits, ih]

theorem value_concat (base : Nat) (ds : List Char) (c : Char) :
    value base (ds ++ [c]) = base * value base ds + digitValue c := by
  simp [value]

theorem digitValue_digitChar {d : Nat} (h : d < 16) : digitValue (Nat.digitChar d) = d := by
  have all : ∀ d : Fin 16, digitValue (Nat.digitChar d) = d := by decide
  exact all ⟨d, h⟩

/-- Reading digits back keeps the number modulo the span of the width. -/
theorem value_digits {base : Nat} (pos : 0 < base) (small : base ≤ 16) (width n : Nat) :
    value base (digits base width n) = n % span base width := by
  induction width generalizing n with
  | zero => simp [digits, value, span, Nat.mod_one]
  | succ width ih =>
    have last : n % base < 16 := Nat.lt_of_lt_of_le (Nat.mod_lt n pos) small
    rw [digits, value_concat, ih, digitValue_digitChar last, span, Nat.mod_mul]
    omega

theorem value_binary (b : UInt8) : value 2 (digits 2 8 b.toNat) = b.toNat := by
  rw [value_digits (by decide) (by decide)]
  exact Nat.mod_eq_of_lt b.toNat_lt

theorem value_hex (b : UInt8) : value 16 (digits 16 2 b.toNat) = b.toNat := by
  rw [value_digits (by decide) (by decide)]
  exact Nat.mod_eq_of_lt b.toNat_lt

theorem exists_digit_of_mem_digits {base width n : Nat} (pos : 0 < base) {c : Char}
    (h : c ∈ digits base width n) : ∃ d, d < base ∧ c = Nat.digitChar d := by
  induction width generalizing n with
  | zero => cases h
  | succ width ih =>
    rcases List.mem_append.1 h with front | last
    · exact ih front
    · exact ⟨n % base, Nat.mod_lt n pos, List.mem_singleton.1 last⟩

/-- Writing the value of digits with as many digits gives them back. -/
theorem digits_value {base width : Nat} {ds : List Char} (length : ds.length = width)
    (valid : ∀ c ∈ ds, digitValue c < base ∧ Nat.digitChar (digitValue c) = c) :
    digits base width (value base ds) = ds := by
  induction width generalizing ds with
  | zero => exact (List.length_eq_zero_iff.1 length).symm
  | succ width ih =>
    obtain rfl | ⟨front, c, rfl⟩ := List.eq_nil_or_concat ds
    · cases length
    · rw [List.concat_eq_append] at length valid ⊢
      obtain ⟨small, char⟩ := valid c (by simp)
      have inner : digits base width (value base front) = front :=
        ih (by simpa using length) fun d inside => valid d (by simp [inside])
      have pos : 0 < base := Nat.lt_of_le_of_lt (Nat.zero_le _) small
      have quotient : (base * value base front + digitValue c) / base = value base front := by
        rw [Nat.mul_add_div pos, Nat.div_eq_of_lt small, Nat.add_zero]
      have last : (base * value base front + digitValue c) % base = digitValue c := by
        rw [Nat.mul_add_mod, Nat.mod_eq_of_lt small]
      rw [digits, value_concat, quotient, last, inner, char]

theorem value_lt_span {base width : Nat} {ds : List Char} (length : ds.length = width)
    (valid : ∀ c ∈ ds, digitValue c < base) : value base ds < span base width := by
  induction width generalizing ds with
  | zero =>
    rw [List.length_eq_zero_iff.1 length]
    exact Nat.one_pos
  | succ width ih =>
    obtain rfl | ⟨front, c, rfl⟩ := List.eq_nil_or_concat ds
    · cases length
    · rw [List.concat_eq_append] at length valid ⊢
      have inner : value base front < span base width :=
        ih (by simpa using length) fun d inside => valid d (by simp [inside])
      have small : digitValue c < base := valid c (by simp)
      rw [value_concat, span]
      calc base * value base front + digitValue c
          < base * value base front + base := Nat.add_lt_add_left small _
        _ = base * (value base front + 1) := (Nat.mul_succ _ _).symm
        _ ≤ base * span base width := Nat.mul_le_mul_left base inner

end EightBit.Numerals
