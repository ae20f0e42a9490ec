import Mathlib.Data.List.TakeWhile
import Vcdb.Lib.Decimal

/-!
# Number conversion in the C library

The conversion functions skip white space and convert the longest prefix of the expected form.
Where there is no such prefix the text ends where it started.
-/

namespace Conversion

/-- White space in the C locale. -/
def IsSpace (c : UInt8) : Prop := c = 32 ∨ 9 ≤ c ∧ c ≤ 13

instance (c : UInt8) : Decidable (IsSpace c) := inferInstanceAs (Decidable (_ ∨ _))

/-- A text from its first byte that is not white space. -/
def skipSpace (text : List UInt8) : List UInt8 := text.dropWhile (fun c => decide (IsSpace c))

theorem spaces_append_skipSpace (text : List UInt8) :
    text.takeWhile (fun c => decide (IsSpace c)) ++ skipSpace text = text :=
  List.takeWhile_append_dropWhile

theorem length_spaces_add (text : List UInt8) :
    (text.takeWhile (fun c => decide (IsSpace c))).length + (skipSpace text).length =
      text.length := by
  rw [← List.length_append, spaces_append_skipSpace]

/-- The part of a text before its first null byte. -/
def cString (text : List UInt8) : List UInt8 := text.takeWhile (· ≠ 0)

/-- Byte of a text followed by its terminator. -/
def charAt (text : List UInt8) (position : Nat) : UInt8 := text.getD position 0

theorem cString_of_not_mem {text : List UInt8} (clean : (0 : UInt8) ∉ text) :
    cString text = text := by
  rw [cString, List.takeWhile_eq_self_iff]
  intro c mem
  simp only [decide_eq_true_eq]
  rintro rfl
  exact clean mem

theorem not_mem_cString (text : List UInt8) : (0 : UInt8) ∉ cString text := by
  intro mem
  simpa using List.mem_takeWhile_imp mem

theorem cString_eq_self {text : List UInt8} : cString text = text ↔ (0 : UInt8) ∉ text := by
  constructor
  · intro same
    rw [← same]
    exact not_mem_cString text
  · exact cString_of_not_mem

@[simp]
theorem charAt_length (text : List UInt8) : charAt text text.length = 0 := by
  simp [charAt]

/-- The first null byte, or the end, stands behind what is before it. -/
@[simp]
theorem charAt_length_cString (text : List UInt8) : charAt text (cString text).length = 0 := by
  induction text with
  | nil => rfl
  | cons c rest ih =>
      by_cases null : c = 0
      · subst null
        rfl
      · rw [cString, List.takeWhile_cons_of_pos (by simpa using null)]
        exact ih

theorem charAt_of_lt {text : List UInt8} {position : Nat}
    (inside : position < (cString text).length) : charAt text position ≠ 0 := by
  obtain ⟨rest, split⟩ : cString text <+: text := List.takeWhile_prefix _
  have found : text[position]? = (cString text)[position]? := by
    conv_lhs => rw [← split]
    exact List.getElem?_append_left inside
  have same : charAt text position = (cString text)[position] := by
    rw [charAt, List.getD_eq_getElem?_getD, found, List.getElem?_eq_getElem inside]
    rfl
  intro null
  rw [same] at null
  exact not_mem_cString text (null ▸ List.getElem_mem inside)

/-- White space holds no null byte. -/
theorem not_mem_of_not_mem_skipSpace {text : List UInt8} (clean : (0 : UInt8) ∉ skipSpace text) :
    (0 : UInt8) ∉ text := by
  rw [← spaces_append_skipSpace text, List.mem_append]
  rintro (mem | mem)
  · have space : IsSpace 0 := by simpa using List.mem_takeWhile_imp mem
    exact absurd space (by decide)
  · exact clean mem

theorem length_cString_le (text : List UInt8) : (cString text).length ≤ text.length :=
  (List.takeWhile_prefix _).length_le

theorem cString_eq_of_length {text : List UInt8} (all : (cString text).length = text.length) :
    cString text = text :=
  (List.takeWhile_prefix _).eq_of_length all

section Scanning

variable {β : Type} (read : List UInt8 → Option β)

/-- The longest prefix of at most a given length that can be read. -/
def longest (text : List UInt8) : Nat → Option (Nat × β)
  | 0 => none
  | n + 1 =>
      match read (text.take (n + 1)) with
      | some value => some (n + 1, value)
      | none => longest text n

/-- What is read behind the white space, and where reading stopped. -/
def scan (text : List UInt8) : Option β × Nat :=
  match longest read (skipSpace text) (skipSpace text).length with
  | none => (none, 0)
  | some (n, value) => (some value, (text.takeWhile (fun c => decide (IsSpace c))).length + n)

/-- Outcome of a conversion: the value, where it stopped, and whether a range error was
reported. -/
structure Converted (α : Type) where
  value : α
  stop : Nat
  rangeError : Bool
deriving DecidableEq

/-- Convert what is read at the start of a text; the value is zero where nothing is. -/
def convertText {α : Type} (convert : β → α × Bool) (zero : α) (text : List UInt8) : Converted α :=
  match scan read text with
  | (none, stop) => ⟨zero, stop, false⟩
  | (some number, stop) => ⟨(convert number).1, stop, (convert number).2⟩

variable {read}

theorem longest_self {text : List UInt8} {value : β} (nonempty : text ≠ [])
    (whole : read text = some value) :
    longest read text text.length = some (text.length, value) := by
  cases text with
  | nil => exact absurd rfl nonempty
  | cons c rest => simp [longest, whole]

theorem longest_eq_some {text : List UInt8} {n m : Nat} {value : β}
    (found : longest read text n = some (m, value)) :
    0 < m ∧ m ≤ n ∧ read (text.take m) = some value := by
  induction n with
  | zero => simp [longest] at found
  | succ n ih =>
      rw [longest] at found
      cases whole : read (text.take (n + 1)) with
      | some here =>
          simp only [whole, Option.some.injEq, Prod.mk.injEq] at found
          obtain ⟨rfl, rfl⟩ := found
          exact ⟨n.succ_pos, le_rfl, whole⟩
      | none =>
          simp only [whole] at found
          obtain ⟨positive, below, here⟩ := ih found
          exact ⟨positive, Nat.le_succ_of_le below, here⟩

/-- Reading stops within the text. -/
theorem scan_stop_le (text : List UInt8) : (scan read text).2 ≤ text.length := by
  rw [scan]
  have split := length_spaces_add text
  cases found : longest read (skipSpace text) (skipSpace text).length with
  | none => exact Nat.zero_le _
  | some here =>
      obtain ⟨_, below, _⟩ := longest_eq_some found
      simp only
      omega

/-- A text is read to its end exactly when it is empty or all of it behind the white space can be
read. -/
theorem scan_stop_eq_length (empty : read [] = none) {text : List UInt8} :
    (scan read text).2 = text.length ↔
      text = [] ∨ ∃ value, read (skipSpace text) = some value := by
  have split := length_spaces_add text
  rw [scan]
  constructor
  · intro whole
    cases found : longest read (skipSpace text)
        (skipSpace text).length with
    | none =>
        simp only [found] at whole
        exact Or.inl (List.eq_nil_of_length_eq_zero whole.symm)
    | some here =>
        simp only [found] at whole
        obtain ⟨_, below, value⟩ := longest_eq_some found
        have all : (skipSpace text).length = here.1 := by omega
        rw [← all, List.take_length] at value
        exact Or.inr ⟨here.2, value⟩
  · rintro (rfl | ⟨value, whole⟩)
    · rfl
    · have nonempty : skipSpace text ≠ [] := by
        intro nil
        rw [nil, empty] at whole
        cases whole
      rw [longest_self nonempty whole]
      exact split

/-- The first null byte is the end of the text only when all of it is read. -/
theorem scan_cString_stop_eq_length (empty : read [] = none) {text : List UInt8} :
    (scan read (cString text)).2 = text.length ↔
      text = [] ∨
        (0 : UInt8) ∉ text ∧ ∃ value, read (skipSpace text) = some value := by
  constructor
  · intro whole
    have stop : (scan read (cString text)).2 ≤ (cString text).length := scan_stop_le _
    have short := length_cString_le text
    have same : cString text = text := cString_eq_of_length (by omega)
    have clean := cString_eq_self.mp same
    rw [same, scan_stop_eq_length empty] at whole
    exact whole.imp_right fun value => ⟨clean, value⟩
  · intro whole
    have clean : (0 : UInt8) ∉ text := by
      rcases whole with rfl | ⟨clean, _⟩
      · exact List.not_mem_nil
      · exact clean
    rw [cString_of_not_mem clean, scan_stop_eq_length empty]
    exact whole.imp_right And.right

/-- What is read when all of a text behind the white space can be read. -/
theorem scan_of_read (empty : read [] = none) {text : List UInt8} {value : β}
    (whole : read (skipSpace text) = some value) :
    scan read text = (some value, text.length) := by
  have split := length_spaces_add text
  have nonempty : skipSpace text ≠ [] := by
    intro nil
    rw [nil, empty] at whole
    cases whole
  rw [scan]
  simp only [longest_self nonempty whole, split]

end Scanning

/-! ### Integers -/

def readDigits (digits : List UInt8) : Option Nat :=
  if digits ≠ [] ∧ digits.all (Decimal.IsDigit ·) then some (Decimal.value digits) else none

/-- An optional sign and digits: whether the sign is a minus, and the magnitude. -/
def readSigned (text : List UInt8) : Option (Bool × Nat) :=
  match text with
  | 45 :: digits => (readDigits digits).map (true, ·)
  | 43 :: digits => (readDigits digits).map (false, ·)
  | digits => (readDigits digits).map (false, ·)

/-- The number that a sign and a magnitude stand for. -/
def signed (number : Bool × Nat) : Int := if number.1 then -number.2 else number.2

@[simp]
theorem signed_false (magnitude : Nat) : signed (false, magnitude) = magnitude := rfl

@[simp]
theorem signed_true (magnitude : Nat) : signed (true, magnitude) = -magnitude := rfl

@[simp]
theorem readSigned_nil : readSigned [] = none := rfl

theorem not_mem_of_readDigits {digits : List UInt8} {n : Nat}
    (read : readDigits digits = some n) : (0 : UInt8) ∉ digits := by
  rw [readDigits] at read
  split_ifs at read with valid
  intro mem
  exact absurd (List.all_eq_true.mp valid.2 0 mem) (by decide)

/-- A number holds no null byte. -/
theorem not_mem_of_readSigned {text : List UInt8} {number : Bool × Nat}
    (read : readSigned text = some number) : (0 : UInt8) ∉ text := by
  unfold readSigned at read
  split at read
  · obtain ⟨n, digits, _⟩ := Option.map_eq_some_iff.mp read
    simpa using not_mem_of_readDigits digits
  · obtain ⟨n, digits, _⟩ := Option.map_eq_some_iff.mp read
    simpa using not_mem_of_readDigits digits
  · obtain ⟨n, digits, _⟩ := Option.map_eq_some_iff.mp read
    exact not_mem_of_readDigits digits

theorem not_isSpace_of_isDigit {c : UInt8} (isDigit : Decimal.IsDigit c) : ¬IsSpace c := by
  have lower : 48 ≤ c.toNat := isDigit.1
  rintro (rfl | ⟨_, upper⟩)
  · exact absurd isDigit.1 (by decide)
  · have : c.toNat ≤ 13 := upper
    omega

theorem not_isSpace_of_readDigits {c : UInt8} {rest : List UInt8} {n : Nat}
    (read : readDigits (c :: rest) = some n) : ¬IsSpace c := by
  rw [readDigits] at read
  split_ifs at read with valid
  exact not_isSpace_of_isDigit (of_decide_eq_true (List.all_eq_true.mp valid.2 c
    List.mem_cons_self))

theorem skipSpace_of_head {c : UInt8} {rest : List UInt8} (notSpace : ¬IsSpace c) :
    skipSpace (c :: rest) = c :: rest := by
  rw [skipSpace, List.dropWhile_cons_of_neg (by simpa using notSpace)]

/-- A number does not start with white space. -/
theorem skipSpace_of_readSigned {text : List UInt8} {number : Bool × Nat}
    (read : readSigned text = some number) : skipSpace text = text := by
  unfold readSigned at read
  split at read
  · exact skipSpace_of_head (by decide)
  · exact skipSpace_of_head (by decide)
  · obtain ⟨n, digits, _⟩ := Option.map_eq_some_iff.mp read
    cases text with
    | nil => rfl
    | cons c rest => exact skipSpace_of_head (not_isSpace_of_readDigits digits)

/-- A signed 64-bit integer, clamped to the range of the type with a range error. -/
def clampInt64 (number : Bool × Nat) : Int64 × Bool :=
  if signed number < -2 ^ 63 then (Int64.minValue, true)
  else if 2 ^ 63 ≤ signed number then (Int64.maxValue, true)
  else (Int64.ofInt (signed number), false)

/-- An unsigned 64-bit integer; a minus sign negates the converted magnitude. -/
def clampUInt64 (number : Bool × Nat) : UInt64 × Bool :=
  if 2 ^ 64 ≤ number.2 then (0xFFFFFFFFFFFFFFFF, true)
  else if number.1 then (-UInt64.ofNat number.2, false)
  else (UInt64.ofNat number.2, false)

def strtoll (text : List UInt8) : Converted Int64 := convertText readSigned clampInt64 0 text

def strtoull (text : List UInt8) : Converted UInt64 := convertText readSigned clampUInt64 0 text

/-! ### Floating-point numbers -/

inductive Radix
  | decimal
  | hexadecimal
deriving DecidableEq

def toLower (c : UInt8) : UInt8 := if 65 ≤ c ∧ c ≤ 90 then c + 32 else c

namespace Radix

def base : Radix → Nat
  | decimal => 10
  | hexadecimal => 16

def IsDigit : Radix → UInt8 → Prop
  | decimal, c => Decimal.IsDigit c
  | hexadecimal, c => Decimal.IsDigit c ∨ 97 ≤ c ∧ c ≤ 102

instance (radix : Radix) (c : UInt8) : Decidable (radix.IsDigit c) :=
  match radix with
  | decimal => inferInstanceAs (Decidable (Decimal.IsDigit c))
  | hexadecimal => inferInstanceAs (Decidable (_ ∨ _))

/-- The number a lower-case digit stands for. -/
def digitValue (c : UInt8) : Nat := if 97 ≤ c then c.toNat - 87 else Decimal.digitValue c

def value (radix : Radix) (digits : List UInt8) : Nat :=
  digits.foldl (fun total c => total * radix.base + digitValue c) 0

/-- The letter before an exponent. -/
def marker : Radix → UInt8
  | decimal => 101
  | hexadecimal => 112

/-- Powers of ten, or of two, that one digit behind the point takes away. -/
def digitExponent : Radix → Int
  | decimal => 1
  | hexadecimal => 4

end Radix

/-- A floating-point number as it is written. -/
inductive Literal
  /-- A significand scaled by a power of ten or, in hexadecimal, of two. -/
  | finite (radix : Radix) (significand : Nat) (exponent : Int)
  | infinity
  | nan
deriving DecidableEq

def readExponent (radix : Radix) : List UInt8 → Option Int
  | [] => some 0
  | c :: rest => if c = radix.marker then (readSigned rest).map signed else none

/-- Digits with an optional point among them and an optional exponent. -/
def readFinite (radix : Radix) (text : List UInt8) : Option Literal :=
  let whole := text.takeWhile (fun c => decide (radix.IsDigit c))
  let tail := text.dropWhile (fun c => decide (radix.IsDigit c))
  let (fraction, tail) :=
    match tail with
    | 46 :: tail =>
        (tail.takeWhile (fun c => decide (radix.IsDigit c)),
          tail.dropWhile (fun c => decide (radix.IsDigit c)))
    | tail => ([], tail)
  if whole ++ fraction = [] then none
  else
    (readExponent radix tail).map fun exponent =>
      .finite radix (radix.value (whole ++ fraction))
        (exponent - radix.digitExponent * fraction.length)

/-- Bytes that may stand between the parentheses behind `nan`, in lower case. -/
def IsNanChar (c : UInt8) : Prop := Decimal.IsDigit c ∨ c = 95 ∨ 97 ≤ c ∧ c ≤ 122

instance (c : UInt8) : Decidable (IsNanChar c) := inferInstanceAs (Decidable (_ ∨ _))

/-- A number in lower case and without its sign. -/
def readLower : List UInt8 → Option Literal
  | [105, 110, 102] | [105, 110, 102, 105, 110, 105, 116, 121] => some .infinity
  | [110, 97, 110] => some .nan
  | 110 :: 97 :: 110 :: 40 :: rest =>
      if rest.getLast? = some 41 ∧ rest.dropLast.all (IsNanChar ·) then some .nan else none
  | 48 :: 120 :: rest => readFinite .hexadecimal rest
  | text => readFinite .decimal text

/-- A number with an optional sign: whether the sign is a minus, and the rest. -/
def readFloat (text : List UInt8) : Option (Bool × Literal) :=
  match text with
  | 45 :: rest => (readLower (rest.map toLower)).map (true, ·)
  | 43 :: rest => (readLower (rest.map toLower)).map (false, ·)
  | rest => (readLower (rest.map toLower)).map (false, ·)

@[simp]
theorem readFloat_nil : readFloat [] = none := rfl

example : readFloat [45, 49, 46, 53, 101, 51] = some (true, .finite .decimal 15 2) := by
  decide +kernel

example : readFloat [48, 88, 46, 56, 80, 45, 49] = some (false, .finite .hexadecimal 8 (-5)) := by
  decide +kernel

/-- A floating-point type as the conversions see it. -/
structure Format (F : Type) where
  /-- The value of a written number, and whether a range error is reported for it. -/
  convert : Bool × Literal → F × Bool
  zero : F
  isZero : F → Bool
  /-- Equality with one of the infinities. -/
  isHugeVal : F → Bool
  isNan : F → Bool

namespace Format

variable {F : Type} (format : Format F)

/-- A number of which the type keeps nothing but an infinity or a zero. -/
def OutOfRange (number : Bool × Literal) : Prop :=
  (format.convert number).2 ∧
    (format.isHugeVal (format.convert number).1 ∨ format.isZero (format.convert number).1)

instance (number : Bool × Literal) : Decidable (format.OutOfRange number) :=
  inferInstanceAs (Decidable (_ ∧ _))

/-- Nothing but the texts that say so is converted to something that is not a number. -/
structure NanExact : Prop where
  convert : ∀ number, format.isNan (format.convert number).1 ↔ number.2 = .nan
  zero : format.isNan format.zero = false

/-- Conversion to a floating-point type. -/
def strtod (text : List UInt8) : Converted F :=
  convertText readFloat format.convert format.zero text

end Format

/-- The format that keeps every number as it is written. -/
def exactFormat : Format (Bool × Literal) where
  convert number := (number, false)
  zero := (false, .finite .decimal 0 0)
  isZero number := number.2 matches .finite _ 0 _
  isHugeVal number := number.2 = .infinity
  isNan number := number.2 = .nan

theorem exactFormat_nanExact : exactFormat.NanExact where
  convert _ := by simp [exactFormat]
  zero := rfl

end Conversion
