import Vcdb.Codec.Encode
import Vcdb.Lib.Conversion

/-!
# Numbers in arguments

Every numeric argument of a command is parsed by one of four functions that show failure through
`errno` alone.
-/

namespace Vcdb

open Conversion

/-- The last error of the C library. -/
abbrev Errno := Int

def einval : Errno := 22

def erange : Errno := 34

/-- Accept a conversion that read the whole string, whatever error it reported; otherwise see to
it that `errno` is set. -/
def wholeString {α : Type} (str : Bytes) (result : Converted α) : α × Errno :=
  let errno : Errno := if result.rangeError then erange else 0
  if charAt str result.stop = 0 ∧ result.stop = str.length then (result.value, 0)
  else (result.value, if errno = 0 then einval else errno)

/-- `errno` is cleared first, so its value before the call is lost. -/
def strToInt64 (str : Bytes) (_ : Errno) : Int64 × Errno :=
  wholeString str (strtoll (cString str))

/-- The 64-bit value is cut to its low half. -/
def strToInt (str : Bytes) (_ : Errno) : Int32 × Errno :=
  let (value, errno) := wholeString str (strtoll (cString str))
  (value.toInt32, errno)

def strToUInt64 (str : Bytes) (_ : Errno) : UInt64 × Errno :=
  wholeString str (strtoull (cString str))

section Float

variable {F : Type} (format : Format F)

/-- `str_to_double` and `str_to_long_double`, which differ in their type only. -/
def strToFloat (s : Bytes) (errno : Errno) : F × Errno :=
  -- the text is copied to a buffer; what does not fit is refused before `errno` is touched
  if 256 ≤ s.length then (format.zero, errno)
  else
    let result := format.strtod (cString s)
    let errno : Errno := if result.rangeError then erange else 0
    if IsSpace (charAt s 0) ∨ charAt s result.stop ≠ 0 ∨
        (errno = erange ∧ (format.isHugeVal result.value ∨ format.isZero result.value)) ∨
        errno = einval ∨ format.isNan result.value then
      (format.zero, einval)
    else (result.value, errno)

end Float

def strToDouble {Double : Type} (double : Format Double) (s : Bytes) (errno : Errno) :
    Double × Errno :=
  strToFloat double s errno

def strToLongDouble {LongDouble : Type} (longDouble : Format LongDouble) (s : Bytes)
    (errno : Errno) : LongDouble × Errno :=
  strToFloat longDouble s errno

/-! ### What the parsers are for -/

/-- The 64-bit integer that a text writes as an optional sign and digits. -/
def int64Number (text : Bytes) : Option Int64 :=
  (readSigned text).bind fun number =>
    if -2 ^ 63 ≤ signed number ∧ signed number < 2 ^ 63 then some (Int64.ofInt (signed number))
    else none

/-- The unsigned 64-bit integer that a text writes as an optional sign and digits. -/
def uint64Number (text : Bytes) : Option UInt64 :=
  (readSigned text).bind fun number =>
    if 0 ≤ signed number ∧ signed number < 2 ^ 64 then
      some (UInt64.ofNat (signed number).toNat)
    else none

/-- The value of a text that is, as a whole, a number within the range of the type. -/
def floatNumber {F : Type} (format : Format F) (text : Bytes) : Option F :=
  if (0 : UInt8) ∈ text ∨ IsSpace (charAt text 0) then none
  else
    (readFloat text).bind fun number =>
      if number.2 = .nan ∨ format.OutOfRange number then none
      else some (format.convert number).1

/-- A number is returned without a sign of failure, and everything else fails with the error that
callers test. -/
def Meets {α : Type} (outcome : α × Errno) (number : Option α) : Prop :=
  match number with
  | some value => outcome.2 ≠ einval ∧ outcome.1 = value
  | none => outcome.2 = einval

instance {α : Type} [DecidableEq α] (outcome : α × Errno) (number : Option α) :
    Decidable (Meets outcome number) :=
  match number with
  | some _ => inferInstanceAs (Decidable (_ ∧ _))
  | none => inferInstanceAs (Decidable (_ = _))

/-- The integer at the start of a text, behind its white space. -/
def leadingInteger (text : Bytes) : Option (Bool × Nat) := (scan readSigned (cString text)).1

/-- White space in front of an integer. -/
def SpacedInteger (text : Bytes) : Prop :=
  IsSpace (charAt text 0) ∧ (readSigned (skipSpace text)).isSome

instance (text : Bytes) : Decidable (SpacedInteger text) := inferInstanceAs (Decidable (_ ∧ _))

theorem not_isSpace_of_readSigned {text : Bytes} {number : Bool × Nat}
    (read : readSigned text = some number) : ¬IsSpace (charAt text 0) := by
  intro space
  have same := skipSpace_of_readSigned read
  cases text with
  | nil => cases read
  | cons c rest =>
      have head : IsSpace c := space
      rw [skipSpace, List.dropWhile_cons_of_pos (by simpa using head)] at same
      have shorter := (List.dropWhile_suffix (l := rest) (fun c => decide (IsSpace c))).length_le
      rw [same, List.length_cons] at shorter
      omega

theorem skipSpace_of_not_isSpace {text : Bytes} (start : ¬IsSpace (charAt text 0)) :
    skipSpace text = text := by
  cases text with
  | nil => rfl
  | cons c rest => exact skipSpace_of_head start

theorem wholeString_of_stop {α : Type} {str : Bytes} {result : Converted α}
    (whole : result.stop = str.length) : wholeString str result = (result.value, 0) := by
  rw [wholeString, if_pos ⟨by rw [whole, charAt_length], whole⟩]

theorem wholeString_of_rest {α : Type} {str : Bytes} {result : Converted α}
    (rest : result.stop ≠ str.length) :
    wholeString str result = (result.value, if result.rangeError then erange else einval) := by
  rw [wholeString, if_neg (fun whole => rest whole.2)]
  cases result.rangeError <;> rfl

/-- An integer parser meets its purpose unless the string is empty, starts with an integer out of
the range, has white space in front of an integer, or is an integer that is to be refused. -/
theorem meets_wholeString_iff {α : Type} (clamp : Bool × Nat → α × Bool) (zero : α)
    (wanted : Bool × Nat → Prop) [DecidablePred wanted]
    (inRange : ∀ number, wanted number → (clamp number).2 = false) (text : Bytes) :
    Meets (wholeString text (convertText readSigned clamp zero (cString text)))
        ((readSigned text).bind fun number =>
          if wanted number then some (clamp number).1 else none) ↔
      text ≠ [] ∧ (∀ number ∈ leadingInteger text, (clamp number).2 = false) ∧
        ¬SpacedInteger text ∧ ∀ number ∈ readSigned text, wanted number := by
  have stops : (convertText readSigned clamp zero (cString text)).stop =
      (scan readSigned (cString text)).2 := by
    rw [convertText]
    rcases scan readSigned (cString text) with ⟨_ | number, stop⟩ <;> rfl
  cases whole : readSigned (skipSpace text) with
  | some number =>
      have clean := not_mem_of_not_mem_skipSpace (not_mem_of_readSigned whole)
      have scanned := scan_of_read readSigned_nil whole
      rw [← cString_of_not_mem clean] at scanned
      have nonempty : text ≠ [] := by
        rintro rfl
        cases whole
      have converted : convertText readSigned clamp zero (cString text) =
          ⟨(clamp number).1, text.length, (clamp number).2⟩ := by
        rw [convertText, scanned, cString_of_not_mem clean]
      have leading : leadingInteger text = some number := by rw [leadingInteger, scanned]
      rw [converted, wholeString_of_stop rfl, leading]
      by_cases spaced : IsSpace (charAt text 0)
      · have refused : readSigned text = none := by
          cases read : readSigned text with
          | none => rfl
          | some other => exact absurd spaced (not_isSpace_of_readSigned read)
        have both : SpacedInteger text := ⟨spaced, by rw [whole]; rfl⟩
        simp [refused, Meets, both, einval]
      · have read : readSigned text = some number := by
          rw [← skipSpace_of_not_isSpace spaced, whole]
        have notBoth : ¬SpacedInteger text := fun both => spaced both.1
        by_cases accepted : wanted number
        · simp [read, accepted, Meets, nonempty, notBoth, inRange number accepted, einval]
        · simp [read, accepted, Meets, einval]
  | none =>
      have refused : readSigned text = none := by
        cases read : readSigned text with
        | none => rfl
        | some other => rw [skipSpace_of_readSigned read, read] at whole; cases whole
      have notBoth : ¬SpacedInteger text := fun both => by
        have := both.2
        rw [whole] at this
        cases this
      rcases eq_or_ne text [] with rfl | nonempty
      · simp [Meets, refused, wholeString_of_stop, convertText, scan, cString, skipSpace, longest,
          einval]
      · have partRead : (scan readSigned (cString text)).2 ≠ text.length := by
          rw [Ne, scan_cString_stop_eq_length readSigned_nil, whole]
          simpa using nonempty
        rw [wholeString_of_rest (by rw [stops]; exact partRead), convertText, leadingInteger]
        rcases scan readSigned (cString text) with ⟨_ | number, stop⟩
        · simp [refused, Meets, nonempty, notBoth]
        · cases ranged : (clamp number).2 <;>
            simp [refused, Meets, nonempty, notBoth, ranged, einval, erange]

/-! ### Where the parsers meet their purpose -/

def InInt64 (number : Bool × Nat) : Prop := -2 ^ 63 ≤ signed number ∧ signed number < 2 ^ 63

instance : DecidablePred InInt64 := fun _ => inferInstanceAs (Decidable (_ ∧ _))

theorem clampInt64_inRange (number : Bool × Nat) :
    (clampInt64 number).2 = false ↔ InInt64 number := by
  rw [clampInt64, InInt64]
  split_ifs <;> simp <;> omega

theorem clampInt64_of_inRange {number : Bool × Nat} (inRange : InInt64 number) :
    clampInt64 number = (Int64.ofInt (signed number), false) := by
  rw [clampInt64, if_neg (not_lt.mpr inRange.1), if_neg (not_le.mpr inRange.2)]

/-- The texts for which `strToInt64` does what it is for. -/
def Int64Text (text : Bytes) : Prop :=
  text ≠ [] ∧ (∀ number ∈ leadingInteger text, InInt64 number) ∧ ¬SpacedInteger text

theorem leadingInteger_of_readSigned {text : Bytes} {number : Bool × Nat}
    (read : readSigned text = some number) : leadingInteger text = some number := by
  have clean := not_mem_of_readSigned read
  have whole : readSigned (skipSpace text) = some number := by
    rw [skipSpace_of_readSigned read, read]
  rw [leadingInteger, cString_of_not_mem clean, scan_of_read readSigned_nil whole]

theorem strToInt64_meets_iff (text : Bytes) (errno : Errno) :
    Meets (strToInt64 text errno) (int64Number text) ↔ Int64Text text := by
  have purpose : int64Number text = (readSigned text).bind fun number =>
      if InInt64 number then some (clampInt64 number).1 else none := by
    rw [int64Number]
    refine congrArg _ (funext fun number => ?_)
    by_cases inRange : InInt64 number
    · rw [if_pos inRange, clampInt64_of_inRange inRange]
      exact if_pos inRange
    · rw [if_neg inRange]
      exact if_neg inRange
  have general := meets_wholeString_iff clampInt64 0 InInt64
    (fun number => (clampInt64_inRange number).mpr) text
  rw [purpose, strToInt64, strtoll, general, Int64Text]
  simp only [clampInt64_inRange]
  constructor
  · rintro ⟨nonempty, leading, spaced, _⟩
    exact ⟨nonempty, leading, spaced⟩
  · rintro ⟨nonempty, leading, spaced⟩
    exact ⟨nonempty, leading, spaced, fun number read =>
      leading number (leadingInteger_of_readSigned read)⟩

def InUInt64 (number : Bool × Nat) : Prop := 0 ≤ signed number ∧ signed number < 2 ^ 64

instance : DecidablePred InUInt64 := fun _ => inferInstanceAs (Decidable (_ ∧ _))

theorem clampUInt64_inRange (number : Bool × Nat) :
    (clampUInt64 number).2 = false ↔ number.2 < 2 ^ 64 := by
  rw [clampUInt64]
  split_ifs <;> simp <;> omega

theorem clampUInt64_of_inRange {number : Bool × Nat} (inRange : InUInt64 number) :
    clampUInt64 number = (UInt64.ofNat (signed number).toNat, false) := by
  rcases number with ⟨_ | _, magnitude⟩
  · have small : magnitude < 2 ^ 64 := by
      have := inRange.2
      rw [signed_false] at this
      omega
    rw [clampUInt64, if_neg (not_le.mpr small)]
    rfl
  · -- the only number with a minus sign in the range is zero
    obtain rfl : magnitude = 0 := by
      have := inRange.1
      rw [signed_true] at this
      omega
    decide

/-- The texts for which `strToUInt64` does what it is for. -/
def UInt64Text (text : Bytes) : Prop :=
  text ≠ [] ∧ (∀ number ∈ leadingInteger text, number.2 < 2 ^ 64) ∧ ¬SpacedInteger text ∧
    ∀ magnitude, readSigned text = some (true, magnitude) → magnitude = 0

theorem strToUInt64_meets_iff (text : Bytes) (errno : Errno) :
    Meets (strToUInt64 text errno) (uint64Number text) ↔ UInt64Text text := by
  have purpose : uint64Number text = (readSigned text).bind fun number =>
      if InUInt64 number then some (clampUInt64 number).1 else none := by
    rw [uint64Number]
    refine congrArg _ (funext fun number => ?_)
    by_cases inRange : InUInt64 number
    · rw [if_pos inRange, clampUInt64_of_inRange inRange]
      exact if_pos inRange
    · rw [if_neg inRange]
      exact if_neg inRange
  have general := meets_wholeString_iff clampUInt64 0 InUInt64
    (fun number inRange => by rw [clampUInt64_of_inRange inRange]) text
  rw [purpose, strToUInt64, strtoull, general, UInt64Text]
  simp only [clampUInt64_inRange]
  refine and_congr_right fun _ => and_congr_right fun leading => and_congr_right fun _ => ?_
  constructor
  · intro wanted magnitude read
    have := (wanted _ read).1
    rw [signed_true] at this
    omega
  · rintro positive ⟨_ | _, magnitude⟩ read
    · have small := leading _ (leadingInteger_of_readSigned read)
      simp only [InUInt64, signed_false]
      omega
    · obtain rfl := positive magnitude read
      decide

section Float

variable {F : Type} (format : Format F)

/-- The texts for which the floating-point parsers do what they are for, given the error left by
an earlier call. -/
def FloatText (text : Bytes) (errno : Errno) : Prop :=
  if 256 ≤ text.length then
    (floatNumber format text = none ∧ errno = einval) ∨
      (floatNumber format text = some format.zero ∧ errno ≠ einval)
  else
    cString text ≠ [] ∧ ((0 : UInt8) ∈ text → floatNumber format (cString text) = none)

variable {format}

theorem strToFloat_of_fits {text : Bytes} (fits : text.length < 256)
    (start : ¬IsSpace (charAt text 0)) (errno : Errno) :
    strToFloat format text errno =
      let result := format.strtod (cString text)
      if charAt text result.stop ≠ 0 ∨
          (result.rangeError ∧ (format.isHugeVal result.value ∨ format.isZero result.value)) ∨
          format.isNan result.value then (format.zero, einval)
      else (result.value, if result.rangeError then erange else 0) := by
  rw [strToFloat, if_neg (not_le.mpr fits)]
  cases ranged : (format.strtod (cString text)).rangeError <;>
    simp [start, ranged, einval, erange]

theorem strToFloat_of_nil (nanExact : format.NanExact) {text : Bytes}
    (nothing : cString text = []) (errno : Errno) :
    text.length < 256 → strToFloat format text errno = (format.zero, 0) := by
  intro fits
  have head : charAt text 0 = 0 := by
    have := charAt_length_cString text
    rwa [nothing] at this
  have start : ¬IsSpace (charAt text 0) := by
    rw [head]
    decide
  rw [strToFloat_of_fits fits start, nothing]
  have converted : format.strtod [] = ⟨format.zero, 0, false⟩ := rfl
  simp [converted, head, nanExact.zero]

/-- A text that is no number up to its first null byte is refused. -/
theorem strToFloat_of_rest {text : Bytes} (fits : text.length < 256)
    (something : cString text ≠ []) (start : ¬IsSpace (charAt text 0))
    (unread : readFloat (skipSpace (cString text)) = none) (errno : Errno) :
    strToFloat format text errno = (format.zero, einval) := by
  have stops : (format.strtod (cString text)).stop = (scan readFloat (cString text)).2 := by
    rw [Format.strtod, convertText]
    rcases scan readFloat (cString text) with ⟨_ | number, stop⟩ <;> rfl
  have before : (scan readFloat (cString text)).2 ≠ (cString text).length := by
    rw [Ne, scan_stop_eq_length readFloat_nil, unread]
    simpa using something
  have inside : (scan readFloat (cString text)).2 < (cString text).length :=
    lt_of_le_of_ne (scan_stop_le _) before
  rw [strToFloat_of_fits fits start]
  simp only
  rw [if_pos (Or.inl (by rw [stops]; exact charAt_of_lt inside))]

theorem strToFloat_of_number (nanExact : format.NanExact) {text : Bytes}
    (fits : text.length < 256) (start : ¬IsSpace (charAt text 0)) {number : Bool × Literal}
    (read : readFloat (skipSpace (cString text)) = some number) (errno : Errno) :
    strToFloat format text errno =
      if number.2 = .nan ∨ format.OutOfRange number then (format.zero, einval)
      else ((format.convert number).1, if (format.convert number).2 then erange else 0) := by
  have converted : format.strtod (cString text) =
      ⟨(format.convert number).1, (cString text).length, (format.convert number).2⟩ := by
    rw [Format.strtod, convertText, scan_of_read readFloat_nil read]
  rw [strToFloat_of_fits fits start, converted]
  simp only [charAt_length_cString, ne_eq, not_true_eq_false, false_or, nanExact.convert]
  refine if_congr ?_ rfl rfl
  rw [Format.OutOfRange, or_comm]

theorem strToFloat_of_space {text : Bytes} (fits : text.length < 256)
    (space : IsSpace (charAt text 0)) (errno : Errno) :
    strToFloat format text errno = (format.zero, einval) := by
  rw [strToFloat, if_neg (not_le.mpr fits)]
  simp only
  rw [if_pos (Or.inl space)]

theorem floatNumber_of_mem {text : Bytes} (null : (0 : UInt8) ∈ text) :
    floatNumber format text = none := by
  rw [floatNumber, if_pos (Or.inl null)]

theorem floatNumber_of_space {text : Bytes} (space : IsSpace (charAt text 0)) :
    floatNumber format text = none := by
  rw [floatNumber, if_pos (Or.inr space)]

theorem floatNumber_cString {text : Bytes} (start : ¬IsSpace (charAt (cString text) 0)) :
    floatNumber format (cString text) = (readFloat (cString text)).bind fun number =>
      if number.2 = .nan ∨ format.OutOfRange number then none
      else some (format.convert number).1 := by
  rw [floatNumber, if_neg]
  rintro (null | space)
  · exact not_mem_cString text null
  · exact start space

/-- The parser sees the text before the first null byte only. -/
theorem strToFloat_meets_short (nanExact : format.NanExact) {text : Bytes}
    (fits : text.length < 256) (errno : Errno) :
    Meets (strToFloat format text errno) (floatNumber format text) ↔
      cString text ≠ [] ∧ ((0 : UInt8) ∈ text → floatNumber format (cString text) = none) := by
  rcases eq_or_ne (cString text) [] with nothing | something
  · have number : floatNumber format text = none := by
      cases text with
      | nil => rfl
      | cons c rest =>
          apply floatNumber_of_mem
          by_contra clean
          rw [cString_of_not_mem clean] at nothing
          cases nothing
    rw [strToFloat_of_nil nanExact nothing errno fits, number]
    simp [Meets, nothing, einval]
  · have head : charAt (cString text) 0 = charAt text 0 := by
      cases text with
      | nil => rfl
      | cons c rest =>
          have present : c ≠ 0 := by
            rintro rfl
            exact something rfl
          rw [cString, List.takeWhile_cons_of_pos (by simpa using present)]
          rfl
    by_cases space : IsSpace (charAt text 0)
    · rw [strToFloat_of_space fits space, floatNumber_of_space space]
      simp [Meets, something, floatNumber_of_space (head ▸ space)]
    · have start : ¬IsSpace (charAt (cString text) 0) := head ▸ space
      have skipped := skipSpace_of_not_isSpace start
      have visible : floatNumber format (cString text) = _ := floatNumber_cString start
      have seen : ∀ result : F × Errno, Meets result (floatNumber format text) ↔
          Meets result (if (0 : UInt8) ∈ text then none
            else floatNumber format (cString text)) := by
        intro result
        split_ifs with null
        · rw [floatNumber_of_mem null]
        · rw [cString_of_not_mem null]
      rw [seen]
      cases read : readFloat (cString text) with
      | none =>
          rw [strToFloat_of_rest fits something space (by rw [skipped, read]), visible, read]
          simp [Meets, something]
      | some number =>
          rw [strToFloat_of_number nanExact fits space (by rw [skipped, read]), visible, read]
          by_cases refused : number.2 = .nan ∨ format.OutOfRange number
          · simp [Meets, something, refused]
          · have noError : (if (format.convert number).2 then erange else 0) ≠ einval := by
              split_ifs <;> decide
            by_cases null : (0 : UInt8) ∈ text
            · simp [Meets, something, refused, null, noError]
            · simp [Meets, something, refused, null, noError]

theorem strToFloat_meets_iff (nanExact : format.NanExact) (text : Bytes) (errno : Errno) :
    Meets (strToFloat format text errno) (floatNumber format text) ↔
      FloatText format text errno := by
  rw [FloatText]
  split_ifs with long
  · rw [strToFloat, if_pos long]
    cases floatNumber format text with
    | none => simp [Meets]
    | some value => simp [Meets, and_comm, eq_comm]
  · exact strToFloat_meets_short nanExact (not_le.mp long) errno

end Float

/-- Which texts the four parsers of numeric arguments treat as they should. -/
theorem numberParsers_meet_iff {Double LongDouble : Type} {double : Format Double}
    {longDouble : Format LongDouble} (doubleNan : double.NanExact)
    (longDoubleNan : longDouble.NanExact) (text : Bytes) (errno : Errno) :
    (Meets (strToInt64 text errno) (int64Number text) ↔ Int64Text text) ∧
      (Meets (strToUInt64 text errno) (uint64Number text) ↔ UInt64Text text) ∧
      (Meets (strToDouble double text errno) (floatNumber double text) ↔
        FloatText double text errno) ∧
      (Meets (strToLongDouble longDouble text errno) (floatNumber longDouble text) ↔
        FloatText longDouble text errno) :=
  ⟨strToInt64_meets_iff text errno, strToUInt64_meets_iff text errno,
    strToFloat_meets_iff doubleNan text errno, strToFloat_meets_iff longDoubleNan text errno⟩

theorem numberParsers_meet_one :
    (Meets (strToInt64 [49] einval) (int64Number [49]) ↔ Int64Text [49]) ∧
      (Meets (strToUInt64 [49] einval) (uint64Number [49]) ↔ UInt64Text [49]) ∧
      (Meets (strToDouble exactFormat [49] einval) (floatNumber exactFormat [49]) ↔
        FloatText exactFormat [49] einval) ∧
      (Meets (strToLongDouble exactFormat [49] einval) (floatNumber exactFormat [49]) ↔
        FloatText exactFormat [49] einval) :=
  numberParsers_meet_iff exactFormat_nanExact exactFormat_nanExact [49] einval

/-- The empty text passes for zero, `-1` for the largest unsigned integer, and `1` followed by a
null byte for one. -/
theorem numberParsers_accept_other_texts :
    ¬Meets (strToInt64 [] 0) (int64Number []) ∧
      ¬Meets (strToUInt64 [45, 49] 0) (uint64Number [45, 49]) ∧
      ¬Meets (strToDouble exactFormat [49, 0] 0) (floatNumber exactFormat [49, 0]) ∧
      ¬Meets (strToLongDouble exactFormat [] 0) (floatNumber exactFormat []) := by
  decide +kernel

/-- Digits beyond the range are clamped, and what follows them is then accepted as well: the error
left behind is not the one that callers test. -/
example : strToInt64 (List.replicate 20 57 ++ [120]) 0 = (Int64.maxValue, erange) := by
  decide +kernel

end Vcdb
