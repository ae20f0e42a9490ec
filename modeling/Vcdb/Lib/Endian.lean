import Mathlib.Order.Lattice
import Mathlib.Data.List.Lex
import Mathlib.Tactic.Ring

/-!
# Fixed-width positional encodings

Byte strings, and numbers written in a fixed number of base-256 digits.  The big-endian form is
injective and monotone for the byte order, which is what lets an ordered store sort encoded
numbers.
-/

instance byteLinearOrder : LinearOrder UInt8 where
  le_refl := UInt8.le_refl
  le_trans := @UInt8.le_trans
  le_antisymm := @UInt8.le_antisymm
  le_total := UInt8.le_total
  lt_iff_le_not_ge := by
    intro a b
    simp only [UInt8.lt_iff_toNat_lt, UInt8.le_iff_toNat_le]
    omega
  toDecidableLE := inferInstance

namespace Endian

/-- The `width` low base-256 digits of a number, most significant first. -/
def bigEndian : Nat → Nat → List UInt8
  | 0, _ => []
  | width + 1, n => UInt8.ofNat (n / 256 ^ width) :: bigEndian width (n % 256 ^ width)

/-- The number a digit string denotes, most significant digit first. -/
def ofBigEndian (digits : List UInt8) : Nat :=
  digits.foldl (fun value digit => value * 256 + digit.toNat) 0

@[simp]
theorem length_bigEndian (width n : Nat) : (bigEndian width n).length = width := by
  induction width generalizing n with
  | zero => rfl
  | succ width ih => simp [bigEndian, ih]

theorem foldl_digits (digits : List UInt8) (start : Nat) :
    digits.foldl (fun value digit => value * 256 + digit.toNat) start =
      start * 256 ^ digits.length + ofBigEndian digits := by
  induction digits generalizing start with
  | nil => simp [ofBigEndian]
  | cons digit digits ih =>
      rw [ofBigEndian, List.foldl_cons, List.foldl_cons, ih, ih (0 * 256 + digit.toNat)]
      simp only [List.length_cons]
      ring

theorem ofBigEndian_cons (digit : UInt8) (digits : List UInt8) :
    ofBigEndian (digit :: digits) = digit.toNat * 256 ^ digits.length + ofBigEndian digits := by
  rw [ofBigEndian, List.foldl_cons, foldl_digits]
  simp

/-- Reading back what was written. -/
theorem ofBigEndian_bigEndian {width n : Nat} (small : n < 256 ^ width) :
    ofBigEndian (bigEndian width n) = n := by
  induction width generalizing n with
  | zero =>
      obtain rfl : n = 0 := by simpa using small
      rfl
  | succ width ih =>
      have positive : 0 < 256 ^ width := Nat.pow_pos (by decide)
      have digit_lt : n / 256 ^ width < 256 := by
        rw [Nat.div_lt_iff_lt_mul positive, ← Nat.pow_succ']
        exact small
      rw [bigEndian, ofBigEndian_cons, ih (Nat.mod_lt _ positive), length_bigEndian,
        UInt8.toNat_ofNat_of_lt' digit_lt]
      exact Nat.div_add_mod' n (256 ^ width)

theorem bigEndian_injective {width m n : Nat} (hm : m < 256 ^ width) (hn : n < 256 ^ width)
    (same : bigEndian width m = bigEndian width n) : m = n := by
  rw [← ofBigEndian_bigEndian hm, same, ofBigEndian_bigEndian hn]

theorem ofBigEndian_lt (digits : List UInt8) : ofBigEndian digits < 256 ^ digits.length := by
  induction digits with
  | nil => simp [ofBigEndian]
  | cons digit digits ih =>
      rw [ofBigEndian_cons, List.length_cons, Nat.pow_succ']
      have digit_lt : digit.toNat < 256 := digit.toNat_lt
      calc
        digit.toNat * 256 ^ digits.length + ofBigEndian digits
            < digit.toNat * 256 ^ digits.length + 256 ^ digits.length := by omega
        _ = (digit.toNat + 1) * 256 ^ digits.length := by ring
        _ ≤ 256 * 256 ^ digits.length := Nat.mul_le_mul_right _ (by omega)

/-- Writing back what was read. -/
theorem bigEndian_ofBigEndian (digits : List UInt8) :
    bigEndian digits.length (ofBigEndian digits) = digits := by
  induction digits with
  | nil => rfl
  | cons digit digits ih =>
      have below := ofBigEndian_lt digits
      have positive : 0 < 256 ^ digits.length := Nat.pow_pos (by decide)
      rw [List.length_cons, bigEndian, ofBigEndian_cons]
      rw [Nat.mul_comm, Nat.mul_add_div positive, Nat.div_eq_of_lt below, Nat.mul_add_mod,
        Nat.mod_eq_of_lt below, ih]
      simp

theorem lt_append_of_length_eq {α : Type*} [LinearOrder α] {a b : List α} (c d : List α)
    (length_eq : a.length = b.length) (lt : a < b) : a ++ c < b ++ d := by
  induction a generalizing b with
  | nil =>
      obtain rfl := List.length_eq_zero_iff.mp length_eq.symm
      exact absurd lt (lt_irrefl _)
  | cons x a ih =>
      cases b with
      | nil => simp at length_eq
      | cons y b =>
          rw [List.cons_append, List.cons_append, List.cons_lt_cons_iff]
          rcases List.cons_lt_cons_iff.mp lt with below | ⟨rfl, below⟩
          · exact Or.inl below
          · exact Or.inr ⟨rfl, ih (by simpa using length_eq) below⟩

/-- The byte order of big-endian numbers is the numeric order. -/
theorem bigEndian_lt {width m n : Nat} (hn : n < 256 ^ width) (lt : m < n) :
    bigEndian width m < bigEndian width n := by
  induction width generalizing m n with
  | zero => simp at hn; omega
  | succ width ih =>
      have positive : 0 < 256 ^ width := Nat.pow_pos (by decide)
      have digit_lt : n / 256 ^ width < 256 := by
        rw [Nat.div_lt_iff_lt_mul positive, ← Nat.pow_succ']
        exact hn
      have le : m / 256 ^ width ≤ n / 256 ^ width := Nat.div_le_div_right lt.le
      rw [bigEndian, bigEndian, List.cons_lt_cons_iff]
      rcases le.lt_or_eq with below | same
      · left
        rw [UInt8.lt_iff_toNat_lt, UInt8.toNat_ofNat_of_lt' digit_lt,
          UInt8.toNat_ofNat_of_lt' (below.trans digit_lt)]
        exact below
      · right
        refine ⟨by rw [same], ih (Nat.mod_lt _ positive) ?_⟩
        have hm := Nat.div_add_mod' m (256 ^ width)
        have hn := Nat.div_add_mod' n (256 ^ width)
        rw [same] at hm
        omega

end Endian
