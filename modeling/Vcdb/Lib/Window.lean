import Mathlib.Data.UInt

/-!
# Circular windows

A sequence kept under consecutive 64-bit numbers, which may wrap from 2^64 - 1 to 0.  Adding,
removing or replacing one element of the sequence changes one number.
-/

namespace Window

variable {α : Type*}

/-- What a window that starts at `left` keeps under a number. -/
def cell (cells : List α) (left seq : UInt64) : Option α := cells[(seq - left).toNat]?

theorem toNat_sub_eq_iff {left seq : UInt64} {i : Nat} (small : i < 2 ^ 64) :
    (seq - left).toNat = i ↔ seq = left + UInt64.ofNat i := by
  have word : (UInt64.ofNat i).toNat = i := UInt64.toNat_ofNat_of_lt' small
  constructor
  · intro offset
    rw [← offset, UInt64.ofNat_toNat, UInt64.add_comm, UInt64.sub_add_cancel]
  · rintro rfl
    rw [UInt64.add_comm, UInt64.add_sub_cancel, word]

@[simp]
theorem cell_nil (left seq : UInt64) : cell ([] : List α) left seq = none := rfl

theorem cell_at {cells : List α} {left : UInt64} {i : Nat} (small : i < 2 ^ 64) :
    cell cells left (left + UInt64.ofNat i) = cells[i]? := by
  rw [cell, (toNat_sub_eq_iff small).mpr rfl]

theorem cell_cons (cells : List α) (val : α) (left seq : UInt64) :
    cell (val :: cells) (left - 1) seq =
      if seq = left - 1 then some val else cell cells left seq := by
  split_ifs with first
  · rw [first, cell, UInt64.sub_self]
    rfl
  · have offset : (seq - (left - 1)).toNat = (seq - left).toNat + 1 := by
      have shift : seq - (left - 1) = seq - left + 1 := by grind
      have wraps : (seq - left).toNat ≠ 2 ^ 64 - 1 := by
        intro full
        apply first
        rw [toNat_sub_eq_iff (by decide)] at full
        rw [full]
        have minusOne : UInt64.ofNat (2 ^ 64 - 1) = -1 := by decide
        rw [minusOne, UInt64.sub_eq_add_neg]
      have below := (seq - left).toNat_lt
      rw [shift, UInt64.toNat_add]
      have one : (1 : UInt64).toNat = 1 := rfl
      rw [one]
      exact Nat.mod_eq_of_lt (by omega)
    rw [cell, offset, List.getElem?_cons_succ, cell]

theorem cell_concat {cells : List α} (room : cells.length < 2 ^ 64) (val : α) (left seq : UInt64) :
    cell (cells ++ [val]) left seq =
      if seq = left + UInt64.ofNat cells.length then some val else cell cells left seq := by
  rw [cell, cell]
  split_ifs with last
  · rw [(toNat_sub_eq_iff room).mpr last]
    simp
  · have ne : (seq - left).toNat ≠ cells.length := fun same =>
      last ((toNat_sub_eq_iff room).mp same)
    by_cases inside : (seq - left).toNat < cells.length
    · rw [List.getElem?_append_left inside]
    · rw [List.getElem?_eq_none (by rw [List.length_append, List.length_singleton]; omega),
        List.getElem?_eq_none (by omega)]

theorem cell_tail {cells : List α} (small : cells.length < 2 ^ 64) (left seq : UInt64) :
    cell cells.tail (left + 1) seq = if seq = left then none else cell cells left seq := by
  cases cells with
  | nil => simp
  | cons val cells =>
      have grown := cell_cons cells val (left + 1) seq
      rw [UInt64.add_sub_cancel] at grown
      rw [List.tail_cons]
      split_ifs with first
      · subst first
        have full : (seq - (seq + 1)).toNat = 2 ^ 64 - 1 := by
          have minusOne : seq - (seq + 1) = -1 := by grind
          rw [minusOne]
          rfl
        rw [cell, full, List.getElem?_eq_none]
        rw [List.length_cons] at small
        omega
      · rw [grown, if_neg first]

theorem cell_dropLast {cells : List α} (small : cells.length < 2 ^ 64) (nonempty : cells ≠ [])
    (left seq : UInt64) :
    cell cells.dropLast left seq =
      if seq = left + UInt64.ofNat cells.length - 1 then none else cell cells left seq := by
  obtain ⟨front, val, rfl⟩ : ∃ front val, cells = front ++ [val] :=
    ⟨_, _, (List.dropLast_append_getLast nonempty).symm⟩
  rw [List.length_append, List.length_singleton] at small ⊢
  have last : left + UInt64.ofNat (front.length + 1) - 1 = left + UInt64.ofNat front.length := by
    rw [UInt64.ofNat_add]
    have one : UInt64.ofNat 1 = 1 := rfl
    rw [one, ← UInt64.add_assoc, UInt64.add_sub_cancel]
  rw [List.dropLast_concat, last, cell_concat (by omega)]
  split_ifs with same
  · rw [same, cell_at (by omega), List.getElem?_eq_none le_rfl]
  · rfl

theorem cell_set {cells : List α} {i : Nat} (inside : i < cells.length)
    (small : cells.length < 2 ^ 64) (val : α) (left seq : UInt64) :
    cell (cells.set i val) left seq =
      if seq = left + UInt64.ofNat i then some val else cell cells left seq := by
  rw [cell, cell, List.getElem?_set]
  by_cases same : seq = left + UInt64.ofNat i
  · rw [if_pos same, (toNat_sub_eq_iff (by omega)).mpr same, if_pos rfl, if_pos inside]
  · rw [if_neg same, if_neg fun offset => same ((toNat_sub_eq_iff (by omega)).mp offset.symm)]

end Window
