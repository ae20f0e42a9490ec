import Mathlib.Data.List.Sort
import Mathlib.Data.List.TakeWhile
import Mathlib.Data.List.Count
import Mathlib.Tactic.Linarith

/-!
# Positions in sorted lists

In a list sorted strictly by a key, an element stands at the position given by the number of
elements with a smaller key.  Two lists over the same elements, sorted by different keys, therefore
agree at a position exactly when the element there has the same number of elements below it under
both keys.  Slices of lists are compared position by position.
-/

namespace Ranking

variable {α κ : Type*}

/-- A prefix of a sorted list, taken by a test that only its beginning passes. -/
theorem takeWhile_eq_filter {p : α → Bool} {xs : List α}
    (closed : xs.Pairwise fun x y => p y → p x) : xs.takeWhile p = xs.filter p := by
  induction xs with
  | nil => rfl
  | cons x xs ih =>
      obtain ⟨below, tail⟩ := List.pairwise_cons.mp closed
      rw [List.takeWhile_cons, List.filter_cons]
      split_ifs with passes
      · rw [ih tail]
      · symm
        rw [List.filter_eq_nil_iff]
        exact fun y mem passes' => passes (below y mem passes')

theorem dropWhile_eq_filter {p : α → Bool} {xs : List α}
    (closed : xs.Pairwise fun x y => p y → p x) :
    xs.dropWhile p = xs.filter fun x => !p x := by
  induction xs with
  | nil => rfl
  | cons x xs ih =>
      obtain ⟨below, tail⟩ := List.pairwise_cons.mp closed
      rw [List.dropWhile_cons, List.filter_cons]
      by_cases passes : p x
      · rw [if_pos passes, ih tail]
        simp [passes]
      · rw [if_neg passes]
        have all : ∀ y ∈ xs, (!p y) = true := by
          intro y mem
          simpa using fun passes' => passes (below y mem passes')
        simp [passes, List.filter_eq_self.mpr all]

/-- Counting by a test that splits into two disjoint ones. -/
theorem countP_eq_add {p q r : α → Bool} {xs : List α}
    (splits : ∀ x ∈ xs, p x = (q x || r x) ∧ ¬(q x = true ∧ r x = true)) :
    xs.countP p = xs.countP q + xs.countP r := by
  induction xs with
  | nil => rfl
  | cons x xs ih =>
      obtain ⟨split, apart⟩ := splits x List.mem_cons_self
      have tail := ih fun y mem => splits y (List.mem_cons_of_mem _ mem)
      rw [List.countP_cons, List.countP_cons, List.countP_cons, tail, split]
      cases first : q x <;> cases second : r x
      · simp
      · simp only [Bool.false_or, if_true, Bool.false_eq_true, if_false]
        omega
      · simp only [Bool.or_false, if_true, Bool.false_eq_true, if_false]
        omega
      · exact absurd ⟨first, second⟩ apart

section Positions

variable [LinearOrder κ] (key : α → κ)

/-- The number of elements with a smaller key. -/
def rank (xs : List α) (x : α) : Nat := xs.countP fun y => key y < key x

variable {key}

theorem rank_perm {xs ys : List α} (perm : xs.Perm ys) (x : α) : rank key xs x = rank key ys x :=
  perm.countP_eq _

theorem rank_mono {xs : List α} {x y : α} (lt : key x < key y) : rank key xs x ≤ rank key xs y :=
  List.countP_mono_left fun _ _ below => decide_eq_true ((of_decide_eq_true below).trans lt)

/-- In a sorted list the rank of an element is its position. -/
theorem getElem?_eq_some_iff_rank {xs : List α} (sorted : xs.Pairwise fun x y => key x < key y)
    {n : Nat} {x : α} : xs[n]? = some x ↔ x ∈ xs ∧ rank key xs x = n := by
  induction xs generalizing n with
  | nil => simp
  | cons head xs ih =>
      obtain ⟨above, tail⟩ := List.pairwise_cons.mp sorted
      have headRank : rank key (head :: xs) head = 0 := by
        rw [rank, List.countP_eq_zero]
        intro y mem
        rcases List.mem_cons.mp mem with rfl | mem
        · simp
        · simpa using (above y mem).le
      have tailRank : ∀ y ∈ xs, rank key (head :: xs) y = rank key xs y + 1 := by
        intro y mem
        rw [rank, List.countP_cons_of_pos (by simpa using above y mem)]
        rfl
      cases n with
      | zero =>
          rw [List.getElem?_cons_zero, Option.some_inj]
          constructor
          · rintro rfl
            exact ⟨List.mem_cons_self, headRank⟩
          · rintro ⟨mem, first⟩
            rcases List.mem_cons.mp mem with rfl | mem
            · rfl
            · rw [tailRank x mem] at first
              omega
      | succ n =>
          rw [List.getElem?_cons_succ, ih tail]
          constructor
          · rintro ⟨mem, rfl⟩
            exact ⟨List.mem_cons_of_mem _ mem, tailRank x mem⟩
          · rintro ⟨mem, same⟩
            rcases List.mem_cons.mp mem with rfl | mem
            · omega
            · rw [tailRank x mem] at same
              exact ⟨mem, by omega⟩

theorem rank_lt_length {xs : List α} (sorted : xs.Pairwise fun x y => key x < key y) {x : α}
    (mem : x ∈ xs) : rank key xs x < xs.length :=
  (List.getElem?_eq_some_iff.mp ((getElem?_eq_some_iff_rank sorted).mpr ⟨mem, rfl⟩)).1

/-- In the reversed list the positions count from the other end. -/
theorem getElem?_reverse_eq_some_iff_rank {xs : List α}
    (sorted : xs.Pairwise fun x y => key x < key y) {n : Nat} {x : α} :
    xs.reverse[n]? = some x ↔ x ∈ xs ∧ rank key xs x + n + 1 = xs.length := by
  by_cases inside : n < xs.length
  · rw [List.getElem?_reverse inside, getElem?_eq_some_iff_rank sorted]
    constructor
    · rintro ⟨mem, same⟩
      exact ⟨mem, by omega⟩
    · rintro ⟨mem, same⟩
      exact ⟨mem, by omega⟩
  · rw [List.getElem?_eq_none (by simpa using Nat.le_of_not_lt inside)]
    constructor
    · rintro ⟨⟩
    · rintro ⟨_, same⟩
      omega

/-- The first element of a sorted list has nothing below it. -/
theorem mem_take_one_iff {xs : List α} (sorted : xs.Pairwise fun x y => key x < key y) {x : α} :
    x ∈ xs.take 1 ↔ x ∈ xs ∧ ∀ y ∈ xs, ¬key y < key x := by
  have first : x ∈ xs.take 1 ↔ xs[0]? = some x := by
    cases xs <;> simp [eq_comm]
  rw [first, getElem?_eq_some_iff_rank sorted, rank, List.countP_eq_zero]
  simp only [decide_eq_true_eq]

/-- The first elements of a sorted list are those of small rank. -/
theorem mem_take_iff_rank {xs : List α} (sorted : xs.Pairwise fun x y => key x < key y) {n : Nat}
    {x : α} : x ∈ xs.take n ↔ x ∈ xs ∧ rank key xs x < n := by
  rw [List.mem_iff_getElem?]
  constructor
  · rintro ⟨i, found⟩
    rw [List.getElem?_take] at found
    split_ifs at found with inside
    obtain ⟨mem, place⟩ := (getElem?_eq_some_iff_rank sorted).mp found
    exact ⟨mem, place ▸ inside⟩
  · rintro ⟨mem, inside⟩
    refine ⟨rank key xs x, ?_⟩
    rw [List.getElem?_take, if_pos inside]
    exact (getElem?_eq_some_iff_rank sorted).mpr ⟨mem, rfl⟩

/-- In a sorted list a relation holds along the list when it holds along the keys. -/
theorem pairwise_iff_of_sorted {xs : List α} (sorted : xs.Pairwise fun x y => key x < key y)
    {r : α → α → Prop} :
    xs.Pairwise r ↔ ∀ x ∈ xs, ∀ y ∈ xs, key x < key y → r x y := by
  constructor
  · intro pairwise x memX y memY lt
    induction xs with
    | nil => cases memX
    | cons head xs ih =>
        obtain ⟨above, sorted⟩ := List.pairwise_cons.mp sorted
        obtain ⟨related, pairwise⟩ := List.pairwise_cons.mp pairwise
        rcases List.mem_cons.mp memX with rfl | tailX
        · rcases List.mem_cons.mp memY with rfl | tailY
          · exact absurd lt (lt_irrefl _)
          · exact related y tailY
        · rcases List.mem_cons.mp memY with rfl | tailY
          · exact absurd (lt.trans (above x tailX)) (lt_irrefl _)
          · exact ih sorted pairwise tailX tailY
  · exact fun along => sorted.imp_of_mem fun memX memY lt => along _ memX _ memY lt

/-- Sorted lists with the same elements are equal. -/
theorem sorted_ext {xs ys : List α} (sortedX : xs.Pairwise fun x y => key x < key y)
    (sortedY : ys.Pairwise fun x y => key x < key y) (same : ∀ x, x ∈ xs ↔ x ∈ ys) : xs = ys := by
  have nodup : ∀ {zs : List α}, (zs.Pairwise fun x y => key x < key y) → zs.Nodup :=
    fun sorted => sorted.imp fun lt => by
      rintro rfl
      exact lt_irrefl _ lt
  exact ((List.perm_ext_iff_of_nodup (nodup sortedX) (nodup sortedY)).mpr same).eq_of_pairwise
    (fun _ _ _ _ lt gt => absurd (lt.trans gt) (lt_irrefl _)) sortedX sortedY

/-- Leaving out elements that stand behind an element does not change its rank. -/
theorem rank_filter {xs : List α} {p : α → Bool} {x : α}
    (below : ∀ y ∈ xs, key y < key x → p y) : rank key (xs.filter p) x = rank key xs x := by
  rw [rank, rank, List.countP_filter]
  refine List.countP_congr fun y mem => ?_
  simp only [Bool.and_eq_true, decide_eq_true_eq, and_iff_left_iff_imp]
  exact below y mem

end Positions

/-- The elements from an offset on, and at most a limit of them; a negative limit is none. -/
def slice (offset : Nat) (limit : Int) (xs : List α) : List α :=
  if limit < 0 then xs.drop offset else (xs.drop offset).take limit.toNat

@[simp]
theorem slice_nil (offset : Nat) (limit : Int) : slice offset limit ([] : List α) = [] := by
  simp [slice]

theorem slice_zero_cons (limit : Int) (x : α) (xs : List α) :
    slice 0 limit (x :: xs) = if limit = 0 then [] else x :: slice 0 (limit - 1) xs := by
  unfold slice
  by_cases unbounded : limit < 0
  · rw [if_pos unbounded, if_neg (by omega), if_pos (by omega)]
    rfl
  · rw [if_neg unbounded]
    split_ifs with zero unbounded'
    · simp [zero]
    · omega
    · obtain ⟨n, rfl⟩ : ∃ n : Nat, limit = n + 1 := ⟨(limit - 1).toNat, by omega⟩
      simp

theorem slice_succ_cons (offset : Nat) (limit : Int) (x : α) (xs : List α) :
    slice (offset + 1) limit (x :: xs) = slice offset limit xs := rfl

/-- The positions a slice shows. -/
def Window (offset : Nat) (limit : Int) (n : Nat) : Prop :=
  offset ≤ n ∧ (limit < 0 ∨ (n : Int) < offset + limit)

theorem getElem?_slice (offset : Nat) (limit : Int) (xs : List α) (n : Nat) :
    (slice offset limit xs)[n]? =
      if limit < 0 ∨ (n : Int) < limit then xs[offset + n]? else none := by
  unfold slice
  by_cases unbounded : limit < 0
  · rw [if_pos unbounded, if_pos (Or.inl unbounded), List.getElem?_drop]
  · rw [if_neg unbounded, List.getElem?_take, List.getElem?_drop]
    by_cases shown : (n : Int) < limit
    · rw [if_pos (by omega), if_pos (Or.inr shown)]
    · rw [if_neg (by omega), if_neg (by omega)]

theorem mem_slice {offset : Nat} {limit : Int} {xs : List α} {x : α} :
    x ∈ slice offset limit xs ↔ ∃ n, Window offset limit n ∧ xs[n]? = some x := by
  rw [List.mem_iff_getElem?]
  constructor
  · rintro ⟨n, found⟩
    rw [getElem?_slice] at found
    split_ifs at found with shown
    exact ⟨offset + n, ⟨by omega, by omega⟩, found⟩
  · rintro ⟨n, ⟨lower, upper⟩, found⟩
    refine ⟨n - offset, ?_⟩
    rw [getElem?_slice, if_pos (by omega), show offset + (n - offset) = n by omega]
    exact found

/-- Slices of a list and of one that is not shorter agree when the longer one's elements stand at
their positions in the shorter one as well. -/
theorem slice_eq_slice_iff {xs ys : List α} (le : xs.length ≤ ys.length) (offset : Nat)
    (limit : Int) :
    slice offset limit xs = slice offset limit ys ↔
      ∀ n y, Window offset limit n → ys[n]? = some y → xs[n]? = some y := by
  constructor
  · intro same n y window found
    have at' := congrArg (fun zs => zs[n - offset]?) same
    simp only [getElem?_slice, show offset + (n - offset) = n by have := window.1; omega] at at'
    rw [if_pos (by obtain ⟨_, _⟩ := window; omega),
      if_pos (by obtain ⟨_, _⟩ := window; omega)] at at'
    exact at'.trans found
  · intro agree
    apply List.ext_getElem?
    intro n
    rw [getElem?_slice, getElem?_slice]
    split_ifs with shown
    · cases found : ys[offset + n]? with
      | none =>
          rw [List.getElem?_eq_none_iff] at found ⊢
          omega
      | some y => exact agree _ _ ⟨by omega, by omega⟩ found
    · rfl

/-- The elements from one index to another, both included; negative indices count from the end,
and indices outside the list are moved to its ends. -/
def segment (start stop : Int) (xs : List α) : List α :=
  let first := max 0 (if start < 0 then xs.length + start else start)
  let last := min ((xs.length : Int) - 1) (if stop < 0 then xs.length + stop else stop)
  if first > last then [] else (xs.drop first.toNat).take (last - first + 1).toNat

/-- Dropping what stands before the first index from what ends at the last one. -/
theorem segment_eq_drop_take {start stop first last : Int} {xs : List α}
    (isFirst : first = max 0 (if start < 0 then xs.length + start else start))
    (isLast : last = min ((xs.length : Int) - 1) (if stop < 0 then xs.length + stop else stop)) :
    segment start stop xs = (xs.take (last + 1).toNat).drop first.toNat := by
  rw [segment, ← isFirst, ← isLast]
  split_ifs with empty
  · symm
    rw [List.drop_eq_nil_iff, List.length_take]
    omega
  · rw [List.drop_take]
    congr 1
    omega

theorem segment_nil (start stop : Int) : segment start stop ([] : List α) = [] := by
  simp [segment]

/-- From the first index to the last one. -/
theorem segment_whole (xs : List α) : segment 0 (-1) xs = xs := by
  rw [segment_eq_drop_take rfl rfl]
  simp

/-- One index names one element. -/
theorem segment_single (i : Nat) (xs : List α) : segment i i xs = xs[i]?.toList := by
  have natural : ¬(i : Int) < 0 := by omega
  unfold segment
  simp only [if_neg natural]
  by_cases inside : i < xs.length
  · rw [if_neg (by omega), List.getElem?_eq_getElem inside]
    have first : (max 0 (i : Int)).toNat = i := by omega
    have one : (min ((xs.length : Int) - 1) i - max 0 (i : Int) + 1).toNat = 1 := by omega
    rw [first, one, List.drop_eq_getElem_cons inside]
    rfl
  · rw [if_pos (by omega), List.getElem?_eq_none (by omega)]
    rfl

/-- In a list without repetition an element has one place. -/
theorem idxOf_eq_iff [BEq α] [LawfulBEq α] {xs : List α} (nodup : xs.Nodup) {x : α} (mem : x ∈ xs)
    {n : Nat} : xs.idxOf x = n ↔ xs[n]? = some x := by
  constructor
  · rintro rfl
    exact List.getElem?_idxOf mem
  · intro found
    obtain ⟨inside, rfl⟩ := List.getElem?_eq_some_iff.mp found
    exact nodup.idxOf_getElem n inside

/-- The place of an element in the reversed list counts from the other end. -/
theorem idxOf_reverse [BEq α] [LawfulBEq α] {xs : List α} (nodup : xs.Nodup) {x : α} (mem : x ∈ xs) :
    xs.reverse.idxOf x = xs.length - 1 - xs.idxOf x := by
  have inside := List.idxOf_lt_length_iff.mpr mem
  have mirrored : xs.length - 1 - xs.idxOf x < xs.reverse.length := by
    rw [List.length_reverse]
    omega
  have found : xs.reverse[xs.length - 1 - xs.idxOf x] = x := by
    rw [List.getElem_reverse]
    have back : xs.length - 1 - (xs.length - 1 - xs.idxOf x) = xs.idxOf x := by omega
    simp only [back, List.getElem_idxOf]
  have place := (List.nodup_reverse.mpr nodup).idxOf_getElem _ mirrored
  rwa [found] at place

end Ranking
