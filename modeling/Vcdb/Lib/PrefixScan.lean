import Vcdb.Lib.Ranking
import Vcdb.Lib.SortedMap

/-!
# Prefix scans

In an ordered map over strings, the keys with a common prefix form one contiguous block, and the
block starts at the prefix itself.  A forward scan from the prefix therefore meets exactly the
bindings under that prefix before it meets any other key.
-/

namespace SortedMap

variable {α β : Type*} [LinearOrder α]

theorem append_lt_append_iff (start : List α) {left right : List α} :
    start ++ left < start ++ right ↔ left < right := by
  induction start with
  | nil => rfl
  | cons head start ih => simp [ih]

theorem prefix_of_between {start key field : List α} (lower : start ≤ key)
    (upper : key < start ++ field) : start <+: key := by
  induction start generalizing key with
  | nil => exact List.nil_prefix
  | cons head start ih =>
      cases key with
      | nil => exact absurd (List.nil_lt_cons head start) (not_lt.mpr lower)
      | cons first key =>
          rw [List.cons_append, List.cons_lt_cons_iff] at upper
          rw [← not_lt, List.cons_lt_cons_iff, not_or, not_and] at lower
          obtain ⟨notBelow, lowerTail⟩ := lower
          rcases upper with below | ⟨rfl, upperTail⟩
          · exact absurd below notBelow
          · rw [List.cons_prefix_cons]
            exact ⟨rfl, ih (not_lt.mp (lowerTail rfl)) upperTail⟩

/-- The rest of a string after a prefix, when it has that prefix. -/
def stripPrefix : List α → List α → Option (List α)
  | [], key => some key
  | _ :: _, [] => none
  | head :: start, first :: key => if head = first then stripPrefix start key else none

theorem stripPrefix_eq_some {start key field : List α} :
    stripPrefix start key = some field ↔ key = start ++ field := by
  induction start generalizing key with
  | nil => simp [stripPrefix, eq_comm]
  | cons head start ih =>
      cases key with
      | nil => simp [stripPrefix]
      | cons first key =>
          unfold stripPrefix
          split_ifs with same
          · simp [ih, same]
          · simp [Ne.symm same]

/-- Keep the bindings under a prefix and drop the prefix. -/
def stripEntries (start : List α) (entries : List (List α × β)) : List (List α × β) :=
  entries.filterMap fun entry => (stripPrefix start entry.1).map fun field => (field, entry.2)

theorem mem_stripEntries {start : List α} {entries : List (List α × β)} {field : List α}
    {value : β} :
    (field, value) ∈ stripEntries start entries ↔ (start ++ field, value) ∈ entries := by
  simp only [stripEntries, List.mem_filterMap, Option.map_eq_some_iff, Prod.mk.injEq]
  constructor
  · rintro ⟨⟨key, value'⟩, mem, field', strip, rfl, rfl⟩
    rw [stripPrefix_eq_some] at strip
    exact strip ▸ mem
  · intro mem
    exact ⟨_, mem, field, stripPrefix_eq_some.mpr rfl, rfl, rfl⟩

theorem stripEntries_sorted (start : List α) {entries : List (List α × β)}
    (sorted : entries.Pairwise fun x y => x.1 < y.1) :
    (stripEntries start entries).Pairwise fun x y => x.1 < y.1 := by
  refine List.Pairwise.filterMap _ ?_ sorted
  rintro ⟨leftKey, leftValue⟩ ⟨rightKey, rightValue⟩ below
  simp only [Option.map_eq_some_iff, stripPrefix_eq_some]
  rintro _ ⟨left, rfl, rfl⟩ _ ⟨right, rfl, rfl⟩
  exact (append_lt_append_iff start).mp below

/-- The bindings whose key starts with a prefix, under the rest of their key. -/
def under (map : SortedMap (List α) β) (start : List α) : SortedMap (List α) β :=
  ⟨stripEntries start map.entries, stripEntries_sorted start map.sorted⟩

@[simp]
theorem get_under (map : SortedMap (List α) β) (start field : List α) :
    (map.under start).get field = map.get (start ++ field) := by
  apply Option.ext
  intro value
  rw [← mem_entries, ← mem_entries]
  exact mem_stripEntries

theorem under_put_of_prefix (map : SortedMap (List α) β) (start field : List α) (value : β) :
    (map.put (start ++ field) value).under start = (map.under start).put field value := by
  ext other : 1
  simp [get_put]

theorem under_put_of_not_prefix (map : SortedMap (List α) β) {start key : List α} (value : β)
    (foreign : ¬start <+: key) : (map.put key value).under start = map.under start := by
  ext other : 1
  rw [get_under, get_under, get_put, if_neg]
  rintro rfl
  exact foreign (List.prefix_append start other)

theorem exists_block {start : List α} {entries : List (List α × β)}
    (sorted : entries.Pairwise fun x y => x.1 < y.1)
    (lower : ∀ entry ∈ entries, start ≤ entry.1) :
    ∃ rest, entries = (stripEntries start entries).map (fun e => (start ++ e.1, e.2)) ++ rest ∧
      ∀ entry ∈ rest, ¬start <+: entry.1 := by
  induction entries with
  | nil => exact ⟨[], rfl, by simp⟩
  | cons head entries ih =>
      obtain ⟨key, value⟩ := head
      obtain ⟨above, tailSorted⟩ := List.pairwise_cons.mp sorted
      obtain ⟨rest, block, outside⟩ := ih tailSorted fun e mem => lower e
        (List.mem_cons_of_mem _ mem)
      cases strip : stripPrefix start key with
      | some field =>
          refine ⟨rest, ?_, outside⟩
          have first : stripEntries start ((key, value) :: entries) =
              (field, value) :: stripEntries start entries := by
            simp [stripEntries, strip]
          rw [first, List.map_cons, List.cons_append, ← block, stripPrefix_eq_some.mp strip]
      | none =>
          have noBlock : ∀ entry ∈ (key, value) :: entries, ¬start <+: entry.1 := by
            rintro entry mem ⟨field, spelled⟩
            rcases List.mem_cons.mp mem with rfl | mem
            · rw [stripPrefix_eq_some.mpr spelled.symm] at strip
              exact absurd strip (by simp)
            · have upper : key < start ++ field := by
                rw [spelled]
                exact above _ mem
              obtain ⟨keyField, keySpelled⟩ :=
                prefix_of_between (lower _ List.mem_cons_self) upper
              rw [stripPrefix_eq_some.mpr keySpelled.symm] at strip
              exact absurd strip (by simp)
          have empty : stripEntries start ((key, value) :: entries) = [] := by
            rw [List.eq_nil_iff_forall_not_mem]
            rintro ⟨field, v⟩ mem
            exact noBlock _ (mem_stripEntries.mp mem) (List.prefix_append _ _)
          exact ⟨(key, value) :: entries, by rw [empty]; rfl, noBlock⟩

/-- A forward scan from a key under a prefix meets the bindings under the prefix first, in order. -/
theorem seek_append_eq_block (map : SortedMap (List α) β) (start low : List α) :
    ∃ rest, map.seek (start ++ low) =
        ((map.under start).seek low).map (fun e => (start ++ e.1, e.2)) ++ rest ∧
      ∀ entry ∈ rest, ¬start <+: entry.1 := by
  have lower : ∀ entry ∈ map.seek (start ++ low), start ≤ entry.1 := fun entry mem =>
    (not_lt.mp List.le_append_left).trans (mem_seek.mp mem).1
  obtain ⟨rest, block, outside⟩ := exists_block (map.seek_sorted (start ++ low)) lower
  have same : stripEntries start (map.seek (start ++ low)) = (map.under start).seek low := by
    refine Ranking.sorted_ext (stripEntries_sorted start (map.seek_sorted _))
      ((map.under start).seek_sorted low) ?_
    rintro ⟨field, value⟩
    rw [mem_stripEntries, mem_seek, mem_seek, get_under, ← not_lt, append_lt_append_iff, not_lt]
  rw [same] at block
  exact ⟨rest, block, outside⟩

/-- A forward scan from a prefix itself. -/
theorem seek_eq_block (map : SortedMap (List α) β) (start : List α) :
    ∃ rest, map.seek start =
        (map.under start).entries.map (fun e => (start ++ e.1, e.2)) ++ rest ∧
      ∀ entry ∈ rest, ¬start <+: entry.1 := by
  have all : (map.under start).seek [] = (map.under start).entries := by
    rw [seek, List.dropWhile_eq_self_iff]
    intro _
    simp
  have block := seek_append_eq_block map start []
  rwa [List.append_nil, all] at block

theorem seek_eq_filter (map : SortedMap α β) (start : α) :
    map.seek start = map.entries.filter fun entry => start ≤ entry.1 := by
  rw [seek, Ranking.dropWhile_eq_filter]
  · exact List.filter_congr fun entry _ => by rw [← decide_not, decide_eq_decide, not_lt]
  · refine map.sorted.imp fun below lower => ?_
    simp only [decide_eq_true_eq] at lower ⊢
    exact below.trans lower

/-- Entries chosen by a test that only keys under a prefix pass. -/
theorem filter_eq_under (map : SortedMap (List α) β) (start : List α) {p : List α → Bool}
    (inside : ∀ key, p key → start <+: key) :
    (map.entries.filter fun entry => p entry.1) =
      ((map.under start).entries.filter fun entry => p (start ++ entry.1)).map
        fun entry => (start ++ entry.1, entry.2) := by
  have strip : ∀ entries : List (List α × β),
      (entries.filter fun entry => p entry.1) =
        ((stripEntries start entries).filter fun entry => p (start ++ entry.1)).map
          fun entry => (start ++ entry.1, entry.2) := by
    intro entries
    induction entries with
    | nil => rfl
    | cons entry entries ih =>
        obtain ⟨key, value⟩ := entry
        rw [List.filter_cons, ih]
        cases stripped : stripPrefix start key with
        | none =>
            have foreign : ¬p key := by
              intro passes
              obtain ⟨field, rfl⟩ := inside key passes
              rw [stripPrefix_eq_some.mpr rfl] at stripped
              cases stripped
            rw [if_neg foreign, stripEntries, stripEntries, List.filterMap_cons_none]
            simp [stripped]
        | some field =>
            obtain rfl := stripPrefix_eq_some.mp stripped
            have first : stripEntries start ((start ++ field, value) :: entries) =
                (field, value) :: stripEntries start entries := by
              simp [stripEntries, stripped]
            rw [first, List.filter_cons]
            split_ifs with passes <;> rfl
  exact strip map.entries

section Ranges

variable (map : SortedMap (List α) β) (start low high : List α)

/-- A forward scan between two keys under one prefix. -/
theorem takeWhile_seek_under :
    ((map.seek (start ++ low)).takeWhile fun entry => entry.1 ≤ start ++ high) =
      ((map.under start).entries.filter fun entry => low ≤ entry.1 ∧ entry.1 ≤ high).map
        fun entry => (start ++ entry.1, entry.2) := by
  have between : ∀ key, decide (start ++ low ≤ key ∧ key ≤ start ++ high) = true →
      start <+: key := by
    intro key inside
    obtain ⟨lower, upper⟩ := of_decide_eq_true inside
    rcases upper.lt_or_eq with upper | rfl
    · exact prefix_of_between ((not_lt.mp List.le_append_left).trans lower) upper
    · exact List.prefix_append _ _
  rw [Ranking.takeWhile_eq_filter, seek_eq_filter, List.filter_filter]
  · have both := filter_eq_under map start between
    simp only [← not_lt, append_lt_append_iff] at both ⊢
    rw [← both]
    exact List.filter_congr fun entry _ => by simp [and_comm]
  · refine (map.seek_sorted _).imp fun below upper => ?_
    simp only [decide_eq_true_eq] at upper ⊢
    exact below.le.trans upper

/-- A backward scan between two keys under one prefix. -/
theorem takeWhile_reverse_under :
    ((map.entries.takeWhile fun entry => entry.1 < start ++ high).reverse.takeWhile
        fun entry => start ++ low ≤ entry.1) =
      (((map.under start).entries.filter fun entry => low ≤ entry.1 ∧ entry.1 < high).map
        fun entry => (start ++ entry.1, entry.2)).reverse := by
  have between : ∀ key, decide (start ++ low ≤ key ∧ key < start ++ high) = true →
      start <+: key := by
    intro key inside
    obtain ⟨lower, upper⟩ := of_decide_eq_true inside
    exact prefix_of_between ((not_lt.mp List.le_append_left).trans lower) upper
  have lower : (map.entries.takeWhile fun entry => entry.1 < start ++ high) =
      map.entries.filter fun entry => entry.1 < start ++ high := by
    refine Ranking.takeWhile_eq_filter (map.sorted.imp fun below upper => ?_)
    simp only [decide_eq_true_eq] at upper ⊢
    exact below.trans upper
  rw [lower, Ranking.takeWhile_eq_filter, List.filter_reverse, List.filter_filter]
  · have both := filter_eq_under map start between
    simp only [← not_lt, append_lt_append_iff] at both ⊢
    rw [← both]
    exact congrArg List.reverse (List.filter_congr fun entry _ => by simp)
  · rw [List.pairwise_reverse]
    refine (map.sorted.filter _).imp fun below lower => ?_
    simp only [decide_eq_true_eq] at lower ⊢
    exact lower.trans below.le

end Ranges

end SortedMap
