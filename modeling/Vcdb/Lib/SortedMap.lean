import Mathlib.Data.List.Sort
import Mathlib.Data.Finset.Sort
import Mathlib.Data.List.Lex

/-!
# Ordered finite maps

A finite map over a linearly ordered key type, represented by its strictly increasing list of
entries.  The order of the entries is what an ordered key-value engine exposes to its iterators;
two maps with the same lookups are equal.
-/

/-- A finite map, given by its entries in strictly increasing key order. -/
structure SortedMap (α β : Type*) [LinearOrder α] where
  /-- The bindings, smallest key first. -/
  entries : List (α × β)
  /-- Keys strictly increase. -/
  sorted : entries.Pairwise fun x y => x.1 < y.1

namespace SortedMap

variable {α β : Type*} [LinearOrder α]

/-- Look a key up in a list of bindings. -/
def lookupEntry (key : α) : List (α × β) → Option β
  | [] => none
  | (k, v) :: rest => if k = key then some v else lookupEntry key rest

/-- Insert a binding, replacing the one with the same key. -/
def insertEntry (key : α) (value : β) : List (α × β) → List (α × β)
  | [] => [(key, value)]
  | (k, v) :: rest =>
      if key < k then (key, value) :: (k, v) :: rest
      else if k < key then (k, v) :: insertEntry key value rest
      else (key, value) :: rest

theorem mem_insertEntry {key : α} {value : β} {entry : α × β} {entries : List (α × β)}
    (mem : entry ∈ insertEntry key value entries) :
    entry = (key, value) ∨ entry ∈ entries := by
  induction entries with
  | nil => simpa [insertEntry] using mem
  | cons head rest ih =>
      obtain ⟨k, v⟩ := head
      unfold insertEntry at mem
      split_ifs at mem <;> grind

theorem insertEntry_sorted {entries : List (α × β)} (key : α) (value : β)
    (sorted : entries.Pairwise fun x y => x.1 < y.1) :
    (insertEntry key value entries).Pairwise fun x y => x.1 < y.1 := by
  induction entries with
  | nil => simp [insertEntry]
  | cons head rest ih =>
      obtain ⟨k, v⟩ := head
      obtain ⟨above, tailSorted⟩ := List.pairwise_cons.mp sorted
      unfold insertEntry
      split_ifs with below beyond
      · refine List.pairwise_cons.mpr ⟨?_, sorted⟩
        rintro entry (_ | ⟨_, mem⟩)
        · exact below
        · exact below.trans (above _ mem)
      · refine List.pairwise_cons.mpr ⟨?_, ih tailSorted⟩
        intro entry mem
        rcases mem_insertEntry mem with rfl | mem
        · exact beyond
        · exact above _ mem
      · obtain rfl : k = key := le_antisymm (not_lt.mp below) (not_lt.mp beyond)
        exact List.pairwise_cons.mpr ⟨above, tailSorted⟩

/-- The map without bindings. -/
def empty : SortedMap α β := ⟨[], List.Pairwise.nil⟩

instance : EmptyCollection (SortedMap α β) := ⟨empty⟩

/-- The value bound to a key. -/
def get (map : SortedMap α β) (key : α) : Option β := lookupEntry key map.entries

/-- Bind a key to a value. -/
def put (map : SortedMap α β) (key : α) (value : β) : SortedMap α β :=
  ⟨insertEntry key value map.entries, insertEntry_sorted key value map.sorted⟩

/-- Remove the binding of a key. -/
def erase (map : SortedMap α β) (key : α) : SortedMap α β :=
  ⟨map.entries.filter fun entry => entry.1 ≠ key, map.sorted.filter _⟩

/-- Number of bindings. -/
def size (map : SortedMap α β) : Nat := map.entries.length

/-- Bound keys in increasing order. -/
def keys (map : SortedMap α β) : List α := map.entries.map Prod.fst

/-- Values in increasing key order. -/
def values (map : SortedMap α β) : List β := map.entries.map Prod.snd

/-- The bindings from a key on. -/
def seek (map : SortedMap α β) (start : α) : List (α × β) :=
  map.entries.dropWhile fun entry => entry.1 < start

theorem lookupEntry_eq_some {entries : List (α × β)} {key : α} {value : β}
    (sorted : entries.Pairwise fun x y => x.1 < y.1) :
    lookupEntry key entries = some value ↔ (key, value) ∈ entries := by
  induction entries with
  | nil => simp [lookupEntry]
  | cons head rest ih =>
      obtain ⟨k, v⟩ := head
      obtain ⟨above, tailSorted⟩ := List.pairwise_cons.mp sorted
      unfold lookupEntry
      split_ifs with same
      · subst same
        constructor
        · rintro ⟨⟩
          exact List.mem_cons_self
        · rintro (_ | ⟨_, mem⟩)
          · rfl
          · exact absurd (above _ mem) (lt_irrefl k)
      · rw [ih tailSorted]
        constructor
        · exact List.mem_cons_of_mem _
        · rintro (_ | ⟨_, mem⟩)
          · exact absurd rfl same
          · exact mem

theorem mem_entries {map : SortedMap α β} {key : α} {value : β} :
    (key, value) ∈ map.entries ↔ map.get key = some value :=
  (lookupEntry_eq_some map.sorted).symm

@[simp]
theorem get_empty (key : α) : (∅ : SortedMap α β).get key = none := rfl

@[simp]
theorem entries_empty : (∅ : SortedMap α β).entries = [] := rfl

theorem lookupEntry_insertEntry (entries : List (α × β)) (key other : α) (value : β) :
    lookupEntry other (insertEntry key value entries) =
      if other = key then some value else lookupEntry other entries := by
  induction entries with
  | nil => simp [insertEntry, lookupEntry, eq_comm]
  | cons head rest ih =>
      obtain ⟨k, v⟩ := head
      unfold insertEntry
      split_ifs with below beyond
      all_goals simp only [lookupEntry, ih]
      all_goals grind

theorem get_put (map : SortedMap α β) (key other : α) (value : β) :
    (map.put key value).get other = if other = key then some value else map.get other :=
  lookupEntry_insertEntry map.entries key other value

@[simp]
theorem get_put_self (map : SortedMap α β) (key : α) (value : β) :
    (map.put key value).get key = some value := by
  simp [get_put]

theorem get_erase (map : SortedMap α β) (key other : α) :
    (map.erase key).get other = if other = key then none else map.get other := by
  apply Option.ext
  intro value
  rw [← mem_entries]
  split_ifs with same
  · simp [erase, same]
  · rw [← mem_entries]
    simp [erase, same]

@[simp]
theorem get_erase_self (map : SortedMap α β) (key : α) : (map.erase key).get key = none := by
  simp [get_erase]

/-- A map is determined by its lookups. -/
@[ext]
theorem ext {left right : SortedMap α β} (same : ∀ key, left.get key = right.get key) :
    left = right := by
  have entries_eq : left.entries = right.entries := by
    refine List.Perm.eq_of_pairwise (fun x y _ _ hxy hyx => absurd hxy hyx.asymm)
      left.sorted right.sorted ?_
    refine (List.perm_ext_iff_of_nodup ?_ ?_).mpr ?_
    · exact left.sorted.imp fun below => fun equal => absurd (equal ▸ below) (lt_irrefl _)
    · exact right.sorted.imp fun below => fun equal => absurd (equal ▸ below) (lt_irrefl _)
    · rintro ⟨key, value⟩
      rw [mem_entries, mem_entries, same]
  cases left
  cases right
  simpa using entries_eq

theorem mem_keys {map : SortedMap α β} {key : α} : key ∈ map.keys ↔ (map.get key).isSome := by
  rw [Option.isSome_iff_exists]
  simp [keys, mem_entries]

theorem keys_sorted (map : SortedMap α β) : map.keys.Pairwise (· < ·) :=
  List.pairwise_map.mpr map.sorted

theorem keys_nodup (map : SortedMap α β) : map.keys.Nodup :=
  map.keys_sorted.imp ne_of_lt

@[simp]
theorem length_keys (map : SortedMap α β) : map.keys.length = map.size := by
  simp [keys, size]

theorem size_eq_zero {map : SortedMap α β} : map.size = 0 ↔ map = ∅ := by
  constructor
  · intro zero
    ext key : 1
    rw [get, List.length_eq_zero_iff.mp zero]
    rfl
  · rintro rfl
    rfl

/-- The bound keys as a finite set. -/
def domain (map : SortedMap α β) : Finset α := ⟨map.keys, map.keys_nodup⟩

theorem mem_domain {map : SortedMap α β} {key : α} : key ∈ map.domain ↔ (map.get key).isSome :=
  mem_keys

@[simp]
theorem card_domain (map : SortedMap α β) : map.domain.card = map.size :=
  map.length_keys

theorem domain_put (map : SortedMap α β) (key : α) (value : β) :
    (map.put key value).domain = insert key map.domain := by
  ext other
  rw [mem_domain, Finset.mem_insert, mem_domain, get_put]
  split_ifs with same <;> simp [same]

theorem domain_erase (map : SortedMap α β) (key : α) :
    (map.erase key).domain = map.domain.erase key := by
  ext other
  rw [mem_domain, Finset.mem_erase, mem_domain, get_erase]
  split_ifs with same <;> simp [same]

theorem size_put (map : SortedMap α β) (key : α) (value : β) :
    (map.put key value).size = if (map.get key).isSome then map.size else map.size + 1 := by
  rw [← card_domain, domain_put, Finset.card_insert_eq_ite, card_domain]
  simp [mem_domain]

theorem size_erase (map : SortedMap α β) (key : α) :
    (map.erase key).size = if (map.get key).isSome then map.size - 1 else map.size := by
  rw [← card_domain, domain_erase, Finset.card_erase_eq_ite, card_domain]
  simp [mem_domain]

theorem keys_eq_sort_domain (map : SortedMap α β) : map.keys = map.domain.sort (· ≤ ·) := by
  refine List.Perm.eq_of_pairwise (fun x y _ _ hxy hyx => absurd hxy hyx.asymm)
    map.keys_sorted (Finset.sortedLT_sort _).pairwise ?_
  refine (List.perm_ext_iff_of_nodup map.keys_nodup (Finset.sort_nodup _ _)).mpr ?_
  intro key
  rw [Finset.mem_sort, mem_keys, mem_domain]

/-- Maps with the same domain have the same keys. -/
theorem keys_congr {γ : Type*} {left : SortedMap α β} {right : SortedMap α γ}
    (same : ∀ key, (left.get key).isSome = (right.get key).isSome) : left.keys = right.keys := by
  rw [keys_eq_sort_domain, keys_eq_sort_domain]
  congr 1
  ext key
  rw [mem_domain, mem_domain, same]

theorem mem_seek {map : SortedMap α β} {start key : α} {value : β} :
    (key, value) ∈ map.seek start ↔ start ≤ key ∧ map.get key = some value := by
  rw [← mem_entries, seek]
  obtain ⟨entries, sorted⟩ := map
  induction entries with
  | nil => simp
  | cons head rest ih =>
      obtain ⟨above, tailSorted⟩ := List.pairwise_cons.mp sorted
      simp only at ih ⊢
      rw [List.dropWhile_cons]
      split_ifs with below
      · have head_lt : head.1 < start := by simpa using below
        rw [ih tailSorted, List.mem_cons]
        constructor
        · exact fun ⟨ge, mem⟩ => ⟨ge, Or.inr mem⟩
        · rintro ⟨ge, rfl | mem⟩
          · exact absurd head_lt (not_lt.mpr ge)
          · exact ⟨ge, mem⟩
      · have ge : start ≤ head.1 := by simpa using below
        refine ⟨fun mem => ⟨?_, mem⟩, fun mem => mem.2⟩
        rcases List.mem_cons.mp mem with rfl | mem
        · exact ge
        · exact ge.trans (above _ mem).le

theorem seek_sorted (map : SortedMap α β) (start : α) :
    (map.seek start).Pairwise fun x y => x.1 < y.1 :=
  map.sorted.sublist (List.dropWhile_sublist _)

/-- Of a scan cut in two, a binding is in the first part, or at or behind the head of the second. -/
theorem mem_take_seek_or_le {map : SortedMap α β} {start key : α} {value : β} {n : Nat}
    {entry : α × β} {rest : List (α × β)} (left : (map.seek start).drop n = entry :: rest)
    (mem : (key, value) ∈ map.seek start) :
    (key, value) ∈ (map.seek start).take n ∨ entry.1 ≤ key := by
  have sorted : (entry :: rest).Pairwise fun x y => x.1 < y.1 :=
    left ▸ (map.seek_sorted start).drop
  rw [← List.take_append_drop n (map.seek start), left, List.mem_append, List.mem_cons] at mem
  rcases mem with first | rfl | later
  · exact Or.inl first
  · exact Or.inr le_rfl
  · exact Or.inr (List.rel_of_pairwise_cons sorted later).le

/-- A binding met on the way is where a scan from its key starts. -/
theorem seek_of_seek_eq_append {map : SortedMap α β} {start key : α} {value : β}
    {before after : List (α × β)} (split : map.seek start = before ++ (key, value) :: after) :
    map.seek key = (key, value) :: after := by
  have whole : map.entries.takeWhile (fun entry => decide (entry.1 < start)) ++ before ++
      (key, value) :: after = map.entries := by
    rw [List.append_assoc, ← split]
    exact List.takeWhile_append_dropWhile
  have sorted := map.sorted
  rw [← whole] at sorted
  have below := (List.pairwise_append.mp sorted).2.2
  rw [seek, ← whole, List.dropWhile_append_of_pos]
  · exact List.dropWhile_cons_of_neg (by simp)
  · intro entry mem
    simpa using below entry mem (key, value) List.mem_cons_self

/-- Bind several keys in turn; later bindings win. -/
def putAll (map : SortedMap α β) (bindings : List (α × β)) : SortedMap α β :=
  bindings.foldl (fun m binding => m.put binding.1 binding.2) map

theorem get_putAll (map : SortedMap α β) (bindings : List (α × β)) (key : α) :
    (map.putAll bindings).get key = ((putAll ∅ bindings).get key).or (map.get key) := by
  induction bindings generalizing map with
  | nil => rfl
  | cons binding bindings ih =>
      show ((map.put binding.1 binding.2).putAll bindings).get key =
        ((putAll (put ∅ binding.1 binding.2) bindings).get key).or (map.get key)
      rw [ih, ih (put ∅ binding.1 binding.2), get_put, get_put, Option.or_assoc]
      split_ifs <;> rfl

theorem get_putAll_of_sorted {bindings : List (α × β)}
    (sorted : bindings.Pairwise fun x y => x.1 < y.1) (key : α) :
    (putAll ∅ bindings).get key = lookupEntry key bindings := by
  induction bindings with
  | nil => rfl
  | cons binding bindings ih =>
      obtain ⟨k, v⟩ := binding
      obtain ⟨above, tailSorted⟩ := List.pairwise_cons.mp sorted
      show ((put ∅ k v).putAll bindings).get key = _
      rw [get_putAll, ih tailSorted, get_put, lookupEntry]
      split_ifs with same other other
      · subst same
        cases found : lookupEntry key bindings with
        | none => rfl
        | some value =>
            exact absurd (above _ ((lookupEntry_eq_some tailSorted).mp found)) (lt_irrefl key)
      · exact absurd same.symm other
      · exact absurd other.symm same
      · simp

/-- Rebinding the entries of a map one by one gives the same result as the bindings it was
collected from. -/
theorem putAll_entries_putAll (map : SortedMap α β) (bindings : List (α × β)) :
    map.putAll (putAll ∅ bindings).entries = map.putAll bindings := by
  ext key : 1
  rw [get_putAll, get_putAll_of_sorted (putAll ∅ bindings).sorted, get_putAll map bindings]
  rfl

theorem mem_keys_putAll {bindings : List (α × β)} {key : α} :
    key ∈ (putAll ∅ bindings).keys ↔ key ∈ bindings.map Prod.fst := by
  rw [mem_keys]
  induction bindings with
  | nil => simp [putAll]
  | cons binding bindings ih =>
      show ((putAll (put ∅ binding.1 binding.2) bindings).get key).isSome ↔ _
      rw [get_putAll, Option.isSome_or, Bool.or_eq_true, ih, get_put, List.map_cons, List.mem_cons]
      split_ifs with same <;> simp [same]

theorem mem_of_get_putAll {bindings : List (α × β)} {key : α} {value : β}
    (found : (putAll ∅ bindings).get key = some value) : (key, value) ∈ bindings := by
  induction bindings with
  | nil => cases found
  | cons binding bindings ih =>
      change ((put ∅ binding.1 binding.2).putAll bindings).get key = some value at found
      rw [get_putAll] at found
      cases later : (putAll ∅ bindings).get key with
      | some value' =>
          rw [later, Option.some_or] at found
          exact List.mem_cons_of_mem _ (ih (later.trans found))
      | none =>
          rw [later, Option.none_or, get_put] at found
          split_ifs at found with same
          · cases found
            rw [same]
            exact List.mem_cons_self
          · cases found

/-- A bound key gets a value it was bound to, any other keeps the one it had. -/
theorem get_putAll_cases (map : SortedMap α β) (bindings : List (α × β)) (key : α) :
    (∃ value, (key, value) ∈ bindings ∧ (map.putAll bindings).get key = some value) ∨
      (∀ binding ∈ bindings, binding.1 ≠ key) ∧
        (map.putAll bindings).get key = map.get key := by
  rw [get_putAll]
  cases found : (putAll ∅ bindings).get key with
  | some value => exact Or.inl ⟨value, mem_of_get_putAll found, rfl⟩
  | none =>
      refine Or.inr ⟨fun binding mem same => ?_, rfl⟩
      have bound := mem_keys.mp (mem_keys_putAll.mpr (List.mem_map_of_mem mem))
      rw [same, found] at bound
      cases bound

theorem isSome_get_putAll {map : SortedMap α β} {bindings : List (α × β)} {key : α} :
    ((map.putAll bindings).get key).isSome ↔
      key ∈ bindings.map Prod.fst ∨ (map.get key).isSome := by
  rw [get_putAll, Option.isSome_or, Bool.or_eq_true, ← mem_keys, mem_keys_putAll]

/-- Distinct keys add one entry each, unless they are bound already. -/
theorem size_putAll {bindings : List (α × β)} (distinct : (bindings.map Prod.fst).Nodup)
    (map : SortedMap α β) :
    (map.putAll bindings).size =
      map.size + bindings.countP fun binding => (map.get binding.1).isNone := by
  induction bindings generalizing map with
  | nil => rfl
  | cons binding bindings ih =>
      rw [List.map_cons, List.nodup_cons] at distinct
      have others : bindings.countP (fun later => ((map.put binding.1 binding.2).get
        later.1).isNone) =
          bindings.countP fun later => (map.get later.1).isNone := by
        refine List.countP_congr fun later mem => ?_
        rw [get_put, if_neg]
        exact fun same => distinct.1 (same ▸ List.mem_map_of_mem mem)
      show ((map.put binding.1 binding.2).putAll bindings).size = _
      rw [ih distinct.2, others, size_put, List.countP_cons]
      cases map.get binding.1 with
      | none => simp; omega
      | some old => simp

/-- Remove several keys. -/
def eraseAll (map : SortedMap α β) (removed : List α) : SortedMap α β := removed.foldl erase map

theorem get_eraseAll (map : SortedMap α β) (removed : List α) (key : α) :
    (map.eraseAll removed).get key = if key ∈ removed then none else map.get key := by
  induction removed generalizing map with
  | nil => simp [eraseAll]
  | cons first removed ih =>
      show ((map.erase first).eraseAll removed).get key = _
      rw [ih, get_erase]
      by_cases inTail : key ∈ removed <;> by_cases isFirst : key = first <;>
        simp [inTail, isFirst]

/-- Which keys are named decides what is left. -/
theorem eraseAll_congr {map : SortedMap α β} {first second : List α}
    (same : ∀ key, (map.get key).isSome → (key ∈ first ↔ key ∈ second)) :
    map.eraseAll first = map.eraseAll second := by
  ext key : 1
  rw [get_eraseAll, get_eraseAll]
  cases found : map.get key with
  | none => simp
  | some value => simp only [same key (by simp [found])]

theorem size_eraseAll {removed : List α} (nodup : removed.Nodup) (map : SortedMap α β) :
    (map.eraseAll removed).size + removed.countP (fun key => (map.get key).isSome) = map.size := by
  induction removed generalizing map with
  | nil => rfl
  | cons first removed ih =>
      obtain ⟨notMem, tailNodup⟩ := List.nodup_cons.mp nodup
      have others : removed.countP (fun key => ((map.erase first).get key).isSome) =
          removed.countP fun key => (map.get key).isSome := by
        refine List.countP_congr fun key mem => ?_
        rw [get_erase, if_neg (ne_of_mem_of_not_mem mem notMem)]
      have tail := ih tailNodup (map.erase first)
      rw [others, size_erase] at tail
      show ((map.erase first).eraseAll removed).size + _ = _
      rw [List.countP_cons]
      split_ifs at tail with found
      · have positive : map.size ≠ 0 := fun zero => by
          rw [size_eq_zero.mp zero] at found
          simp at found
        simp only [found, if_true]
        omega
      · simp only [found]
        exact tail

end SortedMap
