import Mathlib.Data.Prod.Lex
import Vcdb.Storage.Engine

/-!
# The sorted set in memory

An index of keys and an ordered set of items, linked by iterators.  An iterator of an erased
element is of no use any more, also when an equal element is inserted later.
-/

instance int64LinearOrder : LinearOrder Int64 where
  le_refl := Int64.le_refl
  le_trans := @Int64.le_trans
  le_antisymm := @Int64.le_antisymm
  le_total := Int64.le_total
  lt_iff_le_not_ge := by
    intro a b
    simp only [Int64.lt_iff_toInt_lt, Int64.le_iff_toInt_le]
    omega
  toDecidableLE := inferInstance

namespace Vcdb.Util

/-- A key with its score. -/
@[ext]
structure Item (T : Type*) where
  key : Bytes
  score : T
deriving DecidableEq

namespace Item

variable {T : Type*}

/-- Where an item stands among the others. -/
def place (item : Item T) : T ×ₗ Bytes := toLex (item.score, item.key)

theorem place_injective : Function.Injective (place : Item T → T ×ₗ Bytes) := by
  intro left right same
  obtain ⟨scores, keys⟩ := Prod.mk.inj (toLex.injective same)
  exact Item.ext keys scores

/-- Items are ordered by score and then by key. -/
instance [LinearOrder T] : LinearOrder (Item T) := LinearOrder.lift' place place_injective

/-- `operator<` -/
theorem lt_iff [LinearOrder T] {left right : Item T} :
    left < right ↔ left.score < right.score ∨ left.score = right.score ∧ left.key < right.key :=
  Prod.Lex.toLex_lt_toLex

end Item

/-- What an iterator points to: an element, in the place where it was allocated. -/
structure ItemIterator (T : Type*) where
  item : Item T
  node : Nat
deriving DecidableEq

section Containers

variable (T : Type*) [LinearOrder T]

/-- An ordered set of items, each in a place of its own. -/
structure ItemSet where
  nodes : SortedMap (Item T) Nat := ∅
  /-- Number of places that have been in use. -/
  allocated : Nat := 0

/-- The members of the source's class. -/
structure SortedSet where
  existed : SortedMap Bytes (ItemIterator T) := ∅
  sortedSet : ItemSet T := {}

end Containers

section Operations

variable {T : Type*} [LinearOrder T]

namespace ItemSet

/-- The element an iterator points to has not been erased. -/
def Holds (set : ItemSet T) (it : ItemIterator T) : Prop := set.nodes.get it.item = some it.node

instance (set : ItemSet T) (it : ItemIterator T) : Decidable (set.Holds it) :=
  inferInstanceAs (Decidable (_ = _))

/-- The item under an iterator, if it may be read. -/
def read (set : ItemSet T) (it : ItemIterator T) : Option (Item T) :=
  if set.Holds it then some it.item else none

def erase (set : ItemSet T) (it : ItemIterator T) : Option (ItemSet T) :=
  if set.Holds it then some { set with nodes := set.nodes.erase it.item } else none

/-- The iterator of the new element, or of the equal one that is in the set already. -/
def insert (set : ItemSet T) (item : Item T) : ItemIterator T × ItemSet T :=
  match set.nodes.get item with
  | some node => (⟨item, node⟩, set)
  | none =>
      (⟨item, set.allocated⟩,
        { nodes := set.nodes.put item set.allocated, allocated := set.allocated + 1 })

def begin (set : ItemSet T) : Option (ItemIterator T) :=
  set.nodes.entries.head?.map fun entry => ⟨entry.1, entry.2⟩

/-- The iterator before the end. -/
def last (set : ItemSet T) : Option (ItemIterator T) :=
  set.nodes.entries.getLast?.map fun entry => ⟨entry.1, entry.2⟩

def clear (set : ItemSet T) : ItemSet T := { set with nodes := ∅ }

end ItemSet

namespace SortedSet

/-- The size is cast to an `int`. -/
def size (set : SortedSet T) : Int32 := Int32.ofNat set.sortedSet.nodes.size

/-- Insert an item and remember its place; the common end of `add`. -/
def insertItem (set : SortedSet T) (item : Item T) : SortedSet T :=
  let p := set.sortedSet.insert item
  { existed := set.existed.put item.key p.1, sortedSet := p.2 }

/-- Without a value an operation has used an iterator of an erased element. -/
def add (set : SortedSet T) (key : Bytes) (score : T) : Option (Int × SortedSet T) :=
  match set.existed.get key with
  | none => some (1, set.insertItem ⟨key, score⟩)
  | some it2 => do
      let item ← set.sortedSet.read it2
      if item.score = score then return (0, set)
      else
        let sortedSet ← set.sortedSet.erase it2
        return (0, insertItem { set with sortedSet } ⟨key, score⟩)

def del (set : SortedSet T) (key : Bytes) : Option (Int × SortedSet T) :=
  match set.existed.get key with
  | none => some (0, set)
  | some it => do
      let sortedSet ← set.sortedSet.erase it
      return (1, { existed := set.existed.erase key, sortedSet })

def front (set : SortedSet T) : Option (Item T) := set.sortedSet.begin.bind set.sortedSet.read

def back (set : SortedSet T) : Option (Item T) := set.sortedSet.last.bind set.sortedSet.read

def maxScore [Zero T] (set : SortedSet T) : T :=
  match set.back with
  | none => 0
  | some item => item.score

/-- Both ends are removed in the same way. -/
def popAt (set : SortedSet T) (it : Option (ItemIterator T)) : Option (Int × SortedSet T) :=
  match it with
  | none => some (0, set)
  | some it => do
      let item ← set.sortedSet.read it
      let sortedSet ← set.sortedSet.erase it
      return (1, { existed := set.existed.erase item.key, sortedSet })

def popFront (set : SortedSet T) : Option (Int × SortedSet T) := set.popAt set.sortedSet.begin

def popBack (set : SortedSet T) : Option (Int × SortedSet T) := set.popAt set.sortedSet.last

def clear (set : SortedSet T) : SortedSet T :=
  { existed := ∅, sortedSet := set.sortedSet.clear }

end SortedSet

/-- A call that changes a sorted set. -/
inductive SetCall (T : Type*)
  | add (key : Bytes) (score : T)
  | del (key : Bytes)
  | popFront
  | popBack
  | clear

namespace SetCall

def apply (set : SortedSet T) : SetCall T → Option (SortedSet T)
  | add key score => (set.add key score).map Prod.snd
  | del key => (set.del key).map Prod.snd
  | popFront => set.popFront.map Prod.snd
  | popBack => set.popBack.map Prod.snd
  | clear => some set.clear

def applyAll (set : SortedSet T) (calls : List (SetCall T)) : Option (SortedSet T) :=
  calls.foldlM apply set

end SetCall

end Operations

/-! ### What the set is for -/

/-- The bindings of a map as items. -/
def items {T : Type*} (map : SortedMap Bytes T) : List (Item T) :=
  map.entries.map fun entry => ⟨entry.1, entry.2⟩

section Purpose

variable {T : Type*} [LinearOrder T]

def leastItem (map : SortedMap Bytes T) : Option (Item T) := (items map).min?

def greatestItem (map : SortedMap Bytes T) : Option (Item T) := (items map).max?

namespace SetCall

/-- The scores that are left by a call. -/
def record (map : SortedMap Bytes T) : SetCall T → SortedMap Bytes T
  | add key score => map.put key score
  | del key => map.erase key
  | popFront => (leastItem map).elim map fun item => map.erase item.key
  | popBack => (greatestItem map).elim map fun item => map.erase item.key
  | clear => ∅

/-- The score last added for each key that has not been removed since. -/
def scores (calls : List (SetCall T)) : SortedMap Bytes T := calls.foldl record ∅

end SetCall

namespace SortedSet

/-- The index and the ordered set list the same items, one for each key, and the iterators in the
index may be used. -/
structure Linked (set : SortedSet T) : Prop where
  indexed : ∀ key it, set.existed.get key = some it → it.item.key = key ∧ set.sortedSet.Holds it
  listed : ∀ it, set.sortedSet.Holds it → set.existed.get it.item.key = some it

/-- The set shows the scores of a map and its ends, and the number of its keys as an `int`. -/
structure Shows [Zero T] (set : SortedSet T) (map : SortedMap Bytes T) : Prop where
  score : ∀ key, (set.existed.get key).map (fun it => it.item.score) = map.get key
  size : set.size = Int32.ofNat map.size
  front : set.front = leastItem map
  back : set.back = greatestItem map
  maxScore : set.maxScore = (greatestItem map).elim 0 Item.score

end SortedSet

end Purpose

/-! ### The two ends -/

theorem mem_items {T : Type*} {map : SortedMap Bytes T} {item : Item T} :
    item ∈ items map ↔ map.get item.key = some item.score := by
  rw [← SortedMap.mem_entries, items, List.mem_map]
  constructor
  · rintro ⟨entry, mem, rfl⟩
    exact mem
  · exact fun mem => ⟨_, mem, rfl⟩

theorem items_nodup {T : Type*} (map : SortedMap Bytes T) : (items map).Nodup := by
  refine List.Nodup.of_map Item.key ?_
  rw [items, List.map_map]
  exact map.keys_nodup

section Ends

variable {T : Type*} [LinearOrder T] {set : SortedSet T} {map : SortedMap Bytes T}

theorem leastItem_eq_some {item : Item T} :
    leastItem map = some item ↔ item ∈ items map ∧ ∀ other ∈ items map, item ≤ other :=
  List.min?_eq_some_iff

theorem greatestItem_eq_some {item : Item T} :
    greatestItem map = some item ↔ item ∈ items map ∧ ∀ other ∈ items map, other ≤ item :=
  List.max?_eq_some_iff

namespace ItemSet

variable {set : ItemSet T} {it : ItemIterator T}

theorem mem_entries {set : ItemSet T} {it : ItemIterator T} :
    (it.item, it.node) ∈ set.nodes.entries ↔ set.Holds it := SortedMap.mem_entries

/-- The first element is the least one. -/
theorem begin_eq_some :
    set.begin = some it ↔ set.Holds it ∧ ∀ other, set.Holds other → it.item ≤ other.item := by
  have sorted := set.nodes.sorted
  simp only [begin, ← mem_entries]
  generalize set.nodes.entries = entries at sorted ⊢
  cases entries with
  | nil => simp
  | cons first rest =>
      have above := (List.pairwise_cons.mp sorted).1
      rw [List.head?_cons, Option.map_some, Option.some_inj]
      constructor
      · rintro rfl
        refine ⟨List.mem_cons_self, fun other mem => ?_⟩
        rcases List.mem_cons.mp mem with same | later
        · exact (congrArg Prod.fst same).ge
        · exact (above _ later).le
      · rintro ⟨mem, least⟩
        rcases List.mem_cons.mp mem with same | later
        · rw [← same]
        · exact absurd (above _ later) (not_lt.mpr (least ⟨first.1, first.2⟩ List.mem_cons_self))

/-- The last element is the greatest one. -/
theorem last_eq_some :
    set.last = some it ↔ set.Holds it ∧ ∀ other, set.Holds other → other.item ≤ it.item := by
  have sorted := set.nodes.sorted
  simp only [last, ← mem_entries]
  generalize set.nodes.entries = entries at sorted ⊢
  rcases List.eq_nil_or_concat entries with rfl | ⟨rest, final, rfl⟩
  · simp
  · rw [List.concat_eq_append] at sorted ⊢
    have below := (List.pairwise_append.mp sorted).2.2
    rw [List.getLast?_concat, Option.map_some, Option.some_inj]
    constructor
    · rintro rfl
      refine ⟨List.mem_append_right _ List.mem_cons_self, fun other mem => ?_⟩
      rcases List.mem_append.mp mem with earlier | same
      · exact (below _ earlier _ List.mem_cons_self).le
      · exact (congrArg Prod.fst (List.mem_singleton.mp same)).le
    · rintro ⟨mem, greatest⟩
      rcases List.mem_append.mp mem with earlier | same
      · exact absurd (below _ earlier _ List.mem_cons_self) (not_lt.mpr
          (greatest ⟨final.1, final.2⟩ (List.mem_append_right _ List.mem_cons_self)))
      · rw [← List.mem_singleton.mp same]

theorem read_of_holds (holds : set.Holds it) : set.read it = some it.item := if_pos holds

theorem erase_of_holds (holds : set.Holds it) :
    set.erase it = some { set with nodes := set.nodes.erase it.item } := if_pos holds

end ItemSet

namespace SortedSet

/-- The index and the ordered set are linked, and list the bindings of the map. -/
structure Stores (set : SortedSet T) (map : SortedMap Bytes T) : Prop where
  linked : set.Linked
  score : ∀ key, (set.existed.get key).map (fun it => it.item.score) = map.get key

namespace Stores

variable (stores : set.Stores map)

include stores

/-- The ordered set holds the items of the map. -/
theorem mem_items_iff {item : Item T} :
    item ∈ items map ↔ ∃ node, set.sortedSet.Holds ⟨item, node⟩ := by
  rw [mem_items, ← stores.score]
  constructor
  · intro found
    obtain ⟨it, indexed, same⟩ := Option.map_eq_some_iff.mp found
    obtain ⟨key, holds⟩ := stores.linked.indexed _ _ indexed
    have whole : it.item = item := Item.ext key same
    exact ⟨it.node, whole ▸ holds⟩
  · rintro ⟨node, holds⟩
    rw [stores.linked.listed _ holds, Option.map_some]

theorem keys_perm : set.sortedSet.nodes.keys.Perm (items map) := by
  refine (List.perm_ext_iff_of_nodup (SortedMap.keys_nodup _) (items_nodup map)).mpr fun item => ?_
  rw [stores.mem_items_iff, SortedMap.mem_keys, Option.isSome_iff_exists]
  rfl

theorem size_eq : set.sortedSet.nodes.size = map.size := by
  rw [← SortedMap.length_keys, stores.keys_perm.length_eq, items, List.length_map]
  rfl

theorem front_eq : set.front = leastItem map := by
  refine Option.ext fun item => ?_
  rw [leastItem_eq_some, front, Option.bind_eq_some_iff]
  constructor
  · rintro ⟨it, first, read⟩
    obtain ⟨holds, least⟩ := ItemSet.begin_eq_some.mp first
    rw [ItemSet.read_of_holds holds, Option.some_inj] at read
    subst read
    refine ⟨stores.mem_items_iff.mpr ⟨it.node, holds⟩, fun other mem => ?_⟩
    obtain ⟨node, listed⟩ := stores.mem_items_iff.mp mem
    exact least _ listed
  · rintro ⟨mem, least⟩
    obtain ⟨node, holds⟩ := stores.mem_items_iff.mp mem
    refine ⟨⟨item, node⟩, ItemSet.begin_eq_some.mpr ⟨holds, fun other listed => ?_⟩,
      ItemSet.read_of_holds holds⟩
    exact least _ (stores.mem_items_iff.mpr ⟨other.node, listed⟩)

theorem back_eq : set.back = greatestItem map := by
  refine Option.ext fun item => ?_
  rw [greatestItem_eq_some, back, Option.bind_eq_some_iff]
  constructor
  · rintro ⟨it, final, read⟩
    obtain ⟨holds, greatest⟩ := ItemSet.last_eq_some.mp final
    rw [ItemSet.read_of_holds holds, Option.some_inj] at read
    subst read
    refine ⟨stores.mem_items_iff.mpr ⟨it.node, holds⟩, fun other mem => ?_⟩
    obtain ⟨node, listed⟩ := stores.mem_items_iff.mp mem
    exact greatest _ listed
  · rintro ⟨mem, greatest⟩
    obtain ⟨node, holds⟩ := stores.mem_items_iff.mp mem
    refine ⟨⟨item, node⟩, ItemSet.last_eq_some.mpr ⟨holds, fun other listed => ?_⟩,
      ItemSet.read_of_holds holds⟩
    exact greatest _ (stores.mem_items_iff.mpr ⟨other.node, listed⟩)

theorem shows [Zero T] : set.Shows map where
  score := stores.score
  size := by rw [size, stores.size_eq]
  front := stores.front_eq
  back := stores.back_eq
  maxScore := by
    rw [maxScore, stores.back_eq]
    cases greatestItem map <;> rfl

end Stores

end SortedSet

end Ends

/-! ### Calls -/

section Calls

variable {T : Type*} [LinearOrder T] {set : SortedSet T} {map : SortedMap Bytes T} {key : Bytes}

namespace ItemSet

variable {items : ItemSet T} {it other : ItemIterator T} {item : Item T}

theorem holds_erased :
    ItemSet.Holds { items with nodes := items.nodes.erase it.item } other ↔
      other.item ≠ it.item ∧ items.Holds other := by
  rw [Holds, Holds, SortedMap.get_erase]
  split_ifs with same
  · simp [same]
  · simp [same]

/-- A new item gets a place of its own, and the iterators in use stay what they are. -/
theorem insert_of_absent (absent : ∀ it, items.Holds it → it.item ≠ item) :
    (items.insert item).1.item = item ∧ ∀ other, (items.insert item).2.Holds other ↔
      other = (items.insert item).1 ∨ items.Holds other := by
  have none : items.nodes.get item = none := by
    cases found : items.nodes.get item with
    | none => rfl
    | some node => exact absurd rfl (absent ⟨item, node⟩ found)
  rw [insert, none]
  refine ⟨rfl, fun other => ?_⟩
  rw [Holds, SortedMap.get_put]
  split_ifs with same
  · obtain ⟨found, node⟩ := other
    obtain rfl : found = item := same
    have unheld : ¬items.Holds ⟨found, node⟩ := fun holds => absent _ holds rfl
    simp [unheld, eq_comm]
  · have distinct : other ≠ ⟨item, items.allocated⟩ := fun eq => same (eq ▸ rfl)
    simp [distinct, Holds]

end ItemSet

namespace SortedSet

/-- Apart from one key the index and the ordered set are linked; no item has this key. -/
structure LinkedApart (key : Bytes) (set : SortedSet T) : Prop where
  indexed : ∀ other it, other ≠ key → set.existed.get other = some it →
    it.item.key = other ∧ set.sortedSet.Holds it
  listed : ∀ it, set.sortedSet.Holds it →
    it.item.key ≠ key ∧ set.existed.get it.item.key = some it

theorem Linked.apart_of_absent (linked : set.Linked) (absent : set.existed.get key = none) :
    set.LinkedApart key where
  indexed other it _ found := linked.indexed other it found
  listed it holds := by
    have found := linked.listed it holds
    refine ⟨fun same => ?_, found⟩
    rw [same, absent] at found
    cases found

theorem Linked.apart_of_erased (linked : set.Linked) {it : ItemIterator T}
    (found : set.existed.get key = some it) :
    LinkedApart key { set with
      sortedSet := { set.sortedSet with nodes := set.sortedSet.nodes.erase it.item } } where
  indexed other it' differs found' := by
    obtain ⟨own, holds⟩ := linked.indexed other it' found'
    obtain ⟨ownKey, _⟩ := linked.indexed key it found
    refine ⟨own, ItemSet.holds_erased.mpr ⟨fun same => ?_, holds⟩⟩
    exact differs (by rw [← own, same, ownKey])
  listed it' holds := by
    obtain ⟨differs, holds⟩ := ItemSet.holds_erased.mp holds
    have listed := linked.listed it' holds
    refine ⟨fun same => ?_, listed⟩
    rw [same, found, Option.some_inj] at listed
    exact differs (congrArg ItemIterator.item listed.symm)

/-- Without an entry in the index nothing is left of the key. -/
theorem LinkedApart.forget (apart : set.LinkedApart key) :
    SortedSet.Linked { set with existed := set.existed.erase key } where
  indexed other it found := by
    rw [SortedMap.get_erase] at found
    split_ifs at found with same
    exact apart.indexed other it same found
  listed it holds := by
    obtain ⟨differs, found⟩ := apart.listed it holds
    rw [SortedMap.get_erase, if_neg differs]
    exact found

theorem LinkedApart.insertItem (apart : set.LinkedApart key) (score : T) :
    (set.insertItem ⟨key, score⟩).Linked := by
  have new : ∀ it, set.sortedSet.Holds it → it.item ≠ ⟨key, score⟩ := fun it holds same =>
    (apart.listed it holds).1 (congrArg Item.key same)
  obtain ⟨point, held⟩ := ItemSet.insert_of_absent new
  refine ⟨fun other it found => ?_, fun it holds => ?_⟩
  · simp only [SortedSet.insertItem, SortedMap.get_put] at found
    split_ifs at found with same
    · obtain rfl := Option.some_inj.mp found
      rw [point]
      exact ⟨same.symm, (held _).mpr (Or.inl rfl)⟩
    · obtain ⟨own, holds⟩ := apart.indexed other it same found
      exact ⟨own, (held it).mpr (Or.inr holds)⟩
  · simp only [SortedSet.insertItem, SortedMap.get_put]
    rcases (held it).mp holds with rfl | holds
    · rw [point, if_pos rfl]
    · obtain ⟨differs, found⟩ := apart.listed it holds
      rw [if_neg differs]
      exact found

/-- The score of the inserted item is that of its key. -/
theorem score_insertItem (set : SortedSet T) (item : Item T) (other : Bytes) :
    ((set.insertItem item).existed.get other).map (fun it => it.item.score) =
      if other = item.key then some item.score
      else (set.existed.get other).map fun it => it.item.score := by
  have point : (set.sortedSet.insert item).1.item = item := by
    rw [ItemSet.insert]
    cases set.sortedSet.nodes.get item <;> rfl
  simp only [SortedSet.insertItem, SortedMap.get_put]
  split_ifs
  · rw [Option.map_some, point]
  · rfl

namespace Stores

variable (stores : set.Stores map)

include stores

theorem insertItem {existing : SortedSet T} (apart : existing.LinkedApart key)
    (same : existing.existed = set.existed) (score : T) :
    (existing.insertItem ⟨key, score⟩).Stores (map.put key score) where
  linked := apart.insertItem score
  score other := by
    rw [score_insertItem, SortedMap.get_put, same, stores.score]
    by_cases named : other = key
    · rw [if_pos named, if_pos named]
    · rw [if_neg named, if_neg named]

theorem add (key : Bytes) (score : T) :
    ∃ ret after, set.add key score = some (ret, after) ∧ after.Stores (map.put key score) := by
  rw [SortedSet.add]
  cases found : set.existed.get key with
  | none => exact ⟨1, _, rfl, stores.insertItem (stores.linked.apart_of_absent found) rfl score⟩
  | some it2 =>
      have holds := (stores.linked.indexed key it2 found).2
      have bound := stores.score key
      rw [found, Option.map_some] at bound
      simp only [ItemSet.read_of_holds holds, ItemSet.erase_of_holds holds, Option.bind_eq_bind,
        Option.bind_some]
      by_cases same : it2.item.score = score
      · rw [if_pos same]
        refine ⟨0, set, rfl, stores.linked, fun other => ?_⟩
        rw [SortedMap.get_put, stores.score]
        split_ifs with this
        · rw [this, ← bound, same]
        · rfl
      · rw [if_neg same]
        exact ⟨0, _, rfl, stores.insertItem (stores.linked.apart_of_erased found) rfl score⟩

theorem forget {it : ItemIterator T} (found : set.existed.get key = some it) :
    SortedSet.Stores
      { existed := set.existed.erase key
        sortedSet := { set.sortedSet with nodes := set.sortedSet.nodes.erase it.item } }
      (map.erase key) where
  linked := (stores.linked.apart_of_erased found).forget
  score other := by
    rw [SortedMap.get_erase, SortedMap.get_erase, ← stores.score]
    split_ifs <;> rfl

theorem del (key : Bytes) :
    ∃ ret after, set.del key = some (ret, after) ∧ after.Stores (map.erase key) := by
  rw [SortedSet.del]
  cases found : set.existed.get key with
  | none =>
      refine ⟨0, set, rfl, stores.linked, fun other => ?_⟩
      rw [SortedMap.get_erase, stores.score]
      split_ifs with same
      · rw [same, ← stores.score, found, Option.map_none]
      · rfl
  | some it =>
      refine ⟨1, _, ?_, stores.forget found⟩
      simp only [ItemSet.erase_of_holds (stores.linked.indexed key it found).2,
        Option.bind_eq_bind, Option.bind_some]
      rfl

/-- Removing the element at an end removes the binding of its key. -/
theorem popAt {it : Option (ItemIterator T)} {item : Option (Item T)}
    (holds : ∀ found ∈ it, set.sortedSet.Holds found) (read : it.bind set.sortedSet.read = item) :
    ∃ ret after, set.popAt it = some (ret, after) ∧
      after.Stores (item.elim map fun item => map.erase item.key) := by
  subst read
  cases it with
  | none => exact ⟨0, set, rfl, stores⟩
  | some it =>
      have held := holds it rfl
      rw [Option.bind_some, ItemSet.read_of_holds held]
      refine ⟨1, _, ?_, stores.forget (stores.linked.listed it held)⟩
      simp only [SortedSet.popAt, ItemSet.read_of_holds held, ItemSet.erase_of_holds held,
        Option.bind_eq_bind, Option.bind_some]
      rfl

/-- What one call preserves. -/
theorem apply (call : SetCall T) :
    ∃ after, call.apply set = some after ∧ after.Stores (call.record map) := by
  cases call with
  | add key score =>
      obtain ⟨ret, after, run, kept⟩ := stores.add key score
      exact ⟨after, congrArg (Option.map Prod.snd) run, kept⟩
  | del key =>
      obtain ⟨ret, after, run, kept⟩ := stores.del key
      exact ⟨after, congrArg (Option.map Prod.snd) run, kept⟩
  | popFront =>
      obtain ⟨ret, after, run, kept⟩ := stores.popAt
        (fun found mem => (ItemSet.begin_eq_some.mp mem).1) stores.front_eq
      exact ⟨after, congrArg (Option.map Prod.snd) run, kept⟩
  | popBack =>
      obtain ⟨ret, after, run, kept⟩ := stores.popAt
        (fun found mem => (ItemSet.last_eq_some.mp mem).1) stores.back_eq
      exact ⟨after, congrArg (Option.map Prod.snd) run, kept⟩
  | clear =>
      refine ⟨set.clear, rfl, ⟨fun key it found => ?_, fun it holds => ?_⟩, fun key => rfl⟩
      · cases found
      · cases holds

theorem applyAll (calls : List (SetCall T)) :
    ∃ after, SetCall.applyAll set calls = some after ∧
      after.Stores (calls.foldl SetCall.record map) := by
  induction calls generalizing set map with
  | nil => exact ⟨set, rfl, stores⟩
  | cons call calls ih =>
      obtain ⟨next, run, kept⟩ := stores.apply call
      obtain ⟨after, runs, keptAll⟩ := ih kept
      refine ⟨after, ?_, keptAll⟩
      rw [SetCall.applyAll, List.foldlM_cons, run]
      exact runs

end Stores

theorem stores_empty : SortedSet.Stores ({} : SortedSet T) ∅ where
  linked := by
    constructor
    · rintro key it ⟨⟩
    · rintro it ⟨⟩
  score key := rfl

end SortedSet

/-- After any calls the set is linked and shows the scores last added and not removed since, with
the least and the greatest item at its ends; no call has used an iterator of an erased element. -/
theorem sortedSet_shows_scores [Zero T] (calls : List (SetCall T)) :
    ∃ set, SetCall.applyAll {} calls = some set ∧ set.Linked ∧
      set.Shows (SetCall.scores calls) := by
  obtain ⟨set, run, stores⟩ := SortedSet.stores_empty.applyAll calls
  exact ⟨set, run, stores.linked, stores.shows⟩

end Calls

/-! ### The copy of the nearest expiries -/

section FastKeys

/-- A binding as an item. -/
def toItem (entry : Bytes × Int64) : Item Int64 := ⟨entry.1, entry.2⟩

theorem itemLt_iff {left right : Bytes × Int64} :
    Vcdb.SortedSet.itemLt left right = true ↔ toItem left < toItem right := by
  rw [Vcdb.SortedSet.itemLt, decide_eq_true_eq]
  exact (@Item.lt_iff Int64 _ (toItem left) (toItem right)).symm

theorem foldl_front (entries : List (Bytes × Int64)) (best : Bytes × Int64) :
    (entries.foldl
        (fun best item =>
          match best with
          | none => some item
          | some found => if Vcdb.SortedSet.itemLt item found then some item else some found)
        (some best)).map toItem =
      some ((entries.map toItem).foldl min (toItem best)) := by
  induction entries generalizing best with
  | nil => rfl
  | cons entry entries ih =>
      simp only [List.foldl_cons, List.map_cons]
      split_ifs with below
      · rw [ih, min_eq_right (itemLt_iff.mp below).le]
      · rw [ih, min_eq_left (not_lt.mp (mt itemLt_iff.mpr below))]

theorem foldl_back (entries : List (Bytes × Int64)) (best : Bytes × Int64) :
    (entries.foldl
        (fun best item =>
          match best with
          | none => some item
          | some found => if Vcdb.SortedSet.itemLt found item then some item else some found)
        (some best)).map toItem =
      some ((entries.map toItem).foldl max (toItem best)) := by
  induction entries generalizing best with
  | nil => rfl
  | cons entry entries ih =>
      simp only [List.foldl_cons, List.map_cons]
      split_ifs with above
      · rw [ih, max_eq_right (itemLt_iff.mp above).le]
      · rw [ih, max_eq_left (not_lt.mp (mt itemLt_iff.mpr above))]

variable (set : Vcdb.SortedSet)

theorem map_front : set.front.map toItem = leastItem set := by
  rw [Vcdb.SortedSet.front, leastItem, items]
  cases set.entries with
  | nil => rfl
  | cons entry entries => exact foldl_front entries entry

theorem map_back : set.back.map toItem = greatestItem set := by
  rw [Vcdb.SortedSet.back, greatestItem, items]
  cases set.entries with
  | nil => rfl
  | cons entry entries => exact foldl_back entries entry

/-- The expiration handler pops and looks at its copy as the calls of the sorted set do. -/
theorem fastKeys_record :
    set.popFront = SetCall.record set .popFront ∧ set.popBack = SetCall.record set .popBack ∧
      set.maxScore = (greatestItem set).elim 0 Item.score := by
  rw [Vcdb.SortedSet.popFront, Vcdb.SortedSet.popBack, Vcdb.SortedSet.maxScore, SetCall.record,
    SetCall.record, ← map_front, ← map_back]
  refine ⟨?_, ?_, ?_⟩
  · cases set.front <;> rfl
  · cases set.back <;> rfl
  · cases set.back <;> rfl

end FastKeys

/-! ### The largest size -/

theorem scores_add {T : Type*} [LinearOrder T] (keys : List Bytes) (score : T) :
    SetCall.scores (keys.map fun key => SetCall.add key score) =
      SortedMap.putAll ∅ (keys.map fun key => (key, score)) := by
  rw [SetCall.scores, SortedMap.putAll, List.foldl_map, List.foldl_map]
  rfl

/-- As many keys as there are numbers below 2^31. -/
def manyKeys : List Bytes := (List.range (2 ^ 31)).map fun n => be64 (UInt64.ofNat n)

theorem manyKeys_nodup : manyKeys.Nodup := by
  refine List.Nodup.map_on (fun m below n below' same => ?_) List.nodup_range
  have numbers := congrArg UInt64.toNat (be64_injective same)
  have small := List.mem_range.mp below
  have small' := List.mem_range.mp below'
  rw [UInt64.toNat_ofNat', UInt64.toNat_ofNat'] at numbers
  omega

theorem size_scores_manyKeys :
    (SetCall.scores (manyKeys.map fun key => SetCall.add key (0 : Int64))).size = 2 ^ 31 := by
  have keys : (manyKeys.map fun key => (key, (0 : Int64))).map Prod.fst = manyKeys := by
    rw [List.map_map]
    exact List.map_id _
  have absent : ∀ binding ∈ manyKeys.map fun key => (key, (0 : Int64)),
      ((∅ : SortedMap Bytes Int64).get binding.1).isNone = true := fun _ _ => rfl
  rw [scores_add, SortedMap.size_putAll (keys.symm ▸ manyKeys_nodup),
    List.countP_eq_length.mpr absent, manyKeys, List.length_map, List.length_map,
    List.length_range]
  rfl

/-- After 2^31 keys have been added the size is negative. -/
theorem size_manyKeys :
    ∃ set : SortedSet Int64,
      SetCall.applyAll {} (manyKeys.map fun key => SetCall.add key 0) = some set ∧
        set.size.toInt ≠
          (SetCall.scores (manyKeys.map fun key => SetCall.add key (0 : Int64))).size := by
  obtain ⟨set, run, stores⟩ :=
    SortedSet.stores_empty.applyAll (manyKeys.map fun key => SetCall.add key (0 : Int64))
  have size := stores.shows.size
  refine ⟨set, run, ?_⟩
  rw [size]
  have count : (SetCall.scores (manyKeys.map fun key => SetCall.add key (0 : Int64))).size =
      2 ^ 31 := size_scores_manyKeys
  rw [SetCall.scores] at count
  rw [SetCall.scores, count]
  decide

end Vcdb.Util
