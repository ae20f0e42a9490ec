import Vcdb.Keyspace.KeyListing

/-!
# Iterations are complete

SCAN, HSCAN and SSCAN keep their elements in the order of the store, whatever is written between
two pages.  Every element that stays is returned once.
-/

namespace Vcdb

/-- A collection of a type is found under a version, with an element in it. -/
def HoldsElement (type : UInt8) (world : World) (key : UserKey) (version : UInt16)
    (element : Bytes) : Prop :=
  (∃ mv, metaRead type DataType.hsize (world.db.get (encodeMetaKey key.1)) = (1, mv) ∧
    mv.version = version) ∧
    (world.db.get (encodeKeyInternal DataType.item key.1 element version)).isSome

/-- Between two pages the store may change in any way, and cursors may be given out. -/
def AnyWrites (_ : Bytes) (before after : World) : Prop := KeepsCursors before after

/-- Between two pages nothing happens. -/
def NoWrites (_ : Bytes) (before after : World) : Prop := after = before

/-- A matching element that is found by every page is returned once. -/
structure ReturnsOnce (stringmatchlen : Bytes → Bytes → Bool) (options : Nat → List Bytes)
    (params : Nat → ScanParams) : Prop where
  keys : ∀ {world key elements},
    (∀ n, patternMatches stringmatchlen (params n).pattern key) →
    FullIteration (procScan stringmatchlen) (fun world => HasRoom world ∧ Exists1 world key)
      AnyWrites options world [48] elements →
    elements.count key = 1
  fields : ∀ {world} {key : UserKey} {version field elements},
    (∀ n, patternMatches stringmatchlen (params n).pattern field) →
    FullIteration (procHscan stringmatchlen key.1)
      (fun world => HasRoom world ∧ HoldsElement DataType.hsize world key version field)
      AnyWrites options world [48] elements →
    ∃ pairs : List (Bytes × Bytes), elements = pairs.flatMap (fun pair => [pair.1, pair.2]) ∧
      (pairs.map Prod.fst).count field = 1
  members : ∀ {world} {key : UserKey} {version member elements},
    (∀ n, patternMatches stringmatchlen (params n).pattern member) →
    FullIteration (procSscan stringmatchlen key.1)
      (fun world => HasRoom world ∧ HoldsElement DataType.ssize world key version member)
      AnyWrites options world [48] elements →
    elements.count member = 1

/-- On a store that does not change the iterations end. -/
structure IterationEnds (stringmatchlen : Bytes → Bytes → Bool) (options : Nat → List Bytes)
    (world : World) : Prop where
  keys : ∃ elements, FullIteration (procScan stringmatchlen) (fun _ => True) NoWrites options world
    [48] elements
  fields : ∀ {key : UserKey} {version field}, HoldsElement DataType.hsize world key version field →
    ∃ elements, FullIteration (procHscan stringmatchlen key.1) (fun _ => True) NoWrites options world
      [48] elements
  members : ∀ {key : UserKey} {version member},
    HoldsElement DataType.ssize world key version member →
    ∃ elements, FullIteration (procSscan stringmatchlen key.1) (fun _ => True) NoWrites options world
      [48] elements

section Complete

variable {stringmatchlen : Bytes → Bytes → Bool} {world : World} {key : UserKey}
  {version : UInt16} {element : Bytes}

theorem procHscan_pages (holds : HoldsElement DataType.hsize world key version element) :
    PagesOver stringmatchlen (procHscan stringmatchlen key.1) (hIterator key.1 version)
      (encodeHashKey key.1 [] version) (scanItem key version) world := by
  obtain ⟨⟨mv, found, rfl⟩, _⟩ := holds
  exact scanCollection_pages rfl found (hIterator_covers world.db key mv.version)

theorem procSscan_pages (holds : HoldsElement DataType.ssize world key version element) :
    PagesOver stringmatchlen (procSscan stringmatchlen key.1) (sIterator key.1 version)
      (encodeSetKey key.1 [] version) (scanItem key version) world := by
  obtain ⟨⟨mv, found, rfl⟩, _⟩ := holds
  exact scanCollection_pages rfl found (sIterator_covers world.db key mv.version)

theorem HoldsElement.stored {type : UInt8} (holds : HoldsElement type world key version element) :
    (world.db.get (encodeKeyInternal DataType.item key.1 [] version ++ element)).isSome := by
  rw [← encodeKeyInternal_eq_append]
  exact holds.2

theorem Exists1.stored {name : Bytes} (exist : Exists1 world name) :
    (world.db.get ([DataType.metadata] ++ name)).isSome := by
  obtain ⟨metaVal, found, _⟩ := (exists1_iff world name).mp exist
  exact Option.isSome_of_mem found

/-- A list without duplicates that has an element has it once. -/
theorem count_delivered {delivered : List (Bytes × Bytes)} {tail : Bytes}
    (sorted : delivered.Pairwise fun x y => x.1 < y.1) (mem : tail ∈ delivered.map Prod.fst) :
    (delivered.map Prod.fst).count tail = 1 :=
  List.count_eq_one_of_mem (List.pairwise_map.mpr (sorted.imp ne_of_lt)) mem

theorem cursor_zero_valid : (strToUInt64 [48] 0).2 ≠ einval := by decide +kernel

theorem scanPosition_zero (cursors : RedisCursorTable) (start : Bytes) :
    scanPosition cursors [48] start = start ++ [] := by
  rw [scanPosition, if_pos rfl, List.append_nil]

theorem returnsOnce {options : Nat → List Bytes} {params : Nat → ScanParams}
    (asks : AsksForSome options params) : ReturnsOnce stringmatchlen options params where
  keys := by
    intro world name elements through iteration
    obtain ⟨delivered, rfl, sorted, _, complete⟩ := iteration.delivers
      (fun world _ => procScan_pages stringmatchlen world) (fun _ => And.left) (fun _ _ _ => id) asks
      cursor_zero_valid (scanPosition_zero _ _)
    rw [processed_mIterator]
    exact count_delivered sorted
      (complete name (fun _ here => here.2.stored) through (not_lt.mp (List.not_lt_nil _)))
  fields := by
    intro world key version field elements through iteration
    obtain ⟨delivered, same, sorted, _, complete⟩ := iteration.delivers
      (fun world here => procHscan_pages here.2) (fun _ => And.left) (fun _ _ _ => id) asks
      cursor_zero_valid (scanPosition_zero _ _)
    exact ⟨delivered, same, count_delivered sorted
      (complete field (fun _ here => here.2.stored) through (not_lt.mp (List.not_lt_nil _)))⟩
  members := by
    intro world key version member elements through iteration
    obtain ⟨delivered, rfl, sorted, _, complete⟩ := iteration.delivers
      (fun world here => procSscan_pages here.2) (fun _ => And.left) (fun _ _ _ => id) asks
      cursor_zero_valid (scanPosition_zero _ _)
    rw [processed_sIterator]
    exact count_delivered sorted
      (complete member (fun _ here => here.2.stored) through (not_lt.mp (List.not_lt_nil _)))

theorem iterationEnds {options : Nat → List Bytes} {params : Nat → ScanParams}
    (asks : AsksForSome options params) (sized : CursorsSized world.cursors) :
    IterationEnds stringmatchlen options world where
  keys := fullIteration_ends (fun cursors => procScan_pages stringmatchlen { world with cursors })
    asks cursor_zero_valid (scanPosition_zero _ _) sized
  fields holds := fullIteration_ends
    (fun cursors => @procHscan_pages stringmatchlen { world with cursors } _ _ _ holds) asks
    cursor_zero_valid (scanPosition_zero _ _) sized
  members holds := fullIteration_ends
    (fun cursors => @procSscan_pages stringmatchlen { world with cursors } _ _ _ holds) asks
    cursor_zero_valid (scanPosition_zero _ _) sized

/-- Iterations return every matching element that stays, once, and end when the store does not
change. -/
theorem iterations_complete {options : Nat → List Bytes} {params : Nat → ScanParams}
    (asks : AsksForSome options params) :
    ReturnsOnce stringmatchlen options params ∧
      ∀ world, CursorsSized world.cursors → IterationEnds stringmatchlen options world :=
  ⟨returnsOnce asks, fun _ => iterationEnds asks⟩

end Complete

section Sample

/-- The strings `a` and `b`. -/
def stringsWorld : World :=
  ((procSet [98] [118] []).eval atomically (stringWorld [97] [118])).2

/-- What `SCAN 0 COUNT 1` leaves. -/
def firstPageWorld : World :=
  ((procScan matchLiterally [48] (oneEach 0)).eval atomically stringsWorld).2

/-- What `SET c v` leaves after that page. -/
def grownWorld : World := ((procSet [99] [118] []).eval atomically firstPageWorld).2

/-- What the second page leaves. -/
def secondPageWorld : World :=
  ((procScan matchLiterally [49] (oneEach 1)).eval atomically grownWorld).2

/-- The key `c` is set between the first page and the second one. -/
theorem iterations_complete_grown : ([[97]] ++ ([[98]] ++ [[99]]) : List Bytes).count [98] = 1 := by
  have through : ∀ _ : Nat, patternMatches matchLiterally [42] [98] = true := fun _ =>
    patternMatches_star matchLiterally [98]
  refine (iterations_complete asksForSome_oneEach).1.keys through (?_ :
    FullIteration (procScan matchLiterally) (fun world => HasRoom world ∧ Exists1 world [98])
      AnyWrites oneEach stringsWorld [48] _)
  have first : ((procScan matchLiterally [48] (oneEach 0)).eval atomically stringsWorld).1 =
      .result [49] 1 [[97]] := by decide +kernel
  have second : ((procScan matchLiterally [49] (oneEach 1)).eval atomically grownWorld).1 =
      .result [50] 1 [[98]] := by decide +kernel
  have third : ((procScan matchLiterally [50] (oneEach 2)).eval atomically secondPageWorld).1 =
      .result [48] 1 [[99]] := by decide +kernel
  have room : HasRoom stringsWorld ∧ HasRoom grownWorld ∧ HasRoom secondPageWorld := by
    simp only [HasRoom]
    decide +kernel
  have exist : Exists1 stringsWorld [98] ∧ Exists1 grownWorld [98] ∧
      Exists1 secondPageWorld [98] := by
    simp only [Exists1]
    decide +kernel
  have kept : grownWorld.cursors = firstPageWorld.cursors := rfl
  exact .page ⟨room.1, exist.1⟩ (Prod.ext first rfl) (by decide)
    (fun n element found => by rw [kept]; exact found)
    (.page ⟨room.2.1, exist.2.1⟩ (Prod.ext second rfl) (by decide) (fun n element found => found)
      (.last ⟨room.2.2, exist.2.2⟩ (Prod.ext third rfl)))

/-- The largest number has been given out. -/
def fullWorld : World := { stringsWorld with cursors := SortedMap.put ∅ (2 ^ 64 - 1) [] }

/-- `SCAN 0 COUNT 1` answers with cursor `0` and the first key. -/
theorem iteration_runs_out :
    CursorsSized fullWorld.cursors ∧ AsksForSome oneEach (fun _ => { limit := 1 }) ∧
      patternMatches matchLiterally [42] [98] ∧
      ∃ elements, FullIteration (procScan matchLiterally) (fun world => Exists1 world [98])
        AnyWrites oneEach fullWorld [48] elements ∧ elements.count [98] ≠ 1 := by
  have sized : CursorsSized fullWorld.cursors := by
    intro n mem
    have last : n ∈ [2 ^ 64 - 1] := mem
    rw [List.mem_singleton.mp last]
    decide
  have shown : ((procScan matchLiterally [48] (oneEach 0)).eval atomically fullWorld).1 =
      .result [48] 1 [[97]] := by decide +kernel
  have exist : Exists1 fullWorld [98] := by
    rw [Exists1]
    decide +kernel
  exact ⟨sized, asksForSome_oneEach, patternMatches_star matchLiterally [98], _,
    .last exist (Prod.ext shown rfl), by decide⟩

end Sample

end Vcdb
