import Vcdb.Keyspace.ScanCursor

/-!
# Full iterations

A client passes each cursor back until the cursor is `0` again, while the store changes between the
pages.  The positions behind the pages increase, so that nothing is delivered twice, and nothing
that stays is missed.
-/

namespace Vcdb

/-- A full iteration with one list of options for each page, until the cursor is `0` again: the
elements of its pages.  The worlds that the pages run in, and what happens between two pages while a
cursor is kept, may be restricted. -/
inductive FullIteration (scan : Bytes → List Bytes → Command ScanResponse) (during : World → Prop)
    (between : Bytes → World → World → Prop) : (Nat → List Bytes) → World → Bytes → List Bytes → Prop
  | last {options : Nat → List Bytes} {world after : World} {cursor : Bytes} {announced : Int}
      {elements : List Bytes} :
      during world →
      (scan cursor (options 0)).eval atomically world = (.result [48] announced elements, after) →
      FullIteration scan during between options world cursor elements
  | page {options : Nat → List Bytes} {world after resumed : World} {cursor next : Bytes}
      {announced : Int} {elements later : List Bytes} :
      during world →
      (scan cursor (options 0)).eval atomically world = (.result next announced elements, after) →
      next ≠ [48] → between next after resumed →
      FullIteration scan during between (fun n => options (n + 1)) resumed next later →
      FullIteration scan during between options world cursor (elements ++ later)

/-- The numbers for new cursors are not used up. -/
def HasRoom (world : World) : Prop := lastCursor world.cursors + 1 < 2 ^ 64

/-- Every page is asked for at least one element. -/
structure AsksForSome (options : Nat → List Bytes) (params : Nat → ScanParams) : Prop where
  accepted : ∀ n, prepareForScanParams (options n) {} = .ok (params n)
  positive : ∀ n, 0 < (params n).limit.toNat

theorem AsksForSome.later {options : Nat → List Bytes} {params : Nat → ScanParams}
    (asks : AsksForSome options params) :
    AsksForSome (fun n => options (n + 1)) fun n => params (n + 1) :=
  ⟨fun n => asks.accepted (n + 1), fun n => asks.positive (n + 1)⟩

/-- In a world, a scan runs through the records under a prefix of the store. -/
structure PagesOver {γ : Type} (stringmatchlen : Bytes → Bytes → Bool)
    (scan : Bytes → List Bytes → Command ScanResponse) (mit : ScanIterator γ) (start : Bytes)
    (item : Bytes → γ) (world : World) : Prop where
  covers : mit.Covers world.db start item
  run : ∀ {cursor options params}, (strToUInt64 cursor 0).2 ≠ einval →
    prepareForScanParams options {} = .ok params →
    (scan cursor options).eval atomically world =
      ((scanFrom stringmatchlen mit params.pattern params.limit.toNat
        (scanPosition world.cursors cursor start)).eval atomically world).map
          convertReplyToScanResult id

section Pages

variable {γ : Type} {stringmatchlen : Bytes → Bytes → Bool}
  {scan : Bytes → List Bytes → Command ScanResponse} {mit : ScanIterator γ} {start : Bytes}
  {item : Bytes → γ} {world : World}

/-- The records of a page that its pattern lets through. -/
def passing (stringmatchlen : Bytes → Bytes → Bool) (mit : ScanIterator γ) (item : Bytes → γ)
    (pattern : Bytes) (entries : List (Bytes × Bytes)) : List (Bytes × Bytes) :=
  entries.filter fun entry => patternMatches stringmatchlen pattern (mit.key (item entry.1))

/-- What is sent of records. -/
def processed (mit : ScanIterator γ) (item : Bytes → γ) (entries : List (Bytes × Bytes)) :
    List Bytes :=
  entries.flatMap fun entry => mit.process (item entry.1) entry.2

theorem processed_append (first second : List (Bytes × Bytes)) :
    processed mit item (first ++ second) = processed mit item first ++ processed mit item second :=
  List.flatMap_append

theorem matching_eq_processed (pattern : Bytes) (entries : List (Bytes × Bytes)) :
    matching stringmatchlen mit pattern (entries.map fun entry => (item entry.1, entry.2)) =
      processed mit item (passing stringmatchlen mit item pattern entries) := by
  rw [matching, List.filter_map, List.flatMap_map]
  rfl

/-- A page: the next records, and a new cursor unless they were the last. -/
theorem PagesOver.eval_page (pages : PagesOver stringmatchlen scan mit start item world)
    {cursor low : Bytes} {options : List Bytes} {params : ScanParams}
    (valid : (strToUInt64 cursor 0).2 ≠ einval)
    (position : scanPosition world.cursors cursor start = start ++ low)
    (accepted : prepareForScanParams options {} = .ok params)
    (positive : 0 < params.limit.toNat) :
    ∃ announced,
      (((world.db.under start).seek low).drop params.limit.toNat = [] ∧
        (scan cursor options).eval atomically world =
          (.result [48] announced (processed mit item (passing stringmatchlen mit item
            params.pattern ((world.db.under start).seek low))), world)) ∨
      ∃ entry rest,
        ((world.db.under start).seek low).drop params.limit.toNat = entry :: rest ∧
        (scan cursor options).eval atomically world =
          (.result (strUInt64 (UInt64.ofNat world.cursors.nextCursor)) announced
            (processed mit item (passing stringmatchlen mit item params.pattern
              (((world.db.under start).seek low).take params.limit.toNat))),
          { world with cursors := world.cursors.getNewRedisCursor (start ++ entry.1) }) := by
  obtain ⟨examined, next⟩ := pages.covers.page stringmatchlen params.pattern low positive
  have sent := (@doScanGeneric_spec stringmatchlen _ mit params.pattern params.limit.toNat
    (iterator world.db (start ++ low))).1
  rw [examined, matching_eq_processed] at sent
  have snapshot : getSnapshot.eval atomically world = (world.db, world) := rfl
  rw [pages.run valid accepted, position, scanFrom, Program.eval_bind, snapshot]
  simp only [sent]
  cases left : ((world.db.under start).seek low).drop params.limit.toNat with
  | nil =>
      rw [left] at next
      rw [next, List.take_of_length_le (List.drop_eq_nil_iff.mp left)]
      exact ⟨_, Or.inl ⟨rfl, rfl⟩⟩
  | cons entry rest =>
      rw [left] at next
      rw [next]
      exact ⟨_, Or.inr ⟨entry, rest, rfl, rfl⟩⟩

/-- The cursors that were given out are still known. -/
def KeepsCursors (before after : World) : Prop :=
  ∀ n element, before.cursors.get n = some element → after.cursors.get n = some element

/-- What a full iteration delivers: records in the order of the store, each at most once, and among
them every one that is stored whenever a page runs and that all the patterns let through. -/
theorem FullIteration.delivers {during : World → Prop} {between : Bytes → World → World → Prop}
    {options : Nat → List Bytes} {cursor : Bytes} {elements : List Bytes}
    (iteration : FullIteration scan during between options world cursor elements)
    (pages : ∀ world, during world → PagesOver stringmatchlen scan mit start item world)
    (room : ∀ world, during world → HasRoom world)
    (kept : ∀ next after resumed, between next after resumed → KeepsCursors after resumed)
    {params : Nat → ScanParams} (asks : AsksForSome options params)
    (valid : (strToUInt64 cursor 0).2 ≠ einval) {low : Bytes}
    (position : scanPosition world.cursors cursor start = start ++ low) :
    ∃ delivered, elements = processed mit item delivered ∧
      (delivered.Pairwise fun x y => x.1 < y.1) ∧ (∀ entry ∈ delivered, low ≤ entry.1) ∧
      ∀ tail, (∀ world, during world → (world.db.get (start ++ tail)).isSome) →
        (∀ n, patternMatches stringmatchlen (params n).pattern (mit.key (item tail))) →
        low ≤ tail → tail ∈ delivered.map Prod.fst := by
  induction iteration generalizing params low with
  | @last options world after cursor announced elements here run =>
      obtain ⟨announced', page⟩ := (pages world here).eval_page valid position (asks.accepted 0)
        (asks.positive 0)
      rcases page with ⟨_, run'⟩ | ⟨entry, rest, _, run'⟩
      · rw [run, Prod.mk.injEq, ScanResponse.result.injEq] at run'
        refine ⟨_, run'.1.2.2, ((world.db.under start).seek_sorted low).filter _, fun entry mem => ?_,
          fun tail stored through behind => ?_⟩
        · exact (SortedMap.mem_seek.mp (List.mem_filter.mp mem).1).1
        · obtain ⟨val, found⟩ := Option.isSome_iff_exists.mp (stored world here)
          refine List.mem_map.mpr ⟨(tail, val), List.mem_filter.mpr ⟨?_, through 0⟩, rfl⟩
          exact SortedMap.mem_seek.mpr ⟨behind, (SortedMap.get_under _ _ _).trans found⟩
      · rw [run, Prod.mk.injEq, ScanResponse.result.injEq] at run'
        exact absurd run'.1.1.symm
          (scanPosition_getNewRedisCursor (room world here) [] []).1
  | @page options world after resumed cursor next announced elements later here run notZero
      meanwhile iteration ih =>
      obtain ⟨announced', page⟩ := (pages world here).eval_page valid position (asks.accepted 0)
        (asks.positive 0)
      rcases page with ⟨_, run'⟩ | ⟨entry, rest, left, run'⟩
      · rw [run, Prod.mk.injEq, ScanResponse.result.injEq] at run'
        exact absurd run'.1.1 notZero
      · rw [run, Prod.mk.injEq, ScanResponse.result.injEq] at run'
        obtain ⟨⟨rfl, _, rfl⟩, rfl⟩ := run'
        have remembered := kept _ _ _ meanwhile _ _
          (get_getNewRedisCursor (room world here) (start ++ entry.1))
        obtain ⟨delivered, same, sorted, beyond, complete⟩ := ih asks.later
          (strToUInt64_strUInt64 _).1 (scanPosition_of_get (room world here) _ remembered _).2
        -- the page ends before the remembered record, and the rest begins there
        have whole := List.take_append_drop (params 0).limit.toNat
          ((world.db.under start).seek low)
        have ordered := (world.db.under start).seek_sorted low
        rw [← whole, left, List.pairwise_append] at ordered
        have before : ∀ sent ∈ passing stringmatchlen mit item (params 0).pattern
            (((world.db.under start).seek low).take (params 0).limit.toNat), sent.1 < entry.1 :=
          fun sent mem => ordered.2.2 sent (List.mem_filter.mp mem).1 entry List.mem_cons_self
        refine ⟨passing stringmatchlen mit item (params 0).pattern (((world.db.under start).seek
            low).take (params 0).limit.toNat) ++ delivered, by rw [processed_append, same],
          List.pairwise_append.mpr ⟨ordered.1.filter _, sorted, fun sent mem other mem' =>
            (before sent mem).trans_le (beyond other mem')⟩, fun sent mem => ?_,
          fun tail stored through behind => ?_⟩
        · rcases List.mem_append.mp mem with mem | mem
          · exact (SortedMap.mem_seek.mp (List.mem_of_mem_take (List.mem_filter.mp mem).1)).1
          · have reached : entry ∈ (world.db.under start).seek low :=
              List.mem_of_mem_drop (left ▸ List.mem_cons_self)
            exact (SortedMap.mem_seek.mp reached).1.trans (beyond sent mem)
        · obtain ⟨val, found⟩ := Option.isSome_iff_exists.mp (stored world here)
          have inScan : (tail, val) ∈ (world.db.under start).seek low :=
            SortedMap.mem_seek.mpr ⟨behind, (SortedMap.get_under _ _ _).trans found⟩
          rw [List.map_append, List.mem_append]
          rcases SortedMap.mem_take_seek_or_le left inScan with first | later
          · exact Or.inl (List.mem_map.mpr ⟨_, List.mem_filter.mpr ⟨first, through 0⟩, rfl⟩)
          · exact Or.inr (complete tail stored (fun n => through (n + 1)) later)

/-- On a store that does not change, every iteration ends. -/
theorem fullIteration_ends
    (pages : ∀ cursors, PagesOver stringmatchlen scan mit start item { world with cursors })
    {options : Nat → List Bytes} {params : Nat → ScanParams} (asks : AsksForSome options params)
    {cursor low : Bytes} (valid : (strToUInt64 cursor 0).2 ≠ einval)
    (position : scanPosition world.cursors cursor start = start ++ low)
    (sized : CursorsSized world.cursors) :
    ∃ elements, FullIteration scan (fun _ => True) (fun _ after resumed => resumed = after) options
      world cursor elements := by
  induction size : ((world.db.under start).seek low).length using Nat.strong_induction_on
    generalizing world options params cursor low with
  | _ size' ih =>
    subst size
    have here : PagesOver stringmatchlen scan mit start item world := pages world.cursors
    have positive := asks.positive 0
    obtain ⟨announced, page⟩ := here.eval_page valid position (asks.accepted 0) positive
    rcases page with ⟨_, run⟩ | ⟨entry, rest, left, run⟩
    · exact ⟨_, .last trivial run⟩
    · by_cases room : HasRoom world
      · obtain ⟨notZero, resumed⟩ :=
          scanPosition_getNewRedisCursor room (start ++ entry.1) start
        have split := List.take_append_drop (params 0).limit.toNat
          ((world.db.under start).seek low)
        have behind : (world.db.under start).seek entry.1 =
            ((world.db.under start).seek low).drop (params 0).limit.toNat := by
          rw [left] at split ⊢
          exact SortedMap.seek_of_seek_eq_append split.symm
        have shorter : ((world.db.under start).seek entry.1).length <
            ((world.db.under start).seek low).length := by
          have nonempty := congrArg List.length left
          rw [List.length_drop, List.length_cons] at nonempty
          rw [behind, List.length_drop]
          omega
        obtain ⟨later, iteration⟩ := @ih _ shorter
          { world with cursors := world.cursors.getNewRedisCursor (start ++ entry.1) }
          (fun cursors => pages cursors) _ _ asks.later _ entry.1 (strToUInt64_strUInt64 _).1 resumed
          (cursorsSized_getNewRedisCursor room _ sized) rfl
        exact ⟨_, .page trivial run notZero rfl iteration⟩
      · rw [strUInt64_nextCursor_of_full sized (not_lt.mp room)] at run
        exact ⟨_, .last trivial run⟩

end Pages

/-! ### The scans -/

/-- An element of a hash or a set. -/
def scanItem (key : UserKey) (version : UInt16) (field : Bytes) : ItemKey := ⟨key.1, version, field⟩

section Scans

variable {stringmatchlen : Bytes → Bytes → Bool} {world : World} {key : UserKey} {version : UInt16}

theorem procScan_pages (stringmatchlen : Bytes → Bytes → Bool) (world : World) :
    PagesOver stringmatchlen (procScan stringmatchlen) mIterator [DataType.metadata] some world where
  covers := mIterator_covers world.db
  run := by
    intro cursor options params valid accepted
    rw [procScan, procScanGeneric, if_neg valid, accepted]
    simp only [scan, Program.eval_bind, eval_scanStart]
    rfl

/-- SCAN sends the keys. -/
theorem processed_mIterator (entries : List (Bytes × Bytes)) :
    processed mIterator some entries = entries.map Prod.fst := by
  induction entries with
  | nil => rfl
  | cons entry entries ih => exact congrArg (entry.1 :: ·) ih

/-- HSCAN sends the fields with their values. -/
theorem processed_hIterator (entries : List (Bytes × Bytes)) :
    processed (hIterator key.1 version) (scanItem key version) entries =
      entries.flatMap fun entry => [entry.1, entry.2] := rfl

/-- SSCAN sends the members. -/
theorem processed_sIterator (entries : List (Bytes × Bytes)) :
    processed (sIterator key.1 version) (scanItem key version) entries = entries.map Prod.fst := by
  induction entries with
  | nil => rfl
  | cons entry entries ih => exact congrArg (entry.1 :: ·) ih

/-- HSCAN, SSCAN and ZSCAN on a collection that is found. -/
theorem scanCollection_pages {γ : Type} {type freshType : UInt8} {mv : MetaVal}
    {getMeta : Bytes → Command (Int × MetaVal)} (reads : getMeta = getMetaVal type freshType)
    {iterate : UInt16 → ScanIterator γ} {first : UInt16 → Bytes} {name : Bytes}
    (found : metaRead type freshType (world.db.get (encodeMetaKey name)) = (1, mv))
    {item : Bytes → γ} (covers : (iterate mv.version).Covers world.db (first mv.version) item) :
    PagesOver stringmatchlen (fun cursor options => procScanGeneric
        (scanCollection stringmatchlen getMeta iterate first name cursor) cursor options)
      (iterate mv.version) (first mv.version) item world where
  covers := covers
  run := by
    intro cursor options params valid accepted
    rw [procScanGeneric, if_neg valid, accepted, reads]
    simp only [scanCollection, Program.eval_bind, eval_getMetaVal, found, ne_eq, not_true_eq_false,
      if_false, eval_scanStart]
    rfl

theorem covers_items {mit : ScanIterator ItemKey} (db : DB) (decode : mit.decode = decodeItemKey)
    (belongs : ∀ item, mit.belongs item ↔ item.key = key.1 ∧ item.version = version) :
    mit.Covers db (encodeKeyInternal DataType.item key.1 [] version) (scanItem key version) where
  own tail _ := by
    rw [decode, ← encodeKeyInternal_eq_append, decodeItemKey_encode, belongs]
    exact ⟨rfl, rfl, rfl⟩
  foreign := by
    intro ks found decoded mine
    rw [decode, decodeItemKey, decodeItemKeyInternal_eq_some] at decoded
    obtain ⟨sameKey, sameVersion⟩ := (belongs found).mp mine
    rw [decoded.2, sameKey, sameVersion, encodeKeyInternal_eq_append _ _ found.field]
    exact List.prefix_append _ _

theorem hIterator_covers (db : DB) (key : UserKey) (version : UInt16) :
    (hIterator key.1 version).Covers db (encodeHashKey key.1 [] version) (scanItem key version) :=
  covers_items db rfl fun _ => decide_eq_true_iff

theorem sIterator_covers (db : DB) (key : UserKey) (version : UInt16) :
    (sIterator key.1 version).Covers db (encodeSetKey key.1 [] version) (scanItem key version) :=
  covers_items db rfl fun _ => decide_eq_true_iff

end Scans

/-- `COUNT 1` -/
def oneEach : Nat → List Bytes := fun _ => [countWord, [49]]

theorem asksForSome_oneEach : AsksForSome oneEach fun _ => { limit := 1 } := by
  have accepted : prepareForScanParams [countWord, [49]] {} = .ok { limit := 1 } := by
    decide +kernel
  exact ⟨fun _ => accepted, fun _ => by decide⟩

end Vcdb
