import Vcdb.Keyspace.ScanIteration

/-!
# Listing the keys

KEYS and SCAN run through the metadata of the keys and do not look at the deletion flag, which
EXISTS does.
-/

namespace Vcdb

/-- The metadata of the keys. -/
def DB.metadata (db : DB) : SortedMap Bytes Bytes := db.under [DataType.metadata]

theorem DB.get_metadata (db : DB) (key : Bytes) :
    db.metadata.get key = db.get (encodeMetaKey key) := SortedMap.get_under _ _ _

/-- A full scan with one list of options for each page, until the cursor is `0` again: the keys of
its pages. -/
inductive FullScan (stringmatchlen : Bytes → Bytes → Bool) :
    (Nat → List Bytes) → World → Bytes → List Bytes → Prop
  | last {options : Nat → List Bytes} {world after : World} {cursor : Bytes} {announced : Int}
      {keys : List Bytes} :
      (procScan stringmatchlen cursor (options 0)).eval atomically world =
        (.result [48] announced keys, after) →
      FullScan stringmatchlen options world cursor keys
  | page {options : Nat → List Bytes} {world after : World} {cursor next : Bytes} {announced : Int}
      {keys later : List Bytes} :
      (procScan stringmatchlen cursor (options 0)).eval atomically world =
        (.result next announced keys, after) →
      next ≠ [48] → FullScan stringmatchlen (fun n => options (n + 1)) after next later →
      FullScan stringmatchlen options world cursor (keys ++ later)

/-- EXISTS replies `1`. -/
def Exists1 (world : World) (key : Bytes) : Prop :=
  ((procExists [key]).eval atomically world).1 = .int 1

/-- `KEYS *` and a full scan both list exactly the keys for which EXISTS replies `1`. -/
structure ListsExisting (stringmatchlen : Bytes → Bytes → Bool) (options : Nat → List Bytes)
    (world : World) : Prop where
  keys : ∃ keys, ((procKeys stringmatchlen (some [42])).eval atomically world).1 = .strings keys ∧
    ∀ key, key ∈ keys ↔ Exists1 world key
  scan : ∃ keys, FullScan stringmatchlen options world [48] keys ∧
    ∀ key, key ∈ keys ↔ Exists1 world key

/-- No key is marked deleted: all metadata that is stored is live. -/
def NoneDeleted (db : DB) : Prop :=
  ∀ key metaVal, db.get (encodeMetaKey key) = some metaVal →
    metaVal[posDel]? = some keyEnabledMask

section Listing

variable {stringmatchlen : Bytes → Bytes → Bool} {world : World}

theorem eval_keyExists (world : World) (key : Bytes) :
    ∃ ret, (keyExists key).eval atomically world = (ret, world) ∧
      (ret = 1 ↔ MetaLive world.db key) := by
  have read : (dbGet (encodeMetaKey key)).eval atomically world =
      (ReadStatus.ofOption (world.db.get (encodeMetaKey key)), world) := rfl
  rw [keyExists, Program.eval_bind, read, MetaLive]
  cases world.db.get (encodeMetaKey key) with
  | none => exact ⟨0, rfl, by simp⟩
  | some metaVal =>
      simp only [ReadStatus.ofOption, Option.some.injEq, exists_eq_left']
      by_cases enabled : metaVal[posDel]? = some keyEnabledMask
      · refine ⟨1, ?_, by simp [enabled]⟩
        rw [enabled]
        rfl
      · have other : ¬metaVal[posDel]?.getD 0 = keyEnabledMask := by
          cases flag : metaVal[posDel]? with
          | none => decide
          | some del =>
              rw [flag] at enabled
              exact fun same => enabled (congrArg some same)
        by_cases deleted : metaVal[posDel]?.getD 0 = keyDeleteMask
        · refine ⟨0, ?_, by simp [enabled]⟩
          rw [if_neg other, if_pos deleted]
          rfl
        · refine ⟨mkeyDecodecErr, ?_, by simp [enabled, mkeyDecodecErr]⟩
          rw [if_neg other, if_neg deleted]
          rfl

theorem exists1_iff (world : World) (key : Bytes) : Exists1 world key ↔ MetaLive world.db key := by
  obtain ⟨ret, run, live⟩ := eval_keyExists world key
  rw [Exists1, procExists, if_neg (List.cons_ne_nil _ _), existsLoop, ← live]
  simp only [Program.eval_bind, run, existsLoop, Program.pure_eq_done, Program.eval_done]
  by_cases one : ret = 1
  · simp [one]
  · simp [one]

theorem mem_keys_metadata (db : DB) (key : Bytes) :
    key ∈ db.metadata.keys ↔ ∃ metaVal, db.get (encodeMetaKey key) = some metaVal := by
  rw [SortedMap.mem_keys, DB.get_metadata, Option.isSome_iff_exists]

/-- All metadata is live exactly when the keys that have metadata are those that exist. -/
theorem noneDeleted_iff (db : DB) :
    NoneDeleted db ↔ ∀ key, key ∈ db.metadata.keys ↔ MetaLive db key := by
  simp only [mem_keys_metadata]
  constructor
  · intro live key
    exact ⟨fun ⟨metaVal, found⟩ => ⟨metaVal, found, live key metaVal found⟩,
      fun ⟨metaVal, found, _⟩ => ⟨metaVal, found⟩⟩
  · intro same key metaVal found
    obtain ⟨other, again, enabled⟩ := (same key).mp ⟨metaVal, found⟩
    rw [found, Option.some_inj] at again
    rwa [again]

/-- The pattern `*` lets every key through. -/
theorem patternMatches_star (stringmatchlen : Bytes → Bytes → Bool) (key : Bytes) :
    patternMatches stringmatchlen [42] key = true := rfl

theorem elements_mIterator (db : DB) (low : Bytes) :
    mIterator.elements (iterator db (DataType.metadata :: low)) =
      (db.metadata.seek low).map fun entry => (some entry.1, entry.2) := by
  rw [ScanIterator.elements_eq_records]
  have records := (mIterator_covers db).records_eq low
  rw [List.cons_append, List.nil_append] at records
  rw [records, List.map_map]
  rfl

theorem seek_nil {β : Type} (map : SortedMap Bytes β) : map.seek [] = map.entries := by
  rw [SortedMap.seek, List.dropWhile_eq_self_iff]
  intro _
  simp

theorem eval_procKeys (stringmatchlen : Bytes → Bytes → Bool) (world : World) :
    ((procKeys stringmatchlen (some [42])).eval atomically world).1 =
      .strings world.db.metadata.keys := by
  have snapshot : getSnapshot.eval atomically world = (world.db, world) := rfl
  rw [procKeys, Program.eval_bind, snapshot]
  simp only [Option.getD_some, elements_mIterator, seek_nil, Program.pure_eq_done,
    Program.eval_done, List.map_map]
  refine congrArg Reply.strings ?_
  rw [List.filter_eq_self.mpr fun key _ => patternMatches_star stringmatchlen key]
  rfl

/-! ### Pages of a full scan -/

/-- Pages behind which a scan of `n` elements goes on, given the numbers that are asked for. -/
def continuingPages (limits : Nat → Nat) (n : Nat) : Nat :=
  if 0 < limits 0 ∧ limits 0 < n then
    continuingPages (fun k => limits (k + 1)) (n - limits 0) + 1
  else 0
termination_by n
decreasing_by omega

theorem passing_star {γ : Type} (stringmatchlen : Bytes → Bytes → Bool) (mit : ScanIterator γ)
    (item : Bytes → γ) (entries : List (Bytes × Bytes)) :
    passing stringmatchlen mit item [42] entries = entries :=
  List.filter_eq_self.mpr fun _ _ => patternMatches_star stringmatchlen _

/-- A page of SCAN with the pattern `*`: the next keys, and a new cursor unless they were the
last. -/
theorem eval_procScan_page {cursor low : Bytes} {options : List Bytes} {params : ScanParams}
    (valid : (strToUInt64 cursor 0).2 ≠ einval)
    (position : scanPosition world.cursors cursor [DataType.metadata] = DataType.metadata :: low)
    (accepted : prepareForScanParams options {} = .ok params) (all : params.pattern = [42])
    (positive : 0 < params.limit.toNat) :
    ∃ announced,
      ((world.db.metadata.seek low).drop params.limit.toNat = [] ∧
        (procScan stringmatchlen cursor options).eval atomically world =
          (.result [48] announced ((world.db.metadata.seek low).map Prod.fst), world)) ∨
      ∃ entry rest, (world.db.metadata.seek low).drop params.limit.toNat = entry :: rest ∧
        (procScan stringmatchlen cursor options).eval atomically world =
          (.result (strUInt64 (UInt64.ofNat world.cursors.nextCursor)) announced
            (((world.db.metadata.seek low).take params.limit.toNat).map Prod.fst),
          { world with
            cursors := world.cursors.getNewRedisCursor (DataType.metadata :: entry.1) }) := by
  have page := (procScan_pages stringmatchlen world).eval_page valid position accepted positive
  simp only [all, passing_star, processed_mIterator] at page
  exact page

/-- What every page of a full scan is asked for: all keys, and at least one of them. -/
structure AsksForAll (options : Nat → List Bytes) (params : Nat → ScanParams) : Prop where
  accepted : ∀ n, prepareForScanParams (options n) {} = .ok (params n)
  all : ∀ n, (params n).pattern = [42]
  positive : ∀ n, 0 < (params n).limit.toNat

theorem AsksForAll.later {options : Nat → List Bytes} {params : Nat → ScanParams}
    (asks : AsksForAll options params) :
    AsksForAll (fun n => options (n + 1)) fun n => params (n + 1) :=
  ⟨fun n => asks.accepted (n + 1), fun n => asks.all (n + 1), fun n => asks.positive (n + 1)⟩

/-- A full scan delivers the keys from its position on, unless the cursors run out on the way. -/
theorem fullScan_spec {options : Nat → List Bytes} {params : Nat → ScanParams}
    (asks : AsksForAll options params) {cursor low : Bytes}
    (valid : (strToUInt64 cursor 0).2 ≠ einval)
    (position : scanPosition world.cursors cursor [DataType.metadata] = DataType.metadata :: low)
    (sized : CursorsSized world.cursors) :
    ∃ keys, FullScan stringmatchlen options world cursor keys ∧
      keys <+: (world.db.metadata.seek low).map Prod.fst ∧
      (keys = (world.db.metadata.seek low).map Prod.fst ↔
        lastCursor world.cursors + continuingPages (fun n => (params n).limit.toNat)
          (world.db.metadata.seek low).length < 2 ^ 64) := by
  induction size : (world.db.metadata.seek low).length using Nat.strong_induction_on
    generalizing world options params cursor low with
  | _ size' ih =>
    subst size
    have positive := asks.positive 0
    obtain ⟨announced, page⟩ := @eval_procScan_page stringmatchlen world cursor low (options 0)
      (params 0) valid position (asks.accepted 0) (asks.all 0) positive
    rw [continuingPages]
    rcases page with ⟨done, run⟩ | ⟨entry, rest, left, run⟩
    · have short := List.drop_eq_nil_iff.mp done
      rw [if_neg (by omega)]
      exact ⟨_, .last run, List.prefix_rfl, iff_of_true rfl (lastCursor_lt sized)⟩
    · have long : (params 0).limit.toNat < (world.db.metadata.seek low).length := by
        by_contra short
        rw [List.drop_of_length_le (not_lt.mp short)] at left
        cases left
      have split := List.take_append_drop (params 0).limit.toNat (world.db.metadata.seek low)
      rw [if_pos ⟨positive, long⟩]
      by_cases room : lastCursor world.cursors + 1 < 2 ^ 64
      · obtain ⟨notZero, resumed⟩ := scanPosition_getNewRedisCursor room
          (DataType.metadata :: entry.1) [DataType.metadata]
        have behind : world.db.metadata.seek entry.1 =
            (world.db.metadata.seek low).drop (params 0).limit.toNat := by
          rw [left] at split ⊢
          exact SortedMap.seek_of_seek_eq_append split.symm
        obtain ⟨later, scanned, ahead, whole⟩ := @ih _ (by
            rw [behind, List.length_drop]
            omega)
          { world with cursors := world.cursors.getNewRedisCursor (DataType.metadata :: entry.1) }
          _ _ asks.later _ entry.1 (strToUInt64_strUInt64 _).1 resumed
          (cursorsSized_getNewRedisCursor room _ sized) rfl
        simp only [behind, lastCursor_getNewRedisCursor room, List.length_drop] at ahead whole
        have both : (world.db.metadata.seek low).map Prod.fst =
            ((world.db.metadata.seek low).take (params 0).limit.toNat).map Prod.fst ++
              ((world.db.metadata.seek low).drop (params 0).limit.toNat).map Prod.fst := by
          rw [← List.map_append, split]
        refine ⟨_, .page run notZero scanned, ?_, ?_⟩
        · rw [both]
          exact (List.prefix_append_right_inj _).mpr ahead
        · rw [both, List.append_cancel_left_eq, whole]
          omega
      · rw [strUInt64_nextCursor_of_full sized (not_lt.mp room)] at run
        refine ⟨_, .last run, ?_, iff_of_false (fun same => ?_) (by omega)⟩
        · exact (List.take_prefix _ _).map _
        · have lengths := congrArg List.length same
          rw [List.length_map, List.length_map, List.length_take] at lengths
          omega

/-- A full scan has one outcome. -/
theorem FullScan.unique {options : Nat → List Bytes} {cursor : Bytes} {first second : List Bytes}
    (scanned : FullScan stringmatchlen options world cursor first)
    (again : FullScan stringmatchlen options world cursor second) : first = second := by
  induction scanned generalizing second with
  | last run =>
      cases again with
      | last run' =>
          rw [run] at run'
          cases run'
          rfl
      | page run' notZero later =>
          rw [run] at run'
          cases run'
          exact absurd rfl notZero
  | page run notZero later ih =>
      cases again with
      | last run' =>
          rw [run] at run'
          cases run'
          exact absurd rfl notZero
      | page run' notZero' later' =>
          rw [run] at run'
          cases run'
          rw [ih later']

/-- KEYS and SCAN list exactly the existing keys when no key is marked deleted and the scan does not
run out of cursors. -/
theorem listsExisting_iff {options : Nat → List Bytes} {params : Nat → ScanParams}
    (asks : AsksForAll options params) (sized : CursorsSized world.cursors) :
    ListsExisting stringmatchlen options world ↔
      NoneDeleted world.db ∧
        lastCursor world.cursors + continuingPages (fun n => (params n).limit.toNat)
          world.db.metadata.size < 2 ^ 64 := by
  have zero : (strToUInt64 [48] 0).2 ≠ einval := by decide +kernel
  obtain ⟨keys, scanned, ahead, whole⟩ := @fullScan_spec stringmatchlen world options params asks
    [48] [] zero rfl sized
  rw [seek_nil] at ahead whole
  change keys = world.db.metadata.keys ↔ lastCursor world.cursors +
    continuingPages (fun n => (params n).limit.toNat) world.db.metadata.size < 2 ^ 64 at whole
  have listed := eval_procKeys stringmatchlen world
  rw [noneDeleted_iff, ← whole]
  constructor
  · rintro ⟨⟨replied, reply, exact⟩, ⟨scannedKeys, again, exactly⟩⟩
    obtain rfl : world.db.metadata.keys = replied :=
      List.map_injective_iff.mpr (Option.some_injective _) (Reply.list.inj
        (listed.symm.trans reply))
    obtain rfl := scanned.unique again
    refine ⟨fun key => (exact key).trans (exists1_iff world key), ?_⟩
    have all : world.db.metadata.keys ⊆ keys := fun key mem =>
      (exactly key).mpr ((exact key).mp mem)
    exact ahead.eq_of_length_le
      (List.subperm_of_subset world.db.metadata.keys_nodup all).length_le
  · rintro ⟨live, rfl⟩
    have exact : ∀ key, key ∈ world.db.metadata.keys ↔ Exists1 world key := fun key =>
      (live key).trans (exists1_iff world key).symm
    exact ⟨⟨_, listed, exact⟩, ⟨_, scanned, exact⟩⟩

end Listing

/-- Pages of ten keys. -/
theorem asksForAll_default : AsksForAll (fun _ => []) fun _ => {} :=
  ⟨fun _ => rfl, fun _ => rfl, fun _ => by decide⟩

theorem listsExisting_string :
    ListsExisting matchLiterally (fun _ => []) (stringWorld [107] [97]) := by
  have sized : CursorsSized (stringWorld [107] [97]).cursors := by
    intro n mem
    cases mem
  refine (@listsExisting_iff matchLiterally (stringWorld [107] [97]) _ _ asksForAll_default
    sized).mpr ⟨fun key metaVal found => ?_, ?_⟩
  · have stored : SortedMap.get (SortedMap.put ∅ (encodeMetaKey [107]) (encodeKvVal [97] 0))
        (encodeMetaKey key) = some metaVal := found
    rw [SortedMap.get_put] at stored
    split_ifs at stored with same
    · obtain rfl := Option.some_inj.mp stored
      exact (decodeMetaHeader_eq_some (decodeMetaHeader_kvVal [97] 0)).2
    · cases stored
  · have single : (stringWorld [107] [97]).db.metadata.size = 1 := by decide +kernel
    rw [single, continuingPages, if_neg (by decide)]
    decide

/-- A string that was set and deleted, before the background deleter has run. -/
def deletedWorld : World :=
  ((procDel [[107]]).eval atomically ((procSet [107] [97] []).eval atomically
    emptyServer.world).2).2

/-- `KEYS *` lists the deleted key. -/
theorem deleted_key_listed : ¬ListsExisting matchLiterally (fun _ => []) deletedWorld := by
  rintro ⟨⟨keys, reply, exact⟩, _⟩
  have listed : ((procKeys matchLiterally (some [42])).eval atomically deletedWorld).1 =
      .strings [[107]] := by decide +kernel
  have absent : ((procExists [[107]]).eval atomically deletedWorld).1 = .int 0 := by
    decide +kernel
  have same : [[107]] = keys :=
    List.map_injective_iff.mpr (Option.some_injective _) (Reply.list.inj (listed.symm.trans reply))
  have found : Exists1 deletedWorld [107] := by
    rw [← exact, ← same]
    exact List.mem_cons_self
  rw [Exists1, absent] at found
  cases found

end Vcdb
