import Vcdb.Keyspace.ListCommand
import Vcdb.Keyspace.RestoreSafety

/-!
# Restored lists

A dump can carry a list as single strings, as one ziplist or as a sequence of ziplists.  No entry
of a single ziplist is ever put into the list.
-/

namespace Vcdb

section Cells

variable {db : DB} {key : Bytes} {version : UInt16}

theorem encodeListKey_injective {seq seq' : UInt64}
    (same : encodeListKey key seq version = encodeListKey key seq' version) : seq = seq' := by
  have digits := List.append_cancel_left (List.cons.inj same).2
  exact be64_injective (List.append_cancel_left (List.append_cancel_left digits))

theorem isContent_listKey (key : Bytes) (seq : UInt64) (version : UInt16) :
    IsContent (encodeListKey key seq version) := Or.inr (Or.inl rfl)

theorem number_zero (seq : UInt64) : seq + UInt64.ofNat 0 = seq := UInt64.add_zero seq

theorem number_succ (seq : UInt64) (i : Nat) :
    seq + UInt64.ofNat (i + 1) = seq + 1 + UInt64.ofNat i := by
  rw [UInt64.ofNat_add, UInt64.add_assoc, UInt64.add_comm 1]
  rfl

theorem number_ne {seq : UInt64} {i : Nat} (positive : 0 < i) (small : i < 2 ^ 64) :
    seq + UInt64.ofNat i ≠ seq := by
  intro same
  have offset : (seq - seq).toNat = i := (Window.toNat_sub_eq_iff small).mpr same.symm
  rw [UInt64.sub_self] at offset
  exact positive.ne offset

theorem quickCells_key {cells : List Bytes} {seq : UInt64} {op : BatchOp}
    (mem : op ∈ quickCells key version cells seq) :
    ∃ i < cells.length, op.key = encodeListKey key (seq + 1 + UInt64.ofNat i) version := by
  induction cells generalizing seq with
  | nil => cases mem
  | cons cell cells ih =>
      rw [quickCells, seqAfter_eq] at mem
      rcases List.mem_cons.mp mem with rfl | later
      · exact ⟨0, by simp, by rw [number_zero]; rfl⟩
      · obtain ⟨i, inside, same⟩ := ih later
        exact ⟨i + 1, by simpa using inside, by rw [same, number_succ]⟩

/-- Cells are stored under the numbers behind the last one. -/
theorem get_quickCells (db : DB) (key : Bytes) (version : UInt16) {cells : List Bytes}
    (seq : UInt64)
    (small : cells.length < 2 ^ 64)
    {i : Nat} (inside : i < cells.length) :
    ((quickCells key version cells seq).apply db).get
      (encodeListKey key (seq + 1 + UInt64.ofNat i) version) = cells[i]? := by
  induction cells generalizing seq i db with
  | nil => cases inside
  | cons cell cells ih =>
      rw [List.length_cons] at small inside
      rw [quickCells, seqAfter_eq]
      change (WriteBatch.apply (quickCells key version cells (seq + 1))
        (db.put (encodeListKey key (seq + 1) version) cell)).get _ = _
      cases i with
      | zero =>
          rw [number_zero, WriteBatch.get_apply_of_untouched, SortedMap.get_put_self,
            List.getElem?_cons_zero]
          intro op mem same
          obtain ⟨i, below, numbered⟩ := quickCells_key mem
          rw [numbered, ← number_succ] at same
          exact number_ne (Nat.succ_pos i) (by omega) (encodeListKey_injective same)
      | succ i =>
          rw [number_succ, List.getElem?_cons_succ]
          exact ih _ _ (by omega) (Nat.lt_of_succ_lt_succ inside)

/-- A list is written from the number zero on. -/
theorem get_batch_listKey (db : DB) (key : Bytes) (version : UInt16) {cells : List Bytes}
    (small : cells.length < 2 ^ 64) {i : Nat} (inside : i < cells.length) :
    (((RdbValue.list false cells).batch key version).apply db).get
      (encodeListKey key (0 + UInt64.ofNat i) version) = cells[i]? := by
  have other : encodeMetaKey key ≠ encodeListKey key (0 + UInt64.ofNat i) version :=
    fun same => absurd (List.cons.inj same).1 (by decide)
  have cell := get_quickCells db key version uint64Max small inside
  change (WriteBatch.apply (quickCells key version cells uint64Max ++ [.put (encodeMetaKey key) _])
    db).get _ = _
  rw [WriteBatch.apply_append]
  exact (BatchOp.get_apply_of_ne (.put (encodeMetaKey key) _) other).trans cell

theorem metaVal_list (cells : List Bytes) (version : UInt16) :
    (RdbValue.list false cells).metaVal version = some (encodeListMetaVal
      (UInt64.ofNat cells.length) 0 (0 + UInt64.ofNat cells.length - 1) version) := by
  have last : uint64Max + UInt64.ofNat cells.length = 0 + UInt64.ofNat cells.length - 1 := by
    have wraps : uint64Max = -1 := by decide
    rw [wraps]
    grind
  have whole : RdbValue.delivered false cells = cells := rfl
  rw [RdbValue.metaVal, whole, last]

end Cells

section Reading

variable {world : World} {key : Bytes} {version : UInt16} {cells : List Bytes} {left : UInt64}

theorem eval_getListMetaVal_raw {length right : UInt64}
    (found : world.db.get (encodeMetaKey key) =
      some (encodeListMetaVal length left right version)) :
    (getListMetaVal (encodeMetaKey key)).eval atomically world =
      ((1, { type := DataType.lsize, version, length, leftSeq := left, rightSeq := right }),
        world) := by
  have read : (dbGet (encodeMetaKey key)).eval atomically world =
      (.ok (encodeListMetaVal length left right version), world) :=
    Prod.ext (congrArg ReadStatus.ofOption found) rfl
  rw [getListMetaVal, Program.eval_bind, read]
  simp only [ListMetaVal.decodeMetaVal_encode, if_neg enabled_ne_delete, ne_eq, not_true_eq_false,
    if_false]
  rfl

/-- LRANGE delivers every cell of a list when its range covers the list. -/
theorem eval_procLrange_covering {start stop : Int64} (nonempty : cells ≠ [])
    (short : cells.length < 2 ^ 63)
    (covering : listSlice cells start.toInt stop.toInt = cells)
    (found : world.db.get (encodeMetaKey key) = some (encodeListMetaVal
      (UInt64.ofNat cells.length) left (left + UInt64.ofNat cells.length - 1) version))
    (stored : ∀ i < cells.length,
      world.db.get (encodeListKey key (left + UInt64.ofNat i) version) = cells[i]?) :
    ((procLrange key start stop).eval atomically world).1 = .strings cells := by
  have readMeta := eval_getListMetaVal_raw found
  have describes : ListMetaVal.Describes
      { type := DataType.lsize, version := version, length := UInt64.ofNat cells.length,
        leftSeq := left, rightSeq := left + UInt64.ofNat cells.length - 1 } cells left version :=
    ⟨rfl, rfl, rfl, rfl, rfl⟩
  have window := range_window describes short start stop
  have nonneg : ¬((1 : Int) < 0) := by decide
  simp only [covering] at window
  by_cases empty : (rangeBounds (UInt64.ofNat cells.length).toInt64 start stop).1 >
      (rangeBounds (UInt64.ofNat cells.length).toInt64 start stop).2 ∨
    (rangeBounds (UInt64.ofNat cells.length).toInt64 start stop).1 ≥
      (UInt64.ofNat cells.length).toInt64
  · rw [if_pos empty] at window
    exact absurd window nonempty
  · rw [if_neg empty] at window
    obtain ⟨i, n, _, inside, slice, first, _, width⟩ := window
    simp only [procLrange, Vcdb.lrange, Program.eval_bind, eval_recordKeyLock, readMeta,
      if_true, eval_getSnapshot, Program.pure_eq_done, Program.eval_done, ne_eq,
      not_true_eq_false, if_false, if_neg empty, width, first, Int.toNat_natCast,
      eval_rangeLoop stored inside, List.nil_append, if_neg nonneg, ← slice]

theorem listSlice_whole (cells : List Bytes) :
    listSlice cells (0 : Int64).toInt (-1 : Int64).toInt = cells := by
  have first : (0 : Int64).toInt = 0 := rfl
  have last : (-1 : Int64).toInt = -1 := rfl
  rw [listSlice, first, last]
  simp

theorem eval_procLlen_raw {length right : UInt64}
    (found : world.db.get (encodeMetaKey key) =
      some (encodeListMetaVal length left right version)) :
    ((procLlen key).eval atomically world).1 = .int length.toNat := by
  simp [procLlen, lLen, eval_getListMetaVal_raw found]

/-- LRANGE delivers no cell of a key that is not live. -/
theorem eval_procLrange_notLive (idle : ¬MetaLive world.db key) (nonempty : cells ≠ [])
    (start stop : Int64) :
    ((procLrange key start stop).eval atomically world).1 ≠ .strings cells := by
  have read : (dbGet (encodeMetaKey key)).eval atomically world =
      (ReadStatus.ofOption (world.db.get (encodeMetaKey key)), world) := rfl
  have absent : ∃ ret lv, (getListMetaVal (encodeMetaKey key)).eval atomically world =
      ((ret, lv), world) ∧ (ret = 0 ∨ ret = -1) := by
    rw [getListMetaVal, Program.eval_bind, read]
    cases found : world.db.get (encodeMetaKey key) with
    | none => exact ⟨0, _, rfl, Or.inl rfl⟩
    | some metaVal =>
        simp only [ReadStatus.ofOption, ListMetaVal.decodeMetaVal]
        cases decoded : decodeMetaHeader metaVal with
        | none => exact ⟨-1, _, rfl, Or.inr rfl⟩
        | some parsed =>
            obtain ⟨header, rest⟩ := parsed
            have deleted : header.del = keyDeleteMask :=
              (decodeMetaHeader_flag decoded).resolve_right fun enabled =>
                idle ⟨metaVal, found, enabled ▸ (decodeMetaHeader_eq_some decoded).2⟩
            simp only [deleted, if_true]
            exact ⟨0, _, rfl, Or.inl rfl⟩
  obtain ⟨ret, lv, readMeta, outcome⟩ := absent
  have notOne : ret ≠ 1 := by rcases outcome with rfl | rfl <;> decide
  simp only [procLrange, Vcdb.lrange, Program.eval_bind, eval_recordKeyLock, readMeta,
    Program.pure_eq_done, ne_eq, notOne]
  rcases outcome with rfl | rfl
  · simpa [Reply.strings] using nonempty.symm
  · simp [Reply.strings]

end Reading

/-- RESTORE answers OK and leaves a list that reads back as the cells. -/
def RestoresList (runtime : Runtime) (world : World) (key : Bytes) (ttl : Int64) (data : Bytes)
    (replace : Bool) (cells : List Bytes) : Prop :=
  ∃ after, (procRestore runtime key ttl data replace).eval atomically world = (.ok .ok, after) ∧
    ((procLrange key 0 (-1)).eval atomically after).1 = .strings cells ∧
    ((procLlen key).eval atomically after).1 = .int cells.length

/-- A dump that carries a list is restored as that list unless it comes as a single ziplist, is
refused, or its expiry is over before it is stored. -/
theorem procRestore_list_iff (runtime : Runtime) (world : World) (key : Bytes) (ttl : Int64)
    (replace single : Bool) {data body : Bytes} {cells : List Bytes}
    (readable : ∀ metaVal, world.db.get (encodeMetaKey key) = some metaVal →
      (decodeMetaHeader metaVal).isSome)
    (verified : verifyDumpPayload runtime data = some body)
    (carries : Carries runtime body (.list single cells)) (nonempty : cells ≠ [])
    (short : cells.length < 2 ^ 63) :
    RestoresList runtime world key ttl data replace cells ↔
      single = false ∧ 0 ≤ ttl ∧ (MetaLive world.db key → replace) ∧
        (ttl = 0 ∨ world.clock 1 < ttl + world.clock 0) := by
  have small : (RdbValue.list single cells).count < 2 ^ 64 := by
    have delivered : (RdbValue.delivered single cells).length ≤ cells.length := by
      rw [RdbValue.delivered]
      split_ifs
      · exact Nat.zero_le _
      · exact le_rfl
    exact lt_of_le_of_lt delivered (by omega)
  constructor
  · rintro ⟨after, run, whole, length⟩
    obtain ⟨nonneg, _, admitted, _⟩ := procRestore_accepted verified (congrArg Prod.fst run)
    obtain ⟨metaVal, reopened, after', opened, run', kept, past⟩ :=
      eval_procRestore readable verified carries small nonneg admitted
    rw [run'] at run
    obtain rfl : after' = after := congrArg Prod.snd run
    have stays : (RdbValue.list single cells).Kept world ttl := by
      by_contra gone
      exact eval_procLrange_notLive (past gone) nonempty 0 (-1) whole
    refine ⟨?_, nonneg, admitted, stays.resolve_left Bool.false_ne_true⟩
    have found := kept stays _ (isContent_metaKey key)
    rw [RdbValue.get_batch_metaKey, RdbValue.metaVal, Option.some_or] at found
    rw [eval_procLlen_raw found] at length
    cases single with
    | false => rfl
    | true =>
        have empty : (0 : Int) = cells.length := by simpa [RdbValue.delivered] using length
        exact absurd (List.length_eq_zero_iff.mp (by omega)) nonempty
  · rintro ⟨rfl, nonneg, admitted, stays⟩
    obtain ⟨metaVal, reopened, after, opened, run, kept, past⟩ :=
      eval_procRestore readable verified carries small nonneg admitted
    replace kept := kept (Or.inr stays)
    have found := kept _ (isContent_metaKey key)
    rw [RdbValue.get_batch_metaKey, metaVal_list, Option.some_or] at found
    refine ⟨after, run, ?_, ?_⟩
    · refine eval_procLrange_covering nonempty short (listSlice_whole cells) found fun i inside => ?_
      rw [kept _ (isContent_listKey key _ _)]
      exact get_batch_listKey reopened.db key (world.db.recreated key) (by omega) inside
    · rw [eval_procLlen_raw found,
        UInt64.toNat_ofNat_of_lt' (show cells.length < 2 ^ 64 by omega)]

section Samples

/-- The dump of the list of `a` as a single string. -/
def listDump : Bytes := [1, 1, 1, 97, 8, 0, 76, 157, 190, 44, 36, 217, 110, 90]

/-- The dump of the list of `a` as one ziplist. -/
def ziplistDump : Bytes :=
  [10, 14, 14, 0, 0, 0, 10, 0, 0, 0, 1, 0, 0, 1, 97, 255, 8, 0, 125, 84, 247, 11, 21, 10, 244, 198]

/-- A runtime that knows the checksum of one dump and its ziplist. -/
def ziplistRuntime : Runtime :=
  { sampleRuntime 0xc6f40a150bf7547d with ziplistEntries := fun _ => [.str [97]] }

theorem procRestore_list_restored :
    RestoresList (sampleRuntime 0x5a6ed9242cbe9d4c) emptyServer.world [107] 0 listDump false
        [[97]] ↔
      false = false ∧ (0 : Int64) ≤ 0 ∧ (MetaLive emptyServer.world.db [107] → false) ∧
        ((0 : Int64) = 0 ∨ emptyServer.world.clock 1 < 0 + emptyServer.world.clock 0) := by
  have verified : verifyDumpPayload (sampleRuntime 0x5a6ed9242cbe9d4c) listDump =
      some [1, 1, 1, 97] := by decide
  refine procRestore_list_iff _ emptyServer.world [107] 0 false false ?_ verified
    (carries_of_loadValue rfl) (by decide) (by decide)
  intro metaVal found
  cases found

/-- A list that comes as one ziplist is restored empty. -/
theorem procRestore_list_lost :
    verifyDumpPayload ziplistRuntime ziplistDump =
        some [10, 14, 14, 0, 0, 0, 10, 0, 0, 0, 1, 0, 0, 1, 97, 255] ∧
      Carries ziplistRuntime [10, 14, 14, 0, 0, 0, 10, 0, 0, 0, 1, 0, 0, 1, 97, 255]
        (.list true [[97]]) ∧
      ∃ after, (procRestore ziplistRuntime [107] 0 ziplistDump false).eval atomically
          emptyServer.world = (.ok .ok, after) ∧
        ((procLrange [107] 0 (-1)).eval atomically after).1 = .strings [] ∧
        ((procLlen [107]).eval atomically after).1 = .int 0 :=
  ⟨by decide, carries_of_loadValue rfl, _, rfl, rfl, rfl⟩

end Samples

end Vcdb
