import Vcdb.Keyspace.DumpWord
import Vcdb.Keyspace.ListCommand
import Vcdb.Keyspace.ZsetRank

/-!
# What DUMP answers

The object that is saved for a live key, and the payload it is sent as.
-/

namespace Vcdb

section Saving

variable {encoder : RdbEncoder}

theorem saveRawString_run (takes : encoder.TakesShort) (string output : Bytes) :
    saveRawString encoder string output = ((string.length : Int), output ++ rawWord string) := by
  rw [saveRawString, saving_bind (rdbSaveLen_run takes _ _), rdbWriteRaw_bind, List.append_assoc]
  rfl

/-- A string that is saved as it is is never taken for a failure. -/
theorem saveRawString_bind (takes : encoder.TakesShort) (string : Bytes) (next : Saving Int)
    (output : Bytes) :
    (saveRawString encoder string >>= fun n => if n = -1 then pure (-1) else next) output =
      next (output ++ rawWord string) := by
  have positive : ¬(string.length : Int) = -1 := by omega
  rw [saving_bind (saveRawString_run takes string output), if_neg positive]

theorem saveField_run (takes : encoder.TakesShort) (entry : Bytes × Bytes) (output : Bytes) :
    saveField encoder entry output = (1, output ++ fieldWord entry) := by
  rw [saveField, saveRawString_bind takes, saveRawString_bind takes, fieldWord, List.append_assoc]
  rfl

theorem saveMember_run (takes : encoder.TakesShort) (member output : Bytes) :
    saveMember encoder member output = (1, output ++ rawWord member) := by
  rw [saveMember, saveRawString_bind takes]
  rfl

theorem saveScored_run (takes : encoder.TakesShort) (item : Bytes × Double) (output : Bytes) :
    saveScored encoder item output = (1, output ++ scoredWord item) := by
  have eight : (be64 item.2).reverse.length = 8 := by
    rw [List.length_reverse, be64, Endian.length_bigEndian]
  have taken : encoder.report 8 ≠ -1 := takes 8 (by decide)
  rw [saveScored, saveRawString_bind takes, rdbSaveBinaryDoubleValue, rdbWriteRaw_bind, eight,
    if_neg taken, scoredWord, List.append_assoc]
  rfl

/-- Items are saved one behind the other. -/
theorem saveItems_run {α : Type} {save : α → Saving Int} {word : α → Bytes}
    (each : ∀ item output, save item output = (1, output ++ word item)) (items : List α)
    (cnt : UInt64) (output : Bytes) :
    saveItems save items cnt output =
      (.ok (cnt + UInt64.ofNat items.length), output ++ items.flatMap word) := by
  induction items generalizing cnt output with
  | nil =>
      have none : cnt + UInt64.ofNat 0 = cnt := UInt64.add_zero cnt
      rw [List.length_nil, none, List.flatMap_nil, List.append_nil]
      rfl
  | cons item items ih =>
      have next : cnt + 1 + UInt64.ofNat items.length =
          cnt + UInt64.ofNat (items.length + 1) := by
        rw [UInt64.ofNat_add, UInt64.add_assoc, UInt64.add_comm 1]
        rfl
      rw [saveItems, saving_bind (each item output), if_neg (by decide), ih, next,
        List.flatMap_cons, List.append_assoc, List.length_cons]

theorem saveCollection_run (takes : encoder.TakesShort) {α : Type} {save : α → Saving Int}
    {word : α → Bytes} (each : ∀ item output, save item output = (1, output ++ word item))
    (items : List α) (output : Bytes) :
    saveCollection encoder (UInt64.ofNat items.length) save items output =
      (1, output ++ countedWord word items) := by
  have counted : (0 : UInt64) + UInt64.ofNat items.length = UInt64.ofNat items.length :=
    UInt64.zero_add _
  rw [saveCollection, rdbSaveLen_bind takes, saving_bind (saveItems_run each items 0 _), counted,
    countedWord, List.append_assoc]
  dsimp only
  rw [if_neg (not_not.mpr rfl)]
  rfl

end Saving

section Objects

variable {rdbCompression : Bool} {lzfCompress : Bytes → Nat → Bytes} {source : World}

/-- The cells of a window are read and saved in order. -/
theorem eval_saveCells {db : DB} {key : Bytes} {version : UInt16} {left : UInt64}
    {cells : List Bytes}
    (stored : ∀ i < cells.length,
      db.get (encodeListKey key (left + UInt64.ofNat i) version) = cells[i]?)
    {n i : Nat} (inside : i + n = cells.length) (output : Bytes) :
    ∃ ret out, (saveCells (dumpEncoder rdbCompression) lzfCompress db key version n
        (left + UInt64.ofNat i) output).eval atomically source = ((ret, out), source) ∧
      (out.length < 2 ^ 31 → ret = 1 ∧
        out = output ++ (cells.drop i).flatMap (dumpWord rdbCompression lzfCompress)) := by
  induction n generalizing i output with
  | zero =>
      have none : cells.drop i = [] := List.drop_eq_nil_of_le (by omega)
      exact ⟨1, output, rfl, fun _ => ⟨rfl, by rw [none, List.flatMap_nil, List.append_nil]⟩⟩
  | succ n ih =>
      have below : i < cells.length := by omega
      have found : db.get (encodeListKey key (left + UInt64.ofNat i) version) = some cells[i] := by
        rw [stored i below, List.getElem?_eq_getElem]
      have next : seqAfter (left + UInt64.ofNat i) = left + UInt64.ofNat (i + 1) := by
        rw [seqAfter_eq, UInt64.ofNat_add, UInt64.add_assoc]
        rfl
      obtain ⟨ret, run, forms⟩ := rdbSaveRawString_dump rdbCompression lzfCompress cells[i]
      simp only [saveCells, Program.eval_bind, snapshotGet_eq, found, ReadStatus.ofOption,
        listItemVal, ne_eq, not_true_eq_false, if_false, run, next]
      by_cases failed : ret = -1
      · rw [if_pos failed]
        refine ⟨-1, _, rfl, fun short => absurd failed (forms ?_).1⟩
        rw [List.length_append] at short
        omega
      · rw [if_neg failed]
        obtain ⟨ret', out, run', whole⟩ := ih (i := i + 1) (by omega)
          (output ++ dumpWord rdbCompression lzfCompress cells[i])
        refine ⟨ret', out, run', fun short => ⟨(whole short).1, ?_⟩⟩
        rw [(whole short).2, List.append_assoc, List.drop_eq_getElem_cons below, List.flatMap_cons]

/-- The elements of a value, in some order. -/
inductive RdbValue.Presents : RdbValue → Value → Prop
  | string (val : Bytes) : Presents (.string val) (.string val)
  | list (cells : List Bytes) : Presents (.list false cells) (.list cells)
  | set {members : List Bytes} {stored : Finset Bytes} (nodup : members.Nodup)
      (same : ∀ member, member ∈ members ↔ member ∈ stored) : Presents (.set members) (.set stored)
  | zset {scores : List (Bytes × Double)} {stored : SortedMap Bytes Double}
      (perm : scores.Perm stored.entries) : Presents (.zset scores) (.zset stored)
  | hash (fields : SortedMap Bytes Bytes) : Presents (.hash fields.entries) (.hash fields)

/-- Scores are numbers. -/
def Value.Numbers : Value → Prop
  | .zset scores => ∀ member score, scores.get member = some score → score.isNan = false
  | _ => True

variable {float : FloatUnit} {key : UserKey} {version : UInt16} {value : Value}

/-- The object of a live key is saved behind its type. -/
theorem eval_rdbSaveObject (keyed : source.db.WellKeyed)
    (live : source.db.contents.LiveAs key version value) (numbers : value.Numbers)
    {metaVal : Bytes} (found : source.db.contents (.metadata key) = some metaVal) :
    ∃ dumped : RdbValue, dumped.Presents value ∧ ∀ type, ∃ ret out,
      (∀ snapshot, (value.type ≠ DataType.kv → snapshot = source.db) →
        (rdbSaveObject (dumpEncoder rdbCompression) lzfCompress float key.1 value.type metaVal
          snapshot [type]).eval atomically source = ((ret, out), source)) ∧
      (out.length < 2 ^ 31 → ret = 1 ∧
        out = type :: (dumped.dumpBody rdbCompression lzfCompress).tail) := by
  have takes := dumpEncoder_takesShort rdbCompression
  cases value with
  | string val =>
      refine ⟨.string val, .string val, fun type => ?_⟩
      obtain rfl : encodeKvVal val version = metaVal := Option.some_inj.mp (live.1.symm.trans found)
      obtain ⟨ret, run, forms⟩ := rdbSaveRawString_dump rdbCompression lzfCompress val
      refine ⟨if ret = -1 then -1 else 1, [type] ++ dumpWord rdbCompression lzfCompress val,
        fun snapshot _ => ?_, fun short => ⟨?_, rfl⟩⟩
      · simp only [rdbSaveObject, Value.type, if_true, KvMetaVal.decodeMetaVal_encode, run]
        rfl
      · rw [List.length_append] at short
        rw [if_neg (forms (by omega)).1]
  | hash fields =>
      refine ⟨.hash fields.entries, .hash fields, fun type => ?_⟩
      obtain ⟨_, _, metadata, items, _⟩ := live
      obtain rfl := Option.some_inj.mp (metadata.symm.trans found)
      have scanned : hiterator source.db key.1 version = fields.entries := by
        rw [hiterator_eq_items]
        congr 1
        ext field : 1
        rw [DB.get_items]
        exact items field
      refine ⟨1, [type] ++ countedWord fieldWord fields.entries, fun snapshot isStore => ?_,
        fun _ => ⟨rfl, rfl⟩⟩
      have notKv : DataType.hsize ≠ DataType.kv := by decide
      obtain rfl := isStore notKv
      have saved := saveCollection_run takes (saveField_run takes) fields.entries [type]
      simp only [rdbSaveObject, Value.type, if_neg notKv, if_true, encodeHashMetaVal,
        decodeMetaVal_encode (Or.inl rfl), scanned]
      exact congrArg (fun result => (result, source)) saved
  | set members =>
      obtain ⟨_, _, metadata, items, _⟩ := live
      obtain rfl := Option.some_inj.mp (metadata.symm.trans found)
      have scanned : siterator source.db key.1 version = members.sort (· ≤ ·) := by
        rw [siterator_eq_items, SortedMap.keys_eq_sort_domain]
        congr 1
        ext member
        rw [SortedMap.mem_domain, DB.get_items]
        have item : source.db.get (encodeKeyInternal DataType.item key.1 member version) =
            if member ∈ members then some [] else none := items member
        rw [item]
        split_ifs with stored <;> simp [stored]
      refine ⟨.set (members.sort (· ≤ ·)),
        .set (members.sort_nodup _) fun member => Finset.mem_sort _, fun type => ?_⟩
      refine ⟨1, [type] ++ countedWord rawWord (members.sort (· ≤ ·)), fun snapshot isStore => ?_,
        fun _ => ⟨rfl, rfl⟩⟩
      have notKv : DataType.ssize ≠ DataType.kv := by decide
      obtain rfl := isStore notKv
      have notHash : ¬DataType.ssize = DataType.hsize := by decide
      have saved := saveCollection_run takes (saveMember_run takes) (members.sort (· ≤ ·)) [type]
      rw [Finset.length_sort] at saved
      simp only [rdbSaveObject, Value.type, if_neg notKv, if_neg notHash, if_true,
        encodeSetMetaVal, decodeMetaVal_encode (Or.inr (Or.inl rfl)), scanned]
      exact congrArg (fun result => (result, source)) saved
  | zset scores =>
      have perm := zitems_perm keyed live
      have number : ∀ item ∈ source.db.zitems key.1 version, item.2.isNan = false :=
        fun item mem => numbers _ _ ((mem_zitems_iff keyed live item).mp mem)
      have scanned := (keyed.indexesItems_scan number float .forward).items_eq
      obtain ⟨_, _, metadata, _⟩ := live
      obtain rfl := Option.some_inj.mp (metadata.symm.trans found)
      refine ⟨.zset (source.db.zitems key.1 version), .zset perm, fun type => ?_⟩
      refine ⟨1, [type] ++ countedWord scoredWord (source.db.zitems key.1 version),
        fun snapshot isStore => ?_, fun _ => ⟨rfl, rfl⟩⟩
      have notKv : DataType.zsize ≠ DataType.kv := by decide
      obtain rfl := isStore notKv
      have notHash : ¬DataType.zsize = DataType.hsize := by decide
      have notSet : ¬DataType.zsize = DataType.ssize := by decide
      have saved := saveCollection_run takes (saveScored_run takes)
        (source.db.zitems key.1 version) [type]
      rw [perm.length_eq] at saved
      simp only [rdbSaveObject, Value.type, if_neg notKv, if_neg notHash, if_neg notSet, if_true,
        encodeZsetMetaVal, decodeMetaVal_encode (Or.inr (Or.inr rfl)), scanned]
      exact congrArg (fun result => (result, source)) saved
  | list cells =>
      refine ⟨.list false cells, .list cells, fun type => ?_⟩
      obtain ⟨positive, small, ⟨left, metadata, items, _⟩, _⟩ := live
      obtain rfl := Option.some_inj.mp (metadata.symm.trans found)
      have describes : ListMetaVal.Describes
          { type := DataType.lsize, version := version, length := UInt64.ofNat cells.length,
            leftSeq := left, rightSeq := left + UInt64.ofNat cells.length - 1 } cells left version :=
        ⟨rfl, rfl, rfl, rfl, rfl⟩
      have first : listPosition cells (0 : Int64).toInt = some 0 := by
        have zero : (0 : Int64).toInt = 0 := rfl
        simp only [listPosition, zero, lt_irrefl, if_false, le_refl, true_and, Int.toNat_zero]
        rw [if_pos (by omega)]
      have start := (getSeqByIndex_of_position describes small first).1
      have stored : ∀ i < cells.length, source.db.get
          (encodeListKey key.1 (left + UInt64.ofNat i) version) = cells[i]? :=
        fun i inside => (items _).trans (Window.cell_at (by omega))
      obtain ⟨ret, out, run, whole⟩ := @eval_saveCells rdbCompression lzfCompress source source.db
        key.1 version left cells stored cells.length 0 (Nat.zero_add _)
        ([type] ++ lenWord (UInt64.ofNat cells.length))
      refine ⟨ret, out, fun snapshot isStore => ?_, fun short => ⟨(whole short).1, ?_⟩⟩
      · have notKv : DataType.lsize ≠ DataType.kv := by decide
        obtain rfl := isStore notKv
        have notHash : ¬DataType.lsize = DataType.hsize := by decide
        have notSet : ¬DataType.lsize = DataType.ssize := by decide
        have notZset : ¬DataType.lsize = DataType.zsize := by decide
        have length : (UInt64.ofNat cells.length).toNat = cells.length :=
          UInt64.toNat_ofNat_of_lt' small
        have taken : ¬((lenWord (UInt64.ofNat cells.length)).length : Int) = -1 := by omega
        simp only [rdbSaveObject, Value.type, if_neg notKv, if_neg notHash, if_neg notSet,
          if_neg notZset, if_true, ListMetaVal.decodeMetaVal_encode, rdbSaveLen_run takes,
          if_neg taken, length, start]
        exact run
      · rw [(whole short).2, List.drop_zero, List.append_assoc]
        rfl

theorem head?_of_decodeMetaHeader {metaVal rest : Bytes} {header : MetaHeader}
    (decoded : decodeMetaHeader metaVal = some (header, rest)) :
    metaVal.head? = some header.type := by
  match metaVal, decoded with
  | type :: high :: low :: del :: tail, decoded =>
      simp only [decodeMetaHeader] at decoded
      split_ifs at decoded
      obtain ⟨rfl, rfl⟩ := by simpa using decoded
      rfl

/-- A live key passes the checks in front of a dump. -/
theorem eval_dumpMeta {metaVal rest : Bytes} {header : MetaHeader}
    (found : source.db.get (encodeMetaKey key.1) = some metaVal)
    (decoded : decodeMetaHeader metaVal = some (header, rest))
    (enabled : header.del = keyEnabledMask) :
    ∃ snapshot, (dumpMeta key.1 false).eval atomically source =
        (.ok (header.type, metaVal, snapshot, none), source) ∧
      (header.type = DataType.hsize ∨ header.type = DataType.ssize ∨ header.type = DataType.zsize ∨
        header.type = DataType.lsize → snapshot = source.db) := by
  have read : (dbGet (encodeMetaKey key.1)).eval atomically source = (.ok metaVal, source) :=
    Prod.ext (congrArg ReadStatus.ofOption found) rfl
  have flag : metaVal[posDel]? = some keyEnabledMask :=
    enabled ▸ (decodeMetaHeader_eq_some decoded).2
  have head : metaVal.headD 0 = header.type := by
    rw [List.headD_eq_head?_getD, head?_of_decodeMetaHeader decoded]
    rfl
  rw [dumpMeta, eval_recordKeyLock, Program.eval_bind, read]
  simp only [if_neg (not_lt.mpr (recreatable_set decoded).1), flag, ne_eq, not_true_eq_false,
    if_false, head]
  by_cases collection : header.type = DataType.hsize ∨ header.type = DataType.ssize ∨
      header.type = DataType.zsize ∨ header.type = DataType.lsize
  · refine ⟨source.db, ?_, fun _ => rfl⟩
    rw [if_pos collection]
    rfl
  · refine ⟨∅, ?_, fun isCollection => absurd isCollection collection⟩
    rw [if_neg collection]
    rfl

/-- The version and the checksum behind an object. -/
def dumpFooter (crc64 : Bytes → UInt64) (body : Bytes) : Bytes :=
  [8, 0] ++ (be64 (crc64 (body ++ [8, 0]))).reverse

theorem encodeFooter_run (crc64 : Bytes → UInt64) (body : Bytes) :
    encodeFooter (dumpEncoder rdbCompression) crc64 body =
      (0, body ++ dumpFooter crc64 body) := by
  have takes := dumpEncoder_takesShort rdbCompression
  have eight : (be64 (crc64 (body ++ [8, 0]))).reverse.length = 8 := by
    rw [List.length_reverse, be64, Endian.length_bigEndian]
  have two : (dumpEncoder rdbCompression).report 2 ≠ -1 := takes 2 (by decide)
  have taken : (dumpEncoder rdbCompression).report 8 ≠ -1 := takes 8 (by decide)
  have version : [UInt8.ofNat rdbVersion, UInt8.ofNat (rdbVersion / 256)] = [8, 0] := rfl
  have written : (get : Saving Bytes) (body ++ [8, 0]) = (body ++ [8, 0], body ++ [8, 0]) := rfl
  rw [encodeFooter, rdbWriteRaw_bind, version, List.length_cons, List.length_singleton, if_neg two,
    saving_bind written, rdbWriteRaw_bind, eight, if_neg taken, dumpFooter, List.append_assoc]
  rfl

/-- What the encoder of DUMP has written in the end, with some checksum, even when it fails. -/
def dumpOutput (lzfCompress : Bytes → Nat → Bytes) (float : FloatUnit) (key : Bytes)
    (compress : Bool) (source : World) : Bytes :=
  match source.db.get (encodeMetaKey key) with
  | none => []
  | some metaVal =>
      ((saveDump (dumpEncoder compress) lzfCompress (fun _ => 0) float key (metaVal.headD 0) metaVal
        source.db).eval atomically source).1.2

theorem rdbSaveObjectType_run {dumped : RdbValue} (presents : dumped.Presents value) :
    ∃ type, rdbSaveObjectType (dumpEncoder rdbCompression) value.type [] = (1, [type]) ∧
      dumped.dumpBody rdbCompression lzfCompress =
        type :: (dumped.dumpBody rdbCompression lzfCompress).tail := by
  cases presents <;> exact ⟨_, rfl, rfl⟩

/-- A live key is dumped as its object and a footer, when this is shorter than 2 GB. -/
theorem eval_dump (keyed : source.db.WellKeyed)
    (live : source.db.contents.LiveAs key version value) (numbers : value.Numbers) :
    ∃ dumped : RdbValue, dumped.Presents value ∧
      ((dumpOutput lzfCompress float key.1 rdbCompression source).length < 2 ^ 31 →
        (dumped.dumpBody rdbCompression lzfCompress).length < 2 ^ 31 ∧
        ∀ crc64, (dump lzfCompress crc64 float key.1 false rdbCompression).eval atomically source =
          ((1, dumped.dumpBody rdbCompression lzfCompress ++
            dumpFooter crc64 (dumped.dumpBody rdbCompression lzfCompress), none), source)) := by
  obtain ⟨metaVal, rest, found, decoded⟩ := live.header
  obtain ⟨dumped, presents, saved⟩ := @eval_rdbSaveObject rdbCompression lzfCompress source float
    key version value keyed live numbers metaVal found
  refine ⟨dumped, presents, fun small => ?_⟩
  obtain ⟨type, typed, body⟩ := @rdbSaveObjectType_run rdbCompression lzfCompress value dumped
    presents
  have head : metaVal.headD 0 = value.type := by
    rw [List.headD_eq_head?_getD, head?_of_decodeMetaHeader decoded]
    rfl
  have stored : source.db.get (encodeMetaKey key.1) = some metaVal := found
  obtain ⟨ret, out, object, whole⟩ := saved type
  have run : ∀ crc64 snapshot, (value.type ≠ DataType.kv → snapshot = source.db) →
      (saveDump (dumpEncoder rdbCompression) lzfCompress crc64 float key.1 value.type metaVal
          snapshot).eval atomically source =
        (if ret < 0 then (-1, out) else (1, out ++ dumpFooter crc64 out), source) := by
    intro crc64 snapshot isStore
    simp only [saveDump, typed, if_neg (by decide : ¬(1 : Int) < 0), Program.eval_bind,
      object snapshot isStore, encodeFooter_run, if_neg (by decide : ¬(0 : Int) = -1)]
    split_ifs <;> rfl
  obtain ⟨snapshot, checked, isStore⟩ := eval_dumpMeta stored decoded rfl
  replace isStore : value.type ≠ DataType.kv → snapshot = source.db := by
    intro notKv
    refine isStore ?_
    cases value with
    | string val => exact absurd rfl notKv
    | hash fields => exact Or.inl rfl
    | set members => exact Or.inr (Or.inl rfl)
    | zset scores => exact Or.inr (Or.inr (Or.inl rfl))
    | list cells => exact Or.inr (Or.inr (Or.inr rfl))
  have short : out.length < 2 ^ 31 := by
    rw [dumpOutput, stored] at small
    simp only [head, run (fun _ => 0) source.db fun _ => rfl] at small
    split_ifs at small
    · exact small
    · rw [List.length_append] at small
      omega
  obtain ⟨rfl, written⟩ := whole short
  rw [← body] at written
  refine ⟨written ▸ short, fun crc64 => ?_⟩
  have finished := run crc64 snapshot isStore
  rw [if_neg (by decide), written] at finished
  simp only [dump, Program.eval_bind, checked, finished, if_neg (by decide : ¬(1 : Int) < 0)]
  rfl

end Objects

end Vcdb
