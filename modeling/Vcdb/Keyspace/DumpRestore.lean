import Vcdb.Keyspace.Dump
import Vcdb.Keyspace.RestoreInvariant

/-!
# RESTORE undoes DUMP

The payload of a live key is restored under another key, on this server or on a second one.  What
is left over from an earlier deletion under the version the other key gets is not cleared away.
-/

namespace Vcdb

/-- What clients read under a key, whatever else its version may have. -/
def Contents.ShowsAt (contents : Contents) (key : UserKey) (version : UInt16) : Value → Prop
  | .string val => contents (.metadata key) = some (encodeKvVal val version)
  | .hash fields =>
      contents (.metadata key) = some (encodeHashMetaVal (UInt64.ofNat fields.size) version) ∧
      ∀ field, contents (.item key version field) = fields.get field
  | .set members =>
      contents (.metadata key) = some (encodeSetMetaVal (UInt64.ofNat members.card) version) ∧
      ∀ member, contents (.item key version member) = if member ∈ members then some [] else none
  | .zset scores =>
      contents (.metadata key) = some (encodeZsetMetaVal (UInt64.ofNat scores.size) version) ∧
      (∀ member, contents (.item key version member) =
        (scores.get member).map fun score => hostOrder64 score) ∧
      ∀ score member, contents (.zscore key version score member) =
        if scores.get member = some score then some [] else none
  | .list cells =>
      ∃ left, contents (.metadata key) =
          some (encodeListMetaVal (UInt64.ofNat cells.length) left
            (left + UInt64.ofNat cells.length - 1) version) ∧
        ∀ i < cells.length, contents (.item key version (be64 (left + UInt64.ofNat i))) = cells[i]?

def Contents.Shows (contents : Contents) (key : UserKey) (value : Value) : Prop :=
  ∃ version, contents.ShowsAt key version value

namespace Value

/-- Number of elements. -/
def count : Value → Nat
  | string _ => 0
  | hash fields => fields.size
  | set members => members.card
  | zset scores => scores.size
  | list cells => cells.length

/-- The strings that DUMP may save in another form than their own. -/
def encodedStrings : Value → List Bytes
  | string val => [val]
  | list cells => cells
  | _ => []

def mapStrings (read : Bytes → Bytes) : Value → Value
  | string val => string (read val)
  | list cells => list (cells.map read)
  | value => value

/-- Whatever is left over under a version is replaced when the value is written there, or is never
read. -/
def Covers (contents : Contents) (key : UserKey) (version : UInt16) : Value → Prop
  | string _ | list _ => True
  | hash fields =>
      ∀ field, (contents (.item key version field)).isSome → (fields.get field).isSome
  | set members => ∀ member, (contents (.item key version member)).isSome → member ∈ members
  | zset scores =>
      (∀ member, (contents (.item key version member)).isSome → (scores.get member).isSome) ∧
      ∀ score member, (contents (.zscore key version score member)).isSome →
        scores.get member = some score

end Value

section Showing

variable {contents : Contents} {key : UserKey} {version : UInt16} {value : Value}

/-- A live key shows its value. -/
theorem Contents.LiveAs.showsAt (live : contents.LiveAs key version value) :
    contents.ShowsAt key version value := by
  cases value with
  | string val => exact live.1
  | hash fields => exact ⟨live.2.2.1, live.2.2.2.1⟩
  | set members => exact ⟨live.2.2.1, live.2.2.2.1⟩
  | zset scores => exact live.2.2
  | list cells =>
      obtain ⟨_, small, ⟨left, metadata, items, _⟩, _⟩ := live
      exact ⟨left, metadata, fun i inside => (items _).trans (Window.cell_at (by omega))⟩

theorem Contents.ShowsAt.header (shows : contents.ShowsAt key version value) :
    ∃ metaVal rest, contents (.metadata key) = some metaVal ∧
      decodeMetaHeader metaVal = some (⟨value.type, version, keyEnabledMask⟩, rest) := by
  cases value with
  | string val => exact ⟨_, _, shows, decodeMetaHeader_kvVal _ _⟩
  | hash fields => exact ⟨_, _, shows.1, decodeMetaHeader_metaVal _ _ _ _ (Or.inr rfl)⟩
  | set members => exact ⟨_, _, shows.1, decodeMetaHeader_metaVal _ _ _ _ (Or.inr rfl)⟩
  | zset scores => exact ⟨_, _, shows.1, decodeMetaHeader_metaVal _ _ _ _ (Or.inr rfl)⟩
  | list cells =>
      obtain ⟨_, metadata, _⟩ := shows
      exact ⟨_, _, metadata, decodeMetaHeader_listMetaVal _ _ _ _ _ (Or.inr rfl)⟩

/-- Metadata names one version. -/
theorem Contents.ShowsAt.version_eq {other : UInt16} {value' : Value}
    (shows : contents.ShowsAt key version value) (shows' : contents.ShowsAt key other value') :
    version = other := by
  obtain ⟨metaVal, rest, found, decoded⟩ := shows.header
  obtain ⟨metaVal', rest', found', decoded'⟩ := shows'.header
  obtain rfl := Option.some_inj.mp (found.symm.trans found')
  exact (MetaHeader.mk.inj (Prod.mk.inj (Option.some_inj.mp (decoded.symm.trans decoded'))).1).2.1

end Showing

section Restored

variable {dumped : RdbValue} {value : Value}

namespace RdbValue.Presents

variable (presents : dumped.Presents value)

include presents

theorem encodedStrings_eq : dumped.encodedStrings = value.encodedStrings := by
  cases presents <;> rfl

theorem count_eq : dumped.count = value.count := by
  cases presents with
  | string val => rfl
  | list cells => rfl
  | @set members stored nodup same =>
      have whole : members.toFinset = stored := by
        ext member
        rw [List.mem_toFinset, same]
      exact (List.toFinset_card_of_nodup nodup).symm.trans (congrArg Finset.card whole)
  | zset perm => exact perm.length_eq
  | hash fields => rfl

theorem several (cells : List Bytes) : dumped ≠ .list true cells := by
  rintro rfl
  cases presents

theorem mapStrings (read : Bytes → Bytes) :
    (dumped.mapStrings read).Presents (value.mapStrings read) := by
  cases presents with
  | string val => exact .string (read val)
  | list cells => exact .list (cells.map read)
  | set nodup same => exact .set nodup same
  | zset perm => exact .zset perm
  | hash fields => exact .hash fields

end RdbValue.Presents

/-- What is bound under a name hides what was there. -/
theorem get_putAll_of_mem {map : SortedMap Bytes Bytes} {bindings : List (Bytes × Bytes)}
    {key : Bytes} {found : Option Bytes} (bound : ∀ val, (key, val) ∈ bindings ↔ found = some val) :
    (map.putAll bindings).get key = found.or (map.get key) := by
  rcases map.get_putAll_cases bindings key with ⟨val, mem, stored⟩ | ⟨absent, stored⟩
  · rw [stored, (bound val).mp mem, Option.some_or]
  · have none : found = none := by
      by_contra some
      obtain ⟨val, isVal⟩ := Option.ne_none_iff_exists'.mp some
      exact absent _ ((bound val).mpr isVal) rfl
    rw [stored, none, Option.none_or]

/-- What a map does not cover stays visible. -/
theorem or_eq_left_iff {found old : Option Bytes} :
    found.or old = found ↔ (old.isSome → found.isSome) := by
  cases found <;> cases old <;> simp

theorem DB.contents_item (db : DB) (key : UserKey) (version : UInt16) (field : Bytes) :
    db.contents (.item key version field) = (db.items key.1 version).get field :=
  (DB.get_items db key.1 field version).symm

theorem DB.contents_zscore (db : DB) (key : UserKey) (version : UInt16) (score : Double)
    (member : Bytes) :
    db.contents (.zscore key version score member) =
      (db.scoreIndex key.1 version).get (scoreEntry member score) := by
  rw [DB.scoreIndex, SortedMap.get_under, ← encodeZscoreKey_eq_append]
  rfl

variable {target reopened after : World} {name : UserKey} {metaVal : Bytes}

/-- A value that has been written shows when it covers what was left over. -/
theorem showsAt_iff_covers (opened : Reopened target reopened name.1 metaVal)
    (presents : dumped.Presents value) (filled : value.type ≠ DataType.kv → 0 < value.count)
    (small : value.count < 2 ^ 31)
    (same : ∀ raw, IsContent raw → after.db.get raw =
      ((dumped.batch name.1 (target.db.recreated name.1)).apply reopened.db).get raw) :
    after.db.contents.ShowsAt name (target.db.recreated name.1) value ↔
      value.Covers target.db.contents name (target.db.recreated name.1) := by
  obtain ⟨items, index⟩ := items_after opened dumped _ same
  have count := presents.count_eq
  have found := same _ (isContent_metaKey name.1)
  rw [RdbValue.get_batch_metaKey] at found
  cases presents with
  | string val => exact iff_of_true found trivial
  | hash fields =>
      have container : DataType.hsize ≠ DataType.kv := by decide
      have positive : ¬fields.entries.length = 0 := (filled container).ne'
      rw [RdbValue.metaVal, if_neg positive, Option.some_or] at found
      have stored : ∀ field, ((target.db.items name.1 (target.db.recreated name.1)).putAll
          fields.entries).get field = _ :=
        fun field => get_putAll_of_mem fun _ => SortedMap.mem_entries
      simp only [Contents.ShowsAt, Value.Covers, DB.contents_item, items, RdbValue.bindings, stored,
        or_eq_left_iff]
      exact and_iff_right found
  | @set members stored nodup isMember =>
      have container : DataType.ssize ≠ DataType.kv := by decide
      have length : members.length = stored.card := count
      have positive : ¬members.length = 0 := length ▸ (filled container).ne'
      rw [RdbValue.metaVal, if_neg positive, Option.some_or, length] at found
      have item : ∀ member, ((target.db.items name.1 (target.db.recreated name.1)).putAll
          (members.map fun member => (member, []))).get member =
            (if member ∈ stored then some [] else none).or
              ((target.db.items name.1 (target.db.recreated name.1)).get member) := by
        refine fun member => get_putAll_of_mem fun val => ?_
        rw [List.mem_map]
        constructor
        · rintro ⟨other, mem, made⟩
          obtain ⟨rfl, rfl⟩ := Prod.mk.inj made
          exact if_pos ((isMember other).mp mem)
        · intro present
          split_ifs at present with mem
          exact ⟨member, (isMember member).mpr mem, by rw [Option.some_inj.mp present]⟩
      simp only [Contents.ShowsAt, Value.Covers, DB.contents_item, items, RdbValue.bindings, item,
        or_eq_left_iff, Option.isSome_ite]
      exact and_iff_right found
  | @zset scores stored perm =>
      have container : DataType.zsize ≠ DataType.kv := by decide
      have length : scores.length = stored.size := count
      have positive : ¬scores.length = 0 := length ▸ (filled container).ne'
      rw [RdbValue.metaVal, if_neg positive, Option.some_or, length] at found
      have listed : ∀ member score, (member, score) ∈ scores ↔ stored.get member = some score :=
        fun member score => perm.mem_iff.trans SortedMap.mem_entries
      have item : ∀ member, ((target.db.items name.1 (target.db.recreated name.1)).putAll
          (RdbValue.zset scores).bindings).get member =
            ((stored.get member).map fun score => hostOrder64 score).or
              ((target.db.items name.1 (target.db.recreated name.1)).get member) := by
        refine fun member => get_putAll_of_mem fun val => ?_
        rw [RdbValue.bindings, List.mem_map, Option.map_eq_some_iff]
        constructor
        · rintro ⟨⟨other, score⟩, mem, made⟩
          obtain ⟨rfl, rfl⟩ := Prod.mk.inj made
          exact ⟨score, (listed _ _).mp mem, rfl⟩
        · rintro ⟨score, present, rfl⟩
          exact ⟨(member, score), (listed _ _).mpr present, rfl⟩
      have entry : ∀ score member, ((target.db.scoreIndex name.1
          (target.db.recreated name.1)).putAll (RdbValue.zset scores).entries).get
            (scoreEntry member score) = (if stored.get member = some score then some [] else none).or
          ((target.db.scoreIndex name.1 (target.db.recreated name.1)).get
            (scoreEntry member score)) := by
        refine fun score member => get_putAll_of_mem fun val => ?_
        rw [RdbValue.entries, List.mem_map]
        constructor
        · rintro ⟨⟨other, score'⟩, mem, made⟩
          obtain ⟨named, rfl⟩ := Prod.mk.inj made
          obtain ⟨rfl, rfl⟩ := scoreEntry_injective named
          exact if_pos ((listed _ _).mp mem)
        · intro present
          split_ifs at present with stored
          exact ⟨(member, score), (listed _ _).mpr stored, by rw [Option.some_inj.mp present]⟩
      simp only [Contents.ShowsAt, Value.Covers, DB.contents_item, DB.contents_zscore, items, index,
        item, entry, or_eq_left_iff, Option.isSome_ite, Option.isSome_map]
      exact and_iff_right found
  | list cells =>
      rw [metaVal_list, Option.some_or] at found
      refine iff_of_true ⟨0, found, fun i inside => ?_⟩ trivial
      exact (same _ (isContent_listKey name.1 _ _)).trans
        (get_batch_listKey reopened.db name.1 _ (small.trans (by decide)) inside)

/-- What has been written is read at the version the key was recreated with. -/
theorem version_of_showsAt (presents : dumped.Presents value)
    (filled : value.type ≠ DataType.kv → 0 < value.count)
    (same : ∀ raw, IsContent raw → after.db.get raw =
      ((dumped.batch name.1 (target.db.recreated name.1)).apply reopened.db).get raw)
    {version : UInt16} {shown : Value} (shows : after.db.contents.ShowsAt name version shown) :
    version = target.db.recreated name.1 := by
  obtain ⟨metaVal, rest, found, decoded⟩ := shows.header
  have stored : after.db.get (encodeMetaKey name.1) = some metaVal := found
  rw [same _ (isContent_metaKey name.1), RdbValue.get_batch_metaKey] at stored
  cases metadata : dumped.metaVal (target.db.recreated name.1) with
  | some written =>
      obtain ⟨rest', decoded'⟩ := RdbValue.metaVal_header metadata
      rw [metadata, Option.some_or] at stored
      obtain rfl := Option.some_inj.mp stored
      have headers := (Prod.mk.inj (Option.some_inj.mp (decoded.symm.trans decoded'))).1
      exact (MetaHeader.mk.inj headers).2.1
  | none =>
      have count := presents.count_eq
      have empty : value.type ≠ DataType.kv ∧ dumped.count = 0 := by
        cases presents with
        | string val => cases metadata
        | list cells => cases metadata
        | set nodup same =>
            rw [RdbValue.metaVal] at metadata
            split_ifs at metadata with zero
            exact ⟨by simp only [Value.type]; decide, zero⟩
        | zset perm =>
            rw [RdbValue.metaVal] at metadata
            split_ifs at metadata with zero
            exact ⟨by simp only [Value.type]; decide, zero⟩
        | hash fields =>
            rw [RdbValue.metaVal] at metadata
            split_ifs at metadata with zero
            exact ⟨by simp only [Value.type]; decide, zero⟩
      have positive := filled empty.1
      omega

/-- A key without metadata, or with metadata that says that it is deleted. -/
def Contents.Absent (contents : Contents) (key : UserKey) : Prop :=
  contents (.metadata key) = none ∨ ∃ version, contents.Deleted key version

theorem verifyDumpPayload_dumped (runtime : Runtime) (body : Bytes) :
    verifyDumpPayload runtime (body ++ dumpFooter runtime.crc64 body) = some body := by
  have eight : (be64 (runtime.crc64 (body ++ [8, 0]))).reverse.length = 8 := by
    rw [List.length_reverse, be64, Endian.length_bigEndian]
  have footer : (dumpFooter runtime.crc64 body).length = 10 := by
    rw [dumpFooter, List.length_append, eight]
    rfl
  have total : (body ++ dumpFooter runtime.crc64 body).length = body.length + 10 := by
    rw [List.length_append, footer]
  have checked : (body ++ dumpFooter runtime.crc64 body).take (body.length + 2) =
      body ++ [8, 0] := by
    rw [List.take_append, List.take_of_length_le (by omega), Nat.add_sub_cancel_left]
    rfl
  have version : Endian.ofBigEndian ((dumpFooter runtime.crc64 body).take 2).reverse = 8 := by
    rw [dumpFooter]
    rfl
  have sum : (dumpFooter runtime.crc64 body).drop 2 =
      (be64 (runtime.crc64 (body ++ [8, 0]))).reverse := rfl
  have short : body.length + 10 - 8 = body.length + 2 := by omega
  simp only [verifyDumpPayload, total, Nat.add_sub_cancel, List.take_left, List.drop_left, version,
    sum, short, checked, if_true]
  rw [if_neg (by omega), if_neg (by decide)]

/-- A payload of DUMP is restored with the strings as they are read. -/
theorem eval_procRestore_dumped {runtime : Runtime} {rdbCompression : Bool}
    {lzfCompress : Bytes → Nat → Bytes} (absent : target.db.contents.Absent name)
    (presents : dumped.Presents value) (filled : value.type ≠ DataType.kv → 0 < value.count)
    (few : value.count < 2 ^ 31)
    (short : (dumped.dumpBody rdbCompression lzfCompress).length < 2 ^ 31) {read : Bytes → Bytes}
    (reads : ∀ string ∈ value.encodedStrings,
      (stringGrammar runtime).word (dumpWord rdbCompression lzfCompress string) (read string))
    {ttl : Int64} (nonneg : 0 ≤ ttl) (stays : ttl = 0 ∨ target.clock 1 < ttl + target.clock 0)
    (replace : Bool) :
    ∃ after, (procRestore runtime name.1 ttl (dumped.dumpBody rdbCompression lzfCompress ++
        dumpFooter runtime.crc64 (dumped.dumpBody rdbCompression lzfCompress)) replace).eval
          atomically target = (.ok .ok, after) ∧
      (after.db.contents.Shows name (value.mapStrings read) ↔
        (value.mapStrings read).Covers target.db.contents name (target.db.recreated name.1)) ∧
      ∀ shown, after.db.contents.Shows name shown →
        after.db.contents.ShowsAt name (target.db.recreated name.1) shown := by
  have readable : ∀ metaVal, target.db.get (encodeMetaKey name.1) = some metaVal →
      (decodeMetaHeader metaVal).isSome := by
    intro metaVal found
    rcases absent with none | ⟨_, metaVal', header, rest, found', decoded, _⟩
    · cases none.symm.trans found
    · obtain rfl := Option.some_inj.mp (found'.symm.trans found)
      rw [decoded]
      rfl
  have idle : ¬MetaLive target.db name.1 := by
    rintro ⟨metaVal, found, enabled⟩
    rcases absent with none | ⟨_, metaVal', header, rest, found', decoded, _, deleted⟩
    · cases none.symm.trans found
    · obtain rfl := Option.some_inj.mp (found'.symm.trans found)
      rw [(decodeMetaHeader_eq_some decoded).2, deleted] at enabled
      exact enabled_ne_delete (Option.some_inj.mp enabled).symm
  have read' := presents.mapStrings read
  have sameType : (value.mapStrings read).type = value.type := by
    cases value <;> rfl
  have sameCount : (value.mapStrings read).count = value.count := by
    cases value with
    | list cells => exact List.length_map read
    | _ => rfl
  have count := read'.count_eq
  rw [← presents.encodedStrings_eq] at reads
  have carries := carries_dumpBody presents.several (presents.count_eq ▸ few) short reads
  have admitted : MetaLive target.db name.1 → replace = true := fun live => absurd live idle
  obtain ⟨metaVal, reopened, after, opened, run, kept, _⟩ :=
    eval_procRestore readable (verifyDumpPayload_dumped runtime _) carries (by omega) nonneg admitted
  have same := kept (Or.inr stays)
  have filled' : (value.mapStrings read).type ≠ DataType.kv →
      0 < (value.mapStrings read).count := by rwa [sameType, sameCount]
  have covers := showsAt_iff_covers opened read' filled' (by omega) same
  have version : ∀ shown, after.db.contents.Shows name shown →
      after.db.contents.ShowsAt name (target.db.recreated name.1) shown := by
    rintro shown ⟨version, shows⟩
    exact version_of_showsAt read' filled' same shows ▸ shows
  exact ⟨after, run, ⟨fun shows => covers.mp (version _ shows),
    fun isCovered => ⟨_, covers.mpr isCovered⟩⟩, version⟩

end Restored

section Migration

/-- A live key with few elements whose payload is short, and a key that can be restored. -/
structure Migrates (lzfCompress : Bytes → Nat → Bytes) (float : FloatUnit) (source target : World)
    (key name : UserKey) (version : UInt16) (compress : Bool) (ttl : Int64) (value : Value) :
    Prop where
  keyed : source.db.WellKeyed
  live : source.db.contents.LiveAs key version value
  numbers : value.Numbers
  sized : ∀ string ∈ value.encodedStrings, string.length < 2 ^ 63
  few : value.count < 2 ^ 31
  short : (dumpOutput lzfCompress float key.1 compress source).length < 2 ^ 31
  absent : target.db.contents.Absent name
  nonneg : 0 ≤ ttl
  stays : ttl = 0 ∨ target.clock 1 < ttl + target.clock 0

variable {lzfCompress : Bytes → Nat → Bytes} {float : FloatUnit} {source target : World}
  {key name : UserKey} {version : UInt16} {compress : Bool} {ttl : Int64} {value : Value}

theorem Contents.LiveAs.filled {contents : Contents}
    (live : contents.LiveAs key version value) (container : value.type ≠ DataType.kv) :
    0 < value.count := by
  cases value with
  | string val => exact absurd rfl container
  | hash fields => exact live.1
  | set members => exact live.1
  | zset scores => exact live.1
  | list cells => exact live.1

/-- What DUMP and RESTORE do together, when the strings are read back in some way. -/
theorem Migrates.run
    (migrates : Migrates lzfCompress float source target key name version compress ttl value)
    (replace : Bool) :
    ∃ payload : (Bytes → UInt64) → Bytes, (∀ crc64,
        (dump lzfCompress crc64 float key.1 false compress).eval atomically source =
          ((1, payload crc64, none), source)) ∧
      (∀ string ∈ value.encodedStrings, (dumpWord compress lzfCompress string).length < 2 ^ 31) ∧
      ∀ (runtime : Runtime) (read : Bytes → Bytes), (∀ string ∈ value.encodedStrings,
          (stringGrammar runtime).word (dumpWord compress lzfCompress string) (read string)) →
        ∃ after, (procRestore runtime name.1 ttl (payload runtime.crc64) replace).eval atomically
            target = (.ok .ok, after) ∧
          (after.db.contents.Shows name (value.mapStrings read) ↔
            (value.mapStrings read).Covers target.db.contents name (target.db.recreated name.1)) ∧
          ∀ shown, after.db.contents.Shows name shown →
            after.db.contents.ShowsAt name (target.db.recreated name.1) shown := by
  obtain ⟨dumped, presents, whole⟩ := @eval_dump compress lzfCompress source float key version value
    migrates.keyed migrates.live migrates.numbers
  obtain ⟨short, dumps⟩ := whole migrates.short
  refine ⟨_, dumps, ?_, fun runtime read reads => eval_procRestore_dumped migrates.absent presents
    migrates.live.filled migrates.few short reads migrates.nonneg migrates.stays replace⟩
  intro string mem
  cases presents with
  | string val =>
      obtain rfl := List.mem_singleton.mp mem
      exact (Nat.lt_succ_self _).trans short
  | list cells =>
      have part := length_le_flatMap (show string ∈ cells from mem) (dumpWord compress lzfCompress)
      rw [RdbValue.dumpBody, List.length_cons, countedWord, List.length_append] at short
      omega
  | set nodup same => cases mem
  | zset perm => cases mem
  | hash fields => cases mem

end Migration

section Samples

end Samples

end Vcdb
