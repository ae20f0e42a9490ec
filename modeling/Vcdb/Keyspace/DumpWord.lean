import Vcdb.Codec.RdbRoundTrip
import Vcdb.Keyspace.RestoreWrite

/-!
# What DUMP saves

The bytes of every kind of value, and what a loader makes of them.  A string that was compressed
together with more than 32 bits of length comes back as its front and whatever memory holds.
-/

namespace Vcdb

section Strings

variable {lzfCompress : Bytes → Nat → Bytes} {rdbCompression : Bool} {string : Bytes}

/-- What DUMP makes of a string in any encoding. -/
def dumpWord (rdbCompression : Bool) (lzfCompress : Bytes → Nat → Bytes) (string : Bytes) : Bytes :=
  (rdbSaveRawString (dumpEncoder rdbCompression) lzfCompress string []).2

theorem dumpEncoder_report_small {n : Nat} (small : n < 2 ^ 31) :
    (dumpEncoder rdbCompression).report n = n := by
  have low : n % 2 ^ 32 = n := Nat.mod_eq_of_lt (small.trans (by norm_num))
  rw [dumpEncoder_report, low, if_pos small]

theorem blobReport_pos {data : Bytes} (small : data.length < 2 ^ 31) (len : UInt64) :
    0 < blobReport (dumpEncoder rdbCompression) data len := by
  have one : (dumpEncoder rdbCompression).report 1 = 1 := rfl
  rw [blobReport, dumpEncoder_report_small small, one, if_neg (by omega)]
  omega

/-- A string is saved behind what has been saved before, and its three forms. -/
theorem rdbSaveRawString_dump (rdbCompression : Bool) (lzfCompress : Bytes → Nat → Bytes)
    (string : Bytes) :
    ∃ ret, (∀ output, rdbSaveRawString (dumpEncoder rdbCompression) lzfCompress string output =
        (ret, output ++ dumpWord rdbCompression lzfCompress string)) ∧
      ((dumpWord rdbCompression lzfCompress string).length < 2 ^ 31 → ret ≠ -1 ∧
        if lzfForm rdbCompression lzfCompress string = [] then
          rdbTryIntegerEncoding string ≠ [] ∧
              dumpWord rdbCompression lzfCompress string = rdbTryIntegerEncoding string ∨
            dumpWord rdbCompression lzfCompress string = rawWord string
        else
          (lzfForm rdbCompression lzfCompress string).length < 2 ^ 31 ∧
            dumpWord rdbCompression lzfCompress string =
              lzfBlob (lzfForm rdbCompression lzfCompress string)
                (UInt64.ofNat string.length)) := by
  have takes := dumpEncoder_takesShort rdbCompression
  -- Once the bytes that are appended are known, they are those of the word.
  have known : ∀ {ret : Int} {word : Bytes},
      (∀ output, rdbSaveRawString (dumpEncoder rdbCompression) lzfCompress string output =
        (ret, output ++ word)) → dumpWord rdbCompression lzfCompress string = word := by
    intro ret word run
    rw [dumpWord, run]
    rfl
  by_cases nothing : lzfForm rdbCompression lzfCompress string = []
  · by_cases isInteger : string.length ≤ 11 ∧ rdbTryIntegerEncoding string ≠ []
    · have run := @rdbSaveRawString_integer _ lzfCompress takes _ isInteger.1 isInteger.2
      refine ⟨_, fun output => (run output).trans (by rw [known run]), fun _ => ⟨by omega, ?_⟩⟩
      rw [if_pos nothing]
      exact Or.inl ⟨isInteger.2, known run⟩
    · have run : ∀ output, rdbSaveRawString (dumpEncoder rdbCompression) lzfCompress string output =
          (verbatimReport (dumpEncoder rdbCompression) string, output ++ rawWord string) := by
        intro output
        rw [rdbSaveRawString_verbatim nothing isInteger, saveVerbatim_run takes]
      have word := known run
      refine ⟨_, fun output => (run output).trans (by rw [word]), fun short => ⟨?_, ?_⟩⟩
      · rw [word, rawWord, List.length_append] at short
        rw [verbatimReport, dumpEncoder_report_small (by omega), if_neg (by omega)]
        omega
      · rw [if_pos nothing]
        exact Or.inr word
  · obtain ⟨ret, extra, run, whole⟩ := @rdbSaveRawString_extra _ lzfCompress string takes _ rfl
      nothing
    have word := known run
    refine ⟨ret, fun output => (run output).trans (by rw [word]), fun short => ?_⟩
    have form : (dumpEncoder rdbCompression).rdbCompression = rdbCompression := rfl
    rw [form] at whole word
    have data : (lzfForm rdbCompression lzfCompress string).length < 2 ^ 31 := by
      rw [word, List.length_append, lzfBlob, List.length_cons, List.length_append,
        List.length_append] at short
      omega
    obtain ⟨succeeds, rfl⟩ := whole.mpr (blobReport_pos data _)
    rw [if_neg nothing, word, List.append_nil]
    exact ⟨succeeds, data, rfl⟩

variable (inverts : LzfInverts lzfCompress) (sized : string.length < 2 ^ 63)
  (short : (dumpWord rdbCompression lzfCompress string).length < 2 ^ 31)

include inverts sized short

end Strings

section Objects

def fieldWord (entry : Bytes × Bytes) : Bytes := rawWord entry.1 ++ rawWord entry.2

def scoredWord (item : Bytes × Double) : Bytes := rawWord item.1 ++ (be64 item.2).reverse

/-- A count and so many words. -/
def countedWord {α : Type} (word : α → Bytes) (items : List α) : Bytes :=
  lenWord (UInt64.ofNat items.length) ++ items.flatMap word

namespace RdbValue

/-- What DUMP saves of a value, without the footer. -/
def dumpBody (rdbCompression : Bool) (lzfCompress : Bytes → Nat → Bytes) : RdbValue → Bytes
  | string val => 0 :: dumpWord rdbCompression lzfCompress val
  | list _ cells => 1 :: countedWord (dumpWord rdbCompression lzfCompress) cells
  | set members => 2 :: countedWord rawWord members
  | zset scores => 5 :: countedWord scoredWord scores
  | hash fields => 4 :: countedWord fieldWord fields

/-- The strings that may be saved in another form than their own. -/
def encodedStrings : RdbValue → List Bytes
  | string val => [val]
  | list _ cells => cells
  | _ => []

def mapStrings (read : Bytes → Bytes) : RdbValue → RdbValue
  | string val => string (read val)
  | list single cells => list single (cells.map read)
  | set members => set members
  | zset scores => zset scores
  | hash fields => hash fields

end RdbValue

theorem length_le_flatMap {α : Type} {items : List α} {item : α} (mem : item ∈ items)
    (word : α → Bytes) : (word item).length ≤ (items.flatMap word).length := by
  obtain ⟨first, rest, rfl⟩ := List.append_of_mem mem
  rw [List.flatMap_append, List.flatMap_cons, List.length_append, List.length_append]
  omega

theorem scoredWord_isWord (runtime : Runtime) {item : Bytes × Double}
    (small : item.1.length < 2 ^ 64 - 1) (current : Bytes × Double) :
    (scoredGrammar runtime true current).word (scoredWord item) item := by
  refine ⟨rawWord item.1, (be64 item.2).reverse, item.1, rfl, rawWord_isWord runtime small,
    (be64 item.2).reverse, [], item.2, (List.append_nil _).symm, ?_, rfl, rfl⟩
  refine ⟨(be64 item.2).reverse, [], (be64 item.2).reverse, (List.append_nil _).symm,
    ⟨rfl, ?_, by decide⟩, rfl, ?_⟩
  · rw [List.length_reverse, be64, Endian.length_bigEndian]
  · rw [List.reverse_reverse, be64, Endian.ofBigEndian_bigEndian item.2.toNat_lt,
      UInt64.ofNat_toNat]

theorem fieldWord_isWord (runtime : Runtime) {entry : Bytes × Bytes}
    (key : entry.1.length < 2 ^ 64 - 1) (val : entry.2.length < 2 ^ 64 - 1) :
    (fieldGrammar runtime).word (fieldWord entry) entry :=
  ⟨rawWord entry.1, rawWord entry.2, entry.1, rfl, rawWord_isWord runtime key,
    rawWord entry.2, [], entry.2, (List.append_nil _).symm, rawWord_isWord runtime val, rfl, rfl⟩

theorem countedWord_isWord {α : Type} {element : α → Grammar UInt8 α} {items : List α}
    {word : α → Bytes} {value : α → α} (few : items.length < 2 ^ 31)
    (each : ∀ item ∈ items, ∀ current, (element current).word (word item) (value item))
    (start : α) :
    (containerGrammar element start).word (countedWord word items) (items.map value) := by
  have size : (UInt64.ofNat items.length).toNat = items.length :=
    UInt64.toNat_ofNat_of_lt' (few.trans (by decide))
  have count : countGrammar.word (lenWord (UInt64.ofNat items.length))
      (UInt64.ofNat items.length) :=
    ⟨_, [], _, (List.append_nil _).symm, lenWord_isWord (ofNat_ne_lenerr (by omega)), rfl, rfl⟩
  refine ⟨_, _, _, rfl, count, ?_⟩
  dsimp only
  rw [size]
  exact Grammar.elements_word each start

/-- What DUMP saves carries the value, with the strings as they are read. -/
theorem carries_dumpBody {runtime : Runtime} {rdbCompression : Bool}
    {lzfCompress : Bytes → Nat → Bytes} {value : RdbValue}
    (several : ∀ cells, value ≠ .list true cells) (few : value.count < 2 ^ 31)
    (short : (value.dumpBody rdbCompression lzfCompress).length < 2 ^ 31) {read : Bytes → Bytes}
    (reads : ∀ string ∈ value.encodedStrings,
      (stringGrammar runtime).word (dumpWord rdbCompression lzfCompress string) (read string)) :
    Carries runtime (value.dumpBody rdbCompression lzfCompress) (value.mapStrings read) := by
  refine ⟨value.dumpBody rdbCompression lzfCompress, [], (List.append_nil _).symm, ?_, ?_⟩
  · cases value <;> exact List.cons_ne_nil _ _
  -- A string that is saved as it is fits because everything that is saved does.
  have inside : ∀ {α : Type} {items : List α} {word : α → Bytes} {type : UInt8},
      (type :: countedWord word items).length < 2 ^ 31 → ∀ item ∈ items,
      (word item).length < 2 ^ 31 := by
    intro α items word type short item mem
    rw [List.length_cons, countedWord, List.length_append] at short
    have part := length_le_flatMap mem word
    omega
  have raw : ∀ {string : Bytes}, (rawWord string).length < 2 ^ 31 →
      string.length < 2 ^ 64 - 1 := by
    intro string short
    rw [rawWord, List.length_append] at short
    omega
  have made : ∀ {α : Type} {grammar : Grammar UInt8 α} {w : Bytes} {found : α}
      (value : α → RdbValue), grammar.word w found →
      (grammar.bind fun found => .pure (value found)).word w (value found) :=
    fun _ word => ⟨_, [], _, (List.append_nil _).symm, word, rfl, rfl⟩
  cases value with
  | string val => exact made RdbValue.string (reads val (List.mem_singleton_self _))
  | list single cells =>
      cases single with
      | true => exact absurd rfl (several cells)
      | false =>
          exact made (RdbValue.list false)
            (countedWord_isWord few (fun cell mem _ => reads cell mem) [])
  | set members =>
      have words := @countedWord_isWord Bytes (fun _ => stringGrammar runtime) members rawWord id few
        (fun member mem _ => rawWord_isWord runtime (raw (inside short member mem))) []
      rw [List.map_id] at words
      exact made RdbValue.set words
  | zset scores =>
      have words := @countedWord_isWord (Bytes × Double) (scoredGrammar runtime true) scores
        scoredWord id few (fun item mem current => scoredWord_isWord runtime ?_ current) ([], 0)
      · rw [List.map_id] at words
        exact made RdbValue.zset words
      · have part := inside short item mem
        rw [scoredWord, List.length_append] at part
        exact raw (by omega)
  | hash fields =>
      have words := @countedWord_isWord (Bytes × Bytes) (fun _ => fieldGrammar runtime) fields
        fieldWord id few (fun entry mem _ => fieldWord_isWord runtime ?_ ?_) ([], [])
      · rw [List.map_id] at words
        exact made RdbValue.hash words
      all_goals
        have part := inside short entry mem
        rw [fieldWord, List.length_append] at part
        exact raw (by omega)

end Objects

end Vcdb
