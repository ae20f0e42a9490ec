import Vcdb.Keyspace.ExpireAgree
import Vcdb.Keyspace.ScanPage
import Vcdb.Keyspace.ZsetScore

/-!
# Requests and replies of the scans

The options are read two at a time, and the reply is made from a vector that the storage layer
leaves empty for a key that does not exist.
-/

namespace Vcdb

/-! ### Options -/

/-- A list of complete options, whose counts are texts of some form. -/
inductive ScanPairs (isCount : Bytes → Prop) : List Bytes → Prop
  | nil : ScanPairs isCount []
  | pattern {word pattern : Bytes} {rest : List Bytes} :
      word.map Conversion.toLower = matchWord → ScanPairs isCount rest →
      ScanPairs isCount (word :: pattern :: rest)
  | count {word argument : Bytes} {rest : List Bytes} :
      word.map Conversion.toLower = countWord → isCount argument → ScanPairs isCount rest →
      ScanPairs isCount (word :: argument :: rest)

/-- A text that is an integer: an optional sign and digits. -/
def IsInteger (text : Bytes) : Prop := (Conversion.readSigned text).isSome

/-- The texts that are accepted as a count: integers also behind white space, no text at all, and
every text that starts with an integer too large. -/
def CountAccepted (text : Bytes) : Prop :=
  text = [] ∨ IsInteger (Conversion.skipSpace text) ∨
    ∃ number ∈ leadingInteger text, 2 ^ 64 ≤ number.2

theorem CountAccepted.of_isInteger {text : Bytes} (integer : IsInteger text) :
    CountAccepted text := by
  obtain ⟨number, read⟩ := Option.isSome_iff_exists.mp integer
  rw [IsInteger, ← Conversion.skipSpace_of_readSigned read] at integer
  exact Or.inr (Or.inl integer)

theorem countAccepted_iff (text : Bytes) :
    (strToUInt64 text 0).2 ≠ einval ↔ CountAccepted text := by
  have stops : (Conversion.strtoull (Conversion.cString text)).stop =
      (Conversion.scan Conversion.readSigned (Conversion.cString text)).2 := by
    rw [Conversion.strtoull, Conversion.convertText]
    rcases Conversion.scan Conversion.readSigned (Conversion.cString text) with ⟨_ | number, stop⟩
    · rfl
    · rfl
  have whole := @Conversion.scan_cString_stop_eq_length _ _ Conversion.readSigned_nil text
  rw [← stops] at whole
  have spaced : (0 : UInt8) ∉ text ∧ (∃ value, Conversion.readSigned (Conversion.skipSpace text) =
      some value) ↔ IsInteger (Conversion.skipSpace text) := by
    rw [IsInteger, Option.isSome_iff_exists]
    refine ⟨And.right, fun integer => ⟨?_, integer⟩⟩
    obtain ⟨value, read⟩ := integer
    exact Conversion.not_mem_of_not_mem_skipSpace (Conversion.not_mem_of_readSigned read)
  rw [spaced] at whole
  rw [strToUInt64, CountAccepted]
  by_cases ends : (Conversion.strtoull (Conversion.cString text)).stop = text.length
  · rw [wholeString_of_stop ends]
    refine iff_of_true (fun same : (0 : Errno) = einval => absurd same (by decide)) ?_
    rcases whole.mp ends with empty | integer
    · exact Or.inl empty
    · exact Or.inr (Or.inl integer)
  · have ranged : (Conversion.strtoull (Conversion.cString text)).rangeError = true ↔
        ∃ number ∈ leadingInteger text, 2 ^ 64 ≤ number.2 := by
      rw [Conversion.strtoull, Conversion.convertText, leadingInteger]
      rcases Conversion.scan Conversion.readSigned (Conversion.cString text) with ⟨_ | number, stop⟩
      · simp
      · have inRange := (clampUInt64_inRange number).not
        rw [not_lt, Bool.not_eq_false] at inRange
        simp only [Option.mem_some, exists_eq_left']
        exact inRange
    rw [wholeString_of_rest ends, ← ranged]
    have incomplete : ¬(text = [] ∨ IsInteger (Conversion.skipSpace text)) := mt whole.mpr ends
    rw [not_or] at incomplete
    cases (Conversion.strtoull (Conversion.cString text)).rangeError with
    | true =>
        exact iff_of_true (fun same : erange = einval => absurd same (by decide))
          (Or.inr (Or.inr rfl))
    | false =>
        refine iff_of_false (fun other => other rfl) ?_
        rintro (empty | integer | large)
        · exact incomplete.1 empty
        · exact incomplete.2 integer
        · cases large

/-- The list ends with the name of an option whose value is missing. -/
def EndsInOption (options : List Bytes) : Prop :=
  ∃ pairs word, options = pairs ++ [word] ∧ ScanPairs CountAccepted pairs ∧
    (word.map Conversion.toLower = matchWord ∨ word.map Conversion.toLower = countWord)

/-- What the parser of the options is for. -/
def OptionsMeet (options : List Bytes) : ParamsResult → Prop
  | .ok _ => ScanPairs IsInteger options
  | .error _ => ¬ScanPairs IsInteger options
  | .outside => False

theorem ScanPairs.imp {weak strong : Bytes → Prop} (weaken : ∀ {text}, strong text → weak text)
    {options : List Bytes} (pairs : ScanPairs strong options) : ScanPairs weak options := by
  induction pairs with
  | nil => exact .nil
  | pattern word _ ih => exact .pattern word ih
  | count word counts _ ih => exact .count word (weaken counts) ih

/-- A word and what follows it are a complete option. -/
def IsPair (isCount : Bytes → Prop) (word argument : Bytes) : Prop :=
  word.map Conversion.toLower = matchWord ∨
    (word.map Conversion.toLower = countWord ∧ isCount argument)

theorem scanPairs_cons_iff {isCount : Bytes → Prop} {word : Bytes} {rest : List Bytes} :
    ScanPairs isCount (word :: rest) ↔
      ∃ argument later, rest = argument :: later ∧ IsPair isCount word argument ∧
        ScanPairs isCount later := by
  constructor
  · intro pairs
    cases pairs with
    | pattern named pairs => exact ⟨_, _, rfl, Or.inl named, pairs⟩
    | count named counts pairs => exact ⟨_, _, rfl, Or.inr ⟨named, counts⟩, pairs⟩
  · rintro ⟨argument, later, rfl, named | ⟨named, counts⟩, pairs⟩
    · exact .pattern named pairs
    · exact .count named counts pairs

theorem endsInOption_cons_iff {word : Bytes} {rest : List Bytes} :
    EndsInOption (word :: rest) ↔
      (rest = [] ∧ (word.map Conversion.toLower = matchWord ∨
        word.map Conversion.toLower = countWord)) ∨
      ∃ argument later, rest = argument :: later ∧ IsPair CountAccepted word argument ∧
        EndsInOption later := by
  constructor
  · rintro ⟨pairs, last, split, accepted, named⟩
    cases pairs with
    | nil =>
        obtain ⟨rfl, rfl⟩ := List.cons.inj split
        exact Or.inl ⟨rfl, named⟩
    | cons first pairs =>
        obtain ⟨rfl, rfl⟩ := List.cons.inj split
        obtain ⟨argument, later, rfl, pair, accepted⟩ := scanPairs_cons_iff.mp accepted
        exact Or.inr ⟨argument, later ++ [last], rfl, pair, later, last, rfl, accepted, named⟩
  · rintro (⟨rfl, named⟩ | ⟨argument, later, rfl, pair, pairs, last, rfl, accepted, named⟩)
    · exact ⟨[], word, rfl, .nil, named⟩
    · exact ⟨word :: argument :: pairs, last, rfl,
        scanPairs_cons_iff.mpr ⟨argument, pairs, rfl, pair, accepted⟩, named⟩

theorem not_endsInOption_nil : ¬EndsInOption [] := by
  rintro ⟨pairs, word, split, _⟩
  exact absurd split.symm (by simp)

theorem countWord_ne_matchWord : countWord ≠ matchWord := by decide

/-- What the parser makes of a list of options. -/
inductive Prepared (options : List Bytes) : ParamsResult → Prop
  | accepted (params : ScanParams) : ScanPairs CountAccepted options → Prepared options (.ok params)
  | refused (code : Int) : ¬ScanPairs CountAccepted options → ¬EndsInOption options →
      Prepared options (.error code)
  | left : EndsInOption options → Prepared options .outside

/-- A complete option in front changes nothing. -/
theorem Prepared.cons {word argument : Bytes} {rest : List Bytes} {result : ParamsResult}
    (pair : IsPair CountAccepted word argument) (prepared : Prepared rest result) :
    Prepared (word :: argument :: rest) result := by
  cases prepared with
  | accepted params pairs =>
      exact .accepted params (scanPairs_cons_iff.mpr ⟨argument, rest, rfl, pair, pairs⟩)
  | refused code other complete =>
      refine .refused code (fun pairs => other ?_) (fun ends => complete ?_)
      · obtain ⟨_, _, split, _, pairs⟩ := scanPairs_cons_iff.mp pairs
        obtain ⟨rfl, rfl⟩ := List.cons.inj split
        exact pairs
      · rcases endsInOption_cons_iff.mp ends with ⟨empty, _⟩ | ⟨_, _, split, _, ends⟩
        · cases empty
        · obtain ⟨rfl, rfl⟩ := List.cons.inj split
          exact ends
  | left ends => exact .left (endsInOption_cons_iff.mpr (Or.inr ⟨argument, rest, rfl, pair, ends⟩))

/-- A word that is no complete option with what follows it is refused. -/
theorem Prepared.error {word : Bytes} {rest : List Bytes} (code : Int)
    (behind : rest = [] → ¬(word.map Conversion.toLower = matchWord ∨
      word.map Conversion.toLower = countWord))
    (other : ∀ argument later, rest = argument :: later → ¬IsPair CountAccepted word argument) :
    Prepared (word :: rest) (.error code) := by
  refine .refused code (fun pairs => ?_) (fun ends => ?_)
  · obtain ⟨argument, later, split, pair, _⟩ := scanPairs_cons_iff.mp pairs
    exact other argument later split pair
  · rcases endsInOption_cons_iff.mp ends with ⟨empty, named⟩ | ⟨argument, later, split, pair, _⟩
    · exact behind empty named
    · exact other argument later split pair

theorem prepared_prepareForScanParams (options : List Bytes) (params : ScanParams) :
    Prepared options (prepareForScanParams options params) := by
  induction options, params using prepareForScanParams.induct with
  | case1 params => exact .accepted params .nil
  | case2 word params key named =>
      rw [prepareForScanParams, if_pos named]
      exact .left (endsInOption_cons_iff.mpr (Or.inl ⟨rfl, Or.inl named⟩))
  | case3 word params key named pattern rest ih =>
      rw [prepareForScanParams, if_pos named]
      exact ih.cons (Or.inl named)
  | case4 word params key other named =>
      rw [prepareForScanParams, if_neg other, if_pos named]
      exact .left (endsInOption_cons_iff.mpr (Or.inl ⟨rfl, Or.inr named⟩))
  | case5 word params key other named argument rest limit converted =>
      rw [prepareForScanParams, if_neg other, if_pos named, converted]
      refine Prepared.error invalidInt (fun empty => by cases empty) fun first later split pair => ?_
      obtain ⟨rfl, rfl⟩ := List.cons.inj split
      rcases pair with named | ⟨_, accepted⟩
      · exact other named
      · exact countAccepted_iff _ |>.mpr accepted (congrArg Prod.snd converted)
  | case6 word params key other named argument rest limit errno converted accepted ih =>
      rw [prepareForScanParams, if_neg other, if_pos named, converted]
      simp only [if_neg accepted]
      refine ih.cons (Or.inr ⟨named, (countAccepted_iff argument).mp ?_⟩)
      rwa [converted]
  | case7 word rest params key other unnamed =>
      rw [prepareForScanParams.eq_def]
      simp only [if_neg (show ¬word.map Conversion.toLower = matchWord from other),
        if_neg (show ¬word.map Conversion.toLower = countWord from unnamed)]
      refine Prepared.error syntaxErr (fun _ named => ?_) fun argument later _ pair => ?_
      · exact named.elim other unnamed
      · exact pair.elim other fun counted => unnamed counted.1

theorem ScanPairs.not_endsInOption {options : List Bytes}
    (pairs : ScanPairs CountAccepted options) : ¬EndsInOption options := by
  have later : ∀ {word argument : Bytes} {rest : List Bytes}, ¬EndsInOption rest →
      ¬EndsInOption (word :: argument :: rest) := by
    intro word argument rest complete ends
    rcases endsInOption_cons_iff.mp ends with ⟨empty, _⟩ | ⟨_, _, split, _, ends⟩
    · cases empty
    · obtain ⟨rfl, rfl⟩ := List.cons.inj split
      exact complete ends
  induction pairs with
  | nil => exact not_endsInOption_nil
  | pattern named pairs ih => exact later ih
  | count named counts pairs ih => exact later ih

/-- The parser meets its purpose unless the list ends in the name of an option, or all of it is
taken although some count is no integer. -/
theorem optionsMeet_iff (options : List Bytes) (params : ScanParams) :
    OptionsMeet options (prepareForScanParams options params) ↔
      ¬EndsInOption options ∧ (ScanPairs CountAccepted options → ScanPairs IsInteger options) := by
  have integers : ScanPairs IsInteger options → ScanPairs CountAccepted options :=
    ScanPairs.imp CountAccepted.of_isInteger
  have prepared := prepared_prepareForScanParams options params
  generalize prepareForScanParams options params = result at prepared ⊢
  cases prepared with
  | accepted parsed pairs =>
      exact ⟨fun met => ⟨pairs.not_endsInOption, fun _ => met⟩, fun met => met.2 pairs⟩
  | refused code other complete =>
      exact iff_of_true (mt integers other) ⟨complete, fun pairs => absurd pairs other⟩
  | left ends => exact iff_of_false id fun met => met.1 ends

/-- `SCAN 0 MATCH` reads behind the request. -/
theorem options_missing_pattern :
    ¬OptionsMeet [matchWord] (prepareForScanParams [matchWord] {}) := id

/-! ### Replies -/

/-- An error, or an array under its own length. -/
def ScanResponse.WellFormed : ScanResponse → Prop
  | .error _ => True
  | .result _ announced elements => announced = elements.length
  | .outside => False

/-- An `int` holds the length of the response vector. -/
theorem wellFormed_convertReplyToScanResult_iff (resp : List Bytes) :
    (convertReplyToScanResult resp).WellFormed ↔ 0 < resp.length ∧ resp.length < 2 ^ 31 := by
  cases resp with
  | nil => exact iff_of_false id (by simp)
  | cons cursor elements =>
      rw [convertReplyToScanResult, ScanResponse.WellFormed, List.length_cons]
      constructor
      · intro same
        have below := Int32.toInt_lt (Int32.ofNat (elements.length + 1))
        exact ⟨by omega, by omega⟩
      · rintro ⟨_, small⟩
        rw [Int32.toInt_ofNat_of_lt small]
        omega

/-- Where the scan for a cursor begins. -/
def scanPosition (cursors : RedisCursorTable) (cursor first : Bytes) : Bytes :=
  if cursor = [48] then first
  else if (strToUInt64 cursor 0).2 = einval then []
  else (cursors.get (strToUInt64 cursor 0).1.toNat).getD []

theorem eval_scanStart (world : World) (cursor first : Bytes) :
    (scanStart cursor first).eval atomically world =
      (scanPosition world.cursors cursor first, world) := by
  rw [scanStart, scanPosition]
  obtain ⟨number, errno⟩ := strToUInt64 cursor 0
  simp only
  split_ifs with zero invalid
  · rfl
  · rfl
  · have found : (findElementByRedisCursor number.toNat).eval atomically world =
        (world.cursors.get number.toNat, world) := rfl
    rw [Program.eval_bind, found]
    cases world.cursors.get number.toNat with
    | none => rfl
    | some element => rfl

/-- The response vector of a page: a cursor, then what the first elements that match send. -/
theorem eval_scanFrom (stringmatchlen : Bytes → Bytes → Bool) {γ : Type} (mit : ScanIterator γ)
    (pattern : Bytes) (limit : Nat) (start : Bytes) (world : World) :
    ∃ cursor after, (scanFrom stringmatchlen mit pattern limit start).eval atomically world =
      (cursor :: matching stringmatchlen mit pattern
        ((mit.elements (iterator world.db start)).take limit), after) := by
  obtain ⟨sent, examined⟩ :=
    @doScanGeneric_spec stringmatchlen γ mit pattern limit (iterator world.db start)
  have snapshot : getSnapshot.eval atomically world = (world.db, world) := rfl
  rw [scanFrom, Program.eval_bind, snapshot, ← examined, ← sent]
  simp only
  cases (doScanGeneric stringmatchlen mit pattern limit (iterator world.db start)).next with
  | none => exact ⟨_, _, rfl⟩
  | some key => exact ⟨_, _, rfl⟩

/-- What `getMetaVal` makes of the metadata of a key. -/
def metaRead (type freshType : UInt8) : Option Bytes → Int × MetaVal
  | none => (0, { type := freshType })
  | some metaVal =>
      match MetaVal.decodeMetaVal metaVal with
      | .error code => (code, { type := freshType })
      | .ok mv =>
          if mv.del = keyDeleteMask then
            (0, { mv with version := nextVersion mv.version, length := 0, del := keyEnabledMask })
          else if mv.type ≠ type then (wrongTypeErr, mv)
          else (1, mv)

theorem eval_getMetaVal (type freshType : UInt8) (metaKey : Bytes) (world : World) :
    (getMetaVal type freshType metaKey).eval atomically world =
      (metaRead type freshType (world.db.get metaKey), world) := by
  have read : (dbGet metaKey).eval atomically world =
      (ReadStatus.ofOption (world.db.get metaKey), world) := rfl
  rw [getMetaVal, Program.eval_bind, read]
  cases world.db.get metaKey with
  | none => rfl
  | some metaVal =>
      simp only [ReadStatus.ofOption, metaRead]
      cases MetaVal.decodeMetaVal metaVal with
      | error code => rfl
      | ok mv =>
          simp only
          split_ifs
          · rfl
          · rfl
          · rfl

/-- The deletion flag decides before anything else is decoded. -/
theorem decodeMetaVal_cases (metaVal : Bytes) :
    (metaVal[posDel]? = some keyDeleteMask ∧
        ∃ mv, MetaVal.decodeMetaVal metaVal = .ok mv ∧ mv.del = keyDeleteMask) ∨
      (metaVal[posDel]? ≠ some keyDeleteMask ∧
        ((∃ code < 0, MetaVal.decodeMetaVal metaVal = .error code) ∨
          ∃ mv, MetaVal.decodeMetaVal metaVal = .ok mv ∧ mv.del ≠ keyDeleteMask)) := by
  rw [MetaVal.decodeMetaVal]
  cases decoded : decodeMetaHeader metaVal with
  | none =>
      refine Or.inr ⟨fun deleted => ?_, Or.inl ⟨-1, by decide, rfl⟩⟩
      rcases metaVal with _ | ⟨type, _ | ⟨high, _ | ⟨low, _ | ⟨del, tail⟩⟩⟩⟩
      · cases deleted
      · cases deleted
      · cases deleted
      · cases deleted
      · obtain rfl : del = keyDeleteMask := Option.some_inj.mp deleted
        simp [decodeMetaHeader] at decoded
  | some parsed =>
      obtain ⟨⟨type, version, del⟩, rest⟩ := parsed
      have flag := (decodeMetaHeader_eq_some decoded).2
      simp only at flag ⊢
      rw [flag]
      by_cases deleted : del = keyDeleteMask
      · subst deleted
        exact Or.inl ⟨rfl, _, if_pos rfl, rfl⟩
      · refine Or.inr ⟨fun same => deleted (Option.some_inj.mp same), ?_⟩
        rw [if_neg deleted]
        split_ifs
        · exact Or.inl ⟨wrongTypeErr, by decide, rfl⟩
        · cases Decoder.readUint64 rest with
          | none => exact Or.inl ⟨-1, by decide, rfl⟩
          | some length => exact Or.inr ⟨_, rfl, deleted⟩

/-- A key without live metadata is read as absent, any other is an error or a collection. -/
theorem metaRead_cases (type freshType : UInt8) (db : DB) (key : Bytes) :
    ((metaRead type freshType (db.get (encodeMetaKey key))).1 = 0 ∧ MetaIdle db key) ∨
      (¬MetaIdle db key ∧ ((metaRead type freshType (db.get (encodeMetaKey key))).1 < 0 ∨
        (metaRead type freshType (db.get (encodeMetaKey key))).1 = 1)) := by
  rw [MetaIdle]
  cases db.get (encodeMetaKey key) with
  | none => exact Or.inl ⟨rfl, by simp⟩
  | some metaVal =>
      simp only [Option.some.injEq, forall_eq', metaRead]
      rcases decodeMetaVal_cases metaVal with ⟨idle, mv, decoded, deleted⟩ |
        ⟨other, ⟨code, negative, decoded⟩ | ⟨mv, decoded, live⟩⟩
      · rw [decoded]
        exact Or.inl ⟨congrArg Prod.fst (if_pos deleted), idle⟩
      · rw [decoded]
        exact Or.inr ⟨other, Or.inl negative⟩
      · rw [decoded]
        simp only [if_neg live]
        refine Or.inr ⟨other, ?_⟩
        split_ifs
        · exact Or.inl (show wrongTypeErr < 0 by decide)
        · exact Or.inr rfl

section Commands

variable (stringmatchlen : Bytes → Bytes → Bool) {options : List Bytes} {params : ScanParams}
  (accepted : prepareForScanParams options {} = .ok params) (world : World)

/-- The response vector of the page that a cursor asks for has a length that an `int` holds. -/
def PageFits {γ : Type} (mit : ScanIterator γ) (params : ScanParams) (world : World)
    (cursor first : Bytes) : Prop :=
  (matching stringmatchlen mit params.pattern
    ((mit.elements (iterator world.db (scanPosition world.cursors cursor first))).take
      params.limit.toNat)).length + 1 < 2 ^ 31

/-- A vector that starts with a cursor. -/
theorem wellFormed_page_iff {γ : Type} (mit : ScanIterator γ) (params : ScanParams)
    (cursor first next : Bytes) :
    (convertReplyToScanResult (next :: matching stringmatchlen mit params.pattern
      ((mit.elements (iterator world.db (scanPosition world.cursors cursor first))).take
        params.limit.toNat))).WellFormed ↔
      PageFits stringmatchlen mit params world cursor first := by
  rw [wellFormed_convertReplyToScanResult_iff, List.length_cons, PageFits]
  exact ⟨And.right, fun small => ⟨Nat.succ_pos _, small⟩⟩

include accepted

theorem procScan_wellFormed_iff (cursor : Bytes) :
    ((procScan stringmatchlen cursor options).eval atomically world).1.WellFormed ↔
      (strToUInt64 cursor 0).2 = einval ∨
        PageFits stringmatchlen mIterator params world cursor [DataType.metadata] := by
  rw [procScan, procScanGeneric]
  by_cases invalid : (strToUInt64 cursor 0).2 = einval
  · rw [if_pos invalid]
    exact iff_of_true trivial (Or.inl invalid)
  · obtain ⟨next, after, run⟩ := eval_scanFrom stringmatchlen mIterator params.pattern
      params.limit.toNat (scanPosition world.cursors cursor [DataType.metadata]) world
    rw [if_neg invalid, accepted]
    simp only [scan, Program.eval_bind, eval_scanStart, run, invalid, false_or]
    simp only [Program.pure_eq_done, Program.eval_done]
    exact wellFormed_page_iff stringmatchlen world mIterator params cursor _ next

/-- HSCAN, SSCAN and ZSCAN fail for a key that does not exist. -/
theorem scanCollection_wellFormed_iff {γ : Type} {type freshType : UInt8}
    {getMeta : Bytes → Command (Int × MetaVal)} (reads : getMeta = getMetaVal type freshType)
    (iterate : UInt16 → ScanIterator γ) (first : UInt16 → Bytes) (name cursor : Bytes) :
    ((procScanGeneric (scanCollection stringmatchlen getMeta iterate first name cursor) cursor
        options).eval atomically world).1.WellFormed ↔
      (strToUInt64 cursor 0).2 = einval ∨
        (¬MetaIdle world.db name ∧
          ∀ mv, metaRead type freshType (world.db.get (encodeMetaKey name)) = (1, mv) →
            PageFits stringmatchlen (iterate mv.version) params world cursor (first mv.version)) := by
  rw [procScanGeneric, reads]
  by_cases invalid : (strToUInt64 cursor 0).2 = einval
  · rw [if_pos invalid]
    exact iff_of_true trivial (Or.inl invalid)
  · rw [if_neg invalid, accepted]
    simp only [scanCollection, Program.eval_bind, eval_getMetaVal, invalid, false_or]
    have cases := metaRead_cases type freshType world.db name
    cases read : metaRead type freshType (world.db.get (encodeMetaKey name)) with
    | mk ret mv =>
        rw [read] at cases
        rcases cases with ⟨zero, idle⟩ | ⟨busy, negative | one⟩
        · obtain rfl : ret = 0 := zero
          exact iff_of_false id fun met => met.1 idle
        · have below : ret < 0 := negative
          have other : ret ≠ 1 := by omega
          refine iff_of_true ?_ ⟨busy, fun _ same => absurd (congrArg Prod.fst same) other⟩
          simp only [if_pos other, Program.pure_eq_done, Program.eval_done]
          rw [if_pos below]
          trivial
        · obtain rfl : ret = 1 := one
          obtain ⟨next, after, run⟩ := eval_scanFrom stringmatchlen (iterate mv.version)
            params.pattern params.limit.toNat
            (scanPosition world.cursors cursor (first mv.version)) world
          simp only [ne_eq, not_true_eq_false, if_false, Program.eval_bind, eval_scanStart, run]
          have page := wellFormed_page_iff stringmatchlen world (iterate mv.version) params cursor
            (first mv.version) next
          refine Iff.trans page ⟨fun fits => ⟨busy, ?_⟩, fun met => met.2 mv rfl⟩
          rintro _ ⟨⟩
          exact fits

/-- The replies of the four scans are well formed unless HSCAN, SSCAN or ZSCAN is asked for a key
that does not exist, or an `int` is too small for the page. -/
theorem scanReplies_wellFormed_iff (float : FloatUnit) (name cursor : Bytes) :
    (((procScan stringmatchlen cursor options).eval atomically world).1.WellFormed ↔
      (strToUInt64 cursor 0).2 = einval ∨
        PageFits stringmatchlen mIterator params world cursor [DataType.metadata]) ∧
    (((procHscan stringmatchlen name cursor options).eval atomically world).1.WellFormed ↔
      (strToUInt64 cursor 0).2 = einval ∨
        (¬MetaIdle world.db name ∧ ∀ hv, metaRead DataType.hsize DataType.hsize
            (world.db.get (encodeMetaKey name)) = (1, hv) →
          PageFits stringmatchlen (hIterator name hv.version) params world cursor
            (encodeHashKey name [] hv.version))) ∧
    (((procSscan stringmatchlen name cursor options).eval atomically world).1.WellFormed ↔
      (strToUInt64 cursor 0).2 = einval ∨
        (¬MetaIdle world.db name ∧ ∀ sv, metaRead DataType.ssize DataType.hsize
            (world.db.get (encodeMetaKey name)) = (1, sv) →
          PageFits stringmatchlen (sIterator name sv.version) params world cursor
            (encodeSetKey name [] sv.version))) ∧
    (((procZscan stringmatchlen float name cursor options).eval atomically world).1.WellFormed ↔
      (strToUInt64 cursor 0).2 = einval ∨
        (¬MetaIdle world.db name ∧ ∀ zv, metaRead DataType.zsize DataType.zsize
            (world.db.get (encodeMetaKey name)) = (1, zv) →
          PageFits stringmatchlen (zIterator float name zv.version) params world cursor
            (encodeZscorePrefix name zv.version))) := by
  refine ⟨procScan_wellFormed_iff stringmatchlen accepted world cursor, ?_, ?_, ?_⟩
  · exact scanCollection_wellFormed_iff stringmatchlen accepted world rfl _ _ name cursor
  · exact scanCollection_wellFormed_iff stringmatchlen accepted world rfl _ _ name cursor
  · exact scanCollection_wellFormed_iff stringmatchlen accepted world rfl _ _ name cursor

end Commands

/-- `SCAN 0` on a store with one string. -/
theorem scanReply_wellFormed_string :
    ((procScan matchLiterally [48] []).eval atomically (stringWorld [107] [97])).1.WellFormed := by
  refine (@scanReplies_wellFormed_iff matchLiterally [] {} rfl (stringWorld [107] [97]) sampleFloat
    [107] [48]).1.mpr (Or.inr ?_)
  rw [PageFits]
  decide +kernel

/-- `HSCAN h 0` on a store without `h` reads an element of an empty vector. -/
theorem scanReply_reads_outside :
    prepareForScanParams [] {} = .ok {} ∧
      ¬((procHscan matchLiterally [104] [48] []).eval atomically
        (stringWorld [107] [97])).1.WellFormed := by
  have response : ((procHscan matchLiterally [104] [48] []).eval atomically
      (stringWorld [107] [97])).1 = .outside := by decide +kernel
  refine ⟨rfl, ?_⟩
  rw [response]
  exact id

end Vcdb
