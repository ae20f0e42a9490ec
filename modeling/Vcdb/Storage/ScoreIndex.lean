import Vcdb.Storage.Contents
import Vcdb.Storage.ZsetRange
import Mathlib.Data.Prod.Lex

/-!
# The score index

The entries of one version of a sorted set, in the order in which the store keeps them: by encoded
score and then by member.  A scan between two scores delivers a part of that list.
-/

namespace Vcdb

/-- The score index under a key and version, by score and member. -/
def DB.scoreIndex (db : DB) (key : Bytes) (version : UInt16) : SortedMap Bytes Bytes :=
  db.under (encodeZscorePrefix key version)

/-- The name of an entry of a score index. -/
def scoreEntry (member : Bytes) (score : Double) : Bytes := be64 (encodeScore score) ++ member

theorem scoreEntry_injective {member member' : Bytes} {score score' : Double}
    (same : scoreEntry member score = scoreEntry member' score') :
    member = member' ∧ score = score' := by
  obtain ⟨scores, members⟩ := List.append_inj same (by simp)
  exact ⟨members, encodeScore_injective (be64_injective scores)⟩

theorem encodeZscoreKey_eq_append (key member : Bytes) (score : Double) (version : UInt16) :
    encodeZscoreKey key member score version =
      encodeZscorePrefix key version ++ scoreEntry member score :=
  encodeKeyInternal_eq_append DataType.zscore key (scoreEntry member score) version

/-- Where the index keeps a member with a score. -/
def indexKey (item : Bytes × Double) : ℕ ×ₗ Bytes := toLex ((encodeScore item.2).toNat, item.1)

theorem be64_lt {m n : UInt64} (lt : m.toNat < n.toNat) : be64 m < be64 n :=
  Endian.bigEndian_lt (n.toNat_lt) lt

theorem indexKey_lt_iff {left right : Bytes × Double} :
    indexKey left < indexKey right ↔
      (encodeScore left.2).toNat < (encodeScore right.2).toNat ∨
        (encodeScore left.2).toNat = (encodeScore right.2).toNat ∧ left.1 < right.1 :=
  Prod.Lex.toLex_lt_toLex

/-- The bytes of the entries sort like scores and members. -/
theorem scoreEntry_lt_iff {left right : Bytes × Double} :
    scoreEntry left.1 left.2 < scoreEntry right.1 right.2 ↔ indexKey left < indexKey right := by
  have mono : ∀ {x y : Bytes × Double}, indexKey x < indexKey y →
      scoreEntry x.1 x.2 < scoreEntry y.1 y.2 := by
    intro x y lt
    rcases indexKey_lt_iff.mp lt with below | ⟨same, below⟩
    · exact Endian.lt_append_of_length_eq _ _ (by simp) (be64_lt below)
    · rw [scoreEntry, scoreEntry, UInt64.toNat_inj.mp same]
      exact (SortedMap.append_lt_append_iff _).mpr below
  refine ⟨fun lt => ?_, mono⟩
  rcases lt_trichotomy (indexKey left) (indexKey right) with below | same | above
  · exact below
  · obtain ⟨scores, members⟩ := Prod.mk.inj (toLex.injective same)
    rw [scoreEntry, scoreEntry, UInt64.toNat_inj.mp scores, members] at lt
    exact absurd lt (lt_irrefl _)
  · exact absurd (lt.trans (mono above)) (lt_irrefl _)

theorem scoreEntry_le_iff {left right : Bytes × Double} :
    scoreEntry left.1 left.2 ≤ scoreEntry right.1 right.2 ↔ indexKey left ≤ indexKey right := by
  rw [← not_lt, ← not_lt, not_iff_not]
  exact scoreEntry_lt_iff

/-- Member and score of an entry. -/
def decodeScoreEntry (entry : Bytes) : Option (Bytes × Double) :=
  (Decoder.readUint64 entry).map fun read => (read.2, decodeScore read.1)

@[simp]
theorem decodeScoreEntry_scoreEntry (member : Bytes) (score : Double) :
    decodeScoreEntry (scoreEntry member score) = some (member, score) := by
  rw [decodeScoreEntry, scoreEntry, Decoder.readUint64_be64, Option.map_some,
    decodeScore_encodeScore]

theorem decodeZScoreItemKey_prefix (key : UserKey) (version : UInt16) (entry : Bytes) :
    decodeZScoreItemKey (encodeZscorePrefix key.1 version ++ entry) =
      (decodeScoreEntry entry).map fun item =>
        { key := key.1, version, field := item.1, score := item.2 } := by
  have item : decodeItemKeyInternal DataType.zscore
      (encodeZscorePrefix key.1 version ++ entry) = some ⟨key.1, version, entry⟩ := by
    rw [encodeZscorePrefix, ← encodeKeyInternal_eq_append]
    exact decodeItemKeyInternal_eq_some.mpr ⟨key.2, rfl⟩
  rw [decodeZScoreItemKey, item, decodeScoreEntry, Option.map_map]
  simp only [Option.bind_eq_bind, Option.bind_some]
  cases Decoder.readUint64 entry <;> rfl

/-- Members and scores in the order of the index. -/
def DB.zitems (db : DB) (key : Bytes) (version : UInt16) : List (Bytes × Double) :=
  (db.scoreIndex key version).keys.filterMap decodeScoreEntry

namespace ZIterator

/-- All records under the prefix of a version belong to it. -/
theorem items_prefix (key : UserKey) (version : UInt16) (entries : List (Bytes × Bytes)) :
    items key.1 version
        (entries.map fun entry => (encodeZscorePrefix key.1 version ++ entry.1, entry.2)) =
      (entries.map Prod.fst).filterMap decodeScoreEntry := by
  induction entries with
  | nil => rfl
  | cons entry entries ih =>
      simp only [items, List.map_cons, Iterator.collect, decodeZScoreItemKey_prefix] at ih ⊢
      cases decoded : decodeScoreEntry entry.1 with
      | none => rw [Option.map_none, List.filterMap_cons_none decoded]; exact ih
      | some item =>
          rw [Option.map_some, List.filterMap_cons_some decoded]
          simp only [belongs, and_self, decide_true, if_true, List.map_cons, ih]

theorem items_cons (key : UserKey) (version : UInt16) (member val : Bytes) (score : Double)
    (entries : List (Bytes × Bytes)) :
    items key.1 version
        ((encodeZscorePrefix key.1 version ++ scoreEntry member score, val) :: entries) =
      (member, score) :: items key.1 version entries := by
  simp only [items, Iterator.collect, decodeZScoreItemKey_prefix, decodeScoreEntry_scoreEntry,
    Option.map_some, belongs, and_self, decide_true, if_true, List.map_cons]

end ZIterator

section Index

variable {db : DB} {key : UserKey} {version : UInt16}

/-- A well-keyed index has an entry for a member and a score under every name. -/
theorem DB.WellKeyed.scoreEntry_of_mem (keyed : db.WellKeyed) {entry : Bytes}
    (mem : entry ∈ (db.scoreIndex key.1 version).keys) :
    ∃ member score, entry = scoreEntry member score := by
  rw [SortedMap.mem_keys, DB.scoreIndex, SortedMap.get_under] at mem
  obtain ⟨record, spelled⟩ := keyed _ mem
  have family := congrArg List.head? spelled
  rw [RecordKey.head?_encode] at family
  have same : RecordKey.family record = DataType.zscore := (Option.some_inj.mp family).symm
  cases record with
  | zscore owner version' score member =>
      rw [RecordKey.encode, encodeZscoreKey_eq, encodeZscorePrefix, ← encodeKeyInternal_eq_append]
        at spelled
      exact ⟨member, score, (encodeKeyInternal_injective spelled).2.2⟩
  | _ => exact absurd same (by simp only [RecordKey.family]; decide)

theorem DB.WellKeyed.mem_zitems (keyed : db.WellKeyed) {member : Bytes} {score : Double} :
    (member, score) ∈ db.zitems key.1 version ↔
      (db.contents (.zscore key version score member)).isSome := by
  have stored : (db.contents (.zscore key version score member)) =
      (db.scoreIndex key.1 version).get (scoreEntry member score) := by
    rw [DB.scoreIndex, SortedMap.get_under, ← encodeZscoreKey_eq_append]
    rfl
  rw [stored, ← SortedMap.mem_keys, DB.zitems, List.mem_filterMap]
  constructor
  · rintro ⟨entry, mem, decoded⟩
    obtain ⟨member', score', rfl⟩ := keyed.scoreEntry_of_mem mem
    rw [decodeScoreEntry_scoreEntry, Option.some_inj] at decoded
    obtain ⟨rfl, rfl⟩ := Prod.mk.inj decoded
    exact mem
  · exact fun mem => ⟨_, mem, decodeScoreEntry_scoreEntry member score⟩

/-- The entries of the index are those of its members, in their order. -/
theorem DB.WellKeyed.keys_scoreIndex (keyed : db.WellKeyed) :
    (db.scoreIndex key.1 version).keys =
      (db.zitems key.1 version).map fun item => scoreEntry item.1 item.2 := by
  have each : ∀ entry ∈ (db.scoreIndex key.1 version).keys,
      (decodeScoreEntry entry).map (fun item => scoreEntry item.1 item.2) = some entry := by
    intro entry mem
    obtain ⟨member, score, rfl⟩ := keyed.scoreEntry_of_mem mem
    rw [decodeScoreEntry_scoreEntry, Option.map_some]
  rw [DB.zitems, List.map_filterMap, List.filterMap_congr each, List.filterMap_some]

theorem DB.WellKeyed.zitems_sorted (keyed : db.WellKeyed) (key : UserKey) (version : UInt16) :
    (db.zitems key.1 version).Pairwise fun x y => indexKey x < indexKey y := by
  have sorted := (db.scoreIndex key.1 version).keys_sorted
  rw [keyed.keys_scoreIndex, List.pairwise_map] at sorted
  exact sorted.imp scoreEntry_lt_iff.mp

/-- Choosing entries of the index chooses members. -/
theorem DB.WellKeyed.items_filter (keyed : db.WellKeyed) (key : UserKey) (version : UInt16)
    {p : Bytes → Bool}
    {q : Bytes × Double → Bool} (agree : ∀ item, p (scoreEntry item.1 item.2) = q item) :
    (((db.scoreIndex key.1 version).entries.filter fun entry => p entry.1).map
        Prod.fst).filterMap decodeScoreEntry = (db.zitems key.1 version).filter q := by
  have names : ((db.scoreIndex key.1 version).entries.filter fun entry => p entry.1).map Prod.fst =
      (db.scoreIndex key.1 version).keys.filter p := by
    rw [SortedMap.keys, List.filter_map]
    rfl
  have chosen : p ∘ (fun item : Bytes × Double => scoreEntry item.1 item.2) = q := funext agree
  rw [names, keyed.keys_scoreIndex, List.filter_map, chosen, List.filterMap_map]
  have each : ∀ item : Bytes × Double,
      (decodeScoreEntry ∘ fun item : Bytes × Double => scoreEntry item.1 item.2) item =
        some item := fun item => decodeScoreEntry_scoreEntry _ _
  rw [funext each, List.filterMap_some]

/-- A scan position, as a place in the index. -/
theorem zscanKey_eq (float : FloatUnit) (name score : Bytes) (extreme : Double)
    (version : UInt16) :
    zscanKey float name score extreme version = encodeZscorePrefix name version ++
      scoreEntry [] (if score.isEmpty then extreme else float.double score) :=
  encodeZscoreKey_eq_append _ _ _ _

theorem zscanKey_ne_nil (float : FloatUnit) (name score : Bytes) (extreme : Double)
    (version : UInt16) : (zscanKey float name score extreme version).isEmpty = false := rfl

/-- Whether the index keeps a member from a score on. -/
def indexFrom (low : Double) (item : Bytes × Double) : Bool := indexKey ([], low) ≤ indexKey item

/-- Whether the index keeps a member before a score, or under the score itself and without
bytes. -/
def indexUpTo (high : Double) (item : Bytes × Double) : Bool := indexKey item ≤ indexKey ([], high)

/-- Whether the index keeps a member before a score. -/
def indexBelow (high : Double) (item : Bytes × Double) : Bool :=
  indexKey item < indexKey ([], high)

/-- A forward scan delivers the members between its bounds. -/
theorem DB.WellKeyed.items_forward (keyed : db.WellKeyed) (float : FloatUnit)
    (scoreStart scoreEnd : Bytes) :
    ZIterator.items key.1 version
        (zscanInternal float db key.1 scoreStart scoreEnd none .forward version) =
      (db.zitems key.1 version).filter fun item =>
        indexFrom (if scoreStart.isEmpty then Double.negQuietNan else float.double scoreStart) item &&
          indexUpTo (if scoreEnd.isEmpty then Double.quietNan else float.double scoreEnd) item := by
  simp only [zscanInternal, iterator, zscanKey_ne_nil, Bool.false_eq_true, false_or]
  rw [zscanKey_eq, zscanKey_eq, SortedMap.takeWhile_seek_under, ZIterator.items_prefix]
  refine keyed.items_filter key version (p := fun entry => decide (scoreEntry [] _ ≤ entry ∧
    entry ≤ scoreEntry [] _)) fun item => ?_
  rw [Bool.decide_and]
  exact congrArg₂ _ (decide_eq_decide.mpr (@scoreEntry_le_iff ([], _) _))
    (decide_eq_decide.mpr (@scoreEntry_le_iff _ ([], _)))

theorem SortedMap.under_under {α β : Type*} [LinearOrder α] (map : SortedMap (List α) β)
    (first second : List α) : (map.under first).under second = map.under (first ++ second) := by
  ext field : 1
  rw [SortedMap.get_under, SortedMap.get_under, SortedMap.get_under, List.append_assoc]

theorem prefix_scoreEntry_iff {item : Bytes × Double} {score : Double} :
    scoreEntry [] score <+: scoreEntry item.1 item.2 ↔ item.2 = score := by
  constructor
  · rintro ⟨rest, same⟩
    rw [scoreEntry, scoreEntry, List.append_nil] at same
    have scores := (List.append_inj same (by simp)).1
    exact (encodeScore_injective (be64_injective scores)).symm
  · rintro rfl
    exact ⟨item.1, by simp [scoreEntry]⟩

/-- The members with one score, in the order of the index. -/
theorem DB.WellKeyed.keys_under_score (keyed : db.WellKeyed) (score : Double) :
    (((db.under (encodeZscorePrefix key.1 version ++ scoreEntry [] score)).entries.map
        fun entry => scoreEntry [] score ++ entry.1).filterMap decodeScoreEntry) =
      (db.zitems key.1 version).filter fun item => item.2 = score := by
  have chosen := keyed.items_filter key version
    (p := fun entry => decide (scoreEntry [] score <+: entry))
    (q := fun item => decide (item.2 = score)) fun item =>
      decide_eq_decide.mpr prefix_scoreEntry_iff
  rw [← chosen, SortedMap.filter_eq_under _ _ fun _ => of_decide_eq_true, ← SortedMap.under_under,
    List.map_map]
  have all : ∀ entry ∈ ((db.scoreIndex key.1 version).under (scoreEntry [] score)).entries,
      decide (scoreEntry [] score <+: scoreEntry [] score ++ entry.1) = true :=
    fun _ _ => decide_eq_true (List.prefix_append _ _)
  rw [List.filter_eq_self.mpr all]
  rfl

/-- The part of a backward scan behind its first entry. -/
theorem DB.WellKeyed.items_below (keyed : db.WellKeyed) (key : UserKey) (version : UInt16)
    (low high : Double) :
    ZIterator.items key.1 version
        ((db.entries.takeWhile fun entry =>
            entry.1 < encodeZscorePrefix key.1 version ++ scoreEntry [] high).reverse.takeWhile
          fun entry => encodeZscorePrefix key.1 version ++ scoreEntry [] low ≤ entry.1) =
      ((db.zitems key.1 version).filter fun item =>
        indexFrom low item && indexBelow high item).reverse := by
  have scan : _ = List.reverse _ := SortedMap.takeWhile_reverse_under db
    (encodeZscorePrefix key.1 version) (scoreEntry [] low) (scoreEntry [] high)
  rw [← List.map_reverse] at scan
  have items := congrArg (ZIterator.items key.1 version) scan
  rw [ZIterator.items_prefix, List.map_reverse, List.filterMap_reverse] at items
  have chosen := keyed.items_filter key version
    (p := fun entry => decide (scoreEntry [] low ≤ entry ∧ entry < scoreEntry [] high))
    (q := fun item => indexFrom low item && indexBelow high item) fun item => by
      rw [Bool.decide_and]
      exact congrArg₂ _ (decide_eq_decide.mpr (@scoreEntry_le_iff ([], _) _))
        (decide_eq_decide.mpr (@scoreEntry_lt_iff _ ([], _)))
  rw [← chosen]
  refine Eq.trans ?_ (items.trans ?_) <;> congr!

/-- A backward scan delivers the first member whose score is the upper bound, and then the members
between its bounds. -/
theorem DB.WellKeyed.items_backward (keyed : db.WellKeyed) (float : FloatUnit)
    (scoreStart scoreEnd : Bytes) {high low : Double}
    (isHigh : (if scoreStart.isEmpty then Double.quietNan else float.double scoreStart) = high)
    (isLow : (if scoreEnd.isEmpty then Double.negQuietNan else float.double scoreEnd) = low) :
    ZIterator.items key.1 version
        (zscanInternal float db key.1 scoreStart scoreEnd none .backward version) =
      (((db.zitems key.1 version).filter fun item => item.2 = high).take 1).filter (indexFrom low) ++
        ((db.zitems key.1 version).filter fun item =>
          indexFrom low item && indexBelow high item).reverse := by
  obtain ⟨rest, block, outside⟩ :=
    db.seek_eq_block (encodeZscorePrefix key.1 version ++ scoreEntry [] high)
  have below := keyed.items_below key version low high
  rw [← keyed.keys_under_score high]
  simp only [zscanInternal, revIterator, zscanKey_ne_nil, Bool.false_eq_true, false_or]
  rw [zscanKey_eq, zscanKey_eq, isHigh, isLow, block]
  cases stored : (db.under (encodeZscorePrefix key.1 version ++ scoreEntry [] high)).entries with
  | nil =>
      rw [stored] at block
      cases rest with
      | nil => exact below
      | cons entry rest =>
          simp only [List.map_nil, List.nil_append, List.filterMap_nil, List.take_nil,
            List.filter_nil, if_neg (outside entry List.mem_cons_self)]
          exact below
  | cons entry entries =>
      have first : encodeZscorePrefix key.1 version ++ scoreEntry [] high ++ entry.1 =
          encodeZscorePrefix key.1 version ++ scoreEntry entry.1 high := by
        simp [scoreEntry]
      have decoded : decodeScoreEntry (scoreEntry [] high ++ entry.1) = some (entry.1, high) := by
        rw [← decodeScoreEntry_scoreEntry]
        simp [scoreEntry]
      simp only [List.map_cons, List.cons_append, List.prefix_append, if_true,
        List.filterMap_cons_some decoded, List.take_succ_cons, List.take_zero]
      have reached : indexFrom low (entry.1, high) =
          decide (encodeZscorePrefix key.1 version ++ scoreEntry [] low ≤
            encodeZscorePrefix key.1 version ++ scoreEntry [] high ++ entry.1) := by
        rw [first]
        refine decide_eq_decide.mpr ?_
        rw [← not_lt, ← not_lt, SortedMap.append_lt_append_iff, not_iff_not]
        exact (@scoreEntry_lt_iff (entry.1, high) ([], low)).symm
      rw [List.takeWhile_cons, List.filter_cons, reached]
      split_ifs with inside
      · rw [first, ZIterator.items_cons, below]
        rfl
      · rw [← reached] at inside
        have nothing : ∀ item ∈ db.zitems key.1 version,
            ¬(indexFrom low item && indexBelow high item) = true := by
          intro item _ between
          obtain ⟨lower, upper⟩ := Bool.and_eq_true_iff.mp between
          have least : indexKey ([], high) ≤ indexKey (entry.1, high) :=
            not_lt.mp fun lt => (indexKey_lt_iff.mp lt).elim (lt_irrefl _)
              fun lt => absurd lt.2 (List.not_lt_nil _)
          exact inside (decide_eq_true
            ((of_decide_eq_true lower).trans ((of_decide_eq_true upper).le.trans least)))
        rw [List.filter_eq_nil_iff.mpr nothing]
        rfl

end Index

end Vcdb
