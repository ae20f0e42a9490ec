import Vcdb.Keyspace.ZsetScore

/-!
# Counting and removing by score

Both run through the members between the moved bounds, an infinite upper bound included, and so
miss the members at an inclusive upper bound that moving does not change.
-/

namespace Vcdb

namespace Zrangespec

/-- A member under an inclusive upper bound that moving does not change; the empty one is met. -/
def drops (float : FloatUnit) (range : Zrangespec) (item : Bytes × Double) : Bool :=
  !range.maxex && float.add range.max .eps = range.max && item.2 = range.max && !item.1.isEmpty

/-- The names of the members in the range. -/
def names (range : Zrangespec) (scores : SortedMap Bytes Double) : List Bytes :=
  (range.members scores).map Prod.fst

end Zrangespec

section Counting

variable {float : FloatUnit} {range : Zrangespec} {scores : SortedMap Bytes Double}
  {item : Bytes × Double}

/-- The scan meets what it does not drop. -/
theorem kept_count (rounds : float.Rounds) (numbers : range.Numbers)
    (number : item.2.isNan = false) (inside : range.contains item.2 = true) :
    (indexFrom (float.sub range.min .eps) item && indexUpTo (float.add range.max .eps) item) =
      !range.drops float item := by
  rw [indexFrom_of_contains rounds numbers number inside, Bool.true_and, Zrangespec.drops]
  rcases rounds.add range.max numbers.max with ⟨same, nonzero⟩ | lt
  · rw [same]
    rcases lt_or_eq_of_contains numbers number nonzero inside with ⟨lt, ne⟩ | ⟨closed, eq⟩
    · rw [indexUpTo_iff.mpr (Or.inl lt)]
      simp [ne]
    · have reached : indexUpTo range.max item = item.1.isEmpty := by
        rw [Bool.eq_iff_iff, indexUpTo_iff, eq, List.isEmpty_iff]
        simp
      simp [reached, closed, eq]
  · have above := Double.rank_lt_of_lt lt
    have le := ((range.lteMax_iff numbers number).mp (Bool.and_eq_true_iff.mp inside).2).1
    rw [indexUpTo_iff.mpr (Or.inl (Double.encodeScore_lt_of_rank_lt (le.trans_lt above)))]
    simp [add_ne_of_lt lt]

variable {world : World} {key : UserKey} {version : UInt16}

/-- What counting and removing run through. -/
theorem scoreScan_eq (rounds : float.Rounds) (numbers : range.Numbers)
    (keyed : world.db.WellKeyed)
    (live : world.db.contents.LiveAs key version (.zset scores))
    (number : ∀ member score, scores.get member = some score → score.isNan = false) :
    scoreScan float world.db key.1 version range =
      ((world.db.zitems key.1 version).filter fun item => range.contains item.2).filter
        fun item => !range.drops float item := by
  have stored := mem_zitems_iff keyed live
  have sorted := keyed.zitems_sorted key version
  have numeric : ∀ item ∈ world.db.zitems key.1 version, item.2.isNan = false :=
    fun item mem => number _ _ ((stored item).mp mem)
  have low := rounds.double_str (rounds.isNan_sub numbers.min) Double.negQuietNan
  have high := rounds.double_str (rounds.isNan_add numbers.max) Double.quietNan
  rw [scoreScan, between, keyed.items_forward, low, high,
    takeWhile_lteMax (sorted.filter _) (fun item mem => numeric item (List.mem_filter.mp mem).1)
      numbers, List.filter_filter, List.filter_filter]
  refine List.filter_congr fun item mem => ?_
  cases inside : range.contains item.2 with
  | false => simp
  | true =>
      rw [Bool.true_and, Bool.and_true]
      exact kept_count rounds numbers (numeric item mem) inside

/-- Nothing is counted or removed under a key that does not exist. -/
theorem eval_zscoreRange_idle (valid : KeyValid world.db.contents key none) {min max : Bytes}
    (parsed : zslParseRange float min max = .ok range) (remove : Bool) :
    (procZscoreRange float remove key.1 min max).eval atomically world = (.int 0, world) := by
  obtain ⟨zv, readMeta, _⟩ := eval_getMetaVal_idle DataType.zsize DataType.zsize valid
  simp [procZscoreRange, zremrangebyscore, parsed, getZsetMetaVal, readMeta]

/-- The members in the range, as the index lists them. -/
theorem perm_zitems (range : Zrangespec) (keyed : world.db.WellKeyed)
    (live : world.db.contents.LiveAs key version (.zset scores)) :
    ((world.db.zitems key.1 version).filter fun item => range.contains item.2).Perm
      (range.members scores) := by
  have nodup : (world.db.zitems key.1 version).Nodup :=
    (keyed.zitems_sorted key version).imp fun lt => by
      rintro rfl
      exact lt_irrefl _ lt
  exact perm_members nodup (mem_zitems_iff keyed live)

/-- The members in the range are the met ones and the dropped ones. -/
theorem length_names_eq_iff (rounds : float.Rounds) (numbers : range.Numbers)
    (keyed : world.db.WellKeyed)
    (live : world.db.contents.LiveAs key version (.zset scores))
    (number : ∀ member score, scores.get member = some score → score.isNan = false) :
    (scoreScan float world.db key.1 version range).length = (range.names scores).length ↔
      ∀ item ∈ range.members scores, range.drops float item = false := by
  have perm := perm_zitems range keyed live
  rw [scoreScan_eq rounds numbers keyed live number, Zrangespec.names, List.length_map,
    ← perm.length_eq, List.length_filter_eq_length_iff]
  simp only [perm.mem_iff, Bool.not_eq_true']

/-- Where none is dropped, all members in the range are met. -/
theorem mem_scoreScan_iff (rounds : float.Rounds) (numbers : range.Numbers)
    (keyed : world.db.WellKeyed)
    (live : world.db.contents.LiveAs key version (.zset scores))
    (number : ∀ member score, scores.get member = some score → score.isNan = false)
    (none : ∀ item ∈ range.members scores, range.drops float item = false) (name : Bytes) :
    name ∈ (scoreScan float world.db key.1 version range).map Prod.fst ↔
      name ∈ range.names scores := by
  have perm := perm_zitems range keyed live
  have kept : scoreScan float world.db key.1 version range =
      (world.db.zitems key.1 version).filter fun item => range.contains item.2 := by
    rw [scoreScan_eq rounds numbers keyed live number, List.filter_eq_self]
    intro item mem
    rw [none item (perm.mem_iff.mp mem)]
    rfl
  rw [kept, Zrangespec.names]
  exact (perm.map Prod.fst).mem_iff

/-- The members in a range by score are counted, and removed, exactly when none of them is
dropped. -/
theorem zscoreRange_iff (rounds : float.Rounds) (keyed : world.db.WellKeyed)
    {state : Option (UInt16 × Value)} (valid : KeyValid world.db.contents key state)
    (held : state.map Prod.snd = Value.ofScores scores)
    (number : ∀ member score, scores.get member = some score → score.isNan = false)
    {min max : Bytes} (parsed : zslParseRange float min max = .ok range) :
    ((procZcount float key.1 min max).eval atomically world =
        (.int (range.names scores).length, world) ∧
      Refines (procZremrangebyscore float key.1 min max) world key
        (.int (range.names scores).length,
          Value.ofScores (scores.eraseAll (range.names scores)))) ↔
      ∀ item ∈ range.members scores, range.drops float item = false := by
  have numbers := zslParseRange_numbers parsed
  cases state with
  | none =>
      obtain rfl := Value.ofScores_eq_none.mp held.symm
      refine iff_of_true ⟨eval_zscoreRange_idle valid parsed false, ?_⟩ fun item mem => ?_
      · exact Refines.of_eval valid (eval_zscoreRange_idle valid parsed true)
      · cases mem
  | some live =>
      obtain ⟨version, value⟩ := live
      obtain ⟨nonempty, rfl⟩ := Value.ofScores_eq_some.mp held.symm
      have view := ZsetView.ofLive valid
      have counts := length_names_eq_iff rounds numbers keyed valid.represented number
      constructor
      · rintro ⟨counted, _⟩
        rw [view.eval_zcount parsed, if_neg nonempty] at counted
        refine counts.mp ?_
        have reply := congrArg Prod.fst counted
        simp only [Reply.int.injEq, Nat.cast_inj] at reply
        exact reply
      · intro none
        have equal := counts.mpr none
        refine ⟨by rw [view.eval_zcount parsed, if_neg nonempty, equal], ?_⟩
        obtain ⟨_, refines⟩ := view.zremrangebyscore_scan nonempty parsed rfl
        rw [List.length_map, equal] at refines
        have same : scores.eraseAll ((scoreScan float world.db key.1 version range).map Prod.fst) =
            scores.eraseAll (range.names scores) :=
          SortedMap.eraseAll_congr fun name _ =>
            mem_scoreScan_iff rounds numbers keyed valid.represented number none name
        rwa [same] at refines

end Counting

/-- Below 16 the sample has no member. -/
theorem zscoreRange_iff_sample :
    (procZcount sampleFloat sampleKey.1 [45, 105, 110, 102] [40, 49, 54]).eval atomically
        sampleWorld = (.int 0, sampleWorld) ∧
      Refines (procZremrangebyscore sampleFloat sampleKey.1 [45, 105, 110, 102] [40, 49, 54])
        sampleWorld sampleKey (.int 0, Value.ofScores sampleScores) := by
  obtain ⟨keyed, state, valid, held⟩ := sampleWorld_valid
  have parsed : zslParseRange sampleFloat [45, 105, 110, 102] [40, 49, 54] =
      .ok ⟨minusInf, sixteen, false, true⟩ := rfl
  have nothing : Zrangespec.members ⟨minusInf, sixteen, false, true⟩ sampleScores = [] := rfl
  obtain ⟨counted, refines⟩ := (zscoreRange_iff sampleFloat_rounds keyed valid held
    sampleScores_number parsed).mpr (by rw [nothing]; simp)
  rw [Zrangespec.names, nothing] at counted refines
  exact ⟨counted, refines⟩

/-- Up to 16 it has one, which is neither counted nor removed. -/
theorem zscoreRange_drops :
    sampleFloat.Rounds ∧ sampleWorld.db.WellKeyed ∧
      (∃ state, KeyValid sampleWorld.db.contents sampleKey state ∧
        state.map Prod.snd = Value.ofScores sampleScores) ∧
      zslParseRange sampleFloat [45, 105, 110, 102] [49, 54] = .ok sampleRange ∧
      sampleRange.names sampleScores = [[97]] ∧
      ((procZcount sampleFloat sampleKey.1 [45, 105, 110, 102] [49, 54]).eval atomically
        sampleWorld).1 = .int 0 ∧
      ((procZremrangebyscore sampleFloat sampleKey.1 [45, 105, 110, 102] [49, 54]).eval atomically
        sampleWorld).1 = .int 0 := by
  obtain ⟨keyed, valid⟩ := sampleWorld_valid
  exact ⟨sampleFloat_rounds, keyed, valid, rfl, rfl, rfl, rfl⟩

end Vcdb
