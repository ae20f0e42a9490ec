import Vcdb.Keyspace.ZsetRank

/-!
# The order of a sorted set

A range by rank lists members by score and then by bytes, apart from the zeros: the index keeps a
member with a negative zero in front of all members with a positive one, whatever their bytes.
-/

namespace Vcdb

/-- A member with a smaller score, or with an equal one and smaller bytes. -/
def ScoreBefore (left right : Bytes × Double) : Prop :=
  left.2.lt right.2 = true ∨ left.2.eq right.2 = true ∧ left.1 < right.1

/-- A reply lists members by score, and by bytes where scores are equal. -/
def ListsByScore (float : FloatUnit) (scores : SortedMap Bytes Double) (withscore : Bool)
    (reply : Reply) : Prop :=
  ∃ items : List (Bytes × Double), reply = .strings (keyScores float withscore items) ∧
    (∀ item ∈ items, scores.get item.1 = some item.2) ∧ items.Pairwise ScoreBefore

/-- The number of members as an `int`. -/
def intLength (scores : SortedMap Bytes Double) : Int :=
  (UInt64.ofNat scores.size).toUInt32.toInt32.toInt

/-- A member with a positive zero has larger bytes than all members with a negative one, unless it
stands behind the members that the length as an `int` counts. -/
def ZerosInOrder (scores : SortedMap Bytes Double) : Prop :=
  ∀ negative positive, scores.get negative = some Double.negZero →
    scores.get positive = some 0 → positive < negative →
      intLength scores ≤ Ranking.rank indexKey scores.entries (positive, 0)

section Order

variable {left right : Bytes × Double} (numberLeft : left.2.isNan = false)
  (numberRight : right.2.isNan = false)

include numberLeft numberRight

theorem scoreBefore_iff : ScoreBefore left right ↔ scoreKey left < scoreKey right := by
  rw [ScoreBefore, scoreKey_lt_iff, Double.lt_iff numberLeft numberRight,
    Double.eq_iff numberLeft numberRight]

/-- The index sorts as scores and bytes do, unless a negative zero meets a positive one. -/
theorem scoreBefore_iff_of_indexKey_lt (lt : indexKey left < indexKey right) :
    ScoreBefore left right ↔
      (left.2 = Double.negZero → right.2 = 0 → left.1 < right.1) := by
  have zeroCode := Double.encodeScore_zero
  have negCode := Double.encodeScore_negZero
  have zeroRank := rank_zero
  have negRank := rank_negZero
  have apart : (0 : Double) ≠ Double.negZero := by decide
  rw [indexKey_lt_iff] at lt
  rw [scoreBefore_iff numberLeft numberRight, scoreKey_lt_iff]
  rcases zero_or_nonzero left.2 with zero | zero | ⟨⟨_, ne⟩, nonzero⟩
  · rcases zero_or_nonzero right.2 with zero' | zero' | ⟨_, nonzero'⟩
    · rw [zero, zero'] at lt ⊢
      grind
    · rw [zero, zero'] at lt ⊢
      grind
    · rw [zero] at lt ⊢
      grind
  · rcases zero_or_nonzero right.2 with zero' | zero' | ⟨_, nonzero'⟩
    · rw [zero, zero'] at lt ⊢
      grind
    · rw [zero, zero'] at lt ⊢
      grind
    · rw [zero] at lt ⊢
      grind
  · refine iff_of_true ?_ fun same => absurd same ne
    rcases zero_or_nonzero right.2 with zero' | zero' | ⟨_, nonzero'⟩
    · rw [zero'] at lt ⊢
      grind
    · rw [zero'] at lt ⊢
      grind
    · grind

end Order

section Replies

variable {float : FloatUnit} {world : World} {key : UserKey} {scores : SortedMap Bytes Double}

/-- The first members of the index are in order exactly when the zeros among them are. -/
theorem pairwise_take_iff {items : List (Bytes × Double)}
    (sorted : items.Pairwise fun x y => indexKey x < indexKey y) (perm : items.Perm scores.entries)
    (number : ∀ member score, scores.get member = some score → score.isNan = false) :
    (items.take (intLength scores).toNat).Pairwise ScoreBefore ↔ ZerosInOrder scores := by
  have stored : ∀ {item}, item ∈ items ↔ scores.get item.1 = some item.2 := fun {item} =>
    perm.mem_iff.trans SortedMap.mem_entries
  have shown : ∀ {item}, item ∈ items.take (intLength scores).toNat ↔
      scores.get item.1 = some item.2 ∧
        (Ranking.rank indexKey scores.entries item : Int) < intLength scores := by
    intro item
    rw [Ranking.mem_take_iff_rank sorted, stored, Ranking.rank_perm perm]
    exact and_congr_right fun _ => by omega
  rw [Ranking.pairwise_iff_of_sorted (sorted.sublist (List.take_sublist _ _))]
  constructor
  · intro ordered negative positive storedNegative storedPositive lt
    by_contra inside
    have below : indexKey (negative, Double.negZero) < indexKey (positive, 0) :=
      indexKey_lt_iff.mpr (Or.inl (show (encodeScore Double.negZero).toNat < (encodeScore 0).toNat by
        decide))
    have rank : Ranking.rank indexKey scores.entries (negative, Double.negZero) ≤
        Ranking.rank indexKey scores.entries (positive, 0) := Ranking.rank_mono below
    have before := ordered (negative, Double.negZero) (shown.mpr ⟨storedNegative, by omega⟩)
      (positive, 0) (shown.mpr ⟨storedPositive, by omega⟩) below
    have bytes := (scoreBefore_iff_of_indexKey_lt (number _ _ storedNegative)
      (number _ _ storedPositive) below).mp before rfl rfl
    exact absurd (lt.trans bytes) (lt_irrefl _)
  · intro zeros left memLeft right memRight lt
    obtain ⟨storedLeft, _⟩ := shown.mp memLeft
    obtain ⟨storedRight, inside⟩ := shown.mp memRight
    refine (scoreBefore_iff_of_indexKey_lt (number _ _ storedLeft) (number _ _ storedRight)
      lt).mpr fun negative positive => ?_
    rw [negative] at storedLeft
    rw [positive] at storedRight
    rcases lt_trichotomy left.1 right.1 with before | same | behind
    · exact before
    · rw [same, storedRight, Option.some_inj] at storedLeft
      exact absurd storedLeft (by decide)
    · have beyond := zeros left.1 right.1 storedLeft storedRight behind
      rw [← positive] at beyond
      exact absurd beyond (not_le.mpr inside)

/-- A range by rank over the whole set is in order exactly when the zeros are. -/
theorem procZrange_sorted_iff (keyed : world.db.WellKeyed) {state : Option (UInt16 × Value)}
    (valid : KeyValid world.db.contents key state)
    (held : state.map Prod.snd = Value.ofScores scores)
    (number : ∀ member score, scores.get member = some score → score.isNan = false)
    (withscore : Bool) :
    ListsByScore float scores withscore
        ((procZrange float key.1 (str 0) (str (-1)) withscore).eval atomically world).1 ↔
      ZerosInOrder scores := by
  cases state with
  | none =>
      obtain rfl := Value.ofScores_eq_none.mp held.symm
      rw [(ranksAgree_idle valid).whole]
      exact iff_of_true ⟨[], rfl, fun item mem => absurd mem List.not_mem_nil, List.Pairwise.nil⟩
        fun negative positive stored => by cases stored
  | some live =>
      obtain ⟨version, value⟩ := live
      obtain ⟨_, rfl⟩ := Value.ofScores_eq_some.mp held.symm
      have perm := zitems_perm keyed valid.represented
      have stored : ∀ item ∈ (world.db.zitems key.1 version).take (intLength scores).toNat,
          scores.get item.1 = some item.2 := fun item mem =>
        SortedMap.mem_entries.mp (perm.mem_iff.mp (List.mem_of_mem_take mem))
      have shown : rankWindow (intLength scores) (0 : Int64).toInt (-1 : Int64).toInt
          (Direction.forward.order (world.db.zitems key.1 version)) =
          (world.db.zitems key.1 version).take (intLength scores).toNat := rankWindow_whole _ _
      rw [← pairwise_take_iff (keyed.zitems_sorted key version) perm number, procZrange,
        eval_procZrangeGeneric keyed valid.represented number .forward]
      simp only [ListsByScore]
      rw [show (UInt64.ofNat scores.size).toUInt32.toInt32.toInt = intLength scores from rfl, shown]
      constructor
      · rintro ⟨items, same, stored', ordered⟩
        rwa [(keyScores_inj stored stored').mp (strings_inj.mp same)]
      · exact fun ordered => ⟨_, rfl, stored, ordered⟩

end Replies

/-- Without a positive zero the zeros are in order. -/
theorem procZrange_sorted_iff_sample :
    ListsByScore sampleFloat sampleScores false
      ((procZrange sampleFloat sampleKey.1 (str 0) (str (-1)) false).eval atomically
        sampleWorld).1 := by
  obtain ⟨keyed, state, valid, held⟩ := sampleWorld_valid
  refine (procZrange_sorted_iff keyed valid held sampleScores_number false).mpr ?_
  intro negative positive storedNegative
  rw [sampleScores, SortedMap.get_put] at storedNegative
  split_ifs at storedNegative
  · exact absurd (Option.some_inj.mp storedNegative) (by decide)
  · cases storedNegative

/-- A member with a negative zero comes first although its bytes are larger. -/
theorem procZrange_disorders :
    zerosWorld.db.WellKeyed ∧
      (∃ state, KeyValid zerosWorld.db.contents sampleKey state ∧
        state.map Prod.snd = Value.ofScores zerosScores) ∧
      ¬ListsByScore zerosFloat zerosScores false
        ((procZrange zerosFloat sampleKey.1 (str 0) (str (-1)) false).eval atomically
          zerosWorld).1 := by
  obtain ⟨keyed, valid⟩ := zerosWorld_valid
  refine ⟨keyed, valid, ?_⟩
  rintro ⟨items, reply, stored, ordered⟩
  have shown : ((procZrange zerosFloat sampleKey.1 (str 0) (str (-1)) false).eval atomically
      zerosWorld).1 = .strings [[98], [97]] := rfl
  have shownStored : ∀ item ∈ [([98], Double.negZero), ([97], (0 : Double))],
      zerosScores.get item.1 = some item.2 := by decide
  have listed : keyScores zerosFloat false [([98], Double.negZero), ([97], 0)] = [[98], [97]] := rfl
  rw [shown, strings_inj, ← listed, keyScores_inj shownStored stored] at reply
  rw [← reply] at ordered
  have before := (List.pairwise_cons.mp ordered).1 _ (List.mem_singleton.mpr rfl)
  rw [ScoreBefore] at before
  exact absurd before (by decide)

end Vcdb
