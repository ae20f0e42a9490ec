import Vcdb.Keyspace.Run
import Vcdb.Keyspace.ZsetCommand
import Vcdb.Storage.Score
import Vcdb.Storage.ScoreIndex

/-!
# Ranges by score

The members in a range of scores, in numeric order, against what the two range commands deliver.
Moving an inclusive upper bound by `1e-15` does not change a large one; the scan then ends, or
starts, among the members that have this score.  The index keeps the two zeros apart, while they
are equal as numbers.
-/

namespace Vcdb

/-- Moving a number by `1e-15` rounds to a neighbour or back to the number, zero is moved, and
numbers are printed with enough digits to be read back. -/
structure FloatUnit.Rounds (float : FloatUnit) : Prop where
  sub : ∀ x : Double, x.isNan = false →
    float.sub x .eps = x ∧ x.isZero = false ∨ (float.sub x .eps).lt x = true
  add : ∀ x : Double, x.isNan = false →
    float.add x .eps = x ∧ x.isZero = false ∨ x.lt (float.add x .eps) = true
  text : ∀ x : Double, x.isNan = false →
    float.str x ≠ [] ∧ float.bytesDouble (float.str x) = some x

/-- Numeric score, then member. -/
def scoreKey (item : Bytes × Double) : ℕ ×ₗ Bytes := toLex (item.2.rank, item.1)

namespace Zrangespec

def contains (range : Zrangespec) (score : Double) : Bool :=
  range.gteMin score && range.lteMax score

/-- The members whose score is in the range. -/
def members (range : Zrangespec) (scores : SortedMap Bytes Double) : List (Bytes × Double) :=
  scores.entries.filter fun item => range.contains item.2

/-- The members in the range by numeric score, and by bytes where scores are equal. -/
def ordered (range : Zrangespec) (scores : SortedMap Bytes Double) : List (Bytes × Double) :=
  (range.members scores).mergeSort fun left right => scoreKey left ≤ scoreKey right

/-- The slice of the members that is asked for, in either direction. -/
def answer (range : Zrangespec) (scores : SortedMap Bytes Double) (reverse : Bool) (offset : Nat)
    (limit : Int) : List (Bytes × Double) :=
  Ranking.slice offset limit
    (if reverse then (range.ordered scores).reverse else range.ordered scores)

variable (float : FloatUnit) (range : Zrangespec) (scores : SortedMap Bytes Double)

/-- A member under an inclusive upper bound that moving does not change: the forward scan delivers
only the empty one of them, the backward scan only the first. -/
def loses (reverse : Bool) (item : Bytes × Double) : Bool :=
  !range.maxex && float.add range.max .eps = range.max && item.2 = range.max &&
    if reverse then scores.entries.any fun other => other.2 = range.max && other.1 < item.1
    else !range.max.isInf && !item.1.isEmpty

/-- How many members are lost in front of those that are delivered. -/
def lostBefore (reverse : Bool) : Nat :=
  if reverse then (range.members scores).countP (range.loses float scores true) else 0

end Zrangespec

/-- How much later a member stands by number than in the index, which keeps the negative zero in
front of the positive one. -/
def displacement (items : List (Bytes × Double)) (item : Bytes × Double) : Int :=
  if item.2 = Double.negZero then
    items.countP fun other => other.2 = 0 && other.1 < item.1
  else if item.2 = 0 then
    -(items.countP fun other => other.2 = Double.negZero && item.1 < other.1 : Nat)
  else 0

/-- Every member of the slice is delivered, and moved in the index by as many places as members
are lost before it. -/
def Zrangespec.Undisturbed (float : FloatUnit) (range : Zrangespec)
    (scores : SortedMap Bytes Double) (reverse : Bool) (offset : Nat) (limit : Int) : Prop :=
  ∀ item ∈ range.answer scores reverse offset limit,
    range.loses float scores reverse item = false ∧
      displacement (range.members scores) item = range.lostBefore float scores reverse

section Loop

variable {starts continues : Double → Bool}

/-- The loop of a range by score shows a slice of the members that pass both tests. -/
theorem zrangeLoop_eq (items : List (Bytes × Double)) (offset : Nat) (limit : Int) :
    zrangeLoop starts continues items offset limit = Ranking.slice offset limit
      ((items.filter fun item => starts item.2).takeWhile fun item => continues item.2) := by
  induction items generalizing offset limit with
  | nil => rw [zrangeLoop, List.filter_nil, List.takeWhile_nil, Ranking.slice_nil]
  | cons item items ih =>
      rw [zrangeLoop, List.filter_cons]
      cases passes : starts item.2 with
      | false => exact ih offset limit
      | true =>
          simp only [Bool.not_true, Bool.false_eq_true, if_false, if_true, List.takeWhile_cons]
          cases stays : continues item.2 with
          | false => exact (Ranking.slice_nil offset limit).symm
          | true =>
              simp only [Bool.not_true, Bool.false_eq_true, if_false, if_true]
              cases offset with
              | zero =>
                  rw [if_pos Int.natCast_zero, Ranking.slice_zero_cons]
                  exact if_congr Iff.rfl rfl (congrArg (item :: ·) (ih 0 (limit - 1)))
              | succ offset =>
                  have counted : ((offset + 1 : Nat) : Int) - 1 = offset := by omega
                  rw [if_neg (by omega), counted, Ranking.slice_succ_cons]
                  exact ih offset limit

end Loop

section Bounds

variable {range : Zrangespec} {item : Bytes × Double} {low high : Double}

theorem indexFrom_iff :
    indexFrom low item = true ↔ (encodeScore low).toNat ≤ (encodeScore item.2).toNat := by
  rw [indexFrom, decide_eq_true_eq, ← not_lt, indexKey_lt_iff, not_or, not_and, not_lt]
  exact and_iff_left fun _ => List.not_lt_nil _

theorem indexBelow_iff :
    indexBelow high item = true ↔ (encodeScore item.2).toNat < (encodeScore high).toNat := by
  rw [indexBelow, decide_eq_true_eq, indexKey_lt_iff]
  exact or_iff_left fun same => List.not_lt_nil _ same.2

theorem indexUpTo_iff :
    indexUpTo high item = true ↔ (encodeScore item.2).toNat < (encodeScore high).toNat ∨
      item.2 = high ∧ item.1 = [] := by
  rw [indexUpTo, decide_eq_true_eq, le_iff_lt_or_eq, indexKey_lt_iff]
  constructor
  · rintro ((lt | ⟨_, lt⟩) | same)
    · exact Or.inl lt
    · exact absurd lt (List.not_lt_nil _)
    · obtain ⟨scores, members⟩ := Prod.mk.inj (toLex.injective same)
      exact Or.inr ⟨encodeScore_injective (UInt64.toNat_inj.mp scores), members⟩
  · rintro (lt | ⟨score, member⟩)
    · exact Or.inl (Or.inl lt)
    · exact Or.inr (by rw [indexKey, indexKey, score, member])

/-- Both bounds of a range are numbers. -/
structure Zrangespec.Numbers (range : Zrangespec) : Prop where
  min : range.min.isNan = false
  max : range.max.isNan = false

theorem zslParseBound_number {float : FloatUnit} {text : Bytes} {code : Int} {value : Double}
    {exclusive : Bool} (parsed : zslParseBound float text code = .ok (value, exclusive)) :
    value.isNan = false := by
  unfold zslParseBound at parsed
  generalize (if text.head? = some 40 then (true, text.tail) else (false, text)) = bound at parsed
  obtain ⟨exclusive', digits⟩ := bound
  change (if (float.strtod digits).1.isNan = true then _ else _) = _ at parsed
  split_ifs at parsed with nan
  · cases parsed
    exact Bool.eq_false_of_not_eq_true nan

theorem zslParseRange_numbers {float : FloatUnit} {min max : Bytes}
    (parsed : zslParseRange float min max = .ok range) : range.Numbers := by
  unfold zslParseRange at parsed
  cases lower : zslParseBound float min nanScore with
  | error code => rw [lower] at parsed; cases parsed
  | ok first =>
      cases upper : zslParseBound float max invalidMinMaxDbl with
      | error code => rw [lower, upper] at parsed; cases parsed
      | ok second =>
          rw [lower, upper] at parsed
          cases parsed
          exact ⟨zslParseBound_number lower, zslParseBound_number upper⟩

variable (numbers : range.Numbers) {score : Double} (number : score.isNan = false)

include numbers number

theorem Zrangespec.gteMin_iff : range.gteMin score = true ↔
    range.min.rank ≤ score.rank ∧ (range.minex = true → range.min.rank < score.rank) := by
  rw [gteMin]
  cases range.minex with
  | false => simp [Double.le_iff numbers.min number]
  | true => simpa [Double.lt_iff numbers.min number] using fun lt : _ < _ => lt.le

theorem Zrangespec.lteMax_iff : range.lteMax score = true ↔
    score.rank ≤ range.max.rank ∧ (range.maxex = true → score.rank < range.max.rank) := by
  rw [lteMax]
  cases range.maxex with
  | false => simp [Double.le_iff number numbers.max]
  | true => simpa [Double.lt_iff number numbers.max] using fun lt : _ < _ => lt.le

end Bounds

section Scan

variable {float : FloatUnit} {range : Zrangespec} {scores : SortedMap Bytes Double}
  {items : List (Bytes × Double)} {item : Bytes × Double}

/-- The scan starts no later than the range. -/
theorem indexFrom_of_contains (rounds : float.Rounds) (numbers : range.Numbers)
    (number : item.2.isNan = false) (inside : range.contains item.2 = true) :
    indexFrom (float.sub range.min .eps) item = true := by
  have above := ((range.gteMin_iff numbers number).mp (Bool.and_eq_true_iff.mp inside).1).1
  rw [indexFrom_iff]
  rcases rounds.sub range.min numbers.min with ⟨same, nonzero⟩ | lt
  · rw [same]
    exact Double.encodeScore_le_of_rank_le nonzero above
  · exact (Double.encodeScore_lt_of_rank_lt ((Double.rank_lt_of_lt lt).trans_le above)).le

/-- Below the upper bound, or at an inclusive one. -/
theorem lt_or_eq_of_contains (numbers : range.Numbers) (number : item.2.isNan = false)
    (nonzero : range.max.isZero = false) (inside : range.contains item.2 = true) :
    (encodeScore item.2).toNat < (encodeScore range.max).toNat ∧ item.2 ≠ range.max ∨
      range.maxex = false ∧ item.2 = range.max := by
  obtain ⟨le, exclusive⟩ :=
    (range.lteMax_iff numbers number).mp (Bool.and_eq_true_iff.mp inside).2
  rcases le.lt_or_eq with lt | same
  · refine Or.inl ⟨Double.encodeScore_lt_of_rank_lt lt, ?_⟩
    intro eq
    rw [eq] at lt
    exact lt_irrefl _ lt
  · right
    refine ⟨?_, (Double.eq_of_rank_eq nonzero same.symm).symm⟩
    cases closed : range.maxex with
    | false => rfl
    | true => exact absurd (exclusive closed) (by omega)

theorem add_ne_of_lt {x : Double} (lt : x.lt (float.add x .eps) = true) :
    float.add x .eps ≠ x := by
  intro same
  have below := Double.rank_lt_of_lt lt
  rw [same] at below
  exact lt_irrefl _ below

/-- The forward scan delivers what it does not lose. -/
theorem kept_forward (rounds : float.Rounds) (numbers : range.Numbers)
    (number : item.2.isNan = false) (inside : range.contains item.2 = true) :
    (indexFrom (float.sub range.min .eps) item &&
        indexUpTo (if range.max.isInf then Double.quietNan else float.add range.max .eps) item) =
      !range.loses float scores false item := by
  rw [indexFrom_of_contains rounds numbers number inside, Bool.true_and]
  simp only [Zrangespec.loses, Bool.false_eq_true, if_false]
  cases infinite : range.max.isInf with
  | true =>
      have reached : indexUpTo Double.quietNan item = true :=
        indexUpTo_iff.mpr (Or.inl (Double.encodeScore_between number).2)
      simpa using reached
  | false =>
      simp only [Bool.false_eq_true, if_false, Bool.not_false, Bool.true_and]
      rcases rounds.add range.max numbers.max with ⟨same, nonzero⟩ | lt
      · rw [same]
        rcases lt_or_eq_of_contains numbers number nonzero inside with ⟨lt, ne⟩ | ⟨closed, eq⟩
        · rw [indexUpTo_iff.mpr (Or.inl lt)]
          simp [ne]
        · have reached : indexUpTo range.max item = item.1.isEmpty := by
            rw [Bool.eq_iff_iff, indexUpTo_iff, eq, List.isEmpty_iff]
            simp
          simp [reached, closed, eq]
      · have above := Double.rank_lt_of_lt lt
        have le := ((range.lteMax_iff numbers number).mp (Bool.and_eq_true_iff.mp inside).2).1
        rw [indexUpTo_iff.mpr (Or.inl (Double.encodeScore_lt_of_rank_lt (le.trans_lt above)))]
        simp [add_ne_of_lt lt]

variable (sorted : items.Pairwise fun x y => indexKey x < indexKey y)
  (stored : ∀ item, item ∈ items ↔ scores.get item.1 = some item.2)
  (number : ∀ item ∈ items, item.2.isNan = false)

theorem rank_le_of_indexKey_lt {left right : Bytes × Double}
    (lt : indexKey left < indexKey right) : left.2.rank ≤ right.2.rank := by
  refine Double.rank_le_of_encodeScore_le ?_
  rcases indexKey_lt_iff.mp lt with below | ⟨same, _⟩
  · exact below.le
  · exact same.le

include sorted number

/-- Skipping to the lower bound and stopping behind the upper one leaves the members in range. -/
theorem takeWhile_lteMax (numbers : range.Numbers) :
    (items.filter fun item => range.gteMin item.2).takeWhile (fun item => range.lteMax item.2) =
      items.filter fun item => range.contains item.2 := by
  rw [Ranking.takeWhile_eq_filter, List.filter_filter]
  · exact List.filter_congr fun item _ => Bool.and_comm _ _
  · refine (sorted.filter _).imp_of_mem fun {left right} memLeft memRight lt passes => ?_
    have le := rank_le_of_indexKey_lt lt
    have numberLeft := number _ (List.mem_filter.mp memLeft).1
    have numberRight := number _ (List.mem_filter.mp memRight).1
    rw [range.lteMax_iff numbers numberRight] at passes
    rw [range.lteMax_iff numbers numberLeft]
    exact ⟨le.trans passes.1, fun exclusive => le.trans_lt (passes.2 exclusive)⟩

theorem takeWhile_gteMin (numbers : range.Numbers) :
    (items.reverse.filter fun item => range.lteMax item.2).takeWhile
        (fun item => range.gteMin item.2) =
      (items.filter fun item => range.contains item.2).reverse := by
  rw [Ranking.takeWhile_eq_filter, List.filter_filter, List.filter_reverse]
  · rfl
  · rw [List.filter_reverse, List.pairwise_reverse]
    refine (sorted.filter _).imp_of_mem fun {left right} memLeft memRight lt passes => ?_
    have le := rank_le_of_indexKey_lt lt
    have numberLeft := number _ (List.mem_filter.mp memLeft).1
    have numberRight := number _ (List.mem_filter.mp memRight).1
    rw [range.gteMin_iff numbers numberLeft] at passes
    rw [range.gteMin_iff numbers numberRight]
    exact ⟨passes.1.trans le, fun exclusive => (passes.2 exclusive).trans_le le⟩

omit number in
/-- What the backward scan runs through, read from its end. -/
theorem scanned_sorted (low high : Double) :
    ((items.filter fun item => indexFrom low item && indexBelow high item) ++
      ((items.filter fun item => item.2 = high).take 1).filter (indexFrom low)).Pairwise
        fun x y => indexKey x < indexKey y := by
  rw [List.pairwise_append]
  refine ⟨sorted.filter _, ((sorted.filter _).sublist (List.take_sublist _ _)).filter _, ?_⟩
  intro left memLeft right memRight
  have below := (Bool.and_eq_true_iff.mp (List.mem_filter.mp memLeft).2).2
  have score := (List.mem_filter.mp ((List.take_sublist _ _).mem (List.mem_filter.mp memRight).1)).2
  rw [decide_eq_true_eq] at score
  rw [indexBelow_iff, ← score] at below
  exact indexKey_lt_iff.mpr (Or.inl below)

include stored

omit sorted number in
theorem loses_reverse_iff (closed : range.maxex = false)
    (same : float.add range.max .eps = range.max) (score : item.2 = range.max) :
    range.loses float scores true item = true ↔
      ∃ other ∈ items, other.2 = range.max ∧ other.1 < item.1 := by
  simp only [Zrangespec.loses, closed, same, score, Bool.not_false, decide_true, Bool.true_and,
    if_true, List.any_eq_true, Bool.and_eq_true, decide_eq_true_eq, Prod.exists,
    SortedMap.mem_entries, stored]

omit sorted in
/-- A member in the range is below the position the scan starts from, or the first one there,
unless it is lost. -/
theorem kept_backward_at (rounds : float.Rounds) (numbers : range.Numbers) (mem : item ∈ items)
    (inside : range.contains item.2 = true) :
    (indexBelow (float.add range.max .eps) item = true ∨ item.2 = float.add range.max .eps ∧
        ∀ other ∈ items, other.2 = float.add range.max .eps → ¬indexKey other < indexKey item) ↔
      range.loses float scores true item = false := by
  have numeric := number item mem
  rcases rounds.add range.max numbers.max with ⟨same, nonzero⟩ | lt
  · rw [same]
    rcases lt_or_eq_of_contains numbers numeric nonzero inside with ⟨lt, ne⟩ | ⟨closed, eq⟩
    · refine iff_of_true (Or.inl (indexBelow_iff.mpr lt)) ?_
      simp [Zrangespec.loses, ne]
    · have notBelow : ¬indexBelow range.max item = true := by
        rw [indexBelow_iff, eq]
        exact lt_irrefl _
      rw [or_iff_right notBelow, and_iff_right eq, ← Bool.not_eq_true,
        loses_reverse_iff stored closed same eq]
      constructor
      · rintro first ⟨other, mem', score, less⟩
        refine first other mem' score (indexKey_lt_iff.mpr (Or.inr ⟨?_, less⟩))
        rw [score, eq]
      · intro none other mem' score less
        rcases indexKey_lt_iff.mp less with less | ⟨_, less⟩
        · rw [score, eq] at less
          exact lt_irrefl _ less
        · exact none ⟨other, mem', score, less⟩
  · have le := ((range.lteMax_iff numbers numeric).mp (Bool.and_eq_true_iff.mp inside).2).1
    have below := Double.encodeScore_lt_of_rank_lt (le.trans_lt (Double.rank_lt_of_lt lt))
    refine iff_of_true (Or.inl (indexBelow_iff.mpr below)) ?_
    simp [Zrangespec.loses, add_ne_of_lt lt]

/-- The backward scan delivers what it does not lose. -/
theorem kept_backward (rounds : float.Rounds) (numbers : range.Numbers) :
    (((items.filter fun item => indexFrom (float.sub range.min .eps) item &&
          indexBelow (float.add range.max .eps) item) ++
        ((items.filter fun item => item.2 = float.add range.max .eps).take 1).filter
          (indexFrom (float.sub range.min .eps))).filter fun item => range.contains item.2) =
      (items.filter fun item => range.contains item.2).filter
        fun item => !range.loses float scores true item := by
  refine Ranking.sorted_ext ((scanned_sorted sorted _ _).filter _)
    ((sorted.filter _).filter _) fun item => ?_
  simp only [List.mem_filter, List.mem_append, Ranking.mem_take_one_iff (sorted.filter _),
    Bool.and_eq_true, decide_eq_true_eq, Bool.not_eq_true', and_imp]
  constructor
  · rintro ⟨⟨mem, _, below⟩ | ⟨⟨⟨mem, score⟩, first⟩, _⟩, inside⟩
    · exact ⟨⟨mem, inside⟩,
        (kept_backward_at stored number rounds numbers mem inside).mp (Or.inl below)⟩
    · exact ⟨⟨mem, inside⟩,
        (kept_backward_at stored number rounds numbers mem inside).mp (Or.inr ⟨score, first⟩)⟩
  · rintro ⟨⟨mem, inside⟩, kept⟩
    have starts := indexFrom_of_contains rounds numbers (number item mem) inside
    refine ⟨?_, inside⟩
    rcases (kept_backward_at stored number rounds numbers mem inside).mpr kept with
      below | ⟨score, first⟩
    · exact Or.inl ⟨mem, starts, below⟩
    · exact Or.inr ⟨⟨⟨mem, score⟩, first⟩, starts⟩

end Scan

section Positions

variable {float : FloatUnit} {range : Zrangespec} {scores : SortedMap Bytes Double}
  {items : List (Bytes × Double)} {item : Bytes × Double}

theorem scoreKey_lt_iff {left right : Bytes × Double} :
    scoreKey left < scoreKey right ↔
      left.2.rank < right.2.rank ∨ left.2.rank = right.2.rank ∧ left.1 < right.1 :=
  Prod.Lex.toLex_lt_toLex

theorem rank_zero : Double.rank 0 = 2 ^ 63 := by decide

theorem rank_negZero : Double.rank Double.negZero = 2 ^ 63 := by decide

/-- A zero is one of the two; anything else is ordered by number as by its code. -/
theorem zero_or_nonzero (d : Double) : d = 0 ∨ d = Double.negZero ∨
    (d ≠ 0 ∧ d ≠ Double.negZero) ∧ d.rank = (encodeScore d).toNat ∧
      (encodeScore d).toNat ≠ 2 ^ 63 ∧ (encodeScore d).toNat + 1 ≠ 2 ^ 63 := by
  rcases Double.rank_cases d with ⟨zero, _⟩ | ⟨nonzero, codes⟩
  · rcases Double.isZero_iff.mp zero with same | same
    · exact Or.inl same
    · exact Or.inr (Or.inl same)
  · refine Or.inr (Or.inr ⟨⟨?_, ?_⟩, codes⟩)
    all_goals
      rintro rfl
      exact absurd nonzero (by decide)

theorem scoreKey_lt_negZero {other : Bytes × Double} (negative : item.2 = Double.negZero) :
    scoreKey other < scoreKey item ↔
      indexKey other < indexKey item ∨ other.2 = 0 ∧ other.1 < item.1 := by
  have zeroCode := Double.encodeScore_zero
  have negCode := Double.encodeScore_negZero
  have zeroRank := rank_zero
  have negRank := rank_negZero
  have apart : Double.negZero ≠ 0 := by decide
  rw [scoreKey_lt_iff, indexKey_lt_iff, negative]
  rcases zero_or_nonzero other.2 with zero | zero | ⟨⟨ne, _⟩, nonzero⟩
  · rw [zero]
    grind
  · rw [zero]
    grind
  · grind

theorem indexKey_lt_zero {other : Bytes × Double} (positive : item.2 = 0)
    (distinct : other.2 = Double.negZero → other.1 ≠ item.1) :
    indexKey other < indexKey item ↔
      scoreKey other < scoreKey item ∨ other.2 = Double.negZero ∧ item.1 < other.1 := by
  have zeroCode := Double.encodeScore_zero
  have negCode := Double.encodeScore_negZero
  have zeroRank := rank_zero
  have negRank := rank_negZero
  have apart : (0 : Double) ≠ Double.negZero := by decide
  rw [scoreKey_lt_iff, indexKey_lt_iff, positive]
  rcases zero_or_nonzero other.2 with zero | zero | ⟨⟨_, ne⟩, nonzero⟩
  · rw [zero]
    grind
  · rw [zero]
    rcases lt_trichotomy other.1 item.1 with lt | same | gt
    · grind
    · exact absurd same (distinct zero)
    · grind
  · grind

theorem scoreKey_lt_nonzero {other : Bytes × Double} (ne : item.2 ≠ 0)
    (ne' : item.2 ≠ Double.negZero) :
    scoreKey other < scoreKey item ↔ indexKey other < indexKey item := by
  have zeroCode := Double.encodeScore_zero
  have negCode := Double.encodeScore_negZero
  have zeroRank := rank_zero
  have negRank := rank_negZero
  rw [scoreKey_lt_iff, indexKey_lt_iff]
  rcases zero_or_nonzero item.2 with zero | zero | ⟨_, nonzero⟩
  · exact absurd zero ne
  · exact absurd zero ne'
  · rcases zero_or_nonzero other.2 with zero | zero | ⟨_, nonzero'⟩
    · rw [zero]
      grind
    · rw [zero]
      grind
    · grind

/-- The order by number and that of the index differ in where the zeros stand. -/
theorem rank_scoreKey (single : ∀ other ∈ items, other.1 = item.1 → other.2 = item.2) :
    (Ranking.rank scoreKey items item : Int) =
      Ranking.rank indexKey items item + displacement items item := by
  unfold displacement
  split_ifs with negative positive
  · rw [Ranking.rank, Ranking.countP_eq_add (q := fun other => indexKey other < indexKey item)
      (r := fun other => other.2 = 0 && other.1 < item.1)]
    · push_cast
      rfl
    · intro other _
      rw [Bool.eq_iff_iff, Bool.or_eq_true, Bool.and_eq_true]
      simp only [decide_eq_true_eq]
      refine ⟨scoreKey_lt_negZero negative, ?_⟩
      rintro ⟨below, zero, _⟩
      have codes := indexKey_lt_iff.mp below
      rw [negative, zero] at codes
      have := Double.encodeScore_zero
      have := Double.encodeScore_negZero
      omega
  · have split : Ranking.rank indexKey items item = Ranking.rank scoreKey items item +
        items.countP fun other => other.2 = Double.negZero && item.1 < other.1 := by
      refine Ranking.countP_eq_add fun other mem => ?_
      rw [Bool.eq_iff_iff, Bool.or_eq_true, Bool.and_eq_true]
      simp only [decide_eq_true_eq]
      refine ⟨indexKey_lt_zero positive fun zero same => ?_, ?_⟩
      · have scores := single other mem same
        rw [zero, positive] at scores
        exact absurd scores (by decide)
      · rintro ⟨below, zero, above⟩
        have ranks := scoreKey_lt_iff.mp below
        rw [positive, zero, rank_zero, rank_negZero] at ranks
        rcases ranks with lt | ⟨_, lt⟩
        · exact lt_irrefl _ lt
        · exact lt_asymm lt above
    omega
  · rw [Ranking.rank, Ranking.rank, add_zero]
    exact congrArg Nat.cast (List.countP_congr fun other _ => by
      simp only [decide_eq_true_eq]
      exact scoreKey_lt_nonzero positive negative)

variable (sorted : items.Pairwise fun x y => indexKey x < indexKey y)
  (stored : ∀ item, item ∈ items ↔ scores.get item.1 = some item.2)
  (number : ∀ item ∈ items, item.2.isNan = false)

theorem perm_members (nodup : items.Nodup)
    (stored : ∀ item, item ∈ items ↔ scores.get item.1 = some item.2) :
    (items.filter fun item => range.contains item.2).Perm (range.members scores) := by
  have entries : scores.entries.Nodup := List.Nodup.of_map Prod.fst scores.keys_nodup
  refine (List.Perm.filter _ ((List.perm_ext_iff_of_nodup nodup entries).mpr fun item => ?_))
  rw [stored, ← SortedMap.mem_entries]

theorem mem_members {item : Bytes × Double} : item ∈ range.members scores ↔
    scores.get item.1 = some item.2 ∧ range.contains item.2 = true := by
  rw [Zrangespec.members, List.mem_filter, ← SortedMap.mem_entries]

theorem ordered_perm : (range.ordered scores).Perm (range.members scores) :=
  List.mergeSort_perm _ _

/-- The members are listed strictly by number and bytes. -/
theorem ordered_sorted (range : Zrangespec) (scores : SortedMap Bytes Double) :
    (range.ordered scores).Pairwise fun x y => scoreKey x < scoreKey y := by
  have weak : (range.ordered scores).Pairwise fun x y => scoreKey x ≤ scoreKey y := by
    have merged := @List.pairwise_mergeSort _ (fun left right : Bytes × Double =>
        decide (scoreKey left ≤ scoreKey right))
      (fun a b c ab bc => decide_eq_true ((of_decide_eq_true ab).trans (of_decide_eq_true bc)))
      (fun a b => by simpa using le_total (scoreKey a) (scoreKey b)) (range.members scores)
    exact merged.imp of_decide_eq_true
  have names : ((range.ordered scores).map Prod.fst).Nodup :=
    (ordered_perm.map Prod.fst).nodup_iff.mpr
      ((List.filter_sublist.map Prod.fst).nodup scores.keys_nodup)
  have distinct : (range.ordered scores).Pairwise fun x y => x.1 ≠ y.1 :=
    List.pairwise_map.mp names
  refine (weak.and distinct).imp fun {x y} both => both.1.lt_of_ne fun same => both.2 ?_
  exact (Prod.mk.inj (toLex.injective same)).2

include number in
/-- What is lost stands behind everything that is not. -/
theorem loses_of_lt (rounds : float.Rounds) (numbers : range.Numbers) (reverse : Bool)
    (stored : ∀ item, item ∈ items ↔ scores.get item.1 = some item.2)
    {lost : Bytes × Double} (lostMem : lost ∈ items) (mem : item ∈ items)
    (inside : range.contains item.2 = true) (lt : indexKey lost < indexKey item)
    (loses : range.loses float scores reverse lost = true) :
    range.loses float scores reverse item = true := by
  simp only [Zrangespec.loses, Bool.and_eq_true, Bool.not_eq_true', decide_eq_true_eq] at loses ⊢
  obtain ⟨⟨⟨closed, same⟩, score⟩, behind⟩ := loses
  have nonzero : range.max.isZero = false := by
    rcases rounds.add range.max numbers.max with ⟨_, nonzero⟩ | lt
    · exact nonzero
    · exact absurd same (add_ne_of_lt lt)
  have le := ((range.lteMax_iff numbers (number item mem)).mp
    (Bool.and_eq_true_iff.mp inside).2).1
  have ge := rank_le_of_indexKey_lt lt
  rw [score] at ge
  have eq : item.2 = range.max := (Double.eq_of_rank_eq nonzero (le_antisymm ge le)).symm
  have less : lost.1 < item.1 := by
    rcases indexKey_lt_iff.mp lt with codes | ⟨_, less⟩
    · rw [score, eq] at codes
      exact absurd codes (lt_irrefl _)
    · exact less
  refine ⟨⟨⟨closed, same⟩, eq⟩, ?_⟩
  cases reverse with
  | true =>
      rw [if_pos rfl, List.any_eq_true]
      refine ⟨lost, SortedMap.mem_entries.mpr ((stored lost).mp lostMem), ?_⟩
      simp [score, less]
  | false =>
      simp only [Bool.false_eq_true, if_false, Bool.and_eq_true, Bool.not_eq_true'] at behind ⊢
      refine ⟨behind.1, ?_⟩
      cases named : item.1 with
      | nil =>
          rw [named] at less
          exact absurd less (List.not_lt_nil _)
      | cons first rest => rfl

theorem displacement_perm {xs ys : List (Bytes × Double)} (perm : xs.Perm ys)
    (item : Bytes × Double) : displacement xs item = displacement ys item := by
  simp only [displacement, perm.countP_eq]

/-- The delivered members, in the direction they are delivered in. -/
def delivered (float : FloatUnit) (range : Zrangespec) (scores : SortedMap Bytes Double)
    (items : List (Bytes × Double)) (reverse : Bool) : List (Bytes × Double) :=
  let kept := (items.filter fun item => range.contains item.2).filter
    fun item => !range.loses float scores reverse item
  if reverse then kept.reverse else kept

include sorted stored number

/-- A member of the answer is delivered at its place exactly when it is not lost and displaced by
as much as is lost before it. -/
theorem delivered_at (rounds : float.Rounds) (numbers : range.Numbers) (reverse : Bool) {n : Nat}
    (asked : (if reverse then (range.ordered scores).reverse
      else range.ordered scores)[n]? = some item) :
    (delivered float range scores items reverse)[n]? = some item ↔
      range.loses float scores reverse item = false ∧
        displacement (range.members scores) item = range.lostBefore float scores reverse := by
  have nodup : items.Nodup := sorted.imp fun lt => by
    rintro rfl
    exact lt_irrefl _ lt
  have members : (items.filter fun item => range.contains item.2).Perm (range.members scores) :=
    perm_members nodup stored
  have perm := ordered_perm.trans members.symm
  have mem : item ∈ items.filter fun item => range.contains item.2 := by
    refine perm.mem_iff.mp ?_
    have found := List.mem_of_getElem? asked
    split_ifs at found
    · exact List.mem_reverse.mp found
    · exact found
  have single : ∀ other ∈ items.filter fun item => range.contains item.2, other.1 = item.1 →
      other.2 = item.2 := by
    intro other mem' same
    have left := (stored other).mp (List.mem_filter.mp mem').1
    have right := (stored item).mp (List.mem_filter.mp mem).1
    rw [same, right] at left
    exact (Option.some_inj.mp left).symm
  have ranks := rank_scoreKey single
  rw [displacement_perm members, ← Ranking.rank_perm perm] at ranks
  have sortedF := sorted.filter fun item => range.contains item.2
  have sortedK := sortedF.filter fun item => !range.loses float scores reverse item
  have below : range.loses float scores reverse item = false →
      Ranking.rank indexKey ((items.filter fun item => range.contains item.2).filter
        fun item => !range.loses float scores reverse item) item =
      Ranking.rank indexKey (items.filter fun item => range.contains item.2) item := by
    intro kept
    refine Ranking.rank_filter fun other mem' lt => ?_
    rw [Bool.not_eq_true']
    refine Bool.eq_false_of_not_eq_true fun loses => ?_
    rw [loses_of_lt number rounds numbers reverse stored (List.mem_filter.mp mem').1
      (List.mem_filter.mp mem).1 (List.mem_filter.mp mem).2 lt loses] at kept
    exact Bool.noConfusion kept
  cases reverse with
  | false =>
      simp only [Bool.false_eq_true, if_false] at asked
      obtain ⟨_, place⟩ := (Ranking.getElem?_eq_some_iff_rank (ordered_sorted range scores)).mp asked
      simp only [delivered, Bool.false_eq_true, if_false]
      rw [Ranking.getElem?_eq_some_iff_rank sortedK, List.mem_filter, and_iff_right mem,
        Bool.not_eq_true', Zrangespec.lostBefore, if_neg Bool.false_ne_true]
      refine and_congr_right fun kept => ?_
      rw [below kept]
      omega
  | true =>
      simp only [if_true] at asked
      obtain ⟨_, place⟩ :=
        (Ranking.getElem?_reverse_eq_some_iff_rank (ordered_sorted range scores)).mp asked
      simp only [delivered, if_true]
      rw [Ranking.getElem?_reverse_eq_some_iff_rank sortedK, List.mem_filter, and_iff_right mem,
        Bool.not_eq_true', Zrangespec.lostBefore, if_pos rfl]
      refine and_congr_right fun kept => ?_
      have counted := List.length_eq_countP_add_countP (range.loses float scores true)
        (l := items.filter fun item => range.contains item.2)
      have keptCount : (List.countP (fun item => decide ¬range.loses float scores true item = true)
          (items.filter fun item => range.contains item.2)) =
          ((items.filter fun item => range.contains item.2).filter
            fun item => !range.loses float scores true item).length := by
        rw [List.countP_eq_length_filter]
        simp
      rw [keptCount, members.countP_eq] at counted
      rw [perm.length_eq] at place
      rw [below kept]
      omega

/-- The slice that is delivered is the one that is asked for exactly when the answer is
undisturbed. -/
theorem slice_delivered_iff (rounds : float.Rounds) (numbers : range.Numbers) (reverse : Bool)
    (offset : Nat) (limit : Int) :
    Ranking.slice offset limit (delivered float range scores items reverse) =
        range.answer scores reverse offset limit ↔
      range.Undisturbed float scores reverse offset limit := by
  have nodup : items.Nodup := sorted.imp fun lt => by
    rintro rfl
    exact lt_irrefl _ lt
  have perm : (items.filter fun item => range.contains item.2).Perm (range.ordered scores) :=
    (perm_members nodup stored).trans ordered_perm.symm
  have le : (delivered float range scores items reverse).length ≤
      (if reverse then (range.ordered scores).reverse else range.ordered scores).length := by
    have kept := List.length_filter_le (fun item => !range.loses float scores reverse item)
      (items.filter fun item => range.contains item.2)
    rw [perm.length_eq] at kept
    cases reverse <;> simpa [delivered] using kept
  rw [Zrangespec.answer, Ranking.slice_eq_slice_iff le]
  constructor
  · intro agree item mem
    obtain ⟨n, window, found⟩ := Ranking.mem_slice.mp mem
    exact (delivered_at sorted stored number rounds numbers reverse found).mp
      (agree n item window found)
  · intro undisturbed n item window found
    exact (delivered_at sorted stored number rounds numbers reverse found).mpr
      (undisturbed item (Ranking.mem_slice.mpr ⟨n, window, found⟩))

end Positions

section Replies

variable {world : World} {key : UserKey} {scores : SortedMap Bytes Double}

theorem eval_zsetSnapshot_idle (valid : KeyValid world.db.contents key none) :
    ∃ zv, (zsetSnapshot key.1).eval atomically world = ((0, zv, ∅), world) := by
  obtain ⟨zv, readMeta, _⟩ := eval_getMetaVal_idle DataType.zsize DataType.zsize valid
  refine ⟨zv, ?_⟩
  simp only [zsetSnapshot, eval_recordKeyLock, Program.eval_bind, getZsetMetaVal, readMeta]
  rfl

theorem eval_zsetSnapshot_live {version : UInt16}
    (live : world.db.contents.LiveAs key version (.zset scores)) :
    (zsetSnapshot key.1).eval atomically world =
      ((1, ⟨DataType.zsize, keyEnabledMask, version, UInt64.ofNat scores.size⟩, world.db),
        world) := by
  have readMeta := @eval_getMetaVal_live _ _ _ _ DataType.zsize _ (Or.inr (Or.inr rfl)) live.2.2.1
  simp only [zsetSnapshot, eval_recordKeyLock, Program.eval_bind, getZsetMetaVal, readMeta]
  rfl

/-- The index of a live sorted set lists its scores. -/
theorem mem_zitems_iff (keyed : world.db.WellKeyed) {version : UInt16}
    (live : world.db.contents.LiveAs key version (.zset scores)) (item : Bytes × Double) :
    item ∈ world.db.zitems key.1 version ↔ scores.get item.1 = some item.2 := by
  obtain ⟨_, _, _, _, index⟩ := live
  rw [show item = (item.1, item.2) from rfl, keyed.mem_zitems, index]
  split_ifs with same <;> simp [same]

theorem FloatUnit.Rounds.double_str {float : FloatUnit} (rounds : float.Rounds) {d : Double}
    (number : d.isNan = false) (extreme : Double) :
    (if (float.str d).isEmpty then extreme else float.double (float.str d)) = d := by
  obtain ⟨nonempty, parses⟩ := rounds.text d number
  rw [if_neg (by simpa using nonempty), FloatUnit.double, parses, Option.getD_some]

theorem FloatUnit.Rounds.isNan_add {float : FloatUnit} (rounds : float.Rounds) {d : Double}
    (number : d.isNan = false) : (float.add d .eps).isNan = false := by
  rcases rounds.add d number with ⟨same, _⟩ | lt
  · rw [same]
    exact number
  · exact (Double.numbers_of_lt lt).2

theorem FloatUnit.Rounds.isNan_sub {float : FloatUnit} (rounds : float.Rounds) {d : Double}
    (number : d.isNan = false) : (float.sub d .eps).isNan = false := by
  rcases rounds.sub d number with ⟨same, _⟩ | lt
  · rw [same]
    exact number
  · exact (Double.numbers_of_lt lt).1

variable {float : FloatUnit} {range : Zrangespec}

/-- What the two scans deliver, cut down by their loops. -/
theorem scan_delivered (rounds : float.Rounds) (numbers : range.Numbers)
    (keyed : world.db.WellKeyed) {version : UInt16}
    (live : world.db.contents.LiveAs key version (.zset scores))
    (number : ∀ member score, scores.get member = some score → score.isNan = false)
    (offset : Nat) (limit : Int) :
    zrangeLoop range.gteMin range.lteMax
        (ZIterator.items key.1 version (zscanInternal float world.db key.1
          (float.str (float.sub range.min .eps))
          (if range.max.isInf then [] else float.str (float.add range.max .eps)) none .forward
          version)) offset limit =
        Ranking.slice offset limit
          (delivered float range scores (world.db.zitems key.1 version) false) ∧
      zrangeLoop range.lteMax range.gteMin
        (ZIterator.items key.1 version (zscanInternal float world.db key.1
          (float.str (float.add range.max .eps)) (float.str (float.sub range.min .eps)) none
          .backward version)) offset limit =
        Ranking.slice offset limit
          (delivered float range scores (world.db.zitems key.1 version) true) := by
  have stored := mem_zitems_iff keyed live
  have sorted := keyed.zitems_sorted key version
  have numeric : ∀ item ∈ world.db.zitems key.1 version, item.2.isNan = false :=
    fun item mem => number _ _ ((stored item).mp mem)
  have low := rounds.double_str (rounds.isNan_sub numbers.min) Double.negQuietNan
  have high := rounds.double_str (rounds.isNan_add numbers.max) Double.quietNan
  constructor
  · have stop : (if (if range.max.isInf then [] else float.str (float.add range.max .eps)).isEmpty
        then Double.quietNan
        else float.double (if range.max.isInf then [] else
          float.str (float.add range.max .eps))) =
        if range.max.isInf then Double.quietNan else float.add range.max .eps := by
      cases range.max.isInf with
      | true => rfl
      | false => exact high
    rw [zrangeLoop_eq, keyed.items_forward, low, stop,
      takeWhile_lteMax (sorted.filter _) (fun item mem => numeric item (List.mem_filter.mp mem).1)
        numbers]
    refine congrArg (Ranking.slice offset limit) ?_
    simp only [delivered, Bool.false_eq_true, if_false]
    rw [List.filter_filter, List.filter_filter]
    refine List.filter_congr fun item mem => ?_
    cases inside : range.contains item.2 with
    | false => simp
    | true =>
        rw [Bool.true_and, Bool.and_true]
        exact kept_forward rounds numbers (numeric item mem) inside
  · rw [zrangeLoop_eq, keyed.items_backward float _ _ high low]
    have scanned := scanned_sorted sorted (float.sub range.min .eps) (float.add range.max .eps)
    have reversed : ∀ front back : List (Bytes × Double), front.length ≤ 1 →
        front ++ back.reverse = (back ++ front).reverse := by
      intro front back short
      rw [List.reverse_append]
      match front, short with
      | [], _ => rfl
      | [single], _ => rfl
    rw [reversed _ _ ((List.length_filter_le _ _).trans (List.length_take_le _ _)),
      takeWhile_gteMin scanned _ numbers, kept_backward sorted stored numeric rounds numbers]
    · simp only [delivered, if_true]
    · intro item mem
      rcases List.mem_append.mp mem with mem | mem
      · exact numeric item (List.mem_filter.mp mem).1
      · exact numeric item (List.mem_filter.mp
          ((List.take_sublist _ _).mem (List.mem_filter.mp mem).1)).1

/-- Lists of stored members are shown differently when they are different. -/
theorem keyScores_inj {withscores : Bool} {left right : List (Bytes × Double)}
    (storedLeft : ∀ item ∈ left, scores.get item.1 = some item.2)
    (storedRight : ∀ item ∈ right, scores.get item.1 = some item.2) :
    keyScores float withscores left = keyScores float withscores right ↔ left = right := by
  refine ⟨fun same => ?_, fun same => by rw [same]⟩
  -- The members alone decide the scores.
  have names : left.map Prod.fst = right.map Prod.fst := by
    clear storedLeft storedRight
    induction left generalizing right with
    | nil =>
        cases right with
        | nil => rfl
        | cons item right => cases withscores <;> simp [keyScores] at same
    | cons item left ih =>
        cases right with
        | nil => cases withscores <;> simp [keyScores] at same
        | cons item' right =>
            cases withscores with
            | false =>
                simp only [keyScores, Bool.false_eq_true, if_false, List.flatMap_cons,
                  List.singleton_append, List.cons.injEq] at same ih
                rw [List.map_cons, List.map_cons, same.1, ih same.2]
            | true =>
                simp only [keyScores, if_true, List.flatMap_cons, List.cons_append,
                  List.nil_append, List.cons.injEq] at same ih
                rw [List.map_cons, List.map_cons, same.1, ih same.2.2]
  have rebuild : ∀ items : List (Bytes × Double),
      (∀ item ∈ items, scores.get item.1 = some item.2) →
      (items.map Prod.fst).filterMap (fun name => (scores.get name).map (name, ·)) = items := by
    intro items stored
    rw [List.filterMap_map, List.filterMap_congr (g := some), List.filterMap_some]
    intro item mem
    rw [Function.comp_apply, stored item mem]
    rfl
  rw [← rebuild left storedLeft, names, rebuild right storedRight]

/-- The members behind a slice are stored. -/
theorem stored_of_mem_slice {items : List (Bytes × Double)} {offset : Nat} {limit : Int}
    (stored : ∀ item ∈ items, scores.get item.1 = some item.2) :
    ∀ item ∈ Ranking.slice offset limit items, scores.get item.1 = some item.2 := by
  intro item mem
  obtain ⟨n, _, found⟩ := Ranking.mem_slice.mp mem
  exact stored item (List.mem_of_getElem? found)

/-- A range command shows the slice of what its scan delivers. -/
theorem eval_procZrangebyscore (rounds : float.Rounds) (keyed : world.db.WellKeyed)
    {version : UInt16} (live : world.db.contents.LiveAs key version (.zset scores))
    (number : ∀ member score, scores.get member = some score → score.isNan = false)
    {min max : Bytes} (parsed : zslParseRange float min max = .ok range) (withscores : Bool)
    (limits : Option (Int64 × Int64)) (reverse : Bool) {offset : Nat}
    (natural : (limits.getD (0, -1)).1.toInt = offset) :
    ((procZrangebyscoreGeneric float key.1 (if reverse then max else min)
        (if reverse then min else max) withscores limits reverse).eval atomically world).1 =
      .strings (keyScores float withscores (Ranking.slice offset
        (limits.getD (0, -1)).2.toInt
        (delivered float range scores (world.db.zitems key.1 version) reverse))) := by
  obtain ⟨forward, backward⟩ := scan_delivered rounds (zslParseRange_numbers parsed) keyed live
    number offset (limits.getD (0, -1)).2.toInt
  have readMeta := eval_zsetSnapshot_live live
  have positive : ¬(1 : Int) ≤ 0 := by omega
  have nonneg : ¬(1 : Int) < 0 := by omega
  cases reverse with
  | false =>
      simp only [procZrangebyscoreGeneric, genericZrangebyscore, Bool.false_eq_true, if_false,
        parsed, Program.eval_bind, readMeta, if_neg positive, natural, forward,
        Program.pure_eq_done, Program.eval_done, if_neg nonneg]
  | true =>
      simp only [procZrangebyscoreGeneric, genericZrangebyscore, if_true, parsed,
        Program.eval_bind, readMeta, if_neg positive, natural, backward, Program.pure_eq_done,
        Program.eval_done, if_neg nonneg]

/-- A range command on a key that does not exist shows nothing. -/
theorem eval_procZrangebyscore_idle (valid : KeyValid world.db.contents key none)
    {min max : Bytes} (parsed : zslParseRange float min max = .ok range) (withscores : Bool)
    (limits : Option (Int64 × Int64)) (reverse : Bool) :
    ((procZrangebyscoreGeneric float key.1 (if reverse then max else min)
        (if reverse then min else max) withscores limits reverse).eval atomically world).1 =
      .strings [] := by
  obtain ⟨zv, readMeta⟩ := eval_zsetSnapshot_idle valid
  cases reverse with
  | false =>
      simp only [procZrangebyscoreGeneric, genericZrangebyscore, Bool.false_eq_true, if_false,
        parsed, Program.eval_bind, readMeta, le_refl, if_true, Program.pure_eq_done,
        Program.eval_done, lt_irrefl]
  | true =>
      simp only [procZrangebyscoreGeneric, genericZrangebyscore, if_true, parsed,
        Program.eval_bind, readMeta, le_refl, Program.pure_eq_done, Program.eval_done, lt_irrefl,
        if_false]

/-- A range command answers with the slice it is asked for exactly when the slice is
undisturbed. -/
theorem procZrangebyscore_iff (rounds : float.Rounds) (keyed : world.db.WellKeyed)
    {state : Option (UInt16 × Value)} (valid : KeyValid world.db.contents key state)
    (held : state.map Prod.snd = Value.ofScores scores)
    (number : ∀ member score, scores.get member = some score → score.isNan = false)
    {min max : Bytes} (parsed : zslParseRange float min max = .ok range) (withscores : Bool)
    (limits : Option (Int64 × Int64)) (reverse : Bool) {offset : Nat}
    (natural : (limits.getD (0, -1)).1.toInt = offset) :
    ((procZrangebyscoreGeneric float key.1 (if reverse then max else min)
        (if reverse then min else max) withscores limits reverse).eval atomically world).1 =
        .strings (keyScores float withscores
          (range.answer scores reverse offset (limits.getD (0, -1)).2.toInt)) ↔
      range.Undisturbed float scores reverse offset (limits.getD (0, -1)).2.toInt := by
  cases state with
  | none =>
      obtain rfl := Value.ofScores_eq_none.mp held.symm
      have nothing : range.answer ∅ reverse offset (limits.getD (0, -1)).2.toInt = [] := by
        have none : range.ordered ∅ = [] := by
          simp [Zrangespec.ordered, Zrangespec.members]
        cases reverse <;> simp [Zrangespec.answer, none]
      rw [eval_procZrangebyscore_idle valid parsed, Zrangespec.Undisturbed, nothing]
      exact iff_of_true rfl fun item mem => absurd mem List.not_mem_nil
  | some live =>
      obtain ⟨version, value⟩ := live
      obtain ⟨_, rfl⟩ := Value.ofScores_eq_some.mp held.symm
      have stored := mem_zitems_iff keyed valid.represented
      have sorted := keyed.zitems_sorted key version
      have numeric : ∀ item ∈ world.db.zitems key.1 version, item.2.isNan = false :=
        fun item mem => number _ _ ((stored item).mp mem)
      rw [eval_procZrangebyscore rounds keyed valid.represented number parsed withscores limits
        reverse natural, strings_inj, @keyScores_inj scores]
      · exact slice_delivered_iff sorted stored numeric rounds (zslParseRange_numbers parsed)
          reverse offset _
      · refine stored_of_mem_slice fun item mem => (stored item).mp ?_
        cases reverse with
        | false => exact (List.mem_filter.mp (List.mem_filter.mp mem).1).1
        | true =>
            exact (List.mem_filter.mp (List.mem_filter.mp (List.mem_reverse.mp mem)).1).1
      · refine stored_of_mem_slice fun item mem => ?_
        have asked : item ∈ range.ordered scores := by
          cases reverse with
          | false => exact mem
          | true => exact List.mem_reverse.mp mem
        exact (mem_members.mp (ordered_perm.mem_iff.mp asked)).1

end Replies

section Sample

/-- The double `16.0`, which `1e-15` does not move. -/
def sixteen : Double := 0x4030000000000000

def minusInf : Double := 0xFFF0000000000000

/-- Arithmetic in which only zero is moved, with decimal texts for two numbers. -/
def sampleFloat : FloatUnit where
  add x y := if x.isZero then y else x
  sub x y := if x.isZero then y ^^^ signBit else x
  str x :=
    if x = sixteen then [49, 54] else if x = minusInf then [45, 105, 110, 102] else be64 x
  bytesDouble text :=
    if text = [49, 54] then some sixteen
    else if text = [45, 105, 110, 102] then some minusInf
    else (Decoder.readUint64 text).map Prod.fst
  strtod text :=
    if text = [49, 54] then (sixteen, [])
    else if text = [45, 105, 110, 102] then (minusInf, [])
    else (0, text)

theorem sampleFloat_rounds : sampleFloat.Rounds where
  sub x _ := by
    cases zero : x.isZero with
    | false => exact Or.inl ⟨if_neg (by simp [zero]), rfl⟩
    | true =>
        right
        rcases Double.isZero_iff.mp zero with rfl | rfl <;> decide
  add x _ := by
    cases zero : x.isZero with
    | false => exact Or.inl ⟨if_neg (by simp [zero]), rfl⟩
    | true =>
        right
        rcases Double.isZero_iff.mp zero with rfl | rfl <;> decide
  text x _ := by
    have long : ∀ text : Bytes, text.length ≠ 8 → be64 x ≠ text := by
      rintro text short rfl
      exact short (Decoder.length_be64 x)
    by_cases isSixteen : x = sixteen
    · exact isSixteen ▸ ⟨List.cons_ne_nil _ _, rfl⟩
    · by_cases isMinusInf : x = minusInf
      · exact isMinusInf ▸ ⟨List.cons_ne_nil _ _, rfl⟩
      · have printed : sampleFloat.str x = be64 x :=
          (if_neg isSixteen).trans (if_neg isMinusInf)
        have read : sampleFloat.bytesDouble (be64 x) =
            (Decoder.readUint64 (be64 x ++ [])).map Prod.fst := by
          rw [List.append_nil]
          exact (if_neg (long _ (by decide))).trans (if_neg (long _ (by decide)))
        rw [printed, read, Decoder.readUint64_be64]
        exact ⟨long [] (by decide), rfl⟩

/-- The key of the sample, and a sorted set of one member under it. -/
def sampleKey : UserKey := ⟨[107], by decide⟩

def sampleScores : SortedMap Bytes Double := SortedMap.put ∅ [97] sixteen

/-- What `ZADD k 16 a` leaves. -/
def sampleWorld : World :=
  ((procZadd sampleFloat sampleKey.1 {} [([97], [49, 54])]).eval atomically
    emptyServer.world).2

/-- What `ZADD k` leaves on an empty server. -/
theorem zadd_leaves {float : FloatUnit} {element : Bytes × Bytes} {more : List (Bytes × Bytes)}
    {reply : Reply} {scores : SortedMap Bytes Double}
    (denotes : ZsetCommand.denoteZadd float {} ∅ (element :: more) = (reply, scores))
    (small : scores.size < 2 ^ 64) {world : World}
    (run : ((procZadd float sampleKey.1 {} (element :: more)).eval atomically
      emptyServer.world).2 = world) :
    world.db.WellKeyed ∧ ∃ state, KeyValid world.db.contents sampleKey state ∧
      state.map Prod.snd = Value.ofScores scores := by
  have holds : emptyServer.Holds fun _ => none := Server.holds_initial _ _ _ _
  obtain ⟨state, valid, value⟩ := holds.represents sampleKey
  obtain rfl : state = none := Option.map_eq_none_iff.mp value
  have responds : ∀ {outcome},
      (ZsetCommand.zadd sampleKey.1 {} (element :: more)).Responds float none outcome →
        outcome.2 = Value.ofScores scores := by
    rintro outcome ⟨after, same, left⟩
    rw [left, show after = scores from congrArg Prod.snd (same.trans denotes)]
  obtain ⟨outcome, meaning, refines⟩ := ZsetCommand.refines valid
    (rfl : (ZsetCommand.zadd sampleKey.1 {} (element :: more)).key = sampleKey.1)
    (fun _ _ => rfl) fun reply scores' held => by
      have same := responds held
      unfold Value.ofScores at same
      split_ifs at same
      cases same
      exact small
  obtain ⟨_, holds'⟩ := holds.client_step refines
  subst run
  obtain ⟨state, valid, value⟩ := holds'.represents sampleKey
  refine ⟨holds'.keyed, state, valid, ?_⟩
  rw [value, Function.update_self, responds meaning]

/-- `ZADD k 16` with any member on an empty server. -/
theorem zadd_valid (member : Bytes) {world : World}
    (run : ((procZadd sampleFloat sampleKey.1 {} [(member, [49, 54])]).eval atomically
      emptyServer.world).2 = world) :
    world.db.WellKeyed ∧ ∃ state, KeyValid world.db.contents sampleKey state ∧
      state.map Prod.snd = Value.ofScores (SortedMap.put ∅ member sixteen) :=
  zadd_leaves rfl (Nat.one_lt_two_pow (by decide)) run

theorem sampleWorld_valid : sampleWorld.db.WellKeyed ∧
    ∃ state, KeyValid sampleWorld.db.contents sampleKey state ∧
      state.map Prod.snd = Value.ofScores sampleScores := zadd_valid [97] rfl

/-- From minus infinity up to 16. -/
def sampleRange : Zrangespec := ⟨minusInf, sixteen, false, false⟩

theorem sampleScores_number (member : Bytes) (score : Double)
    (stored : sampleScores.get member = some score) : score.isNan = false := by
  rw [sampleScores, SortedMap.get_put] at stored
  split_ifs at stored
  · cases stored
    decide
  · cases stored

theorem sampleRange_answer (reverse : Bool) :
    sampleRange.answer sampleScores reverse 0 (-1) = [([97], sixteen)] := by
  have single : sampleRange.ordered sampleScores = [([97], sixteen)] := by
    rw [Zrangespec.ordered, show sampleRange.members sampleScores = [([97], sixteen)] from rfl,
      List.mergeSort_singleton]
  cases reverse <;> rw [Zrangespec.answer, single] <;> rfl

/-- Downwards the member is shown. -/
theorem procZrangebyscore_iff_sample :
    ((procZrangebyscoreGeneric sampleFloat sampleKey.1 [49, 54] [45, 105, 110, 102] false none
      true).eval atomically sampleWorld).1 = .strings [[97]] := by
  obtain ⟨keyed, state, valid, held⟩ := sampleWorld_valid
  have parsed : zslParseRange sampleFloat [45, 105, 110, 102] [49, 54] = .ok sampleRange := rfl
  have natural : ((none : Option (Int64 × Int64)).getD (0, -1)).1.toInt = (0 : Nat) := rfl
  have shown := (procZrangebyscore_iff sampleFloat_rounds keyed valid held sampleScores_number
    parsed false none true natural).mpr
  rw [show ((none : Option (Int64 × Int64)).getD (0, -1)).2.toInt = -1 from rfl,
    sampleRange_answer] at shown
  refine shown fun item mem => ?_
  rw [sampleRange_answer] at mem
  obtain rfl := List.mem_singleton.mp mem
  decide

/-- Upwards it is not, although its score is in the range. -/
theorem procZrangebyscore_drops :
    sampleFloat.Rounds ∧ sampleWorld.db.WellKeyed ∧
      (∃ state, KeyValid sampleWorld.db.contents sampleKey state ∧
        state.map Prod.snd = Value.ofScores sampleScores) ∧
      zslParseRange sampleFloat [45, 105, 110, 102] [49, 54] = .ok sampleRange ∧
      ((procZrangebyscore sampleFloat sampleKey.1 [45, 105, 110, 102] [49, 54] false
        none).eval atomically sampleWorld).1 ≠
        .strings (keyScores sampleFloat false (sampleRange.answer sampleScores false 0 (-1))) := by
  obtain ⟨keyed, valid⟩ := sampleWorld_valid
  refine ⟨sampleFloat_rounds, keyed, valid, rfl, ?_⟩
  rw [sampleRange_answer]
  have nothing : ((procZrangebyscore sampleFloat sampleKey.1 [45, 105, 110, 102] [49, 54] false
      none).eval atomically sampleWorld).1 = .strings [] := rfl
  rw [nothing]
  decide

end Sample

end Vcdb
