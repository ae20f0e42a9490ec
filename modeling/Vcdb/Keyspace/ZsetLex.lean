import Vcdb.Keyspace.ZsetScore

/-!
# Ranges of members

Members are ordered like byte strings, and a range has two bounds, each of which may be missing,
closed or open.  The bounds reach the code as texts, of which it keeps the member and whether it is
left out; a missing bound and the empty member look alike there.
-/

namespace Vcdb

/-- A bound of a range of members. -/
inductive LexBound
  | negInf
  | posInf
  | incl (member : Bytes)
  | excl (member : Bytes)
deriving DecidableEq

namespace LexBound

def text : LexBound → Bytes
  | negInf => [45]
  | posInf => [43]
  | incl member => 91 :: member
  | excl member => 40 :: member

/-- What a text stands for. -/
def parse (text : Bytes) : Option LexBound :=
  if text = [45] then some negInf
  else if text = [43] then some posInf
  else if text.head? = some 91 then some (incl text.tail)
  else if text.head? = some 40 then some (excl text.tail)
  else none

/-- Members that are not below a lower bound. -/
def admitsAbove : LexBound → Bytes → Bool
  | negInf, _ => true
  | posInf, _ => false
  | incl bound, member => bound ≤ member
  | excl bound, member => bound < member

/-- Members that are not above an upper bound. -/
def admitsBelow : LexBound → Bytes → Bool
  | negInf, _ => false
  | posInf, _ => true
  | incl bound, member => member ≤ bound
  | excl bound, member => member < bound

/-- The members between two bounds, in byte order. -/
def members (low high : LexBound) (scores : SortedMap Bytes Double) : List Bytes :=
  scores.keys.filter fun member => low.admitsAbove member && high.admitsBelow member

/-- What the code keeps of a bound. -/
def kept : LexBound → Bytes × Bool
  | negInf | posInf => ([], false)
  | incl member => (member, false)
  | excl member => (member, true)

def range (low high : LexBound) : Zlexrangespec :=
  ⟨low.kept.1, high.kept.1, low.kept.2, high.kept.2⟩

theorem parse_eq_some {text : Bytes} {bound : LexBound} :
    parse text = some bound ↔ text = bound.text := by
  constructor
  · intro parsed
    rw [parse] at parsed
    split_ifs at parsed with minus plus bracket parenthesis
    · cases parsed
      exact minus
    · cases parsed
      exact plus
    · cases parsed
      exact List.eq_cons_of_mem_head? bracket
    · cases parsed
      exact List.eq_cons_of_mem_head? parenthesis
  · rintro rfl
    cases bound <;> simp [parse, LexBound.text]

theorem zslParseLexRangeItem_text (bound : LexBound) :
    zslParseLexRangeItem bound.text = .ok bound.kept := by
  cases bound <;> rfl

theorem zslParseLexRange_text (low high : LexBound) :
    zslParseLexRange low.text high.text = .ok (range low high) := by
  rw [zslParseLexRange, zslParseLexRangeItem_text, zslParseLexRangeItem_text]
  rfl

end LexBound

/-- A sign with a null byte behind it. -/
def padded (text : Bytes) : Bool :=
  (text.head? = some 43 || text.head? = some 45) && text.tail.head? = some 0

theorem LexBound.padded_text (bound : LexBound) : padded bound.text = false := by
  cases bound <;> simp [padded, text]

/-- Texts that are accepted stand for a bound, or are a padded sign. -/
theorem parse_or_padded {text : Bytes} {kept : Bytes × Bool}
    (accepted : zslParseLexRangeItem text = .ok kept) (plain : padded text = false) :
    ∃ bound, LexBound.parse text = some bound := by
  cases text with
  | nil => cases accepted
  | cons first rest =>
      rw [zslParseLexRangeItem] at accepted
      split_ifs at accepted with sign follows parenthesis bracket
      · cases rest with
        | nil =>
            rcases sign with rfl | rfl
            · exact ⟨.posInf, rfl⟩
            · exact ⟨.negInf, rfl⟩
        | cons second rest =>
            have null : second = 0 := by simpa using follows
            rcases sign with rfl | rfl <;> simp [padded, null] at plain
      · exact ⟨.excl rest, LexBound.parse_eq_some.mpr (by rw [parenthesis]; rfl)⟩
      · exact ⟨.incl rest, LexBound.parse_eq_some.mpr (by rw [bracket]; rfl)⟩

theorem accepted_of_ok {min max : Bytes} {range : Zlexrangespec}
    (parsed : zslParseLexRange min max = .ok range) :
    ∃ first last, zslParseLexRangeItem min = .ok first ∧ zslParseLexRangeItem max = .ok last := by
  rw [zslParseLexRange] at parsed
  cases first : zslParseLexRangeItem min with
  | error fault =>
      rw [first] at parsed
      cases parsed
  | ok low =>
      cases last : zslParseLexRangeItem max with
      | error fault =>
          rw [first, last] at parsed
          cases parsed
      | ok high => exact ⟨low, high, rfl, rfl⟩

/-! ### Scans and loops -/

/-- A scan by member delivers the members from the lower bound on and up to the upper one. -/
theorem zscanbylexInternal_eq (db : DB) (key : UserKey) (start stop : Bytes) (version : UInt16) :
    zscanbylexInternal db key.1 start stop version =
      (db.items key.1 version).keys.filter
        fun member => start ≤ member ∧ (stop = [] ∨ member ≤ stop) := by
  have itemKey : ∀ member, encodeZsetKey key.1 member version =
      encodeKeyInternal DataType.item key.1 [] version ++ member := fun member =>
    encodeKeyInternal_eq_append _ _ _ _
  rw [zscanbylexInternal, itemKey]
  by_cases unbounded : stop = []
  · obtain ⟨rest, block, outside⟩ :=
      db.seek_append_eq_block (encodeKeyInternal DataType.item key.1 [] version) start
    rw [if_pos unbounded, iterator_eq_seek, block, collect_items key version _ outside,
      SortedMap.seek_eq_filter, SortedMap.keys, List.filter_map, List.map_map]
    simp [unbounded, DB.items, Function.comp_def]
  · have bounded : encodeKeyInternal DataType.item key.1 [] version ++ stop ≠ [] := by
      simp [unbounded]
    have scanned := db.takeWhile_seek_under
      (encodeKeyInternal DataType.item key.1 [] version) start stop
    have collected := @collect_items key version
      ((db.items key.1 version).entries.filter fun entry => start ≤ entry.1 ∧ entry.1 ≤ stop)
      [] (by simp)
    rw [List.append_nil] at collected
    rw [if_neg unbounded, itemKey, iterator]
    simp only [List.isEmpty_iff, bounded, false_or, unbounded]
    rw [scanned, ← DB.items, collected, SortedMap.keys, List.filter_map, List.map_map]
    rfl

namespace Zlexrangespec

variable (range : Zlexrangespec)

def contains (member : Bytes) : Bool := range.gteMin member && range.lteMax member

/-- The tests cut the range out of a scan that covers it. -/
theorem between_zscanbylex (db : DB) (key : UserKey) (version : UInt16) :
    between range.gteMin range.lteMax
        (zscanbylexInternal db key.1 range.min range.max version) =
      (db.items key.1 version).keys.filter range.contains := by
  have sorted := (db.items key.1 version).keys_sorted
  have falls : ∀ {left right : Bytes}, left < right → range.lteMax right → range.lteMax left := by
    intro left right below upper
    simp only [lteMax] at upper ⊢
    split_ifs at upper ⊢ with unbounded strict
    · rfl
    · exact decide_eq_true (below.trans (of_decide_eq_true upper))
    · exact decide_eq_true (below.le.trans (of_decide_eq_true upper))
  rw [zscanbylexInternal_eq, between, Ranking.takeWhile_eq_filter, List.filter_filter,
    List.filter_filter]
  · refine List.filter_congr fun member _ => ?_
    have above : range.gteMin member → range.min ≤ member := by
      rw [gteMin]
      split_ifs with strict
      · exact fun lt => (of_decide_eq_true lt).le
      · exact of_decide_eq_true
    have below : range.lteMax member → range.max = [] ∨ member ≤ range.max := by
      rw [lteMax]
      split_ifs with unbounded strict
      · exact fun _ => Or.inl unbounded
      · exact fun lt => Or.inr (of_decide_eq_true lt).le
      · exact fun le => Or.inr (of_decide_eq_true le)
    rw [contains, Bool.eq_iff_iff]
    simp only [Bool.and_eq_true, decide_eq_true_eq]
    exact ⟨fun both => ⟨both.1.2, both.1.1⟩,
      fun both => ⟨⟨both.2, both.1⟩, above both.1, below both.2⟩⟩
  · exact ((sorted.filter _).filter _).imp falls

/-- What a range shows, and what it counts. -/
theorem zrangebylexLoop_eq (items : List Bytes) (offset : Nat) (limit : Int) :
    (zrangebylexLoop range true items offset limit).1 =
        Ranking.slice offset limit (between range.gteMin range.lteMax items) ∧
      (zrangebylexLoop range false items offset limit).2 =
        (between range.gteMin range.lteMax items).length := by
  unfold between
  induction items generalizing offset limit with
  | nil => exact ⟨(Ranking.slice_nil offset limit).symm, rfl⟩
  | cons item items ih =>
      rw [zrangebylexLoop, zrangebylexLoop, List.filter_cons]
      cases passes : range.gteMin item with
      | false => exact ih offset limit
      | true =>
          simp only [Bool.not_true, Bool.false_eq_true, if_false, if_true, List.takeWhile_cons]
          cases stays : range.lteMax item with
          | false => exact ⟨(Ranking.slice_nil offset limit).symm, rfl⟩
          | true =>
              simp only [Bool.not_true, Bool.not_false, Bool.false_eq_true, if_false, if_true]
              refine ⟨?_, ?_⟩
              · cases offset with
                | zero =>
                    rw [if_pos Int.natCast_zero, Ranking.slice_zero_cons]
                    split_ifs
                    · rfl
                    · exact congrArg (item :: ·) (ih 0 (limit - 1)).1
                | succ offset =>
                    have counted : ((offset + 1 : Nat) : Int) - 1 = offset := by omega
                    rw [if_neg (by omega), counted, Ranking.slice_succ_cons]
                    exact (ih offset limit).1
              · rw [(ih offset limit).2, List.length_cons]
                push_cast
                rfl

theorem zrevrangebylexPush_eq (items stack : List Bytes) :
    zrevrangebylexPush range items stack =
      (between range.gteMin range.lteMax items).reverse ++ stack := by
  unfold between
  induction items generalizing stack with
  | nil => rfl
  | cons item items ih =>
      rw [zrevrangebylexPush, List.filter_cons]
      cases passes : range.gteMin item with
      | false => exact ih stack
      | true =>
          simp only [if_true, List.takeWhile_cons]
          cases stays : range.lteMax item with
          | false => rfl
          | true =>
              simp only [if_true, List.reverse_cons, List.append_assoc, List.singleton_append]
              exact ih (item :: stack)

end Zlexrangespec

theorem zrevrangebylexPop_eq (stack : List Bytes) (offset : Nat) (limit : Int) :
    zrevrangebylexPop stack offset limit = Ranking.slice offset limit stack := by
  induction stack generalizing offset limit with
  | nil => exact (Ranking.slice_nil offset limit).symm
  | cons top stack ih =>
      rw [zrevrangebylexPop]
      cases offset with
      | zero =>
          rw [if_pos Int.natCast_zero, Ranking.slice_zero_cons]
          exact if_congr Iff.rfl rfl (congrArg (top :: ·) (ih 0 (limit - 1)))
      | succ offset =>
          have counted : ((offset + 1 : Nat) : Int) - 1 = offset := by omega
          rw [if_neg (by omega), counted, Ranking.slice_succ_cons]
          exact ih offset limit

/-! ### Bounds and tests -/

namespace LexBound

variable {low high : LexBound} {member : Bytes}

/-- Ranges of the empty member alone, which the code takes for empty. -/
def emptyOnly (low high : LexBound) : Bool := low.admitsAbove [] && high = .incl []

theorem nil_le (member : Bytes) : [] ≤ member := not_lt.mp (List.not_lt_nil member)

theorem le_nil_iff : member ≤ [] ↔ member = [] := by
  cases member with
  | nil => exact iff_of_true le_rfl rfl
  | cons first rest =>
      exact iff_of_false (not_le.mpr (List.nil_lt_cons first rest)) (List.cons_ne_nil _ _)

theorem kept_of_admitsAbove (admits : low.admitsAbove member = true) :
    low.kept.1 ≤ member ∧ (low.kept.2 = true → low.kept.1 < member) := by
  cases low with
  | negInf => exact ⟨nil_le member, fun strict => absurd strict Bool.false_ne_true⟩
  | posInf => cases admits
  | incl bound => exact ⟨of_decide_eq_true admits, fun strict => absurd strict Bool.false_ne_true⟩
  | excl bound =>
      have lt : bound < member := of_decide_eq_true admits
      exact ⟨lt.le, fun _ => lt⟩

theorem kept_of_admitsBelow (finite : high ≠ .posInf) (admits : high.admitsBelow member = true) :
    member ≤ high.kept.1 ∧ (high.kept.2 = true → member < high.kept.1) := by
  cases high with
  | negInf => cases admits
  | posInf => exact absurd rfl finite
  | incl bound => exact ⟨of_decide_eq_true admits, fun strict => absurd strict Bool.false_ne_true⟩
  | excl bound =>
      have lt : member < bound := of_decide_eq_true admits
      exact ⟨lt.le, fun _ => lt⟩

theorem gteMin_range (finite : low ≠ .posInf) :
    (range low high).gteMin member = low.admitsAbove member := by
  cases low with
  | negInf => exact decide_eq_true (nil_le member)
  | posInf => exact absurd rfl finite
  | incl bound => rfl
  | excl bound => rfl

theorem lteMax_range (finite : high ≠ .negInf) (nonempty : high = .posInf ∨ high.kept.1 ≠ []) :
    (range low high).lteMax member = high.admitsBelow member := by
  cases high with
  | negInf => exact absurd rfl finite
  | posInf => rfl
  | incl bound => exact if_neg (nonempty.resolve_left (by simp))
  | excl bound => exact if_neg (nonempty.resolve_left (by simp))

theorem head_text_eq_plus : low.text.head? = some 43 ↔ low = .posInf := by
  cases low <;> simp [text]

theorem head_text_eq_minus : low.text.head? = some 45 ↔ low = .negInf := by
  cases low <;> simp [text]

theorem degenerate_iff : (range low high).degenerate low.text high.text = true ↔
    low = .posInf ∨ high = .negInf ∨ high.kept.1 < low.kept.1 ∧ high ≠ .posInf ∨
      low.kept.1 = [] ∧ high.kept.1 = [] ∧ high ≠ .posInf ∨
      low.kept.1 = high.kept.1 ∧ high.kept.1 ≠ [] ∧ (low.kept.2 = true ∨ high.kept.2 = true) := by
  rw [Zlexrangespec.degenerate, decide_eq_true_iff, ne_eq, head_text_eq_plus, head_text_eq_plus,
    head_text_eq_minus]
  rfl

/-- Where the code looks at the key, its tests are those of the bounds. -/
theorem contains_range (proper : (range low high).degenerate low.text high.text = false) :
    (range low high).contains member = (low.admitsAbove member && high.admitsBelow member) := by
  rw [← Bool.not_eq_true, degenerate_iff] at proper
  simp only [not_or, not_and] at proper
  obtain ⟨lowFinite, highFinite, ordered, nonempty, _⟩ := proper
  rw [Zlexrangespec.contains, gteMin_range lowFinite, lteMax_range highFinite]
  by_contra empty
  simp only [not_or, not_not] at empty
  refine nonempty ?_ empty.2 empty.1
  have least : low.kept.1 ≤ high.kept.1 := not_lt.mp fun above => ordered above empty.1
  rw [empty.2] at least
  exact le_nil_iff.mp least

/-- Where it does not, there is at most the empty member in the range. -/
theorem admits_of_degenerate (degenerate : (range low high).degenerate low.text high.text = true) :
    (low.admitsAbove member && high.admitsBelow member) =
      (emptyOnly low high && member = []) := by
  rw [Bool.eq_iff_iff]
  simp only [Bool.and_eq_true, emptyOnly, decide_eq_true_eq]
  constructor
  · rintro ⟨above, below⟩
    obtain ⟨lower, lowerStrict⟩ := kept_of_admitsAbove above
    have bounded : ∀ finite : high ≠ .posInf, _ := fun finite => kept_of_admitsBelow finite below
    rcases degenerate_iff.mp degenerate with
      rfl | rfl | ⟨inverted, finite⟩ | ⟨_, empty, finite⟩ | ⟨same, nonempty, strict⟩
    · cases above
    · cases below
    · exact absurd ((lower.trans (bounded finite).1).trans_lt inverted) (lt_irrefl _)
    · have nothing : member = [] := le_nil_iff.mp (empty ▸ (bounded finite).1)
      subst nothing
      refine ⟨⟨above, ?_⟩, rfl⟩
      cases high with
      | negInf => cases below
      | posInf => exact absurd rfl finite
      | incl bound => exact congrArg incl empty
      | excl bound =>
          rw [show bound = [] from empty] at below
          cases below
    · have finite : high ≠ .posInf := by
        rintro rfl
        exact nonempty rfl
      obtain ⟨upper, upperStrict⟩ := bounded finite
      rw [same] at lower lowerStrict
      rcases strict with strict | strict
      · exact absurd ((lowerStrict strict).trans_le upper) (lt_irrefl _)
      · exact absurd (lower.trans_lt (upperStrict strict)) (lt_irrefl _)
  · rintro ⟨⟨above, rfl⟩, rfl⟩
    exact ⟨above, rfl⟩

theorem emptyOnly_iff :
    emptyOnly low high = true ↔ high.text = [91] ∧ (low.text = [45] ∨ low.text = [91]) := by
  cases low <;> cases high <;> simp [emptyOnly, admitsAbove, text, le_nil_iff, and_comm]

theorem degenerate_of_emptyOnly (only : emptyOnly low high = true) :
    (range low high).degenerate low.text high.text = true := by
  obtain ⟨above, included⟩ := Bool.and_eq_true_iff.mp only
  obtain rfl := of_decide_eq_true included
  have empty : low.kept.1 = [] := le_nil_iff.mp (kept_of_admitsAbove above).1
  exact degenerate_iff.mpr (Or.inr (Or.inr (Or.inr (Or.inl ⟨empty, rfl, by simp⟩))))

end LexBound

/-! ### Replies -/

section Replies

variable (world : World) (key : UserKey) (scores : SortedMap Bytes Double) (min max : Bytes)
  (options : List Bytes)

/-- Ranges in both directions show a slice of some members, and these are counted and removed. -/
structure LexAnswers (offset : Nat) (limit : Int) (shown : List Bytes) : Prop where
  forward : (procZrangebylex key.1 min max options).eval atomically world =
    (.strings (Ranking.slice offset limit shown), world)
  backward : (procZrevrangebylex key.1 max min options).eval atomically world =
    (.strings (Ranking.slice offset limit shown.reverse), world)
  counted : (procZlexcount key.1 min max).eval atomically world = (.int shown.length, world)
  removed : Refines (procZremrangebylex key.1 min max) world key
    (.int shown.length, Value.ofScores (scores.eraseAll shown))

/-- A command answers with an error and does nothing. -/
def Rejected (command : Command Reply) : Prop :=
  ∃ reply : Reply, reply.IsError ∧ command.eval atomically world = (reply, world)

structure LexRejected : Prop where
  forward : Rejected world (procZrangebylex key.1 min max options)
  backward : Rejected world (procZrevrangebylex key.1 max min options)
  counted : Rejected world (procZlexcount key.1 min max)
  removed : Rejected world (procZremrangebylex key.1 min max)

/-- Two bounds are answered with the members between them, and other texts with an error. -/
def LexExact (offset : Nat) (limit : Int) : Prop :=
  match LexBound.parse min, LexBound.parse max with
  | some low, some high =>
      LexAnswers world key scores min max options offset limit (LexBound.members low high scores)
  | _, _ => LexRejected world key min max options

end Replies

/-- No text that is read is empty, no accepted sign is padded, and the empty member, when it is
there, is not the only one in the range. -/
structure LexSound (scores : SortedMap Bytes Double) (min max : Bytes) : Prop where
  nonempty : zslParseLexRange min max ≠ .error .lengthError
  plain : (zslParseLexRange min max).isOk = true → padded min = false ∧ padded max = false
  empty : (scores.get []).isSome = true → max = [91] → min ≠ [45] ∧ min ≠ [91]

/-- The items of a sorted set are its members. -/
theorem ZsetStores.keys_items {world : World} {key : UserKey} {version : UInt16}
    {scores : SortedMap Bytes Double} (stores : ZsetStores world.db.contents key version scores) :
    (world.db.items key.1 version).keys = scores.keys := by
  refine SortedMap.keys_congr fun member => ?_
  have item := stores.item member
  rw [DB.get_items]
  change (world.db.contents (.item key version member)).isSome = _
  rw [item, Option.isSome_map]

section Evaluation

variable {world : World} {key : UserKey} {scores : SortedMap Bytes Double} {min max : Bytes}
  {options : List Bytes} {range : Zlexrangespec} {offset : Nat} {start limit : Int64}

/-- What the range commands find: no set, or the items of the set in a snapshot. -/
theorem eval_zsetSnapshot {state : Option (UInt16 × Value)}
    (valid : KeyValid world.db.contents key state)
    (held : state.map Prod.snd = Value.ofScores scores) :
    ∃ (ret : Int) (zv : MetaVal) (db : DB),
      (zsetSnapshot key.1).eval atomically world = ((ret, zv, db), world) ∧
      (ret = 0 ∧ scores = ∅ ∨ ret = 1 ∧ (db.items key.1 zv.version).keys = scores.keys) := by
  cases state with
  | none =>
      obtain ⟨zv, snapshot⟩ := eval_zsetSnapshot_idle valid
      exact ⟨0, zv, ∅, snapshot, Or.inl ⟨rfl, Value.ofScores_eq_none.mp held.symm⟩⟩
  | some live =>
      obtain ⟨version, value⟩ := live
      obtain ⟨_, rfl⟩ := Value.ofScores_eq_some.mp held.symm
      exact ⟨1, _, world.db, eval_zsetSnapshot_live valid.represented,
        Or.inr ⟨rfl, (ZsetView.ofLive valid).stores.keys_items⟩⟩

/-- Without a set nothing is removed, else what passes the tests. -/
theorem removes_contained {state : Option (UInt16 × Value)}
    (valid : KeyValid world.db.contents key state)
    (held : state.map Prod.snd = Value.ofScores scores)
    (parsed : zslParseLexRange min max = .ok range) (proper : range.degenerate min max = false) :
    Refines (procZremrangebylex key.1 min max) world key
      (.int (scores.keys.filter range.contains).length,
        Value.ofScores (scores.eraseAll (scores.keys.filter range.contains))) := by
  cases state with
  | none =>
      obtain rfl := Value.ofScores_eq_none.mp held.symm
      obtain ⟨zv, readMeta, _⟩ := eval_getMetaVal_idle DataType.zsize DataType.zsize valid
      refine Refines.of_eval valid ?_
      simp [procZremrangebylex, zremrangebylex, parsed, proper, getZsetMetaVal, readMeta,
        SortedMap.keys]
  | some live =>
      obtain ⟨version, value⟩ := live
      obtain ⟨nonempty, rfl⟩ := Value.ofScores_eq_some.mp held.symm
      have view := ZsetView.ofLive valid
      refine (view.zremrangebylex_scan nonempty parsed proper ?_).2
      rw [range.between_zscanbylex, view.stores.keys_items]

/-- A range at which the code looks is answered with what passes the tests. -/
theorem lexAnswers_contained {state : Option (UInt16 × Value)}
    (valid : KeyValid world.db.contents key state)
    (held : state.map Prod.snd = Value.ofScores scores)
    (limits : zrangebylexLimits options (0, -1) = .ok (start, limit))
    (natural : start.toInt = offset) (parsed : zslParseLexRange min max = .ok range)
    (proper : range.degenerate min max = false) :
    LexAnswers world key scores min max options offset limit.toInt
      (scores.keys.filter range.contains) := by
  obtain ⟨ret, zv, db, snapshot, found⟩ := eval_zsetSnapshot valid held
  have positive : ¬(1 : Int) ≤ 0 := by omega
  have nonneg : ¬(1 : Int) < 0 := by omega
  refine ⟨?_, ?_, ?_, removes_contained valid held parsed proper⟩
  · simp only [procZrangebylex, procZrangebylexGeneric, limits, zrangebylex, genericZrangebylex,
      parsed, proper, Bool.false_eq_true, if_false, Program.eval_bind, snapshot, natural]
    rcases found with ⟨rfl, rfl⟩ | ⟨rfl, keys⟩
    · simp [SortedMap.keys]
    · simp only [if_neg positive, Program.pure_eq_done, Program.eval_done, Option.map_some,
        if_neg nonneg, (range.zrangebylexLoop_eq _ offset limit.toInt).1,
        range.between_zscanbylex, keys]
  · simp only [procZrevrangebylex, procZrangebylexGeneric, limits, zrevrangebylex,
      parsed, proper, Bool.false_eq_true, if_false, Program.eval_bind, snapshot, natural]
    rcases found with ⟨rfl, rfl⟩ | ⟨rfl, keys⟩
    · simp [SortedMap.keys]
    · simp only [if_neg positive, Program.pure_eq_done, Program.eval_done, if_neg nonneg,
        range.zrevrangebylexPush_eq, range.between_zscanbylex, keys, zrevrangebylexPop_eq,
        List.append_nil]
  · simp only [procZlexcount, zlexcount, genericZrangebylex, parsed, proper, Bool.false_eq_true,
      if_false, Program.eval_bind, snapshot]
    rcases found with ⟨rfl, rfl⟩ | ⟨rfl, keys⟩
    · simp [SortedMap.keys]
    · have counted := (range.zrangebylexLoop_eq
        (zscanbylexInternal db key.1 range.min range.max zv.version) 0 (-1)).2
      rw [range.between_zscanbylex, keys] at counted
      simp only [if_neg positive, Program.pure_eq_done, Program.eval_done, Option.map_some,
        if_neg nonneg]
      rw [← counted]
      rfl

/-- The others are answered without a look at the key. -/
theorem lexAnswers_degenerate {state : Option (UInt16 × Value)}
    (valid : KeyValid world.db.contents key state)
    (held : state.map Prod.snd = Value.ofScores scores)
    (limits : zrangebylexLimits options (0, -1) = .ok (start, limit))
    (parsed : zslParseLexRange min max = .ok range) (degenerate : range.degenerate min max = true) :
    LexAnswers world key scores min max options offset limit.toInt [] where
  forward := by
    simp [procZrangebylex, procZrangebylexGeneric, limits, zrangebylex, genericZrangebylex, parsed,
      degenerate]
  backward := by
    simp [procZrevrangebylex, procZrangebylexGeneric, limits, zrevrangebylex, parsed, degenerate]
  counted := by simp [procZlexcount, zlexcount, genericZrangebylex, parsed, degenerate]
  removed := by
    refine ⟨world, state, ?_, .refl _ _, valid, held⟩
    simp [procZremrangebylex, zremrangebylex, parsed, degenerate]

/-- A text that is refused is reported by all four commands. -/
theorem lexRejected_of_invalid (limits : zrangebylexLimits options (0, -1) = .ok (start, limit))
    (parsed : zslParseLexRange min max = .error .invalid) :
    LexRejected world key min max options where
  forward := by
    have negative : zsetInvalidStr < 0 := by decide
    exact ⟨.error zsetInvalidStr, trivial, by simp [procZrangebylex, procZrangebylexGeneric, limits,
      zrangebylex, genericZrangebylex, parsed, negative]⟩
  backward := by
    have negative : zsetInvalidStr < 0 := by decide
    exact ⟨.error zsetInvalidStr, trivial, by simp [procZrevrangebylex, procZrangebylexGeneric,
      limits, zrevrangebylex, parsed, negative]⟩
  counted := by
    have negative : zsetInvalidStr < 0 := by decide
    exact ⟨.error syntaxErr, trivial, by simp [procZlexcount, zlexcount, genericZrangebylex, parsed,
      negative]⟩
  removed := by
    have negative : syntaxErr < 0 := by decide
    exact ⟨.error syntaxErr, trivial, by simp [procZremrangebylex, zremrangebylex, parsed,
      negative]⟩

/-- The code answers every pair of texts that it accepts, as if they stood for bounds. -/
theorem lexAnswers_of_ok {state : Option (UInt16 × Value)}
    (valid : KeyValid world.db.contents key state)
    (held : state.map Prod.snd = Value.ofScores scores)
    (limits : zrangebylexLimits options (0, -1) = .ok (start, limit))
    (natural : start.toInt = offset) (parsed : zslParseLexRange min max = .ok range) :
    ∃ shown, LexAnswers world key scores min max options offset limit.toInt shown := by
  cases degenerate : range.degenerate min max with
  | true => exact ⟨_, lexAnswers_degenerate valid held limits parsed degenerate⟩
  | false => exact ⟨_, lexAnswers_contained valid held limits natural parsed degenerate⟩

theorem LexAnswers.not_rejected {limit : Int} {shown : List Bytes}
    (answers : LexAnswers world key scores min max options offset limit shown) :
    ¬LexRejected world key min max options := by
  intro rejected
  obtain ⟨reply, isError, run⟩ := rejected.counted
  rw [answers.counted] at run
  obtain ⟨rfl, _⟩ := Prod.mk.inj run
  exact isError

theorem lexExact_of_missing {limit : Int}
    (missing : ∀ low high, LexBound.parse min = some low → LexBound.parse max ≠ some high) :
    LexExact world key scores min max options offset limit ↔
      LexRejected world key min max options := by
  unfold LexExact
  split
  · next low high here there => exact absurd there (missing low high here)
  · exact Iff.rfl

/-- Two bounds are answered exactly unless the empty member is the only one between them. -/
theorem lexAnswers_iff {state : Option (UInt16 × Value)}
    (valid : KeyValid world.db.contents key state)
    (held : state.map Prod.snd = Value.ofScores scores)
    (limits : zrangebylexLimits options (0, -1) = .ok (start, limit))
    (natural : start.toInt = offset) (low high : LexBound) :
    LexAnswers world key scores low.text high.text options offset limit.toInt
        (LexBound.members low high scores) ↔
      ((scores.get []).isSome = true → low.emptyOnly high = false) := by
  have parsed := LexBound.zslParseLexRange_text low high
  cases degenerate : (low.range high).degenerate low.text high.text with
  | false =>
      have shown : LexBound.members low high scores =
          scores.keys.filter (low.range high).contains :=
        List.filter_congr fun member _ => (LexBound.contains_range degenerate).symm
      refine iff_of_true ?_ fun _ => ?_
      · rw [shown]
        exact lexAnswers_contained valid held limits natural parsed degenerate
      · by_contra only
        rw [LexBound.degenerate_of_emptyOnly (Bool.not_eq_false _ ▸ only)] at degenerate
        cases degenerate
  | true =>
      have shown : LexBound.members low high scores =
          scores.keys.filter fun member => low.emptyOnly high && member = [] :=
        List.filter_congr fun member _ => LexBound.admits_of_degenerate degenerate
      have answers : LexAnswers world key scores low.text high.text options offset limit.toInt [] :=
        lexAnswers_degenerate valid held limits parsed degenerate
      constructor
      · intro claimed stored
        have lengths := congrArg Prod.fst (claimed.counted.symm.trans answers.counted)
        simp only [Reply.int.injEq, Nat.cast_inj, List.length_nil, List.length_eq_zero_iff, shown,
          List.filter_eq_nil_iff] at lengths
        have unshown := lengths [] (SortedMap.mem_keys.mpr stored)
        simpa using unshown
      · intro unshown
        have nothing : LexBound.members low high scores = [] := by
          rw [shown, List.filter_eq_nil_iff]
          rintro member mem both
          obtain ⟨only, rfl⟩ : low.emptyOnly high = true ∧ member = [] := by simpa using both
          rw [unshown (SortedMap.mem_keys.mp mem)] at only
          cases only
        rw [nothing]
        exact answers

/-- The four commands are exact, on every sorted set and for all texts, exactly when the texts and
the set are sound. -/
theorem lexExact_iff {state : Option (UInt16 × Value)}
    (valid : KeyValid world.db.contents key state)
    (held : state.map Prod.snd = Value.ofScores scores)
    (limits : zrangebylexLimits options (0, -1) = .ok (start, limit))
    (natural : start.toInt = offset) :
    LexExact world key scores min max options offset limit.toInt ↔ LexSound scores min max := by
  by_cases bounds : ∃ low high, min = LexBound.text low ∧ max = LexBound.text high
  · obtain ⟨low, high, rfl, rfl⟩ := bounds
    have exact : LexExact world key scores low.text high.text options offset limit.toInt ↔
        LexAnswers world key scores low.text high.text options offset limit.toInt
          (LexBound.members low high scores) := by
      rw [LexExact, LexBound.parse_eq_some.mpr rfl, LexBound.parse_eq_some.mpr rfl]
    rw [exact, lexAnswers_iff valid held limits natural]
    constructor
    · intro unshown
      refine ⟨by simp [LexBound.zslParseLexRange_text], fun _ =>
        ⟨low.padded_text, high.padded_text⟩,
        fun stored last => ?_⟩
      have only := unshown stored
      rw [← Bool.not_eq_true, LexBound.emptyOnly_iff] at only
      exact ⟨fun first => only ⟨last, Or.inl first⟩, fun first => only ⟨last, Or.inr first⟩⟩
    · intro sound stored
      rw [← Bool.not_eq_true, LexBound.emptyOnly_iff]
      rintro ⟨last, first⟩
      obtain ⟨notMinus, notEmpty⟩ := sound.empty stored last
      exact first.elim notMinus notEmpty
  · have missing : ∀ low high, LexBound.parse min = some low → LexBound.parse max ≠ some high :=
      fun low high here there => bounds
        ⟨low, high, LexBound.parse_eq_some.mp here, LexBound.parse_eq_some.mp there⟩
    rw [lexExact_of_missing missing]
    cases parsed : zslParseLexRange min max with
    | ok range =>
        obtain ⟨shown, answers⟩ := lexAnswers_of_ok valid held limits natural parsed
        refine iff_of_false answers.not_rejected fun sound => ?_
        obtain ⟨plainMin, plainMax⟩ := sound.plain (by rw [parsed]; rfl)
        obtain ⟨first, last, acceptedMin, acceptedMax⟩ := accepted_of_ok parsed
        obtain ⟨low, here⟩ := parse_or_padded acceptedMin plainMin
        obtain ⟨high, there⟩ := parse_or_padded acceptedMax plainMax
        exact missing low high here there
    | error fault =>
        cases fault with
        | lengthError =>
            refine iff_of_false (fun rejected => ?_) fun sound => sound.nonempty parsed
            obtain ⟨reply, isError, run⟩ := rejected.counted
            have ends : (procZlexcount key.1 min max).eval atomically world =
                (.terminated, world) := by
              simp [procZlexcount, zlexcount, genericZrangebylex, parsed]
            rw [ends] at run
            obtain ⟨rfl, _⟩ := Prod.mk.inj run
            exact isError
        | invalid =>
            refine iff_of_true (lexRejected_of_invalid limits parsed) ⟨by simp [parsed], ?_, ?_⟩
            · intro accepted
              rw [parsed] at accepted
              cases accepted
            · rintro - rfl
              exact ⟨fun first => missing .negInf (.incl []) (by rw [first]; rfl) rfl,
                fun first => missing (.incl []) (.incl []) (by rw [first]; rfl) rfl⟩

end Evaluation

section Samples

/-- What `ZADD k 16 ""` leaves. -/
def emptyMemberWorld : World :=
  ((procZadd sampleFloat sampleKey.1 {} [([], [49, 54])]).eval atomically emptyServer.world).2

def emptyMember : SortedMap Bytes Double := SortedMap.put ∅ [] sixteen

/-- Between the two signs the empty member is shown. -/
theorem lexExact_signs :
    LexExact emptyMemberWorld sampleKey emptyMember [45] [43] [] 0 (-1) := by
  obtain ⟨_, state, valid, held⟩ := zadd_valid [] (rfl : _ = emptyMemberWorld)
  refine (@lexExact_iff _ _ _ [45] [43] [] 0 0 (-1) _ valid held rfl rfl).mpr ⟨?_, ?_, ?_⟩
  · decide
  · exact fun _ => ⟨rfl, rfl⟩
  · exact fun _ last => absurd last (by decide)

/-- Up to `[` it is not, an empty text ends the process, and a padded sign is taken for a bound. -/
theorem lexExact_fails :
    (∃ state, KeyValid emptyMemberWorld.db.contents sampleKey state ∧
      state.map Prod.snd = Value.ofScores emptyMember) ∧
    ((procZlexcount sampleKey.1 [45] [91]).eval atomically emptyMemberWorld).1 = .int 0 ∧
    ((procZlexcount sampleKey.1 [] [43]).eval atomically emptyMemberWorld).1 = .terminated ∧
    ((procZlexcount sampleKey.1 [45, 0, 98] [43]).eval atomically emptyMemberWorld).1 = .int 1 ∧
    ¬LexExact emptyMemberWorld sampleKey emptyMember [45] [91] [] 0 (-1) ∧
    ¬LexExact emptyMemberWorld sampleKey emptyMember [] [43] [] 0 (-1) ∧
    ¬LexExact emptyMemberWorld sampleKey emptyMember [45, 0, 98] [43] [] 0 (-1) := by
  obtain ⟨_, valid⟩ := zadd_valid [] (rfl : _ = emptyMemberWorld)
  refine ⟨valid, rfl, rfl, rfl, ?_, ?_, ?_⟩
  · intro exact
    have counted := congrArg Prod.fst exact.counted
    exact absurd counted (by decide)
  · intro exact
    obtain ⟨reply, isError, run⟩ := exact.counted
    have shown : reply = .terminated := (congrArg Prod.fst run).symm
    rw [shown] at isError
    exact isError
  · intro exact
    obtain ⟨reply, isError, run⟩ := exact.counted
    have shown : reply = .int 1 := (congrArg Prod.fst run).symm
    rw [shown] at isError
    exact isError

end Samples

end Vcdb
