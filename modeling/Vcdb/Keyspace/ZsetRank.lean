import Vcdb.Keyspace.ZsetScore

/-!
# Ranks and ranges by rank

A scan of the whole index meets the members of a sorted set in the order of their ranks, from
either end.  The rank commands look a member up in this list, the range commands show a segment
of it.
-/

namespace Vcdb

/-- The members as a scan in one direction meets them. -/
def Direction.order {α : Type} : Direction → List α → List α
  | .forward, items => items
  | .backward, items => items.reverse

@[simp]
theorem Direction.length_order {α : Type} (direction : Direction) (items : List α) :
    (direction.order items).length = items.length := by
  cases direction with
  | forward => rfl
  | backward => exact List.length_reverse

theorem Direction.mem_order {α : Type} {direction : Direction} {items : List α} {item : α} :
    item ∈ direction.order items ↔ item ∈ items := by
  cases direction with
  | forward => exact Iff.rfl
  | backward => exact List.mem_reverse

theorem Direction.order_map {α β : Type} (direction : Direction) (f : α → β) (items : List α) :
    direction.order (items.map f) = (direction.order items).map f := by
  cases direction with
  | forward => rfl
  | backward => exact List.map_reverse.symm

/-- Entries of the index that stand for given members. -/
def IndexesItems (name : Bytes) (version : UInt16) (entries : List (Bytes × Bytes))
    (items : List (Bytes × Double)) : Prop :=
  entries.map Prod.fst = items.map fun item => encodeZscoreKey name item.1 item.2 version

namespace IndexesItems

variable {key : UserKey} {version : UInt16} {entries : List (Bytes × Bytes)}
  {items : List (Bytes × Double)}

theorem take (indexes : IndexesItems key.1 version entries items) (n : Nat) :
    IndexesItems key.1 version (entries.take n) (items.take n) := by
  rw [IndexesItems, List.map_take, List.map_take, indexes]

/-- An iterator delivers the members its entries stand for. -/
theorem items_eq (indexes : IndexesItems key.1 version entries items) :
    ZIterator.items key.1 version entries = items := by
  induction items generalizing entries with
  | nil =>
      rw [IndexesItems, List.map_nil, List.map_eq_nil_iff] at indexes
      rw [indexes]
      rfl
  | cons item items ih =>
      cases entries with
      | nil => cases indexes
      | cons entry entries =>
          obtain ⟨first, others⟩ := List.cons.inj indexes
          obtain ⟨raw, val⟩ := entry
          obtain rfl : raw = encodeZscoreKey key.1 item.1 item.2 version := first
          rw [encodeZscoreKey_eq_append, ZIterator.items_cons, ih others]

theorem skip (indexes : IndexesItems key.1 version entries items) (n : Nat) :
    IndexesItems key.1 version (ZIterator.skip key.1 version n entries) (items.drop n) := by
  induction n generalizing entries items with
  | zero => exact indexes
  | succ n ih =>
      cases items with
      | nil =>
          rw [IndexesItems, List.map_nil, List.map_eq_nil_iff] at indexes
          rw [indexes]
          rfl
      | cons item items =>
          cases entries with
          | nil => cases indexes
          | cons entry entries =>
              obtain ⟨first, others⟩ := List.cons.inj indexes
              obtain ⟨raw, val⟩ := entry
              obtain rfl : raw = encodeZscoreKey key.1 item.1 item.2 version := first
              have found : Iterator.next decodeZScoreItemKey (ZIterator.belongs key.1 version)
                  ((encodeZscoreKey key.1 item.1 item.2 version, val) :: entries) =
                  (some (encodeZscoreKey key.1 item.1 item.2 version,
                    { key := key.1, version, field := item.1, score := item.2 }, val),
                    entries) := by
                simp only [Iterator.next, encodeZscoreKey_eq_append, decodeZScoreItemKey_prefix,
                  decodeScoreEntry_scoreEntry, Option.map_some, ZIterator.belongs, and_self,
                  decide_true, if_true]
              rw [ZIterator.skip, found]
              exact ih others

end IndexesItems

section Scan

variable {db : DB} {key : UserKey} {version : UInt16}

/-- Entries of the index chosen by a test that all members pass. -/
theorem DB.WellKeyed.indexesItems (keyed : db.WellKeyed) {p : Bytes → Bool}
    (all : ∀ item ∈ db.zitems key.1 version, p (scoreEntry item.1 item.2) = true) :
    IndexesItems key.1 version
      (((db.scoreIndex key.1 version).entries.filter fun entry => p entry.1).map
        fun entry => (encodeZscorePrefix key.1 version ++ entry.1, entry.2))
      (db.zitems key.1 version) := by
  have names : ((db.scoreIndex key.1 version).entries.filter fun entry => p entry.1).map Prod.fst =
      (db.scoreIndex key.1 version).keys.filter p := by
    rw [SortedMap.keys, List.filter_map]
    rfl
  have kept : (db.scoreIndex key.1 version).keys.filter p =
      (db.zitems key.1 version).map fun item => scoreEntry item.1 item.2 := by
    rw [keyed.keys_scoreIndex, List.filter_map, List.filter_eq_self.mpr]
    exact all
  have spelled : ∀ entries : List (Bytes × Bytes),
      (entries.map fun entry => (encodeZscorePrefix key.1 version ++ entry.1, entry.2)).map
        Prod.fst = (entries.map Prod.fst).map (encodeZscorePrefix key.1 version ++ ·) := by
    intro entries
    rw [List.map_map, List.map_map]
    rfl
  rw [IndexesItems, spelled, names, kept, List.map_map]
  exact List.map_congr_left fun item _ => (encodeZscoreKey_eq_append _ _ _ _).symm

/-- A forward scan with all members between its bounds. -/
theorem DB.WellKeyed.indexesItems_forward (keyed : db.WellKeyed) {low high : Bytes}
    (inside : ∀ item ∈ db.zitems key.1 version,
      low ≤ scoreEntry item.1 item.2 ∧ scoreEntry item.1 item.2 ≤ high) :
    IndexesItems key.1 version
      ((db.seek (encodeZscorePrefix key.1 version ++ low)).takeWhile fun entry =>
        entry.1 ≤ encodeZscorePrefix key.1 version ++ high)
      (db.zitems key.1 version) := by
  rw [SortedMap.takeWhile_seek_under]
  exact keyed.indexesItems (p := fun entry => decide (low ≤ entry ∧ entry ≤ high))
    fun item mem => decide_eq_true (inside item mem)

/-- A backward scan with all members between its bounds, and none at the upper one. -/
theorem DB.WellKeyed.indexesItems_backward (keyed : db.WellKeyed) {low high : Bytes}
    (inside : ∀ item ∈ db.zitems key.1 version,
      low ≤ scoreEntry item.1 item.2 ∧ scoreEntry item.1 item.2 < high) :
    IndexesItems key.1 version
      ((db.entries.takeWhile fun entry =>
          entry.1 < encodeZscorePrefix key.1 version ++ high).reverse.takeWhile fun entry =>
        encodeZscorePrefix key.1 version ++ low ≤ entry.1)
      (db.zitems key.1 version).reverse := by
  have scan : _ = List.reverse _ := SortedMap.takeWhile_reverse_under db
    (encodeZscorePrefix key.1 version) low high
  have forward := keyed.indexesItems (p := fun entry => decide (low ≤ entry ∧ entry < high))
    fun item mem => decide_eq_true (inside item mem)
  rw [IndexesItems, List.map_reverse, ← forward, ← List.map_reverse]
  refine congrArg (List.map Prod.fst) (Eq.trans ?_ (scan.trans ?_)) <;> congr!

/-- No entry of the index stands at a score that no member has. -/
theorem DB.WellKeyed.not_prefix_seek (keyed : db.WellKeyed) {score : Double}
    (free : ∀ item ∈ db.zitems key.1 version, item.2 ≠ score) {entry : Bytes × Bytes}
    (mem : entry ∈ db.entries) :
    ¬encodeZscorePrefix key.1 version ++ scoreEntry [] score <+: entry.1 := by
  rintro ⟨rest, spelled⟩
  have stored : scoreEntry [] score ++ rest ∈ (db.scoreIndex key.1 version).keys := by
    rw [SortedMap.mem_keys, DB.scoreIndex, SortedMap.get_under, ← List.append_assoc, spelled,
      SortedMap.mem_entries.mp mem]
    rfl
  rw [keyed.keys_scoreIndex, List.mem_map] at stored
  obtain ⟨item, mem', same⟩ := stored
  exact free item mem' (prefix_scoreEntry_iff.mp ⟨rest, same.symm⟩)

/-- A scan without bounds meets every member whose score is a number. -/
theorem DB.WellKeyed.indexesItems_scan (keyed : db.WellKeyed)
    (number : ∀ item ∈ db.zitems key.1 version, item.2.isNan = false) (float : FloatUnit)
    (direction : Direction) :
    IndexesItems key.1 version
      (zscanInternal float db key.1 [] [] none direction version)
      (direction.order (db.zitems key.1 version)) := by
  have inside : ∀ item ∈ db.zitems key.1 version,
      scoreEntry [] Double.negQuietNan ≤ scoreEntry item.1 item.2 ∧
        scoreEntry item.1 item.2 < scoreEntry [] Double.quietNan := by
    intro item mem
    obtain ⟨above, below⟩ := Double.encodeScore_between (number item mem)
    exact ⟨((@scoreEntry_lt_iff ([], _) item).mpr (indexKey_lt_iff.mpr (Or.inl above))).le,
      (@scoreEntry_lt_iff item ([], _)).mpr (indexKey_lt_iff.mpr (Or.inl below))⟩
  have start : ∀ extreme : Double, zscanKey float key.1 [] extreme version =
      encodeZscorePrefix key.1 version ++ scoreEntry [] extreme := fun extreme => zscanKey_eq ..
  cases direction with
  | forward =>
      have scan := keyed.indexesItems_forward fun item mem =>
        ⟨(inside item mem).1, (inside item mem).2.le⟩
      simp only [zscanInternal, iterator, zscanKey_ne_nil, Bool.false_eq_true, false_or]
      simp only [start]
      exact scan
  | backward =>
      have scan := keyed.indexesItems_backward inside
      have free : ∀ item ∈ db.zitems key.1 version, item.2 ≠ Double.quietNan := by
        intro item mem same
        have nan := number item mem
        rw [same] at nan
        exact absurd nan (by decide)
      simp only [zscanInternal, revIterator, zscanKey_ne_nil, Bool.false_eq_true, false_or]
      simp only [start]
      cases above : db.seek (encodeZscorePrefix key.1 version ++
          scoreEntry [] Double.quietNan) with
      | nil => exact scan
      | cons entry entries =>
          have mem : entry ∈ db.entries := by
            have mem : entry ∈ db.seek (encodeZscorePrefix key.1 version ++
                scoreEntry [] Double.quietNan) := above ▸ List.mem_cons_self
            rw [SortedMap.seek_eq_filter] at mem
            exact (List.mem_filter.mp mem).1
          simp only [if_neg (keyed.not_prefix_seek free mem)]
          exact scan

theorem zscanInternal_limit (float : FloatUnit) (db : DB) (name scoreStart scoreEnd : Bytes)
    (limit : Nat) (direction : Direction) (version : UInt16) :
    zscanInternal float db name scoreStart scoreEnd (some limit) direction version =
      (zscanInternal float db name scoreStart scoreEnd none direction version).take limit := by
  cases direction <;> rfl

end Scan

/-- The members that indices name when the set is taken to have a number of members. -/
def rankWindow {α : Type} (llen start stop : Int) (items : List α) : List α :=
  let start := if start < 0 then llen + start else start
  let stop := if stop < 0 then llen + stop else stop
  (items.take (min (stop + 1) llen).toNat).drop start.toNat

/-- With the true number they are a segment. -/
theorem rankWindow_length {α : Type} (start stop : Int) (items : List α) :
    rankWindow items.length start stop items = Ranking.segment start stop items := by
  rw [Ranking.segment_eq_drop_take rfl rfl, rankWindow]
  congr 1
  · omega
  · congr 1
    omega

theorem rankWindow_whole {α : Type} (llen : Int) (items : List α) :
    rankWindow llen 0 (-1) items = items.take llen.toNat := by
  rw [rankWindow]
  simp only [lt_irrefl, if_false, Int.toNat_zero, List.drop_zero]
  congr 1
  omega

theorem keyScores_members (float : FloatUnit) (items : List (Bytes × Double)) :
    keyScores float false items = items.map Prod.fst := by
  simp only [keyScores, Bool.false_eq_true, if_false]
  exact List.map_eq_flatMap.symm

/-- The length of a set of less than `2 ^ 31` members fits into an `int`. -/
theorem toInt_llen {size : Nat} (small : size < 2 ^ 31) :
    (UInt64.ofNat size).toUInt32.toInt32.toInt = size := by
  obtain ⟨k, narrow, lower, upper⟩ := toInt_narrow (UInt64.ofNat size)
  rw [UInt64.toNat_ofNat_of_lt' (small.trans (by decide))] at narrow
  omega

section Replies

variable {float : FloatUnit} {world : World} {key : UserKey} {version : UInt16}
  {scores : SortedMap Bytes Double}

/-- The index of a live sorted set lists each member once. -/
theorem zitems_perm (keyed : world.db.WellKeyed)
    (live : world.db.contents.LiveAs key version (.zset scores)) :
    (world.db.zitems key.1 version).Perm scores.entries := by
  have nodup : (world.db.zitems key.1 version).Nodup :=
    (keyed.zitems_sorted key version).imp fun lt => by
      rintro rfl
      exact lt_irrefl _ lt
  have entries : scores.entries.Nodup := List.Nodup.of_map Prod.fst scores.keys_nodup
  refine (List.perm_ext_iff_of_nodup nodup entries).mpr fun item => ?_
  rw [mem_zitems_iff keyed live, ← SortedMap.mem_entries]

variable (keyed : world.db.WellKeyed)
  (live : world.db.contents.LiveAs key version (.zset scores))
  (number : ∀ member score, scores.get member = some score → score.isNan = false)

include keyed live number

/-- What a limited scan without bounds stands for. -/
theorem indexesItems_limited (float : FloatUnit) (direction : Direction) (limit : Nat) :
    IndexesItems key.1 version
      (zscanInternal float world.db key.1 [] [] (some limit) direction version)
      ((direction.order (world.db.zitems key.1 version)).take limit) := by
  have stored := mem_zitems_iff keyed live
  rw [zscanInternal_limit]
  exact (keyed.indexesItems_scan (fun item mem => number _ _ ((stored item).mp mem)) float
    direction).take limit

/-- The rank of a member is its place in the list of members. -/
theorem eval_procZrankGeneric (small : scores.size < 2 ^ 31) (direction : Direction)
    {member : Bytes} (stored : (scores.get member).isSome) :
    ((procZrankGeneric float direction key.1 member).eval atomically world).1 =
      .int (((direction.order (world.db.zitems key.1 version)).map Prod.fst).idxOf member) := by
  have length := (zitems_perm keyed live).length_eq
  have fits : (direction.order (world.db.zitems key.1 version)).length ≤ 2 ^ 31 - 1 := by
    rw [Direction.length_order, length]
    exact Nat.le_sub_one_of_lt small
  have items := (indexesItems_limited keyed live number float direction
    (2 ^ 31 - 1)).items_eq
  rw [List.take_of_length_le fits] at items
  have mem : member ∈ (direction.order (world.db.zitems key.1 version)).map Prod.fst := by
    obtain ⟨score, found⟩ := Option.isSome_iff_exists.mp stored
    exact List.mem_map.mpr ⟨(member, score),
      Direction.mem_order.mpr ((mem_zitems_iff keyed live _).mpr found), rfl⟩
  have positive : ¬(1 : Int) ≤ 0 := by omega
  have found : ¬((1 : Int) = 0 ∨
      ((((direction.order (world.db.zitems key.1 version)).map Prod.fst).idxOf member : Nat) :
        Int) = -1) := by omega
  have nonneg : ¬(1 : Int) < 0 := by omega
  simp only [procZrankGeneric, zrankGeneric, Program.eval_bind, eval_zsetSnapshot_live live,
    if_neg positive, items, if_pos mem, Program.pure_eq_done, Program.eval_done, if_neg nonneg,
    if_neg found]

/-- A range by rank shows what its indices name. -/
theorem eval_procZrangeGeneric (direction : Direction) (start stop : Int64) (withscore : Bool) :
    ((procZrangeGeneric float direction key.1 (str start) (str stop) withscore).eval atomically
        world).1 =
      .strings (keyScores float withscore
        (rankWindow (UInt64.ofNat scores.size).toUInt32.toInt32.toInt start.toInt stop.toInt
          (direction.order (world.db.zitems key.1 version)))) := by
  have positive : ¬(1 : Int) ≤ 0 := by omega
  have nonneg : ¬(1 : Int) < 0 := by omega
  simp only [procZrangeGeneric, zrangeGeneric, string2ll_str, Program.eval_bind,
    eval_zsetSnapshot_live live, if_neg positive]
  generalize (UInt64.ofNat scores.size).toUInt32.toInt32.toInt = llen
  generalize isFirst : (if start.toInt < 0 then llen + start.toInt else start.toInt) = first
  generalize isLast : (if stop.toInt < 0 then llen + stop.toInt else stop.toInt) = last
  have window : rankWindow llen start.toInt stop.toInt
      (direction.order (world.db.zitems key.1 version)) =
      ((direction.order (world.db.zitems key.1 version)).take (min (last + 1) llen).toNat).drop
        first.toNat := by
    rw [rankWindow, isFirst, isLast]
  generalize isLower : (if first < 0 then 0 else first) = lower
  generalize isUpper : (if last ≥ llen then llen - 1 else last) = upper
  have lowerNat : lower.toNat = first.toNat := by
    rw [← isLower]
    split_ifs <;> omega
  rw [window, ← lowerNat]
  by_cases empty : lower > last ∨ lower ≥ llen
  · have nothing : ((direction.order (world.db.zitems key.1 version)).take
        (min (last + 1) llen).toNat).drop lower.toNat = [] := by
      rw [List.drop_eq_nil_iff, List.length_take]
      omega
    simp only [if_pos empty, Program.pure_eq_done, Program.eval_done, if_neg nonneg, nothing]
    rfl
  · have same : (upper + 1).toNat = (min (last + 1) llen).toNat := by
      rw [← isUpper]
      split_ifs <;> omega
    have items := ((indexesItems_limited keyed live number float direction
      (min (last + 1) llen).toNat).skip lower.toNat).items_eq
    simp only [if_neg empty, same, items, Program.pure_eq_done, Program.eval_done, if_neg nonneg]

end Replies

/-- What the rank and range commands answer on a sorted set, against one list of its members. -/
structure RanksAgree (float : FloatUnit) (world : World) (name : Bytes)
    (scores : SortedMap Bytes Double) (items : List (Bytes × Double)) : Prop where
  /-- The list has every member once, with its score. -/
  members : items.Perm scores.entries
  whole : ∀ withscore,
    ((procZrange float name (str 0) (str (-1)) withscore).eval atomically world).1 =
      .strings (keyScores float withscore items)
  range : ∀ (start stop : Int64) withscore,
    ((procZrange float name (str start) (str stop) withscore).eval atomically world).1 =
      .strings (keyScores float withscore (Ranking.segment start.toInt stop.toInt items))
  reversed : ∀ (start stop : Int64) withscore,
    ((procZrevrange float name (str start) (str stop) withscore).eval atomically world).1 =
      .strings (keyScores float withscore (Ranking.segment start.toInt stop.toInt items.reverse))
  /-- Negative indices count from the end, and are no ranks. -/
  rank : ∀ member, (scores.get member).isSome → ∀ i : Int64, 0 ≤ i.toInt →
    (((procZrank float name member).eval atomically world).1 = .int i.toInt ↔
      ((procZrange float name (str i) (str i) false).eval atomically world).1 =
        .strings [member])
  reversedRank : ∀ member, (scores.get member).isSome → ∃ card rank : Int,
    ((procZcard name).eval atomically world).1 = .int card ∧
      ((procZrank float name member).eval atomically world).1 = .int rank ∧
      ((procZrevrank float name member).eval atomically world).1 = .int (card - 1 - rank)

section Agreement

variable {float : FloatUnit} {world : World} {key : UserKey} {scores : SortedMap Bytes Double}

theorem ranksAgree_live {version : UInt16} (keyed : world.db.WellKeyed)
    (valid : KeyValid world.db.contents key (some (version, .zset scores)))
    (number : ∀ member score, scores.get member = some score → score.isNan = false)
    (small : scores.size < 2 ^ 31) :
    RanksAgree float world key.1 scores (world.db.zitems key.1 version) := by
  have live := valid.represented
  have perm := zitems_perm keyed live
  have length : (world.db.zitems key.1 version).length = scores.size := perm.length_eq
  have ranged : ∀ direction (start stop : Int64) withscore,
      ((procZrangeGeneric float direction key.1 (str start) (str stop) withscore).eval atomically
          world).1 = .strings (keyScores float withscore
            (Ranking.segment start.toInt stop.toInt
              (direction.order (world.db.zitems key.1 version)))) := by
    intro direction start stop withscore
    have window := rankWindow_length start.toInt stop.toInt
      (direction.order (world.db.zitems key.1 version))
    rw [Direction.length_order, length] at window
    rw [eval_procZrangeGeneric keyed live number, toInt_llen small, window]
  have nodup : ((world.db.zitems key.1 version).map Prod.fst).Nodup :=
    (perm.map Prod.fst).nodup_iff.mpr scores.keys_nodup
  have mem : ∀ {member}, (scores.get member).isSome →
      member ∈ (world.db.zitems key.1 version).map Prod.fst := fun stored =>
    (perm.map Prod.fst).mem_iff.mpr (SortedMap.mem_keys.mpr stored)
  refine ⟨perm, fun withscore => ?_, ranged .forward, ranged .backward,
    fun member stored i natural => ?_, fun member stored => ?_⟩
  · rw [procZrange, ranged]
    exact congrArg (fun items => Reply.strings (keyScores float withscore items))
      (Ranking.segment_whole _)
  · obtain ⟨n, isNat⟩ := Int.eq_ofNat_of_zero_le natural
    rw [procZrank, eval_procZrankGeneric keyed live number small .forward stored, procZrange,
      ranged, keyScores_members, isNat, strings_inj, Reply.int.injEq, Nat.cast_inj]
    simp only [Direction.order]
    rw [Ranking.idxOf_eq_iff nodup (mem stored), Ranking.segment_single, List.getElem?_map]
    cases (world.db.zitems key.1 version)[n]? <;> simp
  · obtain ⟨_, _, counted, _⟩ := (ZsetView.ofLive valid).zcard
    refine ⟨_, _, congrArg Prod.fst counted,
      eval_procZrankGeneric keyed live number small .forward stored, ?_⟩
    have inside := List.idxOf_lt_length_iff.mpr (mem stored)
    have mirrored := Ranking.idxOf_reverse nodup (mem stored)
    rw [List.length_map, length] at inside mirrored
    rw [procZrevrank, eval_procZrankGeneric keyed live number small .backward stored]
    simp only [Direction.order, List.map_reverse, Reply.int.injEq]
    omega

/-- A key without a sorted set has no ranks and empty ranges. -/
theorem ranksAgree_idle (valid : KeyValid world.db.contents key none) :
    RanksAgree float world key.1 ∅ [] := by
  obtain ⟨zv, readMeta⟩ := eval_zsetSnapshot_idle valid
  have nonneg : ¬(0 : Int) < 0 := lt_irrefl 0
  have ranged : ∀ direction (start stop : Int64) withscore,
      ((procZrangeGeneric float direction key.1 (str start) (str stop) withscore).eval atomically
          world).1 = .strings [] := by
    intro direction start stop withscore
    simp only [procZrangeGeneric, zrangeGeneric, string2ll_str, Program.eval_bind, readMeta,
      le_refl, if_true, Program.pure_eq_done, Program.eval_done, if_neg nonneg]
  have segment : ∀ start stop : Int, Ranking.segment start stop
      ([] : List (Bytes × Double)) = [] := Ranking.segment_nil
  refine ⟨.refl _, ranged .forward 0 (-1), fun start stop withscore => ?_,
    fun start stop withscore => ?_, fun member stored => ?_, fun member stored => ?_⟩
  · rw [segment]
    exact ranged .forward start stop withscore
  · rw [List.reverse_nil, segment]
    exact ranged .backward start stop withscore
  · cases stored
  · cases stored

/-- The rank and range commands agree on every sorted set. -/
theorem ranksAgree (keyed : world.db.WellKeyed) {state : Option (UInt16 × Value)}
    (valid : KeyValid world.db.contents key state)
    (held : state.map Prod.snd = Value.ofScores scores)
    (number : ∀ member score, scores.get member = some score → score.isNan = false)
    (small : scores.size < 2 ^ 31) : ∃ items, RanksAgree float world key.1 scores items := by
  cases state with
  | none =>
      obtain rfl := Value.ofScores_eq_none.mp held.symm
      exact ⟨[], ranksAgree_idle valid⟩
  | some live =>
      obtain ⟨version, value⟩ := live
      obtain ⟨_, rfl⟩ := Value.ofScores_eq_some.mp held.symm
      exact ⟨_, ranksAgree_live keyed valid number small⟩

end Agreement

section Sample

/-- The texts of the two zeros. -/
def zerosFloat : FloatUnit where
  add x _ := x
  sub x _ := x
  str x := if x = Double.negZero then [45, 48] else [48]
  bytesDouble text :=
    if text = [45, 48] then some Double.negZero else if text = [48] then some 0 else none
  strtod text := if text = [45, 48] then (Double.negZero, []) else (0, [])

/-- What `ZADD k -0 b 0 a` leaves on an empty server. -/
def zerosWorld : World :=
  ((procZadd zerosFloat sampleKey.1 {} [([98], [45, 48]), ([97], [48])]).eval atomically
    emptyServer.world).2

def zerosScores : SortedMap Bytes Double := (SortedMap.put ∅ [97] 0).put [98] Double.negZero

theorem zerosWorld_valid : zerosWorld.db.WellKeyed ∧
    ∃ state, KeyValid zerosWorld.db.contents sampleKey state ∧
      state.map Prod.snd = Value.ofScores zerosScores :=
  zadd_leaves rfl (by decide) rfl

theorem zerosScores_number (member : Bytes) (score : Double)
    (stored : zerosScores.get member = some score) : score.isNan = false := by
  rw [zerosScores, SortedMap.get_put, SortedMap.get_put] at stored
  split_ifs at stored
  · cases stored
    decide
  · cases stored
    decide
  · cases stored

theorem ranksAgree_zeros :
    ∃ items, RanksAgree zerosFloat zerosWorld sampleKey.1 zerosScores items := by
  obtain ⟨keyed, state, valid, held⟩ := zerosWorld_valid
  exact ranksAgree keyed valid held zerosScores_number (by decide)

end Sample

end Vcdb
