import Vcdb.Keyspace.RequestCourse
import Vcdb.Keyspace.Footprint
import Vcdb.Lib.Lookahead
import Vcdb.Storage.ExpirationThread
import Vcdb.Storage.ScoreIndex
import Vcdb.Util.SortedSet

/-!
# The memory of expiries

The expiration handler keeps the nearest expiries in memory, so that it finds those that are due
without a look at the store.
-/

namespace Vcdb

open Util (Item SetCall items mem_items leastItem leastItem_eq_some greatestItem
  greatestItem_eq_some map_front fastKeys_record)

/-! ### The ends of the memory -/

theorem item_score_le {left right : Item Int64} (below : left ≤ right) :
    left.score ≤ right.score := by
  rcases below.lt_or_eq with less | rfl
  · rcases Item.lt_iff.mp less with lower | ⟨same, _⟩
    · exact lower.le
    · exact same.le
  · exact le_rfl

section Ends

variable {set : SortedSet} {key : Bytes} {score : Int64}

theorem SortedSet.front_eq_none (empty : set.front = none) (key : Bytes) : set.get key = none := by
  have least := map_front set
  rw [empty] at least
  cases found : set.get key with
  | none => rfl
  | some score =>
      have nil : items set = [] := List.min?_eq_none_iff.mp least.symm
      have mem : (⟨key, score⟩ : Item Int64) ∈ items set := mem_items.mpr found
      rw [nil] at mem
      cases mem

theorem SortedSet.front_eq_some (front : set.front = some (key, score)) :
    set.get key = some score ∧ ∀ other bound, set.get other = some bound → score ≤ bound := by
  have least := map_front set
  rw [front] at least
  obtain ⟨mem, least⟩ := leastItem_eq_some.mp least.symm
  exact ⟨mem_items.mp mem, fun other bound found =>
    item_score_le (least ⟨other, bound⟩ (mem_items.mpr found))⟩

/-- What comes last. -/
theorem SortedSet.back_eq_some {item : Item Int64} (back : greatestItem set = some item) :
    set.get item.key = some item.score ∧
      ∀ other bound, set.get other = some bound → bound ≤ item.score := by
  obtain ⟨mem, greatest⟩ := greatestItem_eq_some.mp back
  exact ⟨mem_items.mp mem, fun other bound found =>
    item_score_le (greatest ⟨other, bound⟩ (mem_items.mpr found))⟩

theorem SortedSet.exists_back (filled : set.size ≠ 0) : ∃ item, greatestItem set = some item := by
  rw [← Option.ne_none_iff_exists', ne_eq, greatestItem, List.max?_eq_none_iff]
  intro nil
  refine filled (SortedMap.size_eq_zero.mpr (SortedMap.ext fun key => ?_))
  cases found : set.get key with
  | none => rfl
  | some score =>
      have mem : (⟨key, score⟩ : Item Int64) ∈ items set := mem_items.mpr found
      rw [nil] at mem
      cases mem

end Ends

/-! ### What is remembered -/

/-- The memory shows the nearest of the known expiries, and the thread sleeps no longer than until
the first of them. -/
structure Recalls (known : Bytes → Option Int64) (handler : ExpirationHandler) : Prop where
  lookahead : Lookahead handler.fastKeys.get known
  first : ∀ key ts, known key = some ts → handler.firstTimeout ≤ ts

section Recalls

variable {known : Bytes → Option Int64} {handler : ExpirationHandler} {key : Bytes} {ts : Int64}

theorem get_erase_update (set : SortedSet) (key : Bytes) :
    SortedMap.get (set.erase key) = Function.update set.get key none := by
  funext other
  rw [SortedMap.get_erase, Function.update_apply]
  split_ifs <;> rfl

theorem get_put_update (set : SortedSet) (key : Bytes) (ts : Int64) :
    SortedMap.get (set.put key ts) = Function.update set.get key (some ts) := by
  funext other
  rw [SortedMap.get_put, Function.update_apply]
  split_ifs <;> rfl

/-- Nothing is known of a key any more. -/
theorem Recalls.forget (recalls : Recalls known handler) (key : Bytes) :
    Recalls (Function.update known key none) (handler.delFastKey key) where
  lookahead := by
    have erased := recalls.lookahead.erase key
    rw [← get_erase_update] at erased
    exact erased
  first other ts found := by
    rw [Function.update_apply] at found
    split_ifs at found
    exact recalls.first other ts found

theorem first_insertFastKey (handler : ExpirationHandler) (key : Bytes) (ts : Int64) :
    (handler.insertFastKey key ts).firstTimeout = min ts handler.firstTimeout := by
  have unfolded : (handler.insertFastKey key ts).firstTimeout =
      if ts < handler.firstTimeout then ts else handler.firstTimeout := by
    rw [ExpirationHandler.insertFastKey]
    split_ifs <;> rfl
  rw [unfolded]
  split_ifs with sooner
  · exact (min_eq_left sooner.le).symm
  · exact (min_eq_right (not_lt.mp sooner)).symm

/-- The keys in memory after a new expiry has been recorded. -/
theorem fastKeys_insertFastKey (handler : ExpirationHandler) (key : Bytes) (ts : Int64) :
    (handler.insertFastKey key ts).fastKeys =
      if handler.fastKeys.size ≠ 0 ∧ ts ≤ handler.fastKeys.maxScore then
        if SortedMap.size (handler.fastKeys.put key ts) > ExpirationHandler.batchSize then
          SortedSet.popBack (handler.fastKeys.put key ts)
        else handler.fastKeys.put key ts
      else handler.fastKeys.erase key := by
  rw [ExpirationHandler.insertFastKey]
  simp only
  split_ifs <;> rfl

theorem lookahead_popBack {set : SortedSet} (lookahead : Lookahead set.get known) :
    Lookahead set.popBack.get known := by
  rw [(fastKeys_record set).2.1, SetCall.record]
  cases back : greatestItem set with
  | none => exact lookahead
  | some item =>
      obtain ⟨top, greatest⟩ := SortedSet.back_eq_some back
      have dropped := lookahead.drop_greatest top greatest
      rw [← get_erase_update] at dropped
      exact dropped

theorem lookahead_insertFastKey (lookahead : Lookahead handler.fastKeys.get known) (key : Bytes)
    (ts : Int64) : Lookahead (handler.insertFastKey key ts).fastKeys.get
      (Function.update known key (some ts)) := by
  rw [fastKeys_insertFastKey]
  by_cases near : handler.fastKeys.size ≠ 0 ∧ ts ≤ handler.fastKeys.maxScore
  · obtain ⟨item, back⟩ := SortedSet.exists_back near.1
    have within := near.2
    rw [(fastKeys_record _).2.2, back] at within
    have inserted := @Lookahead.insert _ _ _ _ _ key ts _ lookahead
      ⟨item.key, item.score, (SortedSet.back_eq_some back).1, within⟩
    rw [← get_put_update] at inserted
    rw [if_pos near]
    split_ifs
    · exact lookahead_popBack inserted
    · exact inserted
  · rw [if_neg near, get_erase_update]
    refine lookahead.skip fun other bound found => ?_
    by_cases filled : handler.fastKeys.size ≠ 0
    · obtain ⟨item, back⟩ := SortedSet.exists_back filled
      have beyond := not_le.mp fun within => near ⟨filled, within⟩
      rw [(fastKeys_record _).2.2, back] at beyond
      exact ((SortedSet.back_eq_some back).2 other bound found).trans beyond.le
    · rw [SortedMap.size_eq_zero.mp (not_not.mp filled)] at found
      cases found

/-- A new expiry is known. -/
theorem Recalls.insert (recalls : Recalls known handler) (key : Bytes) (ts : Int64) :
    Recalls (Function.update known key (some ts)) (handler.insertFastKey key ts) where
  lookahead := lookahead_insertFastKey recalls.lookahead key ts
  first other bound found := by
    rw [first_insertFastKey]
    rw [Function.update_apply] at found
    split_ifs at found
    · exact min_le_of_left_le (Option.some_inj.mp found).le
    · exact min_le_of_right_le (recalls.first other bound found)

/-- Before the first key in memory nothing is known. -/
theorem Recalls.peek (lookahead : Lookahead handler.fastKeys.get known)
    (front : handler.fastKeys.front = some (key, ts)) :
    Recalls known { handler with firstTimeout := ts } where
  lookahead := lookahead
  first other bound found := by
    obtain ⟨shown, least⟩ := SortedSet.front_eq_some front
    exact lookahead.least shown least found

theorem Recalls.pop (recalls : Recalls known handler)
    (front : handler.fastKeys.front = some (key, ts)) :
    Recalls (Function.update known key none)
      { handler with fastKeys := handler.fastKeys.popFront } := by
  have erased := recalls.forget key
  rw [ExpirationHandler.delFastKey] at erased
  rw [SortedSet.popFront, front]
  exact erased

/-- Nothing is known after the front of an empty memory. -/
theorem Recalls.of_empty (empty : ∀ key, known key = none) (none' : handler.fastKeys.size = 0) :
    Recalls known handler where
  lookahead := by
    rw [SortedMap.size_eq_zero.mp none']
    exact Lookahead.empty known
  first key ts found := by
    rw [empty] at found
    cases found

/-- The thread begins without a memory, and looks at the store at once. -/
theorem Recalls.of_started (since : ∀ key ts, known key = some ts → 0 ≤ ts) : Recalls known {} where
  lookahead := Lookahead.empty known
  first := since

end Recalls

/-! ### Taking what is due -/

/-- What is known of the keys that have not been taken. -/
def without (known : Bytes → Option Int64) (keys : SortedMap Bytes Unit) : Bytes → Option Int64 :=
  fun key => if (keys.get key).isSome then none else known key

/-- Keys have been taken from the memory, each at a time when it was due. -/
structure Taken (known : Bytes → Option Int64) (world : World) (keys : SortedMap Bytes Unit)
    (after : World) : Prop where
  db : after.db = world.db
  clock : ∀ n, ∃ m, after.clock n = world.clock m
  recalls : Recalls (without known keys) after.expiration
  due : ∀ key, (keys.get key).isSome → ∃ n ts, known key = some ts ∧ ts ≤ world.clock n

section Taking

variable {known : Bytes → Option Int64} {keys : SortedMap Bytes Unit} {world after : World}

theorem without_put (known : Bytes → Option Int64) (keys : SortedMap Bytes Unit) (key : Bytes) :
    without known (keys.put key ()) = Function.update (without known keys) key none := by
  funext other
  simp only [without, SortedMap.get_put, Function.update_apply]
  by_cases same : other = key
  · simp [same]
  · simp [same]

/-- The latency of an instant that is not before the epoch. -/
theorem latency_nonneg {now ts : Int64} (since : 0 ≤ now) (positive : 0 ≤ ts) :
    0 ≤ now - ts ↔ ts ≤ now := by
  rw [Int64.le_iff_toInt_le] at since positive
  have above := Int64.toInt_le now
  have above' := Int64.toInt_le ts
  rw [Int64.le_iff_toInt_le, Int64.le_iff_toInt_le, Int64.toInt_sub, Int.bmod_eq_of_le]
  · change 0 ≤ now.toInt - ts.toInt ↔ _
    omega
  · change 0 ≤ _ at since positive
    change _ ≤ (9223372036854775807 : Int) at above above'
    omega
  · change 0 ≤ _ at since positive
    change _ ≤ (9223372036854775807 : Int) at above above'
    omega

section Steps

variable {key : Bytes} {score : Int64} (count : Nat)

theorem popDueKeys_due (front : after.expiration.fastKeys.front = some (key, score))
    (due : 0 ≤ after.clock 0 - score) : popDueKeys (count + 1) after keys =
      popDueKeys count (after.tick.handle fun handler => ⟨score, handler.fastKeys.popFront⟩)
        (keys.put key ()) := by
  rw [popDueKeys, front]
  exact if_pos due

theorem popDueKeys_early (front : after.expiration.fastKeys.front = some (key, score))
    (early : ¬0 ≤ after.clock 0 - score) : popDueKeys (count + 1) after keys =
      (keys, after.tick.handle fun handler => { handler with firstTimeout := score }) := by
  rw [popDueKeys, front]
  exact if_neg early

theorem popDueKeys_idle (front : after.expiration.fastKeys.front = none) :
    popDueKeys (count + 1) after keys = (keys, after) := by
  rw [popDueKeys, front]

end Steps

theorem Taken.popDueKeys (taken : Taken known world keys after) (since : world.SinceEpoch)
    (positive : ∀ key ts, known key = some ts → 0 ≤ ts) (count : Nat) :
    Taken known world (popDueKeys count after keys).1 (popDueKeys count after keys).2 := by
  induction count generalizing keys after with
  | zero => exact taken
  | succ count ih =>
      cases front : after.expiration.fastKeys.front with
      | none =>
          rw [popDueKeys_idle count front]
          exact taken
      | some found =>
          obtain ⟨key, score⟩ := found
          have peeked := Recalls.peek taken.recalls.lookahead front
          have later : ∀ n, ∃ m, after.tick.clock n = world.clock m := fun n => taken.clock (n + 1)
          by_cases due : 0 ≤ after.clock 0 - score
          · obtain ⟨m, reading⟩ := taken.clock 0
            have shown := taken.recalls.lookahead.agrees key score (SortedSet.front_eq_some front).1
            rw [without] at shown
            split_ifs at shown
            rw [popDueKeys_due count front due]
            rw [reading, latency_nonneg (since m) (positive key score shown)] at due
            refine ih ⟨taken.db, later, ?_, fun other listed => ?_⟩
            · rw [without_put]
              exact peeked.pop front
            · rw [SortedMap.get_put] at listed
              split_ifs at listed with same
              · exact ⟨m, score, same ▸ shown, due⟩
              · exact taken.due other listed
          · rw [popDueKeys_early count front due]
            exact ⟨taken.db, later, peeked, taken.due⟩

/-- What has been taken stays taken. -/
theorem popDueKeys_kept {key : Bytes} (count : Nat) (listed : (keys.get key).isSome) :
    ((popDueKeys count after keys).1.get key).isSome := by
  induction count generalizing keys after with
  | zero => exact listed
  | succ count ih =>
      cases front : after.expiration.fastKeys.front with
      | none =>
          rw [popDueKeys_idle count front]
          exact listed
      | some found =>
          by_cases due : 0 ≤ after.clock 0 - found.2
          · rw [popDueKeys_due count front due]
            refine ih ?_
            rw [SortedMap.get_put]
            split_ifs
            · rfl
            · exact listed
          · rw [popDueKeys_early count front due]
            exact listed

/-- The first key is taken when it is due. -/
theorem popDueKeys_front {key : Bytes} {score : Int64} (count : Nat)
    (front : after.expiration.fastKeys.front = some (key, score))
    (due : 0 ≤ after.clock 0 - score) :
    ((popDueKeys (count + 1) after keys).1.get key).isSome := by
  rw [popDueKeys_due count front due]
  refine popDueKeys_kept count ?_
  rw [SortedMap.get_put_self]
  rfl

/-- The sleep is set anew before anything is taken. -/
theorem popDueKeys_awake {entry : Bytes × Int64} (count : Nat)
    (front : after.expiration.fastKeys.front = some entry) :
    popDueKeys (count + 1) after keys = popDueKeys (count + 1)
      (after.handle fun handler => { handler with firstTimeout := entry.2 }) keys := by
  have same : (after.handle fun handler =>
      { handler with firstTimeout := entry.2 }).expiration.fastKeys.front = some entry := front
  rw [popDueKeys, popDueKeys, front, same]
  rfl

end Taking

/-! ### Filling the memory -/

section Loading

variable {db : DB} {num : Nat} {key : Bytes}

theorem eiterator_eq (entries : List (Bytes × Bytes)) :
    eiterator entries = (entries.takeWhile fun entry =>
      entry.1.head? = some DataType.escore).filterMap fun entry => decodeEScoreItemKey entry.1 := by
  induction entries with
  | nil => rfl
  | cons entry entries ih =>
      obtain ⟨ks, vs⟩ := entry
      rw [eiterator, List.takeWhile_cons]
      by_cases family : ks.head? = some DataType.escore
      · rw [if_neg (not_not.mpr family), if_pos (decide_eq_true family), List.filterMap_cons, ih]
        cases decodeEScoreItemKey ks with
        | none => rfl
        | some ek => rfl
      · rw [if_pos family, if_neg (by simpa using family)]
        rfl

/-- The keys of the expiry index are ordered by time. -/
theorem encodeEscoreKey_le {key other : Bytes} {score score' : UInt64}
    (below : encodeEscoreKey key score ≤ encodeEscoreKey other score') : score ≤ score' := by
  by_contra above
  rw [UInt64.not_le, UInt64.lt_iff_toNat_lt] at above
  have less : be64 score' ++ other < be64 score ++ key :=
    Endian.lt_append_of_length_eq _ _ (by simp) (be64_lt above)
  have whole : encodeEscoreKey other score' < encodeEscoreKey key score :=
    (SortedMap.append_lt_append_iff [DataType.escore]).mpr less
  exact absurd below (not_le.mpr whole)

/-- From the epoch on, instants are ordered as the numbers of their bits. -/
theorem le_of_toUInt64_le {left right : Int64} (since : 0 ≤ left) (since' : 0 ≤ right)
    (below : left.toUInt64 ≤ right.toUInt64) : left ≤ right := by
  rw [UInt64.le_iff_toNat_le, Int64.toNat_toUInt64_of_le since,
    Int64.toNat_toUInt64_of_le since'] at below
  rw [Int64.le_iff_toInt_le] at since' ⊢
  change left.toInt.toNat ≤ right.toInt.toNat at below
  change 0 ≤ right.toInt at since'
  omega

theorem decode_encodeEscoreKey (key : Bytes) (score : UInt64) :
    decodeEScoreItemKey (encodeEscoreKey key score) = some ⟨key, score.toInt64⟩ :=
  @StorageKey.decodes (.escore score key) trivial

theorem Spelled.escore (spelled : Spelled db) {raw val : Bytes} (found : db.get raw = some val)
    (family : raw.head? = some DataType.escore) :
    ∃ key score, raw = encodeEscoreKey key score := by
  obtain ⟨record, rfl⟩ := spelled raw (by rw [found]; rfl)
  cases record with
  | escore score key => exact ⟨key, score, rfl⟩
  | metadata | item | zscore | ekey | delete => exact absurd (Option.some_inj.mp family) (by decide)

/-- The index and the expiries tell the same. -/
theorem Timely.escore_iff (timely : Timely db) (key : Bytes) (score : UInt64) :
    (db.get (encodeEscoreKey key score)).isSome ↔ storedExpiry db key = some score.toInt64 := by
  have index : (db.ledger key).index score = db.get (encodeEscoreKey key score) := rfl
  have stored : storedExpiry db key = (db.ledger key).expiry.map fun strScore =>
    (readHostOrder64 strScore).toInt64 := rfl
  rw [stored, ← index]
  rcases timely.tidy key with ⟨none', empty⟩ | ⟨ts, some', single⟩
  · simp [none', empty]
  · rw [some', single, Option.map_some, readHostOrder64_hostOrder64, Option.some_inj]
    split_ifs with same
    · simp [same]
    · simp only [Option.isSome_none, Bool.false_eq_true, false_iff]
      exact fun eq => same (by rw [← UInt64.toUInt64_toInt64 score, ← eq]; simp)

theorem nearestExpiries_eq (db : DB) (num : Nat) : nearestExpiries db num =
    (((db.seek [DataType.escore]).take num).takeWhile fun entry =>
      entry.1.head? = some DataType.escore).filterMap fun entry => decodeEScoreItemKey entry.1 := by
  have unbounded := iterator_eq_seek db [DataType.escore]
  rw [iterator] at unbounded
  rw [nearestExpiries, eiterator_eq, iterator, unbounded]

/-- What the iterator delivers are expiries of the store. -/
theorem storedExpiry_of_nearest (spelled : Spelled db) (timely : Timely db) {ek : EScoreItemKey}
    (mem : ek ∈ nearestExpiries db num) : storedExpiry db ek.field = some ek.score ∧
      ∃ val, (encodeEscoreKey ek.field ek.score.toUInt64, val) ∈
        (db.seek [DataType.escore]).take num := by
  rw [nearestExpiries_eq, List.mem_filterMap] at mem
  obtain ⟨⟨raw, val⟩, listed, decoded⟩ := mem
  have family : raw.head? = some DataType.escore := by
    simpa using List.mem_takeWhile_imp listed
  have taken := (List.takeWhile_sublist _).subset listed
  have found := (SortedMap.mem_seek.mp (List.mem_of_mem_take taken)).2
  obtain ⟨key, score, rfl⟩ := spelled.escore found family
  rw [decode_encodeEscoreKey, Option.some_inj] at decoded
  subst decoded
  exact ⟨(timely.escore_iff key score).mp (by rw [found]; rfl), val, by simpa using taken⟩

/-- What stands at or before a member of a sorted list. -/
theorem mem_takeWhile_of_sorted {entries : List (Bytes × Bytes)}
    (sorted : entries.Pairwise fun x y => x.1 < y.1) {p : Bytes × Bytes → Bool}
    {entry : Bytes × Bytes} (mem : entry ∈ entries)
    (before : ∀ other ∈ entries, other.1 ≤ entry.1 → p other) : entry ∈ entries.takeWhile p := by
  induction entries with
  | nil => cases mem
  | cons first entries ih =>
      obtain ⟨above, sorted⟩ := List.pairwise_cons.mp sorted
      have first_le : first.1 ≤ entry.1 := by
        rcases List.mem_cons.mp mem with rfl | later
        · exact le_rfl
        · exact (above entry later).le
      rw [List.takeWhile_cons, if_pos (before first List.mem_cons_self first_le)]
      rcases List.mem_cons.mp mem with rfl | later
      · exact List.mem_cons_self
      · exact List.mem_cons_of_mem _ (ih sorted later fun other mem =>
          before other (List.mem_cons_of_mem _ mem))

theorem head_of_between {raw : Bytes} {key : Bytes} {score : UInt64}
    (lower : [DataType.escore] ≤ raw) (upper : raw ≤ encodeEscoreKey key score) :
    raw.head? = some DataType.escore := by
  rcases upper.lt_or_eq with upper | rfl
  · have starts : [DataType.escore] <+: raw := SortedMap.prefix_of_between lower upper
    obtain ⟨rest, rfl⟩ := starts
    rfl
  · rfl

/-- What the iterator does not deliver comes after all that it delivers. -/
theorem nearestExpiries_le (spelled : Spelled db) (timely : Timely db)
    (positive : ∀ key ts, storedExpiry db key = some ts → 0 ≤ ts) {ts : Int64}
    (stored : storedExpiry db key = some ts) (left : ⟨key, ts⟩ ∉ nearestExpiries db num)
    {ek : EScoreItemKey} (mem : ek ∈ nearestExpiries db num) : ek.score ≤ ts := by
  obtain ⟨delivered, val, taken⟩ := storedExpiry_of_nearest spelled timely mem
  obtain ⟨val', found⟩ := Option.isSome_iff_exists.mp
    ((timely.escore_iff key ts.toUInt64).mpr (by rw [stored]; rfl))
  have lower : [DataType.escore] ≤ [DataType.escore] ++ (be64 ts.toUInt64 ++ key) :=
    not_lt.mp List.le_append_left
  have sought := SortedMap.mem_seek.mpr ⟨lower, found⟩
  have sorted := SortedMap.seek_sorted db [DataType.escore]
  rw [← List.take_append_drop num (SortedMap.seek db _)] at sought sorted
  obtain ⟨first, _, apart⟩ := List.pairwise_append.mp sorted
  rcases List.mem_append.mp sought with early | late
  · refine absurd ?_ left
    rw [nearestExpiries_eq, List.mem_filterMap]
    refine ⟨_, mem_takeWhile_of_sorted first early fun other listed upper => ?_, ?_⟩
    · exact decide_eq_true (head_of_between
        (SortedMap.mem_seek.mp (List.mem_of_mem_take listed)).1 upper)
    · exact decode_encodeEscoreKey key ts.toUInt64
  · have below := encodeEscoreKey_le (apart _ taken _ late).le
    exact le_of_toUInt64_le (positive ek.field ek.score delivered) (positive key ts stored) below

/-- The memory after the delivered entries have been added. -/
theorem get_foldl_addFastKey (eks : List EScoreItemKey) (handler : ExpirationHandler) (key : Bytes) :
    (∀ ts, (eks.foldl ExpirationHandler.addFastKey handler).fastKeys.get key = some ts →
      ⟨key, ts⟩ ∈ eks ∨ handler.fastKeys.get key = some ts) ∧
    ((handler.fastKeys.get key).isSome ∨ (∃ ts, ⟨key, ts⟩ ∈ eks) →
      ((eks.foldl ExpirationHandler.addFastKey handler).fastKeys.get key).isSome) := by
  induction eks generalizing handler with
  | nil => exact ⟨fun ts found => Or.inr found, fun shown => by simpa using shown⟩
  | cons ek eks ih =>
      have added : (handler.addFastKey ek).fastKeys.get key =
          if key = ek.field then some ek.score else handler.fastKeys.get key := by
        refine (SortedMap.get_put _ _ _ _).trans ?_
        split_ifs <;> rfl
      obtain ⟨sources, shows⟩ := ih (handler.addFastKey ek)
      refine ⟨fun ts found => ?_, fun shown => shows ?_⟩
      · rcases sources ts found with later | before
        · exact Or.inl (List.mem_cons_of_mem _ later)
        · rw [added] at before
          split_ifs at before with same
          · obtain rfl := Option.some_inj.mp before
            subst same
            exact Or.inl List.mem_cons_self
          · exact Or.inr before
      · rw [added]
        split_ifs with same
        · exact Or.inl rfl
        · refine shown.imp id fun ⟨ts, mem⟩ => ⟨ts, ?_⟩
          rcases List.mem_cons.mp mem with rfl | later
          · exact absurd rfl same
          · exact later

theorem loadExpirationKeysFromDb_eq (num : Nat) (world : World) :
    loadExpirationKeysFromDb num world = world.handle fun handler =>
      (nearestExpiries world.db num).foldl ExpirationHandler.addFastKey handler := by
  rw [loadExpirationKeysFromDb]
  generalize nearestExpiries world.db num = eks
  induction eks generalizing world with
  | nil => rfl
  | cons ek eks ih => exact ih (world.handle (·.addFastKey ek))

/-- An empty memory is filled with the nearest expiries of the store. -/
theorem lookahead_load {world : World} (spelled : Spelled world.db) (timely : Timely world.db)
    (positive : ∀ key ts, storedExpiry world.db key = some ts → 0 ≤ ts)
    (empty : world.expiration.fastKeys = ∅) (num : Nat) :
    Lookahead (loadExpirationKeysFromDb num world).expiration.fastKeys.get
      (storedExpiry world.db) := by
  have sources : ∀ key ts,
      (loadExpirationKeysFromDb num world).expiration.fastKeys.get key = some ts →
        ⟨key, ts⟩ ∈ nearestExpiries world.db num := by
    intro key ts found
    rw [loadExpirationKeysFromDb_eq] at found
    refine ((get_foldl_addFastKey _ _ key).1 ts found).resolve_right fun before => ?_
    rw [empty] at before
    cases before
  refine Lookahead.of_nearest (fun key ts found =>
    (storedExpiry_of_nearest spelled timely (sources key ts found)).1) ?_
  intro key ts stored hidden other bound shown
  refine nearestExpiries_le spelled timely positive stored (fun mem => ?_) (sources other bound shown)
  have visible := (get_foldl_addFastKey (nearestExpiries world.db num) world.expiration key).2
    (Or.inr ⟨ts, mem⟩)
  rw [loadExpirationKeysFromDb_eq] at hidden
  have nothing : ((nearestExpiries world.db num).foldl ExpirationHandler.addFastKey
    world.expiration).fastKeys.get key = none := hidden
  rw [nothing] at visible
  cases visible

end Loading

end Vcdb
