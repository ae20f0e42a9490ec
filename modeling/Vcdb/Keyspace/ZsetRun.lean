import Vcdb.Keyspace.HashRun
import Vcdb.Keyspace.ZsetScore

/-!
# Runs of sorted set commands

Every run of sorted set commands answers as on finite maps while no map reaches 2^64 members, and
the score index follows the scores exactly.  The member that would be the 2^64-th wraps the stored
length to zero, and the sorted set is deleted.
-/

namespace Vcdb

/-- The sorted set commands, on maps that stay below 2^64 members. -/
def zsetFamily (float : FloatUnit) : CommandFamily ZsetCommand where
  run := ZsetCommand.run float
  key := ZsetCommand.key
  meaning command value outcome := command.Responds float value outcome
  admissible command value :=
    ∀ reply scores, command.Responds float value (reply, some (.zset scores)) →
      scores.size < 2 ^ 64
  refines _ _ _ _ valid own fresh small := ZsetCommand.refines valid own fresh small

/-- The key exists when it holds something.  The length stored for a sorted set is the number of the
members stored under its version, these have the scores of the map, and the index has one entry for
each of them, under its score, and no other. -/
def ZsetStored (world : World) (key : UserKey) (value : Option Value) : Prop :=
  (checkMetaKey key.1).eval atomically world = (if value.isSome then 1 else 0, world) ∧
    ∀ scores, value = some (.zset scores) → scores ≠ ∅ ∧
      ∃ version, world.db.contents (.metadata key) =
          some (encodeZsetMetaVal (UInt64.ofNat (world.db.items key.1 version).size) version) ∧
        (∀ member, (world.db.items key.1 version).get member =
          (scores.get member).map hostOrder64) ∧
        ∀ entry, ((world.db.scoreIndex key.1 version).get entry).isSome ↔
          ∃ member score, entry = scoreEntry member score ∧
            (world.db.items key.1 version).get member = some (hostOrder64 score)

theorem KeyValid.zsetStored {world : World} {key : UserKey} {state : Option (UInt16 × Value)}
    (keyed : world.db.WellKeyed) (valid : KeyValid world.db.contents key state) :
    ZsetStored world key (state.map Prod.snd) := by
  refine ⟨by rw [checkMetaKey_eq valid, Option.isSome_map], fun scores holds => ?_⟩
  obtain ⟨⟨version, value⟩, rfl, rfl⟩ := Option.map_eq_some_iff.mp holds
  obtain ⟨positive, _, metadata, items, index⟩ := valid.represented
  have item : ∀ member, (world.db.items key.1 version).get member =
      (scores.get member).map hostOrder64 := by
    intro member
    rw [DB.get_items]
    exact items member
  have size : (world.db.items key.1 version).size = scores.size := by
    rw [← SortedMap.card_domain, ← SortedMap.card_domain]
    congr 1
    ext member
    rw [SortedMap.mem_domain, SortedMap.mem_domain, item, Option.isSome_map]
  have entryOf : ∀ member score, ((world.db.scoreIndex key.1 version).get
      (scoreEntry member score)).isSome ↔ scores.get member = some score := by
    intro member score
    rw [DB.scoreIndex, SortedMap.get_under, ← encodeZscoreKey_eq_append]
    change (world.db.contents (.zscore key version score member)).isSome ↔ _
    rw [index]
    split_ifs with held <;> simp [held]
  refine ⟨?_, version, by rw [size]; exact metadata, item, fun entry => ⟨fun found => ?_, ?_⟩⟩
  · rintro rfl
    exact absurd positive (lt_irrefl 0)
  · obtain ⟨member, score, rfl⟩ := keyed.scoreEntry_of_mem (SortedMap.mem_keys.mpr found)
    refine ⟨member, score, rfl, ?_⟩
    rw [item, (entryOf member score).mp found]
    rfl
  · rintro ⟨member, score, rfl, stored⟩
    rw [item, Option.map_eq_some_iff] at stored
    obtain ⟨held, found, same⟩ := stored
    rw [entryOf, found, hostOrder64_injective same]

/-- A steady run of sorted set commands answers as on finite maps, and every state it reaches stores
these maps with an exact index. -/
theorem zset_run_refines {float : FloatUnit} {server : Server} {keyspace : Keyspace}
    {events : List (Event ZsetCommand)} (holds : server.Holds keyspace)
    (steady : (zsetFamily float).Steady server keyspace events) :
    ∃ last, (zsetFamily float).Runs keyspace events
        (server.run (ZsetCommand.run float) events).1 last ∧
      ∀ key : UserKey,
        ZsetStored (server.run (ZsetCommand.run float) events).2.world key (last key.1) := by
  obtain ⟨last, runs, final⟩ := (zsetFamily float).run_refines holds steady
  refine ⟨last, runs, fun key => ?_⟩
  obtain ⟨state, valid, value⟩ := final.represents key
  exact value ▸ valid.zsetStored final.keyed

/-- Adding a member and counting is steady. -/
theorem zset_run_refines_added :
    ∃ last, (zsetFamily sampleFloat).Runs (fun _ => none)
        [.client (.zadd sampleKey.1 {} [([97], [49, 54])]), .deleter, .client (.zcard sampleKey.1)]
        (emptyServer.run (ZsetCommand.run sampleFloat)
          [.client (.zadd sampleKey.1 {} [([97], [49, 54])]), .deleter,
            .client (.zcard sampleKey.1)]).1 last ∧
      ∀ key : UserKey, ZsetStored (emptyServer.run (ZsetCommand.run sampleFloat)
        [.client (.zadd sampleKey.1 {} [([97], [49, 54])]), .deleter,
          .client (.zcard sampleKey.1)]).2.world key (last key.1) := by
  have denotes : ZsetCommand.denoteZadd sampleFloat {} ∅ [([97], [49, 54])] =
      (.int 1, sampleScores) := rfl
  have added : ∀ {outcome},
      (ZsetCommand.zadd sampleKey.1 {} [([97], [49, 54])]).Responds sampleFloat none outcome →
        outcome.2 = some (.zset sampleScores) := by
    rintro outcome ⟨after, same, left⟩
    rw [left, show after = sampleScores from congrArg Prod.snd (same.trans denotes)]
    rfl
  have small : sampleScores.size < 2 ^ 64 := by decide
  refine zset_run_refines (Server.holds_initial _ _ _ _)
    ⟨⟨sampleKey, rfl, fun _ _ => rfl⟩, fun reply scores held => ?_, fun value held => ?_⟩
  · have same : some (Value.zset scores) = some (.zset sampleScores) := added held
    cases same
    exact small
  · obtain rfl : value = some (.zset sampleScores) := added held
    refine ⟨⟨sampleKey, rfl, fun idle => ?_⟩, ?_, fun _ _ => trivial⟩
    · exact absurd idle (by simp [zsetFamily, ZsetCommand.key])
    · rintro reply scores ⟨after, same, left⟩
      rw [show after = sampleScores from congrArg Prod.snd same] at left
      have held : some (Value.zset scores) = some (.zset sampleScores) := left
      cases held
      exact small

section Overflow

/-- Add the `i`-th member. -/
def zgrowStep (i : Nat) : ZsetCommand := .zadd grownKey.1 {} [(grownField i, [49, 54])]

/-- The first `n` members. -/
def grownScores (n : Nat) : SortedMap Bytes Double :=
  SortedMap.putAll ∅ ((List.range n).map fun i => (grownField i, sixteen))

theorem grownScores_succ (n : Nat) :
    grownScores (n + 1) = (grownScores n).put (grownField n) sixteen := by
  rw [grownScores, List.range_succ, List.map_append, SortedMap.putAll, List.foldl_append]
  rfl

theorem get_grownScores {n m : Nat} (le : n ≤ m) (small : m < 2 ^ 64) :
    (grownScores n).get (grownField m) = none := by
  rw [← Option.not_isSome_iff_eq_none, grownScores, SortedMap.isSome_get_putAll]
  rintro (named | found)
  · rw [List.map_map, List.mem_map] at named
    obtain ⟨i, mem, same⟩ := named
    have below := List.mem_range.mp mem
    have := grownField_inj (by omega) small same
    omega
  · cases found

theorem size_grownScores {n : Nat} (small : n ≤ 2 ^ 64) : (grownScores n).size = n := by
  induction n with
  | zero => rfl
  | succ n ih =>
      rw [grownScores_succ, SortedMap.size_put, get_grownScores le_rfl (by omega), ih (by omega)]
      simp

theorem judged_zgrowStep {n : Nat} (small : n < 2 ^ 64) :
    (scoreMap false [(grownField n, [49, 54])]).entries.mapM
      (zaddJudge sampleFloat {} (grownScores n)) = .ok [(grownField n, .added, some sixteen)] := by
  have missing := get_grownScores (le_refl n) small
  have judge : zaddJudge sampleFloat {} (grownScores n) (grownField n, [49, 54]) =
      .ok (grownField n, .added, some sixteen) := by
    have parsed : sampleFloat.bytesDouble [49, 54] = some sixteen := rfl
    have number : sixteen.isNan = false := by decide
    simp only [zaddJudge, parsed, zsetJudge, number, missing]
    rfl
  have single : (scoreMap false [(grownField n, [49, 54])]).entries =
      [(grownField n, [49, 54])] := rfl
  rw [single, mapM_cons_zaddJudge, judge]
  rfl

theorem denote_zgrowStep {n : Nat} (small : n < 2 ^ 64) :
    ZsetCommand.denoteZadd sampleFloat {} (grownScores n) [(grownField n, [49, 54])] =
      (.int 1, grownScores (n + 1)) := by
  have size : ((grownScores (n + 1)).size : Int) - (grownScores n).size = 1 := by
    rw [size_grownScores (by omega), size_grownScores (by omega)]
    omega
  have after : (grownScores n).putAll [(grownField n, sixteen)] = grownScores (n + 1) :=
    (grownScores_succ n).symm
  simp only [ZsetCommand.denoteZadd, judged_zgrowStep small]
  change (Reply.int (((grownScores n).putAll [(grownField n, sixteen)]).size -
    (grownScores n).size), (grownScores n).putAll [(grownField n, sixteen)]) = _
  rw [after, size]

/-- On a key that holds scores, if any, a command that is not refused computes its meaning. -/
theorem ZsetCommand.responds_ofScores {float : FloatUnit} {command : ZsetCommand}
    (complete : command.argumentReply float = none) {scores : SortedMap Bytes Double}
    {outcome : Reply × Option Value} :
    command.Responds float (Value.ofScores scores) outcome ↔
      ∃ after, command.Denotes float scores (outcome.1, after) ∧
        outcome.2 = Value.ofScores after := by
  rw [Value.ofScores]
  by_cases empty : scores.size = 0
  · rw [SortedMap.size_eq_zero.mp empty, if_pos (by rfl), Responds, complete]
  · rw [if_neg empty, Responds, complete]

theorem responds_zgrowStep {n : Nat} (small : n < 2 ^ 64) {outcome : Reply × Option Value}
    (meaning : (zgrowStep n).Responds sampleFloat (Value.ofScores (grownScores n)) outcome) :
    outcome = (.int 1, Value.ofScores (grownScores (n + 1))) := by
  rw [ZsetCommand.responds_ofScores rfl] at meaning
  obtain ⟨after, same, left⟩ := meaning
  have denotes : (outcome.1, after) = (.int 1, grownScores (n + 1)) :=
    Eq.trans same (denote_zgrowStep small)
  rw [Prod.mk.injEq] at denotes
  exact Prod.ext denotes.1 (left.trans (congrArg Value.ofScores denotes.2))

/-- Growing is steady up to 2^64 - 1 members. -/
theorem zgrow_steady (server : Server) (keyspace : Keyspace) (n m : Nat) (small : n + m < 2 ^ 64)
    (value : keyspace grownKey.1 = Value.ofScores (grownScores n))
    (fresh : n = 0 → server.world.db.contents.Fresh grownKey) :
    (zsetFamily sampleFloat).Steady server keyspace
      ((List.range' n m).map fun i => .client (zgrowStep i)) := by
  induction m generalizing server keyspace n with
  | zero => trivial
  | succ m ih =>
      rw [List.range'_succ, List.map_cons]
      refine ⟨⟨grownKey, rfl, fun idle _ => fresh ?_⟩, fun reply scores held => ?_,
        fun value' held => ?_⟩
      · rw [value, Value.ofScores, size_grownScores (by omega)] at idle
        by_contra nonzero
        rw [if_neg nonzero] at idle
        cases idle
      · rw [show (zsetFamily sampleFloat).key (zgrowStep n) = grownKey.1 from rfl, value] at held
        have outcome := congrArg Prod.snd (responds_zgrowStep (by omega) held)
        change some (Value.zset scores) = Value.ofScores _ at outcome
        rw [Value.ofScores, size_grownScores (by omega), if_neg (by omega), Option.some_inj,
          Value.zset.injEq] at outcome
        rw [outcome, size_grownScores (by omega)]
        omega
      · rw [show (zsetFamily sampleFloat).key (zgrowStep n) = grownKey.1 from rfl] at held ⊢
        change (zgrowStep n).Responds sampleFloat (keyspace grownKey.1) _ at held
        rw [value] at held
        rw [show value' = _ from congrArg Prod.snd (responds_zgrowStep (by omega) held)]
        exact ih _ _ (n + 1) (by omega) (Function.update_self ..) (by omega)

/-- After growing the key holds the members, whatever comes next. -/
theorem zgrow_runs {keyspace : Keyspace} {n m : Nat} (small : n + m ≤ 2 ^ 64)
    (value : keyspace grownKey.1 = Value.ofScores (grownScores n))
    {events : List (Event ZsetCommand)} {replies : List Reply} {last : Keyspace}
    (runs : (zsetFamily sampleFloat).Runs keyspace (((List.range' n m).map fun i =>
      .client (zgrowStep i)) ++ events) replies last) :
    ∃ grown first later, replies = first ++ later ∧
      (zsetFamily sampleFloat).Runs grown events later last ∧
      grown grownKey.1 = Value.ofScores (grownScores (n + m)) := by
  induction m generalizing keyspace n replies with
  | zero => exact ⟨keyspace, [], replies, rfl, runs, value⟩
  | succ m ih =>
      rw [List.range'_succ, List.map_cons, List.cons_append] at runs
      obtain _ | ⟨step, rest⟩ := runs
      change (zgrowStep n).Responds sampleFloat (keyspace grownKey.1) _ at step
      rw [value] at step
      have outcome := responds_zgrowStep (by omega) step
      rw [Prod.mk.injEq] at outcome
      obtain ⟨grown, first, later, rfl, runs, held⟩ := ih (by omega) (by
        rw [show (zsetFamily sampleFloat).key (zgrowStep n) = grownKey.1 from rfl,
          Function.update_self, outcome.2]) rest
      refine ⟨grown, _ :: first, later, rfl, runs, ?_⟩
      rw [held, show n + 1 + m = n + (m + 1) by omega]

/-- Counting is answered with the number of members. -/
theorem zcard_counts {keyspace : Keyspace} {n : Nat} (small : n ≤ 2 ^ 64)
    (value : keyspace grownKey.1 = Value.ofScores (grownScores n)) {replies : List Reply}
    {last : Keyspace}
    (runs : (zsetFamily sampleFloat).Runs keyspace [.client (.zcard grownKey.1)] replies last) :
    replies = [.int n] := by
  obtain _ | ⟨counted, rest⟩ := runs
  cases rest
  change (ZsetCommand.zcard grownKey.1).Responds sampleFloat (keyspace grownKey.1) _ at counted
  rw [value, ZsetCommand.responds_ofScores rfl] at counted
  obtain ⟨after, same, _⟩ := counted
  have answered := congrArg Prod.fst same
  simp only at answered
  rw [answered, size_grownScores small]

/-- Key and metadata after a length change that wraps to zero. -/
theorem eval_commitZset_wrap (world : World) (key : UserKey) {zv : MetaVal}
    (full : zv.length = UInt64.ofNat (2 ^ 64 - 1)) (batch : List Update) :
    ∃ world', (commitZset key.1 (batch.map Update.encode) zv 1).eval atomically world =
        (0, world') ∧
      world'.db.contents (.metadata key) =
        some (encodeMetaValInternal DataType.zsize zv.length zv.version keyDeleteMask) := by
  have nonzero : UInt64.ofNat (2 ^ 64 - 1) ≠ 0 := by decide
  have wraps : UInt64.ofNat (2 ^ 64 - 1) + uint64 1 = 0 := by decide
  have positive : ¬((1 : Int) < 0) := by decide
  let marks : List Update := [⟨.delete key zv.version, some []⟩, ⟨.metadata key,
    some (encodeMetaValInternal DataType.zsize zv.length zv.version keyDeleteMask)⟩]
  have marked : batch.map Update.encode ++ [.put (encodeDeleteKey key.1 zv.version) [],
      .put (encodeMetaKey key.1)
        (encodeMetaValInternal DataType.zsize zv.length zv.version keyDeleteMask)] =
      (batch ++ marks).map Update.encode := by
    simp [marks, encodeMetaKey_eq, encodeDeleteKey_eq, put_eq]
  obtain ⟨ret, cancelled⟩ := eval_cancelExpiration world key (batch ++ marks)
  have changed : (incrZsize key.1 (batch.map Update.encode) zv 1).eval atomically world =
      ((0, (batch ++ marks ++ cancelUpdates world.db.contents key).map Update.encode),
        world.delFastKey key.1) := by
    rw [full] at marked
    simp only [incrZsize, incrSize, full, if_neg nonzero, one_ne_zero, if_false, positive,
      false_and, gt_iff_lt, zero_lt_one, if_true, wraps, marked, Program.eval_bind, cancelled,
      Program.pure_eq_done, Program.eval_done]
  obtain ⟨world', run, _, contents⟩ := eval_commitSize_of (le_refl 0) changed
  refine ⟨world', run, ?_⟩
  rw [contents, Contents.applyAll_append, applyAll_cancelUpdates (by simp) (by simp)]
  simp [marks]

/-- The member that would be the 2^64-th deletes the sorted set. -/
theorem ZsetView.zadd_wrap {world : World} {key : UserKey} {state : Option (UInt16 × Value)}
    {version : UInt16} {n : Nat} (full : n = 2 ^ 64 - 1)
    (view : ZsetView world.db.contents key state (grownScores n) version) :
    ((procZcard key.1).eval atomically
      ((procZadd sampleFloat key.1 {} [(grownField n, [49, 54])]).eval atomically world).2).1 =
        .int 0 := by
  obtain ⟨zv, readMeta, versionEq, lengthEq⟩ := view.eval_getZsetMetaVal
  rw [size_grownScores (by omega)] at readMeta lengthEq
  rw [if_neg (by omega)] at readMeta
  rw [full] at lengthEq
  have loop : (zsetLoop sampleFloat true key.1 version {}
      (scoreMap false [(grownField n, [49, 54])]).entries ([].map Update.encode) 0 0).eval
        atomically world = _ :=
    eval_zsetLoop sampleFloat {} (fun _ => view.stores) (by simp) _ _ _ _
  rw [judged_zgrowStep (by omega)] at loop
  simp only [List.map_nil, List.nil_append] at loop
  obtain ⟨world', run, metadata⟩ := eval_commitZset_wrap world key lengthEq
    (judgedUpdates key version (grownScores n) [(grownField n, .added, some sixteen)])
  have added : ((procZadd sampleFloat key.1 {} [(grownField n, [49, 54])]).eval atomically
      world).2 = world' := by
    have counts : countResult .added [(grownField n, ZaddResult.added, some sixteen)] = 1 := rfl
    simp only [procZadd, Bool.false_eq_true, and_self, if_false, multiZset, zsetNoLock, false_and,
      eval_recordKeyLock, Program.eval_bind, readMeta, one_ne_zero, ne_eq, not_false_eq_true,
      decide_true, versionEq, loop, Except.map, counts, Nat.cast_one, zero_add, run, lt_irrefl,
      Program.pure_eq_done, Program.eval_done, Program.eval_ite]
    simp
  have header := decodeMetaHeader_metaVal DataType.zsize zv.length zv.version keyDeleteMask
    (Or.inl rfl)
  rw [added]
  simp [procZcard, zsize, getZsetMetaVal, getMetaVal, encodeMetaKey_eq, eval_dbGet, metadata,
    ReadStatus.ofOption, decodeMetaVal_of_deleted header rfl]

/-- Adding 2^64 distinct members to one sorted set is not answered as on a finite map. -/
theorem zset_run_overflows :
    ¬∃ last, (zsetFamily sampleFloat).Runs (fun _ => none)
        (((List.range' 0 (2 ^ 64)).map fun i => .client (zgrowStep i)) ++
          [.client (.zcard grownKey.1)])
        (emptyServer.run (ZsetCommand.run sampleFloat)
          (((List.range' 0 (2 ^ 64)).map fun i => .client (zgrowStep i)) ++
            [.client (.zcard grownKey.1)])).1 last := by
  rintro ⟨last, runs⟩
  obtain ⟨grown, first, later, replies, counted, held⟩ := zgrow_runs (by omega) rfl runs
  rw [zcard_counts (by omega) held counted] at replies
  obtain ⟨n, isLast⟩ : ∃ n : Nat, 2 ^ 64 = n + 1 := ⟨2 ^ 64 - 1, by decide⟩
  have holds : emptyServer.Holds fun _ => none := Server.holds_initial _ _ _ _
  obtain ⟨mid, partly, final⟩ := (zsetFamily sampleFloat).run_refines holds
    (zgrow_steady emptyServer (fun _ => none) 0 n (by omega) rfl fun _ => rfl)
  have midValue : mid grownKey.1 = some (.zset (grownScores n)) := by
    rw [← List.append_nil (List.map _ _)] at partly
    obtain ⟨_, _, _, _, rest, value⟩ := zgrow_runs (by omega) rfl partly
    cases rest
    rw [value, Nat.zero_add, Value.ofScores, size_grownScores (by omega), if_neg (by omega)]
  obtain ⟨state, valid, value⟩ := final.represents grownKey
  obtain ⟨⟨version, _⟩, rfl, rfl⟩ := Option.map_eq_some_iff.mp (value.trans midValue)
  have wrapped := (ZsetView.ofLive valid).zadd_wrap (by omega)
  rw [isLast, List.range'_concat, List.map_append, List.append_assoc, Server.run_append,
    Nat.zero_add, Nat.one_mul] at replies
  have ends := congrArg List.getLast? replies
  rw [List.getLast?_append, List.getLast?_concat] at ends
  have counts : Reply.int 0 = .int (0 + (n + 1) : Nat) := by
    rw [← wrapped]
    exact Option.some_inj.mp ends
  simp at counts
  omega

end Overflow

end Vcdb
