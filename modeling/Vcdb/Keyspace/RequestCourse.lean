import Vcdb.Keyspace.ExpiryRun

/-!
# Courses of requests

What a request does to the store and to the memory of expiries, one key after the other.
-/

namespace Vcdb

/-- An instant that is set lies after the epoch. -/
def ExpiryChange.Ahead : ExpiryChange → Prop
  | set ts => 0 < ts
  | _ => True

/-- Deeds one after the other.  MSET, when it fails half-way, leaves nothing but keys dropped from
the memory of expiries. -/
inductive Course : List Bytes → World → World → Prop
  | done {world after : World} (untouched : Untouched world after) : Course [] world after
  | deed {drops : List Bytes} {key : Bytes} {change : ExpiryChange} {world middle after : World}
      (deed : Deed key change world middle) (ahead : change.Ahead)
      (rest : Course drops middle after) : Course drops world after
  | drop {drops : List Bytes} {key : Bytes} {world after : World}
      (rest : Course drops (world.delFastKey key) after) : Course (key :: drops) world after

/-- The keys that a request drops from the memory of expiries although it does not write them. -/
def Request.drops (db : DB) : Request → List Bytes
  | mset kvs => if kvs.all fun kv => settable db kv.1 then [] else msetDropped db kvs
  | _ => []

/-- No reading of the clock lies before the epoch. -/
def World.SinceEpoch (world : World) : Prop := ∀ n, 0 ≤ world.clock n

section Courses

variable {world after : World} {key : Bytes}

theorem Course.refl (world : World) : Course [] world world := .done (Untouched.refl world)

theorem Deed.course {change : ExpiryChange} (deed : Deed key change world after)
    (ahead : change.Ahead) : Course [] world after := .deed deed ahead (Course.refl after)

theorem ValueDeed.course (deed : ValueDeed key world after) : Course [] world after := by
  rcases deed with kept | ⟨deed, _⟩
  · exact kept.course trivial
  · exact deed.course trivial

theorem Deeds.course {keys : List Bytes} {change : ExpiryChange}
    (deeds : Deeds keys change world after) (ahead : change.Ahead) : Course [] world after := by
  induction deeds with
  | done untouched => exact .done untouched
  | next _ deed _ ih => exact .deed deed ahead ih

theorem course_dropFastKeys (keys : List Bytes) (world : World) :
    Course keys world { world with expiration := dropFastKeys keys world.expiration } := by
  induction keys generalizing world with
  | nil => exact Course.refl world
  | cons key keys ih => exact .drop (ih (world.delFastKey key))

theorem Sets.course {flags : SetFlags} {ttl : Int64} {result : Int × Int}
    (sets : Sets key flags ttl world result after) (since : world.SinceEpoch) :
    Course [] world after := by
  cases sets with
  | failed | refused => exact Course.refl _
  | replaced _ deed | elapsed _ _ _ deed | unbounded _ _ _ deed => exact deed.course trivial
  | dated _ future deed => exact deed.course (Int64.lt_of_le_of_lt (since 1) future)

theorem Expires.course {ts : Int64} {ret : Int} (expires : Expires key ts world ret after)
    (since : world.SinceEpoch) : Course [] world after := by
  cases expires with
  | stored future _ deed => exact deed.course (Int64.lt_of_le_of_lt (since 0) future)
  | missing _ _ untouched | idle _ _ untouched => exact .done untouched
  | deleted _ _ deed => exact deed.course trivial

end Courses

/-- A command that ends in a reply, whatever the reply is. -/
theorem eval_reply {α : Type} {command : Command α} {reply : α → Command Reply} (world : World)
    (replies : ∀ value, ∃ result, reply value = .done result) :
    ((command >>= reply).eval atomically world).2 = (command.eval atomically world).2 := by
  obtain ⟨result, same⟩ := replies (command.eval atomically world).1
  rw [Program.eval_bind, same]
  rfl

section Commands

variable {world : World}

theorem course_set (key val : Bytes) (flags : SetFlags) (ttl : Int64)
    (readable : world.db.life key ≠ .unreadable) (since : world.SinceEpoch)
    {reply : Int × Int → Command Reply} (replies : ∀ value, ∃ result, reply value = .done result) :
    Course [] world ((Kv.set key val flags ttl >>= reply).eval atomically world).2 := by
  rw [eval_reply world replies]
  exact (eval_set_sets world key val flags ttl readable).course since

theorem course_expireAt (key : Bytes) (instant : Int64)
    (readable : world.db.life key ≠ .unreadable) (since : world.SinceEpoch) :
    Course [] world ((expireAt key instant []).eval atomically world).2 :=
  (eval_expireAt_expires world key instant readable).course since

theorem course_setWithOptions (key val : Bytes) (options : SetOptions)
    (readable : world.db.life key ≠ .unreadable) (since : world.SinceEpoch) :
    Course [] world ((setWithOptions key val options).eval atomically world).2 := by
  rw [setWithOptions]
  cases convert2ms options.ttl options.unit with
  | error code => exact Course.refl world
  | ok ttl =>
      refine course_set key val options.flags ttl readable since fun written => ?_
      obtain ⟨ret, added⟩ := written
      simp only
      split_ifs
      · exact ⟨_, rfl⟩
      · exact ⟨_, rfl⟩
      · exact ⟨_, rfl⟩

theorem course_setExpiring (unit : TimeUnit) (flags : SetFlags) (key argument val : Bytes)
    (readable : world.db.life key ≠ .unreadable) (since : world.SinceEpoch) :
    Course [] world ((setExpiring unit flags key argument val).eval atomically world).2 := by
  rw [setExpiring]
  cases int64Argument argument with
  | none => exact Course.refl world
  | some ttl =>
      by_cases early : ttl ≤ 0
      · simp only [if_pos early]
        exact Course.refl world
      simp only [if_neg early]
      cases convert2ms ttl unit with
      | error code => exact Course.refl world
      | ok ttl =>
          refine course_set key val flags ttl readable since fun written => ?_
          obtain ⟨ret, added⟩ := written
          simp only
          split_ifs
          · exact ⟨_, rfl⟩
          · exact ⟨_, rfl⟩

theorem course_expireAtInstant (key : Bytes) (instant : Int64)
    (readable : world.db.life key ≠ .unreadable) (since : world.SinceEpoch) :
    Course [] world ((expireAtInstant key instant).eval atomically world).2 := by
  rw [expireAtInstant, eval_reply]
  · exact course_expireAt key instant readable since
  · rintro ⟨ret, batch⟩
    simp only
    split_ifs
    · exact ⟨_, rfl⟩
    · exact ⟨_, rfl⟩

theorem course_expireIn (unit : TimeUnit) (reply : Int → Reply) (key argument : Bytes)
    (readable : world.db.life key ≠ .unreadable) (since : world.SinceEpoch) :
    Course [] world ((expireIn unit reply key argument).eval atomically world).2 := by
  rw [expireIn]
  cases string2ll argument with
  | none => exact Course.refl world
  | some amount =>
      simp only
      rw [eval_reply]
      · rw [expire]
        cases convert2ms amount unit with
        | error code => exact Course.refl world
        | ok ttl =>
            have expires := @course_expireAt world.tick key (world.clock 0 + ttl) readable
              fun n => since (n + 1)
            simp only [Program.eval_bind, eval_timeMs]
            cases expires with
            | done untouched => exact .done ⟨untouched.db, untouched.expiration⟩
            | deed deed ahead rest =>
                exact .deed ⟨deed.ledger, deed.expiration, deed.marks, deed.life, deed.marked,
                  deed.fits⟩ ahead rest
      · intro ret
        split_ifs
        · exact ⟨_, rfl⟩
        · exact ⟨_, rfl⟩

theorem course_persist (key : Bytes) :
    Course [] world ((procPersist key).eval atomically world).2 := by
  rw [procPersist, eval_reply]
  · have persists := eval_persist_persists world key
    obtain ⟨⟨ret, after⟩, run⟩ : ∃ outcome, (persist key).eval atomically world = outcome :=
      ⟨_, rfl⟩
    rw [run] at persists ⊢
    cases persists with
    | skipped => exact Course.refl _
    | dropped _ deed => exact deed.course trivial
  · intro ret
    split_ifs
    · exact ⟨_, rfl⟩
    · exact ⟨_, rfl⟩

theorem course_getset (key val : Bytes) :
    Course [] world ((procGetset key val).eval atomically world).2 := by
  rw [procGetset, eval_reply]
  · have exchanges := eval_getset_exchanges world key val
    obtain ⟨⟨old, after⟩, run⟩ : ∃ outcome, (getset key val).eval atomically world = outcome :=
      ⟨_, rfl⟩
    rw [run] at exchanges ⊢
    cases exchanges with
    | failed => exact Course.refl _
    | created _ deed | replaced _ deed => exact deed.course trivial
  · rintro (code | none | old)
    · exact ⟨_, rfl⟩
    · exact ⟨_, rfl⟩
    · exact ⟨_, rfl⟩

theorem course_del (keys : List Bytes) (readable : ∀ key, world.db.life key ≠ .unreadable) :
    Course [] world ((procDel keys).eval atomically world).2 := by
  rw [procDel]
  by_cases empty : keys = []
  · rw [if_pos empty]
    exact Course.refl world
  · obtain ⟨count, after, run, deeds, _⟩ :=
      eval_multiDel_deeds world (byteSet keys).keys_nodup fun key _ => readable key
    rw [if_neg empty, Program.eval_bind, run]
    exact deeds.course trivial

theorem course_mset (kvs : List (Bytes × Bytes)) (timely : Timely world.db) :
    Course ((Request.mset kvs).drops world.db) world
      ((procMset kvs).eval atomically world).2 := by
  rw [procMset]
  by_cases empty : kvs = []
  · subst empty
    exact Course.refl world
  rw [if_neg empty, eval_reply, multiSet, Program.eval_bind]
  · have drops := eval_multiSetLoop_drops kvs world [] [] 0
    by_cases can : ∀ kv ∈ kvs, ¬HoldsOther world.db kv.1
    · have all : kvs.all (fun kv => settable world.db kv.1) = true :=
        List.all_eq_true.mpr fun kv mem => settable_iff.mpr (can kv mem)
      have dropped : msetDropped world.db kvs = kvs.map Prod.fst := by
        refine List.takeWhile_eq_self_iff.mpr fun key mem => ?_
        obtain ⟨kv, listed, rfl⟩ := List.mem_map.mp mem
        exact settable_iff.mpr (can kv listed)
      obtain ⟨count, after, nonneg, run, same⟩ := eval_multiSetLoop kvs world [] [] (le_refl 0) can
      obtain ⟨deeds, _⟩ := deeds_setIn kvs world can (fun key => Or.inl ⟨rfl, rfl⟩) timely
      rw [run, dropped] at drops
      obtain rfl : after = _ := drops
      rw [Request.drops, if_pos all, run]
      have committed := deeds.course trivial
      rw [← apply_flatMap_setBatch] at committed
      exact committed
    · push Not at can
      obtain ⟨kv, mem, holds⟩ := can
      have some' : ¬kvs.all (fun kv => settable world.db kv.1) = true := fun all =>
        settable_iff.mp (List.all_eq_true.mp all kv mem) holds
      obtain ⟨code, after, negative, run, _⟩ :=
        eval_multiSetLoop_refused kvs world [] [] 0 ⟨kv, mem, holds⟩
      rw [run] at drops
      obtain rfl : after = _ := drops
      rw [Request.drops, if_neg some', run]
      exact course_dropFastKeys _ world
  · intro ret
    split_ifs
    · exact ⟨_, rfl⟩
    · exact ⟨_, rfl⟩

end Commands

/-- What a request does. -/
theorem Request.course (floats : Floats) (request : Request) {world : World}
    (timely : Timely world.db) (readable : ∀ key, world.db.life key ≠ .unreadable)
    (since : world.SinceEpoch) :
    Course (request.drops world.db) world ((request.run floats).eval atomically world).2 := by
  cases request with
  | value command => exact (command.deed floats world).course
  | set key val options =>
      rw [run, procSet]
      cases setOptions options {} with
      | error code => exact Course.refl world
      | ok options => exact course_setWithOptions key val options (readable key) since
  | setnx key val =>
      refine course_set key val _ 0 (readable key) since fun written => ?_
      obtain ⟨ret, added⟩ := written
      simp only
      split_ifs
      · exact ⟨_, rfl⟩
      · exact ⟨_, rfl⟩
  | setex key seconds val => exact course_setExpiring _ _ key seconds val (readable key) since
  | psetex key millis val => exact course_setExpiring _ _ key millis val (readable key) since
  | getset key val => exact course_getset key val
  | mset kvs => exact course_mset kvs timely
  | del keys => exact course_del keys readable
  | expire key seconds => exact course_expireIn _ _ key seconds (readable key) since
  | pexpire key millis => exact course_expireIn _ _ key millis (readable key) since
  | expireat key seconds =>
      rw [run, procExpireat]
      cases string2ll seconds with
      | none => exact Course.refl world
      | some ts => exact course_expireAtInstant key _ (readable key) since
  | pexpireat key millis =>
      rw [run, procPexpireat]
      cases string2ll millis with
      | none => exact Course.refl world
      | some ts => exact course_expireAtInstant key _ (readable key) since
  | persist key => exact course_persist key

end Vcdb
