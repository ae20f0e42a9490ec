import Vcdb.Keyspace.FloatIncrement
import Vcdb.Keyspace.RequestDeed
import Vcdb.Keyspace.ZsetScore

/-!
# Expiries over a run

A run of commands keeps the two records of every expiry together, and the expiry of a key is
changed by those commands only that are asked to change it.
-/

namespace Vcdb

/-! ### What commands are asked to do -/

/-- A request and the time it runs at. -/
structure TimedRequest where
  request : Request
  now : Int64

/-- The clock stands still. -/
def World.at (world : World) (now : Int64) : World := { world with clock := fun _ => now }

def TimedRequest.run (floats : Floats) (timed : TimedRequest) (world : World) : Reply × World :=
  (timed.request.run floats).eval atomically (world.at timed.now)

/-- What a command is asked to do with expiries. -/
inductive Asked
  | nothing
  | removal (keys : List Bytes)
  | instant (key : Bytes) (at' : Int)

/-- Instants are in milliseconds; arguments that cannot be read ask for an instant that is never
looked at. -/
def Request.asks (now : Int64) : Request → Asked
  | value _ => .nothing
  | set key _ options =>
      match setOptions options {} with
      | .error _ => .nothing
      | .ok options =>
          if options.flags.ex ∨ options.flags.px then
            .instant key (now.toInt + options.unit.milliseconds * options.ttl.toInt)
          else .removal [key]
  | setnx key _ | getset key _ | persist key => .removal [key]
  | setex key seconds _ =>
      .instant key (now.toInt +
        TimeUnit.second.milliseconds * ((int64Argument seconds).getD 0).toInt)
  | psetex key millis _ =>
      .instant key (now.toInt +
        TimeUnit.millisecond.milliseconds * ((int64Argument millis).getD 0).toInt)
  | mset kvs => .removal (kvs.map Prod.fst)
  | del keys => .removal keys
  | expire key seconds =>
      .instant key (now.toInt + TimeUnit.second.milliseconds * ((string2ll seconds).getD 0).toInt)
  | pexpire key millis =>
      .instant key (now.toInt +
        TimeUnit.millisecond.milliseconds * ((string2ll millis).getD 0).toInt)
  | expireat key seconds => .instant key (instantAt .second seconds)
  | pexpireat key millis => .instant key (instantAt .millisecond millis)

/-- The command has done what it was asked for. -/
def Request.TookEffect (db : DB) (reply : Reply) : Request → Prop
  | value _ => True
  | set _ _ _ => reply = .ok
  | setnx _ _ => reply = .int 1
  | setex _ _ _ | psetex _ _ _ | getset _ _ | mset _ | del _ | persist _ => ¬reply.IsError
  | expire key _ | pexpire key _ | expireat key _ | pexpireat key _ =>
      ¬reply.IsError ∧ (db.life key).IsLive

/-- What a command may do to expiries, given what it was asked for: an instant that is over deletes
the key. -/
def Asked.Met (now : Int64) (effect : Prop) (before after : DB) : Asked → Prop
  | nothing => ∀ key, storedExpiry after key = storedExpiry before key ∨
      ((before.life key).IsLive ∧ ¬(after.life key).IsLive ∧ storedExpiry after key = none)
  | removal keys =>
      (effect → (∀ key ∈ keys, storedExpiry after key = none) ∧
        ∀ key ∉ keys, storedExpiry after key = storedExpiry before key) ∧
      (¬effect → after.ledger = before.ledger)
  | instant key at' =>
      (effect →
        (now.toInt < at' → ExpiresAt after key at') ∧
        (at' ≤ now.toInt → ¬(after.life key).IsLive ∧ storedExpiry after key = none) ∧
        ∀ other ≠ key, storedExpiry after other = storedExpiry before other) ∧
      (¬effect → after.ledger = before.ledger)

/-- An instant can be told from all others in 64 bits. -/
def Asked.Fits : Asked → Prop
  | instant _ at' => (Int64.ofInt at').toInt = at'
  | _ => True

/-- The time from now on does not overflow. -/
def TimedRequest.Moderate (timed : TimedRequest) : Prop :=
  match timed.request with
  | .expireat _ _ => True
  | request => (request.asks timed.now).Fits

/-- EXPIREAT can be told its instant in milliseconds, or is used on a key that is not there, or the
instant is over and so is what becomes of it in 64 bits. -/
def TimedRequest.Kept (timed : TimedRequest) (db : DB) : Prop :=
  match timed.request with
  | .expireat key seconds =>
      (Int64.ofInt (instantAt .second seconds)).toInt = instantAt .second seconds ∨
        ¬(db.life key).IsLive ∨
        (Int64.ofInt (instantAt .second seconds) ≤ timed.now ∧
          instantAt .second seconds ≤ timed.now.toInt)
  | _ => True

/-! ### What holds between commands -/

/-- The index and the lives of the keys are in order, and the memory of expiries is in use. -/
structure Sound (world : World) : Prop where
  timely : Timely world.db
  readable : ∀ key, world.db.life key ≠ .unreadable
  awake : world.expiration.firstTimeout ≠ int64Max

section Sound

variable {key : Bytes} {keys : List Bytes} {change : ExpiryChange} {world after : World}

theorem Life.Step.readable {life after : Life} (step : life.Step after)
    (readable : life ≠ .unreadable) : after ≠ .unreadable := by
  cases step with
  | same => exact readable
  | opened => exact fun same => (by cases same)
  | deleted => exact fun same => (by cases same)

theorem ExpiryChange.memory_awake {handler : ExpirationHandler}
    (awake : handler.firstTimeout ≠ int64Max) :
    (change.memory key handler).firstTimeout ≠ int64Max := by
  cases change with
  | keep => exact awake
  | forget => exact awake
  | set ts =>
      have first : (handler.insertFastKey key ts).firstTimeout =
          if ts < handler.firstTimeout then ts else handler.firstTimeout := by
        rw [ExpirationHandler.insertFastKey]
        split_ifs <;> rfl
      rw [memory, first]
      split_ifs with sooner
      · rintro rfl
        exact absurd (Int64.lt_iff_toInt_lt.mp sooner)
          (not_lt.mpr (Int64.toInt_le handler.firstTimeout))
      · exact awake

theorem Deed.sound (deed : Deed key change world after) (sound : Sound world) : Sound after := by
  refine ⟨deed.timely sound.timely, fun other => ?_, ?_⟩
  · by_cases same : other = key
    · subst same
      exact deed.life.readable (sound.readable other)
    · rw [deed.life_of_ne same]
      exact sound.readable other
  · rw [deed.expiration]
    exact ExpiryChange.memory_awake sound.awake

theorem Untouched.sound (untouched : Untouched world after) (sound : Sound world) : Sound after := by
  refine ⟨untouched.timely sound.timely, ?_, ?_⟩
  · rw [untouched.db]
    exact sound.readable
  · rw [untouched.expiration]
    exact sound.awake

theorem Deeds.sound (deeds : Deeds keys change world after) (sound : Sound world) :
    Sound after := by
  induction deeds with
  | done untouched => exact untouched.sound sound
  | next _ deed _ ih => exact ih (deed.sound sound)

theorem Sound.at (sound : Sound world) (now : Int64) : Sound (world.at now) :=
  ⟨sound.timely, sound.readable, sound.awake⟩

end Sound

/-! ### One command -/

section Commands

variable {world after : World} {key : Bytes}

theorem storedExpiry_of_ledger {db other : DB} {key : Bytes}
    (same : other.ledger key = db.ledger key) : storedExpiry other key = storedExpiry db key :=
  congrArg (fun records : KeyRecords => records.expiry.map fun strScore =>
    (readHostOrder64 strScore).toInt64) same

theorem storedExpiry_none {db : DB} {key : Bytes} (gone : (db.ledger key).expiry = none) :
    storedExpiry db key = none := congrArg (Option.map _) gone

theorem Deed.storedExpiry_of_ne {change : ExpiryChange} (deed : Deed key change world after)
    {other : Bytes} (differs : other ≠ key) :
    storedExpiry after.db other = storedExpiry world.db other :=
  storedExpiry_of_ledger (deed.ledger_of_ne differs)

theorem Deed.storedExpiry_keep (deed : Deed key .keep world after) (other : Bytes) :
    storedExpiry after.db other = storedExpiry world.db other := by
  by_cases same : other = key
  · subst same
    rw [storedExpiry, storedExpiry]
    refine congrArg (Option.map _) ?_
    change (after.db.ledger other).expiry = (world.db.ledger other).expiry
    rw [deed.ledger_self]
    rfl
  · exact deed.storedExpiry_of_ne same

theorem Deed.storedExpiry_forget (deed : Deed key .forget world after)
    (timely : Timely world.db) : storedExpiry after.db key = none :=
  storedExpiry_none (deed.expiry_none timely)

theorem Deed.storedExpiry_set {ts : Int64} (deed : Deed key (.set ts) world after) :
    storedExpiry after.db key = some ts := by
  have stored : (after.db.ledger key).expiry = some (hostOrder64 ts.toUInt64) := by
    rw [deed.ledger_self]
    rfl
  refine (congrArg (Option.map _) stored).trans ?_
  rw [Option.map_some, readHostOrder64_hostOrder64]
  rfl

theorem Life.not_isLive_of_deleted {life : Life} {version : UInt16}
    (dead : life = .deleted version) : ¬life.IsLive := by
  rintro ⟨type, version', live⟩
  rw [live] at dead
  cases dead

/-- Nothing is done to the ledger. -/
theorem Asked.met_of_idle (asked : Asked) (now : Int64) {effect : Prop} (idle : ¬effect)
    (same : after.db.ledger = world.db.ledger) : asked.Met now effect world.db after.db := by
  cases asked with
  | nothing => exact fun key => Or.inl (storedExpiry_of_ledger (congrFun same key))
  | removal keys => exact ⟨fun done => absurd done idle, fun _ => same⟩
  | instant key at' => exact ⟨fun done => absurd done idle, fun _ => same⟩

theorem ValueDeed.met (deed : ValueDeed key world after) (timely : Timely world.db) (now : Int64)
    (effect : Prop) : Asked.nothing.Met now effect world.db after.db := by
  intro other
  rcases deed with kept | ⟨deed, type, version, live, dead⟩
  · exact Or.inl (kept.storedExpiry_keep other)
  · by_cases same : other = key
    · subst same
      exact Or.inr ⟨⟨type, version, live⟩, Life.not_isLive_of_deleted dead,
        deed.storedExpiry_forget timely⟩
    · exact Or.inl (deed.storedExpiry_of_ne same)

/-- A key whose expiry is removed. -/
theorem Deed.met_removal (deed : Deed key .forget world after) (timely : Timely world.db)
    (now : Int64) {effect : Prop} (done : effect) :
    (Asked.removal [key]).Met now effect world.db after.db := by
  refine ⟨fun _ => ⟨fun other mem => ?_, fun other unlisted => ?_⟩, fun idle => absurd done idle⟩
  · obtain rfl := List.mem_singleton.mp mem
    exact deed.storedExpiry_forget timely
  · exact deed.storedExpiry_of_ne fun same => unlisted (List.mem_singleton.mpr same)

/-- A key that is brought to life has no expiry. -/
theorem Deed.met_created (deed : Deed key .keep world after) (timely : Timely world.db)
    (idle : ¬(world.db.life key).IsLive) (now : Int64) {effect : Prop} (done : effect) :
    (Asked.removal [key]).Met now effect world.db after.db := by
  refine ⟨fun _ => ⟨fun other mem => ?_, fun other unlisted => deed.storedExpiry_keep other⟩,
    fun idle => absurd done idle⟩
  obtain rfl := List.mem_singleton.mp mem
  rw [deed.storedExpiry_keep]
  refine storedExpiry_none ?_
  by_contra expires
  exact idle (timely.live other expires)

/-- An instant still to come. -/
theorem Deed.met_instant {ts now : Int64} {at' : Int} (deed : Deed key (.set ts) world after)
    (exact' : ts.toInt = at') (future : now < ts) {effect : Prop} (done : effect) :
    (Asked.instant key at').Met now effect world.db after.db := by
  have fits := deed.fits
  refine ⟨fun _ => ⟨fun _ => ⟨metaLive_iff_isLive.mpr fits, ts, deed.storedExpiry_set, exact'⟩,
    fun elapsed => ?_, fun other => deed.storedExpiry_of_ne⟩, fun idle => absurd done idle⟩
  rw [Int64.lt_iff_toInt_lt, exact'] at future
  exact absurd future (not_lt.mpr elapsed)

end Commands

/-- A command has left the store in order and done what it was asked for. -/
def Carried (world : World) (asked : Asked) (effect : Reply → Prop) (outcome : Reply × World) :
    Prop :=
  Sound outcome.2 ∧ asked.Met (world.clock 0) (effect outcome.1) world.db outcome.2.db

theorem carried_of_idle {world after : World} (sound : Sound after) (same : after.db = world.db)
    (asked : Asked) {effect : Reply → Prop} {reply : Reply} (idle : ¬effect reply) :
    Carried world asked effect (reply, after) :=
  ⟨sound, asked.met_of_idle _ idle (same ▸ rfl)⟩

/-! ### SET and its kin -/

section Setting

variable {world after : World} {key : Bytes} {flags : SetFlags} {ttl : Int64} {result : Int × Int}

theorem Sets.sound (sets : Sets key flags ttl world result after) (sound : Sound world) :
    Sound after := by
  cases sets with
  | failed | refused => exact sound
  | replaced _ deed | dated _ _ deed | elapsed _ _ _ deed | unbounded _ _ _ deed =>
      exact deed.sound sound

theorem Sets.met_removal (sets : Sets key flags ttl world result after)
    (forever : ¬(flags.ex ∨ flags.px)) (timely : Timely world.db) (now : Int64) {effect : Prop}
    (performed : result = (1, 1) → effect)
    (otherwise : result.2 = 0 → result.1 < 0 ∨ flags.nx ∨ flags.xx → ¬effect) :
    (Asked.removal [key]).Met now effect world.db after.db := by
  cases sets with
  | failed negative => exact Asked.met_of_idle _ now (otherwise rfl (Or.inl negative)) rfl
  | refused _ asked => exact Asked.met_of_idle _ now (otherwise rfl (Or.inr asked)) rfl
  | replaced _ deed => exact deed.met_removal timely now (performed rfl)
  | dated expiring | elapsed expiring | unbounded expiring => exact absurd expiring forever

theorem Sets.met_instant (sets : Sets key flags ttl world result after)
    (expiring : flags.ex ∨ flags.px) (still : world.clock 1 = world.clock 0) {at' : Int}
    (shifted : ttl + world.clock 0 = Int64.ofInt at') (fits : (Int64.ofInt at').toInt = at')
    (ahead : (world.clock 0).toInt < at') {effect : Prop} (performed : result = (1, 1) → effect)
    (otherwise : result.2 = 0 → result.1 < 0 ∨ flags.nx ∨ flags.xx → ¬effect) :
    (Asked.instant key at').Met (world.clock 0) effect world.db after.db := by
  have future : world.clock 0 < Int64.ofInt at' := by
    rw [Int64.lt_iff_toInt_lt, fits]
    exact ahead
  have never : ¬ttl + world.clock 0 ≤ world.clock 1 := by
    rw [shifted, still]
    exact Int64.not_le.mpr future
  cases sets with
  | failed negative => exact Asked.met_of_idle _ _ (otherwise rfl (Or.inl negative)) rfl
  | refused _ asked => exact Asked.met_of_idle _ _ (otherwise rfl (Or.inr asked)) rfl
  | replaced forever => exact absurd expiring forever
  | dated _ _ deed =>
      rw [shifted] at deed
      exact deed.met_instant fits future (performed rfl)
  | elapsed _ past | unbounded _ past => exact absurd past never

/-- A positive time from now on is still to come. -/
theorem instant_ahead (unit : TimeUnit) (now : Int64) {amount : Int64} (positive : 0 < amount) :
    now.toInt < now.toInt + unit.milliseconds * amount.toInt := by
  have above : 0 < amount.toInt := Int64.lt_iff_toInt_lt.mp positive
  cases unit with
  | second =>
      rw [TimeUnit.milliseconds]
      omega
  | millisecond =>
      rw [TimeUnit.milliseconds]
      omega

theorem setWithOptions_carried (world : World) (sound : Sound world) (key val : Bytes)
    {options : SetOptions} (still : world.clock 1 = world.clock 0)
    (positive : options.flags.ex ∨ options.flags.px → 0 < options.ttl)
    (fits : options.flags.ex ∨ options.flags.px → (Asked.instant key
      ((world.clock 0).toInt + options.unit.milliseconds * options.ttl.toInt)).Fits) :
    Carried world (if options.flags.ex ∨ options.flags.px then Asked.instant key
        ((world.clock 0).toInt + options.unit.milliseconds * options.ttl.toInt)
      else .removal [key]) (fun reply => reply = .ok)
      ((setWithOptions key val options).eval atomically world) := by
  rw [setWithOptions]
  cases converted : convert2ms options.ttl options.unit with
  | error code =>
      exact carried_of_idle sound rfl _ fun same => (by cases same)
  | ok ttl =>
      have sets := eval_set_sets world key val options.flags ttl (sound.readable key)
      obtain ⟨result, after, run⟩ : ∃ result after,
          (Kv.set key val options.flags ttl).eval atomically world = (result, after) := ⟨_, _, rfl⟩
      rw [run] at sets
      obtain ⟨reply, replied, performed, otherwise⟩ : ∃ reply,
          (do
            let written ← Kv.set key val options.flags ttl
            if written.1 < 0 then return Reply.error written.1
            else if (options.flags.nx ∨ options.flags.xx) ∧ written.2 = 0 then return .nil
            else return .ok : Command Reply).eval atomically world = (reply, after) ∧
          (result = (1, 1) → reply = .ok) ∧
          (result.2 = 0 → result.1 < 0 ∨ options.flags.nx ∨ options.flags.xx → reply ≠ .ok) := by
        refine ⟨if result.1 < 0 then .error result.1
          else if (options.flags.nx ∨ options.flags.xx) ∧ result.2 = 0 then .nil else .ok, ?_, ?_, ?_⟩
        · simp only [Program.eval_bind, run]
          split_ifs <;> rfl
        · rintro rfl
          simp
        · intro none refused
          split_ifs with negative asked
          · exact fun same => (by cases same)
          · exact fun same => (by cases same)
          · exact absurd (refused.resolve_left negative) fun asked' => asked ⟨asked', none⟩
      rw [replied]
      refine ⟨sets.sound sound, ?_⟩
      by_cases expiring : options.flags.ex ∨ options.flags.px
      · rw [if_pos expiring]
        have shifted := convert2ms_instant converted (world.clock 0)
        rw [Int64.add_comm] at shifted
        exact sets.met_instant expiring still shifted (fits expiring)
          (instant_ahead _ _ (positive expiring)) performed otherwise
      · rw [if_neg expiring]
        exact sets.met_removal expiring sound.timely _ performed otherwise

theorem procSet_carried (world : World) (sound : Sound world) (key val : Bytes)
    (words : List Bytes) (still : world.clock 1 = world.clock 0)
    (fits : ((Request.set key val words).asks (world.clock 0)).Fits) :
    Carried world ((Request.set key val words).asks (world.clock 0)) (fun reply => reply = .ok)
      ((procSet key val words).eval atomically world) := by
  rw [procSet]
  cases read : setOptions words {} with
  | error code => exact carried_of_idle sound rfl _ fun same => (by cases same)
  | ok options =>
      have asks : (Request.set key val words).asks (world.clock 0) =
          if options.flags.ex ∨ options.flags.px then Asked.instant key
            ((world.clock 0).toInt + options.unit.milliseconds * options.ttl.toInt)
          else .removal [key] := by
        simp only [Request.asks, read]
      rw [asks] at fits ⊢
      refine setWithOptions_carried world sound key val still
        (setOptions_positive read (by decide)) fun expiring => ?_
      rwa [if_pos expiring] at fits

theorem procSetnx_carried (world : World) (sound : Sound world) (key val : Bytes) :
    Carried world (.removal [key]) (fun reply => reply = .int 1)
      ((procSetnx key val).eval atomically world) := by
  have sets := eval_set_sets world key val { nx := true } 0 (sound.readable key)
  obtain ⟨⟨ret, added⟩, after, run⟩ : ∃ result after,
      (Kv.set key val { nx := true } 0).eval atomically world = (result, after) := ⟨_, _, rfl⟩
  rw [run] at sets
  have replied : (procSetnx key val).eval atomically world =
      (if ret < 0 then Reply.error ret else .int added, after) := by
    simp only [procSetnx, Program.eval_bind, run]
    split_ifs <;> rfl
  rw [replied]
  refine ⟨sets.sound sound, sets.met_removal (by decide) sound.timely _ ?_ fun none _ => ?_⟩
  · intro performed
    obtain ⟨rfl, rfl⟩ := Prod.mk.inj performed
    rfl
  · obtain rfl : added = 0 := none
    split_ifs
    · exact fun same => (by cases same)
    · exact fun same => (by cases same)

/-- SETEX and PSETEX. -/
theorem setExpiring_carried (world : World) (sound : Sound world) (unit : TimeUnit)
    (key argument val : Bytes) (expiring : flags.ex ∨ flags.px)
    (always : ¬(flags.nx ∨ flags.xx)) (still : world.clock 1 = world.clock 0)
    (fits : (Asked.instant key ((world.clock 0).toInt +
      unit.milliseconds * ((int64Argument argument).getD 0).toInt)).Fits) :
    Carried world (.instant key ((world.clock 0).toInt +
        unit.milliseconds * ((int64Argument argument).getD 0).toInt)) (fun reply => ¬reply.IsError)
      ((setExpiring unit flags key argument val).eval atomically world) := by
  rw [setExpiring]
  cases parsed : int64Argument argument with
  | none => exact carried_of_idle sound rfl _ fun fine => fine trivial
  | some amount =>
      rw [parsed] at fits
      by_cases early : amount ≤ 0
      · simp only [if_pos early]
        exact carried_of_idle sound rfl _ fun fine => fine trivial
      simp only [if_neg early]
      cases converted : convert2ms amount unit with
      | error code => exact carried_of_idle sound rfl _ fun fine => fine trivial
      | ok ttl =>
          have sets := eval_set_sets world key val flags ttl (sound.readable key)
          obtain ⟨⟨ret, added⟩, after, run⟩ : ∃ result after,
              (Kv.set key val flags ttl).eval atomically world = (result, after) := ⟨_, _, rfl⟩
          rw [run] at sets
          have shifted := convert2ms_instant converted (world.clock 0)
          rw [Int64.add_comm] at shifted
          refine ⟨?_, ?_⟩
          · simp only [Program.eval_bind, run]
            split_ifs <;> exact sets.sound sound
          · have met : (Asked.instant key ((world.clock 0).toInt +
                unit.milliseconds * amount.toInt)).Met (world.clock 0)
                (¬(if ret < 0 then Reply.error ret else .ok).IsError) world.db after.db := by
              refine sets.met_instant expiring still shifted fits
                (instant_ahead unit _ (Int64.not_le.mp early)) ?_ fun none refused => ?_
              · intro performed
                obtain ⟨rfl, rfl⟩ := Prod.mk.inj performed
                exact id
              · have negative : ret < 0 := refused.resolve_right always
                rw [if_pos negative]
                exact fun fine => fine trivial
            simp only [Program.eval_bind, run, Option.getD_some]
            split_ifs at met ⊢ <;> exact met

theorem procGetset_carried (world : World) (sound : Sound world) (key val : Bytes) :
    Carried world (.removal [key]) (fun reply => ¬reply.IsError)
      ((procGetset key val).eval atomically world) := by
  have exchanges := eval_getset_exchanges world key val
  obtain ⟨result, after, run⟩ : ∃ result after,
      (getset key val).eval atomically world = (result, after) := ⟨_, _, rfl⟩
  rw [run] at exchanges
  rw [procGetset, Program.eval_bind, run]
  cases exchanges with
  | failed code => exact carried_of_idle sound rfl _ fun fine => fine trivial
  | created idle deed =>
      exact ⟨deed.sound sound, deed.met_created sound.timely idle _ id⟩
  | replaced old deed => exact ⟨deed.sound sound, deed.met_removal sound.timely _ id⟩

theorem procPersist_carried (world : World) (sound : Sound world) (key : Bytes) :
    Carried world (.removal [key]) (fun reply => ¬reply.IsError)
      ((procPersist key).eval atomically world) := by
  have persists := eval_persist_persists world key
  obtain ⟨ret, after, run⟩ : ∃ ret after, (persist key).eval atomically world = (ret, after) :=
    ⟨_, _, rfl⟩
  rw [run] at persists
  rw [procPersist, Program.eval_bind, run]
  cases persists with
  | skipped never => exact absurd never sound.awake
  | dropped success deed =>
      simp only [if_neg (not_lt.mpr success)]
      exact ⟨deed.sound sound, deed.met_removal sound.timely _ id⟩

end Setting

/-! ### The EXPIRE family -/

section Dating

variable {world after : World} {key : Bytes}

theorem Expires.sound {ts : Int64} {ret : Int} (expires : Expires key ts world ret after)
    (sound : Sound world) : Sound after := by
  cases expires with
  | stored _ _ deed | deleted _ _ deed => exact deed.sound sound
  | missing _ _ untouched | idle _ _ untouched => exact untouched.sound sound

theorem Expires.nonneg {ts : Int64} {ret : Int} (expires : Expires key ts world ret after) :
    0 ≤ ret := by
  cases expires with
  | stored | deleted | idle => exact (by decide : (0 : Int) ≤ 2)
  | missing => exact le_rfl

/-- The instant survives being computed in 64 bits, so far as it matters. -/
def Told (world : World) (key : Bytes) (at' : Int) : Prop :=
  (Int64.ofInt at').toInt = at' ∨ ¬(world.db.life key).IsLive ∨
    (Int64.ofInt at' ≤ world.clock 0 ∧ at' ≤ (world.clock 0).toInt)

theorem Expires.met {at' : Int} {ret : Int}
    (expires : Expires key (Int64.ofInt at') world ret after) (timely : Timely world.db)
    (told : Told world key at') {effect : Prop}
    (performed : ret = 2 → (world.db.life key).IsLive → effect)
    (otherwise : ¬(world.db.life key).IsLive → ¬effect) :
    (Asked.instant key at').Met (world.clock 0) effect world.db after.db := by
  cases expires with
  | missing _ idle untouched =>
      exact Asked.met_of_idle _ _ (otherwise idle) (by rw [untouched.db])
  | idle _ idle untouched =>
      exact Asked.met_of_idle _ _ (otherwise idle) (by rw [untouched.db])
  | stored future live deed =>
      refine deed.met_instant ?_ future (performed rfl live)
      rcases told with exact' | idle | ⟨past, _⟩
      · exact exact'
      · exact absurd live idle
      · exact absurd past (Int64.not_le.mpr future)
  | deleted past live deed dead =>
      have elapsed : at' ≤ (world.clock 0).toInt := by
        rcases told with exact' | idle | ⟨_, elapsed⟩
        · rw [← exact']
          exact Int64.le_iff_toInt_le.mp past
        · exact absurd ⟨_, _, live⟩ idle
        · exact elapsed
      refine ⟨fun _ => ⟨fun future => absurd elapsed (not_le.mpr future), fun _ => ?_,
        fun other => deed.storedExpiry_of_ne⟩,
        fun idle => absurd (performed rfl ⟨_, _, live⟩) idle⟩
      exact ⟨Life.not_isLive_of_deleted dead, deed.storedExpiry_forget timely⟩

/-- EXPIREAT and PEXPIREAT. -/
theorem expireAtInstant_carried (world : World) (sound : Sound world) (key : Bytes) (at' : Int)
    (told : Told world key at') :
    Carried world (.instant key at')
      (fun reply => ¬reply.IsError ∧ (world.db.life key).IsLive)
      ((expireAtInstant key (Int64.ofInt at')).eval atomically world) := by
  have expires := eval_expireAt_expires world key (Int64.ofInt at') (sound.readable key)
  obtain ⟨⟨ret, batch⟩, after, run⟩ : ∃ result after,
      (expireAt key (Int64.ofInt at') []).eval atomically world = (result, after) := ⟨_, _, rfl⟩
  rw [run] at expires
  rw [expireAtInstant, Program.eval_bind, run]
  simp only [if_neg (not_lt.mpr expires.nonneg)]
  exact ⟨expires.sound sound, expires.met sound.timely told (fun _ live => ⟨id, live⟩)
    fun idle effect => idle effect.2⟩

theorem procExpireat_carried (world : World) (sound : Sound world) (key argument : Bytes)
    (told : Told world key (instantAt .second argument)) :
    Carried world (.instant key (instantAt .second argument))
      (fun reply => ¬reply.IsError ∧ (world.db.life key).IsLive)
      ((procExpireat key argument).eval atomically world) := by
  rw [procExpireat]
  rw [instantAt] at told ⊢
  cases parsed : string2ll argument with
  | none => exact carried_of_idle sound rfl _ fun fine => fine.1 trivial
  | some ts =>
      have scaled : ts * 1000 = Int64.ofInt (1000 * ts.toInt) := by
        rw [Int64.ofInt_mul, Int64.ofInt_toInt, Int64.mul_comm]
        rfl
      rw [parsed] at told
      simp only [scaled]
      exact expireAtInstant_carried world sound key _ told

/-- An instant given in milliseconds is one that 64 bits hold. -/
theorem procPexpireat_carried (world : World) (sound : Sound world) (key argument : Bytes) :
    Carried world (.instant key (instantAt .millisecond argument))
      (fun reply => ¬reply.IsError ∧ (world.db.life key).IsLive)
      ((procPexpireat key argument).eval atomically world) := by
  rw [procPexpireat, instantAt]
  cases string2ll argument with
  | none => exact carried_of_idle sound rfl _ fun fine => fine.1 trivial
  | some ts =>
      have carried := expireAtInstant_carried world sound key ts.toInt
        (Or.inl (by rw [Int64.ofInt_toInt]))
      rw [Int64.ofInt_toInt] at carried
      simpa only [Option.getD_some, TimeUnit.milliseconds, one_mul] using carried

/-- EXPIRE and PEXPIRE. -/
theorem expireIn_carried (world : World) (sound : Sound world) (unit : TimeUnit)
    {reply : Int → Reply} (replies : ∀ ret, ¬(reply ret).IsError) (key argument : Bytes)
    (steady : world.tick = world)
    (fits : (Asked.instant key ((world.clock 0).toInt +
      unit.milliseconds * ((string2ll argument).getD 0).toInt)).Fits) :
    Carried world (.instant key ((world.clock 0).toInt +
        unit.milliseconds * ((string2ll argument).getD 0).toInt))
      (fun reply => ¬reply.IsError ∧ (world.db.life key).IsLive)
      ((expireIn unit reply key argument).eval atomically world) := by
  rw [expireIn]
  cases parsed : string2ll argument with
  | none => exact carried_of_idle sound rfl _ fun fine => fine.1 trivial
  | some amount =>
      rw [parsed] at fits
      cases converted : convert2ms amount unit with
      | error code =>
          obtain rfl := convert2ms_error converted
          simp only [Program.eval_bind, expire, converted, Program.pure_eq_done, Program.eval_done]
          exact @carried_of_idle world world sound rfl _ _ (.error invalidExTime)
            fun fine => fine.1 trivial
      | ok ttl =>
          have shifted := convert2ms_instant converted (world.clock 0)
          have expires := eval_expireAt_expires world key (Int64.ofInt ((world.clock 0).toInt +
            unit.milliseconds * amount.toInt)) (sound.readable key)
          rw [← shifted] at expires
          obtain ⟨⟨ret, batch⟩, after, run⟩ : ∃ result after,
              (expireAt key (world.clock 0 + ttl) []).eval atomically world = (result, after) :=
            ⟨_, _, rfl⟩
          rw [run, shifted] at expires
          have success : ¬ret < 0 := not_lt.mpr expires.nonneg
          simp only [Program.eval_bind, expire, converted, eval_timeMs, steady, run,
            Program.pure_eq_done, Program.eval_done, if_neg success, Option.getD_some]
          exact ⟨expires.sound sound, expires.met sound.timely (Or.inl fits)
            (fun _ live => ⟨replies ret, live⟩) fun idle effect => idle effect.2⟩

end Dating

/-! ### Several keys at once -/

section Several

variable {world after : World} {keys : List Bytes}

/-- Keys whose expiries are removed. -/
theorem Deeds.met_removal (deeds : Deeds keys .forget world after)
    (gone : ∀ key ∈ keys, (after.db.ledger key).expiry = none) (now : Int64) {effect : Prop}
    (done : effect) : (Asked.removal keys).Met now effect world.db after.db :=
  ⟨fun _ => ⟨fun key mem => storedExpiry_none (gone key mem), fun _ unlisted =>
    storedExpiry_of_ledger (deeds.ledger_of_not_mem unlisted)⟩, fun idle => absurd done idle⟩

theorem procDel_carried (world : World) (sound : Sound world) (keys : List Bytes) :
    Carried world (.removal keys) (fun reply => ¬reply.IsError)
      ((procDel keys).eval atomically world) := by
  rw [procDel]
  by_cases empty : keys = []
  · simp only [if_pos empty]
    exact carried_of_idle sound rfl _ fun fine => fine trivial
  obtain ⟨count, after, run, deeds, dead⟩ := eval_multiDel_deeds world (byteSet keys).keys_nodup
    fun key _ => sound.readable key
  have same := deeds.mono fun key mem => mem_keys_byteSet.mp mem
  have timely := deeds.timely sound.timely
  simp only [if_neg empty, Program.eval_bind, run]
  refine ⟨deeds.sound sound, same.met_removal (fun key mem => ?_) _ id⟩
  by_contra expires
  exact dead key (mem_keys_byteSet.mpr mem) (timely.live key expires)

theorem firstTimeout_dropFastKeys (keys : List Bytes) (handler : ExpirationHandler) :
    (dropFastKeys keys handler).firstTimeout = handler.firstTimeout := by
  induction keys generalizing handler with
  | nil => rfl
  | cons key keys ih => exact ih (handler.delFastKey key)

theorem procMset_carried (world : World) (sound : Sound world) (kvs : List (Bytes × Bytes)) :
    Carried world (.removal (kvs.map Prod.fst)) (fun reply => ¬reply.IsError)
      ((procMset kvs).eval atomically world) := by
  rw [procMset]
  by_cases empty : kvs = []
  · simp only [if_pos empty]
    exact carried_of_idle sound rfl _ fun fine => fine trivial
  have drops := eval_multiSetLoop_drops kvs world [] [] 0
  by_cases holds : ∃ kv ∈ kvs, HoldsOther world.db kv.1
  · obtain ⟨code, after, negative, run, same⟩ := eval_multiSetLoop_refused kvs world [] [] 0 holds
    rw [run] at drops
    simp only [if_neg empty, multiSet, Program.eval_bind, run, Program.pure_eq_done,
      Program.eval_done, if_pos negative]
    refine carried_of_idle ⟨?_, ?_, ?_⟩ same _ fun fine => fine trivial
    · exact same ▸ sound.timely
    · exact same ▸ sound.readable
    · rw [show after = _ from drops, firstTimeout_dropFastKeys]
      exact sound.awake
  · have can : ∀ kv ∈ kvs, ¬HoldsOther world.db kv.1 := fun kv mem other => holds ⟨kv, mem, other⟩
    obtain ⟨count, after, nonneg, run, same⟩ :=
      eval_multiSetLoop kvs world [] [] (le_refl 0) can
    obtain ⟨deeds, gone⟩ := deeds_setIn kvs world can (fun key => Or.inl ⟨rfl, rfl⟩) sound.timely
    have all : msetDropped world.db kvs = kvs.map Prod.fst := by
      refine List.takeWhile_eq_self_iff.mpr fun key mem => ?_
      obtain ⟨kv, listed, rfl⟩ := List.mem_map.mp mem
      exact settable_iff.mpr (can kv listed)
    rw [run, all] at drops
    rw [List.nil_append] at run
    have negative : ¬count < 0 := not_lt.mpr nonneg
    simp only [if_neg empty, multiSet, Program.eval_bind, run, eval_commitBatch, if_true,
      Program.pure_eq_done, Program.eval_done, if_neg negative]
    have written : after.withDB (WriteBatch.apply
        (kvs.flatMap fun kv => setBatch world.db kv.1 kv.2) after.db) = { world with
          db := kvs.foldl (setIn world.db) world.db
          expiration := dropFastKeys (kvs.map Prod.fst) world.expiration } := by
      rw [same, apply_flatMap_setBatch, show after = _ from drops]
      rfl
    change Carried world _ _ (Reply.int count, after.withDB (WriteBatch.apply
      (kvs.flatMap fun kv => setBatch world.db kv.1 kv.2) after.db))
    rw [written]
    refine ⟨deeds.sound sound, deeds.met_removal (fun key mem => ?_) _ id⟩
    obtain ⟨kv, listed, rfl⟩ := List.mem_map.mp mem
    exact gone kv listed

end Several

/-! ### Runs of commands -/

theorem ValueDeed.sound {key : Bytes} {world after : World} (deed : ValueDeed key world after)
    (sound : Sound world) : Sound after := by
  rcases deed with kept | ⟨deed, _⟩
  · exact kept.sound sound
  · exact deed.sound sound

theorem World.tick_at (world : World) (now : Int64) : (world.at now).tick = world.at now := rfl

/-- A command does to the expiries what it was asked for. -/
theorem TimedRequest.carried (floats : Floats) (timed : TimedRequest) {world : World}
    (sound : Sound world) (moderate : timed.Moderate) (kept : timed.Kept world.db) :
    Carried (world.at timed.now) (timed.request.asks timed.now)
      (fun reply => timed.request.TookEffect world.db reply) (timed.run floats world) := by
  have start := sound.at timed.now
  have steady := world.tick_at timed.now
  obtain ⟨request, now⟩ := timed
  cases request with
  | value command =>
      have deed := command.deed floats (world.at now)
      exact ⟨deed.sound start, deed.met start.timely _ _⟩
  | set key val options => exact procSet_carried _ start key val options rfl moderate
  | setnx key val => exact procSetnx_carried _ start key val
  | setex key seconds val =>
      exact setExpiring_carried _ start .second key seconds val (by decide) (by decide) rfl moderate
  | psetex key millis val =>
      exact setExpiring_carried _ start .millisecond key millis val (by decide) (by decide) rfl
        moderate
  | getset key val => exact procGetset_carried _ start key val
  | mset kvs => exact procMset_carried _ start kvs
  | del keys => exact procDel_carried _ start keys
  | expire key seconds =>
      exact expireIn_carried _ start .second (fun _ => id) key seconds steady moderate
  | pexpire key millis =>
      exact expireIn_carried _ start .millisecond (fun _ => id) key millis steady moderate
  | expireat key seconds => exact procExpireat_carried _ start key seconds kept
  | pexpireat key millis => exact procPexpireat_carried _ start key millis
  | persist key => exact procPersist_carried _ start key

/-- An empty store, and nothing remembered of it. -/
structure World.Fresh (world : World) : Prop where
  db : world.db = ∅
  expiration : world.expiration = {}

theorem World.Fresh.sound {world : World} (fresh : world.Fresh) : Sound world := by
  have empty : ∀ raw : Bytes, world.db.get raw = none := fun raw => by
    rw [fresh.db]
    rfl
  refine ⟨⟨fun key => Or.inl ⟨empty _, fun score => empty _⟩, fun key expires => ?_⟩, fun key => ?_,
    ?_⟩
  · exact absurd (empty _) expires
  · rw [DB.life, empty]
    exact fun same => (by cases same)
  · rw [fresh.expiration]
    decide

/-- No time from now on overflows, and every EXPIREAT that matters is told its instant. -/
def Steady (floats : Floats) : World → List TimedRequest → Prop
  | _, [] => True
  | world, timed :: requests =>
      timed.Moderate ∧ timed.Kept world.db ∧ Steady floats (timed.run floats world).2 requests

/-- The index of expiries is consistent in every state, and follows every command. -/
def Followed (floats : Floats) : World → List TimedRequest → Prop
  | world, [] => Timely world.db
  | world, timed :: requests =>
      Timely world.db ∧
      (timed.request.asks timed.now).Met timed.now
        (timed.request.TookEffect world.db (timed.run floats world).1) world.db
        (timed.run floats world).2.db ∧
      Followed floats (timed.run floats world).2 requests

theorem Sound.follows (floats : Floats) (requests : List TimedRequest) {world : World}
    (sound : Sound world) (steady : Steady floats world requests) :
    Followed floats world requests := by
  induction requests generalizing world with
  | nil => exact sound.timely
  | cons timed requests ih =>
      obtain ⟨moderate, kept, rest⟩ := steady
      obtain ⟨sound', met⟩ := timed.carried floats sound moderate kept
      exact ⟨sound.timely, met, ih sound' rest⟩

/-- The expiries follow the commands in every run that begins with an empty store. -/
theorem expiries_followed (floats : Floats) (requests : List TimedRequest) {world : World}
    (fresh : world.Fresh) (steady : Steady floats world requests) :
    Followed floats world requests :=
  fresh.sound.follows floats requests steady

def freshWorld : World where
  db := ∅
  expiration := {}
  cursors := ∅
  clock _ := 0
  random _ := 0

/-- No text is the number of a float command. -/
def sampleFloats : Floats where
  double := sampleFloat
  longDouble := .exact (fun _ => none) (fun _ => [])
  dblMax := (1 : ℚ)

theorem expiries_followed_sample : Followed sampleFloats freshWorld
    [⟨.set [107] [118] [], 0⟩, ⟨.expire [107] [53], 0⟩, ⟨.expireat [107] [57], 5000⟩] :=
  expiries_followed sampleFloats _ ⟨rfl, rfl⟩
    ⟨trivial, trivial, (by decide +kernel : (Int64.ofInt 5000).toInt = 5000), trivial, trivial,
      Or.inl (by decide +kernel), trivial⟩

/-- The first number of seconds whose milliseconds are not held by 64 bits. -/
def farSeconds : Bytes := [57, 50, 50, 51, 51, 55, 50, 48, 51, 54, 56, 53, 52, 55, 55, 54]

def lostRequests : List TimedRequest :=
  [⟨.set [107] [118] [], 0⟩, ⟨.expireat [107] farSeconds, 0⟩]

/-- `EXPIREAT k 9223372036854776` deletes a key whose time has not come. -/
theorem expireat_lost : (∀ timed ∈ lostRequests, timed.Moderate) ∧
    ¬Followed sampleFloats freshWorld lostRequests := by
  refine ⟨?_, ?_⟩
  · simp [lostRequests, TimedRequest.Moderate, Request.asks, setOptions, Asked.Fits]
  · rintro ⟨_, _, _, met, _⟩
    have replied : ((TimedRequest.mk (.expireat [107] farSeconds) 0).run sampleFloats
        ((TimedRequest.mk (.set [107] [118] []) 0).run sampleFloats freshWorld).2).1 = .int 2 := by
      decide +kernel
    have live : (((TimedRequest.mk (.set [107] [118] []) 0).run sampleFloats freshWorld).2.db.life
        [107]) = .live DataType.kv 0 := by
      decide +kernel
    have gone : storedExpiry ((TimedRequest.mk (.expireat [107] farSeconds) 0).run sampleFloats
        ((TimedRequest.mk (.set [107] [118] []) 0).run sampleFloats freshWorld).2).2.db [107] =
          none := by
      decide +kernel
    have future : (0 : Int64).toInt < instantAt .second farSeconds := by decide +kernel
    obtain ⟨_, ts, stored, _⟩ := (met.1 ⟨by rw [replied]; exact id, _, _, live⟩).1 future
    rw [gone] at stored
    cases stored

end Vcdb
