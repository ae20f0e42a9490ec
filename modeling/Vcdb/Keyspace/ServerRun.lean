import Mathlib.Logic.Relation
import Vcdb.Keyspace.DeleterSweep
import Vcdb.Keyspace.ExpirationRound
import Vcdb.Keyspace.Run

/-!
# Runs of the whole server

Requests of any kind, steps of the background deleter and rounds of the expiration thread take
turns in any order.  Deletions by the thread are justified, no expiry is forgotten, and each key
goes through its life in the same steps whoever takes them.
-/

namespace Vcdb

/-! ### Turns -/

/-- Whose turn it is. -/
inductive Turn
  | request (request : Request)
  | deleter
  | expiration
  /-- The process is started again on the same store. -/
  | restart

/-- A turn, with the readings of the clock in it. -/
structure TimedTurn where
  turn : Turn
  clock : Nat → Int64

/-- The world in which a turn is taken. -/
def TimedTurn.world (timed : TimedTurn) (server : Server) : World :=
  { server.world with clock := timed.clock }

def TimedTurn.run (floats : Floats) (server : Server) (timed : TimedTurn) : Server :=
  let world := timed.world server
  match timed.turn with
  | .request request => { server with world := ((request.run floats).eval atomically world).2 }
  | .deleter =>
      let (deleter, world) := (runBGTask server.deleter).eval atomically world
      { world, deleter }
  | .expiration => { server with world := expirationRound world }
  | .restart => { world := { world with expiration := {}, cursors := ∅ }, deleter := {} }

/-- The server after some turns. -/
def Server.after (floats : Floats) (server : Server) (turns : List TimedTurn) : Server :=
  turns.foldl (TimedTurn.run floats) server

/-- No turn is taken before the epoch. -/
def SinceEpoch (turns : List TimedTurn) : Prop := ∀ timed ∈ turns, ∀ n, 0 ≤ timed.clock n

/-- The keys that a turn drops from the memory of expiries without writing them. -/
def TimedTurn.drops (server : Server) (timed : TimedTurn) : List Bytes :=
  match timed.turn with
  | .request request => request.drops server.world.db
  | .deleter | .expiration | .restart => []

/-- The keys that have been dropped in a run. -/
def Server.dropped (floats : Floats) : Server → List TimedTurn → List Bytes
  | _, [] => []
  | server, timed :: turns =>
      timed.drops server ++ Server.dropped floats (timed.run floats server) turns

/-! ### The life of a key -/

/-- The stations of a key: it is created, deleted, and recreated or cleared away. -/
inductive Life.Move : Life → Life → Prop
  | created (type : UInt8) : Move absent (live type 0)
  | recreated (type : UInt8) (version : UInt16) :
      Move (deleted version) (live type (nextVersion version))
  | deleted (type : UInt8) (version : UInt16) : Move (live type version) (deleted version)
  | cleared (version : UInt16) : Move (deleted version) absent

/-- Some moves one after the other. -/
abbrev Life.Path : Life → Life → Prop := Relation.ReflTransGen Life.Move

section Lives

variable {key : Bytes} {world after : World}

theorem Life.Step.path {life after : Life} (step : life.Step after) : life.Path after := by
  cases step with
  | same => exact .refl
  | @opened life type version opens =>
      cases life with
      | absent =>
          obtain rfl : version = 0 := opens
          exact .single (.created type)
      | live type' version' =>
          obtain ⟨rfl, rfl⟩ := opens
          exact .refl
      | deleted version' =>
          obtain rfl : version = nextVersion version' := opens
          exact .single (.recreated type version')
      | unreadable => exact opens.elim
  | deleted type version => exact .single (.deleted type version)

theorem Deed.path {change : ExpiryChange} (deed : Deed key change world after) (other : Bytes) :
    (world.db.life other).Path (after.db.life other) := by
  by_cases same : other = key
  · subst same
    exact deed.life.path
  · rw [deed.life_of_ne same]

theorem Course.path {drops : List Bytes} (course : Course drops world after) (key : Bytes) :
    (world.db.life key).Path (after.db.life key) := by
  induction course with
  | done untouched => rw [untouched.db]
  | deed deed _ _ ih => exact (deed.path key).trans ih
  | drop _ ih => exact ih

/-- A step of the worker clears the metadata of one key at most. -/
theorem Swept.cleared (swept : Swept world after) :
    (∀ key, after.db.ledger key = world.db.ledger key) ∨
      ∃ own version, world.db.life own = .deleted version ∧ after.db.life own = .absent ∧
        after.db.ledger own = { world.db.ledger own with metaVal := none } ∧
        ∀ key, key ≠ own → after.db.ledger key = world.db.ledger key := by
  rcases swept.ledger with same | ⟨own, version, dead, ledger⟩
  · exact Or.inl (congrFun same)
  · have self : after.db.ledger own = { world.db.ledger own with metaVal := none } := by
      rw [ledger, Function.update_self]
    refine Or.inr ⟨own, version, dead, congrArg (fun records : KeyRecords =>
      Life.ofMeta records.metaVal) self, self, fun key differs => ?_⟩
    rw [ledger, Function.update_of_ne differs]

theorem Swept.path (swept : Swept world after) (key : Bytes) :
    (world.db.life key).Path (after.db.life key) := by
  rcases swept.cleared with same | ⟨own, version, dead, absent, _, others⟩
  · rw [life_congr (same key)]
  · by_cases differs : key = own
    · rw [differs, dead, absent]
      exact .single (.cleared version)
    · rw [life_congr (others key differs)]

theorem RoundSpec.path {lost : Set Bytes} {keys : List Bytes}
    (spec : RoundSpec lost keys world after) (key : Bytes) :
    (world.db.life key).Path (after.db.life key) := by
  by_cases mem : key ∈ keys
  · obtain ⟨type, version, live, dead⟩ := (spec.reaped key mem).dies
    rw [live, dead]
    exact .single (.deleted type version)
  · rw [life_congr (spec.spared key mem)]

end Lives

/-! ### What holds between turns -/

/-- Store, memory of expiries and worker are in order. -/
structure Server.Ordered (lost : Set Bytes) (server : Server) : Prop where
  orderly : Orderly server.world.db
  remembers : Remembers lost server.world
  ready : server.deleter.phase.Ready

section Sweeps

variable {world after : World}

theorem Swept.storedExpiry (swept : Swept world after) (key : Bytes) :
    storedExpiry after.db key = storedExpiry world.db key := by
  have expiry : (after.db.ledger key).expiry = (world.db.ledger key).expiry := by
    rcases swept.cleared with same | ⟨own, _, _, _, self, others⟩
    · rw [same]
    · by_cases differs : key = own
      · rw [differs, self]
      · rw [others key differs]
  exact congrArg (Option.map fun strScore => (readHostOrder64 strScore).toInt64) expiry

theorem Swept.orderly (swept : Swept world after) (orderly : Orderly world.db) :
    Orderly after.db := by
  obtain ⟨timely, readable, since, spelled⟩ := orderly
  have spelled' : Spelled after.db := fun raw found => spelled raw (swept.fewer raw found ▸ found)
  have since' : ∀ key ts, Vcdb.storedExpiry after.db key = some ts → 0 ≤ ts := fun key ts stored =>
    since key ts (swept.storedExpiry key ▸ stored)
  rcases swept.cleared with same | ⟨own, version, dead, absent, self, others⟩
  · refine ⟨⟨fun key => same key ▸ timely.tidy key, fun key expires => ?_⟩, fun key => ?_, since',
      spelled'⟩
    · rw [life_congr (same key)]
      exact timely.live key (same key ▸ expires)
    · rw [life_congr (same key)]
      exact readable key
  · refine ⟨⟨fun key => ?_, fun key expires => ?_⟩, fun key => ?_, since', spelled'⟩
    · by_cases differs : key = own
      · rw [differs, self]
        exact (timely.tidy own).setMeta none
      · rw [others key differs]
        exact timely.tidy key
    · by_cases differs : key = own
      · rw [differs, self] at expires
        obtain ⟨type, version', live⟩ := timely.live own expires
        rw [dead] at live
        cases live
      · rw [others key differs] at expires
        rw [life_congr (others key differs)]
        exact timely.live key expires
    · by_cases differs : key = own
      · rw [differs, absent]
        exact fun same => (by cases same)
      · rw [life_congr (others key differs)]
        exact readable key

theorem Swept.remembers {lost : Set Bytes} (swept : Swept world after)
    (remembers : Remembers lost world) : Remembers lost after := by
  have same : after.db.expiriesBut lost = world.db.expiriesBut lost := by
    funext key
    rw [DB.expiriesBut, DB.expiriesBut, swept.storedExpiry]
  rw [Remembers, same, swept.expiration]
  exact remembers

end Sweeps

section Turns

variable {lost : Set Bytes} {server : Server}

/-- One turn. -/
theorem Server.Ordered.turn (floats : Floats) (ordered : server.Ordered lost) (timed : TimedTurn)
    (since : ∀ n, 0 ≤ timed.clock n) :
    ∃ lost' ⊆ lost ∪ {key | key ∈ timed.drops server},
      (timed.run floats server).Ordered lost' := by
  obtain ⟨turn, clock⟩ := timed
  obtain ⟨orderly, remembers, ready⟩ := ordered
  cases turn with
  | request request =>
      have course := @Request.course floats request { server.world with clock } orderly.timely
        orderly.readable since
      have spelled := (request.differs floats { server.world with clock }).spelled orderly.spelled
      obtain ⟨lost', within, kept⟩ := course.remembers orderly.timely remembers
      exact ⟨lost', within, course.orderly orderly spelled, kept, ready⟩
  | deleter =>
      obtain ⟨ready', swept⟩ := @runBGTask_swept _ ready { server.world with clock }
        orderly.readable
      exact ⟨lost, Set.subset_union_left, swept.orderly orderly, swept.remembers remembers, ready'⟩
  | expiration =>
      obtain ⟨keys, spec⟩ := @expirationRound_spec lost { server.world with clock } orderly since
        remembers
      obtain ⟨lost', fewer, kept⟩ := spec.remembers
      exact ⟨lost', fewer.trans Set.subset_union_left, spec.orderly, kept, ready⟩
  | restart =>
      refine ⟨∅, Set.empty_subset _, orderly, ?_, trivial⟩
      exact Recalls.of_started (by rw [DB.expiriesBut_empty]; exact orderly.since)

/-- A run, with the keys that it may have lost. -/
theorem Server.Ordered.run (floats : Floats) (ordered : server.Ordered lost)
    (turns : List TimedTurn) (since : SinceEpoch turns) :
    ∃ lost' ⊆ lost ∪ {key | key ∈ server.dropped floats turns},
      (server.after floats turns).Ordered lost' := by
  induction turns generalizing server lost with
  | nil => exact ⟨lost, Set.subset_union_left, ordered⟩
  | cons timed turns ih =>
      obtain ⟨middle, within, kept⟩ := ordered.turn floats timed (since timed List.mem_cons_self)
      obtain ⟨last, within', kept⟩ := ih kept fun other mem => since other (List.mem_cons_of_mem _ mem)
      refine ⟨last, fun key mem => ?_, kept⟩
      rcases within' mem with earlier | later
      · rcases within earlier with before | own
        · exact Or.inl before
        · exact Or.inr (List.mem_append_left _ own)
      · exact Or.inr (List.mem_append_right _ later)

theorem Server.Ordered.path (floats : Floats) (ordered : server.Ordered lost) (timed : TimedTurn)
    (since : ∀ n, 0 ≤ timed.clock n) (key : Bytes) :
    (server.world.db.life key).Path ((timed.run floats server).world.db.life key) := by
  obtain ⟨turn, clock⟩ := timed
  obtain ⟨orderly, remembers, ready⟩ := ordered
  cases turn with
  | request request =>
      exact (@Request.course floats request { server.world with clock } orderly.timely
        orderly.readable since).path key
  | deleter =>
      exact (@runBGTask_swept _ ready { server.world with clock } orderly.readable).2.path key
  | expiration =>
      obtain ⟨keys, spec⟩ := @expirationRound_spec lost { server.world with clock } orderly since
        remembers
      exact spec.path key
  | restart => exact .refl

end Turns

/-! ### Delete keys -/

/-- Every deleted key is still to be cleared away. -/
def Marked (db : DB) : Prop :=
  ∀ key version, db.life key = .deleted version → (db.get (encodeDeleteKey key version)).isSome

/-- The keys fit the length fields of the store. -/
def ShortKeys (db : DB) : Prop := ∀ key, db.life key ≠ .absent → key.length < 65536

def TimedTurn.Short (timed : TimedTurn) : Prop :=
  ∀ request, timed.turn = .request request → ∀ key ∈ request.keys, key.length < 65536

section Marks

variable {drops : List Bytes} {lost : Set Bytes} {world after : World} {server : Server}

theorem Course.marks (course : Course drops world after) : MarksKept world.db after.db := by
  induction course with
  | done untouched =>
      rw [untouched.db]
      exact MarksKept.refl _
  | deed deed _ _ ih => exact deed.marks.trans ih
  | drop _ ih => exact ih

theorem Course.marked (course : Course drops world after) (marked : Marked world.db) :
    Marked after.db := by
  induction course with
  | done untouched =>
      rw [untouched.db]
      exact marked
  | deed deed _ _ ih =>
      refine ih fun key version dead => ?_
      rcases deed.marked_any dead with earlier | mark
      · exact deed.marks _ rfl (marked key version earlier)
      · exact mark
  | drop _ ih => exact ih marked

theorem RoundSpec.kept {keys : List Bytes} (spec : RoundSpec lost keys world after)
    (marked : Marked world.db) : Marked after.db := by
  intro key version dead
  rcases spec.marked key version dead with earlier | mark
  · exact spec.marks _ rfl (marked key version earlier)
  · exact mark

theorem Swept.life (swept : Swept world after) (key : Bytes) :
    after.db.life key = world.db.life key ∨ after.db.life key = .absent := by
  rcases swept.cleared with same | ⟨own, _, _, absent, _, others⟩
  · exact Or.inl (life_congr (same key))
  · by_cases differs : key = own
    · exact Or.inr (differs ▸ absent)
    · exact Or.inl (life_congr (others key differs))

/-- The worker takes a delete key only together with the metadata of its version. -/
theorem Swept.marked (swept : Swept world after) (short : ShortKeys world.db)
    (marked : Marked world.db) : Marked after.db := by
  intro key version dead
  rcases swept.life key with same | absent
  · rw [same] at dead
    by_contra lost
    rw [Option.not_isSome_iff_eq_none] at lost
    obtain ⟨dk, decoded, gone⟩ := swept.marks _ rfl (marked key version dead) lost
    have fits := short key (by rw [dead]; exact fun same => (by cases same))
    have own := decodeDeleteKey_encode ⟨key, fits⟩ version
    rw [← own.symm.trans decoded |> Option.some_inj.mp] at gone
    exact gone (same.trans dead)
  · rw [absent] at dead
    cases dead

theorem Request.shortKeys (floats : Floats) (request : Request)
    (named : ∀ key ∈ request.keys, key.length < 65536) (short : ShortKeys world.db) :
    ShortKeys ((request.run floats).eval atomically world).2.db := by
  intro key present
  rcases request.differs floats world (encodeMetaKey key) with same | ⟨record, own, spelled⟩
  · refine short key fun absent => present ?_
    rw [DB.life, same]
    exact absent
  · cases record with
    | metadata key' =>
        rw [encodeMetaKey_inj.mp spelled]
        exact named key' own.1
    | item | zscore | ekey | escore | delete => exact absurd (List.cons.inj spelled).1 (by decide)

theorem RoundSpec.shortKeys {keys : List Bytes} (spec : RoundSpec lost keys world after)
    (short : ShortKeys world.db) : ShortKeys after.db := by
  intro key present
  refine short key ?_
  by_cases mem : key ∈ keys
  · obtain ⟨type, version, live, _⟩ := (spec.reaped key mem).dies
    rw [live]
    exact fun same => (by cases same)
  · rw [← life_congr (spec.spared key mem)]
    exact present

theorem Swept.shortKeys (swept : Swept world after) (short : ShortKeys world.db) :
    ShortKeys after.db := by
  intro key present
  exact short key ((swept.life key).resolve_right present ▸ present)

/-- One turn of a run whose keys are short. -/
theorem Server.Ordered.marks (floats : Floats) (ordered : server.Ordered lost) (timed : TimedTurn)
    (since : ∀ n, 0 ≤ timed.clock n) (named : timed.Short) (short : ShortKeys server.world.db)
    (marked : Marked server.world.db) : ShortKeys (timed.run floats server).world.db ∧
      Marked (timed.run floats server).world.db := by
  obtain ⟨turn, clock⟩ := timed
  obtain ⟨orderly, remembers, ready⟩ := ordered
  cases turn with
  | request request =>
      exact ⟨request.shortKeys floats (named request rfl) short,
        (@Request.course floats request { server.world with clock } orderly.timely
          orderly.readable since).marked marked⟩
  | deleter =>
      have swept := (@runBGTask_swept _ ready { server.world with clock }
        orderly.readable).2
      exact ⟨swept.shortKeys short, swept.marked short marked⟩
  | expiration =>
      obtain ⟨keys, spec⟩ := @expirationRound_spec lost { server.world with clock } orderly since
        remembers
      exact ⟨spec.shortKeys short, spec.kept marked⟩
  | restart => exact ⟨short, marked⟩

end Marks

/-! ### Every run from an empty store -/

/-- The memory holds true expiries, and forgets none but those of some keys: the thread wakes up for
each of them, and none is missing before the last one in memory. -/
structure Remembering (dropped : List Bytes) (world : World) : Prop where
  agrees : ∀ key ts, world.expiration.fastKeys.get key = some ts →
    storedExpiry world.db key = some ts
  wakes : ∀ key ∉ dropped, ∀ ts, storedExpiry world.db key = some ts →
    world.expiration.firstTimeout ≤ ts
  complete : ∀ key ∉ dropped, ∀ ts, storedExpiry world.db key = some ts →
    (∃ other bound, world.expiration.fastKeys.get other = some bound ∧ ts < bound) →
      world.expiration.fastKeys.get key = some ts

/-- A key is set and given five milliseconds; ten milliseconds later the thread looks at it. -/
def sampleTurns : List TimedTurn :=
  [⟨.request (.set [107] [118] []), fun _ => 0⟩, ⟨.request (.pexpire [107] [53]), fun _ => 0⟩,
    ⟨.deleter, fun _ => 0⟩, ⟨.expiration, fun _ => 10⟩]

theorem sampleTurns_since : SinceEpoch sampleTurns := by
  intro timed mem n
  simp only [sampleTurns, List.mem_cons, List.not_mem_nil, or_false] at mem
  rcases mem with rfl | rfl | rfl | rfl
  · exact Int64.le_refl 0
  · exact Int64.le_refl 0
  · exact Int64.le_refl 0
  · exact (by decide : (0 : Int64) ≤ 10)

/-- Records that one of the turns may write. -/
def Named (turns : List TimedTurn) (record : StorageKey) : Prop :=
  ∃ timed ∈ turns, ∃ request, timed.turn = .request request ∧ request.Footprint record

/-- All records are of a kind. -/
def Recorded (p : StorageKey → Prop) (db : DB) : Prop :=
  ∀ raw : Bytes, (db.get raw).isSome → ∃ record, p record ∧ raw = record.encode

section Names

variable {p q : StorageKey → Prop} {lost : Set Bytes} {db after : DB} {server : Server}

theorem Recorded.differs (recorded : Recorded p db) (differs : DiffersWithin q db after)
    (within : ∀ record, q record → p record) : Recorded p after := by
  intro raw found
  rcases differs raw with same | ⟨record, own, spelled⟩
  · exact recorded raw (same ▸ found)
  · exact ⟨record, within record own, spelled⟩

/-- The kind takes in the other records of a key together with its metadata. -/
def Whole (p : StorageKey → Prop) : Prop :=
  ∀ record : StorageKey, ¬record.IsElement → p (.metadata record.userKey) → p record

theorem whole_named (turns : List TimedTurn) : Whole (Named turns) := by
  rintro record whole ⟨timed, mem, request, own, named, _⟩
  exact ⟨timed, mem, request, own, named, fun element => absurd element whole⟩

/-- The thread deletes what lives, and what lives has its metadata among the records. -/
theorem RoundSpec.recorded {keys : List Bytes} {world after : World} (whole : Whole p)
    (spec : RoundSpec lost keys world after) (recorded : Recorded p world.db) :
    Recorded p after.db := by
  refine recorded.differs spec.differs fun record own => whole record own.2 ?_
  obtain ⟨type, version, live, _⟩ := (spec.reaped _ own.1).dies
  have present : (world.db.get (encodeMetaKey record.userKey)).isSome := by
    rw [Option.isSome_iff_ne_none]
    intro none'
    rw [DB.life, none'] at live
    cases live
  obtain ⟨found, named, spelled⟩ := recorded _ present
  cases found with
  | metadata key' => rwa [encodeMetaKey_inj.mp spelled]
  | item | zscore | ekey | escore | delete => exact absurd (List.cons.inj spelled).1 (by decide)

theorem Server.Ordered.recorded (floats : Floats) (ordered : server.Ordered lost)
    (timed : TimedTurn) (since : ∀ n, 0 ≤ timed.clock n) (whole : Whole p)
    (within : ∀ record, Named [timed] record → p record) (recorded : Recorded p server.world.db) :
    Recorded p (timed.run floats server).world.db := by
  obtain ⟨turn, clock⟩ := timed
  obtain ⟨orderly, remembers, ready⟩ := ordered
  cases turn with
  | request request =>
      exact recorded.differs (request.differs floats { server.world with clock }) fun record own =>
        within record ⟨_, List.mem_singleton_self _, request, rfl, own⟩
  | deleter =>
      have swept := (@runBGTask_swept _ ready { server.world with clock } orderly.readable).2
      exact fun raw found => recorded raw (swept.fewer raw found ▸ found)
  | expiration =>
      obtain ⟨keys, spec⟩ := @expirationRound_spec lost { server.world with clock } orderly since
        remembers
      exact spec.recorded whole recorded
  | restart => exact recorded

theorem Server.Ordered.recorded_run (floats : Floats) (ordered : server.Ordered lost)
    (turns : List TimedTurn) (since : SinceEpoch turns) (whole : Whole p)
    (within : ∀ record, Named turns record → p record) (recorded : Recorded p server.world.db) :
    Recorded p (server.after floats turns).world.db := by
  induction turns generalizing server lost with
  | nil => exact recorded
  | cons timed turns ih =>
      have first := since timed List.mem_cons_self
      obtain ⟨middle, _, kept⟩ := ordered.turn floats timed first
      refine ih kept (fun other mem => since other (List.mem_cons_of_mem _ mem))
        (fun record named => within record ?_)
        (ordered.recorded floats timed first whole (fun record named => within record ?_) recorded)
      · obtain ⟨other, mem, own⟩ := named
        exact ⟨other, List.mem_cons_of_mem _ mem, own⟩
      · obtain ⟨other, mem, own⟩ := named
        exact ⟨other, List.mem_singleton.mp mem ▸ List.mem_cons_self, own⟩

end Names

section Runs

variable (floats : Floats) {turns : List TimedTurn}

theorem emptyServer_ordered : emptyServer.Ordered ∅ where
  orderly := by
    refine ⟨⟨fun key => Or.inl ⟨rfl, fun score => rfl⟩, fun key expires => absurd rfl expires⟩,
      fun key same => ?_, fun key ts stored => ?_, spelled_empty⟩
    · cases same
    · cases stored
  remembers := Recalls.of_started fun key ts known => by
    rw [DB.expiriesBut_empty] at known
    cases known
  ready := trivial

/-- What holds in every state of a run. -/
theorem ordered_after (since : SinceEpoch turns) : ∃ lost : Set Bytes,
    lost ⊆ {key | key ∈ emptyServer.dropped floats turns} ∧
      (emptyServer.after floats turns).Ordered lost := by
  obtain ⟨lost, within, ordered⟩ := emptyServer_ordered.run floats turns since
  exact ⟨lost, by simpa using within, ordered⟩

theorem expiries_remembered (since : SinceEpoch turns) :
    Remembering (emptyServer.dropped floats turns) (emptyServer.after floats turns).world := by
  obtain ⟨lost, within, ordered⟩ := ordered_after floats since
  obtain ⟨lookahead, first⟩ := ordered.remembers
  have known : ∀ key ∉ emptyServer.dropped floats turns, ∀ ts,
      storedExpiry (emptyServer.after floats turns).world.db key = some ts →
        (emptyServer.after floats turns).world.db.expiriesBut lost key = some ts := by
    intro key kept ts stored
    rw [DB.expiriesBut, if_neg fun gone => kept (within gone)]
    exact stored
  refine ⟨fun key ts shown => DB.stored_of_expiriesBut (lookahead.agrees key ts shown),
    fun key kept ts stored => first key ts (known key kept ts stored),
    fun key kept ts stored => lookahead.complete key ts (known key kept ts stored)⟩

theorem expiries_remembered_sample :
    Remembering (emptyServer.dropped sampleFloats sampleTurns)
      (emptyServer.after sampleFloats sampleTurns).world :=
  expiries_remembered sampleFloats sampleTurns_since

/-- Every record belongs to a key that a request has named, an element to one that a command on
values has. -/
theorem records_named (since : SinceEpoch turns) :
    Recorded (Named turns) (emptyServer.after floats turns).world.db :=
  emptyServer_ordered.recorded_run floats turns since (whole_named turns) (fun _ => id)
    fun raw found => (by cases found)

theorem records_named_sample :
    Recorded (Named sampleTurns) (emptyServer.after sampleFloats sampleTurns).world.db :=
  records_named sampleFloats sampleTurns_since

end Runs

end Vcdb
