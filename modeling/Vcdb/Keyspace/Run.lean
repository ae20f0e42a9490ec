import Vcdb.Keyspace.Collection
import Vcdb.Keyspace.Deletion

/-!
# Runs

A server runs the commands of its clients one at a time, with steps of the background deleter in
between.  When every command of a family refines its meaning on the value of its key, so does every
run, as long as a key is not recreated at a version whose deletion is still pending.
-/

namespace Vcdb

/-- The store and its background deleter. -/
structure Server where
  world : World
  deleter : Deleter := {}

/-- What happens next: a client's command, or a step of the deleter. -/
inductive Event (Cmd : Type)
  | client (command : Cmd)
  | deleter

variable {Cmd : Type}

/-- The commands of a run. -/
def clients (events : List (Event Cmd)) : List Cmd :=
  events.filterMap fun
    | .client command => some command
    | .deleter => none

theorem clients_map_client (commands : List Cmd) : clients (commands.map .client) = commands := by
  rw [clients, List.filterMap_map]
  exact (congrFun List.filterMap_eq_map' _).trans (List.map_id _)

namespace Server

def step (run : Cmd → Command Reply) (server : Server) : Event Cmd → Option Reply × Server
  | .client command =>
      let (reply, world) := (run command).eval atomically server.world
      (some reply, { server with world })
  | .deleter =>
      let (deleter, world) := (runBGTask server.deleter).eval atomically server.world
      (none, { world, deleter })

/-- The replies of a run and the server it ends in. -/
def run (run : Cmd → Command Reply) : Server → List (Event Cmd) → List Reply × Server
  | server, [] => ([], server)
  | server, event :: events =>
      let (reply, next) := server.step run event
      let (replies, last) := next.run run events
      (reply.toList ++ replies, last)

/-- The store represents the keyspace, and the deleter's queue agrees with the store. -/
structure Holds (server : Server) (keyspace : Keyspace) : Prop where
  keyed : server.world.db.WellKeyed
  represents : Represents server.world.db.contents keyspace
  deleter : server.deleter.Valid server.world.db.contents

end Server

/-- Replies and last keyspace of commands with a functional meaning. -/
noncomputable def Keyspace.answers (key : Cmd → Bytes)
    (respond : Option Value → Cmd → Reply × Option Value) :
    Keyspace → List Cmd → List Reply × Keyspace
  | keyspace, [] => ([], keyspace)
  | keyspace, command :: commands =>
      let (reply, value) := respond (keyspace (key command)) command
      let (replies, last) := answers key respond
        (Function.update keyspace (key command) value) commands
      (reply :: replies, last)

/-- Commands that work on one key each, with what they may answer and leave behind. -/
structure CommandFamily (Cmd : Type) where
  run : Cmd → Command Reply
  key : Cmd → Bytes
  /-- The outcomes of a command on a value. -/
  meaning : Cmd → Option Value → Reply × Option Value → Prop
  /-- The values a command may be used on. -/
  admissible : Cmd → Option Value → Prop
  refines : ∀ (command : Cmd) (world : World) (user : UserKey) (state : Option (UInt16 × Value)),
    KeyValid world.db.contents user state → key command = user.1 →
    (state = none → (∃ outcome, meaning command none outcome ∧ outcome.2 ≠ none) →
      world.db.contents.Fresh user) →
    admissible command (state.map Prod.snd) →
    ∃ outcome, meaning command (state.map Prod.snd) outcome ∧
      Refines (run command) world user outcome

namespace CommandFamily

variable (family : CommandFamily Cmd)

/-- Runs of the commands on a keyspace; the deleter has no part in them. -/
inductive Runs : Keyspace → List (Event Cmd) → List Reply → Keyspace → Prop
  | nil (keyspace) : Runs keyspace [] [] keyspace
  | client {keyspace command reply value events replies last} :
      family.meaning command (keyspace (family.key command)) (reply, value) →
      Runs (Function.update keyspace (family.key command) value) events replies last →
      Runs keyspace (.client command :: events) (reply :: replies) last
  | deleter {keyspace events replies last} :
      Runs keyspace events replies last → Runs keyspace (.deleter :: events) replies last

/-- Every command of the run has a short key and is used on a value it may be used on, and no key
is created at a version whose deletion is pending. -/
def Steady : Server → Keyspace → List (Event Cmd) → Prop
  | _, _, [] => True
  | server, keyspace, .client command :: events =>
      (∃ user : UserKey, family.key command = user.1 ∧
        (keyspace user.1 = none → (∃ outcome, family.meaning command none outcome ∧
          outcome.2 ≠ none) → server.world.db.contents.Fresh user)) ∧
      family.admissible command (keyspace (family.key command)) ∧
      ∀ value, family.meaning command (keyspace (family.key command))
          (((family.run command).eval atomically server.world).1, value) →
        Steady (server.step family.run (.client command)).2
          (Function.update keyspace (family.key command) value) events
  | server, keyspace, .deleter :: events =>
      Steady (server.step family.run .deleter).2 keyspace events

end CommandFamily

section Invariant

variable {server : Server} {keyspace : Keyspace}

theorem KeyValid.readable {contents : Contents} {key : UserKey}
    {state : Option (UInt16 × Value)} (valid : KeyValid contents key state) :
    contents.Readable key := by
  intro metaVal found
  have represented := valid.represented
  match state, represented with
  | none, represented =>
      rcases represented with absent | ⟨version, metaVal', header, rest, found', decoded, _⟩
      · rw [absent] at found
        exact absurd found (by simp)
      · rw [found, Option.some_inj] at found'
        rw [found', decoded]
        rfl
  | some (version, value), represented =>
      have live : contents.LiveAs key version value := represented
      obtain ⟨metaVal', rest, found', decoded⟩ := live.header
      rw [found, Option.some_inj] at found'
      rw [found', decoded]
      rfl

theorem checkMetaKey_eq {world : World} {key : UserKey} {state : Option (UInt16 × Value)}
    (valid : KeyValid world.db.contents key state) :
    (checkMetaKey key.1).eval atomically world = (if state.isSome then 1 else 0, world) := by
  have flagOf : ∀ {metaVal rest header}, world.db.contents (.metadata key) = some metaVal →
      decodeMetaHeader metaVal = some (header, rest) →
      (checkMetaKey key.1).eval atomically world =
        (if header.del = keyDeleteMask then 0 else 1, world) := by
    intro metaVal rest header found decoded
    simp only [checkMetaKey, Program.eval_bind, encodeMetaKey_eq, eval_dbGet, found,
      ReadStatus.ofOption, (decodeMetaHeader_eq_some decoded).2]
    rfl
  have represented := valid.represented
  cases state with
  | none =>
      rcases represented with absent | ⟨version, metaVal, header, rest, found, decoded, _, flag⟩
      · simp only [checkMetaKey, Program.eval_bind, encodeMetaKey_eq, eval_dbGet, absent,
          ReadStatus.ofOption]
        rfl
      · rw [flagOf found decoded, if_pos flag]
        rfl
  | some held =>
      have live : world.db.contents.LiveAs key held.1 held.2 := represented
      obtain ⟨metaVal, rest, found, decoded⟩ := live.header
      rw [flagOf found decoded, if_neg enabled_ne_delete]
      rfl

/-- A step of the deleter changes nothing a client can see. -/
theorem Server.Holds.deleter_step (holds : server.Holds keyspace) (run : Cmd → Command Reply) :
    (server.step run .deleter).1 = none ∧ (server.step run .deleter).2.Holds keyspace := by
  have readable : ∀ key, server.world.db.contents.Readable key := fun key =>
    have ⟨_, valid, _⟩ := holds.represents key
    valid.readable
  obtain ⟨deleter', db, eval, updated, valid, outcome⟩ :=
    runBGTask_step holds.keyed readable holds.deleter
  simp only [step, eval]
  refine ⟨trivial, holds.keyed.updated updated, ?_, valid⟩
  rcases outcome with rfl | ⟨key, version, pending, finished⟩
  · exact holds.represents
  · intro key'
    obtain ⟨state, valid, value⟩ := holds.represents key'
    exact ⟨state, finished.keyValid pending valid, value⟩

/-- A command that refines an outcome on its key leads to the keyspace with that outcome. -/
theorem Server.Holds.client_step (holds : server.Holds keyspace) {command : Command Reply}
    {user : UserKey} {outcome : Reply × Option Value}
    (refines : Refines command server.world user outcome) :
    (command.eval atomically server.world).1 = outcome.1 ∧
      Server.Holds { server with world := (command.eval atomically server.world).2 }
        (Function.update keyspace user.1 outcome.2) := by
  obtain ⟨world', state, eval, confined, valid, value⟩ := refines
  rw [eval]
  refine ⟨rfl, holds.keyed.updated confined.updated, ?_, holds.deleter.mono confined.keeps⟩
  intro key
  by_cases own : key = user
  · subst own
    exact ⟨state, valid, by rw [Function.update_self, value]⟩
  · obtain ⟨state', valid', value'⟩ := holds.represents key
    refine ⟨state', valid'.congr fun record mine => confined.frame record (mine ▸ own), ?_⟩
    rw [Function.update_of_ne (fun same => own (Subtype.ext same)), value']

/-- Every steady run answers as the commands do on the keyspace, and ends in a store that
represents the last keyspace. -/
theorem CommandFamily.run_refines (family : CommandFamily Cmd) {events : List (Event Cmd)}
    (holds : server.Holds keyspace) (steady : family.Steady server keyspace events) :
    ∃ last, family.Runs keyspace events (server.run family.run events).1 last ∧
      (server.run family.run events).2.Holds last := by
  induction events generalizing server keyspace with
  | nil => exact ⟨keyspace, .nil _, holds⟩
  | cons event events ih =>
      cases event with
      | client command =>
          obtain ⟨⟨user, own, fresh⟩, admissible, continues⟩ := steady
          obtain ⟨state, valid, value⟩ := holds.represents user
          rw [own, ← value] at admissible continues
          obtain ⟨⟨reply, value'⟩, meaning, refines⟩ :=
            family.refines command server.world user state valid own
              (fun idle => fresh (by rw [← value, idle]; rfl)) admissible
          obtain ⟨answered, holds'⟩ := holds.client_step refines
          obtain ⟨last, runs, final⟩ := ih holds' (continues value'
            (by rw [answered]; exact meaning))
          refine ⟨last, ?_, final⟩
          simp only [Server.run, Server.step, answered, Option.toList_some, List.singleton_append]
          exact .client (by rw [own, ← value]; exact meaning) (by rw [own]; exact runs)
      | deleter =>
          obtain ⟨silent, holds'⟩ := holds.deleter_step family.run
          obtain ⟨last, runs, final⟩ := ih holds' steady
          refine ⟨last, ?_, final⟩
          simp only [Server.run, silent, Option.toList_none, List.nil_append]
          exact .deleter runs

/-- With a functional meaning the run on the keyspace is the only one. -/
theorem CommandFamily.Runs.eq_answers {family : CommandFamily Cmd} {events : List (Event Cmd)}
    {replies : List Reply} {last : Keyspace} {respond : Option Value → Cmd → Reply × Option Value}
    (functional : ∀ command value outcome, family.meaning command value outcome →
      outcome = respond value command) (runs : family.Runs keyspace events replies last) :
    (replies, last) = keyspace.answers family.key respond (clients events) := by
  induction runs with
  | nil => rfl
  | client meaning _ ih =>
      have outcome := functional _ _ _ meaning
      rw [Prod.mk.injEq] at ih
      simp only [clients, List.filterMap_cons, Keyspace.answers, ← outcome]
      rw [Prod.mk.injEq]
      exact ⟨by rw [ih.1]; rfl, ih.2⟩
  | deleter _ ih => exact ih

/-- A fresh server holds nothing. -/
theorem Server.holds_initial (expiration : ExpirationHandler) (cursors : RedisCursorTable)
    (clock : Nat → Int64) (random : Nat → Nat) :
    Server.Holds { world := { db := ∅, expiration, cursors, clock, random } } fun _ => none where
  keyed := by
    intro raw found
    simp at found
  represents key := by
    refine ⟨none, ⟨Or.inl rfl, fun version _ => Or.inl ⟨fun _ => rfl, fun _ _ => rfl⟩, ?_, ?_⟩, rfl⟩
    · rintro version ⟨metaVal, header, rest, found, _⟩
      exact absurd found (by simp [DB.contents])
    · simp
  deleter := Deleter.valid_initial _

/-- A server that has just been opened on an empty store. -/
def emptyServer : Server where
  world := { db := ∅, expiration := {}, cursors := ∅, clock := fun _ => 0, random := fun _ => 0 }

end Invariant

/-- The empty key is short enough. -/
theorem length_nil_lt : ([] : Bytes).length < 65536 := Nat.zero_lt_succ _

theorem Server.run_append (run : Cmd → Command Reply) (server : Server)
    (first second : List (Event Cmd)) :
    server.run run (first ++ second) =
      ((server.run run first).1 ++ ((server.run run first).2.run run second).1,
        ((server.run run first).2.run run second).2) := by
  induction first generalizing server with
  | nil => rfl
  | cons event first ih => simp only [List.cons_append, Server.run, ih, List.append_assoc]

theorem Keyspace.answers_append (key : Cmd → Bytes)
    (respond : Option Value → Cmd → Reply × Option Value) (keyspace : Keyspace)
    (first second : List Cmd) :
    keyspace.answers key respond (first ++ second) =
      ((keyspace.answers key respond first).1 ++
          ((keyspace.answers key respond first).2.answers key respond second).1,
        ((keyspace.answers key respond first).2.answers key respond second).2) := by
  induction first generalizing keyspace with
  | nil => rfl
  | cons command first ih => simp only [List.cons_append, Keyspace.answers, ih]

end Vcdb
