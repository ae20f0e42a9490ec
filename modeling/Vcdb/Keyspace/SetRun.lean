import Vcdb.Keyspace.Run
import Vcdb.Keyspace.Set

/-!
# Runs of set commands

Every run of set commands answers as on finite sets while no removal repeats a member of the set
and no set reaches 2^64 members.  A repeated member is counted twice, so that the stored length
falls behind the stored members.
-/

namespace Vcdb

/-- The set commands, on sets that stay below 2^64 members, with no repeated removal. -/
def setFamily : CommandFamily SetCommand where
  run := SetCommand.run
  key := SetCommand.key
  meaning command value outcome := command.Responds value outcome
  admissible command value :=
    (∀ members, value = some (.set members) → command.Admissible members) ∧
      ∀ reply members, command.Responds value (reply, some (.set members)) →
        members.card < 2 ^ 64
  refines _ _ _ _ valid own fresh admissible :=
    SetCommand.refines valid own fresh admissible.1 admissible.2

/-- The key exists when it holds something, and the length stored for a set is the number of the
members stored under its version, which are the members of the set. -/
def SetStored (world : World) (key : UserKey) (value : Option Value) : Prop :=
  (checkMetaKey key.1).eval atomically world = (if value.isSome then 1 else 0, world) ∧
    ∀ members, value = some (.set members) → members.Nonempty ∧
      ∃ version, world.db.contents (.metadata key) =
          some (encodeSetMetaVal (UInt64.ofNat (world.db.items key.1 version).size) version) ∧
        (world.db.items key.1 version).domain = members

theorem KeyValid.setStored {world : World} {key : UserKey} {state : Option (UInt16 × Value)}
    (valid : KeyValid world.db.contents key state) :
    SetStored world key (state.map Prod.snd) := by
  refine ⟨by rw [checkMetaKey_eq valid, Option.isSome_map], fun members holds => ?_⟩
  obtain ⟨⟨version, value⟩, rfl, rfl⟩ := Option.map_eq_some_iff.mp holds
  obtain ⟨positive, _, metadata, items, _⟩ := valid.represented
  have stored : (world.db.items key.1 version).domain = members := by
    ext member
    rw [SortedMap.mem_domain, DB.get_items]
    have item : world.db.get (encodeKeyInternal DataType.item key.1 member version) =
        if member ∈ members then some [] else none := items member
    rw [item]
    split_ifs with mem <;> simp [mem]
  refine ⟨Finset.card_pos.mp positive, version, ?_, stored⟩
  rw [← SortedMap.card_domain, stored]
  exact metadata

/-- A steady run of set commands answers as on finite sets, and every state it reaches stores these
sets. -/
theorem set_run_refines {server : Server} {keyspace : Keyspace} {events : List (Event SetCommand)}
    (holds : server.Holds keyspace) (steady : setFamily.Steady server keyspace events) :
    ∃ last, setFamily.Runs keyspace events (server.run SetCommand.run events).1 last ∧
      ∀ key : UserKey, SetStored (server.run SetCommand.run events).2.world key (last key.1) := by
  obtain ⟨last, runs, final⟩ := setFamily.run_refines holds steady
  refine ⟨last, runs, fun key => ?_⟩
  obtain ⟨state, valid, value⟩ := final.represents key
  exact value ▸ valid.setStored

/-- Adding members twice to a missing set is steady. -/
theorem set_run_refines_added :
    ∃ last, setFamily.Runs (fun _ => none)
        [.client (.sadd [107] [[97], [97]]), .deleter, .client (.scard [107])]
        (emptyServer.run SetCommand.run
          [.client (.sadd [107] [[97], [97]]), .deleter, .client (.scard [107])]).1 last ∧
      ∀ key : UserKey, SetStored (emptyServer.run SetCommand.run
        [.client (.sadd [107] [[97], [97]]), .deleter, .client (.scard [107])]).2.world key
          (last key.1) := by
  have single : Value.ofMembers (∅ ∪ [[97], [97]].toFinset) = some (.set {[97]}) := by
    rw [Value.ofMembers, if_neg (by decide)]
    rfl
  refine set_run_refines (Server.holds_initial _ _ _ _)
    ⟨⟨⟨[107], by decide⟩, rfl, fun _ _ => rfl⟩, ⟨by simp, ?_⟩, ?_⟩
  · rintro reply members ⟨after, ⟨rfl, _⟩, held⟩
    rw [single] at held
    obtain rfl : members = {[97]} := by simpa using held
    decide
  · rintro value ⟨after, ⟨rfl, _⟩, held⟩
    obtain rfl : value = some (.set {[97]}) := held.trans single
    refine ⟨⟨⟨[107], by decide⟩, rfl, ?_⟩, ⟨fun _ _ => trivial, ?_⟩, fun _ _ => trivial⟩
    · rintro idle
      exact absurd idle (by simp [setFamily, SetCommand.key])
    rintro reply members ⟨after, ⟨rfl, _⟩, held⟩
    have same : some (.set members) = Value.ofMembers {[97]} := held
    obtain rfl : members = {[97]} := by simpa [Value.ofMembers] using same
    decide

/-- Add two members, remove the first one twice in one command, and ask for the second. -/
def repeatedRemoval : List (Event SetCommand) :=
  [.client (.sadd [107] [[97], [98]]), .client (.srem [107] [[97], [97]]),
    .client (.sismember [107] [98])]

/-- The removal counts its member twice, and the emptied set is deleted with a member left. -/
theorem set_run_repeatedRemoval :
    (emptyServer.run SetCommand.run repeatedRemoval).1 = [.int 2, .int 2, .int 0] ∧
      ¬∃ last, setFamily.Runs (fun _ => none) repeatedRemoval
        (emptyServer.run SetCommand.run repeatedRemoval).1 last := by
  have replies : (emptyServer.run SetCommand.run repeatedRemoval).1 =
      [.int 2, .int 2, .int 0] := rfl
  refine ⟨replies, ?_⟩
  rw [replies]
  rintro ⟨last, runs⟩
  obtain _ | ⟨added, _ | ⟨removed, _⟩⟩ := runs
  obtain ⟨members, ⟨rfl, _⟩, rfl⟩ := added
  have held : Value.ofMembers (∅ ∪ [[97], [98]].toFinset) = some (.set {[97], [98]}) := by
    rw [Value.ofMembers, if_neg (by decide)]
    rfl
  have sameKey : setFamily.key (.srem [107] [[97], [97]]) =
      setFamily.key (.sadd [107] [[97], [98]]) := rfl
  rw [sameKey, Function.update_self, held] at removed
  obtain ⟨after, ⟨rfl, reply⟩, _⟩ := removed
  have two : Reply.int 2 = .int (({[97], [98]} : Finset Bytes).card -
      (({[97], [98]} : Finset Bytes) \ [[97], [97]].toFinset).card) := reply
  exact absurd two (by decide)

end Vcdb
