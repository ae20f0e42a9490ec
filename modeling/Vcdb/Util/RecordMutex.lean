import Mathlib.Data.PNat.Defs
import Vcdb.Codec.Encode
import Vcdb.Lib.Interleaving
import Vcdb.Lib.SortedMap

/-!
# The record lock

A record for every key that is locked or awaited, counted under a mutex of their own, and a gate
that the locks of all keys have to pass.  What a thread does between two operations on a mutex is
one step; `records_`, `charge_` and the reference counts are read and written under `mutex_` only.
-/

namespace Vcdb

/-- The mutex of a record and the number of its references. -/
structure RefMutex where
  mu : Bool := false
  refs : Int := 0
deriving DecidableEq

/-- Where records are allocated. -/
abbrev Address := Nat

namespace RecordMutex

/-- What a thread does next. -/
inductive Phase
  | outside
  /-- `Lock(key)`: before the gate is locked, and before it is unlocked. -/
  | lock (key : Bytes)
  | passGate (key : Bytes)
  /-- Before `mutex_` is locked, the record is found or made, and `mutex_` is unlocked. -/
  | lockKeyInternal (key : Bytes)
  | findRecord (key : Bytes)
  | leaveRecords (key : Bytes) (ref : Address)
  /-- Before the record is locked. -/
  | awaitRecord (key : Bytes) (ref : Address)
  /-- `Unlock(key)`: before `mutex_` is locked, and before the record is found. -/
  | unlock (key : Bytes)
  | isLastRef (key : Bytes)
  /-- Before the record is unlocked, and before it loses a reference. -/
  | refUnlock (key : Bytes) (ref : Address)
  | unref (key : Bytes) (ref : Address)
  | unlocked
  /-- `lock()`: before the gate is locked, and in a `GetUsage()` before `mutex_` is locked, before
  the charge is read, and before `mutex_` is unlocked and the size tested. -/
  | lockAll
  | getUsage
  | readUsage
  | usage (size : Int)
deriving DecidableEq

/-- A thread, the keys it has locked, and whether it has locked them all. -/
structure Owner where
  phase : Phase := .outside
  held : List Bytes := []
  flushing : Bool := false
deriving DecidableEq

structure State (Thread : Type) where
  gMutex : Bool := false
  mutex : Bool := false
  records : SortedMap Bytes Address := ∅
  heap : Address → Option RefMutex := fun _ => none
  charge : Int := 0
  threads : Thread → Owner := fun _ => {}

/-- A call of one of the four operations, or the next step of the one that is under way; a new
record is allocated where there is none. -/
inductive Event
  | lock (key : Bytes)
  | unlock (key : Bytes)
  | lockAll
  | unlockAll
  | advance (fresh : Address)
deriving DecidableEq

variable {Thread : Type} [DecidableEq Thread]

namespace State

def setOwner (s : State Thread) (thread : Thread) (owner : Owner) : State Thread :=
  { s with threads := Function.update s.threads thread owner }

def goto (s : State Thread) (thread : Thread) (phase : Phase) : State Thread :=
  s.setOwner thread { s.threads thread with phase }

def setRecord (s : State Thread) (ref : Address) (record : Option RefMutex) : State Thread :=
  { s with heap := Function.update s.heap ref record }

/-- What a record is charged for. -/
def pairCharge (kEstimatePairSize : ℕ+) (key : Bytes) : Int :=
  (kEstimatePairSize : Nat) + key.length

/-- The part of `lockKeyInternal` under `mutex_`. -/
def findRecord (kEstimatePairSize : ℕ+) (s : State Thread) (thread : Thread) (key : Bytes)
    (fresh : Address) : Option (State Thread) :=
  match s.records.get key with
  | some ref =>
      (s.heap ref).map fun record =>
        (s.setRecord ref (some { record with refs := record.refs + 1 })).goto thread
          (.leaveRecords key ref)
  | none =>
      if (s.heap fresh).isSome then none
      else
        let s := s.setRecord fresh (some { refs := 1 })
        let records := s.records.put key fresh
        let charge := s.charge + pairCharge kEstimatePairSize key
        some (State.goto { s with records, charge } thread (.leaveRecords key fresh))

/-- The part of `Unlock` under `mutex_` before the record is unlocked. -/
def isLastRef (kEstimatePairSize : ℕ+) (s : State Thread) (thread : Thread) (key : Bytes) :
    Option (State Thread) :=
  match s.records.get key with
  | none => some (s.goto thread .unlocked)
  | some ref =>
      (s.heap ref).map fun record =>
        if record.refs = 1 then
          let records := s.records.erase key
          let charge := s.charge - pairCharge kEstimatePairSize key
          State.goto { s with records, charge } thread (.refUnlock key ref)
        else s.goto thread (.refUnlock key ref)

/-- A record that has lost its last reference deletes itself. -/
def unref (s : State Thread) (thread : Thread) (ref : Address) : Option (State Thread) :=
  (s.heap ref).map fun record =>
    let refs := record.refs - 1
    (s.setRecord ref (if refs = 0 then none else some { record with refs })).goto thread .unlocked

/-- The next step of the operation that a thread is in.  There is none while the mutex that it
needs is locked, and none at a record that has been deleted. -/
def advance (kEstimatePairSize : ℕ+) (s : State Thread) (thread : Thread) (fresh : Address) :
    Option (State Thread) :=
  match (s.threads thread).phase with
  | .outside => none
  | .lock key =>
      if s.gMutex then none else some (State.goto { s with gMutex := true } thread (.passGate key))
  | .passGate key => some (State.goto { s with gMutex := false } thread (.lockKeyInternal key))
  | .lockKeyInternal key =>
      if s.mutex then none else some (State.goto { s with mutex := true } thread (.findRecord key))
  | .findRecord key => s.findRecord kEstimatePairSize thread key fresh
  | .leaveRecords key ref =>
      some (State.goto { s with mutex := false } thread (.awaitRecord key ref))
  | .awaitRecord key ref =>
      match s.heap ref with
      | none => none
      | some record =>
          if record.mu then none
          else
            let owner := s.threads thread
            some ((s.setRecord ref (some { record with mu := true })).setOwner thread
              { owner with phase := .outside, held := key :: owner.held })
  | .unlock key =>
      if s.mutex then none else some (State.goto { s with mutex := true } thread (.isLastRef key))
  | .isLastRef key => s.isLastRef kEstimatePairSize thread key
  | .refUnlock key ref =>
      (s.heap ref).map fun record =>
        (s.setRecord ref (some { record with mu := false })).goto thread (.unref key ref)
  | .unref _ ref => s.unref thread ref
  | .unlocked => some (State.goto { s with mutex := false } thread .outside)
  | .lockAll =>
      if s.gMutex then none else some (State.goto { s with gMutex := true } thread .getUsage)
  | .getUsage =>
      if s.mutex then none else some (State.goto { s with mutex := true } thread .readUsage)
  | .readUsage => some (s.goto thread (.usage s.charge))
  | .usage size =>
      let s := { s with mutex := false }
      if size > 0 then some (s.goto thread .getUsage)
      else some (s.setOwner thread { s.threads thread with phase := .outside, flushing := true })

/-- A thread calls an operation, or goes on with it.  It unlocks only what it has locked. -/
def step (kEstimatePairSize : ℕ+) (s : State Thread) (thread : Thread) (event : Event) :
    Option (State Thread) :=
  let owner := s.threads thread
  match event with
  | .advance fresh => s.advance kEstimatePairSize thread fresh
  | .lock key => if owner.phase = .outside then some (s.goto thread (.lock key)) else none
  | .unlock key =>
      if owner.phase = .outside ∧ owner.held.contains key then
        some (s.setOwner thread { owner with phase := .unlock key, held := owner.held.erase key })
      else none
  | .lockAll => if owner.phase = .outside then some (s.goto thread .lockAll) else none
  | .unlockAll =>
      if owner.phase = .outside ∧ owner.flushing then
        some (State.setOwner { s with gMutex := false } thread { owner with flushing := false })
      else none

end State

end RecordMutex

end Vcdb
