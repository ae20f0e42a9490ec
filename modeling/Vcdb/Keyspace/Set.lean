import Vcdb.Keyspace.Collection
import Vcdb.Proc.Set

/-!
# Set commands refine a finite set

The meaning of the set commands on a finite set of byte strings, and the proof that every command
computes it from the stored records.  A removal must not name a member of the set twice.
-/

namespace Vcdb

/-- A set exists exactly when it has a member. -/
def Value.ofMembers (members : Finset Bytes) : Option Value :=
  if members.card = 0 then none else some (.set members)

namespace SetCommand

/-- Reply to a request with too few arguments. -/
def argumentError : SetCommand → Option Reply
  | sadd _ [] | srem _ [] => some .wrongNumberOfArguments
  | _ => none

/-- Reply and new set of a command on a finite set.  Popping may choose any members. -/
def Denotes (members : Finset Bytes) : SetCommand → Reply → Finset Bytes → Prop
  | sadd _ added, reply, after =>
      after = members ∪ added.toFinset ∧ reply = .int (after.card - members.card)
  | srem _ removed, reply, after =>
      after = members \ removed.toFinset ∧ reply = .int (members.card - after.card)
  | spop _ count, reply, after =>
      if members = ∅ then after = members ∧ reply = .strings []
      else if count.getD 1 < 0 then after = members ∧ reply = .error indexOutOfRange
      else if (count.getD 1).toInt < members.card ∧ intMax < count.getD 1 then
        after = members ∧ reply = .error invalidInt
      else ∃ popped : List Bytes, popped.Nodup ∧ (∀ member ∈ popped, member ∈ members) ∧
        (popped.length : Int) = min (count.getD 1).toInt members.card ∧
        after = members \ popped.toFinset ∧ reply = .strings popped
  | scard _, reply, after => after = members ∧ reply = .int members.card
  | sismember _ member, reply, after =>
      after = members ∧ reply = .int (if member ∈ members then 1 else 0)
  | smembers _, reply, after => after = members ∧ reply = .strings (members.sort (· ≤ ·))

/-- What a set command may answer and leave, given what its key holds. -/
def Responds (value : Option Value) (command : SetCommand) (outcome : Reply × Option Value) :
    Prop :=
  match command.argumentError with
  | some reply => outcome = (reply, value)
  | none =>
      match value with
      | none => ∃ after, command.Denotes ∅ outcome.1 after ∧ outcome.2 = Value.ofMembers after
      | some (.set members) =>
          ∃ after, command.Denotes members outcome.1 after ∧ outcome.2 = Value.ofMembers after
      | some _ => outcome = (.error wrongTypeErr, value)

/-- No member of the set is named twice by a removal.  Popping nothing from a set of 2^64 - 1
members divides by zero. -/
def Admissible (members : Finset Bytes) : SetCommand → Prop
  | srem _ removed => (removed.filter (· ∈ members)).Nodup
  | spop _ count => count = some 0 → members.card ≠ 2 ^ 64 - 1
  | _ => True

end SetCommand

/-- What a set command finds: an absent set counts as empty at the version it would be created
with. -/
structure SetView (contents : Contents) (key : UserKey) (state : Option (UInt16 × Value))
    (members : Finset Bytes) (version : UInt16) : Prop where
  valid : KeyValid contents key state
  value : state.map Prod.snd = Value.ofMembers members
  length : LengthOf contents key state DataType.ssize version members.card
  items : ∀ member, contents (.item key version member) = if member ∈ members then some [] else none
  noScores : ∀ score field, contents (.zscore key version score field) = none
  small : members.card < 2 ^ 64

section View

variable {contents : Contents} {key : UserKey}

theorem SetView.ofIdle (valid : KeyValid contents key none) (fresh : contents.Fresh key) :
    SetView contents key none ∅ (contents.createVersion key) := by
  have clean := valid.clean_of_fresh fresh
  exact
    { valid, value := rfl, length := ⟨rfl, rfl, fresh⟩, items := by simpa using clean.1,
      noScores := clean.2, small := by simp }

theorem SetView.ofLive {version : UInt16} {members : Finset Bytes}
    (valid : KeyValid contents key (some (version, .set members))) :
    SetView contents key (some (version, .set members)) members version := by
  obtain ⟨positive, small, metadata, items, noScores⟩ := valid.represented
  exact
    { valid, value := by simp only [Value.ofMembers, if_neg positive.ne', Option.map_some],
      length := ⟨rfl, positive, metadata⟩, items, noScores, small }

end View

section Commands

variable {world : World} {key : UserKey} {state : Option (UInt16 × Value)}
  {members : Finset Bytes} {version : UInt16}

theorem SetView.refines_self (view : SetView world.db.contents key state members version)
    {command : Command Reply} {reply : Reply}
    (run : command.eval atomically world = (reply, world)) :
    Refines command world key (reply, Value.ofMembers members) :=
  view.value ▸ Refines.of_eval view.valid run

theorem SetView.eval_getSetMetaVal (view : SetView world.db.contents key state members version) :
    ∃ sv : MetaVal, (getSetMetaVal (encodeMetaKey key.1)).eval atomically world =
        ((if members.card = 0 then 0 else 1, sv), world) ∧
      sv.version = version ∧ sv.length = UInt64.ofNat members.card :=
  view.length.eval_getMetaVal DataType.hsize (Or.inr (Or.inl rfl)) view.valid

theorem SetView.eval_getSetItemValInternal
    (view : SetView world.db.contents key state members version) (member : Bytes) :
    (getSetItemValInternal (encodeSetKey key.1 member version)).eval atomically world =
      (if member ∈ members then 1 else 0, world) := by
  rw [getSetItemValInternal, Program.eval_bind, encodeSetKey_eq, eval_dbGet, view.items]
  split_ifs <;> rfl

/-- Commit item updates that turn the members into `members'`. -/
theorem SetView.eval_commitSet (view : SetView world.db.contents key state members version)
    (updates : List Update) (members' : Finset Bytes) (incr : Int) {sv : MetaVal}
    (versionEq : sv.version = version) (lengthEq : sv.length = UInt64.ofNat members.card)
    (elements : ∀ u ∈ updates, ∃ member, u.record = .item key version member)
    (items : ∀ member, world.db.contents.applyAll updates (.item key version member) =
      if member ∈ members' then some [] else none)
    (incrEq : incr = members'.card - members.card) (small : members'.card < 2 ^ 64)
    (nonempty : members.card = 0 → 0 < members'.card) :
    ∃ world' state', (commitSet key.1 (updates.map Update.encode) (encodeMetaKey key.1) sv
          incr).eval atomically world = ((if members'.card = 0 then 0 else 1), world') ∧
      Confined key world.db world'.db ∧ KeyValid world'.db.contents key state' ∧
      state'.map Prod.snd = Value.ofMembers members' := by
  have isElement : ∀ u ∈ updates, u.IsElement key version := fun u mem => Or.inl (elements u mem)
  subst incrEq
  refine view.valid.commit isElement versionEq lengthEq view.small small view.length nonempty ?_
  intro positive other sameItems sameScores metadata
  refine ⟨by omega, small, metadata, ?_, ?_⟩
  · intro member
    rw [sameItems, items]
  · intro score field
    rw [sameScores, Contents.applyAll_of_notMem, view.noScores]
    intro u mem same
    obtain ⟨member, isItem⟩ := elements u mem
    rw [isItem] at same
    exact absurd same (by simp)

/-- The updates that store the new ones among some members. -/
def addUpdates (key : UserKey) (version : UInt16) (members : Finset Bytes) (added : List Bytes) :
    List Update :=
  (added.filter (· ∉ members)).map fun member => ⟨.item key version member, some []⟩

/-- The updates that delete the stored ones among some members. -/
def removeUpdates (key : UserKey) (version : UInt16) (members : Finset Bytes)
    (removed : List Bytes) : List Update :=
  ((removed.filter (· ∈ members)).map (.item key version)).map fun record => ⟨record, none⟩

theorem eval_saddLoop (view : SetView world.db.contents key state members version) {sv : MetaVal}
    (versionEq : sv.version = version) (existing : Bool) (known : existing = false → members = ∅)
    (added : List Bytes) (batch : List Update) (num : Int) :
    (saddLoop sv existing key.1 added (batch.map Update.encode) num).eval atomically world =
      (.ok (num + (added.filter (· ∉ members)).length,
        (batch ++ addUpdates key version members added).map Update.encode), world) := by
  induction added generalizing batch num with
  | nil => simp [saddLoop, addUpdates]
  | cons member added ih =>
      have put : batch.map Update.encode ++ [.put (encodeSetKey key.1 member version) []] =
          (batch ++ [(⟨.item key version member, some []⟩ : Update)]).map Update.encode := by
        simp [encodeSetKey_eq, put_eq]
      have nonneg : ¬((1 : Int) < 0) := by decide
      rw [saddLoop, versionEq]
      cases existing with
      | false =>
          simp only [Bool.false_eq_true, if_false, put]
          rw [ih]
          simp [addUpdates, known rfl]
          omega
      | true =>
          simp only [if_true, Program.eval_bind, view.eval_getSetItemValInternal]
          by_cases stored : member ∈ members
          · simp only [if_pos stored, if_neg nonneg, if_true]
            rw [ih]
            simp [addUpdates, stored]
          · simp only [if_neg stored, lt_irrefl, zero_ne_one, if_false, put]
            rw [ih]
            simp [addUpdates, stored]
            omega

theorem eval_sremLoop (view : SetView world.db.contents key state members version) {sv : MetaVal}
    (versionEq : sv.version = version) (removed : List Bytes) (batch : List Update) (num : Int) :
    (sremLoop sv key.1 removed (batch.map Update.encode) num).eval atomically world =
      (.ok (num + (removed.filter (· ∈ members)).length,
        (batch ++ removeUpdates key version members removed).map Update.encode), world) := by
  induction removed generalizing batch num with
  | nil => simp [sremLoop, removeUpdates]
  | cons member removed ih =>
      have delete : batch.map Update.encode ++ [.delete (encodeSetKey key.1 member version)] =
          (batch ++ [(⟨.item key version member, none⟩ : Update)]).map Update.encode := by
        simp [encodeSetKey_eq, delete_eq]
      rw [sremLoop, versionEq]
      simp only [Program.eval_bind, view.eval_getSetItemValInternal]
      by_cases stored : member ∈ members
      · simp only [if_pos stored, if_true, delete]
        rw [ih]
        simp [removeUpdates, stored]
        omega
      · simp only [if_neg stored, lt_irrefl, zero_ne_one, if_false]
        rw [ih]
        simp [removeUpdates, stored]

theorem items_add (view : SetView world.db.contents key state members version)
    (added : List Bytes) (other : Bytes) :
    world.db.contents.applyAll (addUpdates key version members added) (.item key version other) =
      if other ∈ members ∪ added.toFinset then some [] else none := by
  have general : ∀ contents : Contents, contents.applyAll (addUpdates key version members added)
      (.item key version other) =
        if other ∈ added ∧ other ∉ members then some [] else contents (.item key version other) := by
    induction added with
    | nil => simp [addUpdates]
    | cons member added ih =>
        intro contents
        by_cases stored : member ∈ members
        · have skip : addUpdates key version members (member :: added) =
              addUpdates key version members added := by
            simp [addUpdates, stored]
          rw [skip, ih]
          by_cases same : other = member <;> simp [same, stored]
        · have put : addUpdates key version members (member :: added) =
              ⟨.item key version member, some []⟩ :: addUpdates key version members added := by
            simp [addUpdates, stored]
          rw [put, Contents.applyAll_cons, ih]
          by_cases same : other = member
          · subst same
            simp [stored]
          · simp [same]
  rw [general, view.items]
  by_cases stored : other ∈ members <;> by_cases named : other ∈ added <;> simp [stored, named]

theorem items_remove (view : SetView world.db.contents key state members version)
    (removed : List Bytes) (other : Bytes) :
    world.db.contents.applyAll (removeUpdates key version members removed)
        (.item key version other) = if other ∈ members \ removed.toFinset then some [] else none := by
  rw [removeUpdates, Contents.applyAll_deletes, view.items]
  by_cases stored : other ∈ members <;> by_cases named : other ∈ removed <;> simp [stored, named]

theorem elements_remove {removed : List Bytes} {u : Update}
    (mem : u ∈ removeUpdates key version members removed) :
    ∃ member, u.record = .item key version member := by
  simp only [removeUpdates, List.map_map, List.mem_map, Function.comp_apply] at mem
  obtain ⟨member, _, rfl⟩ := mem
  exact ⟨member, rfl⟩

theorem card_union_toFinset (members : Finset Bytes) {added : List Bytes} (nodup : added.Nodup) :
    (members ∪ added.toFinset).card = members.card + (added.filter (· ∉ members)).length := by
  have split : members ∪ added.toFinset = members ∪ (added.filter (· ∉ members)).toFinset := by
    ext member
    by_cases stored : member ∈ members <;> simp [stored]
  rw [split, Finset.card_union_of_disjoint, List.toFinset_card_of_nodup (nodup.filter _)]
  rw [Finset.disjoint_left]
  intro member stored new
  simp [stored] at new

theorem card_sdiff_toFinset (members : Finset Bytes) (removed : List Bytes)
    (nodup : (removed.filter (· ∈ members)).Nodup) :
    (members \ removed.toFinset).card + (removed.filter (· ∈ members)).length = members.card := by
  have split : members \ removed.toFinset =
      members \ (removed.filter (· ∈ members)).toFinset := by
    ext member
    by_cases stored : member ∈ members <;> simp [stored]
  have inside : (removed.filter (· ∈ members)).toFinset ⊆ members := by
    intro member mem
    simp only [List.mem_toFinset, List.mem_filter, decide_eq_true_eq] at mem
    exact mem.2
  rw [split, ← List.toFinset_card_of_nodup nodup, Finset.card_sdiff_add_card_eq_card inside]

theorem toFinset_byteSet (added : List Bytes) :
    (byteSet added).keys.toFinset = added.toFinset := by
  ext member
  rw [List.mem_toFinset, List.mem_toFinset]
  exact mem_keys_byteSet

theorem SetView.sadd (view : SetView world.db.contents key state members version)
    {added : List Bytes} (nonempty : added ≠ [])
    (small : (members ∪ added.toFinset).card < 2 ^ 64) :
    Refines (procSadd key.1 added) world key
      (.int ((members ∪ added.toFinset).card - members.card),
        Value.ofMembers (members ∪ added.toFinset)) := by
  obtain ⟨sv, readMeta, versionEq, lengthEq⟩ := view.eval_getSetMetaVal
  have counted := card_union_toFinset members (byteSet added).keys_nodup
  rw [toFinset_byteSet] at counted
  have positive : 0 < (members ∪ added.toFinset).card := by
    obtain ⟨member, mem⟩ := List.exists_mem_of_ne_nil added nonempty
    exact Finset.card_pos.mpr ⟨member, by simp [mem]⟩
  have loop := eval_saddLoop view versionEq
    (decide ((if members.card = 0 then (0 : Int) else 1) ≠ 0))
    (by
      intro missing
      by_contra nonzero
      simp [Finset.card_eq_zero, nonzero] at missing)
    (byteSet added).keys [] 0
  rw [List.map_nil, List.nil_append, zero_add] at loop
  obtain ⟨world', state', run, confined, valid, value⟩ := view.eval_commitSet
    (addUpdates key version members (byteSet added).keys) _
    ((byteSet added).keys.filter (· ∉ members)).length versionEq lengthEq (by
      intro u mem
      obtain ⟨member, _, rfl⟩ := List.mem_map.mp mem
      exact ⟨member, rfl⟩) (by
      intro member
      rw [items_add view, toFinset_byteSet]) (by omega) small (fun _ => positive)
  refine ⟨world', state', ?_, confined, valid, value⟩
  have nonneg : ¬(if members.card = 0 then (0 : Int) else 1) < 0 := by split_ifs <;> decide
  have committed : ¬((1 : Int) < 0) := by decide
  rw [if_neg positive.ne'] at run
  simp only [procSadd, if_neg nonempty, Vcdb.sadd, saddNoLock, eval_recordKeyLock,
    Program.eval_bind, readMeta, if_neg nonneg, loop, run, Program.pure_eq_done,
    Program.eval_done, if_neg committed]
  congr 2
  omega

theorem SetView.srem (view : SetView world.db.contents key state members version)
    {removed : List Bytes} (nonempty : removed ≠ [])
    (unrepeated : (removed.filter (· ∈ members)).Nodup) :
    Refines (procSrem key.1 removed) world key
      (.int (members.card - (members \ removed.toFinset).card),
        Value.ofMembers (members \ removed.toFinset)) := by
  obtain ⟨sv, readMeta, versionEq, lengthEq⟩ := view.eval_getSetMetaVal
  have counted := card_sdiff_toFinset members removed unrepeated
  have small := view.small
  by_cases absent : members.card = 0
  · have empty := Finset.card_eq_zero.mp absent
    subst empty
    rw [Finset.empty_sdiff, sub_self]
    apply view.refines_self
    simp only [procSrem, if_neg nonempty, Vcdb.srem, eval_recordKeyLock, Program.eval_bind,
      readMeta, Finset.card_empty, if_true, ne_eq, zero_ne_one, not_false_eq_true, lt_irrefl,
      if_false, Program.pure_eq_done, Program.eval_done]
  · have loop := eval_sremLoop view versionEq removed [] 0
    rw [List.map_nil, List.nil_append, zero_add] at loop
    obtain ⟨world', state', run, confined, valid, value⟩ := view.eval_commitSet _ _
      (-((removed.filter (· ∈ members)).length : Int)) versionEq lengthEq
      (fun _ => elements_remove) (items_remove view removed) (by omega) (by omega) (by omega)
    refine ⟨world', state', ?_, confined, valid, value⟩
    have nonneg : ¬(if (members \ removed.toFinset).card = 0 then (0 : Int) else 1) < 0 := by
      split_ifs <;> decide
    simp only [procSrem, if_neg nonempty, Vcdb.srem, eval_recordKeyLock, Program.eval_bind,
      readMeta, if_neg absent, ne_eq, not_true_eq_false, if_false, loop, run,
      Program.pure_eq_done, Program.eval_done, if_neg nonneg]
    congr 2
    omega

theorem SetView.scard (view : SetView world.db.contents key state members version) :
    Refines (procScard key.1) world key (.int members.card, Value.ofMembers members) := by
  obtain ⟨sv, readMeta, _, lengthEq⟩ := view.eval_getSetMetaVal
  apply view.refines_self
  have nonneg : ¬(if members.card = 0 then (0 : Int) else 1) < 0 := by split_ifs <;> decide
  simp only [procScard, Vcdb.scard, Program.eval_bind, readMeta, if_neg nonneg,
    Program.pure_eq_done, Program.eval_done, lengthEq, UInt64.toNat_ofNat_of_lt' view.small]

theorem SetView.sismember (view : SetView world.db.contents key state members version)
    (member : Bytes) :
    Refines (procSismember key.1 member) world key
      (.int (if member ∈ members then 1 else 0), Value.ofMembers members) := by
  obtain ⟨sv, readMeta, versionEq, _⟩ := view.eval_getSetMetaVal
  apply view.refines_self
  have nonneg : ¬((1 : Int) < 0) := by decide
  by_cases absent : members.card = 0
  · have empty := Finset.card_eq_zero.mp absent
    subst empty
    simp [procSismember, Vcdb.sismember, readMeta]
  · simp only [procSismember, Vcdb.sismember, Program.eval_bind, readMeta, if_neg absent,
      if_neg nonneg, if_true, versionEq, view.eval_getSetItemValInternal]
    by_cases stored : member ∈ members <;> simp [stored]

theorem SetView.siterator (view : SetView world.db.contents key state members version) :
    Vcdb.siterator world.db key.1 version = members.sort (· ≤ ·) := by
  rw [siterator_eq_items, SortedMap.keys_eq_sort_domain]
  congr 1
  ext member
  rw [SortedMap.mem_domain, DB.get_items]
  have item : world.db.get (encodeKeyInternal DataType.item key.1 member version) =
      if member ∈ members then some [] else none := view.items member
  rw [item]
  split_ifs with stored <;> simp [stored]

theorem SetView.smembers (view : SetView world.db.contents key state members version) :
    Refines (procSmembers key.1) world key
      (.strings (members.sort (· ≤ ·)), Value.ofMembers members) := by
  obtain ⟨sv, readMeta, versionEq, _⟩ := view.eval_getSetMetaVal
  apply view.refines_self
  have nonneg : ¬((1 : Int) < 0) := by decide
  by_cases absent : members.card = 0
  · have empty := Finset.card_eq_zero.mp absent
    subst empty
    simp [procSmembers, Vcdb.smembers, readMeta]
  · simp only [procSmembers, Vcdb.smembers, Program.eval_bind, eval_recordKeyLock, readMeta,
      if_neg absent, if_true, eval_getSnapshot, Program.pure_eq_done, Program.eval_done, ne_eq,
      not_true_eq_false, if_false, versionEq, view.siterator, if_neg nonneg]

theorem eval_rand (world : World) :
    rand.eval atomically world =
      (world.random 0, { world with random := fun n => world.random (n + 1) }) := rfl

/-- A sample lies inside the set. -/
theorem eval_sampleWindow (world : World) (length : Nat) {cnt : Int64} (nonneg : 0 ≤ cnt.toInt)
    (small : length < 2 ^ 64) (divides : cnt = 0 → length ≠ 2 ^ 64 - 1) :
    ∃ result world', (sampleWindow (UInt64.ofNat length) cnt).eval atomically world =
        (result, world') ∧ world'.db = world.db ∧
      if cnt.toInt < length ∧ intMax < cnt then result = .error invalidInt
      else ∃ start n, result = .ok (start, n) ∧ start + n ≤ length ∧
        (n : Int) = min cnt.toInt length := by
  have word := toNat_toUInt64 nonneg
  have lengthWord : (UInt64.ofNat length).toNat = length := UInt64.toNat_ofNat_of_lt' small
  rw [sampleWindow]
  by_cases all : UInt64.ofNat length ≤ cnt.toUInt64
  · have le : (length : Int) ≤ cnt.toInt := by
      rw [UInt64.le_iff_toNat_le, lengthWord] at all
      omega
    rw [if_pos all]
    refine ⟨_, world, rfl, rfl, ?_⟩
    rw [if_neg (by omega)]
    exact ⟨0, length, by rw [lengthWord], by omega, by omega⟩
  · have lt : cnt.toInt < length := by
      rw [UInt64.le_iff_toNat_le, lengthWord] at all
      omega
    rw [if_neg all]
    by_cases large : intMax < cnt
    · rw [if_pos large]
      exact ⟨_, world, rfl, rfl, by rw [if_pos ⟨lt, large⟩]⟩
    · rw [if_neg large]
      have room : (UInt64.ofNat length - cnt.toUInt64 + 1).toNat = length - cnt.toUInt64.toNat + 1 := by
        have below : length - cnt.toUInt64.toNat + 1 < 2 ^ 64 := by
          by_contra full
          have zero : cnt.toInt = 0 := by omega
          exact divides (Int64.toInt_inj.mp zero) (by omega)
        rw [UInt64.toNat_add, UInt64.toNat_sub_of_le, lengthWord]
        · exact Nat.mod_eq_of_lt below
        · rw [UInt64.le_iff_toNat_le, lengthWord]
          omega
      refine ⟨_, { world with random := fun n => world.random (n + 1) }, rfl, rfl, ?_⟩
      rw [if_neg (fun h => large h.2)]
      refine ⟨_, _, rfl, ?_, by omega⟩
      have bound : (if 100 < UInt64.ofNat length - cnt.toUInt64 + 1 then 100
          else UInt64.ofNat length - cnt.toUInt64 + 1).toNat ≤ length - cnt.toUInt64.toNat + 1 ∧
          0 < (if 100 < UInt64.ofNat length - cnt.toUInt64 + 1 then 100
            else UInt64.ofNat length - cnt.toUInt64 + 1).toNat := by
        split_ifs with wide
        · rw [UInt64.lt_iff_toNat_lt, room] at wide
          have hundred : (100 : UInt64).toNat = 100 := rfl
          omega
        · omega
      have start := Nat.mod_lt (world.random 0) bound.2
      show world.random 0 % _ + cnt.toUInt64.toNat ≤ length
      omega

theorem SetView.spop (view : SetView world.db.contents key state members version)
    {count : Option Int64} (divides : count = some 0 → members.card ≠ 2 ^ 64 - 1) :
    ∃ reply after, (SetCommand.spop key.1 count).Denotes members reply after ∧
      Refines (procSpop key.1 count) world key (reply, Value.ofMembers after) := by
  obtain ⟨sv, readMeta, versionEq, lengthEq⟩ := view.eval_getSetMetaVal
  have one : ¬((1 : Int) < 0) := by decide
  by_cases absent : members = ∅
  · subst absent
    refine ⟨.strings [], ∅, by simp [SetCommand.Denotes], view.refines_self ?_⟩
    simp [procSpop, Vcdb.spop, readMeta]
  · have positive : members.card ≠ 0 := fun zero => absent (Finset.card_eq_zero.mp zero)
    simp only [SetCommand.Denotes, if_neg absent]
    by_cases negative : count.getD 1 < 0
    · simp only [if_pos negative]
      refine ⟨_, _, ⟨rfl, rfl⟩, view.refines_self ?_⟩
      have code : indexOutOfRange < 0 := by decide
      simp [procSpop, Vcdb.spop, readMeta, positive, negative, code]
    · have nonneg : 0 ≤ (count.getD 1).toInt := by
        rw [toInt_lt_zero] at negative
        omega
      have lengthNonzero : UInt64.ofNat members.card ≠ 0 := by
        rw [← UInt64.toNat_inj.ne, UInt64.toNat_ofNat_of_lt' view.small]
        exact positive
      obtain ⟨result, world₁, sampled, sameDb, sample⟩ :=
        eval_sampleWindow world members.card nonneg view.small (by
          intro zero
          apply divides
          cases count with
          | none => exact absurd zero (by decide)
          | some n => exact congrArg some zero)
      simp only [if_neg negative]
      by_cases large : (count.getD 1).toInt < members.card ∧ intMax < count.getD 1
      · simp only [if_pos large] at sample ⊢
        subst sample
        have code : invalidInt < 0 := by decide
        refine ⟨_, _, ⟨rfl, rfl⟩, world₁, state, ?_, by rw [sameDb]; exact .refl _ _,
          by rw [sameDb]; exact view.valid, view.value⟩
        simp only [procSpop, Vcdb.spop, eval_recordKeyLock, Program.eval_bind, readMeta,
          if_neg positive, ne_eq, not_true_eq_false, if_false, eval_getSnapshot, if_neg negative,
          if_neg lengthNonzero, lengthEq, sampled, Program.pure_eq_done, Program.eval_done,
          if_pos code]
      · simp only [if_neg large] at sample ⊢
        obtain ⟨start, n, rfl, inside, size⟩ := sample
        have view₁ : SetView world₁.db.contents key state members version := by
          rw [sameDb]
          exact view
        have sublist : (((members.sort (· ≤ ·)).drop start).take n).Sublist
            (members.sort (· ≤ ·)) := (List.take_sublist _ _).trans (List.drop_sublist _ _)
        have nodup := (members.sort_nodup (· ≤ ·)).sublist sublist
        have stored : ∀ member ∈ ((members.sort (· ≤ ·)).drop start).take n, member ∈ members :=
          fun member mem => (Finset.mem_sort _).mp (sublist.subset mem)
        have length : (((members.sort (· ≤ ·)).drop start).take n).length = n := by
          rw [List.length_take, List.length_drop, Finset.length_sort]
          omega
        have scanned : ((Vcdb.siterator world.db key.1 version).drop start).take n =
            ((members.sort (· ≤ ·)).drop start).take n := by rw [view.siterator]
        generalize ((members.sort (· ≤ ·)).drop start).take n = popped at *
        have all : popped.filter (· ∈ members) = popped :=
          List.filter_eq_self.mpr fun member mem => by simpa using stored member mem
        have counted := card_sdiff_toFinset members popped
          (by rw [all]; exact nodup)
        rw [all] at counted
        have batch : popped.map (fun member => .delete (encodeSetKey key.1 member version)) =
            (removeUpdates key version members popped).map Update.encode := by
          rw [removeUpdates, all, List.map_map, List.map_map]
          rfl
        obtain ⟨world', state', run, confined, valid, value⟩ := view₁.eval_commitSet _
          (members \ popped.toFinset) (-(popped.length : Int)) versionEq lengthEq
          (fun _ => elements_remove) (items_remove view₁ popped) (by omega)
          (by have := view.small; omega) (by omega)
        refine ⟨.strings popped, _, ⟨popped, nodup, stored, by omega, rfl, rfl⟩, world', state', ?_,
          by rw [← sameDb]; exact confined, valid, value⟩
        have committed : ¬(if (members \ popped.toFinset).card = 0 then (0 : Int) else 1) < 0 := by
          split_ifs <;> decide
        simp only [procSpop, Vcdb.spop, eval_recordKeyLock, Program.eval_bind, readMeta,
          if_neg positive, ne_eq, not_true_eq_false, if_false, eval_getSnapshot, if_neg negative,
          lengthEq, if_neg lengthNonzero, sampled, versionEq, scanned, batch, run,
          Program.pure_eq_done, Program.eval_done, if_neg committed]

end Commands

/-- Every set command with enough arguments computes its meaning on the finite set. -/
theorem SetView.refines {world : World} {key : UserKey} {state : Option (UInt16 × Value)}
    {members : Finset Bytes} {version : UInt16}
    (view : SetView world.db.contents key state members version) {command : SetCommand}
    (own : command.key = key.1) (complete : command.argumentError = none)
    (admissible : command.Admissible members)
    (small : ∀ reply after, command.Denotes members reply after → after.card < 2 ^ 64) :
    ∃ reply after, command.Denotes members reply after ∧
      Refines command.run world key (reply, Value.ofMembers after) := by
  cases command with
  | sadd name added =>
      cases own
      exact ⟨_, _, ⟨rfl, rfl⟩, view.sadd
        (by rintro rfl; exact absurd complete (by simp [SetCommand.argumentError]))
        (small _ _ ⟨rfl, rfl⟩)⟩
  | srem name removed =>
      cases own
      exact ⟨_, _, ⟨rfl, rfl⟩, view.srem
        (by rintro rfl; exact absurd complete (by simp [SetCommand.argumentError])) admissible⟩
  | spop name count => cases own; exact view.spop admissible
  | scard name => cases own; exact ⟨_, _, ⟨rfl, rfl⟩, view.scard⟩
  | sismember name member => cases own; exact ⟨_, _, ⟨rfl, rfl⟩, view.sismember member⟩
  | smembers name => cases own; exact ⟨_, _, ⟨rfl, rfl⟩, view.smembers⟩

namespace SetCommand

/-- A request with too few arguments is refused before the store is read. -/
theorem eval_incomplete {world : World} {command : SetCommand} {reply : Reply}
    (incomplete : command.argumentError = some reply) :
    command.run.eval atomically world = (reply, world) := by
  match command, incomplete with
  | .sadd _ [], rfl => rfl
  | .srem _ [], rfl => rfl

/-- On a key of another type every set command reports the error and does nothing. -/
theorem eval_wrongType {world : World} {key : UserKey} {version : UInt16} {value : Value}
    (live : world.db.contents.LiveAs key version value) (other : value.type ≠ DataType.ssize)
    {command : SetCommand} (own : command.key = key.1) (complete : command.argumentError = none) :
    command.run.eval atomically world = (.error wrongTypeErr, world) := by
  obtain ⟨mv, readMeta⟩ := eval_getMetaVal_wrongType DataType.hsize live other
  have negative : wrongTypeErr < 0 := by decide
  have notOne : wrongTypeErr ≠ 1 := by decide
  cases command <;> cases own
  case sadd added =>
    cases added with
    | nil => simp [argumentError] at complete
    | cons member added =>
        simp [run, procSadd, Vcdb.sadd, saddNoLock, getSetMetaVal, readMeta, negative]
  case srem removed =>
    cases removed with
    | nil => simp [argumentError] at complete
    | cons member removed =>
        simp [run, procSrem, Vcdb.srem, getSetMetaVal, readMeta, negative, notOne]
  all_goals simp [run, procSpop, procScard, procSismember, procSmembers, Vcdb.spop, Vcdb.scard,
    Vcdb.sismember, Vcdb.smembers, getSetMetaVal, readMeta, negative, notOne]

/-- On a missing key only an addition creates a set; the others answer as on the empty set. -/
theorem eval_idle {world : World} {key : UserKey} (valid : KeyValid world.db.contents key none)
    {command : SetCommand} (own : command.key = key.1) (complete : command.argumentError = none)
    (creates : ∀ reply after, command.Denotes ∅ reply after → after = ∅) :
    ∃ reply, command.Denotes ∅ reply ∅ ∧ command.run.eval atomically world = (reply, world) := by
  obtain ⟨sv, readMeta, _, lengthEq⟩ :=
    eval_getMetaVal_idle DataType.ssize DataType.hsize valid
  cases command <;> cases own
  case sadd added =>
    cases added with
    | nil => simp [argumentError] at complete
    | cons member added =>
        have empty := creates _ _ ⟨rfl, rfl⟩
        simp at empty
  case srem removed =>
    cases removed with
    | nil => simp [argumentError] at complete
    | cons member removed =>
        refine ⟨.int 0, by simp [Denotes], ?_⟩
        simp [run, procSrem, Vcdb.srem, getSetMetaVal, readMeta]
  case spop count =>
    refine ⟨.strings [], by simp [Denotes], ?_⟩
    simp [run, procSpop, Vcdb.spop, getSetMetaVal, readMeta]
  case scard =>
    refine ⟨.int 0, by simp [Denotes], ?_⟩
    simp [run, procScard, Vcdb.scard, getSetMetaVal, readMeta, lengthEq]
  case sismember member =>
    refine ⟨.int 0, by simp [Denotes], ?_⟩
    simp [run, procSismember, Vcdb.sismember, getSetMetaVal, readMeta]
  case smembers =>
    refine ⟨.strings [], by simp [Denotes], ?_⟩
    simp [run, procSmembers, Vcdb.smembers, getSetMetaVal, readMeta]

/-- A set command answers and changes its key as it may on the value the key holds. -/
theorem refines {world : World} {key : UserKey} {state : Option (UInt16 × Value)}
    (valid : KeyValid world.db.contents key state) {command : SetCommand}
    (own : command.key = key.1)
    (fresh : state = none → (∃ outcome, command.Responds none outcome ∧ outcome.2 ≠ none) →
      world.db.contents.Fresh key)
    (admissible : ∀ members, state.map Prod.snd = some (.set members) → command.Admissible members)
    (small : ∀ reply members, command.Responds (state.map Prod.snd) (reply, some (.set members)) →
      members.card < 2 ^ 64) :
    ∃ outcome, command.Responds (state.map Prod.snd) outcome ∧
      Refines command.run world key outcome := by
  have stays : ∀ {reply}, command.run.eval atomically world = (reply, world) →
      Refines command.run world key (reply, state.map Prod.snd) := Refines.of_eval valid
  unfold Responds at small fresh ⊢
  cases complete : command.argumentError with
  | some reply => exact ⟨_, rfl, stays (eval_incomplete complete)⟩
  | none =>
      rw [complete] at small fresh
      have bounded : ∀ after : Finset Bytes,
          (∀ members, Value.ofMembers after = some (.set members) → members.card < 2 ^ 64) →
          after.card < 2 ^ 64 := by
        intro after bound
        by_cases zero : after.card = 0
        · omega
        · exact bound after (by rw [Value.ofMembers, if_neg zero])
      match state, valid with
      | none, valid =>
          by_cases creates : ∀ reply after, command.Denotes ∅ reply after → after = ∅
          · obtain ⟨reply, denotes, run⟩ := eval_idle valid own complete creates
            exact ⟨(reply, none), ⟨∅, denotes, rfl⟩, stays run⟩
          · push Not at creates
            obtain ⟨reply, after, denotes, nonempty⟩ := creates
            have created : Value.ofMembers after ≠ none := by
              rw [Value.ofMembers, if_neg (Finset.card_pos.mpr nonempty).ne']
              simp
            have view := SetView.ofIdle valid (fresh rfl ⟨(reply, Value.ofMembers after),
              ⟨after, denotes, rfl⟩, created⟩)
            obtain ⟨reply, after, denotes, refines⟩ := view.refines own complete
              (by cases command <;> simp [Admissible])
              (fun reply after denotes => bounded after fun members held =>
                small reply members ⟨after, denotes, held.symm⟩)
            exact ⟨_, ⟨after, denotes, rfl⟩, refines⟩
      | some (version, .set members), valid =>
          obtain ⟨reply, after, denotes, refines⟩ := (SetView.ofLive valid).refines own complete
            (admissible members rfl)
            (fun reply after denotes => bounded after fun members held =>
              small reply members ⟨after, denotes, held.symm⟩)
          exact ⟨_, ⟨after, denotes, rfl⟩, refines⟩
      | some (version, .string val), valid =>
          exact ⟨_, rfl, stays (eval_wrongType valid.represented
            (show DataType.kv ≠ DataType.ssize by decide) own complete)⟩
      | some (version, .hash fields), valid =>
          exact ⟨_, rfl, stays (eval_wrongType valid.represented
            (show DataType.hsize ≠ DataType.ssize by decide) own complete)⟩
      | some (version, .zset scores), valid =>
          exact ⟨_, rfl, stays (eval_wrongType valid.represented
            (show DataType.zsize ≠ DataType.ssize by decide) own complete)⟩
      | some (version, .list cells), valid =>
          exact ⟨_, rfl, stays (eval_wrongType valid.represented
            (show DataType.lsize ≠ DataType.ssize by decide) own complete)⟩

end SetCommand

end Vcdb
