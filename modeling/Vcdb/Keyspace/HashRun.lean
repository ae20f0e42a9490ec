import Vcdb.Keyspace.Hash
import Vcdb.Keyspace.Run

/-!
# Runs of hash commands

Every run of hash commands answers as on finite maps while no map reaches 2^64 fields.  The field
that would be the 2^64-th wraps the stored length to zero, and the hash is deleted.
-/

namespace Vcdb

/-- The hash commands, on maps that stay below 2^64 fields. -/
noncomputable def hashFamily : CommandFamily HashCommand where
  run := HashCommand.run
  key := HashCommand.key
  meaning command value outcome := outcome = command.respond value
  admissible command value :=
    ∀ fields, (command.respond value).2 = some (.hash fields) → fields.size < 2 ^ 64
  refines command world user state valid own fresh small := by
    refine ⟨_, rfl, HashCommand.refines valid own (fun idle created => ?_) small⟩
    exact fresh idle ⟨_, rfl, created⟩

/-- The key exists when it holds something, and the length stored for a hash is the number of the
fields stored under its version, which are the fields of the map. -/
def HashStored (world : World) (key : UserKey) (value : Option Value) : Prop :=
  (checkMetaKey key.1).eval atomically world = (if value.isSome then 1 else 0, world) ∧
    ∀ fields, value = some (.hash fields) → fields ≠ ∅ ∧
      ∃ version, world.db.contents (.metadata key) =
          some (encodeHashMetaVal (UInt64.ofNat (world.db.items key.1 version).size) version) ∧
        world.db.items key.1 version = fields

theorem KeyValid.hashStored {world : World} {key : UserKey} {state : Option (UInt16 × Value)}
    (valid : KeyValid world.db.contents key state) :
    HashStored world key (state.map Prod.snd) := by
  refine ⟨by rw [checkMetaKey_eq valid, Option.isSome_map], fun fields holds => ?_⟩
  obtain ⟨⟨version, value⟩, rfl, rfl⟩ := Option.map_eq_some_iff.mp holds
  obtain ⟨positive, _, metadata, items, _⟩ := valid.represented
  have stored : world.db.items key.1 version = fields := by
    ext field : 1
    rw [DB.get_items]
    exact items field
  refine ⟨?_, version, by rw [stored]; exact metadata, stored⟩
  rintro rfl
  exact absurd positive (lt_irrefl 0)

/-- A steady run of hash commands answers as on finite maps, and every state it reaches stores
these maps and refuses commands on keys of another type. -/
theorem hash_run_refines {server : Server} {keyspace : Keyspace}
    {events : List (Event HashCommand)} (holds : server.Holds keyspace)
    (steady : hashFamily.Steady server keyspace events) :
    (server.run HashCommand.run events).1 =
        (keyspace.answers HashCommand.key HashCommand.respond
          (clients events)).1 ∧
      ∀ key : UserKey,
        HashStored (server.run HashCommand.run events).2.world key
          ((keyspace.answers HashCommand.key HashCommand.respond
            (clients events)).2 key.1) ∧
        ∀ (command : HashCommand) (value : Value), command.key = key.1 →
          command.argumentError = none →
          (keyspace.answers HashCommand.key HashCommand.respond
            (clients events)).2 key.1 = some value → value.type ≠ DataType.hsize →
          command.run.eval atomically (server.run HashCommand.run events).2.world =
            (.error wrongTypeErr, (server.run HashCommand.run events).2.world) := by
  obtain ⟨last, runs, final⟩ := hashFamily.run_refines holds steady
  have same := runs.eq_answers fun _ _ _ meaning => meaning
  have replies := congrArg Prod.fst same
  have lastEq : last = _ := congrArg Prod.snd same
  refine ⟨replies, fun key => ?_⟩
  obtain ⟨state, valid, value⟩ := final.represents key
  rw [lastEq] at value
  refine ⟨value ▸ valid.hashStored, ?_⟩
  rintro command held own complete found other
  have stateEq : state.map Prod.snd = some held := value.trans found
  obtain ⟨⟨version, _⟩, rfl, rfl⟩ := Option.map_eq_some_iff.mp stateEq
  exact HashCommand.eval_wrongType valid.represented other own complete

section Overflow

/-- The key of the growing hash. -/
def grownKey : UserKey := ⟨[], length_nil_lt⟩

/-- The `i`-th field of the growing hash. -/
def grownField (i : Nat) : Bytes := be64 (UInt64.ofNat i)

def growStep (i : Nat) : HashCommand := .hset grownKey.1 (grownField i) []

/-- The first `n` fields. -/
def grownFields (n : Nat) : SortedMap Bytes Bytes :=
  SortedMap.putAll ∅ ((List.range n).map fun i => (grownField i, []))

theorem grownFields_succ (n : Nat) :
    grownFields (n + 1) = (grownFields n).put (grownField n) [] := by
  rw [grownFields, List.range_succ, List.map_append, SortedMap.putAll, List.foldl_append]
  rfl

theorem grownField_inj {i n : Nat} (small : i < 2 ^ 64) (small' : n < 2 ^ 64)
    (same : grownField i = grownField n) : i = n := by
  have words := congrArg UInt64.toNat (be64_injective same)
  rwa [UInt64.toNat_ofNat_of_lt' small, UInt64.toNat_ofNat_of_lt' small'] at words

theorem get_grownFields {n m : Nat} (le : n ≤ m) (small : m < 2 ^ 64) :
    (grownFields n).get (grownField m) = none := by
  induction n with
  | zero => rfl
  | succ n ih =>
      rw [grownFields_succ, SortedMap.get_put, if_neg]
      · exact ih (by omega)
      · intro same
        have := grownField_inj small (by omega) same
        omega

theorem size_grownFields {n : Nat} (small : n ≤ 2 ^ 64) : (grownFields n).size = n := by
  induction n with
  | zero => rfl
  | succ n ih =>
      rw [grownFields_succ, SortedMap.size_put, get_grownFields le_rfl (by omega), ih (by omega)]
      simp

/-- Growing an empty or partly grown hash is steady up to 2^64 - 1 fields. -/
theorem grow_steady (server : Server) (keyspace : Keyspace) (n m : Nat) (small : n + m < 2 ^ 64)
    (value : keyspace grownKey.1 = Value.ofFields (grownFields n))
    (fresh : n = 0 → server.world.db.contents.Fresh grownKey) :
    hashFamily.Steady server keyspace
        ((List.range' n m).map fun i => .client (growStep i)) ∧
      (keyspace.answers HashCommand.key HashCommand.respond
        ((List.range' n m).map growStep)).2 grownKey.1 = Value.ofFields (grownFields (n + m)) := by
  induction m generalizing server keyspace n with
  | zero => exact ⟨trivial, value⟩
  | succ m ih =>
      have responds : (growStep n).respond (keyspace grownKey.1) =
          (.int 1, Value.ofFields (grownFields (n + 1))) := by
        rw [value, Value.ofFields, size_grownFields (by omega)]
        split_ifs with zero
        · subst zero
          rfl
        · have missing := get_grownFields (n := n) le_rfl (by omega)
          simp only [HashCommand.respond, growStep, HashCommand.argumentError, HashCommand.denote,
            missing, grownFields_succ]
          rfl
      have next := fun server' => ih server'
        (Function.update keyspace grownKey.1 (Value.ofFields (grownFields (n + 1)))) (n + 1)
        (by omega) (Function.update_self ..) (by omega)
      rw [show n + 1 + m = n + (m + 1) by omega] at next
      rw [List.range'_succ, List.map_cons, List.map_cons]
      refine ⟨⟨⟨grownKey, rfl, fun idle _ => fresh ?_⟩, ?_, ?_⟩, ?_⟩
      · rw [value, Value.ofFields, size_grownFields (by omega)] at idle
        by_contra nonzero
        rw [if_neg nonzero] at idle
        exact absurd idle (by simp)
      · intro fields held
        have responded : ((growStep n).respond (keyspace grownKey.1)).2 = some (.hash fields) := held
        rw [responds, Value.ofFields, size_grownFields (by omega), if_neg (by omega),
          Option.some_inj, Value.hash.injEq] at responded
        rw [← responded, size_grownFields (by omega)]
        omega
      · intro value' meaning
        have outcome : (_, value') = (growStep n).respond (keyspace grownKey.1) := meaning
        rw [responds] at outcome
        rw [(Prod.mk.inj outcome).2]
        exact (next _).1
      · simp only [Keyspace.answers]
        rw [show HashCommand.key (growStep n) = grownKey.1 from rfl, responds]
        exact (next server).2

/-- Setting three new fields is steady. -/
theorem hash_run_refines_grown :
    (emptyServer.run HashCommand.run ((List.range' 0 3).map fun i => .client (growStep i))).1 =
        (Keyspace.answers HashCommand.key HashCommand.respond (fun _ => none)
          (clients ((List.range' 0 3).map fun i => .client (growStep i)))).1 ∧
      ∀ key : UserKey, HashStored (emptyServer.run HashCommand.run
        ((List.range' 0 3).map fun i => .client (growStep i))).2.world key
          ((Keyspace.answers HashCommand.key HashCommand.respond (fun _ => none)
            (clients ((List.range' 0 3).map fun i => .client (growStep i)))).2 key.1) := by
  obtain ⟨replies, stored⟩ := hash_run_refines (Server.holds_initial _ _ _ _)
    (grow_steady emptyServer (fun _ => none) 0 3 (by decide) rfl fun _ => rfl).1
  exact ⟨replies, fun key => (stored key).1⟩

/-- The change of length that wraps to zero deletes the collection. -/
theorem incrSize_wrap (type : UInt8) (name sizeKey : Bytes) (batch : WriteBatch) {mv : MetaVal}
    (full : mv.length = UInt64.ofNat (2 ^ 64 - 1)) (world : World) :
    ((commitSize (incrSize type name batch sizeKey mv 1)).eval atomically world).1 = 0 := by
  have nonzero : UInt64.ofNat (2 ^ 64 - 1) ≠ 0 := by decide
  have wraps : UInt64.ofNat (2 ^ 64 - 1) + uint64 1 = 0 := by decide
  have positive : ¬((1 : Int) < 0) := by decide
  simp only [commitSize, incrSize, full, if_neg nonzero, one_ne_zero, if_false, positive,
    false_and, gt_iff_lt, zero_lt_one, if_true, wraps, Program.eval_bind, Program.pure_eq_done,
    Program.eval_done, lt_irrefl, eval_commitBatch]

/-- A new field in a full hash is reported as not new. -/
theorem HashView.hset_wrap {world : World} {key : UserKey} {state : Option (UInt16 × Value)}
    {fields : SortedMap Bytes Bytes} {version : UInt16}
    (view : HashView world.db.contents key state fields version) (full : fields.size = 2 ^ 64 - 1)
    {field : Bytes} (new : fields.get field = none) (val : Bytes) :
    ((procHset key.1 field val).eval atomically world).1 = .int 0 := by
  obtain ⟨hv, readMeta, versionEq, lengthEq⟩ := view.eval_getHashMetaVal
  have write := eval_hsetOne_checked world key [] field val versionEq
  rw [List.map_nil, List.nil_append, view.items, new] at write
  rw [full] at lengthEq
  have committed := fun batch => incrSize_wrap DataType.hsize key.1
    (encodeMetaKey key.1) batch lengthEq world
  simp only [procHset, Vcdb.hset, hsetCommon, eval_recordKeyLock, Program.eval_bind, readMeta,
    if_neg (existing_nonneg fields), Bool.false_eq_true, false_and, if_false,
    Program.pure_eq_done, Program.eval_done, ne_eq, not_true_eq_false, Bool.not_false, write,
    Option.isSome_none, commitHash, incrHsize, committed, lt_irrefl, if_true]

/-- Setting 2^64 distinct fields of one hash is not answered as on a finite map. -/
theorem hash_run_overflows :
    (emptyServer.run HashCommand.run
        ((List.range' 0 (2 ^ 64)).map fun i => .client (growStep i))).1 ≠
      (Keyspace.answers HashCommand.key HashCommand.respond
        (fun _ => none) ((List.range' 0 (2 ^ 64)).map growStep)).1 := by
  obtain ⟨n, isLast⟩ : ∃ n : Nat, 2 ^ 64 = n + 1 := ⟨2 ^ 64 - 1, by decide⟩
  have small : n < 2 ^ 64 := by omega
  have holds : emptyServer.Holds fun _ => none := Server.holds_initial _ _ _ _
  obtain ⟨steady, value⟩ := grow_steady emptyServer (fun _ => none) 0 n (by omega) rfl fun _ => rfl
  rw [Nat.zero_add] at value
  obtain ⟨last, runs, final⟩ := hashFamily.run_refines holds steady
  have same := runs.eq_answers fun _ _ _ meaning => meaning
  have clientsEq : clients ((List.range' 0 n).map fun i => Event.client (growStep i)) =
      (List.range' 0 n).map growStep := by
    rw [← clients_map_client ((List.range' 0 n).map growStep), List.map_map]
    rfl
  rw [clientsEq] at same
  have replies : (emptyServer.run HashCommand.run _).1 =
      (Keyspace.answers HashCommand.key HashCommand.respond _ _).1 := congrArg Prod.fst same
  have lastEq : last = (Keyspace.answers HashCommand.key HashCommand.respond _ _).2 :=
    congrArg Prod.snd same
  obtain ⟨state, valid, held⟩ := final.represents grownKey
  have full : last grownKey.1 = some (.hash (grownFields n)) := by
    rw [lastEq, value, Value.ofFields, size_grownFields small.le, if_neg (by omega)]
  rw [full] at held
  obtain ⟨⟨version, _⟩, rfl, rfl⟩ := Option.map_eq_some_iff.mp held
  have new := get_grownFields (n := n) le_rfl small
  have wrapped := (HashView.ofLive valid).hset_wrap
    (by rw [size_grownFields small.le]; omega) new []
  have expected : ((HashCommand.respond (last grownKey.1)) (growStep n)).1 = .int 1 := by
    rw [full]
    simp only [HashCommand.respond, growStep, HashCommand.argumentError, HashCommand.denote, new]
    rfl
  rw [isLast, List.range'_concat, List.map_append, List.map_append, Server.run_append,
    Keyspace.answers_append, Nat.zero_add, Nat.one_mul]
  intro equal
  have lastReplies := List.append_inj_right equal (congrArg List.length replies)
  rw [← lastEq] at lastReplies
  have reply : Reply.int 0 = .int 1 := by
    rw [← expected, ← wrapped]
    exact (List.cons.inj lastReplies).1
  exact absurd reply (by decide)

end Overflow

end Vcdb
