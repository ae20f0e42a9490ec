import Vcdb.Keyspace.ListCommand
import Vcdb.Keyspace.Run

/-!
# Runs of list commands

Every run of list commands answers as on sequences while no cell is set at the largest or the
smallest index in a list of exactly 2^63 - 1 cells.  The bounds of such an index are off by one, and
the write goes outside the window.
-/

namespace Vcdb

/-- The list commands, on lists that stay below 2^63 cells. -/
noncomputable def listFamily : CommandFamily ListCommand where
  run := ListCommand.run
  key := ListCommand.key
  meaning command value outcome := outcome = command.respond value
  admissible command value :=
    (∀ cells, value = some (.list cells) → cells.length < 2 ^ 63 ∧ command.Admissible cells) ∧
      ∀ cells, (command.respond value).2 = some (.list cells) → cells.length < 2 ^ 63
  refines command world user state valid own fresh admissible := by
    refine ⟨_, rfl, ListCommand.refines valid own (fun idle created => ?_) admissible.1
      admissible.2⟩
    exact fresh idle ⟨_, rfl, created⟩

/-- The window of a live list, which is not empty, spans its length, and the cells stored under its
version are those of the list in the order of their numbers. -/
def ListStored (contents : Contents) (key : UserKey) (value : Option Value) : Prop :=
  ∀ cells, value = some (.list cells) →
    ∃ (version : UInt16) (length left right : UInt64),
      contents (.metadata key) = some (encodeListMetaVal length left right version) ∧
      1 ≤ length ∧ length.toNat = cells.length ∧ right - left + 1 = length ∧
      (∀ seq, contents (.item key version (be64 seq)) = cells[(seq - left).toNat]?) ∧
      ∀ field, (∀ seq, field ≠ be64 seq) → contents (.item key version field) = none

theorem KeyValid.listStored {contents : Contents} {key : UserKey}
    {state : Option (UInt16 × Value)} (valid : KeyValid contents key state) :
    ListStored contents key (state.map Prod.snd) := by
  intro cells holds
  obtain ⟨⟨version, value⟩, rfl, rfl⟩ := Option.map_eq_some_iff.mp holds
  obtain ⟨positive, small, ⟨left, metadata, items, noOther⟩, _⟩ := valid.represented
  have length : (UInt64.ofNat cells.length).toNat = cells.length := UInt64.toNat_ofNat_of_lt' small
  refine ⟨version, _, left, _, metadata, ?_, length, by grind, items, noOther⟩
  rw [UInt64.le_iff_toNat_le, length]
  exact positive

/-- A steady run of list commands answers as on sequences, and every state it reaches stores these
sequences. -/
theorem list_run_refines {server : Server} {keyspace : Keyspace}
    {events : List (Event ListCommand)} (holds : server.Holds keyspace)
    (steady : listFamily.Steady server keyspace events) :
    (server.run ListCommand.run events).1 =
        (keyspace.answers ListCommand.key (fun value command => command.respond value)
          (clients events)).1 ∧
      ∀ key : UserKey, ListStored (server.run ListCommand.run events).2.world.db.contents key
        ((keyspace.answers ListCommand.key (fun value command => command.respond value)
          (clients events)).2 key.1) := by
  obtain ⟨last, runs, final⟩ := listFamily.run_refines holds steady
  have same := runs.eq_answers fun _ _ _ meaning => meaning
  have lastEq : last = _ := congrArg Prod.snd same
  refine ⟨congrArg Prod.fst same, fun key => ?_⟩
  obtain ⟨state, valid, value⟩ := final.represents key
  rw [lastEq] at value
  exact value ▸ valid.listStored

section FullList

/-- The key of the growing list. -/
def longKey : UserKey := ⟨[], length_nil_lt⟩

def longStep : ListCommand := .rpush longKey.1 [[]]

/-- Growing an empty or partly grown list is steady below 2^63 cells. -/
theorem long_steady (server : Server) (keyspace : Keyspace) (n m : Nat) (small : n + m < 2 ^ 63)
    (value : keyspace longKey.1 = Value.ofCells (List.replicate n []))
    (fresh : n = 0 → server.world.db.contents.Fresh longKey) :
    listFamily.Steady server keyspace (List.replicate m (.client longStep)) ∧
      (keyspace.answers ListCommand.key (fun value command => command.respond value)
        (List.replicate m longStep)).2 longKey.1 =
          Value.ofCells (List.replicate (n + m) []) := by
  induction m generalizing server keyspace n with
  | zero => exact ⟨trivial, value⟩
  | succ m ih =>
      have held : ∀ cells, keyspace longKey.1 = some (.list cells) → cells.length = n := by
        intro cells found
        rw [value, Value.ofCells] at found
        split_ifs at found
        obtain rfl : List.replicate n [] = cells := by simpa using found
        exact List.length_replicate
      have responds : longStep.respond (keyspace longKey.1) =
          (.int (n + 1), Value.ofCells (List.replicate (n + 1) [])) := by
        rw [value, List.replicate_succ']
        by_cases zero : n = 0
        · subst zero
          rfl
        · simp [Value.ofCells, zero, ListCommand.respond, longStep, ListCommand.argumentError,
            ListCommand.denote]
      have next := fun server' => ih server' (Function.update keyspace longKey.1
        (Value.ofCells (List.replicate (n + 1) []))) (n + 1)
        (by omega) (Function.update_self ..) (by omega)
      rw [show n + 1 + m = n + (m + 1) by omega] at next
      rw [List.replicate_succ, List.replicate_succ]
      refine ⟨⟨⟨longKey, rfl, fun idle _ => fresh ?_⟩, ⟨?_, ?_⟩, ?_⟩, ?_⟩
      · rw [value, Value.ofCells] at idle
        simpa using idle
      · intro cells found
        exact ⟨by rw [held cells found]; omega, trivial⟩
      · intro cells found
        have responded : (longStep.respond (keyspace longKey.1)).2 = some (.list cells) := found
        rw [responds, Value.ofCells, if_neg (by simp)] at responded
        obtain rfl : List.replicate (n + 1) [] = cells := by simpa using responded
        rw [List.length_replicate]
        omega
      · intro value' meaning
        have outcome : (_, value') = longStep.respond (keyspace longKey.1) := meaning
        rw [responds] at outcome
        rw [(Prod.mk.inj outcome).2]
        exact (next _).1
      · simp only [Keyspace.answers]
        rw [show ListCommand.key longStep = longKey.1 from rfl, responds]
        exact (next server).2

/-- Pushing three cells is steady. -/
theorem list_run_refines_pushed :
    (emptyServer.run ListCommand.run (List.replicate 3 (.client longStep))).1 =
        (Keyspace.answers ListCommand.key (fun value command => command.respond value)
          (fun _ => none) (clients (List.replicate 3 (.client longStep)))).1 ∧
      ∀ key : UserKey, ListStored (emptyServer.run ListCommand.run
        (List.replicate 3 (.client longStep))).2.world.db.contents key
          ((Keyspace.answers ListCommand.key (fun value command => command.respond value)
            (fun _ => none) (clients (List.replicate 3 (.client longStep)))).2 key.1) :=
  list_run_refines (Server.holds_initial _ _ _ _)
    (long_steady emptyServer (fun _ => none) 0 3 (by decide) rfl fun _ => rfl).1

/-- A list of 2^63 - 1 cells takes the number after its last cell for an index. -/
theorem ListView.lset_beyond {world : World} {key : UserKey} {state : Option (UInt16 × Value)}
    {cells : List Bytes} {left : UInt64} {version : UInt16}
    (view : ListView world.db.contents key state cells left version)
    (full : cells.length = 2 ^ 63 - 1) (val : Bytes) :
    ((procLset key.1 int64Max val).eval atomically world).1 = .ok := by
  obtain ⟨lv, readMeta, describes⟩ := view.eval_getListMetaVal
  have absent : ¬cells = [] := by
    rintro rfl
    simp at full
  have long : ¬lv.length < uint64Max / 2 := by
    rw [describes.lengthEq, full]
    decide
  have inside : ¬(int64Max > int64Max ∨ int64Max < int64Min) := by decide
  have committed : ¬((1 : Int) < 0) := by decide
  simp only [procLset, lSet, eval_recordKeyLock, Program.eval_bind, readMeta, if_neg absent,
    ne_eq, not_true_eq_false, if_false, if_neg long, if_neg inside, eval_commitBatch, if_true,
    Program.pure_eq_done, Program.eval_done, if_neg committed, one_ne_zero]

/-- Setting the cell after the last one of 2^63 - 1 cells is not refused as on a sequence. -/
theorem list_run_setsBeyond :
    (emptyServer.run ListCommand.run
        (List.replicate (2 ^ 63 - 1) (.client longStep) ++
          [.client (.lset longKey.1 int64Max [])])).1 ≠
      (Keyspace.answers ListCommand.key (fun value command => command.respond value)
        (fun _ => none) (List.replicate (2 ^ 63 - 1) longStep ++
          [.lset longKey.1 int64Max []])).1 := by
  obtain ⟨n, isLength⟩ : ∃ n : Nat, n = 2 ^ 63 - 1 := ⟨_, rfl⟩
  rw [← isLength]
  have holds : emptyServer.Holds fun _ => none := Server.holds_initial _ _ _ _
  obtain ⟨steady, value⟩ := long_steady emptyServer (fun _ => none) 0 n (by omega) rfl fun _ => rfl
  rw [Nat.zero_add] at value
  obtain ⟨last, runs, final⟩ := listFamily.run_refines holds steady
  have same := runs.eq_answers fun _ _ _ meaning => meaning
  have clientsEq : clients (List.replicate n (Event.client longStep)) =
      List.replicate n longStep := by
    rw [← clients_map_client (List.replicate n longStep), List.map_replicate]
  rw [clientsEq] at same
  have replies : (emptyServer.run ListCommand.run _).1 =
      (Keyspace.answers ListCommand.key _ _ _).1 := congrArg Prod.fst same
  have lastEq : last = (Keyspace.answers ListCommand.key _ _ _).2 := congrArg Prod.snd same
  obtain ⟨state, valid, held⟩ := final.represents longKey
  have absent : ¬List.replicate n ([] : Bytes) = [] := by
    rw [← List.length_eq_zero_iff, List.length_replicate]
    omega
  have full : last longKey.1 = some (.list (List.replicate n [])) := by
    rw [lastEq, value, Value.ofCells, if_neg absent]
  rw [full] at held
  obtain ⟨⟨version, _⟩, rfl, rfl⟩ := Option.map_eq_some_iff.mp held
  obtain ⟨left, view⟩ := ListView.ofLive valid
  have accepted := view.lset_beyond (by rw [List.length_replicate, isLength]) []
  have outside : listPosition (List.replicate n ([] : Bytes)) int64Max.toInt = none := by
    have largest : int64Max.toInt = 2 ^ 63 - 1 := by decide
    rw [listPosition_eq_none, List.length_replicate, largest]
    omega
  have expected : ((ListCommand.lset longKey.1 int64Max []).respond (last longKey.1)).1 =
      .error indexOutOfRange := by
    rw [full]
    simp only [ListCommand.respond, ListCommand.argumentError, ListCommand.denote, if_neg absent,
      outside]
  rw [Server.run_append, Keyspace.answers_append]
  intro equal
  have lastReplies := List.append_inj_right equal (congrArg List.length replies)
  rw [← lastEq] at lastReplies
  have reply : Reply.ok = .error indexOutOfRange := by
    rw [← expected, ← accepted]
    exact (List.cons.inj lastReplies).1
  exact absurd reply (by decide)

end FullList

end Vcdb
