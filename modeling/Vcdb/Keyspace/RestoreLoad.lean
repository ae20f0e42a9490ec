import Vcdb.Codec.RdbGrammar
import Vcdb.Proc.Restore

/-!
# What a dump stands for

The value a dump carries, as the grammar of its object, and what the loader makes of it.
-/

namespace Vcdb

def countGrammar : Grammar UInt8 UInt64 := (lenGrammar False).bind fun len => .pure len.2

/-- A count, and so many elements. -/
def containerGrammar {α : Type} (element : α → Grammar UInt8 α) (start : α) :
    Grammar UInt8 (List α) :=
  countGrammar.bind fun len => .elements element len.toNat start

def fieldGrammar (runtime : Runtime) : Grammar UInt8 (Bytes × Bytes) :=
  (stringGrammar runtime).bind fun key =>
    (stringGrammar runtime).bind fun val => .pure (key, val)

def scoredGrammar (runtime : Runtime) (binary : Bool) (current : Bytes × Double) :
    Grammar UInt8 (Bytes × Double) :=
  (stringGrammar runtime).bind fun key =>
    (if binary then binaryDoubleGrammar else doubleGrammar runtime current.2).bind fun score =>
      .pure (key, score)

/-- The nodes of a quicklist behind its first one. -/
def nodesGrammar (runtime : Runtime) (len : UInt64) (first : Bytes) : Grammar UInt8 (List Bytes) :=
  (Grammar.elements (fun _ => stringGrammar runtime) (len - 1).toNat []).bind fun nodes =>
    .pure ((first :: nodes).flatMap (ziplistStrings runtime))

/-- What a dump stands for; a list may come as a single ziplist. -/
inductive RdbValue
  | string (val : Bytes)
  | list (single : Bool) (cells : List Bytes)
  | set (members : List Bytes)
  | zset (scores : List (Bytes × Double))
  | hash (fields : List (Bytes × Bytes))

/-- Words that carry the result of a computation on a ziplist. -/
def resultGrammar {α : Type} : Except Failure α → Grammar UInt8 α
  | .ok value => .pure value
  | .error _ => .empty

/-- No words; every input is fatal when the message about an unknown type is written. -/
def unknownGrammar {α : Type} (runtime : Runtime) : Grammar UInt8 α where
  word _ _ := False
  fatal _ := runtime.logsErrors

/-- Objects of a type. -/
def objectGrammar (runtime : Runtime) : Option RdbType → Grammar UInt8 RdbValue
  | some .string => (stringGrammar runtime).bind fun val => .pure (.string val)
  | some .list =>
      (containerGrammar (fun _ => stringGrammar runtime) []).bind fun cells =>
        .pure (.list false cells)
  | some .listZiplist =>
      (stringGrammar runtime).bind fun zl => .pure (.list true (ziplistStrings runtime zl))
  | some .listQuicklist =>
      countGrammar.bind fun len => (stringGrammar runtime).bind fun zl =>
        (nodesGrammar runtime len zl).bind fun cells => .pure (.list false cells)
  | some .set =>
      (containerGrammar (fun _ => stringGrammar runtime) []).bind fun members =>
        .pure (.set members)
  | some .setIntset =>
      (stringGrammar runtime).bind fun set => .pure (.set ((runtime.intsetValues set).map str))
  | some .zset2 =>
      (containerGrammar (scoredGrammar runtime true) ([], 0)).bind fun scores =>
        .pure (.zset scores)
  | some .zset =>
      (containerGrammar (scoredGrammar runtime false) ([], 0)).bind fun scores =>
        .pure (.zset scores)
  | some .zsetZiplist =>
      (stringGrammar runtime).bind fun zl =>
        (resultGrammar (ziplistScores runtime (ziplistStrings runtime zl))).bind fun scores =>
          .pure (.zset scores)
  | some .hash =>
      (containerGrammar (fun _ => fieldGrammar runtime) ([], [])).bind fun fields =>
        .pure (.hash fields)
  | some .hashZiplist =>
      (stringGrammar runtime).bind fun zl =>
        (resultGrammar (ziplistPairs (ziplistStrings runtime zl))).bind fun fields =>
          .pure (.hash fields)
  | some .hashZipmap => .empty
  | some .module | none => unknownGrammar runtime

/-- Dumps without their footer: a type byte and an object. -/
def dumpGrammar (runtime : Runtime) : Grammar UInt8 RdbValue where
  word w value := w ≠ [] ∧
    (objectGrammar runtime (w.head?.bind RdbType.ofByte)).word w.tail value
  fatal input := (objectGrammar runtime (input.head?.bind RdbType.ofByte)).fatal input.tail

/-- A dump without its footer that starts with the object of a value. -/
def Carries (runtime : Runtime) (body : Bytes) (value : RdbValue) : Prop :=
  ∃ w rest, body = w ++ rest ∧ (dumpGrammar runtime).word w value

section Loading

variable {α : Type}

theorem count_implements :
    Grammar.Implements Failure.IsFatal rdbLoadCount countGrammar := by
  have checked : rdbLoadCount = (do
      let len ← rdbLoadLenOr (.code (-1))
      pure len.2) := by
    rw [rdbLoadCount, rdbLoadLenOr, bind_assoc]
    refine congrArg _ (funext fun len => ?_)
    dsimp only
    split_ifs <;> rfl
  rw [checked]
  exact Grammar.implements_bind (lenOr_implements (.code (-1))) fun _ len _ =>
    Grammar.implements_pure len.2

theorem field_implements (runtime : Runtime) :
    Grammar.Implements Failure.IsFatal (loadField runtime) (fieldGrammar runtime) :=
  Grammar.implements_bind (string_implements runtime) fun _ key _ =>
    Grammar.implements_bind (string_implements runtime) fun _ val _ =>
      Grammar.implements_pure (key, val)

theorem scored_implements (runtime : Runtime) (binary : Bool) (current : Bytes × Double) :
    Grammar.Implements Failure.IsFatal (loadScored runtime binary current)
      (scoredGrammar runtime binary current) := by
  refine Grammar.implements_bind (string_implements runtime) fun _ key _ => ?_
  refine Grammar.implements_bind ?_ fun _ score _ => Grammar.implements_pure (key, score)
  rw [loadScore]
  cases binary with
  | true => exact binaryDouble_implements
  | false => exact double_implements runtime current.2

theorem nodes_implements (runtime : Runtime) (len : UInt64) (first : Bytes) :
    Grammar.Implements Failure.IsFatal (loadNodes runtime len first)
      (nodesGrammar runtime len first) :=
  Grammar.implements_bind
    (Grammar.implements_elements (fun _ => string_implements runtime) _ _) fun _ _ _ =>
      Grammar.implements_pure _

theorem container_implements {element : α → RdbDecoder α} {words : α → Grammar UInt8 α}
    (each : ∀ current, Grammar.Implements Failure.IsFatal (element current) (words current))
    (start : α) :
    Grammar.Implements Failure.IsFatal (do
        let len ← rdbLoadCount
        Loader.elements element len.toNat start) (containerGrammar words start) :=
  Grammar.implements_bind count_implements fun _ len _ =>
    Grammar.implements_elements each len.toNat start

theorem ziplistPairs_harmless {entries : List Bytes} {failure : Failure}
    (failed : ziplistPairs entries = .error failure) : ¬failure.IsFatal := by
  fun_induction ziplistPairs entries with
  | case1 => cases failed
  | case2 => cases failed; exact id
  | case3 key val rest ih =>
      cases result : ziplistPairs rest with
      | error failure' =>
          rw [result] at failed
          cases failed
          exact ih result
      | ok pairs => rw [result] at failed; cases failed

theorem ziplistScores_harmless {runtime : Runtime} {entries : List Bytes} {failure : Failure}
    (failed : ziplistScores runtime entries = .error failure) : ¬failure.IsFatal := by
  fun_induction ziplistScores runtime entries with
  | case1 => cases failed
  | case2 => cases failed; exact id
  | case3 => cases failed; exact id
  | case4 key val rest score _ ih =>
      cases result : ziplistScores runtime rest with
      | error failure' =>
          rw [result] at failed
          cases failed
          exact ih result
      | ok pairs => rw [result] at failed; cases failed

theorem result_implements {result : Except Failure α}
    (harmless : ∀ failure, result = .error failure → ¬failure.IsFatal) :
    Grammar.Implements Failure.IsFatal (liftM result : RdbDecoder α) (resultGrammar result) := by
  cases result with
  | ok value => exact Grammar.implements_pure value
  | error failure => exact Grammar.implements_throw (harmless failure rfl)

theorem unknown_implements (runtime : Runtime) :
    Grammar.Implements Failure.IsFatal (unknownType runtime : RdbDecoder α)
      (unknownGrammar runtime) := by
  rw [unknownType]
  cases logs : runtime.logsErrors with
  | true =>
      constructor
      · intro input value rest
        change Except.error _ = _ ↔ _
        simp [unknownGrammar]
      · intro input
        change (∃ failure, Except.error (Failure.crash .wildRead) = .error failure ∧ _) ↔ _
        simp [unknownGrammar, logs, Failure.IsFatal]
  | false =>
      constructor
      · intro input value rest
        change Except.error _ = _ ↔ _
        simp [unknownGrammar]
      · intro input
        change (∃ failure, Except.error (Failure.code (-1)) = .error failure ∧ _) ↔ _
        simp [unknownGrammar, logs, Failure.IsFatal]

/-- Load an object in one go. -/
def loadValue (runtime : Runtime) : Option RdbType → RdbDecoder RdbValue
  | some .string => do return .string (← rdbGenericLoadStringObject runtime)
  | some .list => do return .list false (← rdbLoadCount >>= loadStrings runtime)
  | some .listZiplist => do
      return .list true (ziplistStrings runtime (← rdbGenericLoadStringObject runtime))
  | some .listQuicklist => do
      let len ← rdbLoadCount
      let zl ← rdbGenericLoadStringObject runtime
      return .list false (← loadNodes runtime len zl)
  | some .set => do return .set (← rdbLoadCount >>= loadStrings runtime)
  | some .setIntset => do
      return .set ((runtime.intsetValues (← rdbGenericLoadStringObject runtime)).map str)
  | some .zset2 => do return .zset (← rdbLoadCount >>= loadScores runtime true)
  | some .zset => do return .zset (← rdbLoadCount >>= loadScores runtime false)
  | some .zsetZiplist => do
      let zl ← rdbGenericLoadStringObject runtime
      return .zset (← liftM (ziplistScores runtime (ziplistStrings runtime zl)))
  | some .hash => do return .hash (← rdbLoadCount >>= loadFields runtime)
  | some .hashZiplist => do
      let zl ← rdbGenericLoadStringObject runtime
      return .hash (← liftM (ziplistPairs (ziplistStrings runtime zl)))
  | some .hashZipmap => throw (.code (-1))
  | some .module | none => unknownType runtime

theorem loadValue_implements (runtime : Runtime) (type : Option RdbType) :
    Grammar.Implements Failure.IsFatal (loadValue runtime type) (objectGrammar runtime type) := by
  have string := string_implements runtime
  have made : ∀ {β : Type} {loader : RdbDecoder β} {grammar : Grammar UInt8 β}
      (value : β → RdbValue), Grammar.Implements Failure.IsFatal loader grammar →
      Grammar.Implements Failure.IsFatal (loader >>= fun found => pure (value found))
        (grammar.bind fun found => .pure (value found)) :=
    fun _ implements => Grammar.implements_bind implements fun _ _ _ => Grammar.implements_pure _
  match type with
  | some .string => exact made _ string
  | some .list => exact made _ (container_implements (fun _ => string) [])
  | some .listZiplist => exact made _ string
  | some .listQuicklist =>
      refine Grammar.implements_bind count_implements fun _ len _ => ?_
      refine Grammar.implements_bind string fun _ zl _ => ?_
      exact made _ (nodes_implements runtime len zl)
  | some .set => exact made _ (container_implements (fun _ => string) [])
  | some .setIntset => exact made _ string
  | some .zset2 => exact made _ (container_implements (scored_implements runtime true) _)
  | some .zset => exact made _ (container_implements (scored_implements runtime false) _)
  | some .zsetZiplist =>
      exact Grammar.implements_bind string fun _ zl _ =>
        made _ (result_implements fun _ => ziplistScores_harmless)
  | some .hash => exact made _ (container_implements (fun _ => field_implements runtime) _)
  | some .hashZiplist =>
      exact Grammar.implements_bind string fun _ zl _ =>
        made _ (result_implements fun _ => ziplistPairs_harmless)
  | some .hashZipmap => exact Grammar.implements_throw id
  | some .module => exact unknown_implements runtime
  | none => exact unknown_implements runtime

/-- The elements the reader of an object delivers; a single ziplist delivers no list cell. -/
def RdbValue.object : RdbValue → RdbObject
  | string val => .string val
  | list single cells => .list (.ok (if single then [] else cells))
  | set members => .set (.ok members)
  | zset scores => .zset (.ok scores)
  | hash fields => .hash (.ok fields)

/-- Two loads agree when one delivers what the other reads in one go, and both fail alike. -/
def Agrees (lazy : Except Failure (RdbObject × Bytes)) :
    Except Failure (RdbValue × Bytes) → Prop
  | .error failure =>
      lazy = .error failure ∨ ∃ object rest, lazy = .ok (object, rest) ∧
        object.failure = some failure
  | .ok (value, _) => ∃ rest, lazy = .ok (value.object, rest)

theorem agrees_pure (value : RdbValue) (input : Bytes) :
    Agrees ((pure value.object : RdbDecoder RdbObject) input)
      ((pure value : RdbDecoder RdbValue) input) := ⟨input, rfl⟩

theorem agrees_bind {loader : RdbDecoder α} {next : α → RdbDecoder RdbObject}
    {next' : α → RdbDecoder RdbValue}
    (each : ∀ found rest, Agrees (next found rest) (next' found rest)) (input : Bytes) :
    Agrees ((loader >>= next) input) ((loader >>= next') input) := by
  change Agrees (Except.bind (loader input) _) (Except.bind (loader input) _)
  cases loader input with
  | error failure => exact Or.inl rfl
  | ok found => exact each found.1 found.2

theorem agrees_lazily {loader : RdbDecoder α} {object : Except Failure α → RdbObject}
    {value : α → RdbValue} (delivers : ∀ found, object (.ok found) = (value found).object)
    (failing : ∀ failure, (object (.error failure)).failure = some failure) (input : Bytes) :
    Agrees ((lazily loader >>= fun next => pure (object next)) input)
      ((loader >>= fun found => pure (value found)) input) := by
  change Agrees (.ok (object ((loader input).map Prod.fst), input))
    (Except.bind (loader input) fun found => .ok (value found.1, found.2))
  cases loader input with
  | error failure => exact Or.inr ⟨_, _, rfl, failing failure⟩
  | ok found => exact ⟨input, by rw [← delivers]; rfl⟩

theorem agrees_result {result : Except Failure α} {object : Except Failure α → RdbObject}
    {value : α → RdbValue} (delivers : ∀ found, object (.ok found) = (value found).object)
    (failing : ∀ failure, (object (.error failure)).failure = some failure) (input : Bytes) :
    Agrees ((pure (object result) : RdbDecoder RdbObject) input)
      (((liftM result : RdbDecoder α) >>= fun found => pure (value found)) input) := by
  cases result with
  | error failure => exact Or.inr ⟨_, _, rfl, failing failure⟩
  | ok found => exact ⟨input, by rw [← delivers]; rfl⟩

theorem rdbLoadObject_agrees (runtime : Runtime) (type : Option RdbType) (input : Bytes) :
    Agrees (rdbLoadObject runtime type input) (loadValue runtime type input) := by
  have container : ∀ {β : Type} (body : UInt64 → RdbDecoder β)
      (object : Except Failure β → RdbObject) (value : β → RdbValue),
      (∀ found, object (.ok found) = (value found).object) →
      (∀ failure, (object (.error failure)).failure = some failure) →
      Agrees ((do
          let len ← rdbLoadCount
          return object (← lazily (body len))) input)
        ((do return value (← rdbLoadCount >>= body)) input) := by
    intro β body object value delivers failing
    rw [bind_assoc]
    exact agrees_bind (fun len => agrees_lazily delivers failing) input
  have unknown : Agrees (unknownType runtime input) (unknownType runtime input) := by
    rw [unknownType, unknownType]
    cases runtime.logsErrors <;> exact Or.inl rfl
  match type with
  | some .string => exact agrees_bind (fun found => agrees_pure (.string found)) input
  | some .list => exact container _ _ (.list false) (fun _ => rfl) fun _ => rfl
  | some .listZiplist => exact agrees_bind (fun zl => agrees_pure (.list true _)) input
  | some .listQuicklist =>
      exact agrees_bind (fun len => agrees_bind fun zl =>
        agrees_lazily (fun _ => rfl) fun _ => rfl) input
  | some .set => exact container _ _ .set (fun _ => rfl) fun _ => rfl
  | some .setIntset => exact agrees_bind (fun set => agrees_pure (.set _)) input
  | some .zset2 => exact container _ _ .zset (fun _ => rfl) fun _ => rfl
  | some .zset => exact container _ _ .zset (fun _ => rfl) fun _ => rfl
  | some .zsetZiplist =>
      exact agrees_bind (fun zl => agrees_result (fun _ => rfl) fun _ => rfl) input
  | some .hash => exact container _ _ .hash (fun _ => rfl) fun _ => rfl
  | some .hashZiplist =>
      exact agrees_bind (fun zl => agrees_result (fun _ => rfl) fun _ => rfl) input
  | some .hashZipmap => exact Or.inl rfl
  | some .module => exact unknown
  | none => exact unknown

/-- A dump is loaded by the type its first byte names. -/
theorem loadDump_eq (runtime : Runtime) (input : Bytes) :
    loadDump runtime input =
      rdbLoadObject runtime (input.head?.bind RdbType.ofByte) input.tail := by
  cases input <;> rfl

theorem loadDump_of_carries {runtime : Runtime} {body : Bytes} {value : RdbValue}
    (carries : Carries runtime body value) :
    ∃ rest, loadDump runtime body = .ok (value.object, rest) := by
  obtain ⟨_ | ⟨type, w⟩, rest, rfl, nonempty, word⟩ := carries
  · exact absurd rfl nonempty
  · have loaded := ((loadValue_implements runtime (RdbType.ofByte type)).accepts (w ++ rest)
      value rest).mpr ⟨w, rfl, word⟩
    have agrees := rdbLoadObject_agrees runtime (RdbType.ofByte type) (w ++ rest)
    rw [loaded] at agrees
    exact agrees

theorem carries_of_loadValue {runtime : Runtime} {type : UInt8} {tail rest : Bytes}
    {value : RdbValue} (loaded : loadValue runtime (RdbType.ofByte type) tail = .ok (value, rest)) :
    Carries runtime (type :: tail) value := by
  obtain ⟨w, rfl, word⟩ :=
    ((loadValue_implements runtime (RdbType.ofByte type)).accepts _ _ _).mp loaded
  exact ⟨type :: w, rest, rfl, List.cons_ne_nil _ _, word⟩

/-- A dump that loads without a failure carries a value. -/
theorem carries_of_loadDump {runtime : Runtime} {body rest : Bytes} {object : RdbObject}
    (loaded : loadDump runtime body = .ok (object, rest)) (complete : object.failure = none) :
    ∃ value : RdbValue, Carries runtime body value ∧ object = value.object := by
  rw [loadDump_eq] at loaded
  cases body with
  | nil =>
      change unknownType runtime [] = _ at loaded
      unfold unknownType at loaded
      split_ifs at loaded <;> cases loaded
  | cons type tail =>
      have agrees := rdbLoadObject_agrees runtime (RdbType.ofByte type) tail
      change rdbLoadObject runtime (RdbType.ofByte type) tail = _ at loaded
      rw [loaded] at agrees
      cases whole : loadValue runtime (RdbType.ofByte type) tail with
      | error failure =>
          rw [whole] at agrees
          rcases agrees with failed | ⟨object', rest', same, failed⟩
          · cases failed
          · cases same
            rw [complete] at failed
            cases failed
      | ok found =>
          rw [whole] at agrees
          obtain ⟨rest', same⟩ := agrees
          cases same
          exact ⟨found.1, carries_of_loadValue whole, rfl⟩

theorem ziplistPairs_isError {entries : List Bytes} {failure : Failure}
    (failed : ziplistPairs entries = .error failure) : failure.IsError := by
  fun_induction ziplistPairs entries with
  | case1 => cases failed
  | case2 => cases failed; exact minusOne_isError
  | case3 key val rest ih =>
      cases result : ziplistPairs rest with
      | error failure' =>
          rw [result] at failed
          cases failed
          exact ih result
      | ok pairs => rw [result] at failed; cases failed

theorem ziplistScores_isError {runtime : Runtime} {entries : List Bytes} {failure : Failure}
    (failed : ziplistScores runtime entries = .error failure) : failure.IsError := by
  fun_induction ziplistScores runtime entries with
  | case1 => cases failed
  | case2 => cases failed; exact minusOne_isError
  | case3 => cases failed; change invalidDbl < 0; decide
  | case4 key val rest score _ ih =>
      cases result : ziplistScores runtime rest with
      | error failure' =>
          rw [result] at failed
          cases failed
          exact ih result
      | ok pairs => rw [result] at failed; cases failed

theorem result_failsAs {result : Except Failure α}
    (isError : ∀ failure, result = .error failure → failure.IsError) :
    Loader.FailsAs Failure.IsError (liftM result : RdbDecoder α) := by
  cases result with
  | ok value => exact Loader.failsAs_pure value
  | error failure => exact Loader.failsAs_throw (isError failure rfl)

theorem loadValue_failsAs (runtime : Runtime) (type : Option RdbType) :
    Loader.FailsAs Failure.IsError (loadValue runtime type) := by
  have string := rdbGenericLoadStringObject_failsAs runtime
  have count : Loader.FailsAs Failure.IsError rdbLoadCount :=
    Loader.failsAs_bind rdbLoadLen_failsAs fun _ =>
      Loader.failsAs_ite (Loader.failsAs_throw minusOne_isError) (Loader.failsAs_pure _)
  have made : ∀ {β : Type} {loader : RdbDecoder β} (value : β → RdbValue),
      Loader.FailsAs Failure.IsError loader →
      Loader.FailsAs Failure.IsError (loader >>= fun found => pure (value found)) :=
    fun _ fails => Loader.failsAs_bind fails fun _ => Loader.failsAs_pure _
  have field : Loader.FailsAs Failure.IsError (loadField runtime) :=
    Loader.failsAs_bind string fun _ => Loader.failsAs_bind string fun _ => Loader.failsAs_pure _
  have scored : ∀ (binary : Bool) (current : Bytes × Double),
      Loader.FailsAs Failure.IsError (loadScored runtime binary current) := by
    intro binary current
    refine Loader.failsAs_bind string fun _ =>
      Loader.failsAs_bind (Loader.failsAs_ite ?_ ?_) fun _ => Loader.failsAs_pure _
    · exact rdbLoadBinaryDoubleValue_failsAs
    · exact rdbLoadDoubleValue_failsAs runtime current.2
  have unknown : Loader.FailsAs Failure.IsError (unknownType runtime : RdbDecoder RdbValue) :=
    Loader.failsAs_ite (Loader.failsAs_throw trivial) (Loader.failsAs_throw minusOne_isError)
  have strings : ∀ n, Loader.FailsAs Failure.IsError (Loader.elements
      (fun _ => rdbGenericLoadStringObject runtime) n []) :=
    fun n => Loader.failsAs_elements (fun _ => string) n []
  match type with
  | some .string => exact made _ string
  | some .list => exact made _ (Loader.failsAs_bind count fun _ => strings _)
  | some .listZiplist => exact made _ string
  | some .listQuicklist =>
      exact Loader.failsAs_bind count fun _ => Loader.failsAs_bind string fun _ =>
        made _ (Loader.failsAs_bind (strings _) fun _ => Loader.failsAs_pure _)
  | some .set => exact made _ (Loader.failsAs_bind count fun _ => strings _)
  | some .setIntset => exact made _ string
  | some .zset2 =>
      exact made _ (Loader.failsAs_bind count fun _ => Loader.failsAs_elements (scored true) _ _)
  | some .zset =>
      exact made _ (Loader.failsAs_bind count fun _ => Loader.failsAs_elements (scored false) _ _)
  | some .zsetZiplist =>
      exact Loader.failsAs_bind string fun _ =>
        made _ (result_failsAs fun _ => ziplistScores_isError)
  | some .hash =>
      exact made _ (Loader.failsAs_bind count fun _ =>
        Loader.failsAs_elements (fun _ => field) _ _)
  | some .hashZiplist =>
      exact Loader.failsAs_bind string fun _ =>
        made _ (result_failsAs fun _ => ziplistPairs_isError)
  | some .hashZipmap => exact Loader.failsAs_throw minusOne_isError
  | some .module => exact unknown
  | none => exact unknown

/-- A dump that does not load, or whose elements do not, gives an error. -/
theorem loadDump_isError {runtime : Runtime} {input : Bytes} :
    (∀ failure, loadDump runtime input = .error failure → failure.IsError) ∧
      ∀ object rest failure, loadDump runtime input = .ok (object, rest) →
        object.failure = some failure → failure.IsError := by
  have agrees := rdbLoadObject_agrees runtime (input.head?.bind RdbType.ofByte) input.tail
  have fails := loadValue_failsAs runtime (input.head?.bind RdbType.ofByte) input.tail
  rw [loadDump_eq]
  cases loaded : loadValue runtime (input.head?.bind RdbType.ofByte) input.tail with
  | error failure =>
      have isError := fails failure loaded
      rw [loaded] at agrees
      rcases agrees with failed | ⟨object, rest, delivered, failed⟩
      · simp [failed, isError]
      · refine ⟨by simp [delivered], fun object' rest' failure' same failed' => ?_⟩
        rw [delivered] at same
        cases same
        rw [failed] at failed'
        cases failed'
        exact isError
  | ok found =>
      rw [loaded] at agrees
      obtain ⟨rest, delivered⟩ := agrees
      have complete : found.1.object.failure = none := by
        cases found.1 <;> rfl
      refine ⟨by simp [delivered], fun object' rest' failure' same failed' => ?_⟩
      rw [delivered] at same
      cases same
      rw [complete] at failed'
      cases failed'

end Loading

end Vcdb
