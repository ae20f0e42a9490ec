import Vcdb.Keyspace.Collection
import Vcdb.Proc.List

/-!
# List commands refine a sequence

The meaning of the list commands on a sequence of byte strings, and the proof that every command
computes it from the stored window of cells.
-/

namespace Vcdb

/-- A list exists exactly when it has a cell. -/
def Value.ofCells (cells : List Bytes) : Option Value :=
  if cells = [] then none else some (.list cells)

/-- The position an index names; negative indices count from the right. -/
def listPosition (cells : List Bytes) (index : Int) : Option Nat :=
  let position := if index < 0 then cells.length + index else index
  if 0 ≤ position ∧ position < cells.length then some position.toNat else none

/-- The cells from one index to another, both included. -/
def listSlice (cells : List Bytes) (start stop : Int) : List Bytes :=
  let start := if start < 0 then cells.length + start else start
  let stop := if stop < 0 then cells.length + stop else stop
  (cells.take (stop + 1).toNat).drop start.toNat

namespace ListCommand

/-- Reply to a request with too few arguments. -/
def argumentError : ListCommand → Option Reply
  | lpush _ [] | rpush _ [] | lpushx _ [] | rpushx _ [] => some .wrongNumberOfArguments
  | _ => none

/-- A value or nothing. -/
def replyOption : Option Bytes → Reply
  | some val => .bulk val
  | none => .nil

/-- Reply and new sequence of a command on a sequence. -/
def denote (cells : List Bytes) : ListCommand → Reply × List Bytes
  | lpush _ vals => (.int (cells.length + vals.length), vals.reverse ++ cells)
  | rpush _ vals => (.int (cells.length + vals.length), cells ++ vals)
  | lpushx _ vals =>
      if cells = [] then (.int 0, [])
      else (.int (cells.length + vals.length), vals.reverse ++ cells)
  | rpushx _ vals =>
      if cells = [] then (.int 0, []) else (.int (cells.length + vals.length), cells ++ vals)
  | lpop _ => (replyOption cells.head?, cells.tail)
  | rpop _ => (replyOption cells.getLast?, cells.dropLast)
  | lset _ index val =>
      if cells = [] then (.errorInfo "ERR no such key", [])
      else
        match listPosition cells index.toInt with
        | some i => (.ok, cells.set i val)
        | none => (.error indexOutOfRange, cells)
  | ltrim _ start stop => (.ok, listSlice cells start.toInt stop.toInt)
  | lindex _ index => (replyOption ((listPosition cells index.toInt).bind (cells[·]?)), cells)
  | lrange _ start stop => (.strings (listSlice cells start.toInt stop.toInt), cells)
  | llen _ => (.int cells.length, cells)

/-- Reply and new value of a list command on what its key holds. -/
def respond (value : Option Value) (command : ListCommand) : Reply × Option Value :=
  match command.argumentError with
  | some reply => (reply, value)
  | none =>
      match value with
      | none => ((command.denote []).1, Value.ofCells (command.denote []).2)
      | some (.list cells) => ((command.denote cells).1, Value.ofCells (command.denote cells).2)
      | some _ => (.error wrongTypeErr, value)

end ListCommand

section Sequence

theorem seqBefore_eq (seq : UInt64) : seqBefore seq = seq - 1 := by
  unfold seqBefore
  split_ifs with zero
  · rw [zero]
    decide
  · rfl

theorem seqAfter_eq (seq : UInt64) : seqAfter seq = seq + 1 := by
  unfold seqAfter
  split_ifs with full
  · rw [full]
    decide
  · rfl

/-- Indices are added to the ends of the window modulo 2^64. -/
theorem getSeqByIndex_eq (index : Int64) (lv : ListMetaVal) :
    getSeqByIndex index lv =
      if 0 ≤ index then lv.leftSeq + index.toUInt64
      else lv.rightSeq - (-index - 1).toUInt64 := by
  have minusMax : ∀ n : UInt64, n - uint64Max - 1 = n := by
    intro n
    have wraps : uint64Max = -1 := by decide
    rw [wraps]
    grind
  have plusMax : ∀ m n : UInt64, uint64Max - m + n + 1 = n - m := by
    intro m n
    have wraps : uint64Max = -1 := by decide
    rw [wraps]
    grind
  unfold getSeqByIndex
  simp only [minusMax, plusMax]
  split_ifs
  all_goals first
    | rfl
    | exact UInt64.add_comm _ _

end Sequence

/-- The items of a version are the cells of a window. -/
structure CellsAt (contents : Contents) (key : UserKey) (version : UInt16) (cells : List Bytes)
    (left : UInt64) : Prop where
  items : ∀ seq, contents (.item key version (be64 seq)) = Window.cell cells left seq
  noOther : ∀ field, (∀ seq, field ≠ be64 seq) → contents (.item key version field) = none
  noScores : ∀ score field, contents (.zscore key version score field) = none

/-- An update of one cell. -/
def Update.IsCell (key : UserKey) (version : UInt16) (update : Update) : Prop :=
  ∃ seq, update.record = .item key version (be64 seq)

section Cells

variable {contents : Contents} {key : UserKey} {version : UInt16} {cells : List Bytes}
  {left : UInt64}

theorem CellsAt.update (at' : CellsAt contents key version cells left) {cells' : List Bytes}
    {left' seq : UInt64} {val : Option Bytes}
    (changes : ∀ s, Window.cell cells' left' s =
      if s = seq then val else Window.cell cells left s) :
    CellsAt (Function.update contents (.item key version (be64 seq)) val) key version cells'
      left' where
  items s := by
    rw [changes, Function.update_apply]
    by_cases same : s = seq
    · simp [same]
    · rw [if_neg (by simpa using fun h => same (be64_injective h)), if_neg same, at'.items]
  noOther field other := by
    rw [Function.update_of_ne (by simpa using other seq), at'.noOther field other]
  noScores score field := by
    rw [Function.update_of_ne (by simp), at'.noScores]

/-- Pushing values at the left end, one after the other. -/
theorem pushLoop_head (contents : Contents) (vals : List Bytes) (batch : List Update)
    (at' : CellsAt (contents.applyAll batch) key version cells left) :
    ∃ updates, pushLoop key.1 version .head vals left (batch.map Update.encode) =
        (left - UInt64.ofNat vals.length, (batch ++ updates).map Update.encode) ∧
      (∀ u ∈ updates, u.IsCell key version) ∧
      CellsAt (contents.applyAll (batch ++ updates)) key version (vals.reverse ++ cells)
        (left - UInt64.ofNat vals.length) := by
  induction vals generalizing batch cells left with
  | nil =>
      refine ⟨[], ?_, by simp, ?_⟩ <;> simp only [List.length_nil, List.append_nil]
      · rw [pushLoop, show left - UInt64.ofNat 0 = left from UInt64.sub_zero left]
      · rw [show left - UInt64.ofNat 0 = left from UInt64.sub_zero left]
        exact at'
  | cons val vals ih =>
      have put : batch.map Update.encode ++ [.put (encodeListKey key.1 (left - 1) version) val] =
          (batch ++ [(⟨.item key version (be64 (left - 1)), some val⟩ : Update)]).map
            Update.encode := by
        simp [encodeListKey_eq_encode, put_eq]
      have grown : CellsAt (contents.applyAll
          (batch ++ [⟨.item key version (be64 (left - 1)), some val⟩])) key version (val :: cells)
          (left - 1) := by
        rw [Contents.applyAll_append]
        exact at'.update fun s => Window.cell_cons cells val left s
      obtain ⟨updates, loop, areCells, final⟩ := ih _ grown
      have shift : left - 1 - UInt64.ofNat vals.length =
          left - UInt64.ofNat (val :: vals).length := by
        rw [List.length_cons, UInt64.ofNat_add]
        have one : UInt64.ofNat 1 = 1 := rfl
        rw [one]
        grind
      refine ⟨⟨.item key version (be64 (left - 1)), some val⟩ :: updates, ?_, ?_, ?_⟩
      · simp only [pushLoop, seqBefore_eq]
        rw [put, loop, shift, List.append_assoc]
        rfl
      · intro u mem
        rcases List.mem_cons.mp mem with rfl | mem
        · exact ⟨_, rfl⟩
        · exact areCells u mem
      · rw [← shift, List.reverse_cons, List.append_assoc]
        rw [List.append_assoc] at final
        exact final

/-- Pushing values at the right end, one after the other. -/
theorem pushLoop_tail (contents : Contents) (vals : List Bytes) (batch : List Update)
    (at' : CellsAt (contents.applyAll batch) key version cells left)
    (room : cells.length + vals.length ≤ 2 ^ 64) :
    ∃ updates, pushLoop key.1 version .tail vals (left + UInt64.ofNat cells.length - 1)
          (batch.map Update.encode) =
        (left + UInt64.ofNat (cells ++ vals).length - 1, (batch ++ updates).map Update.encode) ∧
      (∀ u ∈ updates, u.IsCell key version) ∧
      CellsAt (contents.applyAll (batch ++ updates)) key version (cells ++ vals) left := by
  induction vals generalizing batch cells with
  | nil => exact ⟨[], by simp [pushLoop], by simp, by simpa using at'⟩
  | cons val vals ih =>
      rw [List.length_cons] at room
      have next : left + UInt64.ofNat cells.length - 1 + 1 = left + UInt64.ofNat cells.length :=
        UInt64.sub_add_cancel _ _
      have put : batch.map Update.encode ++
          [.put (encodeListKey key.1 (left + UInt64.ofNat cells.length) version) val] =
          (batch ++ [(⟨.item key version (be64 (left + UInt64.ofNat cells.length)), some val⟩ :
            Update)]).map Update.encode := by
        simp [encodeListKey_eq_encode, put_eq]
      have grown : CellsAt (contents.applyAll (batch ++
          [⟨.item key version (be64 (left + UInt64.ofNat cells.length)), some val⟩])) key version
          (cells ++ [val]) left := by
        rw [Contents.applyAll_append]
        exact at'.update fun s => Window.cell_concat (by omega) val left s
      obtain ⟨updates, loop, areCells, final⟩ := ih _ grown (by
        rw [List.length_append, List.length_singleton]
        omega)
      have last : left + UInt64.ofNat (cells ++ [val]).length - 1 =
          left + UInt64.ofNat cells.length := by
        rw [List.length_append, List.length_singleton, UInt64.ofNat_add]
        have one : UInt64.ofNat 1 = 1 := rfl
        rw [one, ← UInt64.add_assoc, UInt64.add_sub_cancel]
      refine ⟨⟨.item key version (be64 (left + UInt64.ofNat cells.length)), some val⟩ :: updates,
        ?_, ?_, ?_⟩
      · simp only [pushLoop, seqAfter_eq, next]
        rw [last] at loop
        rw [put, loop, List.append_assoc, List.append_assoc]
        rfl
      · intro u mem
        rcases List.mem_cons.mp mem with rfl | mem
        · exact ⟨_, rfl⟩
        · exact areCells u mem
      · rw [List.append_assoc, List.append_assoc] at final
        exact final

/-- Trimming cells from the left end, one after the other. -/
theorem trimLoop_head (contents : Contents) (n : Nat) (batch : List Update)
    (at' : CellsAt (contents.applyAll batch) key version cells left)
    (small : cells.length < 2 ^ 64) :
    ∃ updates, trimLoop key.1 version .head n left (batch.map Update.encode) =
        (left + UInt64.ofNat n, (batch ++ updates).map Update.encode) ∧
      (∀ u ∈ updates, u.IsCell key version) ∧
      CellsAt (contents.applyAll (batch ++ updates)) key version (cells.drop n)
        (left + UInt64.ofNat n) := by
  induction n generalizing batch cells left with
  | zero =>
      refine ⟨[], ?_, by simp, ?_⟩ <;>
        simp only [List.append_nil, List.drop_zero, show left + UInt64.ofNat 0 = left from
          UInt64.add_zero _]
      · rfl
      · exact at'
  | succ n ih =>
      have delete : batch.map Update.encode ++ [.delete (encodeListKey key.1 left version)] =
          (batch ++ [(⟨.item key version (be64 left), none⟩ : Update)]).map Update.encode := by
        simp [encodeListKey_eq_encode, delete_eq]
      have shrunk : CellsAt (contents.applyAll
          (batch ++ [⟨.item key version (be64 left), none⟩])) key version cells.tail
          (left + 1) := by
        rw [Contents.applyAll_append]
        exact at'.update fun s => Window.cell_tail small left s
      obtain ⟨updates, loop, areCells, final⟩ := ih _ shrunk (by
        rw [List.length_tail]
        omega)
      have shift : left + 1 + UInt64.ofNat n = left + UInt64.ofNat (n + 1) := by
        rw [UInt64.ofNat_add]
        have one : UInt64.ofNat 1 = 1 := rfl
        rw [one]
        grind
      refine ⟨⟨.item key version (be64 left), none⟩ :: updates, ?_, ?_, ?_⟩
      · simp only [trimLoop, seqAfter_eq]
        rw [delete, loop, shift, List.append_assoc]
        rfl
      · intro u mem
        rcases List.mem_cons.mp mem with rfl | mem
        · exact ⟨_, rfl⟩
        · exact areCells u mem
      · rw [← shift, ← List.drop_tail]
        rw [List.append_assoc] at final
        exact final

/-- Trimming cells from the right end, one after the other. -/
theorem trimLoop_tail (contents : Contents) (n : Nat) (batch : List Update)
    (at' : CellsAt (contents.applyAll batch) key version cells left)
    (small : cells.length < 2 ^ 64) (enough : n ≤ cells.length) :
    ∃ updates, trimLoop key.1 version .tail n (left + UInt64.ofNat cells.length - 1)
          (batch.map Update.encode) =
        (left + UInt64.ofNat (cells.length - n) - 1, (batch ++ updates).map Update.encode) ∧
      (∀ u ∈ updates, u.IsCell key version) ∧
      CellsAt (contents.applyAll (batch ++ updates)) key version (cells.take (cells.length - n))
        left := by
  induction n generalizing batch cells with
  | zero => exact ⟨[], by simp [trimLoop], by simp, by simpa using at'⟩
  | succ n ih =>
      have nonempty : cells ≠ [] := by
        rintro rfl
        simp at enough
      have length : cells.dropLast.length = cells.length - 1 := List.length_dropLast
      have delete : batch.map Update.encode ++
          [.delete (encodeListKey key.1 (left + UInt64.ofNat cells.length - 1) version)] =
          (batch ++ [(⟨.item key version (be64 (left + UInt64.ofNat cells.length - 1)), none⟩ :
            Update)]).map Update.encode := by
        simp [encodeListKey_eq_encode, delete_eq]
      have shrunk : CellsAt (contents.applyAll (batch ++
          [⟨.item key version (be64 (left + UInt64.ofNat cells.length - 1)), none⟩])) key version
          cells.dropLast left := by
        rw [Contents.applyAll_append]
        exact at'.update fun s => Window.cell_dropLast small nonempty left s
      obtain ⟨updates, loop, areCells, final⟩ := ih _ shrunk (by omega) (by omega)
      have before : left + UInt64.ofNat cells.length - 1 - 1 =
          left + UInt64.ofNat cells.dropLast.length - 1 := by
        rw [length, show cells.length = cells.length - 1 + 1 by omega, UInt64.ofNat_add,
          Nat.add_sub_cancel]
        have one : UInt64.ofNat 1 = 1 := rfl
        rw [one]
        grind
      have left' : cells.dropLast.length - n = cells.length - (n + 1) := by omega
      refine ⟨⟨.item key version (be64 (left + UInt64.ofNat cells.length - 1)), none⟩ :: updates,
        ?_, ?_, ?_⟩
      · simp only [trimLoop, seqBefore_eq]
        rw [delete, before, loop, left', List.append_assoc]
        rfl
      · intro u mem
        rcases List.mem_cons.mp mem with rfl | mem
        · exact ⟨_, rfl⟩
        · exact areCells u mem
      · rw [List.append_assoc, left', List.dropLast_eq_take, List.take_take,
          Nat.min_eq_left (by omega)] at final
        exact final

theorem Update.IsCell.concerns {update : Update} (isCell : update.IsCell key version) :
    update.Concerns key version := by
  obtain ⟨seq, same⟩ := isCell
  exact Or.inl (Or.inl ⟨_, same⟩)

/-- Updates of other records than items leave the cells alone. -/
theorem CellsAt.applyAll (at' : CellsAt contents key version cells left) (updates : List Update)
    (noItem : ∀ u ∈ updates, ∀ field, u.record ≠ .item key version field)
    (noScore : ∀ u ∈ updates, ∀ score field, u.record ≠ .zscore key version score field) :
    CellsAt (contents.applyAll updates) key version cells left where
  items seq := by
    rw [Contents.applyAll_of_notMem fun u mem => noItem u mem _]
    exact at'.items seq
  noOther field other := by
    rw [Contents.applyAll_of_notMem fun u mem => noItem u mem field]
    exact at'.noOther field other
  noScores score field := by
    rw [Contents.applyAll_of_notMem fun u mem => noScore u mem score field]
    exact at'.noScores score field

end Cells

/-- Metadata of a window of cells. -/
structure ListMetaVal.Describes (lv : ListMetaVal) (cells : List Bytes) (left : UInt64)
    (version : UInt16) : Prop where
  delEq : lv.del = keyEnabledMask
  versionEq : lv.version = version
  lengthEq : lv.length = UInt64.ofNat cells.length
  leftEq : lv.leftSeq = left
  rightEq : lv.rightSeq = left + UInt64.ofNat cells.length - 1

/-- What a list command finds: an absent list counts as empty at the version it would be created
with. -/
structure ListView (contents : Contents) (key : UserKey) (state : Option (UInt16 × Value))
    (cells : List Bytes) (left : UInt64) (version : UInt16) : Prop where
  valid : KeyValid contents key state
  value : state.map Prod.snd = Value.ofCells cells
  metadata :
    match state with
    | none => cells = [] ∧ left = 0 ∧ contents.createVersion key = version ∧ contents.Fresh key
    | some (live, _) => live = version ∧ cells ≠ [] ∧ contents (.metadata key) =
        some (encodeListMetaVal (UInt64.ofNat cells.length) left
          (left + UInt64.ofNat cells.length - 1) version)
  stored : CellsAt contents key version cells left
  small : cells.length < 2 ^ 64

section View

variable {contents : Contents} {key : UserKey}

theorem ListView.ofIdle (valid : KeyValid contents key none) (fresh : contents.Fresh key) :
    ListView contents key none [] 0 (contents.createVersion key) := by
  have clean := valid.clean_of_fresh fresh
  exact
    { valid, value := rfl, metadata := ⟨rfl, rfl, rfl, fresh⟩, small := by simp
      stored := ⟨fun _ => clean.1 _, fun field _ => clean.1 field, clean.2⟩ }

theorem ListView.ofLive {version : UInt16} {cells : List Bytes}
    (valid : KeyValid contents key (some (version, .list cells))) :
    ∃ left, ListView contents key (some (version, .list cells)) cells left version := by
  obtain ⟨positive, small, ⟨left, metadata, items, noOther⟩, noScores⟩ := valid.represented
  have nonempty : cells ≠ [] := List.ne_nil_of_length_pos positive
  exact ⟨left,
    { valid, value := by simp [Value.ofCells, nonempty], metadata := ⟨rfl, nonempty, metadata⟩
      stored := ⟨items, noOther, noScores⟩, small }⟩

end View

section Reading

variable {world : World} {key : UserKey} {version : UInt16}

theorem eval_getListMetaVal_idle (valid : KeyValid world.db.contents key none) :
    ∃ lv : ListMetaVal, (getListMetaVal (encodeMetaKey key.1)).eval atomically world =
        ((0, lv), world) ∧ lv.Describes [] 0 (world.db.contents.createVersion key) := by
  rw [getListMetaVal, Program.eval_bind, encodeMetaKey_eq, eval_dbGet, Contents.createVersion]
  rcases valid.represented with absent | ⟨version, metaVal, header, rest, found, decoded, rfl, flag⟩
  · rw [absent]
    exact ⟨_, rfl, rfl, rfl, rfl, rfl, by decide⟩
  · obtain ⟨type, version, del⟩ := header
    simp only at flag
    simp only [found, ReadStatus.ofOption, ListMetaVal.decodeMetaVal, decoded, if_pos flag]
    exact ⟨_, rfl, rfl, rfl, rfl, rfl, show uint64Max = 0 + UInt64.ofNat 0 - 1 by decide⟩

theorem eval_getListMetaVal_live {length left right : UInt64}
    (found : world.db.contents (.metadata key) =
      some (encodeListMetaVal length left right version)) :
    (getListMetaVal (encodeMetaKey key.1)).eval atomically world =
      ((1, { type := DataType.lsize, version, length, leftSeq := left, rightSeq := right }),
        world) := by
  have last := Decoder.readUint64_be64 right []
  rw [List.append_nil] at last
  rw [getListMetaVal, Program.eval_bind, encodeMetaKey_eq, eval_dbGet, found]
  simp [ReadStatus.ofOption, ListMetaVal.decodeMetaVal,
    decodeMetaHeader_listMetaVal _ _ _ _ _ (Or.inr rfl), enabled_ne_delete, last]

theorem eval_getListMetaVal_wrongType {value : Value}
    (live : world.db.contents.LiveAs key version value) (other : value.type ≠ DataType.lsize) :
    ∃ lv, (getListMetaVal (encodeMetaKey key.1)).eval atomically world =
      ((wrongTypeErr, lv), world) := by
  obtain ⟨metaVal, rest, found, decoded⟩ := live.header
  rw [getListMetaVal, Program.eval_bind, encodeMetaKey_eq, eval_dbGet, found]
  simp only [ReadStatus.ofOption, ListMetaVal.decodeMetaVal, decoded, if_neg enabled_ne_delete,
    ne_eq, other, not_false_eq_true, if_true]
  exact ⟨_, rfl⟩

variable {state : Option (UInt16 × Value)} {cells : List Bytes} {left : UInt64}

theorem ListView.eval_getListMetaVal (view : ListView world.db.contents key state cells left
    version) :
    ∃ lv : ListMetaVal, (getListMetaVal (encodeMetaKey key.1)).eval atomically world =
        ((if cells = [] then 0 else 1, lv), world) ∧ lv.Describes cells left version := by
  have metadata := view.metadata
  cases state with
  | none =>
      obtain ⟨rfl, rfl, rfl, _⟩ := metadata
      exact eval_getListMetaVal_idle view.valid
  | some live =>
      obtain ⟨rfl, nonempty, found⟩ := metadata
      rw [if_neg nonempty]
      exact ⟨_, eval_getListMetaVal_live found, rfl, rfl, rfl, rfl, rfl⟩

theorem eval_getListItemValInternal (world : World) (key : UserKey) (version : UInt16)
    (seq : UInt64) :
    (getListItemValInternal (encodeListKey key.1 seq version)).eval atomically world =
      (match world.db.contents (.item key version (be64 seq)) with
        | none => (0, [])
        | some val => (1, val), world) := by
  rw [getListItemValInternal, Program.eval_bind, encodeListKey_eq_encode, eval_dbGet]
  cases world.db.contents (.item key version (be64 seq)) <;> rfl

theorem ListView.refines_self (view : ListView world.db.contents key state cells left version)
    {command : Command Reply} {reply : Reply}
    (run : command.eval atomically world = (reply, world)) :
    Refines command world key (reply, Value.ofCells cells) :=
  view.value ▸ Refines.of_eval view.valid run

end Reading

section Writing

variable {db : DB} {key : UserKey} {version : UInt16} {state : Option (UInt16 × Value)}
  {cells : List Bytes} {left : UInt64}

theorem ListView.notPending (view : ListView db.contents key state cells left version) :
    db.contents (.delete key version) = none := by
  have metadata := view.metadata
  cases state with
  | none =>
      obtain ⟨_, _, rfl, fresh⟩ := metadata
      exact fresh
  | some live =>
      obtain ⟨w, value⟩ := live
      obtain rfl := metadata.1
      exact view.valid.livePending w value rfl

/-- A batch that leaves a window of cells with its metadata. -/
theorem ListView.write (view : ListView db.contents key state cells left version)
    (batch : List Update) (cells' : List Bytes) (left' : UInt64) {right' : UInt64}
    (concerns : ∀ u ∈ batch, u.IsCell key version ∨ u.record = .metadata key)
    (metadata : db.contents.applyAll batch (.metadata key) =
      some (encodeListMetaVal (UInt64.ofNat cells'.length) left' right' version))
    (right : right' = left' + UInt64.ofNat cells'.length - 1)
    (stored : CellsAt (db.contents.applyAll batch) key version cells' left')
    (nonempty : cells' ≠ []) (small : cells'.length < 2 ^ 64) :
    Confined key db (WriteBatch.apply (batch.map Update.encode) db) ∧
      KeyValid (DB.contents (WriteBatch.apply (batch.map Update.encode) db)) key
        (some (version, .list cells')) := by
  subst right
  refine view.valid.writeLive ?_ ?_ view.notPending ⟨List.length_pos_of_ne_nil nonempty, small,
    ⟨left', metadata, stored.items, stored.noOther⟩, stored.noScores⟩ ?_
  · intro u mem
    exact (concerns u mem).elim Update.IsCell.concerns fun isMeta => Or.inr (Or.inl isMeta)
  · rintro w value rfl
    exact view.metadata.1
  · intro u mem
    rcases concerns u mem with ⟨seq, same⟩ | same <;> rw [same] <;> simp

def markListUpdates (key : UserKey) (length : UInt64) (version : UInt16) : List Update :=
  [⟨.metadata key, some (encodeListMetaVal length 0 0 version keyDeleteMask)⟩,
    ⟨.delete key version, some []⟩]

/-- The updates that mark a list deleted and forget its expiry. -/
def deleteListUpdates (contents : Contents) (key : UserKey) (length : UInt64) (version : UInt16) :
    List Update :=
  markListUpdates key length version ++ cancelUpdates contents key

theorem eval_deleteList (world : World) (key : UserKey) (version : UInt16) (length : UInt64)
    (batch : List Update) :
    (deleteList key.1 (encodeMetaKey key.1) length version (batch.map Update.encode)).eval
      atomically
        world =
      ((batch ++ deleteListUpdates world.db.contents key length version).map Update.encode,
        world.delFastKey key.1) := by
  obtain ⟨ret, cancelled⟩ :=
    eval_cancelExpiration world key (batch ++ markListUpdates key length version)
  have putBoth : batch.map Update.encode ++ [.put (encodeMetaKey key.1)
        (encodeListMetaVal length 0 0 version keyDeleteMask),
        .put (encodeDeleteKey key.1 version) []] =
      (batch ++ markListUpdates key length version).map Update.encode := by
    simp [markListUpdates, encodeMetaKey_eq, encodeDeleteKey_eq, put_eq]
  simp only [deleteList, putBoth, Program.eval_bind, cancelled, Program.pure_eq_done,
    Program.eval_done, deleteListUpdates, List.append_assoc]

/-- A batch that removes cells and marks the list deleted. -/
theorem ListView.erase (view : ListView db.contents key state cells left version)
    (live : cells ≠ []) (length : UInt64) {updates : List Update}
    (areCells : ∀ u ∈ updates, u.IsCell key version) :
    Confined key db (WriteBatch.apply ((updates ++
        deleteListUpdates db.contents key length version).map Update.encode) db) ∧
      KeyValid (DB.contents (WriteBatch.apply ((updates ++
        deleteListUpdates db.contents key length version).map Update.encode) db)) key none := by
  have metadata := view.metadata
  cases state with
  | none => exact absurd metadata.1 live
  | some found =>
      obtain ⟨w, value⟩ := found
      obtain rfl := metadata.1
      have last : ∀ record : RecordKey, record = .metadata key ∨ record = .delete key w →
          db.contents.applyAll (updates ++ deleteListUpdates db.contents key length w) record =
            db.contents.applyAll (markListUpdates key length w) record := by
        intro record isMark
        rw [deleteListUpdates, Contents.applyAll_append, Contents.applyAll_append,
          applyAll_cancelUpdates (by rcases isMark with rfl | rfl <;> simp)
            (by rcases isMark with rfl | rfl <;> simp)]
        simp only [markListUpdates, Contents.applyAll_cons, Contents.applyAll_nil,
          Function.update_apply]
        rcases isMark with rfl | rfl <;> simp
      refine view.valid.writeDeleted ?_ ?_ ?_
      · intro u mem
        rcases List.mem_append.mp mem with mem | mem
        · exact (areCells u mem).concerns
        · rcases List.mem_append.mp mem with mem | mem
          · simp only [markListUpdates, List.mem_cons, List.not_mem_nil, or_false] at mem
            rcases mem with rfl | rfl
            · exact Or.inr (Or.inl rfl)
            · exact Or.inr (Or.inr (Or.inr (Or.inr rfl)))
          · exact Update.Concerns.of_cancel mem
      · refine ⟨_, ⟨DataType.lsize, w, keyDeleteMask⟩, _, ?_,
          decodeMetaHeader_listMetaVal length 0 0 w keyDeleteMask (Or.inl rfl), rfl, rfl⟩
        rw [last _ (Or.inl rfl)]
        simp [markListUpdates]
      · rw [last _ (Or.inr rfl)]
        simp [markListUpdates]

end Writing

end Vcdb
