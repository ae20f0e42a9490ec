import Vcdb.Codec.Integer
import Vcdb.Keyspace.List

/-!
# Every list command on its window

Each list command computes its meaning on the sequence from the window of cells, for lists shorter
than 2^63 cells.  Setting a cell takes the largest and the smallest index for valid when the list
has exactly 2^63 - 1 cells.
-/

namespace Vcdb

section Indices

variable {cells : List Bytes} {left : UInt64} {version : UInt16} {lv : ListMetaVal}

theorem toInt_complement (n : Int64) : (-n - 1).toInt = -n.toInt - 1 := by
  have lower := n.le_toInt
  have upper := n.toInt_lt
  have one : (1 : Int64).toInt = 1 := rfl
  rw [Int64.toInt_sub, Int64.toInt_neg, one]
  simp only [Int.bmod_def]
  omega

theorem listPosition_eq_some {index : Int} {i : Nat} :
    listPosition cells index = some i ↔
      i < cells.length ∧ ((i : Int) = index ∨ (i : Int) = cells.length + index) := by
  simp only [listPosition]
  split_ifs <;> simp <;> omega

theorem listPosition_eq_none {index : Int} :
    listPosition cells index = none ↔ index < -cells.length ∨ (cells.length : Int) ≤ index := by
  simp only [listPosition]
  split_ifs <;> simp <;> omega

/-- The number an index names is the one of its position. -/
theorem getSeqByIndex_of_position (describes : lv.Describes cells left version) {index : Int64}
    {i : Nat} (small : cells.length < 2 ^ 64) (position : listPosition cells index.toInt = some i) :
    getSeqByIndex index lv = left + UInt64.ofNat i ∧ i < cells.length := by
  obtain ⟨inside, position⟩ := listPosition_eq_some.mp position
  refine ⟨?_, inside⟩
  rw [getSeqByIndex_eq, describes.leftEq, describes.rightEq]
  have sign : 0 ≤ index ↔ 0 ≤ index.toInt := Int64.le_iff_toInt_le
  have word : (UInt64.ofNat i).toNat = i := UInt64.toNat_ofNat_of_lt' (show i < 2 ^ 64 by omega)
  by_cases nonneg : 0 ≤ index.toInt
  · have same : index.toUInt64 = UInt64.ofNat i := by
      have offset := toNat_toUInt64 nonneg
      rw [← UInt64.toNat_inj, word]
      omega
    rw [if_pos (sign.mpr nonneg), same]
  · have complement := toInt_complement index
    have offset := toNat_toUInt64 (n := -index - 1) (by omega)
    have total : UInt64.ofNat cells.length =
        UInt64.ofNat i + (-index - 1).toUInt64 + 1 := by
      have one : (1 : UInt64).toNat = 1 := rfl
      rw [← UInt64.toNat_inj, UInt64.toNat_ofNat_of_lt' small, UInt64.toNat_add, UInt64.toNat_add,
        word, one]
      omega
    rw [if_neg (fun h => nonneg (sign.mp h)), total]
    grind

/-- An index outside the list names a number outside the window. -/
theorem cell_getSeqByIndex (describes : lv.Describes cells left version) (index : Int64)
    (small : cells.length < 2 ^ 64) :
    Window.cell cells left (getSeqByIndex index lv) =
      (listPosition cells index.toInt).bind (cells[·]?) := by
  cases position : listPosition cells index.toInt with
  | some i =>
      obtain ⟨seq, inside⟩ := getSeqByIndex_of_position describes small position
      rw [seq, Window.cell_at (by omega)]
      rfl
  | none =>
      rw [listPosition_eq_none] at position
      rw [Option.bind_none, Window.cell, List.getElem?_eq_none]
      rw [getSeqByIndex_eq, describes.leftEq, describes.rightEq]
      have sign : 0 ≤ index ↔ 0 ≤ index.toInt := Int64.le_iff_toInt_le
      by_cases nonneg : 0 ≤ index.toInt
      · have offset := toNat_toUInt64 nonneg
        rw [if_pos (sign.mpr nonneg), UInt64.add_comm, UInt64.add_sub_cancel]
        omega
      · have complement := toInt_complement index
        have offset := toNat_toUInt64 (n := -index - 1) (by omega)
        have upper := (-index - 1).toInt_lt
        have shift : left + UInt64.ofNat cells.length - 1 - (-index - 1).toUInt64 - left =
            UInt64.ofNat cells.length - ((-index - 1).toUInt64 + 1) := by grind
        have next : ((-index - 1).toUInt64 + 1).toNat = (-index - 1).toUInt64.toNat + 1 := by
          rw [UInt64.toNat_add]
          have one : (1 : UInt64).toNat = 1 := rfl
          rw [one]
          exact Nat.mod_eq_of_lt (by omega)
        rw [if_neg (fun h => nonneg (sign.mp h)), shift, UInt64.toNat_sub, next,
          UInt64.toNat_ofNat_of_lt' small]
        omega

end Indices

section Commands

variable {world : World} {key : UserKey} {state : Option (UInt16 × Value)} {cells : List Bytes}
  {left : UInt64} {version : UInt16}

/-- Values pushed at an end. -/
def pushCells (lp : ListPosition) (cells vals : List Bytes) : List Bytes :=
  match lp with
  | .head => vals.reverse ++ cells
  | .tail => cells ++ vals

theorem length_pushCells (lp : ListPosition) (vals : List Bytes) :
    (pushCells lp cells vals).length = cells.length + vals.length := by
  cases lp <;> simp [pushCells]
  omega

theorem eval_commitBatch_encode (world : World) (batch : List Update) :
    (commitBatch (batch.map Update.encode)).eval atomically world =
      (true, world.withDB (WriteBatch.apply (batch.map Update.encode) world.db)) := rfl

/-- A batch of cell updates followed by the metadata of the window they lead to. -/
theorem ListView.write_cells (view : ListView world.db.contents key state cells left version)
    {updates : List Update} {cells' : List Bytes} {left' : UInt64}
    (areCells : ∀ u ∈ updates, u.IsCell key version)
    (stored : CellsAt (world.db.contents.applyAll updates) key version cells' left')
    (nonempty : cells' ≠ []) (small : cells'.length < 2 ^ 64) (lv : ListMetaVal)
    (describes : lv.Describes cells' left' version) :
    ∃ world', (commitBatch (updates.map Update.encode ++
        [.put (encodeMetaKey key.1) (encodeValueListMeta lv)])).eval atomically world =
          (true, world') ∧
      Confined key world.db world'.db ∧
      KeyValid world'.db.contents key (some (version, .list cells')) := by
  have metaEq : encodeValueListMeta lv = encodeListMetaVal (UInt64.ofNat cells'.length) left'
      (left' + UInt64.ofNat cells'.length - 1) version := by
    rw [encodeValueListMeta, describes.delEq, describes.versionEq, describes.lengthEq,
      describes.leftEq, describes.rightEq]
  have whole : updates.map Update.encode ++
      [.put (encodeMetaKey key.1) (encodeValueListMeta lv)] =
      (updates ++ [(⟨.metadata key, some (encodeListMetaVal (UInt64.ofNat cells'.length) left'
        (left' + UInt64.ofNat cells'.length - 1) version)⟩ : Update)]).map Update.encode := by
    simp [metaEq, encodeMetaKey_eq, put_eq]
  obtain ⟨confined, valid⟩ := view.write
    (updates ++ [⟨.metadata key, some (encodeListMetaVal (UInt64.ofNat cells'.length)
      left' (left' + UInt64.ofNat cells'.length - 1) version)⟩]) cells' left' (by
      intro u mem
      rcases List.mem_append.mp mem with mem | mem
      · exact Or.inl (areCells u mem)
      · rw [List.mem_singleton.mp mem]
        exact Or.inr rfl) (by simp) rfl (by
      rw [Contents.applyAll_append]
      exact stored.applyAll _ (by simp) (by simp)) nonempty small
  rw [whole, eval_commitBatch_encode]
  exact ⟨_, rfl, confined, valid⟩

theorem ListView.eval_doListPush (view : ListView world.db.contents key state cells left version)
    {lv : ListMetaVal} (describes : lv.Describes cells left version) {vals : List Bytes}
    (nonempty : vals ≠ []) (small : cells.length + vals.length < 2 ^ 64) (lp : ListPosition) :
    ∃ lv' world', (doListPush key.1 vals (encodeMetaKey key.1) lv lp).eval atomically world =
        ((1, lv'), world') ∧
      lv'.length.toNat = cells.length + vals.length ∧ Confined key world.db world'.db ∧
      KeyValid world'.db.contents key (some (version, .list (pushCells lp cells vals))) := by
  have room : ¬lv.length > uint64Max - UInt64.ofNat vals.length := by
    have maxWord : uint64Max.toNat = 2 ^ 64 - 1 := by decide
    have valsWord : (UInt64.ofNat vals.length).toNat = vals.length :=
      UInt64.toNat_ofNat_of_lt' (show vals.length < 2 ^ 64 by omega)
    rw [gt_iff_lt, UInt64.lt_iff_toNat_lt, UInt64.toNat_sub_of_le, describes.lengthEq,
      UInt64.toNat_ofNat_of_lt' view.small, valsWord, maxWord]
    · omega
    · rw [UInt64.le_iff_toNat_le, maxWord, valsWord]
      omega
  have length : lv.length + UInt64.ofNat vals.length =
      UInt64.ofNat (pushCells lp cells vals).length := by
    rw [describes.lengthEq, length_pushCells, UInt64.ofNat_add]
  have lengthNat : (UInt64.ofNat (pushCells lp cells vals).length).toNat =
      cells.length + vals.length := by
    rw [length_pushCells]
    exact UInt64.toNat_ofNat_of_lt' small
  have pushedNonempty : pushCells lp cells vals ≠ [] := by
    cases lp <;> simp [pushCells, nonempty]
  have pushedSmall : (pushCells lp cells vals).length < 2 ^ 64 := by
    rw [length_pushCells]
    exact small
  cases lp with
  | head =>
      obtain ⟨updates, loop, areCells, stored⟩ := pushLoop_head world.db.contents vals []
        view.stored
      simp only [List.map_nil, List.nil_append] at loop stored
      obtain ⟨world', run, confined, valid⟩ := view.write_cells areCells stored pushedNonempty
        pushedSmall ({ lv with
          length := lv.length + UInt64.ofNat vals.length
          leftSeq := left - UInt64.ofNat vals.length })
        ⟨describes.delEq, describes.versionEq, length, rfl, by
          rw [show (vals.reverse ++ cells).length = cells.length + vals.length from
            length_pushCells .head vals, UInt64.ofNat_add]
          show lv.rightSeq = _
          rw [describes.rightEq]
          grind⟩
      refine ⟨{ lv with
          length := lv.length + UInt64.ofNat vals.length
          leftSeq := left - UInt64.ofNat vals.length }, world', ?_, by rw [← lengthNat, ← length],
        confined, valid⟩
      rw [describes.versionEq] at run
      simp only [doListPush, if_neg nonempty, if_neg room, describes.leftEq, describes.versionEq,
        loop, Program.eval_bind, run, if_true, Program.pure_eq_done, Program.eval_done]
  | tail =>
      obtain ⟨updates, loop, areCells, stored⟩ := pushLoop_tail world.db.contents vals []
        view.stored (by omega)
      simp only [List.map_nil, List.nil_append] at loop stored
      obtain ⟨world', run, confined, valid⟩ := view.write_cells areCells stored pushedNonempty
        pushedSmall ({ lv with
          length := lv.length + UInt64.ofNat vals.length
          rightSeq := left + UInt64.ofNat (cells ++ vals).length - 1 })
        ⟨describes.delEq, describes.versionEq, length, describes.leftEq, rfl⟩
      refine ⟨{ lv with
          length := lv.length + UInt64.ofNat vals.length
          rightSeq := left + UInt64.ofNat (cells ++ vals).length - 1 }, world', ?_,
        by rw [← lengthNat, ← length], confined, valid⟩
      rw [describes.versionEq] at run
      simp only [doListPush, if_neg nonempty, if_neg room, describes.rightEq, describes.versionEq,
        loop, Program.eval_bind, run, if_true, Program.pure_eq_done, Program.eval_done]

/-- Pushing on a list, or on a missing one when the push may create it. -/
theorem ListView.push (view : ListView world.db.contents key state cells left version)
    {vals : List Bytes} (nonempty : vals ≠ []) (small : cells.length + vals.length < 2 ^ 64)
    (lp : ListPosition) {create : Bool} (allowed : create = true ∨ cells ≠ []) :
    Refines (procPush (fun key vals => listPush key vals lp create) key.1 vals) world key
      (.int (cells.length + vals.length), Value.ofCells (pushCells lp cells vals)) := by
  obtain ⟨lv, readMeta, describes⟩ := view.eval_getListMetaVal
  obtain ⟨lv', world', run, length, confined, valid⟩ :=
    view.eval_doListPush describes nonempty small lp
  have pushedNonempty : pushCells lp cells vals ≠ [] := by
    cases lp <;> simp [pushCells, nonempty]
  refine ⟨world', _, ?_, confined, valid, by simp [Value.ofCells, pushedNonempty]⟩
  have nonneg : ¬(if cells = [] then (0 : Int) else 1) < 0 := by split_ifs <;> decide
  have goesOn : ¬(((!create) = true) ∧ (if cells = [] then (0 : Int) else 1) = 0) := by
    rintro ⟨noCreate, absent⟩
    rcases allowed with rfl | live
    · simp at noCreate
    · simp [live] at absent
  have committed : ¬((1 : Int) < 0) := by decide
  simp only [procPush, if_neg nonempty, listPush, eval_recordKeyLock, Program.eval_bind, readMeta,
    if_neg nonneg, if_neg goesOn, run, Program.pure_eq_done, Program.eval_done, if_neg committed,
    length]
  rfl

theorem ListView.llen (view : ListView world.db.contents key state cells left version) :
    Refines (procLlen key.1) world key (.int cells.length, Value.ofCells cells) := by
  obtain ⟨lv, readMeta, describes⟩ := view.eval_getListMetaVal
  apply view.refines_self
  by_cases absent : cells = []
  · simp [procLlen, lLen, readMeta, absent]
  · have nonneg : ¬((1 : Int) < 0) := by decide
    simp only [procLlen, lLen, Program.eval_bind, readMeta, if_neg absent, Program.pure_eq_done,
      Program.eval_done, if_neg nonneg, if_true, describes.lengthEq,
      UInt64.toNat_ofNat_of_lt' view.small]

theorem ListView.lindex (view : ListView world.db.contents key state cells left version)
    (index : Int64) :
    Refines (procLindex key.1 index) world key
      (ListCommand.replyOption ((listPosition cells index.toInt).bind (cells[·]?)),
        Value.ofCells cells) := by
  obtain ⟨lv, readMeta, describes⟩ := view.eval_getListMetaVal
  apply view.refines_self
  by_cases absent : cells = []
  · subst absent
    have nothing : listPosition [] index.toInt = none := by
      unfold listPosition
      simp only [List.length_nil]
      split_ifs <;> simp_all <;> omega
    simp [procLindex, replyValue, lIndex, readMeta, nothing, ListCommand.replyOption]
  · have item := eval_getListItemValInternal world key version
      (getSeqByIndex index lv)
    rw [view.stored.items, cell_getSeqByIndex describes index view.small] at item
    simp only [procLindex, replyValue, lIndex, Program.eval_bind, readMeta, if_neg absent, if_true,
      describes.versionEq, item]
    cases (listPosition cells index.toInt).bind (cells[·]?) <;> simp [ListCommand.replyOption]

/-- The value at an end. -/
def endCell (lp : ListPosition) (cells : List Bytes) : Option Bytes :=
  match lp with
  | .head => cells.head?
  | .tail => cells.getLast?

/-- The cells without the one at an end. -/
def popCells (lp : ListPosition) (cells : List Bytes) : List Bytes :=
  match lp with
  | .head => cells.tail
  | .tail => cells.dropLast

theorem length_popCells (lp : ListPosition) : (popCells lp cells).length = cells.length - 1 := by
  cases lp <;> simp [popCells]

theorem ofNat_pred {n : Nat} (positive : 0 < n) : UInt64.ofNat (n - 1) = UInt64.ofNat n - 1 := by
  obtain ⟨m, rfl⟩ := Nat.exists_eq_succ_of_ne_zero positive.ne'
  rw [Nat.succ_eq_add_one, Nat.add_sub_cancel, UInt64.ofNat_add]
  exact (UInt64.add_sub_cancel _ _).symm

/-- The number of the cell at an end. -/
def endSeq (lp : ListPosition) (lv : ListMetaVal) : UInt64 :=
  match lp with
  | .head => lv.leftSeq
  | .tail => lv.rightSeq

/-- The metadata after the cell at an end is gone. -/
def popMeta (lp : ListPosition) (lv : ListMetaVal) : ListMetaVal :=
  match lp with
  | .head => { lv with leftSeq := seqAfter lv.leftSeq, length := lv.length - 1 }
  | .tail => { lv with rightSeq := seqBefore lv.rightSeq, length := lv.length - 1 }

/-- Removing the cell at an end leaves the window of the others. -/
theorem pop_window {lv : ListMetaVal} (describes : lv.Describes cells left version)
    (live : cells ≠ []) (small : cells.length < 2 ^ 64) (lp : ListPosition) :
    ∃ left' val, endCell lp cells = some val ∧
      Window.cell cells left (endSeq lp lv) = some val ∧
      (popMeta lp lv).Describes (popCells lp cells) left' version ∧
      ∀ s, Window.cell (popCells lp cells) left' s =
        if s = endSeq lp lv then none else Window.cell cells left s := by
  have positive := List.length_pos_of_ne_nil live
  have length : lv.length - 1 = UInt64.ofNat (popCells lp cells).length := by
    rw [length_popCells, ofNat_pred positive, describes.lengthEq]
  cases lp with
  | head =>
      obtain ⟨val, rest, rfl⟩ := List.exists_cons_of_ne_nil live
      refine ⟨left + 1, val, rfl, ?_, ?_, ?_⟩
      · rw [endSeq, describes.leftEq, Window.cell, UInt64.sub_self]
        rfl
      · refine ⟨describes.delEq, describes.versionEq, length, ?_, ?_⟩
        · show seqAfter lv.leftSeq = left + 1
          rw [seqAfter_eq, describes.leftEq]
        · show lv.rightSeq = _
          rw [describes.rightEq, length_popCells, ofNat_pred positive]
          grind
      · intro s
        rw [endSeq, describes.leftEq]
        exact Window.cell_tail small left s
  | tail =>
      have last : left + UInt64.ofNat cells.length - 1 =
          left + UInt64.ofNat (cells.length - 1) := by
        rw [ofNat_pred positive]
        grind
      refine ⟨left, cells.getLast live, List.getLast?_eq_some_getLast live, ?_, ?_, ?_⟩
      · rw [endSeq, describes.rightEq, last, Window.cell_at (by omega), ← List.getLast?_eq_getElem?,
          List.getLast?_eq_some_getLast live]
      · refine ⟨describes.delEq, describes.versionEq, length, describes.leftEq, ?_⟩
        show seqBefore lv.rightSeq = _
        rw [seqBefore_eq, describes.rightEq, length_popCells, ofNat_pred positive]
        grind
      · intro s
        rw [endSeq, describes.rightEq]
        exact Window.cell_dropLast small live left s

theorem doListPop_eq (name metaKey : Bytes) (lv : ListMetaVal) (lp : ListPosition) :
    doListPop name metaKey lv lp = (do
      let lastItemKey := encodeListKey name (endSeq lp lv) lv.version
      let (ret, val) ← getListItemValInternal lastItemKey
      if ret = 1 then
        if lv.length - 1 = 0 then
          let batch ← deleteList name metaKey lv.length lv.version [.delete lastItemKey]
          if ← commitBatch batch then return (0, some val) else return (storageErr, some val)
        else if ← commitBatch [.put metaKey (encodeValueListMeta (popMeta lp lv)),
            .delete lastItemKey] then return (1, some val)
        else return (storageErr, some val)
      else return (ret, none)) := by
  cases lp <;> rfl

/-- Popping a live list. -/
theorem ListView.eval_doListPop (view : ListView world.db.contents key state cells left version)
    {lv : ListMetaVal} (describes : lv.Describes cells left version) (live : cells ≠ [])
    (lp : ListPosition) :
    ∃ ret world' state', 0 ≤ ret ∧
      (doListPop key.1 (encodeMetaKey key.1) lv lp).eval atomically world =
        ((ret, endCell lp cells), world') ∧
      Confined key world.db world'.db ∧ KeyValid world'.db.contents key state' ∧
      state'.map Prod.snd = Value.ofCells (popCells lp cells) := by
  obtain ⟨left', val, endEq, item, popped, changes⟩ := pop_window describes live view.small lp
  have positive := List.length_pos_of_ne_nil live
  have read := eval_getListItemValInternal world key version
    (endSeq lp lv)
  rw [view.stored.items, item] at read
  have one : ((1 : Int) = 1) := rfl
  have emptied : lv.length - 1 = 0 ↔ popCells lp cells = [] := by
    rw [describes.lengthEq, ← ofNat_pred positive, ← List.length_eq_zero_iff, length_popCells,
      ← UInt64.toNat_inj, UInt64.toNat_ofNat_of_lt' (show _ < 2 ^ 64 by have := view.small; omega)]
    rfl
  by_cases last : popCells lp cells = []
  · have areCells : ∀ u ∈ [(⟨.item key version (be64 (endSeq lp lv)), none⟩ : Update)],
        u.IsCell key version := by
      intro u mem
      rw [List.mem_singleton.mp mem]
      exact ⟨_, rfl⟩
    obtain ⟨confined, valid⟩ := view.erase live lv.length areCells
    refine ⟨0, (world.delFastKey key.1).withDB _, none, le_rfl, ?_, confined, valid,
      by simp [Value.ofCells, last]⟩
    have deleted := eval_deleteList world key version lv.length
      [⟨.item key version (be64 (endSeq lp lv)), none⟩]
    have batch : [(⟨.item key version (be64 (endSeq lp lv)), none⟩ : Update)].map Update.encode =
        [.delete (encodeListKey key.1 (endSeq lp lv) version)] := rfl
    rw [batch] at deleted
    simp only [doListPop_eq, Program.eval_bind, describes.versionEq, read, if_true,
      if_pos (emptied.mpr last), deleted, eval_commitBatch_encode, Program.pure_eq_done,
      Program.eval_done, endEq]
    rfl
  · have putMeta : encodeValueListMeta (popMeta lp lv) =
        encodeListMetaVal (UInt64.ofNat (popCells lp cells).length) left'
          (left' + UInt64.ofNat (popCells lp cells).length - 1) version := by
      rw [encodeValueListMeta, popped.delEq, popped.versionEq, popped.lengthEq, popped.leftEq,
        popped.rightEq]
    obtain ⟨confined, valid⟩ := view.write
      [⟨.metadata key, some (encodeValueListMeta (popMeta lp lv))⟩,
        ⟨.item key version (be64 (endSeq lp lv)), none⟩] (popCells lp cells) left' (by
        intro u mem
        simp only [List.mem_cons, List.not_mem_nil, or_false] at mem
        rcases mem with rfl | rfl
        · exact Or.inr rfl
        · exact Or.inl ⟨_, rfl⟩) (by simp [putMeta]) rfl
      ((view.stored.applyAll
        [⟨.metadata key, some (encodeValueListMeta (popMeta lp lv))⟩]
        (by simp) (by simp)).update changes) last
      (by rw [length_popCells]; have := view.small; omega)
    refine ⟨1, world.withDB (WriteBatch.apply (List.map Update.encode
        [⟨.metadata key, some (encodeValueListMeta (popMeta lp lv))⟩,
          ⟨.item key version (be64 (endSeq lp lv)), none⟩]) world.db), _, by decide, ?_, confined,
      valid, by simp [Value.ofCells, last]⟩
    have batch : [BatchOp.put (encodeMetaKey key.1) (encodeValueListMeta (popMeta lp lv)),
        .delete (encodeListKey key.1 (endSeq lp lv) version)] =
        [(⟨.metadata key, some (encodeValueListMeta (popMeta lp lv))⟩ : Update),
          ⟨.item key version (be64 (endSeq lp lv)), none⟩].map Update.encode := rfl
    simp only [doListPop_eq, Program.eval_bind, describes.versionEq, read, if_true,
      if_neg (mt emptied.mp last), batch, eval_commitBatch_encode, Program.pure_eq_done,
      Program.eval_done, endEq]

theorem ListView.pop (view : ListView world.db.contents key state cells left version)
    (lp : ListPosition) :
    Refines (replyValue (listPop key.1 lp)) world key
      (ListCommand.replyOption (endCell lp cells), Value.ofCells (popCells lp cells)) := by
  obtain ⟨lv, readMeta, describes⟩ := view.eval_getListMetaVal
  by_cases absent : cells = []
  · have nothing : endCell lp cells = none ∧ popCells lp cells = cells := by
      subst absent
      cases lp <;> exact ⟨rfl, rfl⟩
    rw [nothing.1, nothing.2]
    apply view.refines_self
    simp [replyValue, listPop, readMeta, absent, ListCommand.replyOption]
  · have nonzero : lv.length ≠ 0 := by
      rw [describes.lengthEq, ← UInt64.toNat_inj.ne, UInt64.toNat_ofNat_of_lt' view.small]
      exact (List.length_pos_of_ne_nil absent).ne'
    obtain ⟨ret, world', state', nonneg, run, confined, valid, value⟩ :=
      view.eval_doListPop describes absent lp
    refine ⟨world', state', ?_, confined, valid, value⟩
    simp only [replyValue, listPop, Program.eval_bind, eval_recordKeyLock, readMeta, if_neg absent,
      ne_eq, not_true_eq_false, if_false, if_neg nonzero, run, if_neg (not_lt.mpr nonneg)]
    cases endCell lp cells <;> rfl

/-- The bounds of `lSet` accept exactly the indices of the list, except that a list of 2^63 - 1
cells accepts every index. -/
theorem lSet_bounds {lv : ListMetaVal} (describes : lv.Describes cells left version)
    (small : cells.length < 2 ^ 64) (live : cells ≠ []) {index : Int64}
    (admissible : cells.length = 2 ^ 63 - 1 → index ≠ int64Max ∧ index ≠ int64Min) :
    let bounds := if lv.length < uint64Max / 2 then ((-lv.length).toInt64, (lv.length - 1).toInt64)
      else (int64Min, int64Max)
    (index > bounds.2 ∨ index < bounds.1) ↔ listPosition cells index.toInt = none := by
  have positive := List.length_pos_of_ne_nil live
  have lengthNat : lv.length.toNat = cells.length := by
    rw [describes.lengthEq, UInt64.toNat_ofNat_of_lt' small]
  have half : (uint64Max / 2).toNat = 2 ^ 63 - 1 := by decide
  have lower := index.le_toInt
  have upper := index.toInt_lt
  have minInt : int64Min.toInt = -2 ^ 63 := by decide
  have maxInt : int64Max.toInt = 2 ^ 63 - 1 := by decide
  intro bounds
  rw [listPosition_eq_none, gt_iff_lt, Int64.lt_iff_toInt_lt, Int64.lt_iff_toInt_lt]
  by_cases short : lv.length < uint64Max / 2
  · have shortNat : cells.length < 2 ^ 63 - 1 := by
      rwa [UInt64.lt_iff_toNat_lt, half, lengthNat] at short
    have first : (-lv.length).toInt64.toInt = -cells.length := by
      have negated : (-lv.length).toNat = 2 ^ 64 - cells.length := by
        rw [UInt64.toNat_neg, lengthNat]
        exact Nat.mod_eq_of_lt (by simp only [UInt64.size]; omega)
      rw [toInt_toInt64, negated]
      split_ifs <;> omega
    have last : (lv.length - 1).toInt64.toInt = cells.length - 1 := by
      have pred : (lv.length - 1).toNat = cells.length - 1 := by
        rw [describes.lengthEq, ← ofNat_pred positive]
        exact UInt64.toNat_ofNat_of_lt' (show cells.length - 1 < 2 ^ 64 by omega)
      rw [toInt_toInt64, pred]
      split_ifs <;> omega
    simp only [bounds, if_pos short, first, last]
    omega
  · have longNat : 2 ^ 63 - 1 ≤ cells.length := by
      rw [UInt64.lt_iff_toNat_lt, half, lengthNat] at short
      omega
    have edge : cells.length = 2 ^ 63 - 1 → index.toInt ≠ 2 ^ 63 - 1 ∧ index.toInt ≠ -2 ^ 63 := by
      intro full
      obtain ⟨notMax, notMin⟩ := admissible full
      rw [← Int64.toInt_inj.ne, maxInt] at notMax
      rw [← Int64.toInt_inj.ne, minInt] at notMin
      exact ⟨notMax, notMin⟩
    simp only [bounds, if_neg short, minInt, maxInt]
    omega

theorem ListView.lset (view : ListView world.db.contents key state cells left version)
    {index : Int64} (val : Bytes)
    (admissible : cells.length = 2 ^ 63 - 1 → index ≠ int64Max ∧ index ≠ int64Min) :
    Refines (procLset key.1 index val) world key
      ((ListCommand.denote cells (.lset key.1 index val)).1,
        Value.ofCells (ListCommand.denote cells (.lset key.1 index val)).2) := by
  obtain ⟨lv, readMeta, describes⟩ := view.eval_getListMetaVal
  by_cases absent : cells = []
  · subst absent
    apply view.refines_self
    simp [procLset, lSet, readMeta, ListCommand.denote]
  · have bounds := lSet_bounds describes view.small absent admissible
    simp only [ListCommand.denote, if_neg absent]
    cases position : listPosition cells index.toInt with
    | none =>
        have outside := bounds.mpr position
        have code : indexOutOfRange < 0 := by decide
        apply view.refines_self
        simp only [procLset, lSet, eval_recordKeyLock, Program.eval_bind, readMeta, if_neg absent,
          ne_eq, not_true_eq_false, if_false, if_pos outside, Program.pure_eq_done,
          Program.eval_done, if_pos code]
    | some i =>
        have inside := mt bounds.mp (by rw [position]; simp)
        obtain ⟨seq, below⟩ := getSeqByIndex_of_position describes view.small position
        have metadata : world.db.contents (.metadata key) =
            some (encodeListMetaVal (UInt64.ofNat (cells.set i val).length) left
              (left + UInt64.ofNat (cells.set i val).length - 1) version) := by
          have found := view.metadata
          rw [List.length_set]
          cases state with
          | none => exact absurd found.1 absent
          | some live => exact found.2.2
        have nonempty : cells.set i val ≠ [] := by simpa using absent
        obtain ⟨confined, valid⟩ := view.write
          [⟨.item key version (be64 (left + UInt64.ofNat i)), some val⟩] (cells.set i val) left (by
            intro u mem
            rw [List.mem_singleton.mp mem]
            exact Or.inl ⟨_, rfl⟩) (by simpa using metadata) rfl
          (view.stored.update (Window.cell_set below view.small val left)) nonempty
          (by rw [List.length_set]; exact view.small)
        refine ⟨world.withDB (WriteBatch.apply (List.map Update.encode
          [⟨.item key version (be64 (left + UInt64.ofNat i)), some val⟩]) world.db), _, ?_,
            confined,
          valid, by simp [Value.ofCells, absent]⟩
        have batch : [BatchOp.put (encodeListKey key.1 (left + UInt64.ofNat i) version) val] =
            [(⟨.item key version (be64 (left + UInt64.ofNat i)), some val⟩ : Update)].map
              Update.encode := rfl
        have committed : ¬((1 : Int) < 0) := by decide
        simp only [procLset, lSet, eval_recordKeyLock, Program.eval_bind, readMeta, if_neg absent,
          ne_eq, not_true_eq_false, if_false, if_neg inside, seq, describes.versionEq, batch,
          eval_commitBatch_encode, if_true, Program.pure_eq_done, Program.eval_done,
          if_neg committed, one_ne_zero]

theorem toInt_rangeBounds (llen : Int64) (nonneg : 0 ≤ llen.toInt) (start stop : Int64) :
    (rangeBounds llen start stop).1.toInt =
        max 0 (if start.toInt < 0 then llen.toInt + start.toInt else start.toInt) ∧
      (rangeBounds llen start stop).2.toInt =
        if stop.toInt < 0 then llen.toInt + stop.toInt else stop.toInt := by
  have upper := llen.toInt_lt
  have sum : ∀ n : Int64, n.toInt < 0 → (llen + n).toInt = llen.toInt + n.toInt := by
    intro n negative
    have lower := n.le_toInt
    exact toInt_add_of_range (by omega) (by omega)
  have sign : ∀ n : Int64, n < 0 ↔ n.toInt < 0 := toInt_lt_zero
  simp only [rangeBounds, sign]
  have zero : (0 : Int64).toInt = 0 := rfl
  constructor
  · by_cases negative : start.toInt < 0
    · simp only [if_pos negative]
      split_ifs with below <;> rw [sum start negative] at * <;> omega
    · simp only [if_neg negative]
      omega
  · by_cases negative : stop.toInt < 0
    · simp only [if_pos negative, sum stop negative]
    · simp only [if_neg negative]

/-- A range is empty, or it is a block of the list with known ends. -/
theorem range_window {lv : ListMetaVal} (describes : lv.Describes cells left version)
    (small : cells.length < 2 ^ 63) (start stop : Int64) :
    let llen := lv.length.toInt64
    let bounds := rangeBounds llen start stop
    let stop' := if bounds.2 ≥ llen then llen - 1 else bounds.2
    if bounds.1 > bounds.2 ∨ bounds.1 ≥ llen then listSlice cells start.toInt stop.toInt = []
    else ∃ i n : Nat, 0 < n ∧ i + n ≤ cells.length ∧
      listSlice cells start.toInt stop.toInt = (cells.drop i).take n ∧
      getSeqByIndex bounds.1 lv = left + UInt64.ofNat i ∧
      getSeqByIndex stop' lv = left + UInt64.ofNat (i + n - 1) ∧
      (stop' - bounds.1 + 1).toInt = n := by
  intro llen bounds stop'
  have length : llen.toInt = cells.length := by
    show lv.length.toInt64.toInt = _
    rw [toInt_toInt64, describes.lengthEq,
      UInt64.toNat_ofNat_of_lt' (show cells.length < 2 ^ 64 by omega)]
    split_ifs
    omega
  obtain ⟨first, last⟩ := toInt_rangeBounds llen (by omega) start stop
  have sliceEq : listSlice cells start.toInt stop.toInt =
      (cells.take (bounds.2.toInt + 1).toNat).drop bounds.1.toInt.toNat := by
    rw [listSlice, first, last, length]
    congr 1
    omega
  have upper := bounds.2.toInt_lt
  have lowest : 0 ≤ bounds.1.toInt := by
    show 0 ≤ (rangeBounds llen start stop).1.toInt
    rw [first]
    exact le_max_left _ _
  clear first last
  have lastStop : stop'.toInt = min bounds.2.toInt (cells.length - 1) := by
    show (if bounds.2 ≥ llen then llen - 1 else bounds.2).toInt = _
    have pred : (llen - 1).toInt = cells.length - 1 := by
      rw [toInt_sub_of_range (by rw [length, toInt_one]; omega) (by rw [length, toInt_one]; omega),
        length, toInt_one]
    have order : bounds.2 ≥ llen ↔ llen.toInt ≤ bounds.2.toInt := Int64.le_iff_toInt_le
    split_ifs with beyond
    · rw [order] at beyond
      omega
    · rw [order] at beyond
      omega
  have order : (bounds.1 > bounds.2 ∨ bounds.1 ≥ llen) ↔
      (bounds.2.toInt < bounds.1.toInt ∨ llen.toInt ≤ bounds.1.toInt) :=
    or_congr Int64.lt_iff_toInt_lt Int64.le_iff_toInt_le
  split_ifs with empty <;> rw [order] at empty
  · rw [sliceEq, List.drop_eq_nil_iff, List.length_take]
    omega
  · have position : listPosition cells bounds.1.toInt = some bounds.1.toInt.toNat :=
      listPosition_eq_some.mpr (by omega)
    have position' : listPosition cells stop'.toInt = some stop'.toInt.toNat :=
      listPosition_eq_some.mpr (by omega)
    have large : cells.length < 2 ^ 64 := by omega
    refine ⟨bounds.1.toInt.toNat, stop'.toInt.toNat + 1 - bounds.1.toInt.toNat, by omega, by omega,
      ?_, (getSeqByIndex_of_position describes large position).1, ?_, ?_⟩
    · rw [sliceEq, List.drop_take]
      rcases le_total (cells.length - 1 : Int) bounds.2.toInt with beyond | within
      · rw [List.take_of_length_le (by rw [List.length_drop]; omega),
          List.take_of_length_le (by rw [List.length_drop]; omega)]
      · congr 1
        omega
    · rw [(getSeqByIndex_of_position describes large position').1]
      congr 2
      omega
    · have width : (stop' - bounds.1).toInt = stop'.toInt - bounds.1.toInt :=
        toInt_sub_of_range (by omega) (by omega)
      rw [toInt_add_of_range (by rw [width, toInt_one]; omega) (by rw [width, toInt_one]; omega),
        width, toInt_one]
      omega

theorem snapshotGet_eq (db : DB) (raw : Bytes) :
    (snapshotGet db raw).eval atomically world = (ReadStatus.ofOption (db.get raw), world) := rfl

/-- The cells of a window are stored under consecutive list keys. -/
theorem CellsAt.get_listKey {db : DB} (stored : CellsAt db.contents key version cells left)
    (small : cells.length < 2 ^ 64) {i : Nat} (inside : i < cells.length) :
    db.get (encodeListKey key.1 (left + UInt64.ofNat i) version) = cells[i]? :=
  (stored.items _).trans (Window.cell_at (by omega))

/-- A loop over cells of the window reads them in order. -/
theorem eval_rangeLoop {db : DB} {key : Bytes}
    (stored : ∀ i < cells.length,
      db.get (encodeListKey key (left + UInt64.ofNat i) version) = cells[i]?)
    {n i : Nat} (inside : i + n ≤ cells.length) (list : List Bytes) :
    (rangeLoop db key version n (left + UInt64.ofNat i) list).eval atomically world =
      (.ok (list ++ (cells.drop i).take n), world) := by
  induction n generalizing i list with
  | zero => simp [rangeLoop]
  | succ n ih =>
      have below : i < cells.length := by omega
      have found : db.get (encodeListKey key (left + UInt64.ofNat i) version) = some cells[i] := by
        rw [stored i below, List.getElem?_eq_getElem]
      have next : seqAfter (left + UInt64.ofNat i) = left + UInt64.ofNat (i + 1) := by
        rw [seqAfter_eq, UInt64.ofNat_add]
        have one : UInt64.ofNat 1 = 1 := rfl
        rw [one, UInt64.add_assoc]
      have block : (cells.drop i).take (n + 1) = cells[i] ::
          (cells.drop (i + 1)).take n := by
        rw [List.drop_eq_getElem_cons (by omega), List.take_succ_cons]
      simp only [rangeLoop, Program.eval_bind, snapshotGet_eq, found, ReadStatus.ofOption,
        listItemVal, ne_eq, not_true_eq_false, if_false, next]
      rw [ih (by omega), block, List.append_assoc, List.singleton_append]

theorem ListView.lrange (view : ListView world.db.contents key state cells left version)
    (small : cells.length < 2 ^ 63) (start stop : Int64) :
    Refines (procLrange key.1 start stop) world key
      (.strings (listSlice cells start.toInt stop.toInt), Value.ofCells cells) := by
  obtain ⟨lv, readMeta, describes⟩ := view.eval_getListMetaVal
  apply view.refines_self
  have nonneg : ¬((1 : Int) < 0) := by decide
  by_cases absent : cells = []
  · subst absent
    simp [procLrange, Vcdb.lrange, readMeta, listSlice]
  · have window := range_window describes small start stop
    simp only at window
    by_cases empty : (rangeBounds lv.length.toInt64 start stop).1 >
        (rangeBounds lv.length.toInt64 start stop).2 ∨
      (rangeBounds lv.length.toInt64 start stop).1 ≥ lv.length.toInt64
    · rw [if_pos empty] at window
      simp only [procLrange, Vcdb.lrange, Program.eval_bind, eval_recordKeyLock, readMeta,
        if_neg absent, if_true, eval_getSnapshot, Program.pure_eq_done, Program.eval_done, ne_eq,
        not_true_eq_false, if_false, if_pos empty, if_neg nonneg, window]
    · rw [if_neg empty] at window
      obtain ⟨i, n, _, inside, slice, first, _, width⟩ := window
      simp only [procLrange, Vcdb.lrange, Program.eval_bind, eval_recordKeyLock, readMeta,
        if_neg absent, if_true, eval_getSnapshot, Program.pure_eq_done, Program.eval_done, ne_eq,
        not_true_eq_false, if_false, if_neg empty, width, first, describes.versionEq,
        Int.toNat_natCast, eval_rangeLoop (fun _ => view.stored.get_listKey view.small) inside,
        List.nil_append,
        if_neg nonneg, slice]

/-- Trimming both ends leaves a block of the cells. -/
theorem trim_window (stored : CellsAt world.db.contents key version cells left)
    (small : cells.length < 2 ^ 64) {i n : Nat} (inside : i + n ≤ cells.length) :
    ∃ updates, (trimLoop key.1 version .tail (cells.length - (i + n))
          (left + UInt64.ofNat cells.length - 1)
          (trimLoop key.1 version .head i left []).2 =
        (left + UInt64.ofNat (i + n) - 1, updates.map Update.encode)) ∧
      (trimLoop key.1 version .head i left []).1 = left + UInt64.ofNat i ∧
      (∀ u ∈ updates, u.IsCell key version) ∧
      CellsAt (world.db.contents.applyAll updates) key version ((cells.drop i).take n)
        (left + UInt64.ofNat i) := by
  obtain ⟨heads, loop, areHeads, dropped⟩ := trimLoop_head world.db.contents i [] stored small
  simp only [List.map_nil, List.nil_append] at loop dropped
  have length : (cells.drop i).length = cells.length - i := List.length_drop
  have last : left + UInt64.ofNat i + UInt64.ofNat (cells.drop i).length - 1 =
      left + UInt64.ofNat cells.length - 1 := by
    rw [length, UInt64.add_assoc, ← UInt64.ofNat_add, Nat.add_sub_cancel' (by omega)]
  obtain ⟨tails, loop', areTails, taken⟩ := trimLoop_tail world.db.contents (cells.length - (i + n))
    heads dropped (by omega) (by omega)
  have kept : (cells.drop i).length - (cells.length - (i + n)) = n := by omega
  rw [last, kept] at loop'
  rw [kept] at taken
  refine ⟨heads ++ tails, ?_, by rw [loop], ?_, taken⟩
  · rw [loop, loop', UInt64.add_assoc, ← UInt64.ofNat_add]
  · intro u mem
    exact (List.mem_append.mp mem).elim (areHeads u) (areTails u)

theorem ListView.ltrim (view : ListView world.db.contents key state cells left version)
    (small : cells.length < 2 ^ 63) (start stop : Int64) :
    Refines (procLtrim key.1 start stop) world key
      (.ok, Value.ofCells (listSlice cells start.toInt stop.toInt)) := by
  obtain ⟨lv, readMeta, describes⟩ := view.eval_getListMetaVal
  have zero : (0 : UInt64).toNat = 0 := rfl
  have lengthNat : lv.length.toNat = cells.length := by
    rw [describes.lengthEq, UInt64.toNat_ofNat_of_lt' view.small]
  by_cases absent : cells = []
  · subst absent
    rw [show listSlice [] start.toInt stop.toInt = [] by simp [listSlice]]
    apply view.refines_self
    simp [procLtrim, Vcdb.ltrim, readMeta]
  · have window := range_window describes small start stop
    simp only at window
    by_cases empty : (rangeBounds lv.length.toInt64 start stop).1 >
        (rangeBounds lv.length.toInt64 start stop).2 ∨
      (rangeBounds lv.length.toInt64 start stop).1 ≥ lv.length.toInt64
    · rw [if_pos empty] at window
      obtain ⟨updates, loop, areCells, _⟩ := trimLoop_head world.db.contents cells.length
        [] view.stored view.small
      simp only [List.map_nil, List.nil_append] at loop
      obtain ⟨confined, valid⟩ := view.erase absent 0 areCells
      have deleted := eval_deleteList world key version 0 updates
      have gone : lv.length - (lv.length + 0) = 0 := by grind
      have code : ¬((0 : Int) < 0) := by decide
      refine ⟨(world.delFastKey key.1).withDB _, none, ?_, confined, valid,
        by simp [window, Value.ofCells]⟩
      simp only [procLtrim, Vcdb.ltrim, Program.eval_bind, eval_recordKeyLock, readMeta,
        if_neg absent, ne_eq, not_true_eq_false, if_false, if_pos empty, describes.versionEq,
        describes.leftEq, lengthNat, loop, zero, trimLoop, gone, if_true, deleted,
        eval_commitBatch_encode, Program.pure_eq_done, Program.eval_done, if_neg code]
      rfl
    · rw [if_neg empty] at window
      obtain ⟨i, n, positive, inside, slice, first, last, _⟩ := window
      obtain ⟨updates, tail, head, areCells, stored⟩ := trim_window view.stored
        view.small inside
      have length : ((cells.drop i).take n).length = n := by
        rw [List.length_take, List.length_drop]
        omega
      have nonempty : (cells.drop i).take n ≠ [] := List.ne_nil_of_length_pos (by omega)
      have ltrimEq : left + UInt64.ofNat i - left = UInt64.ofNat i := by grind
      have rtrimEq : left + UInt64.ofNat cells.length - 1 - (left + UInt64.ofNat (i + n - 1)) =
          UInt64.ofNat (cells.length - (i + n)) := by
        have whole : UInt64.ofNat cells.length = UInt64.ofNat (cells.length - (i + n)) +
            UInt64.ofNat (i + n - 1) + 1 := by
          have one : (1 : UInt64) = UInt64.ofNat 1 := rfl
          rw [one, ← UInt64.ofNat_add, ← UInt64.ofNat_add]
          congr 1
          omega
        rw [whole]
        grind
      have ltrimNat : (UInt64.ofNat i).toNat = i :=
        UInt64.toNat_ofNat_of_lt' (show i < 2 ^ 64 by omega)
      have rtrimNat : (UInt64.ofNat (cells.length - (i + n))).toNat = cells.length - (i + n) :=
        UInt64.toNat_ofNat_of_lt' (show _ < 2 ^ 64 by omega)
      have kept : lv.length - (UInt64.ofNat i + UInt64.ofNat (cells.length - (i + n))) =
          UInt64.ofNat n := by
        have whole : UInt64.ofNat cells.length = UInt64.ofNat n +
            (UInt64.ofNat i + UInt64.ofNat (cells.length - (i + n))) := by
          rw [← UInt64.ofNat_add, ← UInt64.ofNat_add]
          congr 1
          omega
        rw [describes.lengthEq, whole, UInt64.add_sub_cancel]
      have keptNonzero : UInt64.ofNat n ≠ 0 := by
        rw [← UInt64.toNat_inj.ne, UInt64.toNat_ofNat_of_lt' (show n < 2 ^ 64 by omega)]
        exact positive.ne'
      obtain ⟨world', run, confined, valid⟩ := view.write_cells areCells stored nonempty
        (by omega) ({ lv with
          leftSeq := left + UInt64.ofNat i
          rightSeq := left + UInt64.ofNat (i + n) - 1
          length := UInt64.ofNat n })
        ⟨describes.delEq, describes.versionEq, by rw [length], rfl, by
          rw [length, UInt64.ofNat_add, ← UInt64.add_assoc]⟩
      rw [describes.versionEq] at run
      have code : ¬((1 : Int) < 0) := by decide
      refine ⟨world', _, ?_, confined, valid, by simp [slice, Value.ofCells, nonempty]⟩
      simp only [procLtrim, Vcdb.ltrim, Program.eval_bind, eval_recordKeyLock, readMeta,
        if_neg absent, ne_eq, not_true_eq_false, if_false, if_neg empty, first, last,
        describes.versionEq, describes.leftEq, describes.rightEq, ltrimEq, rtrimEq, ltrimNat,
        rtrimNat, kept, tail, head, if_neg keptNonzero, run, if_true, Program.pure_eq_done,
        Program.eval_done, if_neg code]

/-- What a command may be asked of a list with one cell less than half of the sequence numbers. -/
def ListCommand.Admissible (cells : List Bytes) : ListCommand → Prop
  | .lset _ index _ => cells.length = 2 ^ 63 - 1 → index ≠ int64Max ∧ index ≠ int64Min
  | _ => True

/-- A push that may not create a list leaves a missing one alone. -/
theorem ListView.push_absent (view : ListView world.db.contents key state [] left version)
    {vals : List Bytes} (nonempty : vals ≠ []) (lp : ListPosition) :
    Refines (procPush (fun key vals => listPush key vals lp false) key.1 vals) world key
      (.int 0, Value.ofCells []) := by
  obtain ⟨lv, readMeta, _⟩ := view.eval_getListMetaVal
  apply view.refines_self
  simp [procPush, nonempty, listPush, readMeta]

/-- Every list command with enough arguments computes its meaning on the sequence. -/
theorem ListView.refines (view : ListView world.db.contents key state cells left version)
    {command : ListCommand} (own : command.key = key.1) (complete : command.argumentError = none)
    (short : cells.length < 2 ^ 63) (admissible : command.Admissible cells)
    (short' : (command.denote cells).2.length < 2 ^ 63) :
    Refines command.run world key
      ((command.denote cells).1, Value.ofCells (command.denote cells).2) := by
  have room : ∀ (lp : ListPosition) {vals : List Bytes}, (pushCells lp cells vals).length < 2 ^ 63 →
      cells.length + vals.length < 2 ^ 64 := by
    intro lp vals bound
    rw [length_pushCells] at bound
    omega
  have someVals : ∀ (make : List Bytes → ListCommand) {vals : List Bytes},
      (make vals).argumentError = none → (make []).argumentError ≠ none → vals ≠ [] := by
    rintro make _ complete incomplete rfl
    exact incomplete complete
  cases command with
  | lpush name vals =>
      cases own
      exact view.push (someVals (.lpush key.1) complete (by simp [ListCommand.argumentError]))
        (room .head short') .head (Or.inl rfl)
  | rpush name vals =>
      cases own
      exact view.push (someVals (.rpush key.1) complete (by simp [ListCommand.argumentError]))
        (room .tail short') .tail (Or.inl rfl)
  | lpushx name vals =>
      cases own
      have nonempty := someVals (.lpushx key.1) complete
        (by simp [ListCommand.argumentError])
      by_cases absent : cells = []
      · subst absent
        exact view.push_absent nonempty .head
      · simp only [ListCommand.denote, if_neg absent] at short' ⊢
        exact view.push nonempty (room .head short') .head (Or.inr absent)
  | rpushx name vals =>
      cases own
      have nonempty := someVals (.rpushx key.1) complete
        (by simp [ListCommand.argumentError])
      by_cases absent : cells = []
      · subst absent
        exact view.push_absent nonempty .tail
      · simp only [ListCommand.denote, if_neg absent] at short' ⊢
        exact view.push nonempty (room .tail short') .tail (Or.inr absent)
  | lpop name => cases own; exact view.pop .head
  | rpop name => cases own; exact view.pop .tail
  | lset name index val => cases own; exact view.lset val admissible
  | ltrim name start stop => cases own; exact view.ltrim short start stop
  | lindex name index => cases own; exact view.lindex index
  | lrange name start stop => cases own; exact view.lrange short start stop
  | llen name => cases own; exact view.llen

end Commands

namespace ListCommand

/-- A request with too few arguments is refused before the store is read. -/
theorem eval_incomplete {world : World} {command : ListCommand} {reply : Reply}
    (incomplete : command.argumentError = some reply) :
    command.run.eval atomically world = (reply, world) := by
  match command, incomplete with
  | .lpush _ [], rfl => rfl
  | .rpush _ [], rfl => rfl
  | .lpushx _ [], rfl => rfl
  | .rpushx _ [], rfl => rfl

/-- On a key of another type every list command reports the error and does nothing. -/
theorem eval_wrongType {world : World} {key : UserKey} {version : UInt16} {value : Value}
    (live : world.db.contents.LiveAs key version value) (other : value.type ≠ DataType.lsize)
    {command : ListCommand} (own : command.key = key.1) (complete : command.argumentError = none) :
    command.run.eval atomically world = (.error wrongTypeErr, world) := by
  obtain ⟨lv, readMeta⟩ := eval_getListMetaVal_wrongType live other
  have negative : wrongTypeErr < 0 := by decide
  have notOne : wrongTypeErr ≠ 1 := by decide
  have push : ∀ (lp : ListPosition) (create : Bool) {vals : List Bytes}, vals ≠ [] →
      (procPush (fun key vals => listPush key vals lp create) key.1 vals).eval atomically world =
        (.error wrongTypeErr, world) := by
    intro lp create vals nonempty
    simp [procPush, nonempty, listPush, readMeta, negative]
  cases command <;> cases own
  case lpush vals =>
    exact push .head true (by rintro rfl; simp [argumentError] at complete)
  case rpush vals =>
    exact push .tail true (by rintro rfl; simp [argumentError] at complete)
  case lpushx vals =>
    exact push .head false (by rintro rfl; simp [argumentError] at complete)
  case rpushx vals =>
    exact push .tail false (by rintro rfl; simp [argumentError] at complete)
  all_goals simp [run, procLpop, procRpop, procLset, procLtrim, procLindex, procLrange, procLlen,
    replyValue, lPop, rPop, listPop, lSet, Vcdb.ltrim, lIndex, Vcdb.lrange, lLen, readMeta,
      negative,
    notOne]

/-- On a missing key only a push creates a list; the others answer as on the empty sequence. -/
theorem eval_idle {world : World} {key : UserKey} (valid : KeyValid world.db.contents key none)
    {command : ListCommand} (own : command.key = key.1) (complete : command.argumentError = none)
    (creates : (command.denote []).2 = []) :
    command.run.eval atomically world = ((command.denote []).1, world) := by
  obtain ⟨lv, readMeta, _⟩ := eval_getListMetaVal_idle valid
  have nothing : ∀ index : Int, listPosition [] index = none := by
    intro index
    rw [listPosition_eq_none]
    simp
    omega
  have pushx : ∀ (lp : ListPosition) {vals : List Bytes}, vals ≠ [] →
      (procPush (fun key vals => listPush key vals lp false) key.1 vals).eval atomically world =
        (.int 0, world) := by
    intro lp vals nonempty
    simp [procPush, nonempty, listPush, readMeta]
  cases command <;> cases own
  case lpush vals =>
    obtain rfl : vals = [] := by simpa [denote] using creates
    simp [argumentError] at complete
  case rpush vals =>
    obtain rfl : vals = [] := by simpa [denote] using creates
    simp [argumentError] at complete
  case lpushx vals =>
    exact pushx .head (by rintro rfl; simp [argumentError] at complete)
  case rpushx vals =>
    exact pushx .tail (by rintro rfl; simp [argumentError] at complete)
  all_goals simp [run, procLpop, procRpop, procLset, procLtrim, procLindex, procLrange, procLlen,
    replyValue, lPop, rPop, listPop, lSet, Vcdb.ltrim, lIndex, Vcdb.lrange, lLen, readMeta, denote,
    nothing, replyOption, listSlice]

/-- A list command answers and changes its key as it does on the value the key holds. -/
theorem refines {world : World} {key : UserKey} {state : Option (UInt16 × Value)}
    (valid : KeyValid world.db.contents key state) {command : ListCommand}
    (own : command.key = key.1)
    (fresh : state = none → (command.respond none).2 ≠ none → world.db.contents.Fresh key)
    (admissible : ∀ cells, state.map Prod.snd = some (.list cells) →
      cells.length < 2 ^ 63 ∧ command.Admissible cells)
    (small : ∀ cells, (command.respond (state.map Prod.snd)).2 = some (.list cells) →
      cells.length < 2 ^ 63) :
    Refines command.run world key (command.respond (state.map Prod.snd)) := by
  have stays : ∀ {reply}, command.run.eval atomically world = (reply, world) →
      Refines command.run world key (reply, state.map Prod.snd) := Refines.of_eval valid
  have bounded : ∀ cells : List Bytes, (∀ cells', Value.ofCells cells = some (.list cells') →
      cells'.length < 2 ^ 63) → cells.length < 2 ^ 63 := by
    intro cells bound
    by_cases absent : cells = []
    · simp [absent]
    · exact bound cells (by rw [Value.ofCells, if_neg absent])
  unfold respond at small ⊢
  cases complete : command.argumentError with
  | some reply => exact stays (eval_incomplete complete)
  | none =>
      rw [complete] at small
      cases state with
      | none =>
          by_cases creates : (command.denote []).2 = []
          · rw [Option.map_none, Value.ofCells, if_pos creates]
            exact stays (eval_idle valid own complete creates)
          · refine (ListView.ofIdle valid (fresh rfl ?_)).refines own complete (by simp)
              (by cases command <;> simp [Admissible]) (bounded _ small)
            simp only [respond, complete, Value.ofCells, if_neg creates]
            simp
      | some live =>
          obtain ⟨version, value⟩ := live
          cases value with
          | list cells =>
              obtain ⟨left, view⟩ := ListView.ofLive valid
              obtain ⟨short, admissible⟩ := admissible cells rfl
              exact view.refines own complete short admissible (bounded _ small)
          | string val =>
              exact stays (eval_wrongType valid.represented
                (show DataType.kv ≠ DataType.lsize by decide) own complete)
          | hash fields =>
              exact stays (eval_wrongType valid.represented
                (show DataType.hsize ≠ DataType.lsize by decide) own complete)
          | set members =>
              exact stays (eval_wrongType valid.represented
                (show DataType.ssize ≠ DataType.lsize by decide) own complete)
          | zset scores =>
              exact stays (eval_wrongType valid.represented
                (show DataType.zsize ≠ DataType.lsize by decide) own complete)

end ListCommand

end Vcdb
