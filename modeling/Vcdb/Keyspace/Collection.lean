import Vcdb.Keyspace.Representation
import Vcdb.Proc.Reply
import Vcdb.Storage.Metadata

/-!
# Collections in the keyspace

What reading the metadata of a collection returns on a valid key, and what committing a batch of
element updates with the matching change of length does to the key.
-/

namespace Vcdb

/-- Every record of another user key is as before. -/
def FrameOff (key : UserKey) (contents other : Contents) : Prop :=
  ∀ record : RecordKey, record.owner ≠ key → other record = contents record

theorem FrameOff.refl (key : UserKey) (contents : Contents) : FrameOff key contents contents :=
  fun _ _ => rfl

/-- A write for one key keeps the records of the others and does not interfere with pending
deletions. -/
structure Confined (key : UserKey) (before after : DB) : Prop where
  updated : before.Updated after
  frame : FrameOff key before.contents after.contents
  keeps : KeepsPending before.contents after.contents

theorem Confined.refl (key : UserKey) (db : DB) : Confined key db db :=
  ⟨.refl _, .refl _ _, .refl _⟩

/-- A command on one key answers as expected and leaves a valid key with the expected value; the
other keys are untouched. -/
def Refines (command : Command Reply) (world : World) (key : UserKey)
    (expected : Reply × Option Value) : Prop :=
  ∃ world' state, command.eval atomically world = (expected.1, world') ∧
    Confined key world.db world'.db ∧ KeyValid world'.db.contents key state ∧
    state.map Prod.snd = expected.2

/-- A command that only reads. -/
theorem Refines.of_eval {command : Command Reply} {world : World} {key : UserKey} {reply : Reply}
    {state : Option (UInt16 × Value)} (valid : KeyValid world.db.contents key state)
    (run : command.eval atomically world = (reply, world)) :
    Refines command world key (reply, state.map Prod.snd) :=
  ⟨world, state, run, .refl _ _, valid, rfl⟩

section Decoding

theorem decodeMetaVal_of_deleted {metaVal rest : Bytes} {header : MetaHeader}
    (decoded : decodeMetaHeader metaVal = some (header, rest))
    (flag : header.del = keyDeleteMask) :
    MetaVal.decodeMetaVal metaVal =
      .ok { type := header.type, del := header.del, version := header.version } := by
  obtain ⟨type, version, del⟩ := header
  simp only at flag
  simp only [MetaVal.decodeMetaVal, decoded, if_pos flag]

theorem decodeMetaVal_of_kv_or_list {metaVal rest : Bytes} {header : MetaHeader}
    (decoded : decodeMetaHeader metaVal = some (header, rest))
    (flag : header.del = keyEnabledMask)
    (other : header.type = DataType.kv ∨ header.type = DataType.lsize) :
    MetaVal.decodeMetaVal metaVal = .error wrongTypeErr := by
  obtain ⟨type, version, del⟩ := header
  simp only at flag other
  subst flag
  have foreign : type ≠ DataType.hsize ∧ type ≠ DataType.ssize ∧ type ≠ DataType.zsize := by
    rcases other with rfl | rfl <;> decide
  simp only [MetaVal.decodeMetaVal, decoded, if_neg enabled_ne_delete]
  exact if_pos foreign

end Decoding

section Reading

variable {world : World} {key : UserKey} {version : UInt16} {type freshType : UInt8}

theorem eval_getMetaVal_idle (type freshType : UInt8)
    (valid : KeyValid world.db.contents key none) :
    ∃ mv : MetaVal, (getMetaVal type freshType (encodeMetaKey key.1)).eval atomically world =
        ((0, mv), world) ∧
      mv.version = world.db.contents.createVersion key ∧ mv.length = 0 := by
  rw [getMetaVal, Program.eval_bind, encodeMetaKey_eq, eval_dbGet, Contents.createVersion]
  rcases valid.represented with absent | ⟨version, metaVal, header, rest, found, decoded, rfl, flag⟩
  · rw [absent]
    exact ⟨_, rfl, rfl, rfl⟩
  · simp only [found, ReadStatus.ofOption, decodeMetaVal_of_deleted decoded flag, decoded,
      if_pos flag]
    exact ⟨_, rfl, rfl, rfl⟩

theorem eval_getMetaVal_live {length : UInt64}
    (collection : type = DataType.hsize ∨ type = DataType.ssize ∨ type = DataType.zsize)
    (found : world.db.contents (.metadata key) =
      some (encodeMetaValInternal type length version keyEnabledMask)) :
    (getMetaVal type freshType (encodeMetaKey key.1)).eval atomically world =
      ((1, { type, del := keyEnabledMask, version, length }), world) := by
  rw [getMetaVal, Program.eval_bind, encodeMetaKey_eq, eval_dbGet, found]
  simp only [ReadStatus.ofOption, decodeMetaVal_encode collection, if_neg enabled_ne_delete,
    ne_eq, not_true_eq_false, if_false]
  rfl

theorem eval_getMetaVal_wrongType (freshType : UInt8) {type : UInt8} {value : Value}
    (live : world.db.contents.LiveAs key version value) (other : value.type ≠ type) :
    ∃ mv, (getMetaVal type freshType (encodeMetaKey key.1)).eval atomically world =
      ((wrongTypeErr, mv), world) := by
  have plain : ∀ {metaVal rest header},
      world.db.contents (.metadata key) = some metaVal →
      decodeMetaHeader metaVal = some (header, rest) → header.del = keyEnabledMask →
      (header.type = DataType.kv ∨ header.type = DataType.lsize) →
      ∃ mv, (getMetaVal type freshType (encodeMetaKey key.1)).eval atomically world =
        ((wrongTypeErr, mv), world) := by
    intro metaVal rest header found decoded flag foreign
    rw [getMetaVal, Program.eval_bind, encodeMetaKey_eq, eval_dbGet, found]
    simp only [ReadStatus.ofOption, decodeMetaVal_of_kv_or_list decoded flag foreign]
    exact ⟨_, rfl⟩
  have sized : ∀ {type' length},
      (type' = DataType.hsize ∨ type' = DataType.ssize ∨ type' = DataType.zsize) →
      type' ≠ type →
      world.db.contents (.metadata key) =
        some (encodeMetaValInternal type' length version keyEnabledMask) →
      ∃ mv, (getMetaVal type freshType (encodeMetaKey key.1)).eval atomically world =
        ((wrongTypeErr, mv), world) := by
    intro type' length collection ne found
    rw [getMetaVal, Program.eval_bind, encodeMetaKey_eq, eval_dbGet, found]
    simp only [ReadStatus.ofOption, decodeMetaVal_encode collection, if_neg enabled_ne_delete,
      ne_eq, ne, not_false_eq_true, if_true]
    exact ⟨_, rfl⟩
  obtain ⟨metaVal, rest, found, decoded⟩ := live.header
  cases value with
  | string val => exact plain found decoded rfl (Or.inl rfl)
  | hash fields => exact sized (Or.inl rfl) other live.2.2.1
  | set members => exact sized (Or.inr (Or.inl rfl)) other live.2.2.1
  | zset scores => exact sized (Or.inr (Or.inr rfl)) other live.2.2.1
  | list cells => exact plain found decoded rfl (Or.inr rfl)

end Reading

theorem uint64_natCast {n : Nat} (small : n < 2 ^ 64) : uint64 n = UInt64.ofNat n := by
  rw [uint64, Int.emod_eq_of_lt (by omega) (by omega), Int.toNat_natCast]

section Committing

variable {world : World} {key : UserKey} {version : UInt16} {type : UInt8}

/-- An update of an item or score entry of one version. -/
def Update.IsElement (key : UserKey) (version : UInt16) (update : Update) : Prop :=
  (∃ field, update.record = .item key version field) ∨
    ∃ score field, update.record = .zscore key version score field

theorem applyAll_of_element {contents : Contents} {updates : List Update}
    (elements : ∀ update ∈ updates, update.IsElement key version) {record : RecordKey}
    (noItem : ∀ field, record ≠ .item key version field)
    (noScore : ∀ score field, record ≠ .zscore key version score field) :
    contents.applyAll updates record = contents record := by
  apply Contents.applyAll_of_notMem
  intro update mem same
  rcases elements update mem with ⟨field, isItem⟩ | ⟨score, field, isScore⟩
  · exact noItem field (same ▸ isItem)
  · exact noScore score field (same ▸ isScore)

theorem applyAll_cancelUpdates {contents old : Contents} {record : RecordKey}
    (noExpiry : record ≠ .ekey key) (noIndex : ∀ score, record ≠ .escore score key) :
    contents.applyAll (cancelUpdates old key) record = contents record := by
  apply Contents.applyAll_of_notMem
  intro update mem same
  rcases cancelUpdates_owner mem with ⟨score, rfl⟩ | rfl
  · exact noIndex score same.symm
  · exact noExpiry same.symm

/-- The length before a write: zero for a key about to be created. -/
def LengthOf (contents : Contents) (key : UserKey) (state : Option (UInt16 × Value)) (type : UInt8)
    (version : UInt16) (n : Nat) : Prop :=
  match state with
  | none => n = 0 ∧ contents.createVersion key = version ∧ contents.Fresh key
  | some (liveVersion, _) => liveVersion = version ∧ 0 < n ∧
      contents (.metadata key) =
        some (encodeMetaValInternal type (UInt64.ofNat n) version keyEnabledMask)

/-- The metadata of a collection, or of one about to be created, gives its version and length. -/
theorem LengthOf.eval_getMetaVal {state : Option (UInt16 × Value)} {n : Nat} (freshType : UInt8)
    (collection : type = DataType.hsize ∨ type = DataType.ssize ∨ type = DataType.zsize)
    (valid : KeyValid world.db.contents key state)
    (length : LengthOf world.db.contents key state type version n) :
    ∃ mv : MetaVal, (getMetaVal type freshType (encodeMetaKey key.1)).eval atomically world =
        ((if n = 0 then 0 else 1, mv), world) ∧
      mv.version = version ∧ mv.length = UInt64.ofNat n := by
  cases state with
  | none =>
      obtain ⟨rfl, rfl, _⟩ := length
      exact eval_getMetaVal_idle _ _ valid
  | some live =>
      obtain ⟨rfl, positive, found⟩ := length
      rw [if_neg positive.ne']
      exact ⟨_, eval_getMetaVal_live collection found, rfl, rfl⟩

/-- A length change that succeeds is followed by the commit of its batch. -/
theorem eval_commitSize_of {incr : Command (Int × WriteBatch)} {batch : List Update} {iret : Int}
    {world' : World} (nonneg : 0 ≤ iret)
    (changed : incr.eval atomically world = ((iret, batch.map Update.encode), world')) :
    ∃ after, (commitSize incr).eval atomically world = ((if iret = 0 then 0 else 1), after) ∧
      world'.db.Updated after.db ∧
      after.db.contents = world'.db.contents.applyAll batch := by
  refine ⟨world'.withDB (WriteBatch.apply (batch.map Update.encode) world'.db), ?_, ⟨batch, rfl⟩, ?_⟩
  · simp only [commitSize, Program.eval_bind, changed, if_neg (not_lt.mpr nonneg),
      eval_commitBatch, if_true, Program.pure_eq_done, Program.eval_done]
  · rw [World.db_withDB, DB.contents_apply]

theorem incrSize_eq (name : Bytes) (batch : WriteBatch) (sizeKey : Bytes) {mv : MetaVal}
    {n n' : Nat} (lengthEq : mv.length = UInt64.ofNat n) (small : n < 2 ^ 64)
    (small' : n' < 2 ^ 64) (nonempty : n = 0 → 0 < n') :
    incrSize type name batch sizeKey mv (n' - n) =
      if n' = n then return (1, batch)
      else if n' = 0 then do
        let (_, batch) ← cancelExpiration name
          (batch ++ [.put (encodeDeleteKey name mv.version) [],
            .put sizeKey (encodeMetaValInternal type mv.length mv.version keyDeleteMask)])
        return (0, batch)
      else return (1, batch ++
        [.put sizeKey (encodeMetaValInternal type (UInt64.ofNat n') mv.version keyEnabledMask)]) := by
  have toNat : ∀ {m : Nat}, m < 2 ^ 64 → (UInt64.ofNat m).toNat = m := fun h =>
    UInt64.toNat_ofNat_of_lt' h
  have zeroIff : ∀ {m : Nat}, m < 2 ^ 64 → (UInt64.ofNat m = 0 ↔ m = 0) := by
    intro m h
    rw [← UInt64.toNat_inj, toNat h]
    rfl
  unfold incrSize
  by_cases created : n = 0
  · have positive := nonempty created
    subst created
    rw [if_pos (show mv.length = 0 from lengthEq), if_pos (by omega), if_neg (by omega), if_neg (by omega),
      Int.natCast_zero, sub_zero, uint64_natCast small']
  · rw [if_neg (by rw [lengthEq, zeroIff small]; exact created)]
    by_cases same : n' = n
    · rw [if_pos (by omega), if_pos same]
    · have keeps : ¬((n' : Int) - n < 0 ∧ mv.length < uint64 (-((n' : Int) - n))) := by
        rintro ⟨negative, short⟩
        have nat : -((n' : Int) - n) = ((n - n' : Nat) : Int) := by omega
        rw [nat, uint64_natCast (by omega), lengthEq, UInt64.lt_iff_toNat_lt, toNat small,
          toNat (by omega)] at short
        omega
      have len : (if (n' : Int) - n > 0 then mv.length + uint64 (n' - n)
          else mv.length - uint64 (-(n' - n))) = UInt64.ofNat n' := by
        rw [← UInt64.toNat_inj, toNat small', lengthEq]
        split_ifs with grows
        · have nat : (n' : Int) - n = ((n' - n : Nat) : Int) := by omega
          rw [nat, uint64_natCast (by omega), UInt64.toNat_add, toNat small, toNat (by omega)]
          omega
        · have nat : -((n' : Int) - n) = ((n - n' : Nat) : Int) := by omega
          rw [nat, uint64_natCast (by omega), UInt64.toNat_sub_of_le, toNat small,
            toNat (by omega)]
          · omega
          · rw [UInt64.le_iff_toNat_le, toNat small, toNat (by omega)]
            omega
      rw [if_neg (by omega), if_neg keeps, if_neg same]
      simp only [len, zeroIff small']

/-- The updates that mark a collection of `n` elements deleted. -/
def markUpdates (key : UserKey) (type : UInt8) (version : UInt16) (n : Nat) : List Update :=
  [⟨.delete key version, some []⟩, ⟨.metadata key,
    some (encodeMetaValInternal type (UInt64.ofNat n) version keyDeleteMask)⟩]

/-- The contents after a batch of element updates that leaves `n'` elements. -/
def Contents.resize (contents : Contents) (key : UserKey) (type : UInt8) (version : UInt16)
    (updates : List Update) (n n' : Nat) : Contents :=
  if n' = 0 then
    ((contents.applyAll updates).applyAll (markUpdates key type version n)).applyAll
      (cancelUpdates contents key)
  else
    (contents.applyAll updates).applyAll [⟨.metadata key,
      some (encodeMetaValInternal type (UInt64.ofNat n') version keyEnabledMask)⟩]

theorem eval_commitSize {updates : List Update} {mv : MetaVal} {n n' : Nat}
    {state : Option (UInt16 × Value)} (elements : ∀ u ∈ updates, u.IsElement key version)
    (versionEq : mv.version = version) (lengthEq : mv.length = UInt64.ofNat n)
    (small : n < 2 ^ 64) (small' : n' < 2 ^ 64)
    (length : LengthOf world.db.contents key state type version n) (nonempty : n = 0 → 0 < n') :
    ∃ world', (commitSize (incrSize type key.1 (updates.map Update.encode) (encodeMetaKey key.1)
        mv (n' - n))).eval atomically world = ((if n' = 0 then 0 else 1), world') ∧
      world.db.Updated world'.db ∧
      world'.db.contents = world.db.contents.resize key type version updates n n' := by
  rw [incrSize_eq _ _ _ lengthEq small small' nonempty, Contents.resize]
  by_cases same : n' = n
  · have positive : n' ≠ 0 := by omega
    have found : world.db.contents (.metadata key) =
        some (encodeMetaValInternal type (UInt64.ofNat n') version keyEnabledMask) := by
      subst same
      cases state with
      | none => exact absurd length.1 positive
      | some live => exact length.2.2
    rw [if_pos same, if_neg positive]
    have unchanged : (return (1, updates.map Update.encode) : Command (Int × WriteBatch)).eval
        atomically world = ((1, updates.map Update.encode), world) := rfl
    obtain ⟨world', run, updated, contents⟩ := eval_commitSize_of (by decide) unchanged
    refine ⟨world', run, updated, ?_⟩
    rw [contents, ← found, if_neg positive, Contents.applyAll_cons, Contents.applyAll_nil]
    have kept : world.db.contents.applyAll updates (.metadata key) =
        world.db.contents (.metadata key) :=
      applyAll_of_element elements (by simp) (by simp)
    exact (Function.update_eq_self_iff.mpr kept.symm).symm
  · rw [if_neg same]
    by_cases emptied : n' = 0
    · obtain ⟨ret, cancelled⟩ :=
        eval_cancelExpiration world key (updates ++ markUpdates key type version n)
      have putBoth : updates.map Update.encode ++
          [.put (encodeDeleteKey key.1 mv.version) [], .put (encodeMetaKey key.1)
            (encodeMetaValInternal type mv.length mv.version keyDeleteMask)] =
          (updates ++ markUpdates key type version n).map Update.encode := by
        simp [markUpdates, encodeMetaKey_eq, encodeDeleteKey_eq, put_eq, versionEq, lengthEq]
      rw [if_pos emptied, if_pos emptied, putBoth]
      have changed : (do
          let (_, batch) ← cancelExpiration key.1
            ((updates ++ markUpdates key type version n).map Update.encode)
          return ((0 : Int), batch) : Command (Int × WriteBatch)).eval atomically world =
          ((0, (updates ++ markUpdates key type version n ++
            cancelUpdates world.db.contents key).map Update.encode), world.delFastKey key.1) := by
        rw [Program.eval_bind, cancelled]
        rfl
      obtain ⟨world', run, updated, contents⟩ := eval_commitSize_of (le_refl 0) changed
      refine ⟨world', run, updated, ?_⟩
      rw [contents, World.db_delFastKey, if_pos emptied]
      simp only [Contents.applyAll_append]
    · have putMeta : updates.map Update.encode ++ [.put (encodeMetaKey key.1)
            (encodeMetaValInternal type (UInt64.ofNat n') mv.version keyEnabledMask)] =
          (updates ++ [(⟨.metadata key, some (encodeMetaValInternal type (UInt64.ofNat n') version
            keyEnabledMask)⟩ : Update)]).map Update.encode := by
        simp [encodeMetaKey_eq, put_eq, versionEq]
      rw [if_neg emptied, if_neg emptied, putMeta]
      have resized : ∀ batch : List Update,
          (return (1, batch.map Update.encode) : Command (Int × WriteBatch)).eval atomically world =
            ((1, batch.map Update.encode), world) := fun _ => rfl
      obtain ⟨world', run, updated, contents⟩ := eval_commitSize_of (by decide) (resized _)
      refine ⟨world', run, updated, ?_⟩
      rw [contents, Contents.applyAll_append, if_neg emptied]

/-- Values are live as soon as their items, score entries and metadata are in place. -/
def LiveWith (contents : Contents) (key : UserKey) (version : UInt16) (metaVal : Bytes)
    (value : Value) : Prop :=
  ∀ other : Contents,
    (∀ field, other (.item key version field) = contents (.item key version field)) →
    (∀ score field, other (.zscore key version score field) =
      contents (.zscore key version score field)) →
    other (.metadata key) = some metaVal → other.LiveAs key version value

theorem owner_of_element {updates : List Update}
    (elements : ∀ u ∈ updates, u.IsElement key version) {update : Update}
    (mem : update ∈ updates) : update.owner = key := by
  rcases elements update mem with ⟨field, isItem⟩ | ⟨score, field, isScore⟩
  · rw [Update.owner, isItem]; rfl
  · rw [Update.owner, isScore]; rfl

theorem frameOff_applyAll {contents : Contents} {updates : List Update}
    (owned : ∀ update ∈ updates, update.owner = key) :
    FrameOff key contents (contents.applyAll updates) :=
  fun _ other => Contents.applyAll_of_owner owned other

theorem FrameOff.trans {first second third : Contents} (left : FrameOff key first second)
    (right : FrameOff key second third) : FrameOff key first third :=
  fun record other => (right record other).trans (left record other)

theorem owner_of_cancel {contents : Contents} {update : Update}
    (mem : update ∈ cancelUpdates contents key) : update.owner = key := by
  rcases cancelUpdates_owner mem with ⟨score, rfl⟩ | rfl <;> rfl

theorem frameOff_resize {contents : Contents} {updates : List Update} {n n' : Nat}
    (elements : ∀ u ∈ updates, u.IsElement key version) :
    FrameOff key contents (contents.resize key type version updates n n') := by
  have first : FrameOff key contents (contents.applyAll updates) :=
    frameOff_applyAll fun _ mem => owner_of_element elements mem
  unfold Contents.resize
  split_ifs with emptied
  · refine (first.trans (frameOff_applyAll ?_)).trans (frameOff_applyAll fun _ => owner_of_cancel)
    intro update mem
    simp only [markUpdates, List.mem_cons, List.not_mem_nil, or_false] at mem
    rcases mem with rfl | rfl <;> rfl
  · refine first.trans (frameOff_applyAll ?_)
    intro update mem
    rw [List.mem_singleton.mp mem]
    rfl

theorem agreesOff_resize {contents : Contents} {updates : List Update} {n n' : Nat}
    (elements : ∀ u ∈ updates, u.IsElement key version) :
    KeyValid.AgreesOff contents (contents.resize key type version updates n n') key version := by
  have untouched : ∀ record : RecordKey, (∀ field, record ≠ .item key version field) →
      (∀ score field, record ≠ .zscore key version score field) →
      contents.applyAll updates record = contents record :=
    fun record => applyAll_of_element elements
  intro u other
  unfold Contents.resize
  split_ifs with emptied
  · refine ⟨fun field => ?_, fun score field => ?_, ?_⟩
    all_goals rw [applyAll_cancelUpdates (by simp) (by simp), markUpdates]
    all_goals simp only [Contents.applyAll_cons, Contents.applyAll_nil]
    · simp [untouched (.item key u field) (by simp [other]) (by simp)]
    · simp [untouched (.zscore key u score field) (by simp) (by simp [other])]
    · simp [other, untouched (.delete key u) (by simp) (by simp)]
  · simp only [Contents.applyAll_cons, Contents.applyAll_nil]
    refine ⟨fun field => ?_, fun score field => ?_, ?_⟩
    · simp [untouched (.item key u field) (by simp [other]) (by simp)]
    · simp [untouched (.zscore key u score field) (by simp) (by simp [other])]
    · simp [untouched (.delete key u) (by simp) (by simp)]

theorem LengthOf.notPending {contents : Contents} {state : Option (UInt16 × Value)} {n : Nat}
    (valid : KeyValid contents key state) (length : LengthOf contents key state type version n) :
    contents (.delete key version) = none := by
  cases state with
  | none =>
      obtain ⟨_, rfl, fresh⟩ := length
      exact fresh
  | some live =>
      obtain ⟨w, value⟩ := live
      obtain rfl := length.1
      exact valid.livePending w value rfl

/-- A resized collection stays valid: live with its new value, or marked deleted once empty. -/
theorem KeyValid.resize {contents : Contents} {updates : List Update} {n n' : Nat} {value : Value}
    {state : Option (UInt16 × Value)} (valid : KeyValid contents key state)
    (elements : ∀ u ∈ updates, u.IsElement key version)
    (length : LengthOf contents key state type version n) (nonempty : n = 0 → 0 < n')
    (becomes : n' ≠ 0 → LiveWith (contents.applyAll updates) key version
      (encodeMetaValInternal type (UInt64.ofNat n') version keyEnabledMask) value) :
    ∃ state', KeyValid (contents.resize key type version updates n n') key state' ∧
      state'.map Prod.snd = if n' = 0 then none else some value := by
  have only : ∀ w value', state = some (w, value') → w = version := by
    rintro w value' rfl
    exact length.1
  have notPending := length.notPending valid
  have untouched : ∀ record : RecordKey, (∀ field, record ≠ .item key version field) →
      (∀ score field, record ≠ .zscore key version score field) →
      contents.applyAll updates record = contents record :=
    fun record => applyAll_of_element elements
  have agrees : KeyValid.AgreesOff contents (contents.resize key type version updates n n') key
      version := agreesOff_resize elements
  unfold Contents.resize at agrees ⊢
  by_cases emptied : n' = 0
  · rw [if_pos emptied] at agrees ⊢
    rw [if_pos emptied]
    cases state with
    | none => exact absurd (nonempty length.1) (by omega)
    | some live =>
        obtain ⟨w, value'⟩ := live
        obtain rfl := length.1
        refine ⟨none, valid.becomesDeleted agrees ?_ ?_, rfl⟩
        · refine ⟨_, ⟨type, w, keyDeleteMask⟩, _, ?_,
            decodeMetaHeader_metaVal type (UInt64.ofNat n) w keyDeleteMask (Or.inl rfl), rfl, rfl⟩
          rw [applyAll_cancelUpdates (by simp) (by simp)]
          simp [markUpdates]
        · rw [applyAll_cancelUpdates (by simp) (by simp)]
          simp [markUpdates]
  · rw [if_neg emptied] at agrees ⊢
    rw [if_neg emptied]
    simp only [Contents.applyAll_cons, Contents.applyAll_nil] at agrees ⊢
    refine ⟨some (version, value), valid.becomesLive agrees only ?_ ?_, rfl⟩
    · apply becomes emptied
      · intro field
        simp
      · intro score field
        simp
      · simp
    · simp [untouched (.delete key version) (by simp) (by simp), notPending]

/-- Writing under a version that is not being deleted does not interfere with the deletions. -/
theorem keepsPending_of_agreesOff {contents after : Contents}
    (frame : FrameOff key contents after) (agrees : KeyValid.AgreesOff contents after key version)
    (notPending : contents (.delete key version) = none) : KeepsPending contents after := by
  intro key' version' pending
  by_cases own : key' = key
  · subst own
    have other : version' ≠ version := by
      rintro rfl
      rw [notPending] at pending
      exact absurd pending (by simp)
    obtain ⟨item, zscore, delete⟩ := agrees version' other
    exact ⟨by rwa [delete], fun field => by rw [item]; exact id,
      fun score field => by rw [zscore]; exact id⟩
  · exact ⟨by rwa [frame (.delete key' version') own],
      fun field => by rw [frame (.item key' version' field) own]; exact id,
      fun score field => by rw [frame (.zscore key' version' score field) own]; exact id⟩

/-- Committing element updates with the matching change of length. -/
theorem KeyValid.commit {updates : List Update} {mv : MetaVal} {n n' : Nat} {value : Value}
    {state : Option (UInt16 × Value)} (valid : KeyValid world.db.contents key state)
    (elements : ∀ u ∈ updates, u.IsElement key version)
    (versionEq : mv.version = version) (lengthEq : mv.length = UInt64.ofNat n)
    (small : n < 2 ^ 64) (small' : n' < 2 ^ 64)
    (length : LengthOf world.db.contents key state type version n) (nonempty : n = 0 → 0 < n')
    (becomes : n' ≠ 0 → LiveWith (world.db.contents.applyAll updates) key version
      (encodeMetaValInternal type (UInt64.ofNat n') version keyEnabledMask) value) :
    ∃ world' state', (commitSize (incrSize type key.1 (updates.map Update.encode)
        (encodeMetaKey key.1) mv (n' - n))).eval atomically world =
          ((if n' = 0 then 0 else 1), world') ∧
      Confined key world.db world'.db ∧ KeyValid world'.db.contents key state' ∧
      state'.map Prod.snd = if n' = 0 then none else some value := by
  obtain ⟨world', run, updated, contents⟩ :=
    eval_commitSize elements versionEq lengthEq small small' length nonempty
  obtain ⟨state', valid', value'⟩ := valid.resize elements length nonempty becomes
  refine ⟨world', state', run, ⟨updated, ?_, ?_⟩, by rw [contents]; exact valid', value'⟩
  · rw [contents]
    exact frameOff_resize elements
  · rw [contents]
    exact keepsPending_of_agreesOff (frameOff_resize elements) (agreesOff_resize elements)
      (length.notPending valid)

/-- An update of a record that belongs to one version of a key. -/
def Update.Concerns (key : UserKey) (version : UInt16) (update : Update) : Prop :=
  update.IsElement key version ∨ update.record = .metadata key ∨ update.record = .ekey key ∨
    (∃ score, update.record = .escore score key) ∨ update.record = .delete key version

theorem Update.Concerns.of_cancel {contents : Contents} {update : Update}
    (mem : update ∈ cancelUpdates contents key) : update.Concerns key version := by
  rcases cancelUpdates_owner mem with ⟨score, rfl⟩ | rfl
  · exact Or.inr (Or.inr (Or.inr (Or.inl ⟨score, rfl⟩)))
  · exact Or.inr (Or.inr (Or.inl rfl))

theorem agreesOff_applyAll {contents : Contents} {batch : List Update}
    (concerns : ∀ u ∈ batch, u.Concerns key version) :
    KeyValid.AgreesOff contents (contents.applyAll batch) key version := by
  have untouched : ∀ {record : RecordKey},
      (∀ u : Update, u.Concerns key version → u.record ≠ record) →
      contents.applyAll batch record = contents record :=
    fun foreign => Contents.applyAll_of_notMem fun u mem => foreign u (concerns u mem)
  intro w other
  refine ⟨fun field => untouched ?_, fun score field => untouched ?_, untouched ?_⟩
  all_goals
    rintro ⟨record, val⟩ ((⟨f, same⟩ | ⟨s, f, same⟩) | same | same | ⟨s, same⟩ | same)
    all_goals simp only at same
    all_goals simp [same, other.symm]

theorem frameOff_of_concerns {contents : Contents} {batch : List Update}
    (concerns : ∀ u ∈ batch, u.Concerns key version) :
    FrameOff key contents (contents.applyAll batch) := by
  refine frameOff_applyAll fun u mem => ?_
  rw [Update.owner]
  rcases concerns u mem with (⟨f, same⟩ | ⟨s, f, same⟩) | same | same | ⟨s, same⟩ | same
  all_goals rw [same]; rfl

theorem Confined.of_concerns {db : DB} {batch : List Update}
    (concerns : ∀ u ∈ batch, u.Concerns key version)
    (notPending : db.contents (.delete key version) = none) :
    Confined key db (WriteBatch.apply (batch.map Update.encode) db) := by
  refine ⟨⟨batch, rfl⟩, ?_, ?_⟩ <;> rw [DB.contents_apply]
  · exact frameOff_of_concerns concerns
  · exact keepsPending_of_agreesOff (frameOff_of_concerns concerns) (agreesOff_applyAll concerns)
      notPending

/-- A batch for one version of a key that leaves the key live. -/
theorem KeyValid.writeLive {db : DB} {batch : List Update} {value : Value}
    {state : Option (UInt16 × Value)} (valid : KeyValid db.contents key state)
    (concerns : ∀ u ∈ batch, u.Concerns key version)
    (only : ∀ w value', state = some (w, value') → w = version)
    (notPending : db.contents (.delete key version) = none)
    (live : (db.contents.applyAll batch).LiveAs key version value)
    (noMark : ∀ u ∈ batch, u.record ≠ .delete key version) :
    Confined key db (WriteBatch.apply (batch.map Update.encode) db) ∧
      KeyValid (DB.contents (WriteBatch.apply (batch.map Update.encode) db)) key
        (some (version, value)) := by
  refine ⟨.of_concerns concerns notPending, ?_⟩
  rw [DB.contents_apply]
  exact valid.becomesLive (agreesOff_applyAll concerns) only live
    ((Contents.applyAll_of_notMem noMark).trans notPending)

/-- A batch for the live version of a key that marks it deleted. -/
theorem KeyValid.writeDeleted {db : DB} {batch : List Update} {value : Value}
    (valid : KeyValid db.contents key (some (version, value)))
    (concerns : ∀ u ∈ batch, u.Concerns key version)
    (deleted : (db.contents.applyAll batch).Deleted key version)
    (pending : (db.contents.applyAll batch (.delete key version)).isSome) :
    Confined key db (WriteBatch.apply (batch.map Update.encode) db) ∧
      KeyValid (DB.contents (WriteBatch.apply (batch.map Update.encode) db)) key none := by
  refine ⟨.of_concerns concerns (valid.livePending _ _ rfl), ?_⟩
  rw [DB.contents_apply]
  exact valid.becomesDeleted (agreesOff_applyAll concerns) deleted pending

end Committing

end Vcdb
