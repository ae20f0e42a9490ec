import Vcdb.Codec.RoundTrip
import Vcdb.Lib.Window
import Vcdb.Storage.Contents

/-!
# Logical values and their representation

The value a client sees under a user key, and the records that represent it.  A live key is
represented by its metadata and by the items and score entries of its version; items of other
versions are left over from deletions and are still named by a delete key.
-/

namespace Vcdb

/-- What a key holds. -/
inductive Value
  | string (val : Bytes)
  | hash (fields : SortedMap Bytes Bytes)
  | set (members : Finset Bytes)
  | zset (scores : SortedMap Bytes Double)
  | list (cells : List Bytes)

/-- Type byte of the metadata of a value. -/
def Value.type : Value → UInt8
  | string _ => DataType.kv
  | hash _ => DataType.hsize
  | set _ => DataType.ssize
  | zset _ => DataType.zsize
  | list _ => DataType.lsize

namespace Contents

variable (contents : Contents) (key : UserKey) (version : UInt16)

/-- No item and no score entry is stored under the version. -/
def Clean : Prop :=
  (∀ field, contents (.item key version field) = none) ∧
    ∀ score field, contents (.zscore key version score field) = none

/-- The key's metadata carries the deletion flag. -/
def Deleted : Prop :=
  ∃ metaVal header rest, contents (.metadata key) = some metaVal ∧
    decodeMetaHeader metaVal = some (header, rest) ∧
      header.version = version ∧ header.del = keyDeleteMask

/-- The records of a live key are exactly those of its value. -/
def LiveAs : Value → Prop
  | .string val =>
      contents (.metadata key) = some (encodeKvVal val version) ∧ contents.Clean key version
  | .hash fields =>
      0 < fields.size ∧ fields.size < 2 ^ 64 ∧
      contents (.metadata key) = some (encodeHashMetaVal (UInt64.ofNat fields.size) version) ∧
      (∀ field, contents (.item key version field) = fields.get field) ∧
      ∀ score field, contents (.zscore key version score field) = none
  | .set members =>
      0 < members.card ∧ members.card < 2 ^ 64 ∧
      contents (.metadata key) = some (encodeSetMetaVal (UInt64.ofNat members.card) version) ∧
      (∀ member, contents (.item key version member) = if member ∈ members then some [] else none) ∧
      ∀ score field, contents (.zscore key version score field) = none
  | .zset scores =>
      0 < scores.size ∧ scores.size < 2 ^ 64 ∧
      contents (.metadata key) = some (encodeZsetMetaVal (UInt64.ofNat scores.size) version) ∧
      (∀ member, contents (.item key version member) =
        (scores.get member).map fun score => hostOrder64 score) ∧
      ∀ score member, contents (.zscore key version score member) =
        if scores.get member = some score then some [] else none
  | .list cells =>
      0 < cells.length ∧ cells.length < 2 ^ 64 ∧
      (∃ left, contents (.metadata key) =
          some (encodeListMetaVal (UInt64.ofNat cells.length) left
            (left + UInt64.ofNat cells.length - 1) version) ∧
        (∀ seq, contents (.item key version (be64 seq)) = Window.cell cells left seq) ∧
        ∀ field, (∀ seq, field ≠ be64 seq) → contents (.item key version field) = none) ∧
      ∀ score field, contents (.zscore key version score field) = none

/-- The version the key's next incarnation gets, or the version of the live one. -/
def createVersion : UInt16 :=
  match contents (.metadata key) with
  | none => 0
  | some metaVal =>
      match decodeMetaHeader metaVal with
      | none => 0
      | some (header, _) =>
          if header.del = keyDeleteMask then nextVersion header.version else header.version

/-- The deletions of the version the key is about to get have been completed. -/
def Fresh : Prop := contents (.delete key (contents.createVersion key)) = none

end Contents

/-- A representation of one user key: its live version and value, if it is live, with every
leftover record named by a delete key. -/
structure KeyValid (contents : Contents) (key : UserKey) (state : Option (UInt16 × Value)) :
    Prop where
  /-- A live key is represented by its records, any other is absent or marked deleted. -/
  represented :
    match state with
    | some (version, value) => contents.LiveAs key version value
    | none => contents (.metadata key) = none ∨ ∃ version, contents.Deleted key version
  /-- Leftovers of another version are named by a delete key. -/
  leftover : ∀ version, (∀ value, state ≠ some (version, value)) →
    contents.Clean key version ∨ (contents (.delete key version)).isSome
  /-- A deleted key has its delete key. -/
  deletedPending : ∀ version, contents.Deleted key version →
    (contents (.delete key version)).isSome
  /-- No delete key names the live version. -/
  livePending : ∀ version value, state = some (version, value) →
    contents (.delete key version) = none

/-- What every user key holds. -/
abbrev Keyspace := Bytes → Option Value

/-- The store represents a keyspace. -/
def Represents (contents : Contents) (keyspace : Keyspace) : Prop :=
  ∀ key : UserKey, ∃ state, KeyValid contents key state ∧ state.map Prod.snd = keyspace key.1

namespace Contents

variable {contents : Contents} {key : UserKey} {version : UInt16}

/-- The metadata of a live key starts with its type, its version and the enabled flag. -/
theorem LiveAs.header {value : Value} (live : contents.LiveAs key version value) :
    ∃ metaVal rest, contents (.metadata key) = some metaVal ∧
      decodeMetaHeader metaVal = some (⟨value.type, version, keyEnabledMask⟩, rest) := by
  cases value with
  | string val => exact ⟨_, _, live.1, decodeMetaHeader_kvVal _ _⟩
  | hash fields => exact ⟨_, _, live.2.2.1, decodeMetaHeader_metaVal _ _ _ _ (Or.inr rfl)⟩
  | set members => exact ⟨_, _, live.2.2.1, decodeMetaHeader_metaVal _ _ _ _ (Or.inr rfl)⟩
  | zset scores => exact ⟨_, _, live.2.2.1, decodeMetaHeader_metaVal _ _ _ _ (Or.inr rfl)⟩
  | list cells =>
      obtain ⟨_, _, ⟨_, found, _⟩, _⟩ := live
      exact ⟨_, _, found, decodeMetaHeader_listMetaVal _ _ _ _ _ (Or.inr rfl)⟩

theorem LiveAs.not_deleted {value : Value} (live : contents.LiveAs key version value)
    (other : UInt16) : ¬contents.Deleted key other := by
  rintro ⟨metaVal, header, rest, found, decoded, _, flag⟩
  obtain ⟨metaVal', rest', found', decoded'⟩ := live.header
  rw [found, Option.some_inj] at found'
  rw [← found', decoded, Option.some_inj, Prod.mk.injEq] at decoded'
  rw [decoded'.1] at flag
  exact enabled_ne_delete flag

theorem LiveAs.createVersion_eq {value : Value} (live : contents.LiveAs key version value) :
    contents.createVersion key = version := by
  obtain ⟨metaVal, rest, found, decoded⟩ := live.header
  simp only [createVersion, found, decoded]
  exact if_neg enabled_ne_delete

/-- Metadata, items and score entries of one version decide what a key is live as. -/
theorem LiveAs.congr {other : Contents} {value : Value}
    (metadata : other (.metadata key) = contents (.metadata key))
    (item : ∀ field, other (.item key version field) = contents (.item key version field))
    (zscore : ∀ score field, other (.zscore key version score field) =
      contents (.zscore key version score field))
    (live : contents.LiveAs key version value) : other.LiveAs key version value := by
  cases value <;> simpa only [LiveAs, Clean, metadata, item, zscore] using live

end Contents

namespace KeyValid

variable {contents other : Contents} {key : UserKey} {state : Option (UInt16 × Value)}

theorem congr (same : ∀ record : RecordKey, record.owner = key → other record = contents record)
    (valid : KeyValid contents key state) : KeyValid other key state := by
  have metadata := same (.metadata key) rfl
  have item := fun version field => same (.item key version field) rfl
  have zscore := fun version score field => same (.zscore key version score field) rfl
  have delete := fun version => same (.delete key version) rfl
  constructor
  · have represented := valid.represented
    cases state with
    | none => simpa only [Contents.Deleted, metadata] using represented
    | some live => exact Contents.LiveAs.congr metadata (item live.1) (zscore live.1) represented
  · intro version idle
    simpa only [Contents.Clean, item, zscore, delete] using valid.leftover version idle
  · intro version
    simpa only [Contents.Deleted, metadata, delete] using valid.deletedPending version
  · intro version value live
    rw [delete]
    exact valid.livePending version value live

/-- Nothing is stored under the version an idle key is about to get. -/
theorem clean_of_fresh (valid : KeyValid contents key none) (fresh : contents.Fresh key) :
    contents.Clean key (contents.createVersion key) := by
  rcases valid.leftover (contents.createVersion key) (by simp) with clean | pending
  · exact clean
  · rw [show contents (.delete key (contents.createVersion key)) = none from fresh] at pending
    exact absurd pending (by simp)

/-- Outside one version, the items, score entries and delete keys are as before. -/
def AgreesOff (contents other : Contents) (key : UserKey) (version : UInt16) : Prop :=
  ∀ w, w ≠ version →
    (∀ field, other (.item key w field) = contents (.item key w field)) ∧
    (∀ score field, other (.zscore key w score field) = contents (.zscore key w score field)) ∧
    other (.delete key w) = contents (.delete key w)

theorem leftover_of_agreesOff {version : UInt16} (valid : KeyValid contents key state)
    (agrees : AgreesOff contents other key version)
    (only : ∀ w value, state = some (w, value) → w = version) {w : UInt16} (ne : w ≠ version) :
    other.Clean key w ∨ (other (.delete key w)).isSome := by
  obtain ⟨item, zscore, delete⟩ := agrees w ne
  have leftover := valid.leftover w fun value live => ne (only w value live)
  simpa only [Contents.Clean, item, zscore, delete] using leftover

/-- A key that is live after a write, at the version it had or at a fresh one. -/
theorem becomesLive {version : UInt16} {value : Value} (valid : KeyValid contents key state)
    (agrees : AgreesOff contents other key version)
    (only : ∀ w value, state = some (w, value) → w = version)
    (live : other.LiveAs key version value) (notPending : other (.delete key version) = none) :
    KeyValid other key (some (version, value)) where
  represented := live
  leftover w idle := by
    apply leftover_of_agreesOff valid agrees only
    rintro rfl
    exact idle value rfl
  deletedPending w deleted := absurd deleted (live.not_deleted w)
  livePending w value' same := by
    obtain ⟨rfl, _⟩ := Prod.mk.injEq _ _ _ _ ▸ Option.some_inj.mp same
    exact notPending

/-- A live key that a write has marked deleted. -/
theorem becomesDeleted {version : UInt16} {value : Value}
    (valid : KeyValid contents key (some (version, value)))
    (agrees : AgreesOff contents other key version) (deleted : other.Deleted key version)
    (pending : (other (.delete key version)).isSome) : KeyValid other key none where
  represented := Or.inr ⟨version, deleted⟩
  leftover w _ := by
    by_cases same : w = version
    · exact Or.inr (same ▸ pending)
    · exact leftover_of_agreesOff valid agrees (by
        rintro w' value' eq
        exact (congrArg Prod.fst (Option.some_inj.mp eq)).symm) same
  deletedPending w deleted' := by
    obtain ⟨metaVal, header, rest, found, decoded, rfl, _⟩ := deleted
    obtain ⟨metaVal', header', rest', found', decoded', rfl, _⟩ := deleted'
    rw [found, Option.some_inj] at found'
    rw [← found', decoded, Option.some_inj, Prod.mk.injEq] at decoded'
    rw [← decoded'.1]
    exact pending
  livePending w value' same := by simp at same

end KeyValid

/-- A change that completes no deletion and stores nothing under a version being deleted. -/
def KeepsPending (contents after : Contents) : Prop :=
  ∀ key version, (contents (.delete key version)).isSome →
    (after (.delete key version)).isSome ∧
    (∀ field, (after (.item key version field)).isSome →
      (contents (.item key version field)).isSome) ∧
    ∀ score field, (after (.zscore key version score field)).isSome →
      (contents (.zscore key version score field)).isSome

theorem KeepsPending.refl (contents : Contents) : KeepsPending contents contents :=
  fun _ _ pending => ⟨pending, fun _ => id, fun _ _ => id⟩

theorem KeepsPending.trans {first second third : Contents} (left : KeepsPending first second)
    (right : KeepsPending second third) : KeepsPending first third := by
  intro key version pending
  obtain ⟨pending', items, zscores⟩ := left key version pending
  obtain ⟨pending'', items', zscores'⟩ := right key version pending'
  exact ⟨pending'', fun field found => items field (items' field found),
    fun score field found => zscores score field (zscores' score field found)⟩

end Vcdb
