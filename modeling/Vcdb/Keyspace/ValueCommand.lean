import Vcdb.Keyspace.ValueWrite
import Vcdb.Proc.Kv
import Vcdb.Proc.List
import Vcdb.Proc.Set
import Vcdb.Proc.Zset

/-!
# The commands that write to values

Every command of the collections, and every command that changes a string in place, writes to the
value of its key: it follows the discipline of `valueMonitor`.
-/

namespace Vcdb

/-- An error code in the place of a result. -/
def Refused {α : Type} : Except Int α → Prop
  | .error code => code < 0
  | .ok _ => False

/-- An error code, or a result with updates of elements. -/
def Gathers {α : Type} (name : Bytes) (version : UInt16) (batch : α → WriteBatch) :
    Except Int α → Prop
  | .error code => code < 0
  | .ok outcome => Elements name version (batch outcome)

/-- Updates of elements have been gathered, or the command has failed. -/
theorem writesOpened_gathers {α β : Type} {name : Bytes} {type : UInt8} {version : UInt16}
    {metaVal : Option Bytes} {batch : α → WriteBatch} {loop : Command (Except Int α)}
    {next : Except Int α → Command β} {abort : β → Prop}
    (looks : LooksUp name true Refused (Gathers name version batch) loop)
    (later : ∀ outcome, Elements name version (batch outcome) →
      WritesOpened name true type abort metaVal (next (.ok outcome)))
    (failed : ∀ code : Int, code < 0 → (next (.error code)).Ensures (fun _ => False) abort) :
    WritesOpened name true type abort metaVal (loop >>= next) := by
  refine writesOpened_looksUp looks (fun result gathers => ?_) fun result refused => ?_
  · cases result with
    | error code => exact follows_of_pure (failed code gathers) fun _ reported =>
        ⟨rfl, fun dropped => (by cases dropped), fun _ => ⟨reported, rfl⟩⟩
    | ok outcome => exact later outcome gathers
  · cases result with
    | error code => exact ensures_of_pure (failed code refused) fun _ => id
    | ok outcome => exact refused.elim

/-! ### Hashes -/

section Hashes

variable {careful : Bool} {metadata : Option (Option Bytes)}

theorem looksUp_getHashItemValInternal (name field : Bytes) (version : UInt16) :
    LooksUp name careful (fun result => careful = true ∧ result.1 < 0) (fun _ => True)
      (getHashItemValInternal (encodeHashKey name field version)) := by
  refine (looksUp_dbGet (encodeKeyInternal_ne_metaKey _ _ _ _)).bind (fun status _ => ?_) ?_
  · cases status with
    | error => exact looksUp_done trivial
    | notFound => exact looksUp_done trivial
    | ok val => exact looksUp_done trivial
  · rintro _ ⟨strict, rfl⟩
    exact ⟨strict, (by decide : storageErr < 0)⟩

theorem looksUp_hsetOne {name : Bytes} {hv : MetaVal} {batch : WriteBatch}
    (elements : Elements name hv.version batch) (checkExists : Bool) (field val : Bytes) :
    LooksUp name careful (fun result => careful = true ∧ result.1 < 0)
      (fun result => Elements name hv.version result.2)
      (hsetOne batch hv checkExists name field val) := by
  have added : Elements name hv.version
      (batch ++ [.put (encodeHashKey name field hv.version) val]) :=
    elements.append (.cons (isElement_item name field hv.version) .nil)
  cases checkExists with
  | false => exact looksUp_done added
  | true =>
      refine (looksUp_getHashItemValInternal name field hv.version).bind (fun result _ => ?_)
        fun result failed => ?_
      · simp only
        split_ifs
        · exact looksUp_done elements
        · exact looksUp_done added
        · exact looksUp_done added
        · exact looksUp_done elements
      · simp only [if_pos failed.2]
        exact failed

/-- HSET does not look at the outcome of reading the field. -/
theorem writesValue_hsetCommon (name field val : Bytes) (nx : Bool) :
    WritesValue metadata name nx DataType.hsize (·.1 < 0) (hsetCommon name field val nx) := by
  refine writesValue_lock (follows_getMetaVal (fun metaVal ret hv read => ?_) fun hv => ?_)
  · simp only
    by_cases failed : ret < 0
    · rw [if_pos failed]
      exact writesOpened_failed failed
    · rw [if_neg failed]
      rw [not_lt] at failed
      have sets : ∀ found : Int, WritesOpened name nx DataType.hsize (·.1 < 0) metaVal
          (if found ≠ 0 then return (found, 0)
            else do
              let written ← hsetOne [] hv (!nx) name field val
              let ret ← commitHash name written.2 (encodeMetaKey name) hv written.1
              return (ret, written.1)) := by
        intro found
        by_cases present : found ≠ 0
        · rw [if_pos present]
          exact writesOpened_done (read.opens failed) _
        · rw [if_neg present]
          cases nx with
          | true =>
              exact (writesOpened_commitSize (.cons (isElement_item name field hv.version) .nil)
                read failed _).map fun _ => id
          | false =>
              refine writesOpened_looksUp (looksUp_hsetOne .nil true field val)
                (fun result elements => ?_) fun result unread => ?_
              · exact (writesOpened_commitSize elements read failed _).map fun _ => id
              · cases unread.1
      by_cases asked : nx = true ∧ ret = 1
      · rw [if_pos asked]
        refine writesOpened_looksUp (looksUp_getHashItemValInternal name field hv.version)
          (fun found _ => sets found.1) fun found unread => ?_
        simp only [if_pos (show found.1 ≠ 0 from unread.2.ne)]
        exact unread.2
      · rw [if_neg asked]
        exact sets 0
  · exact (by decide : storageErr < 0)

theorem looksUp_hmsetLoop {name : Bytes} {hv : MetaVal} {batch : WriteBatch}
    (elements : Elements name hv.version batch) (checkExists : Bool) (kvs : List (Bytes × Bytes))
    (sum : Int) :
    LooksUp name true Refused (Gathers name hv.version Prod.snd)
      (hmsetLoop hv checkExists name kvs batch sum) := by
  induction kvs generalizing batch sum with
  | nil => exact looksUp_done elements
  | cons kv kvs ih =>
      refine (looksUp_hsetOne elements checkExists kv.1 kv.2).bind (fun result added => ?_)
        fun result failed => ?_
      · simp only
        by_cases failed : result.1 < 0
        · rw [if_pos failed]
          exact looksUp_done failed
        · rw [if_neg failed]
          exact ih added _
      · simp only [if_pos failed.2]
        exact failed.2

theorem writesValue_hmset (name : Bytes) (kvs : SortedMap Bytes Bytes) :
    WritesValue metadata name true DataType.hsize (· < 0) (hmset name kvs) := by
  refine writesValue_lock (follows_getMetaVal (fun metaVal ret hv read => ?_) fun hv => ?_)
  · simp only
    by_cases failed : ret < 0
    · rw [if_pos failed]
      exact writesOpened_failed failed
    · rw [if_neg failed]
      rw [not_lt] at failed
      exact writesOpened_gathers (looksUp_hmsetLoop .nil true kvs.entries 0)
        (fun outcome elements => writesOpened_commitSize elements read failed _) fun _ => id
  · exact (by decide : storageErr < 0)

theorem looksUp_hdelLoop {name : Bytes} {hv : MetaVal} {batch : WriteBatch}
    (elements : Elements name hv.version batch) (fields : List Bytes) (deleted : Int) :
    LooksUp name true Refused (Gathers name hv.version Prod.snd)
      (hdelLoop hv name fields batch deleted) := by
  induction fields generalizing batch deleted with
  | nil => exact looksUp_done elements
  | cons field fields ih =>
      have removed : Elements name hv.version
          (batch ++ [.delete (encodeHashKey name field hv.version)]) :=
        elements.append (.cons (isElement_item name field hv.version) .nil)
      refine (looksUp_getHashItemValInternal name field hv.version).bind (fun result _ => ?_)
        fun result failed => ?_
      · simp only
        split_ifs with failed
        · exact looksUp_done failed
        · exact ih removed _
        · exact ih elements _
      · simp only [if_pos failed.2]
        exact failed.2

theorem writesValue_hdel (name : Bytes) (fields : SortedMap Bytes Unit) :
    WritesValue metadata name true DataType.hsize (·.1 < 0) (hdel name fields) := by
  refine writesValue_lock (follows_getMetaVal (fun metaVal ret hv read => ?_) fun hv => ?_)
  · simp only
    by_cases idle : ret ≠ 1
    · rw [if_pos idle]
      exact read.writesOpened_reply _ _ fun failed => failed
    · rw [if_neg idle]
      have found : 0 ≤ ret := by omega
      exact writesOpened_gathers (looksUp_hdelLoop .nil fields.keys 0)
        (fun outcome elements => (writesOpened_commitSize elements read found _).map fun _ => id)
        fun _ => id
  · exact (by decide : storageErr < 0)

theorem writesValue_hincrCommon {ν : Type} (name field : Bytes)
    (newVal : Bytes → Int → Except Int ν) (render : ν → Bytes)
    (refuses : ∀ old ret code, newVal old ret = .error code → code < 0) :
    WritesValue metadata name true DataType.hsize Refused (hincrCommon name field newVal render) := by
  refine writesValue_lock (follows_getMetaVal (fun metaVal ret hv read => ?_) fun hv => ?_)
  · simp only
    by_cases failed : ret < 0
    · rw [if_pos failed]
      exact writesOpened_failed failed
    · rw [if_neg failed]
      rw [not_lt] at failed
      have sets : ∀ found : Int × Bytes, WritesOpened name true DataType.hsize Refused metaVal
          (if found.1 < 0 then return .error found.1
            else
              match newVal found.2 found.1 with
              | .error code => return .error code
              | .ok new => do
                  let written ← hsetOne [] hv false name field (render new)
                  if written.1 < 0 then return .error written.1
                  else
                    let ret ← commitHash name written.2 (encodeMetaKey name) hv
                      (if found.1 = 1 then 0 else written.1)
                    if ret < 0 then return .error ret else return .ok new) := by
        rintro ⟨found, old⟩
        simp only
        by_cases unread : found < 0
        · rw [if_pos unread]
          exact writesOpened_failed unread
        · rw [if_neg unread]
          cases computed : newVal old found with
          | error code => exact writesOpened_failed (refuses old found code computed)
          | ok new =>
              exact (writesOpened_commitSize (.cons (isElement_item name field hv.version) .nil)
                read failed _).map fun ret => by
                  split_ifs with refused
                  · exact fun _ => refused
                  · exact fun negative => absurd negative refused
      by_cases exists' : 0 < ret
      · rw [if_pos exists']
        refine writesOpened_looksUp (looksUp_getHashItemValInternal name field hv.version)
          (fun found _ => sets found) fun found unread => ?_
        simp only [if_pos unread.2]
        exact unread.2
      · rw [if_neg exists']
        exact sets (ret, [])
  · exact (by decide : storageErr < 0)

end Hashes

/-! ### Sets -/

section Sets

variable {metadata : Option (Option Bytes)}

theorem looksUp_getSetItemValInternal (key member : Bytes) (version : UInt16) :
    LooksUp key true (· < 0) (fun _ => True)
      (getSetItemValInternal (encodeSetKey key member version)) := by
  refine (looksUp_dbGet (encodeKeyInternal_ne_metaKey _ _ _ _)).bind (fun status _ => ?_) ?_
  · cases status with
    | error => exact looksUp_done trivial
    | notFound => exact looksUp_done trivial
    | ok val => exact looksUp_done trivial
  · rintro _ ⟨_, rfl⟩
    exact (by decide : storageErr < 0)

theorem looksUp_saddLoop {key : Bytes} {sv : MetaVal} {batch : WriteBatch}
    (elements : Elements key sv.version batch) (existing : Bool) (members : List Bytes)
    (num : Int) :
    LooksUp key true Refused (Gathers key sv.version Prod.snd)
      (saddLoop sv existing key members batch num) := by
  induction members generalizing batch num with
  | nil => exact looksUp_done elements
  | cons member members ih =>
      have added : Elements key sv.version
          (batch ++ [.put (encodeSetKey key member sv.version) []]) :=
        elements.append (.cons (isElement_item key member sv.version) .nil)
      cases existing with
      | false => exact ih added _
      | true =>
          refine (looksUp_getSetItemValInternal key member sv.version).bind (fun s _ => ?_)
            fun s failed => ?_
          · split_ifs with failed
            · exact looksUp_done failed
            · exact ih elements _
            · exact ih added _
          · simp only [if_pos failed]
            exact failed

theorem writesValue_sadd (key : Bytes) (memSet : SortedMap Bytes Unit) :
    WritesValue metadata key true DataType.ssize (·.1 < 0) (sadd key memSet) := by
  refine writesValue_lock (follows_getMetaVal (fun metaVal ret sv read => ?_) fun sv => ?_)
  · simp only
    by_cases failed : ret < 0
    · rw [if_pos failed]
      exact writesOpened_failed failed
    · rw [if_neg failed]
      rw [not_lt] at failed
      exact writesOpened_gathers (looksUp_saddLoop .nil _ memSet.keys 0)
        (fun outcome elements => (writesOpened_commitSize elements read failed _).map fun _ => id)
        fun _ => id
  · exact (by decide : storageErr < 0)

theorem looksUp_sremLoop {key : Bytes} {sv : MetaVal} {batch : WriteBatch}
    (elements : Elements key sv.version batch) (members : List Bytes) (num : Int) :
    LooksUp key true Refused (Gathers key sv.version Prod.snd)
      (sremLoop sv key members batch num) := by
  induction members generalizing batch num with
  | nil => exact looksUp_done elements
  | cons member members ih =>
      have removed : Elements key sv.version
          (batch ++ [.delete (encodeSetKey key member sv.version)]) :=
        elements.append (.cons (isElement_item key member sv.version) .nil)
      refine (looksUp_getSetItemValInternal key member sv.version).bind (fun s _ => ?_)
        fun s failed => ?_
      · split_ifs with found failed
        · exact ih removed _
        · exact looksUp_done failed
        · exact ih elements _
      · have missing : s ≠ 1 := by omega
        simp only [if_neg missing, if_pos failed]
        exact failed

theorem writesValue_srem (key : Bytes) (members : List Bytes) :
    WritesValue metadata key true DataType.ssize (·.1 < 0) (srem key members) := by
  refine writesValue_lock (follows_getMetaVal (fun metaVal ret sv read => ?_) fun sv => ?_)
  · simp only
    by_cases idle : ret ≠ 1
    · rw [if_pos idle]
      exact read.writesOpened_reply _ _ fun failed => failed
    · rw [if_neg idle]
      have found : 0 ≤ ret := by omega
      exact writesOpened_gathers (looksUp_sremLoop .nil members 0)
        (fun outcome elements => (writesOpened_commitSize elements read found _).map fun _ => id)
        fun _ => id
  · exact (by decide : storageErr < 0)

theorem looksUp_sampleWindow {key : Bytes} (length : UInt64) (cnt : Int64) :
    LooksUp key true (fun _ => False) (fun result => ∀ code, result = .error code → code < 0)
      (sampleWindow length cnt) := by
  rw [sampleWindow]
  split_ifs
  · refine looksUp_done fun code same => ?_
    cases same
  · refine looksUp_done fun code same => ?_
    cases same
    decide
  · intro watch kept fresh
    refine (Program.follows_call _ _).mpr ⟨trivial, fun answer => ⟨fun fails => (by cases fails),
      fun _ goes => ⟨(Option.some_inj.mp goes).symm, fun code same => ?_⟩⟩⟩
    cases same

theorem writesValue_spop (key : Bytes) (popcnt : Int64) :
    WritesValue metadata key true DataType.ssize (·.1 < 0) (spop key popcnt) := by
  refine writesValue_lock (follows_getMetaVal (fun metaVal ret sv read => ?_) fun sv => ?_)
  · simp only
    by_cases idle : ret ≠ 1
    · rw [if_pos idle]
      exact read.writesOpened_reply _ _ fun failed => failed
    · rw [if_neg idle]
      have found : 0 ≤ ret := by omega
      refine writesOpened_looksUp (looksUp_getSnapshot fun _ => False) (fun db _ => ?_)
        fun db failed => failed.elim
      split_ifs
      · exact writesOpened_failed (by decide : indexOutOfRange < 0)
      · exact writesOpened_done (read.opens found) _
      · refine writesOpened_looksUp (looksUp_sampleWindow sv.length popcnt) (fun result sampled => ?_)
          fun result failed => failed.elim
        cases result with
        | error code => exact writesOpened_failed (sampled code rfl)
        | ok window =>
            refine (writesOpened_commitSize (fun op mem => ?_) read found _).map fun _ => id
            obtain ⟨member, _, rfl⟩ := List.mem_map.mp mem
            exact isElement_item key member sv.version
  · exact (by decide : storageErr < 0)

end Sets

/-! ### Sorted sets -/

section Zsets

variable {name : Bytes} {version : UInt16} {batch : WriteBatch} {metadata : Option (Option Bytes)}

theorem looksUp_getZsetItemVal (name member : Bytes) (version : UInt16) :
    LooksUp name true (·.1 < 0) (fun _ => True)
      (getZsetItemVal (encodeZsetKey name member version)) := by
  refine (looksUp_dbGet (encodeKeyInternal_ne_metaKey _ _ _ _)).bind (fun status _ => ?_) ?_
  · cases status with
    | error => exact looksUp_done trivial
    | notFound => exact looksUp_done trivial
    | ok val => exact looksUp_done trivial
  · rintro _ ⟨_, rfl⟩
    exact (by decide : storageErr < 0)

theorem elements_zputs (name member : Bytes) (score : Double) (version : UInt16) :
    Elements name version (zputs name member score version) :=
  .cons (isElement_item name member version) (.cons (isElement_zscore name member score version)
    .nil)

theorem looksUp_zdelOne (elements : Elements name version batch) (member : Bytes) :
    LooksUp name true (·.1 < 0) (fun result => Elements name version result.2)
      (zdelOne batch name member version) := by
  refine (looksUp_getZsetItemVal name member version).bind (fun result _ => ?_)
    fun result failed => ?_
  · simp only
    split_ifs
    · exact looksUp_done elements
    · exact looksUp_done (elements.append (.cons (isElement_zscore name member result.2 version)
        (.cons (isElement_item name member version) .nil)))
  · simp only [if_pos (show result.1 ≤ 0 from le_of_lt failed)]
    exact failed

theorem looksUp_zsetOne (float : FloatUnit) (elements : Elements name version batch)
    (needCheck : Bool) (member : Bytes) (score : Double) (flags : ZaddFlags) :
    LooksUp name true Refused (Gathers name version (·.2.1))
      (zsetOne float batch needCheck name member score version flags) := by
  have added : ∀ score, Elements name version (batch ++ zputs name member score version) :=
    fun score => elements.append (elements_zputs name member score version)
  have inserted : Gathers name version (fun outcome : ZaddResult × WriteBatch × Option Double =>
      outcome.2.1) (if flags.xx then .ok (.nop, batch, none)
        else .ok (.added, batch ++ zputs name member score version, some score)) := by
    split_ifs
    · exact elements
    · exact added score
  rw [zsetOne]
  by_cases nan : score.isNan = true
  · rw [if_pos nan]
    exact looksUp_done (by decide : nanScore < 0)
  · rw [if_neg nan]
    cases needCheck with
    | false => exact looksUp_done inserted
    | true =>
        refine (looksUp_getZsetItemVal name member version).bind (fun result _ => ?_)
          fun result failed => ?_
        · simp only
          by_cases failed : result.1 < 0
          · rw [if_pos failed]
            exact looksUp_done failed
          · rw [if_neg failed]
            by_cases missing : result.1 = 0
            · rw [if_pos missing]
              exact looksUp_done inserted
            · have updated : ∀ score, Elements name version (batch ++
                  .delete (encodeZscoreKey name member result.2 version) ::
                    zputs name member score version) := fun score =>
                elements.append (.cons (isElement_zscore name member result.2 version)
                  (elements_zputs name member score version))
              rw [if_neg missing]
              split_ifs
              · exact looksUp_done elements
              · exact looksUp_done (by decide : nanScore < 0)
              · exact looksUp_done elements
              · exact looksUp_done (updated _)
              · exact looksUp_done (by decide : nanScore < 0)
              · exact looksUp_done elements
              · exact looksUp_done (updated _)
        · simp only [if_pos failed]
          exact failed

theorem looksUp_zsetLoop (float : FloatUnit) (elements : Elements name version batch)
    (needCheck : Bool) (flags : ZaddFlags) (members : List (Bytes × Bytes)) (added updated : Int) :
    LooksUp name true Refused (Gathers name version (·.2.2))
      (zsetLoop float needCheck name version flags members batch added updated) := by
  induction members generalizing batch added updated with
  | nil => exact looksUp_done elements
  | cons member members ih =>
      rw [zsetLoop]
      cases float.bytesDouble member.2 with
      | none => exact looksUp_done (by decide : invalidDbl < 0)
      | some score =>
          refine (looksUp_zsetOne float elements needCheck member.1 score flags).bind
            (fun result gathers => ?_) fun result failed => ?_
          · cases result with
            | error code => exact looksUp_done gathers
            | ok outcome => exact ih gathers _ _
          · cases result with
            | error code => exact failed
            | ok outcome => exact failed.elim

theorem writesValue_multiZset (float : FloatUnit) (name : Bytes)
    (sortedSet : SortedMap Bytes Bytes) (flags : ZaddFlags) :
    WritesValue metadata name true DataType.zsize (·.1 < 0) (multiZset float name sortedSet flags) := by
  have refused : (Program.done (syntaxErr, 0) : Command (Int × Int)).Follows
      (valueMonitor name true) (·.1 < 0) (Ends DataType.zsize (·.1 < 0) true)
      { locked := true } :=
    ⟨rfl, fun dropped => (by cases dropped), fun _ => ⟨(by decide : syntaxErr < 0), rfl⟩⟩
  refine writesValue_lock ?_
  rw [zsetNoLock]
  by_cases both : flags.nx = true ∧ flags.xx = true
  · rw [if_pos both]
    exact refused
  · rw [if_neg both]
    by_cases several : flags.incr = true ∧ sortedSet.size > 1
    · rw [if_pos several]
      exact refused
    · rw [if_neg several]
      refine follows_getMetaVal (fun metaVal ret zv read => ?_) fun zv => ?_
      · simp only
        by_cases failed : ret < 0
        · rw [if_pos failed]
          exact writesOpened_failed failed
        · rw [if_neg failed]
          rw [not_lt] at failed
          refine writesOpened_gathers (looksUp_zsetLoop float .nil _ flags sortedSet.entries 0 0)
            (fun outcome elements => ?_) fun _ => id
          refine (writesOpened_commitSize elements read failed _).map fun iret => ?_
          by_cases refused : iret < 0
          · rw [if_pos refused]
            exact fun _ => refused
          · rw [if_neg refused]
            exact fun negative => absurd negative refused
      · exact (by decide : storageErr < 0)

theorem looksUp_zdelLoop (elements : Elements name version batch) (members : List Bytes)
    (count : Int) :
    LooksUp name true Refused (Gathers name version Prod.snd)
      (zdelLoop name version members batch count) := by
  induction members generalizing batch count with
  | nil => exact looksUp_done elements
  | cons member members ih =>
      refine (looksUp_zdelOne elements member).bind (fun result removed => ?_)
        fun result failed => ?_
      · simp only
        split_ifs with failed
        · exact looksUp_done failed
        · exact ih removed _
      · simp only [if_pos failed]
        exact failed

theorem writesValue_multiZdel (name : Bytes) (members : SortedMap Bytes Unit) :
    WritesValue metadata name true DataType.zsize (·.1 < 0) (multiZdel name members) := by
  refine writesValue_lock (follows_getMetaVal (fun metaVal ret zv read => ?_) fun zv => ?_)
  · simp only
    by_cases idle : ret ≤ 0
    · rw [if_pos idle]
      exact read.writesOpened_reply _ _ fun failed => failed
    · rw [if_neg idle]
      have found : 0 ≤ ret := by omega
      exact writesOpened_gathers (looksUp_zdelLoop .nil members.keys 0)
        (fun outcome elements => (writesOpened_commitSize elements read found _).map fun _ => id)
        fun _ => id
  · exact (by decide : storageErr < 0)

theorem writesValue_zincr (float : FloatUnit) (name member : Bytes) (by' : Double)
    (flags : ZaddFlags) :
    WritesValue metadata name true DataType.zsize Refused (zincr float name member by' flags) := by
  refine writesValue_lock (follows_getMetaVal (fun metaVal ret zv read => ?_) fun zv => ?_)
  · simp only
    by_cases failed : ret < 0
    · rw [if_pos failed]
      exact writesOpened_failed failed
    · rw [if_neg failed]
      rw [not_lt] at failed
      refine writesOpened_gathers (looksUp_zsetOne float .nil _ member by' flags)
        (fun outcome elements => ?_) fun _ => id
      obtain ⟨result, batch, newVal⟩ := outcome
      simp only
      by_cases added : result = .added
      · rw [if_pos added]
        refine (writesOpened_commitSize elements read failed _).map fun iret => ?_
        split_ifs with refused
        · exact fun _ => refused
        · exact fun negative => absurd negative refused
      · rw [if_neg added]
        exact writesOpened_commitBatch (.elements (read.opens failed) elements) (read.opens failed)
          trivial (by decide : storageErr < 0)
  · exact (by decide : storageErr < 0)

theorem looksUp_zremrangeLoop {γ : Type} (starts continues : γ → Bool) (member : γ → Bytes)
    (remove : Bool) (elements : Elements name version batch) (items : List γ) (count : Int) :
    LooksUp name true Refused (Gathers name version Prod.snd)
      (zremrangeLoop starts continues member remove name version items batch count) := by
  induction items generalizing batch count with
  | nil => exact looksUp_done elements
  | cons item items ih =>
      rw [zremrangeLoop]
      split_ifs
      · exact ih elements _
      · exact looksUp_done elements
      · refine (looksUp_zdelOne elements (member item)).bind (fun result removed => ?_)
          fun result failed => ?_
        · simp only
          split_ifs with failed
          · exact looksUp_done failed
          · exact ih removed _
        · simp only [if_pos failed]
          exact failed
      · exact ih elements _

theorem zslParseBound_error {float : FloatUnit} {text : Bytes} {nanCode code : Int}
    (negative : nanCode < 0) (refuses : zslParseBound float text nanCode = .error code) :
    code < 0 := by
  rw [zslParseBound] at refuses
  generalize (if text.head? = some 40 then (true, text.tail) else (false, text)) = bound at refuses
  obtain ⟨exclusive, digits⟩ := bound
  have invalid : invalidMinMaxDbl < 0 := by decide
  simp only at refuses
  split_ifs at refuses
  · exact Except.error.inj refuses ▸ negative
  · exact Except.error.inj refuses ▸ invalid
  · exact Except.error.inj refuses ▸ invalid

theorem zslParseRange_error {float : FloatUnit} {min max : Bytes} {code : Int}
    (refuses : zslParseRange float min max = .error code) : code < 0 := by
  rw [zslParseRange] at refuses
  cases first : zslParseBound float min nanScore with
  | error code' =>
      rw [first] at refuses
      cases refuses
      exact zslParseBound_error (by decide) first
  | ok lower =>
      rw [first] at refuses
      cases second : zslParseBound float max invalidMinMaxDbl with
      | error code' =>
          simp only [second] at refuses
          cases refuses
          exact zslParseBound_error (by decide) second
      | ok upper =>
          simp only [second] at refuses
          cases refuses

theorem writesValue_zremrangebyscore (float : FloatUnit) (name scoreStart scoreEnd : Bytes)
    (remove : Bool) :
    WritesValue metadata name true DataType.zsize (·.1 < 0)
      (zremrangebyscore float name scoreStart scoreEnd remove) := by
  rw [zremrangebyscore]
  cases parsed : zslParseRange float scoreStart scoreEnd with
  | error code => exact writesValue_done (zslParseRange_error parsed)
  | ok range =>
      refine writesValue_lock (follows_getMetaVal (fun metaVal ret zv read => ?_) fun zv => ?_)
      · simp only
        by_cases idle : ret ≤ 0
        · rw [if_pos idle]
          exact read.writesOpened_reply _ _ fun failed => failed
        · rw [if_neg idle]
          have found : 0 ≤ ret := by omega
          refine writesOpened_looksUp (looksUp_getSnapshot fun _ => False) (fun db _ => ?_)
            fun db failed => failed.elim
          refine writesOpened_gathers (looksUp_zremrangeLoop _ _ _ remove .nil _ 0)
            (fun outcome elements => ?_) fun _ => id
          simp only
          split_ifs
          · exact (writesOpened_commitSize elements read found _).map fun _ => id
          · exact writesOpened_done (read.opens found) _
      · exact (by decide : storageErr < 0)

/-- An error code; an exception is none. -/
def LexFailed {α : Type} : Option (Int × α) → Prop
  | none => False
  | some result => result.1 < 0

/-- Ranges that are answered without a look at the key: a bound is empty, or there is nothing
between the bounds. -/
def LexUnread (keyStart keyEnd : Bytes) : Prop :=
  match zslParseLexRange keyStart keyEnd with
  | .error fault => fault = .lengthError
  | .ok range => range.degenerate keyStart keyEnd

theorem zremrangebylex_unread (name : Bytes) {keyStart keyEnd : Bytes}
    (unread : LexUnread keyStart keyEnd) :
    ∃ result, zremrangebylex name keyStart keyEnd = .done result := by
  rw [LexUnread] at unread
  rw [zremrangebylex]
  cases parsed : zslParseLexRange keyStart keyEnd with
  | error fault =>
      rw [parsed] at unread
      simp only at unread
      subst unread
      exact ⟨_, rfl⟩
  | ok range =>
      rw [parsed] at unread
      simp only at unread
      simp only [if_pos unread]
      exact ⟨_, rfl⟩

theorem writesValue_zremrangebylex (name : Bytes) {keyStart keyEnd : Bytes}
    (read : ¬LexUnread keyStart keyEnd) :
    WritesValue none name true DataType.zsize LexFailed (zremrangebylex name keyStart keyEnd) := by
  rw [LexUnread] at read
  rw [zremrangebylex]
  cases parsed : zslParseLexRange keyStart keyEnd with
  | error fault =>
      rw [parsed] at read
      cases fault with
      | lengthError => exact absurd rfl read
      | invalid => exact writesValue_done (by decide : syntaxErr < 0)
  | ok range =>
      rw [parsed] at read
      simp only at read ⊢
      rw [if_neg read]
      refine writesValue_lock (follows_getMetaVal (fun metaVal ret zv read => ?_) fun zv => ?_)
      · simp only
        by_cases idle : ret ≤ 0
        · rw [if_pos idle]
          exact read.writesOpened_reply _ _ fun failed => failed
        · rw [if_neg idle]
          have found : 0 ≤ ret := by omega
          refine writesOpened_looksUp (looksUp_getSnapshot fun _ => False) (fun db _ => ?_)
            fun db failed => failed.elim
          exact writesOpened_gathers (looksUp_zremrangeLoop _ _ _ true .nil _ 0)
            (fun outcome elements =>
              (writesOpened_commitSize elements read found _).map fun _ => id) fun _ => id
      · exact (by decide : storageErr < 0)

/-- Members are looked up by rank under a mutex of their own. -/
theorem readsValue_zrange (float : FloatUnit) (name start stop : Bytes) :
    ReadsValue name true DataType.zsize (·.1 < 0) (zrange float name start stop false) := by
  have snapshot : ReadsValue name true DataType.zsize (·.1 < 0) (zsetSnapshot name) := by
    refine readsValue_lock (follows_getMetaVal (fun metaVal ret zv read => read.looked ?_)
      fun zv => ?_)
    · simp only
      split_ifs
      · exact looksUp_done fun failed => failed
      · exact (looksUp_getSnapshot fun _ => False).bind (fun db _ => looksUp_done fun failed =>
          failed) fun db failed => failed.elim
    · exact (by decide : storageErr < 0)
  rw [zrange, zrangeGeneric]
  have invalid : invalidInt < 0 := by decide
  cases string2ll start with
  | none => exact readsValue_done invalid
  | some first =>
      cases string2ll stop with
      | none => exact readsValue_done invalid
      | some last =>
          refine snapshot.map fun result => ?_
          simp only
          by_cases idle : result.1 ≤ 0
          · rw [if_pos idle]
            exact fun failed => failed
          · rw [if_neg idle]
            have success : result.1 < 0 → False := fun failed => idle failed.le
            split_ifs
            all_goals exact fun failed => (success failed).elim

theorem writesValue_procZremrangebyrank (float : FloatUnit) (name start stop : Bytes) :
    WritesValue none name true DataType.zsize Reply.IsError
      (procZremrangebyrank float name start stop) := by
  refine Program.Follows.bind (readsValue_zrange float name start stop)
    (fun last result looked => ?_) fun result failed => ?_
  · obtain ⟨metadata', rfl⟩ := looked.seen
    simp only
    by_cases failed : result.1 < 0
    · rw [if_pos failed]
      exact ⟨rfl, fun dropped => (by cases dropped), fun _ => ⟨trivial, rfl⟩⟩
    · rw [if_neg failed]
      by_cases missing : result.1 = 0
      · rw [if_pos missing]
        exact ⟨rfl, fun dropped => (by cases dropped), fun other =>
          absurd (looked.mistyped other) failed⟩
      · rw [if_neg missing]
        refine (writesValue_multiZdel name (byteSet result.2)).map fun removed => ?_
        split_ifs with refused
        · exact fun _ => trivial
        · exact fun negative => absurd negative refused
  · simp only [if_pos failed]
    trivial

end Zsets

/-! ### Lists -/

section Lists

variable {key : Bytes} {version : UInt16} {batch : WriteBatch} {metaVal : Option Bytes}
  {metadata : Option (Option Bytes)}

theorem elements_pushLoop (lp : ListPosition) (vals : List Bytes) (itemSeq : UInt64)
    (elements : Elements key version batch) :
    Elements key version (pushLoop key version lp vals itemSeq batch).2 := by
  induction vals generalizing itemSeq batch with
  | nil => exact elements
  | cons val vals ih =>
      exact ih _ (elements.append (.cons (isElement_item key _ version) .nil))

theorem elements_trimLoop (lp : ListPosition) (count : Nat) (itemSeq : UInt64)
    (elements : Elements key version batch) :
    Elements key version (trimLoop key version lp count itemSeq batch).2 := by
  induction count generalizing itemSeq batch with
  | zero => exact elements
  | succ count ih =>
      have removed : Elements key version
          (batch ++ [.delete (encodeListKey key itemSeq version)]) :=
        elements.append (.cons (isElement_item key _ version) .nil)
      exact ih _ removed

/-- A list is marked deleted. -/
theorem writesOpened_deleteList {β : Type} {abort : β → Prop} {removed : WriteBatch}
    {next : Bool → Command β} (live : Life.ofMeta metaVal = .live DataType.lsize version)
    (elements : Elements key version removed) (length : UInt64)
    (done : (next true).Ensures (fun _ => False) fun _ => True)
    (failed : (next false).Ensures Watch.Quiet abort) :
    WritesOpened key true DataType.lsize abort metaVal
      (deleteList key (encodeMetaKey key) length version removed >>= fun batch =>
        commitBatch batch >>= next) := by
  rw [deleteList, Program.bind_assoc]
  exact writesOpened_delete live (life_encodeListMetaVal length 0 0 version).2 elements
    (Or.inr rfl) done failed

theorem life_encodeValueListMeta {lv : ListMetaVal} (enabled : lv.del = keyEnabledMask) :
    Life.ofMeta (some (encodeValueListMeta lv)) = .live DataType.lsize lv.version := by
  rw [encodeValueListMeta, enabled]
  exact (life_encodeListMetaVal _ _ _ _).1

theorem looksUp_getListItemValInternal (key : Bytes) (seq : UInt64) (version : UInt16) :
    LooksUp key true (·.1 < 0) (fun _ => True)
      (getListItemValInternal (encodeListKey key seq version)) := by
  refine (looksUp_dbGet (encodeKeyInternal_ne_metaKey _ _ _ _)).bind
    (fun status _ => looksUp_done trivial) ?_
  rintro _ ⟨_, rfl⟩
  exact (by decide : (-1 : Int) < 0)

theorem writesValue_listPop (key : Bytes) (lp : ListPosition) :
    WritesValue metadata key true DataType.lsize (·.1 < 0) (listPop key lp) := by
  refine writesValue_lock (follows_getListMetaVal (fun metaVal ret lv read enabled => ?_)
    fun lv => ?_)
  · simp only
    by_cases idle : ret ≠ 1
    · rw [if_pos idle]
      exact read.writesOpened_reply _ _ fun failed => failed
    · rw [if_neg idle]
      have found : 0 ≤ ret := by omega
      have opens := read.opens found
      have live := read.live found (Or.inr (by omega))
      have failed : storageErr < 0 := by decide
      by_cases empty : lv.length = 0
      · rw [if_pos empty]
        exact writesOpened_done opens _
      · rw [if_neg empty, doListPop.eq_def]
        refine writesOpened_looksUp (looksUp_getListItemValInternal key _ lv.version)
          (fun result _ => ?_) fun result failed => ?_
        · simp only
          by_cases missing : result.1 = 1
          · rw [if_pos missing]
            by_cases last : lv.length - 1 = 0
            · rw [if_pos last]
              exact writesOpened_deleteList live (.cons (isElement_item key _ lv.version) .nil)
                lv.length trivial failed
            · rw [if_neg last]
              refine writesOpened_commitBatch (@Fits.stored _ _ _ _ [] _ _ opens ?_ .nil
                (.cons (isElement_item key _ lv.version) .nil)) opens trivial failed
              cases lp <;> exact life_encodeValueListMeta (enabled found)
          · rw [if_neg missing]
            exact writesOpened_done opens _
        · have missing : result.1 ≠ 1 := by omega
          simp only [if_neg missing]
          exact failed
  · exact (by decide : storageErr < 0)

theorem writesOpened_doListPush {lv : ListMetaVal} {ret : Int} (vals : List Bytes)
    (lp : ListPosition) (read : MetaRead DataType.lsize metaVal ret lv.version lv.length)
    (success : 0 ≤ ret) (enabled : lv.del = keyEnabledMask) :
    WritesOpened key true DataType.lsize (·.1 < 0) metaVal
      (doListPush key vals (encodeMetaKey key) lv lp) := by
  have opens := read.opens success
  have failed : storageErr < 0 := by decide
  have minusOne : (-1 : Int) < 0 := by decide
  rw [doListPush.eq_def]
  split_ifs
  · exact writesOpened_failed minusOne
  · exact writesOpened_failed minusOne
  · cases lp with
    | head => exact writesOpened_commitBatch (.stored opens (life_encodeValueListMeta enabled)
        (elements_pushLoop .head vals lv.leftSeq .nil) .nil) opens trivial failed
    | tail => exact writesOpened_commitBatch (.stored opens (life_encodeValueListMeta enabled)
        (elements_pushLoop .tail vals lv.rightSeq .nil) .nil) opens trivial failed

theorem writesValue_listPush (key : Bytes) (vals : List Bytes) (lp : ListPosition)
    (create : Bool) :
    WritesValue metadata key true DataType.lsize (·.1 < 0) (listPush key vals lp create) := by
  refine writesValue_lock (follows_getListMetaVal (fun metaVal ret lv read enabled => ?_)
    fun lv => ?_)
  · simp only
    by_cases failed : ret < 0
    · rw [if_pos failed]
      exact writesOpened_failed failed
    · rw [if_neg failed]
      rw [not_lt] at failed
      split_ifs
      · exact writesOpened_done (read.opens failed) _
      · exact (writesOpened_doListPush vals lp read failed (enabled failed)).map fun _ => id
  · exact (by decide : storageErr < 0)

theorem writesValue_lSet (key : Bytes) (index : Int64) (val : Bytes) :
    WritesValue metadata key true DataType.lsize (· < 0) (lSet key index val) := by
  refine writesValue_lock (follows_getListMetaVal (fun metaVal ret lv read enabled => ?_)
    fun lv => ?_)
  · simp only
    by_cases idle : ret ≠ 1
    · rw [if_pos idle]
      exact read.writesOpened_reply _ _ fun failed => failed
    · rw [if_neg idle]
      have opens := read.opens (show 0 ≤ ret by omega)
      by_cases outside : index > (if lv.length < uint64Max / 2 then
          ((-lv.length).toInt64, (lv.length - 1).toInt64) else (int64Min, int64Max)).2 ∨
          index < (if lv.length < uint64Max / 2 then
            ((-lv.length).toInt64, (lv.length - 1).toInt64) else (int64Min, int64Max)).1
      · rw [if_pos outside]
        exact writesOpened_failed (by decide : indexOutOfRange < 0)
      · rw [if_neg outside]
        exact writesOpened_commitBatch
          (.elements opens (.cons (isElement_item key _ lv.version) .nil)) opens trivial
          (by decide : storageErr < 0)
  · exact (by decide : storageErr < 0)

theorem writesValue_ltrim (key : Bytes) (start stop : Int64) :
    WritesValue metadata key true DataType.lsize (· < 0) (ltrim key start stop) := by
  refine writesValue_lock (follows_getListMetaVal (fun metaVal ret lv read enabled => ?_)
    fun lv => ?_)
  · simp only
    by_cases idle : ret ≠ 1
    · rw [if_pos idle]
      exact read.writesOpened_reply _ _ fun failed => failed
    · rw [if_neg idle]
      have found : 0 ≤ ret := by omega
      have failed : storageErr < 0 := by decide
      have trims : ∀ trims : UInt64 × UInt64, WritesOpened key true DataType.lsize (· < 0) metaVal
          (do
            let left := trimLoop key lv.version .head trims.1.toNat lv.leftSeq []
            let right := trimLoop key lv.version .tail trims.2.toNat lv.rightSeq left.2
            let trimmed := { lv with
              leftSeq := left.1, rightSeq := right.1, length := lv.length - (trims.1 + trims.2) }
            if trimmed.length = 0 then
              let batch ← deleteList key (encodeMetaKey key) trimmed.length lv.version right.2
              if ← commitBatch batch then return 0 else return storageErr
            else if ← commitBatch (right.2 ++ [.put (encodeMetaKey key)
                (encodeValueListMeta trimmed)]) then return 1
            else return storageErr) := by
        intro trims
        have elements := @elements_trimLoop key lv.version _ .tail trims.2.toNat lv.rightSeq
          (@elements_trimLoop key lv.version [] .head trims.1.toNat lv.leftSeq .nil)
        simp only
        split_ifs
        · exact writesOpened_deleteList (read.live found (Or.inr (by omega))) elements _ trivial
            failed
        · exact writesOpened_commitBatch (.stored (read.opens found)
            (life_encodeValueListMeta (enabled found)) elements .nil) (read.opens found) trivial
            failed
      exact trims _
  · exact (by decide : storageErr < 0)

end Lists

/-! ### Strings -/

section Strings

variable {key : Bytes} {metadata : Option (Option Bytes)}

theorem writesValue_updateKvCommon {ν : Type} (key : Bytes)
    (newVal : KvMetaVal → Int → Except Int (Bytes × ν))
    (refuses : ∀ kv ret code, newVal kv ret = .error code → code < 0) :
    WritesValue metadata key true DataType.kv Refused (updateKvCommon key newVal) := by
  refine writesValue_lock (follows_getKvMetaVal (fun metaVal ret kv read => ?_) fun kv => ?_)
  · simp only
    by_cases failed : ret < 0
    · rw [if_pos failed]
      exact writesOpened_failed failed
    · rw [if_neg failed]
      have opens := read.opens (not_lt.mp failed)
      cases computed : newVal kv ret with
      | error code => exact writesOpened_failed (refuses kv ret code computed)
      | ok result =>
          exact writesOpened_commitBatch (@Fits.stored _ _ _ _ [] [] _ opens
            (life_encodeKvVal _ kv.version) .nil .nil) opens trivial (by decide : storageErr < 0)
  · exact (by decide : storageErr < 0)

theorem writesValue_setrange (key : Bytes) (start : Int64) (value : Bytes) :
    WritesValue metadata key true DataType.kv Refused (setrange key start value) := by
  refine writesValue_lock (follows_getKvMetaVal (fun metaVal ret kv read => ?_) fun kv => ?_)
  · simp only
    by_cases failed : ret < 0
    · rw [if_pos failed]
      exact writesOpened_failed failed
    · rw [if_neg failed]
      have opens := read.opens (not_lt.mp failed)
      by_cases nothing : ret = 0 ∧ stringSize value = 0
      · rw [if_pos nothing]
        exact writesOpened_done opens _
      · rw [if_neg nothing]
        by_cases long : start.toUInt64 + stringSize value > stringMax
        · rw [if_pos long]
          exact writesOpened_failed (by decide : stringOvermax < 0)
        · rw [if_neg long]
          exact writesOpened_commitBatch (@Fits.stored _ _ _ _ [] [] _ opens
            (life_encodeKvVal _ kv.version) .nil .nil) opens trivial (by decide : storageErr < 0)
  · exact (by decide : storageErr < 0)

end Strings

end Vcdb
