import Vcdb.Util.RecordMutex

/-!
# The bookkeeping of the record lock

Every reference that a thread has to a record is counted from the moment it is taken to the moment
it is given back, and the mutex of a record is locked exactly while a thread holds its key.
-/

namespace Vcdb.RecordMutex

open Interleaving

/-! ### What threads count for -/

namespace Phase

/-- The key whose record the thread has a reference to, while it is not just giving it back. -/
def user : Phase → Option Bytes
  | leaveRecords key _ | awaitRecord key _ | unlock key | isLastRef key => some key
  | _ => none

/-- The key the thread holds on its way out. -/
def holder : Phase → Option Bytes
  | unlock key | isLastRef key | refUnlock key _ => some key
  | _ => none

/-- The key and the record the thread waits for. -/
def awaited : Phase → Option (Bytes × Address)
  | leaveRecords key ref | awaitRecord key ref => some (key, ref)
  | _ => none

/-- The key and the record the thread gives back. -/
def left : Phase → Option (Bytes × Address)
  | refUnlock key ref | unref key ref => some (key, ref)
  | _ => none

/-- The record that has been unlocked and whose reference is about to go. -/
def returned : Phase → Option Address
  | unref _ ref => some ref
  | _ => none

theorem returned_eq {phase : Phase} {ref : Address} :
    phase.returned = some ref ↔ ∃ key, phase = .unref key ref := by
  cases phase <;> simp [returned]

/-- The thread has locked `mutex_`. -/
def underMutex : Phase → Bool
  | findRecord _ | leaveRecords _ _ | isLastRef _ | refUnlock _ _ | unref _ _ | unlocked
  | readUsage | usage _ => true
  | _ => false

/-- The thread has locked the gate. -/
def pastGate : Phase → Bool
  | passGate _ | getUsage | readUsage | usage _ => true
  | _ => false

/-- All that a phase counts for among the records. -/
def marks (phase : Phase) : (Option Bytes × Option Bytes) ×
    (Option (Bytes × Address) × Option (Bytes × Address)) :=
  ((phase.user, phase.holder), (phase.awaited, phase.left))

theorem marks_eq {phase other : Phase} : phase.marks = other.marks ↔
    phase.user = other.user ∧ phase.holder = other.holder ∧ phase.awaited = other.awaited ∧
      phase.left = other.left := by
  simp only [marks, Prod.mk.injEq, and_assoc]

theorem underMutex_of_left {phase : Phase} {key : Bytes} {ref : Address}
    (leaves : phase.left = some (key, ref)) : phase.underMutex = true := by
  cases phase <;> first | rfl | cases leaves

theorem user_of_awaited {phase : Phase} {key : Bytes} {ref : Address}
    (waits : phase.awaited = some (key, ref)) : phase.user = some key := by
  cases phase <;> cases waits <;> rfl

theorem awaited_or_holder {phase : Phase} {key : Bytes} (uses : phase.user = some key) :
    phase.awaited.map Prod.fst = some key ∨ phase.holder = some key := by
  cases phase <;> cases uses
  · exact Or.inl rfl
  · exact Or.inl rfl
  · exact Or.inr rfl
  · exact Or.inr rfl

theorem user_or_refUnlock {phase : Phase} {key : Bytes} (holds : phase.holder = some key) :
    phase.user = some key ∨ ∃ ref, phase = .refUnlock key ref := by
  cases phase <;> cases holds
  · exact Or.inl rfl
  · exact Or.inl rfl
  · exact Or.inr ⟨_, rfl⟩

end Phase

namespace Owner

def uses (key : Bytes) (owner : Owner) : Nat :=
  owner.held.count key + if owner.phase.user = some key then 1 else 0

def holds (key : Bytes) (owner : Owner) : Nat :=
  owner.held.count key + if owner.phase.holder = some key then 1 else 0

def leaves (ref : Address) (owner : Owner) : Nat :=
  if owner.phase.left.map Prod.snd = some ref then 1 else 0

def underMutex (owner : Owner) : Nat := owner.phase.underMutex.toNat

def pastGate (owner : Owner) : Nat := owner.phase.pastGate.toNat + owner.flushing.toNat

theorem holds_le_uses {owner : Owner} (stays : owner.phase.left = none) (key : Bytes) :
    owner.holds key ≤ owner.uses key := by
  rw [holds, uses]
  have implied : owner.phase.holder = some key → owner.phase.user = some key := by
    intro holds
    rcases Phase.user_or_refUnlock holds with user | ⟨ref, phase⟩
    · exact user
    · rw [phase] at stays
      cases stays
  split_ifs with first second <;> first | omega | exact absurd (implied first) second

end Owner

variable {Thread : Type} [Fintype Thread] [DecidableEq Thread]

/-- The sum of what the records are charged for. -/
def charged (kEstimatePairSize : ℕ+) (records : SortedMap Bytes Address) : Int :=
  records.domain.sum fun key => State.pairCharge kEstimatePairSize key

/-- Threads, records and locks agree. -/
structure Invariant (kEstimatePairSize : ℕ+) (s : State Thread) : Prop where
  mutex : total Owner.underMutex s.threads = s.mutex.toNat
  gate : total Owner.pastGate s.threads = s.gMutex.toNat
  present : ∀ key ref, s.records.get key = some ref → ∃ record, s.heap ref = some record ∧
    record.refs = total (Owner.uses key) s.threads + total (Owner.leaves ref) s.threads ∧
    0 < total (Owner.uses key) s.threads ∧
    record.mu.toNat = total (Owner.holds key) s.threads
  absent : ∀ key, s.records.get key = none → total (Owner.uses key) s.threads = 0
  injective : ∀ key other ref, s.records.get key = some ref → s.records.get other = some ref →
    key = other
  awaited : ∀ thread key ref, (s.threads thread).phase.awaited = some (key, ref) →
    s.records.get key = some ref
  left : ∀ thread key ref, (s.threads thread).phase.left = some (key, ref) →
    s.records.get key = some ref ∨
      (s.records.get key = none ∧ (∀ other, s.records.get other ≠ some ref) ∧
        ∃ record, s.heap ref = some record ∧ record.refs = 1)
  charge : s.charge = charged kEstimatePairSize s.records

variable {kEstimatePairSize : ℕ+} {s after : State Thread} {thread : Thread}

omit [DecidableEq Thread] in
theorem invariant_initial : Invariant kEstimatePairSize ({} : State Thread) := by
  have none : ∀ weight : Owner → Nat, weight {} = 0 →
      total weight ({} : State Thread).threads = 0 := fun weight zero =>
    total_eq_zero.mpr fun _ => zero
  constructor
  · exact none _ rfl
  · exact none _ rfl
  · intro key ref found
    cases found
  · exact fun key _ => none _ rfl
  · intro key other ref found
    cases found
  · intro thread key ref waits
    cases waits
  · intro thread key ref leaves
    cases leaves
  · rfl

namespace Invariant

/-- Only one thread is under `mutex_`. -/
theorem alone (inv : Invariant kEstimatePairSize s)
    (under : (s.threads thread).phase.underMutex = true) {other : Thread}
    (different : other ≠ thread) : (s.threads other).phase.underMutex = false := by
  by_contra also
  rw [Bool.not_eq_false] at also
  have one : total Owner.underMutex s.threads ≤ 1 := by
    rw [inv.mutex]
    exact Bool.toNat_le _
  refine different (eq_of_total_le_one one ?_ ?_)
  · rw [Owner.underMutex, also]
    exact Nat.one_pos
  · rw [Owner.underMutex, under]
    exact Nat.one_pos

theorem left_none (inv : Invariant kEstimatePairSize s)
    (under : (s.threads thread).phase.underMutex = true) {other : Thread}
    (different : other ≠ thread) : (s.threads other).phase.left = none := by
  cases leaves : (s.threads other).phase.left with
  | none => rfl
  | some found =>
      obtain ⟨key, ref⟩ := found
      have also := Phase.underMutex_of_left leaves
      rw [inv.alone under different] at also
      cases also

omit [DecidableEq Thread] in
/-- What a thread is about to give back is allocated. -/
theorem heap_of_left (inv : Invariant kEstimatePairSize s) {key : Bytes} {ref : Address}
    (leaves : (s.threads thread).phase.left = some (key, ref)) :
    ∃ record, s.heap ref = some record := by
  rcases inv.left thread key ref leaves with found | ⟨_, _, record, here, _⟩
  · obtain ⟨record, here, _⟩ := inv.present key ref found
    exact ⟨record, here⟩
  · exact ⟨record, here⟩

end Invariant

/-! ### Steps -/

/-- Nothing that is counted changes. -/
structure Alike (old new : Owner) : Prop where
  uses : ∀ key, new.uses key = old.uses key
  holds : ∀ key, new.holds key = old.holds key
  awaited : new.phase.awaited = old.phase.awaited
  left : new.phase.left = old.phase.left

/-- One thread moves on, and the two mutexes with it. -/
structure Moves (s after : State Thread) (thread : Thread) (owner : Owner) : Prop where
  threads : after.threads = Function.update s.threads thread owner
  mutex : after.mutex.toNat + (s.threads thread).underMutex = s.mutex.toNat + owner.underMutex
  gate : after.gMutex.toNat + (s.threads thread).pastGate = s.gMutex.toNat + owner.pastGate

namespace Moves

variable {owner : Owner}

theorem total_after (moves : Moves s after thread owner) (weight : Owner → Nat) :
    total weight after.threads + weight (s.threads thread) =
      total weight s.threads + weight owner := by
  rw [moves.threads]
  exact total_update weight s.threads thread owner

theorem total_same (moves : Moves s after thread owner) (weight : Owner → Nat)
    (same : weight owner = weight (s.threads thread)) :
    total weight after.threads = total weight s.threads := by
  have moved := moves.total_after weight
  omega

omit [Fintype Thread] in
theorem self (moves : Moves s after thread owner) : after.threads thread = owner := by
  rw [moves.threads, Function.update_self]

omit [Fintype Thread] in
theorem of_ne (moves : Moves s after thread owner) {other : Thread} (different : other ≠ thread) :
    after.threads other = s.threads other := by
  rw [moves.threads, Function.update_of_ne different]

/-- The two mutexes count the threads that have locked them. -/
theorem mutex_after (moves : Moves s after thread owner)
    (inv : Invariant kEstimatePairSize s) :
    total Owner.underMutex after.threads = after.mutex.toNat := by
  have moved := moves.total_after Owner.underMutex
  have balance := moves.mutex
  have before := inv.mutex
  omega

theorem gate_after (moves : Moves s after thread owner)
    (inv : Invariant kEstimatePairSize s) :
    total Owner.pastGate after.threads = after.gMutex.toNat := by
  have moved := moves.total_after Owner.pastGate
  have balance := moves.gate
  have before := inv.gate
  omega

end Moves

/-- A step that changes no record and nothing that is counted keeps the invariant. -/
theorem Invariant.of_alike (inv : Invariant kEstimatePairSize s) {owner : Owner}
    (moves : Moves s after thread owner) (alike : Alike (s.threads thread) owner)
    (records : after.records = s.records) (heap : after.heap = s.heap)
    (charge : after.charge = s.charge) : Invariant kEstimatePairSize after where
  mutex := moves.mutex_after inv
  gate := moves.gate_after inv
  present := by
    intro key ref found
    rw [records] at found
    have leaves : owner.leaves ref = (s.threads thread).leaves ref := by
      rw [Owner.leaves, Owner.leaves, alike.left]
    rw [heap, moves.total_same _ (alike.uses key), moves.total_same _ leaves,
      moves.total_same _ (alike.holds key)]
    exact inv.present key ref found
  absent := by
    intro key missing
    rw [records] at missing
    rw [moves.total_same _ (alike.uses key)]
    exact inv.absent key missing
  injective := by
    rw [records]
    exact inv.injective
  awaited := by
    intro other key ref waits
    rw [records]
    by_cases same : other = thread
    · rw [same, moves.self, alike.awaited] at waits
      exact inv.awaited thread key ref waits
    · rw [moves.of_ne same] at waits
      exact inv.awaited other key ref waits
  left := by
    intro other key ref leaves
    rw [records, heap]
    by_cases same : other = thread
    · rw [same, moves.self, alike.left] at leaves
      exact inv.left thread key ref leaves
    · rw [moves.of_ne same] at leaves
      exact inv.left other key ref leaves
  charge := by
    rw [charge, records]
    exact inv.charge

/-- A step that concerns one key and one record. -/
structure Elsewhere (s after : State Thread) (thread : Thread) (owner : Owner) (key : Bytes)
    (ref : Address) : Prop extends Moves s after thread owner where
  uses : ∀ other, other ≠ key → owner.uses other = (s.threads thread).uses other
  holds : ∀ other, other ≠ key → owner.holds other = (s.threads thread).holds other
  leaves : ∀ other, other ≠ ref → owner.leaves other = (s.threads thread).leaves other
  records : ∀ other, other ≠ key → after.records.get other = s.records.get other
  heap : ∀ other, other ≠ ref → after.heap other = s.heap other
  foreign : ∀ other, other ≠ key → s.records.get other ≠ some ref

namespace Elsewhere

variable {owner : Owner} {key : Bytes} {ref : Address}

theorem present (elsewhere : Elsewhere s after thread owner key ref)
    (inv : Invariant kEstimatePairSize s) (other : Bytes) (different : other ≠ key)
    (found : Address) (here : after.records.get other = some found) :
    ∃ record, after.heap found = some record ∧
      record.refs = total (Owner.uses other) after.threads +
        total (Owner.leaves found) after.threads ∧
      0 < total (Owner.uses other) after.threads ∧
      record.mu.toNat = total (Owner.holds other) after.threads := by
  rw [elsewhere.records other different] at here
  have separate : found ≠ ref := by
    rintro rfl
    exact elsewhere.foreign other different here
  rw [elsewhere.heap found separate, elsewhere.total_same _ (elsewhere.uses other different),
    elsewhere.total_same _ (elsewhere.leaves found separate),
    elsewhere.total_same _ (elsewhere.holds other different)]
  exact inv.present other found here

theorem absent (elsewhere : Elsewhere s after thread owner key ref)
    (inv : Invariant kEstimatePairSize s) (other : Bytes) (different : other ≠ key)
    (missing : after.records.get other = none) :
    total (Owner.uses other) after.threads = 0 := by
  rw [elsewhere.records other different] at missing
  rw [elsewhere.total_same _ (elsewhere.uses other different)]
  exact inv.absent other missing

end Elsewhere

namespace Invariant

variable {owner : Owner} {key : Bytes} {ref : Address} {record : RefMutex}

/-- A step at a record that is in the map, and stays there. -/
theorem of_mapped (inv : Invariant kEstimatePairSize s)
    (elsewhere : Elsewhere s after thread owner key ref) (records : after.records = s.records)
    (charge : after.charge = s.charge) (mapped : s.records.get key = some ref)
    (written : ∃ record, after.heap ref = some record ∧
      record.refs = total (Owner.uses key) after.threads +
        total (Owner.leaves ref) after.threads ∧
      0 < total (Owner.uses key) after.threads ∧
      record.mu.toNat = total (Owner.holds key) after.threads)
    (awaited : ∀ found, owner.phase.awaited = some found → found = (key, ref))
    (left : ∀ found, owner.phase.left = some found → found = (key, ref)) :
    Invariant kEstimatePairSize after where
  mutex := elsewhere.mutex_after inv
  gate := elsewhere.gate_after inv
  present := by
    intro other found here
    by_cases same : other = key
    · rw [same, records, mapped, Option.some_inj] at here
      rw [same, ← here]
      exact written
    · exact elsewhere.present inv other same found here
  absent := by
    intro other missing
    by_cases same : other = key
    · rw [same, records, mapped] at missing
      cases missing
    · exact elsewhere.absent inv other same missing
  injective := by
    rw [records]
    exact inv.injective
  awaited := by
    intro other given found waits
    rw [records]
    by_cases same : other = thread
    · rw [same, elsewhere.self] at waits
      cases awaited _ waits
      exact mapped
    · rw [elsewhere.of_ne same] at waits
      exact inv.awaited other given found waits
  left := by
    intro other given found leaves
    rw [records]
    by_cases same : other = thread
    · rw [same, elsewhere.self] at leaves
      cases left _ leaves
      exact Or.inl mapped
    · rw [elsewhere.of_ne same] at leaves
      rcases inv.left other given found leaves with here | ⟨missing, unmapped, record, here, last⟩
      · exact Or.inl here
      · have separate : found ≠ ref := by
          rintro rfl
          exact unmapped key mapped
        exact Or.inr ⟨missing, unmapped, record, (elsewhere.heap found separate).trans here, last⟩
  charge := by
    rw [charge, records]
    exact inv.charge

/-- A step of the thread that gives back a record that is no longer in the map. -/
theorem of_unmapped (inv : Invariant kEstimatePairSize s)
    (elsewhere : Elsewhere s after thread owner key ref) (records : after.records = s.records)
    (charge : after.charge = s.charge) (missing : s.records.get key = none)
    (unmapped : ∀ other, s.records.get other ≠ some ref)
    (uses : owner.uses key = (s.threads thread).uses key)
    (leaving : (s.threads thread).phase.left = some (key, ref))
    (awaited : owner.phase.awaited = none)
    (left : ∀ found, owner.phase.left = some found → found = (key, ref) ∧
      ∃ record, after.heap ref = some record ∧ record.refs = 1) :
    Invariant kEstimatePairSize after where
  mutex := elsewhere.mutex_after inv
  gate := elsewhere.gate_after inv
  present := by
    intro other found here
    by_cases same : other = key
    · rw [same, records, missing] at here
      cases here
    · exact elsewhere.present inv other same found here
  absent := by
    intro other gone
    by_cases same : other = key
    · rw [same, elsewhere.total_same _ uses]
      exact inv.absent key missing
    · exact elsewhere.absent inv other same gone
  injective := by
    rw [records]
    exact inv.injective
  awaited := by
    intro other given found waits
    rw [records]
    by_cases same : other = thread
    · rw [same, elsewhere.self, awaited] at waits
      cases waits
    · rw [elsewhere.of_ne same] at waits
      exact inv.awaited other given found waits
  left := by
    intro other given found leaves
    rw [records]
    by_cases same : other = thread
    · rw [same, elsewhere.self] at leaves
      obtain ⟨eq, last⟩ := left _ leaves
      cases eq
      exact Or.inr ⟨missing, unmapped, last⟩
    · rw [elsewhere.of_ne same, inv.left_none (Phase.underMutex_of_left leaving) same] at leaves
      cases leaves
  charge := by
    rw [charge, records]
    exact inv.charge

/-- A record that is found gets another reference. -/
theorem findRecord_found (inv : Invariant kEstimatePairSize s)
    (phase : (s.threads thread).phase = .findRecord key)
    (found : s.records.get key = some ref) (here : s.heap ref = some record)
    (moved : after = (s.setRecord ref (some { record with refs := record.refs + 1 })).goto thread
      (.leaveRecords key ref)) : Invariant kEstimatePairSize after := by
  have elsewhere : Elsewhere s after thread
      { s.threads thread with phase := .leaveRecords key ref } key ref :=
    { threads := by rw [moved]; rfl
      mutex := by simp [moved, State.goto, State.setOwner, State.setRecord, Owner.underMutex, phase,
        Phase.underMutex]
      gate := by simp [moved, State.goto, State.setOwner, State.setRecord, Owner.pastGate, phase,
        Phase.pastGate]
      uses := fun other different => by simp [Owner.uses, phase, Phase.user, different.symm]
      holds := fun other _ => by simp [Owner.holds, phase, Phase.holder]
      leaves := fun other _ => by simp [Owner.leaves, phase, Phase.left]
      records := fun _ _ => by rw [moved]; rfl
      heap := fun other different => by
        simp [moved, State.goto, State.setOwner, State.setRecord, Function.update_of_ne different]
      foreign := fun other different same => different (inv.injective other key ref same found) }
  have gains := elsewhere.total_after (Owner.uses key)
  have leaves := elsewhere.total_same (Owner.leaves ref)
    (by simp [Owner.leaves, phase, Phase.left])
  have holds := elsewhere.total_same (Owner.holds key)
    (by simp [Owner.holds, phase, Phase.holder])
  have more : Owner.uses key { s.threads thread with phase := .leaveRecords key ref } =
      (s.threads thread).uses key + 1 := by simp [Owner.uses, phase, Phase.user]
  obtain ⟨old, allocated, counted, used, locked⟩ := inv.present key ref found
  obtain rfl : record = old := Option.some.inj (here.symm.trans allocated)
  refine inv.of_mapped elsewhere (by rw [moved]; rfl) (by rw [moved]; rfl) found
    ⟨{ record with refs := record.refs + 1 }, ?_, ?_, ?_, ?_⟩ ?_ ?_
  · simp [moved, State.goto, State.setOwner, State.setRecord]
  · simp only
    omega
  · omega
  · rw [holds]
    exact locked
  · intro found waits
    exact (Option.some.inj waits).symm
  · intro found leaves
    cases leaves

/-- A record that is locked becomes its thread's. -/
theorem awaitRecord_free (inv : Invariant kEstimatePairSize s)
    (phase : (s.threads thread).phase = .awaitRecord key ref) (here : s.heap ref = some record)
    (free : record.mu = false)
    (moved : after = (s.setRecord ref (some { record with mu := true })).setOwner thread
      { s.threads thread with phase := .outside, held := key :: (s.threads thread).held }) :
    Invariant kEstimatePairSize after := by
  have found : s.records.get key = some ref :=
    inv.awaited thread key ref (by rw [phase]; rfl)
  have elsewhere : Elsewhere s after thread
      { s.threads thread with phase := .outside, held := key :: (s.threads thread).held } key ref :=
    { threads := by rw [moved]; rfl
      mutex := by simp [moved, State.setOwner, State.setRecord, Owner.underMutex, phase,
        Phase.underMutex]
      gate := by simp [moved, State.setOwner, State.setRecord, Owner.pastGate, phase,
        Phase.pastGate]
      uses := fun other different => by
        simp [Owner.uses, phase, Phase.user, different.symm]
      holds := fun other different => by
        simp [Owner.holds, phase, Phase.holder, different.symm]
      leaves := fun other _ => by simp [Owner.leaves, phase, Phase.left]
      records := fun _ _ => by rw [moved]; rfl
      heap := fun other different => by
        simp [moved, State.setOwner, State.setRecord, Function.update_of_ne different]
      foreign := fun other different same => different (inv.injective other key ref same found) }
  have uses := elsewhere.total_same (Owner.uses key)
    (by simp [Owner.uses, phase, Phase.user])
  have leaves := elsewhere.total_same (Owner.leaves ref)
    (by simp [Owner.leaves, phase, Phase.left])
  have gains := elsewhere.total_after (Owner.holds key)
  have more : Owner.holds key { s.threads thread with
      phase := .outside, held := key :: (s.threads thread).held } =
        (s.threads thread).holds key + 1 := by simp [Owner.holds, phase, Phase.holder]
  obtain ⟨old, allocated, counted, used, locked⟩ := inv.present key ref found
  obtain rfl : record = old := Option.some.inj (here.symm.trans allocated)
  rw [free, Bool.toNat_false] at locked
  refine inv.of_mapped elsewhere (by rw [moved]; rfl) (by rw [moved]; rfl) found
    ⟨{ record with mu := true }, ?_, ?_, ?_, ?_⟩ ?_ ?_
  · simp [moved, State.setOwner, State.setRecord]
  · rw [uses, leaves]
    exact counted
  · rw [uses]
    exact used
  · rw [Bool.toNat_true]
    omega
  · intro found waits
    cases waits
  · intro found leaves
    cases leaves

/-- Under `mutex_` a key that is not in the map is nobody's. -/
theorem holds_eq_zero (inv : Invariant kEstimatePairSize s)
    (under : (s.threads thread).phase.underMutex = true)
    (stays : (s.threads thread).phase.left = none) (missing : s.records.get key = none) :
    total (Owner.holds key) s.threads = 0 := by
  have below : total (Owner.holds key) s.threads ≤ total (Owner.uses key) s.threads := by
    refine total_le_total fun other => Owner.holds_le_uses ?_ key
    by_cases same : other = thread
    · rw [same, stays]
    · exact inv.left_none under same
  have none := inv.absent key missing
  omega

theorem leaves_eq_zero (inv : Invariant kEstimatePairSize s)
    (under : (s.threads thread).phase.underMutex = true)
    (stays : (s.threads thread).phase.left = none) (ref : Address) :
    total (Owner.leaves ref) s.threads = 0 := by
  refine total_eq_zero.mpr fun other => ?_
  have none : (s.threads other).phase.left = none := by
    by_cases same : other = thread
    · rw [same, stays]
    · exact inv.left_none under same
  rw [Owner.leaves, none]
  rfl

omit [Fintype Thread] [DecidableEq Thread] in
theorem charged_put {records : SortedMap Bytes Address} (missing : records.get key = none)
    (ref : Address) :
    charged kEstimatePairSize (records.put key ref) =
      charged kEstimatePairSize records + State.pairCharge kEstimatePairSize key := by
  have new : key ∉ records.domain := by
    rw [SortedMap.mem_domain, missing]
    simp
  -- The two sides decide equality of keys by different instances.
  rw [charged, SortedMap.domain_put]
  refine Eq.trans ?_ ((Finset.sum_insert new).trans (add_comm _ _))
  congr!

omit [Fintype Thread] [DecidableEq Thread] in
theorem charged_erase {records : SortedMap Bytes Address} (found : records.get key = some ref) :
    charged kEstimatePairSize (records.erase key) =
      charged kEstimatePairSize records - State.pairCharge kEstimatePairSize key := by
  have old : key ∈ records.domain := by
    rw [SortedMap.mem_domain, found]
    rfl
  rw [charged, SortedMap.domain_erase, eq_sub_iff_add_eq', charged]
  refine Eq.trans ?_ (Finset.add_sum_erase _ _ old)
  congr!

/-- A record that is not found is made with one reference. -/
theorem findRecord_new (inv : Invariant kEstimatePairSize s)
    (phase : (s.threads thread).phase = .findRecord key) (missing : s.records.get key = none)
    (free : s.heap ref = none)
    (moved : after = State.goto { s.setRecord ref (some { refs := 1 }) with
        records := s.records.put key ref
        charge := s.charge + State.pairCharge kEstimatePairSize key } thread
      (.leaveRecords key ref)) : Invariant kEstimatePairSize after := by
  have under : (s.threads thread).phase.underMutex = true := by rw [phase]; rfl
  have stays : (s.threads thread).phase.left = none := by rw [phase]; rfl
  have records : after.records = s.records.put key ref := by rw [moved]; rfl
  have unmapped : ∀ other, s.records.get other ≠ some ref := by
    intro other found
    obtain ⟨record, here, _⟩ := inv.present other ref found
    rw [free] at here
    cases here
  have elsewhere : Elsewhere s after thread
      { s.threads thread with phase := .leaveRecords key ref } key ref :=
    { threads := by rw [moved]; rfl
      mutex := by simp [moved, State.goto, State.setOwner, State.setRecord, Owner.underMutex, phase,
        Phase.underMutex]
      gate := by simp [moved, State.goto, State.setOwner, State.setRecord, Owner.pastGate, phase,
        Phase.pastGate]
      uses := fun other different => by simp [Owner.uses, phase, Phase.user, different.symm]
      holds := fun other _ => by simp [Owner.holds, phase, Phase.holder]
      leaves := fun other _ => by simp [Owner.leaves, phase, Phase.left]
      records := fun other different => by
        rw [records, SortedMap.get_put]
        exact if_neg different
      heap := fun other different => by
        simp [moved, State.goto, State.setOwner, State.setRecord, Function.update_of_ne different]
      foreign := fun other _ => unmapped other }
  have mapped : after.records.get key = some ref := by
    rw [records, SortedMap.get_put_self]
  have gains := elsewhere.total_after (Owner.uses key)
  have leaves := elsewhere.total_same (Owner.leaves ref)
    (by simp [Owner.leaves, phase, Phase.left])
  have holds := elsewhere.total_same (Owner.holds key)
    (by simp [Owner.holds, phase, Phase.holder])
  have more : Owner.uses key { s.threads thread with phase := .leaveRecords key ref } =
      (s.threads thread).uses key + 1 := by simp [Owner.uses, phase, Phase.user]
  rw [inv.absent key missing] at gains
  rw [inv.leaves_eq_zero under stays] at leaves
  rw [inv.holds_eq_zero under stays missing] at holds
  constructor
  · exact elsewhere.mutex_after inv
  · exact elsewhere.gate_after inv
  · intro other found here
    by_cases same : other = key
    · subst same
      obtain rfl : ref = found := Option.some.inj (mapped.symm.trans here)
      refine ⟨{ refs := 1 }, ?_, ?_, ?_, ?_⟩
      · simp [moved, State.goto, State.setOwner, State.setRecord]
      · simp only
        omega
      · omega
      · rw [holds]
        rfl
    · exact elsewhere.present inv other same found here
  · intro other gone
    by_cases same : other = key
    · rw [same, mapped] at gone
      cases gone
    · exact elsewhere.absent inv other same gone
  · intro first second found here there
    by_cases same : first = key
    · by_cases also : second = key
      · rw [same, also]
      · rw [same, mapped, Option.some_inj] at here
        rw [elsewhere.records second also, ← here] at there
        exact absurd there (unmapped second)
    · rw [elsewhere.records first same] at here
      by_cases also : second = key
      · rw [also, mapped, Option.some_inj] at there
        rw [← there] at here
        exact absurd here (unmapped first)
      · rw [elsewhere.records second also] at there
        exact inv.injective first second found here there
  · intro other given found waits
    by_cases same : other = thread
    · rw [same, elsewhere.self] at waits
      cases waits
      exact mapped
    · rw [elsewhere.of_ne same] at waits
      have here := inv.awaited other given found waits
      have separate : given ≠ key := by
        rintro rfl
        rw [missing] at here
        cases here
      rw [elsewhere.records given separate]
      exact here
  · intro other given found leaving
    by_cases same : other = thread
    · rw [same, elsewhere.self] at leaving
      cases leaving
    · rw [elsewhere.of_ne same, inv.left_none under same] at leaving
      cases leaving
  · rw [records, charged_put missing, ← inv.charge, moved]
    rfl

/-- The key that is being unlocked has a record. -/
theorem found_of_isLastRef (inv : Invariant kEstimatePairSize s)
    (phase : (s.threads thread).phase = .isLastRef key) :
    ∃ ref record, s.records.get key = some ref ∧ s.heap ref = some record ∧
      record.refs = total (Owner.uses key) s.threads ∧
      record.mu.toNat = total (Owner.holds key) s.threads := by
  have under : (s.threads thread).phase.underMutex = true := by rw [phase]; rfl
  have stays : (s.threads thread).phase.left = none := by rw [phase]; rfl
  have uses : 0 < total (Owner.uses key) s.threads := by
    refine total_pos.mpr ⟨thread, ?_⟩
    rw [Owner.uses, phase, Phase.user, if_pos rfl]
    exact Nat.succ_pos _
  cases found : s.records.get key with
  | none =>
      have none := inv.absent key found
      omega
  | some ref =>
      obtain ⟨record, here, counted, _, locked⟩ := inv.present key ref found
      refine ⟨ref, record, rfl, here, ?_, locked⟩
      rw [counted, inv.leaves_eq_zero under stays]
      rfl

omit [Fintype Thread] in
/-- The steps of a thread that gives back a record. -/
theorem elsewhere_isLastRef (phase : (s.threads thread).phase = .isLastRef key)
    (unlocking : after.threads = Function.update s.threads thread
      { s.threads thread with phase := .refUnlock key ref })
    (mutex : after.mutex = s.mutex) (gMutex : after.gMutex = s.gMutex)
    (records : ∀ other, other ≠ key → after.records.get other = s.records.get other)
    (heap : after.heap = s.heap)
    (foreign : ∀ other, other ≠ key → s.records.get other ≠ some ref) :
    Elsewhere s after thread { s.threads thread with phase := .refUnlock key ref } key ref where
  threads := unlocking
  mutex := by simp [mutex, Owner.underMutex, phase, Phase.underMutex]
  gate := by simp [gMutex, Owner.pastGate, phase, Phase.pastGate]
  uses := fun other different => by simp [Owner.uses, phase, Phase.user, different.symm]
  holds := fun other different => by simp [Owner.holds, phase, Phase.holder, different.symm]
  leaves := fun other different => by simp [Owner.leaves, phase, Phase.left, different.symm]
  records := records
  heap := fun other _ => by rw [heap]
  foreign := foreign

/-- A record with other references stays in the map. -/
theorem isLastRef_kept (inv : Invariant kEstimatePairSize s)
    (phase : (s.threads thread).phase = .isLastRef key) (found : s.records.get key = some ref)
    (here : s.heap ref = some record) (shared : record.refs ≠ 1)
    (moved : after = s.goto thread (.refUnlock key ref)) : Invariant kEstimatePairSize after := by
  obtain ⟨address, old, mapped, allocated, counted, locked⟩ := inv.found_of_isLastRef phase
  obtain rfl : ref = address := Option.some.inj (found.symm.trans mapped)
  obtain rfl : record = old := Option.some.inj (here.symm.trans allocated)
  have under : (s.threads thread).phase.underMutex = true := by rw [phase]; rfl
  have stays : (s.threads thread).phase.left = none := by rw [phase]; rfl
  have elsewhere : Elsewhere s after thread { s.threads thread with phase := .refUnlock key ref }
      key ref :=
    elsewhere_isLastRef phase (by rw [moved]; rfl) (by rw [moved]; rfl) (by rw [moved]; rfl)
      (fun _ _ => by rw [moved]; rfl) (by rw [moved]; rfl)
      fun other different same => different (inv.injective other key ref same found)
  have gains := elsewhere.total_after (Owner.uses key)
  have leaves := elsewhere.total_after (Owner.leaves ref)
  have holds := elsewhere.total_same (Owner.holds key)
    (by simp [Owner.holds, phase, Phase.holder])
  have before : (s.threads thread).uses key =
      Owner.uses key { s.threads thread with phase := .refUnlock key ref } + 1 := by
    simp [Owner.uses, phase, Phase.user]
  have nothing : (s.threads thread).leaves ref = 0 := by simp [Owner.leaves, phase, Phase.left]
  have one : Owner.leaves ref { s.threads thread with phase := .refUnlock key ref } = 1 := by
    simp [Owner.leaves, Phase.left]
  rw [inv.leaves_eq_zero under stays] at leaves
  refine inv.of_mapped elsewhere (by rw [moved]; rfl) (by rw [moved]; rfl) found
    ⟨record, ?_, ?_, ?_, ?_⟩ ?_ ?_
  · rw [moved]
    exact here
  · omega
  · omega
  · rw [holds]
    exact locked
  · intro found waits
    cases waits
  · intro found leaves
    exact (Option.some.inj leaves).symm

/-- A record without other references leaves the map. -/
theorem isLastRef_last (inv : Invariant kEstimatePairSize s)
    (phase : (s.threads thread).phase = .isLastRef key) (found : s.records.get key = some ref)
    (here : s.heap ref = some record) (last : record.refs = 1)
    (moved : after = State.goto { s with
        records := s.records.erase key
        charge := s.charge - State.pairCharge kEstimatePairSize key } thread
      (.refUnlock key ref)) : Invariant kEstimatePairSize after := by
  obtain ⟨address, old, mapped, allocated, counted, locked⟩ := inv.found_of_isLastRef phase
  obtain rfl : ref = address := Option.some.inj (found.symm.trans mapped)
  obtain rfl : record = old := Option.some.inj (here.symm.trans allocated)
  have under : (s.threads thread).phase.underMutex = true := by rw [phase]; rfl
  have records : after.records = s.records.erase key := by rw [moved]; rfl
  have kept : ∀ other, other ≠ key → after.records.get other = s.records.get other := by
    intro other different
    rw [records, SortedMap.get_erase]
    exact if_neg different
  have gone : after.records.get key = none := by rw [records, SortedMap.get_erase_self]
  have elsewhere : Elsewhere s after thread { s.threads thread with phase := .refUnlock key ref }
      key ref :=
    elsewhere_isLastRef phase (by rw [moved]; rfl) (by rw [moved]; rfl) (by rw [moved]; rfl)
      kept (by rw [moved]; rfl)
      fun other different same => different (inv.injective other key ref same found)
  have gains := elsewhere.total_after (Owner.uses key)
  have before : (s.threads thread).uses key =
      Owner.uses key { s.threads thread with phase := .refUnlock key ref } + 1 := by
    simp [Owner.uses, phase, Phase.user]
  have unmapped : ∀ other, after.records.get other ≠ some ref := by
    intro other there
    by_cases same : other = key
    · rw [same, gone] at there
      cases there
    · rw [kept other same] at there
      exact same (inv.injective other key ref there found)
  constructor
  · exact elsewhere.mutex_after inv
  · exact elsewhere.gate_after inv
  · intro other found here
    by_cases same : other = key
    · rw [same, gone] at here
      cases here
    · exact elsewhere.present inv other same found here
  · intro other missing
    by_cases same : other = key
    · rw [same]
      omega
    · exact elsewhere.absent inv other same missing
  · intro first second found here there
    by_cases same : first = key
    · rw [same, gone] at here
      cases here
    · by_cases also : second = key
      · rw [also, gone] at there
        cases there
      · rw [kept first same] at here
        rw [kept second also] at there
        exact inv.injective first second found here there
  · intro other given found waits
    by_cases same : other = thread
    · rw [same, elsewhere.self] at waits
      cases waits
    · rw [elsewhere.of_ne same] at waits
      -- Whoever waits for the key counts as well.
      have separate : given ≠ key := by
        rintro rfl
        have one : total (Owner.uses given) s.threads ≤ 1 := by omega
        refine same (eq_of_total_le_one one ?_ ?_)
        · rw [Owner.uses, Phase.user_of_awaited waits, if_pos rfl]
          exact Nat.succ_pos _
        · omega
      rw [kept given separate]
      exact inv.awaited other given found waits
  · intro other given found leaving
    by_cases same : other = thread
    · rw [same, elsewhere.self] at leaving
      obtain ⟨rfl, rfl⟩ : key = given ∧ ref = found := by simpa [Phase.left] using leaving
      refine Or.inr ⟨gone, unmapped, record, ?_, last⟩
      rw [moved]
      exact here
    · rw [elsewhere.of_ne same, inv.left_none under same] at leaving
      cases leaving
  · rw [records, charged_erase found, ← inv.charge, moved]
    rfl

/-- The mutex of a record is unlocked before its reference is given back. -/
theorem refUnlock_unlocked (inv : Invariant kEstimatePairSize s)
    (phase : (s.threads thread).phase = .refUnlock key ref) (here : s.heap ref = some record)
    (moved : after = (s.setRecord ref (some { record with mu := false })).goto thread
      (.unref key ref)) : Invariant kEstimatePairSize after := by
  have leaving : (s.threads thread).phase.left = some (key, ref) := by rw [phase]; rfl
  have records : after.records = s.records := by rw [moved]; rfl
  have written : after.heap ref = some { record with mu := false } := by
    simp [moved, State.goto, State.setOwner, State.setRecord]
  have foreign : ∀ other, other ≠ key → s.records.get other ≠ some ref := by
    intro other different same
    rcases inv.left thread key ref leaving with found | ⟨_, unmapped, _⟩
    · exact different (inv.injective other key ref same found)
    · exact unmapped other same
  have elsewhere : Elsewhere s after thread { s.threads thread with phase := .unref key ref }
      key ref :=
    { threads := by rw [moved]; rfl
      mutex := by simp [moved, State.goto, State.setOwner, State.setRecord, Owner.underMutex, phase,
        Phase.underMutex]
      gate := by simp [moved, State.goto, State.setOwner, State.setRecord, Owner.pastGate, phase,
        Phase.pastGate]
      uses := fun other _ => by simp [Owner.uses, phase, Phase.user]
      holds := fun other different => by simp [Owner.holds, phase, Phase.holder, different.symm]
      leaves := fun other _ => by simp [Owner.leaves, phase, Phase.left]
      records := fun _ _ => by rw [records]
      heap := fun other different => by
        simp [moved, State.goto, State.setOwner, State.setRecord, Function.update_of_ne different]
      foreign := foreign }
  have uses : Owner.uses key { s.threads thread with phase := .unref key ref } =
      (s.threads thread).uses key := by simp [Owner.uses, phase, Phase.user]
  rcases inv.left thread key ref leaving with found | ⟨missing, unmapped, old, allocated, last⟩
  · obtain ⟨old, allocated, counted, used, locked⟩ := inv.present key ref found
    obtain rfl : record = old := Option.some.inj (here.symm.trans allocated)
    have leaves := elsewhere.total_same (Owner.leaves ref)
      (by simp [Owner.leaves, phase, Phase.left])
    have losing := elsewhere.total_after (Owner.holds key)
    have before : (s.threads thread).holds key =
        Owner.holds key { s.threads thread with phase := .unref key ref } + 1 := by
      simp [Owner.holds, phase, Phase.holder]
    have one : record.mu.toNat ≤ 1 := Bool.toNat_le _
    refine inv.of_mapped elsewhere records (by rw [moved]; rfl) found
      ⟨{ record with mu := false }, written, ?_, ?_, ?_⟩ ?_ ?_
    · rw [elsewhere.total_same _ uses, leaves]
      exact counted
    · rw [elsewhere.total_same _ uses]
      exact used
    · rw [Bool.toNat_false]
      omega
    · intro found waits
      cases waits
    · intro found leaves
      exact (Option.some.inj leaves).symm
  · obtain rfl : record = old := Option.some.inj (here.symm.trans allocated)
    refine inv.of_unmapped elsewhere records (by rw [moved]; rfl) missing unmapped uses leaving rfl ?_
    intro found leaves
    exact ⟨(Option.some.inj leaves).symm, _, written, last⟩

/-- A record that loses its last reference is in nobody's hands. -/
theorem unref_released (inv : Invariant kEstimatePairSize s)
    (phase : (s.threads thread).phase = .unref key ref) (here : s.heap ref = some record)
    (moved : after = (s.setRecord ref
        (if record.refs - 1 = 0 then none else some { record with refs := record.refs - 1 })).goto
      thread .unlocked) : Invariant kEstimatePairSize after := by
  have leaving : (s.threads thread).phase.left = some (key, ref) := by rw [phase]; rfl
  have records : after.records = s.records := by rw [moved]; rfl
  have foreign : ∀ other, other ≠ key → s.records.get other ≠ some ref := by
    intro other different same
    rcases inv.left thread key ref leaving with found | ⟨_, unmapped, _⟩
    · exact different (inv.injective other key ref same found)
    · exact unmapped other same
  have elsewhere : Elsewhere s after thread { s.threads thread with phase := .unlocked } key ref :=
    { threads := by rw [moved]; rfl
      mutex := by simp [moved, State.goto, State.setOwner, State.setRecord, Owner.underMutex, phase,
        Phase.underMutex]
      gate := by simp [moved, State.goto, State.setOwner, State.setRecord, Owner.pastGate, phase,
        Phase.pastGate]
      uses := fun other _ => by simp [Owner.uses, phase, Phase.user]
      holds := fun other _ => by simp [Owner.holds, phase, Phase.holder]
      leaves := fun other different => by simp [Owner.leaves, phase, Phase.left, different.symm]
      records := fun _ _ => by rw [records]
      heap := fun other different => by
        simp [moved, State.goto, State.setOwner, State.setRecord, Function.update_of_ne different]
      foreign := foreign }
  have uses : Owner.uses key { s.threads thread with phase := .unlocked } =
      (s.threads thread).uses key := by simp [Owner.uses, phase, Phase.user]
  rcases inv.left thread key ref leaving with found | ⟨missing, unmapped, _⟩
  · obtain ⟨old, allocated, counted, used, locked⟩ := inv.present key ref found
    obtain rfl : record = old := Option.some.inj (here.symm.trans allocated)
    have holds := elsewhere.total_same (Owner.holds key)
      (by simp [Owner.holds, phase, Phase.holder])
    have losing := elsewhere.total_after (Owner.leaves ref)
    have before : (s.threads thread).leaves ref = 1 := by simp [Owner.leaves, phase, Phase.left]
    have nothing : Owner.leaves ref { s.threads thread with phase := .unlocked } = 0 := by
      simp [Owner.leaves, Phase.left]
    have shared : record.refs - 1 ≠ 0 := by omega
    rw [if_neg shared] at moved
    refine inv.of_mapped elsewhere records (by rw [moved]; rfl) found
      ⟨{ record with refs := record.refs - 1 }, ?_, ?_, ?_, ?_⟩ ?_ ?_
    · simp [moved, State.goto, State.setOwner, State.setRecord]
    · rw [elsewhere.total_same _ uses]
      simp only
      omega
    · rw [elsewhere.total_same _ uses]
      exact used
    · rw [holds]
      exact locked
    · intro found waits
      cases waits
    · intro found leaves
      cases leaves
  · refine inv.of_unmapped elsewhere records (by rw [moved]; rfl) missing unmapped uses leaving rfl ?_
    intro found leaves
    cases leaves

end Invariant

end Vcdb.RecordMutex
