import Vcdb.Util.RecordInvariant

/-!
# Runs of the record lock

Any number of threads lock and unlock any keys, in any order of their steps: a key has one holder at
most, its record counts exactly the threads that hold it or wait for it, and is deleted when there
are none.
-/

namespace Vcdb.RecordMutex

open Interleaving

variable {Thread : Type} [Fintype Thread] [DecidableEq Thread] {kEstimatePairSize : ℕ+}
  {s after : State Thread} {thread : Thread}

namespace Invariant

/-- A step from one phase to another one that counts alike. -/
theorem of_calm (inv : Invariant kEstimatePairSize s) (phase : Phase) (flushing : Bool)
    (threads : after.threads = Function.update s.threads thread
      { s.threads thread with phase, flushing })
    (records : after.records = s.records) (heap : after.heap = s.heap)
    (charge : after.charge = s.charge) (calm : phase.marks = (s.threads thread).phase.marks)
    (mutex : after.mutex.toNat + (s.threads thread).phase.underMutex.toNat =
      s.mutex.toNat + phase.underMutex.toNat)
    (gate : after.gMutex.toNat + (s.threads thread).pastGate =
      s.gMutex.toNat + (phase.pastGate.toNat + flushing.toNat)) :
    Invariant kEstimatePairSize after := by
  have moves : Moves s after thread { s.threads thread with phase, flushing } :=
    ⟨threads, mutex, gate⟩
  obtain ⟨user, holder, awaited, left⟩ := Phase.marks_eq.mp calm
  refine inv.of_alike moves ⟨fun key => ?_, fun key => ?_, awaited, left⟩ records heap charge
  · rw [Owner.uses, Owner.uses, user]
  · rw [Owner.holds, Owner.holds, holder]

omit [DecidableEq Thread] in
/-- A thread under `mutex_` has locked it. -/
theorem mutex_of_underMutex (inv : Invariant kEstimatePairSize s) {phase : Phase}
    (here : (s.threads thread).phase = phase) (under : phase.underMutex = true) :
    s.mutex = true := by
  have counts := le_total Owner.underMutex s.threads thread
  rw [inv.mutex, Owner.underMutex, here, under, Bool.toNat_true] at counts
  exact Bool.toNat_eq_one.mp (Nat.le_antisymm (Bool.toNat_le _) counts)

omit [DecidableEq Thread] in
/-- A thread behind the gate has locked it, and counts once. -/
theorem gMutex_of_pastGate (inv : Invariant kEstimatePairSize s)
    (past : 0 < (s.threads thread).pastGate) :
    s.gMutex = true ∧ (s.threads thread).pastGate = 1 := by
  have counts := le_total Owner.pastGate s.threads thread
  have one : s.gMutex.toNat ≤ 1 := Bool.toNat_le _
  rw [inv.gate] at counts
  exact ⟨Bool.toNat_eq_one.mp (by omega), by omega⟩

omit [Fintype Thread] [DecidableEq Thread] in
theorem pastGate_of_phase {phase : Phase} (here : (s.threads thread).phase = phase) :
    (s.threads thread).pastGate = phase.pastGate.toNat + (s.threads thread).flushing.toNat := by
  rw [Owner.pastGate, here]

/-- A step at which the thread locks `mutex_`. -/
theorem of_mutex_locked (inv : Invariant kEstimatePairSize s) {phase : Phase} (next : Phase)
    (here : (s.threads thread).phase = phase) (free : s.mutex = false)
    (calm : next.marks = phase.marks) (outside : phase.underMutex = false)
    (under : next.underMutex = true) (gate : next.pastGate = phase.pastGate) :
    Invariant kEstimatePairSize (State.goto { s with mutex := true } thread next) := by
  refine inv.of_calm next _ rfl rfl rfl rfl (by rw [calm, here]) ?_ ?_
  · rw [here, free, outside, under]
    rfl
  · rw [pastGate_of_phase here, gate]
    rfl

/-- A step at which the thread unlocks `mutex_`. -/
theorem of_mutex_unlocked (inv : Invariant kEstimatePairSize s) {phase : Phase} (next : Phase)
    (here : (s.threads thread).phase = phase) (calm : next.marks = phase.marks)
    (under : phase.underMutex = true) (outside : next.underMutex = false)
    (gate : next.pastGate = phase.pastGate) :
    Invariant kEstimatePairSize (State.goto { s with mutex := false } thread next) := by
  refine inv.of_calm next _ rfl rfl rfl rfl (by rw [calm, here]) ?_ ?_
  · rw [here, inv.mutex_of_underMutex here under, outside, under]
    rfl
  · rw [pastGate_of_phase here, gate]
    rfl

/-- A step at which the thread locks the gate. -/
theorem of_gate_locked (inv : Invariant kEstimatePairSize s) {phase : Phase} (next : Phase)
    (here : (s.threads thread).phase = phase) (free : s.gMutex = false)
    (calm : next.marks = phase.marks) (mutex : next.underMutex = phase.underMutex)
    (outside : phase.pastGate = false) (past : next.pastGate = true) :
    Invariant kEstimatePairSize (State.goto { s with gMutex := true } thread next) := by
  refine inv.of_calm next _ rfl rfl rfl rfl (by rw [calm, here]) ?_ ?_
  · rw [here, mutex]
    rfl
  · rw [pastGate_of_phase here, free, outside, past]
    simp [State.goto, State.setOwner]

/-- Every step of an operation that is under way keeps the invariant. -/
theorem advance (inv : Invariant kEstimatePairSize s) {fresh : Address}
    (moved : s.advance kEstimatePairSize thread fresh = some after) :
    Invariant kEstimatePairSize after := by
  unfold State.advance at moved
  cases phase : (s.threads thread).phase with
  | outside => simp [phase] at moved
  | lock key =>
      simp only [phase] at moved
      split_ifs at moved with locked
      rw [Bool.not_eq_true] at locked
      rw [← Option.some.inj moved]
      exact inv.of_gate_locked (.passGate key) phase locked rfl rfl rfl rfl
  | passGate key =>
      simp only [phase] at moved
      rw [← Option.some.inj moved]
      have gate := pastGate_of_phase phase
      have locked := (inv.gMutex_of_pastGate (by rw [gate]; exact Nat.add_pos_left Nat.one_pos _)).1
      refine inv.of_calm (.lockKeyInternal key) _ rfl rfl rfl rfl (by rw [phase]; rfl)
        (by rw [phase]; rfl) ?_
      rw [gate, locked]
      simp [State.goto, State.setOwner, Phase.pastGate]
  | lockKeyInternal key =>
      simp only [phase] at moved
      split_ifs at moved with locked
      rw [Bool.not_eq_true] at locked
      rw [← Option.some.inj moved]
      exact inv.of_mutex_locked (.findRecord key) phase locked rfl rfl rfl rfl
  | findRecord key =>
      simp only [phase, State.findRecord] at moved
      cases found : s.records.get key with
      | none =>
          simp only [found] at moved
          split_ifs at moved with allocated
          rw [Option.not_isSome_iff_eq_none] at allocated
          exact inv.findRecord_new phase found allocated (Option.some.inj moved).symm
      | some ref =>
          simp only [found] at moved
          obtain ⟨record, here, same⟩ := Option.map_eq_some_iff.mp moved
          exact inv.findRecord_found phase found here same.symm
  | leaveRecords key ref =>
      simp only [phase] at moved
      rw [← Option.some.inj moved]
      exact inv.of_mutex_unlocked (.awaitRecord key ref) phase rfl rfl rfl rfl
  | awaitRecord key ref =>
      simp only [phase] at moved
      cases here : s.heap ref with
      | none => simp [here] at moved
      | some record =>
          simp only [here] at moved
          split_ifs at moved with locked
          rw [Bool.not_eq_true] at locked
          exact inv.awaitRecord_free phase here locked (Option.some.inj moved).symm
  | unlock key =>
      simp only [phase] at moved
      split_ifs at moved with locked
      rw [Bool.not_eq_true] at locked
      rw [← Option.some.inj moved]
      exact inv.of_mutex_locked (.isLastRef key) phase locked rfl rfl rfl rfl
  | isLastRef key =>
      simp only [phase, State.isLastRef] at moved
      obtain ⟨ref, record, found, here, _⟩ := inv.found_of_isLastRef phase
      simp only [found, here, Option.map_some, Option.some_inj] at moved
      by_cases last : record.refs = 1
      · rw [if_pos last] at moved
        exact inv.isLastRef_last phase found here last moved.symm
      · rw [if_neg last] at moved
        exact inv.isLastRef_kept phase found here last moved.symm
  | refUnlock key ref =>
      simp only [phase] at moved
      obtain ⟨record, here, same⟩ := Option.map_eq_some_iff.mp moved
      exact inv.refUnlock_unlocked phase here same.symm
  | unref key ref =>
      simp only [phase, State.unref] at moved
      obtain ⟨record, here, same⟩ := Option.map_eq_some_iff.mp moved
      exact inv.unref_released phase here same.symm
  | unlocked =>
      simp only [phase] at moved
      rw [← Option.some.inj moved]
      exact inv.of_mutex_unlocked .outside phase rfl rfl rfl rfl
  | lockAll =>
      simp only [phase] at moved
      split_ifs at moved with locked
      rw [Bool.not_eq_true] at locked
      rw [← Option.some.inj moved]
      exact inv.of_gate_locked .getUsage phase locked rfl rfl rfl rfl
  | getUsage =>
      simp only [phase] at moved
      split_ifs at moved with locked
      rw [Bool.not_eq_true] at locked
      rw [← Option.some.inj moved]
      exact inv.of_mutex_locked .readUsage phase locked rfl rfl rfl rfl
  | readUsage =>
      simp only [phase] at moved
      rw [← Option.some.inj moved]
      exact inv.of_calm (.usage s.charge) _ rfl rfl rfl rfl (by rw [phase]; rfl)
        (by rw [phase]; rfl) (by rw [pastGate_of_phase phase]; rfl)
  | usage size =>
      simp only [phase] at moved
      split_ifs at moved with busy
      · rw [← Option.some.inj moved]
        exact inv.of_mutex_unlocked .getUsage phase rfl rfl rfl rfl
      · rw [← Option.some.inj moved]
        have gate := pastGate_of_phase phase
        have once := (inv.gMutex_of_pastGate
          (by rw [gate]; exact Nat.add_pos_left Nat.one_pos _)).2
        refine inv.of_calm .outside true rfl rfl rfl rfl (by rw [phase]; rfl) ?_ ?_
        · rw [phase, inv.mutex_of_underMutex phase rfl]
          rfl
        · rw [once]
          rfl

/-- So does every call. -/
theorem step (inv : Invariant kEstimatePairSize s) {event : Event}
    (moved : s.step kEstimatePairSize thread event = some after) :
    Invariant kEstimatePairSize after := by
  cases event with
  | advance fresh => exact inv.advance moved
  | lock key =>
      simp only [State.step] at moved
      split_ifs at moved with phase
      rw [← Option.some.inj moved]
      exact inv.of_calm (.lock key) _ rfl rfl rfl rfl (by rw [phase]; rfl) (by rw [phase]; rfl)
        (by rw [pastGate_of_phase phase]; rfl)
  | unlock key =>
      simp only [State.step] at moved
      split_ifs at moved with called
      obtain ⟨phase, held⟩ := called
      rw [List.contains_iff_mem] at held
      rw [← Option.some.inj moved]
      have counted : ∀ other, (s.threads thread).held.count other =
          ((s.threads thread).held.erase key).count other + if key = other then 1 else 0 := by
        intro other
        rw [List.count_erase]
        by_cases same : key = other
        · have present : 0 < (s.threads thread).held.count other :=
            List.count_pos_iff.mpr (same ▸ held)
          simp only [same, beq_self_eq_true, if_true]
          omega
        · simp [same]
      refine inv.of_alike ⟨rfl, by rw [Owner.underMutex, phase]; rfl,
        by rw [pastGate_of_phase phase]; rfl⟩ ⟨fun other => ?_, fun other => ?_, ?_, ?_⟩ rfl rfl rfl
      · rw [Owner.uses, Owner.uses, counted other, phase]
        simp [Phase.user]
      · rw [Owner.holds, Owner.holds, counted other, phase]
        simp [Phase.holder]
      · rw [phase]
        rfl
      · rw [phase]
        rfl
  | lockAll =>
      simp only [State.step] at moved
      split_ifs at moved with phase
      rw [← Option.some.inj moved]
      exact inv.of_calm .lockAll _ rfl rfl rfl rfl (by rw [phase]; rfl) (by rw [phase]; rfl)
        (by rw [pastGate_of_phase phase]; rfl)
  | unlockAll =>
      simp only [State.step] at moved
      split_ifs at moved with called
      obtain ⟨phase, flushing⟩ := called
      rw [← Option.some.inj moved]
      have gate := pastGate_of_phase phase
      rw [flushing] at gate
      have locked := (inv.gMutex_of_pastGate (by rw [gate]; exact Nat.one_pos)).1
      refine inv.of_calm (s.threads thread).phase false rfl rfl rfl rfl rfl rfl ?_
      rw [gate, locked, phase]
      rfl

/-- The invariant holds in every state reached. -/
theorem of_reached (reached : Reached (State.step kEstimatePairSize) (fun _ _ _ => True) {} s) :
    Invariant kEstimatePairSize s :=
  reached.invariant _ invariant_initial fun _ _ _ _ inv _ moved => inv.step moved

end Invariant

/-! ### Mutual exclusion and bookkeeping -/

namespace State

/-- Between the return of `Lock(key)` and the unlocking of the record in `Unlock(key)`. -/
def Holds (s : State Thread) (thread : Thread) (key : Bytes) : Prop :=
  key ∈ (s.threads thread).held ∨ (s.threads thread).phase.holder = some key

/-- In `Lock(key)` with a reference to the record. -/
def Waits (s : State Thread) (thread : Thread) (key : Bytes) : Prop :=
  (s.threads thread).phase.awaited.map Prod.fst = some key

/-- In `Unlock` with the record unlocked and the reference about to be given back. -/
def Returns (s : State Thread) (thread : Thread) (ref : Address) : Prop :=
  ∃ key, (s.threads thread).phase = .unref key ref

omit [Fintype Thread] [DecidableEq Thread] in
theorem holds_iff {key : Bytes} : s.Holds thread key ↔ 0 < (s.threads thread).holds key := by
  rw [Holds, Owner.holds, ← List.count_pos_iff]
  split_ifs with holder
  · simp [holder]
  · simp [holder]

end State

/-- What holds in every state: a key has one holder; its record counts the threads that hold it,
that wait for it and that are giving it back; a record that anybody needs is in the map and not
deleted, unless it is in the hands of the only thread under `mutex_`; the charge is that of the
records present, and is zero when nobody needs one. -/
structure Bookkeeping (kEstimatePairSize : ℕ+) (s : State Thread) : Prop where
  exclusive : ∀ key first second, s.Holds first key → s.Holds second key → first = second
  counted : ∀ key ref, s.records.get key = some ref → ∃ record, s.heap ref = some record ∧
    record.refs = (Set.ncard {thread | s.Holds thread key} +
      Set.ncard {thread | s.Waits thread key} + Set.ncard {thread | s.Returns thread ref} : Nat)
  mapped : ∀ thread key, s.Holds thread key ∨ s.Waits thread key →
    (∃ ref record, s.records.get key = some ref ∧ s.heap ref = some record) ∨
      ∃ ref, (s.threads thread).phase = .refUnlock key ref
  allocated : ∀ thread key ref, (s.threads thread).phase.awaited = some (key, ref) ∨
    (s.threads thread).phase.left = some (key, ref) → ∃ record, s.heap ref = some record
  alone : ∀ thread key ref, (s.threads thread).phase.left = some (key, ref) →
    s.mutex = true ∧ ∀ other, other ≠ thread → (s.threads other).phase.underMutex = false
  charge : s.charge =
    s.records.domain.sum fun key => ((kEstimatePairSize : Nat) + key.length : Int)
  usage : s.charge = 0 ↔ ∀ thread key, s.Holds thread key ∨ s.Waits thread key →
    ∃ ref, (s.threads thread).phase = .refUnlock key ref

namespace Invariant

variable {key : Bytes} {ref : Address}

omit [DecidableEq Thread] in
theorem total_holds_le_one (inv : Invariant kEstimatePairSize s) (key : Bytes) :
    total (Owner.holds key) s.threads ≤ 1 := by
  cases found : s.records.get key with
  | some ref =>
      obtain ⟨record, _, _, _, locked⟩ := inv.present key ref found
      rw [← locked]
      exact Bool.toNat_le _
  | none =>
      -- Nobody uses the key, so its holder is the thread under `mutex_`.
      have below : total (Owner.holds key) s.threads ≤ total Owner.underMutex s.threads := by
        refine total_le_total fun thread => ?_
        have unused := total_eq_zero.mp (inv.absent key found) thread
        rw [Owner.uses, Nat.add_eq_zero_iff] at unused
        rw [Owner.holds, unused.1, Nat.zero_add]
        split_ifs with holder
        · rcases Phase.user_or_refUnlock holder with user | ⟨ref, phase⟩
          · rw [if_pos user] at unused
            exact absurd unused.2 one_ne_zero
          · rw [Owner.underMutex, phase]
            exact le_rfl
        · exact Nat.zero_le _
      rw [inv.mutex] at below
      exact below.trans (Bool.toNat_le _)

omit [DecidableEq Thread] in
/-- The references of a record are those of the threads that hold it, wait for it or have just
unlocked it. -/
theorem refs_eq (inv : Invariant kEstimatePairSize s) (found : s.records.get key = some ref) :
    total (Owner.uses key) s.threads + total (Owner.leaves ref) s.threads =
      Set.ncard {thread | s.Holds thread key} + Set.ncard {thread | s.Waits thread key} +
        Set.ncard {thread | s.Returns thread ref} := by
  have most := inv.total_holds_le_one key
  have holders : total (Owner.holds key) s.threads = Set.ncard {thread | s.Holds thread key} := by
    refine total_eq_ncard (fun thread here => ?_) fun thread not => ?_
    · have positive := State.holds_iff.mp here
      have below := le_total (Owner.holds key) s.threads thread
      omega
    · rw [State.holds_iff] at not
      omega
  let waits (owner : Owner) : Nat := if owner.phase.awaited.map Prod.fst = some key then 1 else 0
  have waiters : total waits s.threads = Set.ncard {thread | s.Waits thread key} :=
    total_eq_ncard (fun _ here => if_pos here) fun _ not => if_neg not
  let returns (owner : Owner) : Nat := if owner.phase.returned = some ref then 1 else 0
  have returners : total returns s.threads = Set.ncard {thread | s.Returns thread ref} :=
    total_eq_ncard (fun _ here => if_pos (Phase.returned_eq.mpr here))
      fun _ not => if_neg fun here => not (Phase.returned_eq.mp here)
  rw [← holders, ← waiters, ← returners, ← total_add, ← total_add, ← total_add]
  refine total_congr fun thread => ?_
  have leaving : ∀ given address, (s.threads thread).phase.left = some (given, address) →
      (given = key ↔ address = ref) := by
    intro given address leaves
    rcases inv.left thread given address leaves with here | ⟨missing, unmapped, _⟩
    · constructor
      · rintro rfl
        exact Option.some.inj (here.symm.trans found)
      · rintro rfl
        exact inv.injective given key address here found
    · constructor
      · rintro rfl
        rw [missing] at found
        cases found
      · rintro rfl
        exact absurd found (unmapped key)
  simp only [Owner.uses, Owner.leaves, Owner.holds, waits, returns]
  cases phase : (s.threads thread).phase with
  | refUnlock given address =>
      have iff := leaving given address (by rw [phase]; rfl)
      simp [Phase.user, Phase.left, Phase.holder, Phase.awaited, Phase.returned, iff]
  | _ => simp [Phase.user, Phase.left, Phase.holder, Phase.awaited, Phase.returned]

omit [DecidableEq Thread] in
/-- Whoever holds a key or waits for it uses its record, or is giving it back. -/
theorem uses_of_needs (thread : Thread) {key : Bytes}
    (needs : s.Holds thread key ∨ s.Waits thread key) :
    0 < total (Owner.uses key) s.threads ∨ ∃ ref, (s.threads thread).phase = .refUnlock key ref := by
  have counts : (s.threads thread).phase.user = some key →
      0 < total (Owner.uses key) s.threads := by
    intro user
    refine total_pos.mpr ⟨thread, ?_⟩
    rw [Owner.uses, if_pos user]
    exact Nat.succ_pos _
  rcases needs with (held | holder) | waits
  · refine Or.inl (total_pos.mpr ⟨thread, ?_⟩)
    exact Nat.add_pos_left (List.count_pos_iff.mpr held) _
  · exact (Phase.user_or_refUnlock holder).imp_left counts
  · obtain ⟨⟨given, ref⟩, awaited, rfl⟩ := Option.map_eq_some_iff.mp waits
    exact Or.inl (counts (Phase.user_of_awaited awaited))

omit [DecidableEq Thread] in
/-- A record that is used is held or waited for by a thread that is not giving it back. -/
theorem needs_of_uses (inv : Invariant kEstimatePairSize s)
    (uses : 0 < total (Owner.uses key) s.threads) :
    ∃ thread, (s.Holds thread key ∨ s.Waits thread key) ∧
      ∀ ref, (s.threads thread).phase ≠ .refUnlock key ref := by
  obtain ⟨thread, counts⟩ := total_pos.mp uses
  rw [Owner.uses, Nat.add_pos_iff_pos_or_pos] at counts
  rcases counts with held | user
  · refine ⟨thread, Or.inl (Or.inl (List.count_pos_iff.mp held)), fun ref phase => ?_⟩
    have once := (le_total (Owner.holds key) s.threads thread).trans (inv.total_holds_le_one key)
    rw [Owner.holds, phase, Phase.holder, if_pos rfl] at once
    omega
  · have user : (s.threads thread).phase.user = some key := by
      by_contra other
      rw [if_neg other] at user
      exact Nat.lt_irrefl 0 user
    refine ⟨thread, ?_, fun ref phase => ?_⟩
    · exact (Phase.awaited_or_holder user).elim Or.inr fun holder => Or.inl (Or.inr holder)
    · rw [phase] at user
      cases user

omit [DecidableEq Thread] in
theorem charge_eq_zero (inv : Invariant kEstimatePairSize s) :
    s.charge = 0 ↔ ∀ key, s.records.get key = none := by
  have positive : ∀ key, 0 < State.pairCharge kEstimatePairSize key := by
    intro key
    have size := kEstimatePairSize.pos
    rw [State.pairCharge]
    omega
  rw [inv.charge, charged, Finset.sum_eq_zero_iff_of_nonneg fun key _ => (positive key).le]
  constructor
  · intro none key
    by_contra found
    have mem : key ∈ s.records.domain :=
      SortedMap.mem_domain.mpr (Option.isSome_iff_ne_none.mpr found)
    exact absurd (none key mem) (positive key).ne'
  · intro none key mem
    rw [SortedMap.mem_domain, none key] at mem
    cases mem

end Invariant

/-- In every interleaving of any number of threads the bookkeeping is right in every state. -/
theorem bookkeeping (reached : Reached (State.step kEstimatePairSize) (fun _ _ _ => True) {} s) :
    Bookkeeping kEstimatePairSize s := by
  have inv := Invariant.of_reached reached
  have allocated : ∀ key ref, s.records.get key = some ref → ∃ record, s.heap ref = some record := by
    intro key ref found
    obtain ⟨record, here, _⟩ := inv.present key ref found
    exact ⟨record, here⟩
  constructor
  · intro key first second here there
    exact eq_of_total_le_one (inv.total_holds_le_one key) (State.holds_iff.mp here)
      (State.holds_iff.mp there)
  · intro key ref found
    obtain ⟨record, here, counted, _⟩ := inv.present key ref found
    refine ⟨record, here, ?_⟩
    rw [counted, ← inv.refs_eq found]
    exact (Nat.cast_add _ _).symm
  · intro thread key needs
    refine (Invariant.uses_of_needs thread needs).imp_left fun uses => ?_
    cases found : s.records.get key with
    | none =>
        have none := inv.absent key found
        omega
    | some ref =>
        obtain ⟨record, here⟩ := allocated key ref found
        exact ⟨ref, record, rfl, here⟩
  · rintro thread key ref (waits | leaves)
    · exact allocated key ref (inv.awaited thread key ref waits)
    · exact inv.heap_of_left leaves
  · intro thread key ref leaves
    have under := Phase.underMutex_of_left leaves
    exact ⟨inv.mutex_of_underMutex rfl under, fun _ different => inv.alone under different⟩
  · exact inv.charge
  · rw [inv.charge_eq_zero]
    constructor
    · intro none thread key needs
      refine (Invariant.uses_of_needs thread needs).resolve_left fun uses => ?_
      have unused := inv.absent key (none key)
      omega
    · intro leaving key
      cases found : s.records.get key with
      | none => rfl
      | some ref =>
          obtain ⟨_, _, _, used, _⟩ := inv.present key ref found
          obtain ⟨thread, needs, stays⟩ := inv.needs_of_uses used
          obtain ⟨address, phase⟩ := leaving thread key needs
          exact absurd phase (stays address)

section Samples

/-- Two threads lock one key; the second one waits. -/
def contended : List (Bool × Event) :=
  (true, .lock [107]) :: List.replicate 6 (true, .advance 0) ++
    (false, .lock [107]) :: List.replicate 5 (false, .advance 1)

theorem bookkeeping_contended :
    ∃ s : State Bool, runSchedule (State.step 80) contended {} = some s ∧
      s.Holds true [107] ∧ s.Waits false [107] ∧ Bookkeeping 80 s := by
  have seen : (runSchedule (State.step 80) contended ({} : State Bool)).map
      (fun s => ((s.threads true).held, (s.threads false).phase)) =
        some ([[107]], .awaitRecord [107] 0) := by decide
  obtain ⟨s, ran, seen⟩ := Option.map_eq_some_iff.mp seen
  obtain ⟨held, phase⟩ := Prod.mk.inj seen
  refine ⟨s, ran, Or.inl ?_, ?_, bookkeeping (reached_of_runSchedule .initial ran)⟩
  · rw [held]
    exact List.mem_singleton.mpr rfl
  · rw [State.Waits, phase]
    rfl

end Samples

end Vcdb.RecordMutex
