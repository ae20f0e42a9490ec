import Vcdb.Keyspace.ServerRun

/-!
# The expiration thread at work

The thread gives up the handler's mutex several times on its way through the loop, and requests run
in between.  What it deletes in the end had once been given an expiry that was over when the thread
took it, though that expiry need no longer be stored.
-/

namespace Vcdb

/-- The server, with its thread anywhere in the loop. -/
structure Interrupted where
  server : Server
  phase : ExpirationPhase := .waiting

namespace Interrupted

def step (floats : Floats) (state : Interrupted) (timed : TimedTurn) : Interrupted :=
  match timed.turn with
  | .expiration =>
      let (phase, world) := threadFunc state.phase (timed.world state.server)
      { server := { state.server with world }, phase }
  | .restart => { server := timed.run floats state.server }
  | .request _ | .deleter => { state with server := timed.run floats state.server }

def after (floats : Floats) (state : Interrupted) (turns : List TimedTurn) : Interrupted :=
  turns.foldl (step floats) state

end Interrupted

/-- The server as it begins, on an empty store. -/
def idleServer : Interrupted := { server := emptyServer }

section Histories

variable (floats : Floats) {turns more : List TimedTurn} {key : Bytes} {ts : Int64}

/-- The key had the expiry at some time of the run. -/
def HadExpiry (turns : List TimedTurn) (key : Bytes) (ts : Int64) : Prop :=
  ∃ past, past <+: turns ∧ storedExpiry (idleServer.after floats past).server.world.db key = some ts

/-- The key had an expiry, and later the thread saw that its time was over. -/
def WasDue (turns : List TimedTurn) (key : Bytes) : Prop :=
  ∃ past later ts, past ++ later = turns ∧
    storedExpiry (idleServer.after floats past).server.world.db key = some ts ∧
      ∃ timed ∈ later, timed.turn = .expiration ∧ ∃ n, ts ≤ timed.clock n

variable {floats}

theorem HadExpiry.mono (had : HadExpiry floats turns key ts) (longer : turns <+: more) :
    HadExpiry floats more key ts := by
  obtain ⟨past, earlier, stored⟩ := had
  exact ⟨past, earlier.trans longer, stored⟩

theorem WasDue.mono (was : WasDue floats turns key) (longer : turns <+: more) :
    WasDue floats more key := by
  obtain ⟨past, later, ts, rfl, stored, timed, mem, own⟩ := was
  obtain ⟨rest, rfl⟩ := longer
  exact ⟨past, later ++ rest, ts, (List.append_assoc _ _ _).symm, stored, timed,
    List.mem_append_left _ mem, own⟩

/-- What the thread takes now. -/
theorem HadExpiry.wasDue (had : HadExpiry floats turns key ts) {timed : TimedTurn}
    (thread : timed.turn = .expiration) {n : Nat} (due : ts ≤ timed.clock n) :
    WasDue floats (turns ++ [timed]) key := by
  obtain ⟨past, ⟨later, rfl⟩, stored⟩ := had
  exact ⟨past, later ++ [timed], ts, (List.append_assoc _ _ _).symm, stored, timed, by simp,
    thread, n, due⟩

end Histories

/-! ### Memory and store -/

section Sources

variable {drops : List Bytes} {world after : World} {key : Bytes} {ts : Int64}

theorem get_erase_some {set : SortedSet} {own : Bytes}
    (found : SortedMap.get (set.erase own) key = some ts) : key ≠ own ∧ set.get key = some ts := by
  rw [SortedMap.get_erase] at found
  split_ifs at found with same
  exact ⟨same, found⟩

theorem get_popFront {set : SortedSet} (found : set.popFront.get key = some ts) :
    set.get key = some ts := by
  rw [SortedSet.popFront] at found
  cases front : set.front with
  | none =>
      rw [front] at found
      exact found
  | some item =>
      rw [front] at found
      exact (get_erase_some found).2

theorem get_popBack {set : SortedSet} (found : set.popBack.get key = some ts) :
    set.get key = some ts := by
  rw [SortedSet.popBack] at found
  cases back : set.back with
  | none =>
      rw [back] at found
      exact found
  | some item =>
      rw [back] at found
      exact (get_erase_some found).2

/-- An entry of the memory after an insertion. -/
theorem get_insertFastKey {handler : ExpirationHandler} {own : Bytes} {instant : Int64}
    (found : (handler.insertFastKey own instant).fastKeys.get key = some ts) :
    key = own ∧ ts = instant ∨ key ≠ own ∧ handler.fastKeys.get key = some ts := by
  have put : SortedMap.get (handler.fastKeys.put own instant) key = some ts →
      key = own ∧ ts = instant ∨ key ≠ own ∧ handler.fastKeys.get key = some ts := by
    intro found
    rw [SortedMap.get_put] at found
    split_ifs at found with same
    · exact Or.inl ⟨same, (Option.some_inj.mp found).symm⟩
    · exact Or.inr ⟨same, found⟩
  rw [fastKeys_insertFastKey] at found
  split_ifs at found
  · exact put (get_popBack found)
  · exact put found
  · exact Or.inr (get_erase_some found)

/-- What is in memory after a course is stored then, or has been there before and nothing has
happened to its expiry. -/
theorem Course.sources (course : Course drops world after)
    (found : after.expiration.fastKeys.get key = some ts) :
    storedExpiry after.db key = some ts ∨ (world.expiration.fastKeys.get key = some ts ∧
      storedExpiry after.db key = storedExpiry world.db key) := by
  induction course with
  | @done world after untouched =>
      rw [untouched.expiration] at found
      exact Or.inr ⟨found, by rw [untouched.db]⟩
  | @deed drops own change world middle after deed ahead rest ih =>
      rcases ih found with stored | ⟨held, same⟩
      · exact Or.inl stored
      rw [same]
      rw [deed.expiration] at held
      cases change with
      | keep => exact Or.inr ⟨held, deed.storedExpiry_keep key⟩
      | forget =>
          obtain ⟨other, held⟩ := get_erase_some held
          exact Or.inr ⟨held, deed.storedExpiry_of_ne other⟩
      | set instant =>
          rcases get_insertFastKey held with ⟨rfl, rfl⟩ | ⟨other, held⟩
          · exact Or.inl deed.storedExpiry_set
          · exact Or.inr ⟨held, deed.storedExpiry_of_ne other⟩
  | @drop drops own world after rest ih =>
      rcases ih found with stored | ⟨held, same⟩
      · exact Or.inl stored
      · exact Or.inr ⟨(get_erase_some held).2, same⟩

/-- Entries that are taken have been in memory, and their time was over. -/
structure Drawn (world : World) (keys : SortedMap Bytes Unit) (after : World) : Prop where
  db : after.db = world.db
  kept : ∀ key ts, after.expiration.fastKeys.get key = some ts →
    world.expiration.fastKeys.get key = some ts
  due : ∀ key, (keys.get key).isSome →
    ∃ ts n, world.expiration.fastKeys.get key = some ts ∧ 0 ≤ world.clock n - ts

theorem drawn_popDueKeys (count : Nat) {middle : World} {keys : SortedMap Bytes Unit}
    (drawn : Drawn world keys middle) (clock : ∀ n, ∃ m, middle.clock n = world.clock m) :
    Drawn world (popDueKeys count middle keys).1 (popDueKeys count middle keys).2 := by
  induction count generalizing keys middle with
  | zero => exact drawn
  | succ count ih =>
      have later : ∀ n, ∃ m, middle.tick.clock n = world.clock m := fun n => clock (n + 1)
      cases front : middle.expiration.fastKeys.front with
      | none =>
          rw [popDueKeys_idle count front]
          exact drawn
      | some found =>
          by_cases due : 0 ≤ middle.clock 0 - found.2
          · rw [popDueKeys_due count front due]
            refine ih ⟨drawn.db, fun key ts held => drawn.kept key ts (get_popFront held),
              fun key listed => ?_⟩ later
            rw [SortedMap.get_put] at listed
            split_ifs at listed with same
            · obtain ⟨m, reading⟩ := clock 0
              refine ⟨found.2, m, ?_, reading ▸ due⟩
              exact same ▸ drawn.kept _ _ (SortedSet.front_eq_some front).1
            · exact drawn.due key listed
          · rw [popDueKeys_early count front due]
            exact ⟨drawn.db, drawn.kept, drawn.due⟩

end Sources

/-! ### What holds at every step -/

/-- The store is in order, and all that the thread remembers or has taken has its reason in the
past. -/
structure Interrupted.Founded (floats : Floats) (turns : List TimedTurn) (state : Interrupted) :
    Prop where
  orderly : Orderly state.server.world.db
  ready : state.server.deleter.phase.Ready
  memory : ∀ key ts, state.server.world.expiration.fastKeys.get key = some ts →
    0 ≤ ts ∧ HadExpiry floats turns key ts
  loading : ∀ rest, state.phase = .loading rest → ∀ ek ∈ rest,
    0 ≤ ek.score ∧ HadExpiry floats turns ek.field ek.score
  deleting : ∀ keys, state.phase = .deleting keys → ∀ key ∈ keys.keys, WasDue floats turns key

section Steps

variable {floats : Floats} {turns : List TimedTurn} {timed : TimedTurn}

/-- The state after some turns. -/
def reached (floats : Floats) (turns : List TimedTurn) : Interrupted :=
  idleServer.after floats turns

/-- The deletion of the keys that have been taken. -/
theorem course_multiDel {world : World} (orderly : Orderly world.db)
    (keys : SortedMap Bytes Unit) :
    Course [] world ((multiDel keys.keys).eval atomically world).2 :=
  (eval_multiDel_kills world keys.keys_nodup fun key _ => orderly.readable key).deeds.course trivial

/-- Where a remembered expiry can come from. -/
def Interrupted.Knows (state : Interrupted) (key : Bytes) (ts : Int64) : Prop :=
  state.server.world.expiration.fastKeys.get key = some ts ∨
    ∃ rest, state.phase = .loading rest ∧ ⟨key, ts⟩ ∈ rest

theorem Interrupted.Founded.knows {state : Interrupted} (founded : state.Founded floats turns)
    {key : Bytes} {ts : Int64} (known : state.Knows key ts) :
    0 ≤ ts ∧ HadExpiry floats turns key ts := by
  rcases known with held | ⟨rest, phase, mem⟩
  · exact founded.memory key ts held
  · exact founded.loading rest phase _ mem

/-- What a step has to show. -/
theorem Interrupted.Founded.next {state state' : Interrupted} (founded : state.Founded floats turns)
    (stored : ∀ key ts, storedExpiry state'.server.world.db key = some ts →
      HadExpiry floats (turns ++ [timed]) key ts)
    (orderly : Orderly state'.server.world.db) (ready : state'.server.deleter.phase.Ready)
    (known : ∀ key ts, state'.Knows key ts →
      storedExpiry state'.server.world.db key = some ts ∨ state.Knows key ts)
    (deleting : ∀ keys, state'.phase = .deleting keys → state.phase = .deleting keys ∨
      ∀ key ∈ keys.keys, WasDue floats (turns ++ [timed]) key) :
    state'.Founded floats (turns ++ [timed]) := by
  have longer := List.prefix_append turns [timed]
  have sources : ∀ key ts, state'.Knows key ts →
      0 ≤ ts ∧ HadExpiry floats (turns ++ [timed]) key ts := by
    intro key ts knows
    rcases known key ts knows with now | before
    · exact ⟨orderly.since key ts now, stored key ts now⟩
    · exact (founded.knows before).imp id fun had => had.mono longer
  refine ⟨orderly, ready, fun key ts held => sources key ts (Or.inl held),
    fun rest phase ek mem => sources ek.field ek.score (Or.inr ⟨rest, phase, mem⟩),
    fun keys phase key mem => ?_⟩
  rcases deleting keys phase with before | due
  · exact (founded.deleting keys before key mem).mono longer
  · exact due key mem

/-- A step between looks at the store that takes nothing. -/
theorem Interrupted.Founded.calm {state state' : Interrupted} (founded : state.Founded floats turns)
    (stored : ∀ key ts, storedExpiry state'.server.world.db key = some ts →
      HadExpiry floats (turns ++ [timed]) key ts)
    (db : state'.server.world.db = state.server.world.db)
    (deleter : state'.server.deleter = state.server.deleter)
    (fastKeys : state'.server.world.expiration.fastKeys = state.server.world.expiration.fastKeys)
    (phase : state'.phase = .waiting ∨ state'.phase = .checking ∨ state'.phase = .scanning ∨
      state'.phase = .loaded ∨ state'.phase = .popping) :
    state'.Founded floats (turns ++ [timed]) := by
  refine founded.next stored (db ▸ founded.orderly) (deleter ▸ founded.ready)
    (fun key ts known => ?_) fun keys own => ?_
  · rcases known with held | ⟨rest, own, _⟩
    · exact Or.inr (Or.inl (fastKeys ▸ held))
    · rw [own] at phase
      rcases phase with no | no | no | no | no
      all_goals cases no
  · rw [own] at phase
    rcases phase with no | no | no | no | no
    all_goals cases no

/-- A step of the thread. -/
theorem Interrupted.Founded.thread {state : Interrupted} (founded : state.Founded floats turns)
    {clock : Nat → Int64} (since : ∀ n, 0 ≤ clock n)
    (stored : ∀ key ts,
      storedExpiry (state.step floats ⟨.expiration, clock⟩).server.world.db key = some ts →
        HadExpiry floats (turns ++ [⟨.expiration, clock⟩]) key ts) :
    (state.step floats ⟨.expiration, clock⟩).Founded floats (turns ++ [⟨.expiration, clock⟩]) := by
  obtain ⟨server, phase⟩ := state
  have orderly := founded.orderly
  cases phase with
  | waiting =>
      refine founded.calm stored rfl rfl rfl ?_
      rw [step, threadFunc]
      simp only
      split_ifs
      · exact Or.inl rfl
      · exact Or.inr (Or.inl rfl)
  | checking =>
      refine founded.calm stored rfl rfl rfl ?_
      rw [step, threadFunc]
      simp only
      split_ifs
      · exact Or.inr (Or.inr (Or.inl rfl))
      · exact Or.inr (Or.inr (Or.inr (Or.inr rfl)))
  | scanning =>
      refine founded.next stored orderly founded.ready (fun key ts known => ?_)
        fun keys phase => (by cases phase)
      rcases known with held | ⟨rest, phase, mem⟩
      · exact Or.inr (Or.inl held)
      · obtain rfl := ExpirationPhase.loading.inj phase
        exact Or.inl (storedExpiry_of_nearest orderly.spelled orderly.timely mem).1
  | loading rest =>
      cases rest with
      | nil => exact founded.calm stored rfl rfl rfl (by simp [step, threadFunc])
      | cons ek rest =>
          refine founded.next stored orderly founded.ready (fun key ts known => Or.inr ?_)
            fun keys phase => (by cases phase)
          rcases known with held | ⟨rest', phase, mem⟩
          · have added : SortedMap.get (server.world.expiration.fastKeys.put ek.field ek.score) key =
                some ts := held
            rw [SortedMap.get_put] at added
            split_ifs at added with same
            · obtain rfl := Option.some_inj.mp added
              exact Or.inr ⟨_, rfl, same ▸ List.mem_cons_self⟩
            · exact Or.inl added
          · obtain rfl := ExpirationPhase.loading.inj phase
            exact Or.inr ⟨_, rfl, List.mem_cons_of_mem _ mem⟩
  | loaded =>
      by_cases empty : server.world.expiration.fastKeys.size = 0
      · have run : Interrupted.step floats ⟨server, .loaded⟩ ⟨.expiration, clock⟩ =
            ⟨{ server with world := World.handle { server.world with clock } fun handler =>
              { handler with firstTimeout := int64Max } }, .waiting⟩ := by
          rw [step, threadFunc]
          exact congrArg (fun result : ExpirationPhase × World =>
            Interrupted.mk { server with world := result.2 } result.1) (if_pos empty)
        rw [run] at stored ⊢
        exact founded.calm stored rfl rfl rfl (Or.inl rfl)
      · have run : Interrupted.step floats ⟨server, .loaded⟩ ⟨.expiration, clock⟩ =
            ⟨{ server with world := { server.world with clock } }, .popping⟩ := by
          rw [step, threadFunc]
          exact congrArg (fun result : ExpirationPhase × World =>
            Interrupted.mk { server with world := result.2 } result.1) (if_neg empty)
        rw [run] at stored ⊢
        exact founded.calm stored rfl rfl rfl (by simp)
  | popping =>
      have drawn := @drawn_popDueKeys { server.world with clock } roundSize { server.world with clock }
        ∅ ⟨rfl, fun _ _ => id, fun key listed => (by cases listed)⟩ fun n => ⟨n, rfl⟩
      have run : Interrupted.step floats ⟨server, .popping⟩ ⟨.expiration, clock⟩ =
          ⟨{ server with world := (popDueKeys roundSize { server.world with clock } ∅).2 },
            .deleting (popDueKeys roundSize { server.world with clock } ∅).1⟩ := rfl
      rw [run] at stored ⊢
      refine founded.next stored (drawn.db.symm ▸ orderly) founded.ready (fun key ts known => ?_)
        fun keys phase => Or.inr fun key mem => ?_
      · rcases known with held | ⟨rest, phase, _⟩
        · exact Or.inr (Or.inl (drawn.kept key ts held))
        · cases phase
      · obtain rfl := ExpirationPhase.deleting.inj phase
        obtain ⟨ts, n, held, due⟩ := drawn.due key (SortedMap.mem_keys.mp mem)
        obtain ⟨positive, had⟩ := founded.memory key ts held
        exact had.wasDue rfl ((latency_nonneg (since n) positive).mp due)
  | deleting keys =>
      have orderly' : Orderly { server.world with clock }.db := orderly
      have course := course_multiDel orderly' keys
      have spelled := (multiDel_differs keys.keys { server.world with clock }).spelled orderly.spelled
      have run : Interrupted.step floats ⟨server, .deleting keys⟩ ⟨.expiration, clock⟩ =
          ⟨{ server with world :=
            ((multiDel keys.keys).eval atomically { server.world with clock }).2 }, .waiting⟩ := rfl
      rw [run] at stored ⊢
      refine founded.next stored (course.orderly orderly' spelled) founded.ready
        (fun key ts known => ?_) fun keys phase => (by cases phase)
      rcases known with held | ⟨rest, phase, _⟩
      · exact (course.sources held).imp id fun before => Or.inl before.1
      · cases phase

/-- Any step. -/
theorem Interrupted.Founded.step {state : Interrupted} (founded : state.Founded floats turns)
    (since : ∀ n, 0 ≤ timed.clock n)
    (stored : ∀ key ts, storedExpiry (state.step floats timed).server.world.db key = some ts →
      HadExpiry floats (turns ++ [timed]) key ts) :
    (state.step floats timed).Founded floats (turns ++ [timed]) := by
  obtain ⟨turn, clock⟩ := timed
  have orderly := founded.orderly
  cases turn with
  | request request =>
      have course := @Request.course floats request { state.server.world with clock } orderly.timely
        orderly.readable since
      have spelled := (request.differs floats { state.server.world with clock }).spelled
        orderly.spelled
      refine founded.next stored (course.orderly orderly spelled) founded.ready
        (fun key ts known => ?_) fun keys phase => Or.inl phase
      rcases known with held | loading
      · exact (course.sources held).imp id fun before => Or.inl before.1
      · exact Or.inr (Or.inr loading)
  | deleter =>
      obtain ⟨ready, swept⟩ := @runBGTask_swept _ founded.ready { state.server.world with clock }
        orderly.readable
      refine founded.next stored (swept.orderly orderly) ready (fun key ts known => Or.inr ?_)
        fun keys phase => Or.inl phase
      rcases known with held | loading
      · have same := congrArg ExpirationHandler.fastKeys swept.expiration
        exact Or.inl (same ▸ held)
      · exact Or.inr loading
  | expiration => exact founded.thread since stored
  | restart =>
      refine founded.next stored orderly trivial (fun key ts known => ?_)
        fun keys phase => (by cases phase)
      rcases known with held | ⟨rest, phase, _⟩
      · cases held
      · cases phase

end Steps

/-! ### Deletions -/

section Runs

variable (floats : Floats) {turns : List TimedTurn}

end Runs

end Vcdb
