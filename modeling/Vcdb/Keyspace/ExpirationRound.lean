import Vcdb.Keyspace.ExpiryMemory

/-!
# Rounds of the expiration thread

A round deletes keys whose time is over, and none else; the memory of expiries is as good after it
as it was before.
-/

namespace Vcdb

/-! ### Deleting several keys -/

/-- Of the keys listed those that live are deleted, one after the other. -/
inductive Kills : List Bytes → World → World → Prop
  | done {world after : World} (untouched : Untouched world after) : Kills [] world after
  | killed {key : Bytes} {keys : List Bytes} {type : UInt8} {version : UInt16}
      {world middle after : World} (live : world.db.life key = .live type version)
      (deed : Deed key .forget world middle) (dead : middle.db.life key = .deleted version)
      (rest : Kills keys middle after) : Kills (key :: keys) world after
  | spared {key : Bytes} {keys : List Bytes} {world after : World}
      (idle : ¬(world.db.life key).IsLive) (rest : Kills keys world after) :
      Kills (key :: keys) world after

section Killing

variable {keys : List Bytes} {key : Bytes} {world after : World}

theorem Kills.deeds (kills : Kills keys world after) : Deeds keys .forget world after := by
  induction kills with
  | done untouched => exact .done untouched
  | killed _ deed _ _ ih =>
      exact .next List.mem_cons_self deed (ih.mono fun _ => List.mem_cons_of_mem _)
  | spared _ _ ih => exact ih.mono fun _ => List.mem_cons_of_mem _

/-- What becomes of a key that is listed once. -/
theorem Kills.life (kills : Kills keys world after) (distinct : keys.Nodup) (listed : key ∈ keys) :
    (∃ type version, world.db.life key = .live type version ∧
      after.db.life key = .deleted version) ∨
    (¬(world.db.life key).IsLive ∧ after.db.life key = world.db.life key) := by
  induction kills with
  | done untouched => cases listed
  | @killed first keys type version world middle after live deed dead rest ih =>
      obtain ⟨fresh, distinct⟩ := List.nodup_cons.mp distinct
      rcases List.mem_cons.mp listed with rfl | later
      · have stays := life_congr (rest.deeds.ledger_of_not_mem fresh)
        exact Or.inl ⟨type, version, live, stays.trans dead⟩
      · have differs : key ≠ first := fun same => fresh (same ▸ later)
        rw [← deed.life_of_ne differs]
        exact ih distinct later
  | @spared first keys world after idle rest ih =>
      obtain ⟨fresh, distinct⟩ := List.nodup_cons.mp distinct
      rcases List.mem_cons.mp listed with rfl | later
      · exact Or.inr ⟨idle, life_congr (rest.deeds.ledger_of_not_mem fresh)⟩
      · exact ih distinct later

/-- Of keys that are listed once, those that live die, and the others stay as they are. -/
theorem Kills.ledger (kills : Kills keys world after) (distinct : keys.Nodup) :
    after.db.ledger key = world.db.ledger key ∨
      key ∈ keys ∧ ∃ type version, world.db.life key = .live type version ∧
        after.db.life key = .deleted version := by
  by_cases listed : key ∈ keys
  · induction kills with
    | done => cases listed
    | @killed first keys type version world middle after live deed dead rest ih =>
        obtain ⟨fresh, distinct⟩ := List.nodup_cons.mp distinct
        rcases List.mem_cons.mp listed with rfl | later
        · have stays := life_congr (rest.deeds.ledger_of_not_mem fresh)
          exact Or.inr ⟨listed, type, version, live, stays.trans dead⟩
        · have differs : key ≠ first := fun same => fresh (same ▸ later)
          rw [← deed.ledger_of_ne differs, ← deed.life_of_ne differs]
          exact (ih distinct later).imp_right fun dies => ⟨listed, dies.2⟩
    | @spared first keys world after idle rest ih =>
        obtain ⟨fresh, distinct⟩ := List.nodup_cons.mp distinct
        rcases List.mem_cons.mp listed with rfl | later
        · exact Or.inl (rest.deeds.ledger_of_not_mem fresh)
        · exact (ih distinct later).imp_right fun dies => ⟨listed, dies.2⟩
  · exact Or.inl (kills.deeds.ledger_of_not_mem listed)

/-- The deletions of several keys, in any store that has the same records of the keys. -/
theorem eval_multiDelLoop_kills (keys : List Bytes) (distinct : keys.Nodup) (world : World)
    (batch : WriteBatch) (num : Int) (readable : ∀ key ∈ keys, world.db.life key ≠ .unreadable) :
    ∃ count ops after, (multiDelLoop keys batch num).eval atomically world =
        (.ok (count, batch ++ ops), after) ∧ after.db = world.db ∧
      ∀ start : DB, (∀ key ∈ keys, start.ledger key = world.db.ledger key) →
        Kills keys (world.withDB start) (after.withDB (ops.apply start)) := by
  induction keys generalizing world batch num with
  | nil =>
      exact ⟨num, [], world, by rw [List.append_nil]; rfl, rfl, fun start _ => .done ⟨rfl, rfl⟩⟩
  | cons key keys ih =>
      obtain ⟨fresh, distinct⟩ := List.nodup_cons.mp distinct
      have later : ∀ other ∈ keys, world.db.life other ≠ .unreadable := fun other mem =>
        readable other (List.mem_cons_of_mem _ mem)
      rw [multiDelLoop, Program.eval_bind]
      rcases eval_delKeyInternal_life world key batch (readable key List.mem_cons_self) with
        ⟨type, version, dead, live, dies, run⟩ | ⟨idle, run⟩
      · obtain ⟨count, ops, after, rest, db, kills⟩ := ih distinct (world.delFastKey key)
          (batch ++ ([.put (encodeMetaKey key) dead, .put (encodeDeleteKey key version) []] ++
            forgetBatch world.db key)) (num + 1) later
        refine ⟨count, [.put (encodeMetaKey key) dead, .put (encodeDeleteKey key version) []] ++
          forgetBatch world.db key ++ ops, after, ?_, db, fun start same => ?_⟩
        · rw [run]
          simp only [(by decide : ¬(1 : Int) < 0), if_false, rest, List.append_assoc]
        · have own := same key List.mem_cons_self
          have sameBatch := forgetBatch_congr (congrArg KeyRecords.expiry own)
          obtain ⟨deed, gone⟩ := @deed_of_marks key (world.withDB start)
            ((world.delFastKey key).withDB (WriteBatch.apply ([.put (encodeMetaKey key) dead,
              .put (encodeDeleteKey key version) []] ++ forgetBatch world.db key) start))
            type version [] dead ((life_congr own).trans live) dies (Or.inl rfl)
            (by rw [World.db_withDB, World.db_withDB, sameBatch]; rfl) rfl
          rw [WriteBatch.apply_append]
          refine .killed ((life_congr own).trans live) deed gone (kills _ fun other mem => ?_)
          refine (deed.ledger_of_ne ?_).trans (same other (List.mem_cons_of_mem _ mem))
          rintro rfl
          exact fresh mem
      · obtain ⟨count, ops, after, rest, db, kills⟩ := ih distinct world batch (num + 0) later
        refine ⟨count, ops, after, ?_, db, fun start same => ?_⟩
        · rw [run]
          simp only [lt_irrefl, if_false, rest]
        · refine .spared ?_ (kills start fun other mem => same other (List.mem_cons_of_mem _ mem))
          rw [World.db_withDB, life_congr (same key List.mem_cons_self)]
          exact idle

theorem eval_multiDel_kills (world : World) {keys : List Bytes} (distinct : keys.Nodup)
    (readable : ∀ key ∈ keys, world.db.life key ≠ .unreadable) :
    Kills keys world ((multiDel keys).eval atomically world).2 := by
  obtain ⟨count, ops, after, run, db, kills⟩ :=
    eval_multiDelLoop_kills keys distinct world [] 0 readable
  have whole := kills world.db fun _ _ => rfl
  rw [List.nil_append] at run
  rw [multiDel, Program.eval_bind, run]
  simp only [Program.eval_bind, eval_commitBatch, db]
  exact whole

end Killing

/-! ### Stores and what is remembered of them -/

/-- What holds of a store between commands: expiries and lives are in order, no expiry lies before
the epoch, and all records are well spelled. -/
structure Orderly (db : DB) : Prop where
  timely : Timely db
  readable : ∀ key, db.life key ≠ .unreadable
  since : ∀ key ts, storedExpiry db key = some ts → 0 ≤ ts
  spelled : Spelled db

open Classical in
/-- The stored expiries of all keys that have not been lost. -/
noncomputable def DB.expiriesBut (db : DB) (lost : Set Bytes) : Bytes → Option Int64 :=
  fun key => if key ∈ lost then none else storedExpiry db key

/-- The memory of expiries is right, apart from keys that it has lost. -/
def Remembers (lost : Set Bytes) (world : World) : Prop :=
  Recalls (world.db.expiriesBut lost) world.expiration

section Remembering

variable {lost : Set Bytes} {db : DB} {key : Bytes} {world after : World} {ts : Int64}

theorem DB.expiriesBut_empty (db : DB) : db.expiriesBut ∅ = storedExpiry db := by
  funext key
  exact if_neg (Set.notMem_empty key)

theorem DB.stored_of_expiriesBut (known : db.expiriesBut lost key = some ts) :
    storedExpiry db key = some ts := by
  rw [expiriesBut] at known
  split_ifs at known
  exact known

theorem DB.expiriesBut_mono {lost' : Set Bytes} (fewer : lost' ⊆ lost)
    (known : db.expiriesBut lost key = some ts) : db.expiriesBut lost' key = some ts := by
  rw [expiriesBut] at known ⊢
  split_ifs at known with gone
  rw [if_neg fun mem => gone (fewer mem)]
  exact known

theorem Remembers.of_untouched (untouched : Untouched world after) (remembers : Remembers lost world) :
    Remembers lost after := by
  rw [Remembers, untouched.db, untouched.expiration]
  exact remembers

theorem Deed.expiriesBut_forget (deed : Deed key .forget world after) (timely : Timely world.db)
    (lost : Set Bytes) : after.db.expiriesBut lost =
      Function.update (world.db.expiriesBut lost) key none := by
  funext other
  rw [Function.update_apply, DB.expiriesBut, DB.expiriesBut]
  by_cases same : other = key
  · subst same
    rw [deed.storedExpiry_forget timely, if_pos rfl, ite_self]
  · rw [deed.storedExpiry_of_ne same, if_neg same]

theorem Deed.expiriesBut_set (deed : Deed key (.set ts) world after) (lost : Set Bytes) :
    after.db.expiriesBut (lost \ {key}) =
      Function.update (world.db.expiriesBut lost) key (some ts) := by
  funext other
  rw [Function.update_apply, DB.expiriesBut, DB.expiriesBut]
  by_cases same : other = key
  · subst same
    rw [deed.storedExpiry_set, if_pos rfl, if_neg fun mem => mem.2 rfl]
  · rw [deed.storedExpiry_of_ne same, if_neg same]
    by_cases gone : other ∈ lost
    · rw [if_pos gone, if_pos ⟨gone, same⟩]
    · rw [if_neg gone, if_neg fun mem => gone mem.1]

/-- One deed. -/
theorem Deed.remembers {change : ExpiryChange} (deed : Deed key change world after)
    (timely : Timely world.db) (remembers : Remembers lost world) :
    ∃ lost' ⊆ lost, Remembers lost' after := by
  have expiration := deed.expiration
  cases change with
  | keep =>
      have same : after.db.expiriesBut lost = world.db.expiriesBut lost := by
        funext other
        rw [DB.expiriesBut, DB.expiriesBut, deed.storedExpiry_keep]
      refine ⟨lost, le_rfl, ?_⟩
      rw [Remembers, same, expiration]
      exact remembers
  | forget =>
      refine ⟨lost, le_rfl, ?_⟩
      rw [Remembers, deed.expiriesBut_forget timely, expiration]
      exact Recalls.forget remembers key
  | set ts =>
      refine ⟨lost \ {key}, Set.sdiff_subset, ?_⟩
      rw [Remembers, deed.expiriesBut_set, expiration]
      exact Recalls.insert remembers key ts

/-- A key that is dropped from the memory is lost. -/
theorem Remembers.drop (remembers : Remembers lost world) (key : Bytes) :
    Remembers (insert key lost) (world.delFastKey key) := by
  have same : world.db.expiriesBut (insert key lost) =
      Function.update (world.db.expiriesBut lost) key none := by
    funext other
    rw [Function.update_apply, DB.expiriesBut, DB.expiriesBut]
    by_cases own : other = key
    · rw [if_pos (Set.mem_insert_iff.mpr (Or.inl own)), if_pos own]
    · rw [if_neg own]
      by_cases gone : other ∈ lost
      · rw [if_pos gone, if_pos (Set.mem_insert_of_mem key gone)]
      · rw [if_neg gone, if_neg fun mem => gone ((Set.mem_insert_iff.mp mem).resolve_left own)]
  have forgotten := Recalls.forget remembers key
  rw [← same] at forgotten
  exact forgotten

end Remembering

/-! ### Courses -/

section Courses

variable {drops : List Bytes} {lost : Set Bytes} {world after : World}

theorem Deed.since {key : Bytes} {change : ExpiryChange} (deed : Deed key change world after)
    (ahead : change.Ahead) (timely : Timely world.db)
    (since : ∀ key ts, storedExpiry world.db key = some ts → 0 ≤ ts) {other : Bytes} {ts : Int64}
    (stored : storedExpiry after.db other = some ts) : 0 ≤ ts := by
  by_cases same : other = key
  · subst same
    cases change with
    | keep => exact since other ts (deed.storedExpiry_keep other ▸ stored)
    | forget =>
        rw [deed.storedExpiry_forget timely] at stored
        cases stored
    | set instant =>
        rw [deed.storedExpiry_set, Option.some_inj] at stored
        exact stored ▸ Int64.le_of_lt ahead
  · exact since other ts (deed.storedExpiry_of_ne same ▸ stored)

/-- What a course keeps of a store. -/
theorem Course.orderly (course : Course drops world after) (orderly : Orderly world.db)
    (spelled : Spelled after.db) : Orderly after.db := by
  have kept : Timely after.db ∧ (∀ key, after.db.life key ≠ .unreadable) ∧
      ∀ key ts, storedExpiry after.db key = some ts → 0 ≤ ts := by
    obtain ⟨timely, readable, since, -⟩ := orderly
    clear spelled
    induction course with
    | done untouched =>
        rw [untouched.db]
        exact ⟨timely, readable, since⟩
    | @deed drops key change world middle after deed ahead rest ih =>
        refine ih (deed.timely timely) (fun other => ?_) fun _ _ => deed.since ahead timely since
        by_cases same : other = key
        · subst same
          exact deed.life.readable (readable other)
        · rw [deed.life_of_ne same]
          exact readable other
    | drop _ ih => exact ih timely readable since
  exact ⟨kept.1, kept.2.1, kept.2.2, spelled⟩

/-- What is lost on the way has been dropped without being written. -/
theorem Course.remembers (course : Course drops world after) (timely : Timely world.db)
    (remembers : Remembers lost world) :
    ∃ lost' ⊆ lost ∪ {key | key ∈ drops}, Remembers lost' after := by
  induction course generalizing lost with
  | done untouched =>
      exact ⟨lost, Set.subset_union_left, remembers.of_untouched untouched⟩
  | deed deed _ _ ih =>
      obtain ⟨lost', fewer, kept⟩ := deed.remembers timely remembers
      obtain ⟨last, within, kept⟩ := ih (deed.timely timely) kept
      exact ⟨last, within.trans (Set.union_subset_union_left _ fewer), kept⟩
  | @drop drops key world after _ ih =>
      obtain ⟨last, within, kept⟩ := ih timely (remembers.drop key)
      refine ⟨last, fun other mem => ?_, kept⟩
      rcases within mem with (rfl | before) | later
      · exact Or.inr List.mem_cons_self
      · exact Or.inl before
      · exact Or.inr (List.mem_cons_of_mem _ later)

end Courses

/-! ### A round -/

/-- A key that was alive has been deleted because its time is over. -/
structure Reaped (world after : World) (key : Bytes) : Prop where
  due : ∃ n ts, storedExpiry world.db key = some ts ∧ ts ≤ world.clock n
  dies : ∃ type version, world.db.life key = .live type version ∧
    after.db.life key = .deleted version
  forgotten : storedExpiry after.db key = none

section Rounds

variable {lost : Set Bytes} {world after : World} {known : Bytes → Option Int64}

theorem Deed.orderly {key : Bytes} {change : ExpiryChange} (deed : Deed key change world after)
    (ahead : change.Ahead) (orderly : Orderly world.db) (spelled : Spelled after.db) :
    Orderly after.db := (deed.course ahead).orderly orderly spelled

/-- Keys of which nothing is known may be forgotten. -/
theorem Recalls.deeds {keys : List Bytes} (deeds : Deeds keys .forget world after)
    (unknown : ∀ key ∈ keys, known key = none) (recalls : Recalls known world.expiration) :
    Recalls known after.expiration := by
  induction deeds with
  | done untouched =>
      rw [untouched.expiration]
      exact recalls
  | @next key world middle after listed deed _ ih =>
      refine ih ?_
      have forgotten := recalls.forget key
      rw [Function.update_eq_self_iff.mpr (unknown key listed).symm] at forgotten
      rw [deed.expiration]
      exact forgotten

/-- What a round does that takes some keys. -/
structure RoundSpec (lost : Set Bytes) (keys : List Bytes) (world after : World) : Prop where
  orderly : Orderly after.db
  remembers : ∃ lost' ⊆ lost, Remembers lost' after
  reaped : ∀ key ∈ keys, Reaped world after key
  spared : ∀ key ∉ keys, after.db.ledger key = world.db.ledger key
  differs : DiffersWithin (fun record => record.userKey ∈ keys ∧ ¬record.IsElement) world.db after.db
  marks : MarksKept world.db after.db
  marked : ∀ key version, after.db.life key = .deleted version →
    world.db.life key = .deleted version ∨ (after.db.get (encodeDeleteKey key version)).isSome
  /-- While the clock stands still something is taken as long as something is known to be due. -/
  progress : ∀ now, (∀ n, world.clock n = now) → ∀ key ts,
    world.db.expiriesBut lost key = some ts → ts ≤ now → keys ≠ []

theorem Deeds.marks {keys : List Bytes} {change : ExpiryChange}
    (deeds : Deeds keys change world after) : MarksKept world.db after.db := by
  induction deeds with
  | done untouched =>
      rw [untouched.db]
      exact MarksKept.refl _
  | next _ deed _ ih => exact deed.marks.trans ih

theorem Deed.marked_any {key : Bytes} {change : ExpiryChange} (deed : Deed key change world after)
    {other : Bytes} {version : UInt16} (dead : after.db.life other = .deleted version) :
    world.db.life other = .deleted version ∨
      (after.db.get (encodeDeleteKey other version)).isSome := by
  by_cases same : other = key
  · subst same
    exact deed.marked version dead
  · rw [deed.life_of_ne same] at dead
    exact Or.inl dead

theorem Deeds.marked {keys : List Bytes} {change : ExpiryChange}
    (deeds : Deeds keys change world after) {key : Bytes} {version : UInt16}
    (dead : after.db.life key = .deleted version) : world.db.life key = .deleted version ∨
      (after.db.get (encodeDeleteKey key version)).isSome := by
  induction deeds with
  | done untouched =>
      rw [untouched.db] at dead
      exact Or.inl dead
  | next _ deed rest ih =>
      rcases ih dead with earlier | mark
      · exact (deed.marked_any earlier).imp_right (rest.marks _ rfl)
      · exact Or.inr mark

/-- Deleting keys leaves the elements to the background worker. -/
theorem multiDel_differs (keys : List Bytes) (world : World) :
    DiffersWithin (fun record => record.userKey ∈ keys ∧ ¬record.IsElement) world.db
      ((multiDel keys).eval atomically world).2.db :=
  differs_of_works (works_of_within (within_multiDel fun _ mem => ⟨⟨mem, id⟩, ⟨mem, id⟩,
    fun _ => ⟨mem, id⟩, fun _ => ⟨mem, id⟩⟩)) world

theorem RoundSpec.elements {keys : List Bytes} (spec : RoundSpec lost keys world after) {raw : Bytes}
    (element : raw.head? = some DataType.item ∨ raw.head? = some DataType.zscore) :
    after.db.get raw = world.db.get raw := by
  rcases spec.differs raw with same | ⟨record, whole, rfl⟩
  · exact same
  · cases record with
    | item | zscore => exact absurd trivial whole.2
    | metadata | ekey | escore | delete =>
        rcases element with item | score
        · exact absurd (Option.some_inj.mp item) (by decide)
        · exact absurd (Option.some_inj.mp score) (by decide)

/-- Nothing happens to the store. -/
theorem roundSpec_idle (orderly : Orderly world.db) (same : after.db = world.db) {lost' : Set Bytes}
    (fewer : lost' ⊆ lost) (remembers : Remembers lost' after)
    (quiet : ∀ now, (∀ n, world.clock n = now) → ∀ key ts,
      world.db.expiriesBut lost key = some ts → now < ts) : RoundSpec lost [] world after where
  orderly := same ▸ orderly
  remembers := ⟨lost', fewer, remembers⟩
  reaped key mem := by cases mem
  spared key _ := by rw [same]
  differs := same ▸ DiffersWithin.refl _
  marks := same ▸ MarksKept.refl _
  marked key version dead := Or.inl (same ▸ dead)
  progress now still key ts known past := absurd past (not_le.mpr (quiet now still key ts known))

/-- The keys that have been taken are deleted. -/
theorem roundSpec_reap (orderly : Orderly world.db) {lost' : Set Bytes} (fewer : lost' ⊆ lost)
    {keys : SortedMap Bytes Unit} {middle : World}
    (taken : Taken (world.db.expiriesBut lost') world keys middle)
    (progress : ∀ now, (∀ n, world.clock n = now) → ∀ key ts,
      world.db.expiriesBut lost' key = some ts → ts ≤ now → ∃ key, (keys.get key).isSome) :
    RoundSpec lost keys.keys world ((multiDel keys.keys).eval atomically middle).2 := by
  have readable : ∀ key ∈ keys.keys, middle.db.life key ≠ .unreadable := fun key _ => by
    rw [taken.db]
    exact orderly.readable key
  have kills := eval_multiDel_kills middle keys.keys_nodup readable
  have differs := multiDel_differs keys.keys middle
  have spelled := differs.spelled (taken.db.symm ▸ orderly.spelled)
  generalize ((multiDel keys.keys).eval atomically middle).2 = after at kills differs spelled ⊢
  have deeds := kills.deeds
  have start : Orderly middle.db := taken.db.symm ▸ orderly
  have timely := deeds.timely start.timely
  -- Whatever has been taken is due, and so it lives.
  have due : ∀ key ∈ keys.keys, ∃ n ts, storedExpiry world.db key = some ts ∧
      ts ≤ world.clock n := by
    intro key mem
    obtain ⟨n, ts, known, past⟩ := taken.due key (SortedMap.mem_keys.mp mem)
    exact ⟨n, ts, DB.stored_of_expiriesBut known, past⟩
  have dies : ∀ key ∈ keys.keys, ∃ type version, world.db.life key = .live type version ∧
      after.db.life key = .deleted version ∧ storedExpiry after.db key = none := by
    intro key mem
    obtain ⟨n, ts, stored, _⟩ := due key mem
    have live : (middle.db.life key).IsLive := start.timely.live key fun gone => by
      rw [← taken.db, storedExpiry_none gone] at stored
      cases stored
    rcases kills.life keys.keys_nodup mem with ⟨type, version, live, dead⟩ | ⟨idle, _⟩
    · refine ⟨type, version, taken.db ▸ live, dead, storedExpiry_none ?_⟩
      by_contra expires
      obtain ⟨type', version', lives⟩ := timely.live key expires
      rw [dead] at lives
      cases lives
    · exact absurd live idle
  refine ⟨(deeds.course trivial).orderly start spelled, ⟨lost', fewer, ?_⟩, fun key mem => ?_,
    fun key unlisted => ?_, ?_, ?_, fun key version dead => ?_,
    fun now still key ts known past none' => ?_⟩
  · have recalls := Recalls.deeds deeds (fun key mem => if_pos (SortedMap.mem_keys.mp mem))
      taken.recalls
    have same : without (world.db.expiriesBut lost') keys = after.db.expiriesBut lost' := by
      funext key
      by_cases mem : key ∈ keys.keys
      · obtain ⟨_, _, _, _, none'⟩ := dies key mem
        rw [without, if_pos (SortedMap.mem_keys.mp mem), DB.expiriesBut, none', ite_self]
      · rw [without, if_neg fun listed => mem (SortedMap.mem_keys.mpr listed), DB.expiriesBut,
          DB.expiriesBut, storedExpiry_of_ledger (deeds.ledger_of_not_mem mem), taken.db]
    rw [Remembers, ← same]
    exact recalls
  · obtain ⟨type, version, live, dead, none'⟩ := dies key mem
    exact ⟨due key mem, ⟨type, version, live, dead⟩, none'⟩
  · rw [deeds.ledger_of_not_mem unlisted, taken.db]
  · exact taken.db ▸ differs
  · exact taken.db ▸ deeds.marks
  · exact taken.db ▸ deeds.marked dead
  · obtain ⟨taken', listed⟩ := progress now still key ts (DB.expiriesBut_mono fewer known) past
    have mem := SortedMap.mem_keys.mpr listed
    rw [none'] at mem
    cases mem

/-- An empty memory is filled when anything expires at all. -/
theorem exists_nearest {db : DB} (spelled : Spelled db) (timely : Timely db) {key : Bytes}
    {ts : Int64} (stored : storedExpiry db key = some ts) {num : Nat} (some' : num ≠ 0) :
    ∃ ek, ek ∈ nearestExpiries db num := by
  obtain ⟨val, found⟩ := Option.isSome_iff_exists.mp
    ((timely.escore_iff key ts.toUInt64).mpr (by rw [stored]; rfl))
  have lower : [DataType.escore] ≤ [DataType.escore] ++ (be64 ts.toUInt64 ++ key) :=
    not_lt.mp List.le_append_left
  have sought := SortedMap.mem_seek.mpr ⟨lower, found⟩
  have sorted := SortedMap.seek_sorted db [DataType.escore]
  have from' := fun entry : Bytes × Bytes => @SortedMap.mem_seek _ _ _ db [DataType.escore] entry.1
    entry.2
  rw [nearestExpiries_eq]
  cases entries : SortedMap.seek db [DataType.escore] with
  | nil =>
      rw [entries] at sought
      cases sought
  | cons first rest =>
      rw [entries] at sought sorted from'
      obtain ⟨least, held⟩ := (from' first).mp List.mem_cons_self
      have below : first.1 ≤ encodeEscoreKey key ts.toUInt64 := by
        rcases List.mem_cons.mp sought with same | later
        · exact (congrArg Prod.fst same).ge
        · exact ((List.pairwise_cons.mp sorted).1 _ later).le
      have family := head_of_between least below
      obtain ⟨key', score, same⟩ := spelled.escore held family
      obtain ⟨num, rfl⟩ := Nat.exists_eq_succ_of_ne_zero some'
      refine ⟨⟨key', score.toInt64⟩, List.mem_filterMap.mpr ⟨first, ?_, ?_⟩⟩
      · rw [List.take_succ_cons, List.takeWhile_cons, if_pos (decide_eq_true family)]
        exact List.mem_cons_self
      · rw [same, decode_encodeEscoreKey]

/-- Taking keys from a memory that is not empty and shows the nearest expiries. -/
theorem roundSpec_pop (orderly : Orderly world.db) (since : world.SinceEpoch) {lost' : Set Bytes}
    (fewer : lost' ⊆ lost) {middle : World} (same : middle.db = world.db)
    (clock : ∀ n, ∃ m, middle.clock n = world.clock m)
    (lookahead : Lookahead middle.expiration.fastKeys.get (world.db.expiriesBut lost'))
    (filled : middle.expiration.fastKeys.size ≠ 0) :
    RoundSpec lost (popDueKeys roundSize middle ∅).1.keys world
      ((multiDel (popDueKeys roundSize middle ∅).1.keys).eval atomically
        (popDueKeys roundSize middle ∅).2).2 := by
  obtain ⟨⟨key, score⟩, front⟩ : ∃ entry, middle.expiration.fastKeys.front = some entry := by
    rw [← Option.ne_none_iff_exists']
    intro none'
    exact filled (SortedMap.size_eq_zero.mpr (SortedMap.ext fun key =>
      SortedSet.front_eq_none none' key))
  have begun : Taken (world.db.expiriesBut lost') world ∅
      (middle.handle fun handler => { handler with firstTimeout := score }) :=
    ⟨same, clock, Recalls.peek lookahead front, fun key listed => (by cases listed)⟩
  obtain ⟨shown, least⟩ := SortedSet.front_eq_some front
  have since' := fun key ts (known : world.db.expiriesBut lost' key = some ts) =>
    orderly.since key ts (DB.stored_of_expiriesBut known)
  have taken := begun.popDueKeys since since' roundSize
  rw [roundSize, ← popDueKeys_awake 101 front] at taken
  refine roundSpec_reap orderly fewer taken fun now still other ts known past => ⟨key, ?_⟩
  obtain ⟨m, reading⟩ := clock 0
  refine popDueKeys_front 101 front ?_
  rw [reading, latency_nonneg (since m) (since' key score (lookahead.agrees key score shown)), still]
  exact (lookahead.least shown least known).trans past

/-- What a pass through the loop does. -/
theorem expireLoop_spec (orderly : Orderly world.db) (since : world.SinceEpoch)
    (remembers : Remembers lost world) : ∃ keys, RoundSpec lost keys world (expireLoop world) := by
  rw [expireLoop]
  by_cases empty : world.expiration.fastKeys.size = 0
  · have lookahead := lookahead_load orderly.spelled orderly.timely orderly.since
      (SortedMap.size_eq_zero.mp empty) ExpirationHandler.batchSize
    have loaded := loadExpirationKeysFromDb_eq ExpirationHandler.batchSize world
    simp only [empty, if_true, true_and]
    by_cases still : (loadExpirationKeysFromDb ExpirationHandler.batchSize
        world).expiration.fastKeys.size = 0
    · have nothing : ∀ key, storedExpiry world.db key = none := by
        intro key
        cases stored : storedExpiry world.db key with
        | none => rfl
        | some ts =>
            obtain ⟨ek, mem⟩ := exists_nearest orderly.spelled orderly.timely stored
              (by decide : ExpirationHandler.batchSize ≠ 0)
            have shown := (get_foldl_addFastKey (nearestExpiries world.db
              ExpirationHandler.batchSize) world.expiration ek.field).2 (Or.inr ⟨ek.score, mem⟩)
            rw [SortedMap.size_eq_zero, loaded] at still
            have hidden : ((nearestExpiries world.db ExpirationHandler.batchSize).foldl
              ExpirationHandler.addFastKey world.expiration).fastKeys = ∅ := still
            rw [hidden] at shown
            cases shown
      rw [if_pos still]
      refine ⟨[], roundSpec_idle orderly (by rw [loaded]; rfl) (Set.empty_subset lost) ?_
        fun now _ key ts known => ?_⟩
      · refine Recalls.of_empty (fun key => ?_) still
        rw [DB.expiriesBut_empty, loaded]
        exact nothing key
      · have stored := DB.stored_of_expiriesBut known
        rw [nothing] at stored
        cases stored
    · rw [if_neg still]
      refine ⟨_, roundSpec_pop orderly since (Set.empty_subset lost) (by rw [loaded]; rfl)
        (fun n => ⟨n, by rw [loaded]; rfl⟩) ?_ still⟩
      rw [DB.expiriesBut_empty]
      exact lookahead
  · simp only [empty, if_false, false_and]
    exact ⟨_, roundSpec_pop orderly since le_rfl rfl (fun n => ⟨n, rfl⟩) remembers.lookahead empty⟩

/-- What a round does. -/
theorem expirationRound_spec (orderly : Orderly world.db) (since : world.SinceEpoch)
    (remembers : Remembers lost world) :
    ∃ keys, RoundSpec lost keys world (expirationRound world) := by
  have run : expirationRound world = if world.clock 0 < world.expiration.firstTimeout then
    world.tick else expireLoop world.tick := rfl
  rw [run]
  by_cases early : world.clock 0 < world.expiration.firstTimeout
  · rw [if_pos early]
    refine ⟨[], roundSpec_idle orderly rfl le_rfl remembers fun now still key ts known => ?_⟩
    rw [still] at early
    exact early.trans_le (remembers.first key ts known)
  · rw [if_neg early]
    obtain ⟨keys, spec⟩ := @expireLoop_spec lost world.tick orderly (fun n => since (n + 1)) remembers
    refine ⟨keys, spec.orderly, spec.remembers, fun key mem => ?_, spec.spared, spec.differs,
      spec.marks, spec.marked, fun now still => spec.progress now fun n => still (n + 1)⟩
    obtain ⟨⟨n, ts, stored, past⟩, dies, forgotten⟩ := spec.reaped key mem
    exact ⟨⟨n + 1, ts, stored, past⟩, dies, forgotten⟩

end Rounds

end Vcdb
