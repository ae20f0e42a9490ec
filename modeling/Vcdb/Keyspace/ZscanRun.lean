import Vcdb.Keyspace.KeyListing
import Vcdb.Keyspace.ZsetWrites

/-!
# Scans of a sorted set among writes

ZSCAN runs through the index of a sorted set and remembers an entry of it between two pages.  Other
clients change scores in the meantime, so that entries move across the remembered place.
-/

namespace Vcdb

/-! ### Pages -/

/-- Member and score of an entry of the index. -/
def scoreItem (entry : Bytes) : Bytes × Double := (decodeScoreEntry entry).getD ([], 0)

@[simp]
theorem scoreItem_scoreEntry (member : Bytes) (score : Double) :
    scoreItem (scoreEntry member score) = (member, score) := by
  rw [scoreItem, decodeScoreEntry_scoreEntry, Option.getD_some]

/-- An element of a scan of the index. -/
def zscanElement (key : UserKey) (version : UInt16) (entry : Bytes) : ZScoreItemKey :=
  { key := key.1, version, field := (scoreItem entry).1, score := (scoreItem entry).2 }

/-- The members that a pattern lets through, with their scores. -/
def pageItems (stringmatchlen : Bytes → Bytes → Bool) (pattern : Bytes)
    (entries : List (Bytes × Bytes)) : List (Bytes × Double) :=
  (entries.map fun entry => scoreItem entry.1).filter fun item =>
    patternMatches stringmatchlen pattern item.1

section Page

variable {stringmatchlen : Bytes → Bytes → Bool} {float : FloatUnit} {world : World}
  {key : UserKey} {version : UInt16}

theorem zIterator_covers (float : FloatUnit) {db : DB} (keyed : db.WellKeyed) (key : UserKey)
    (version : UInt16) :
    (zIterator float key.1 version).Covers db (encodeZscorePrefix key.1 version)
      (zscanElement key version) where
  own := by
    intro tail stored
    have mem : tail ∈ (db.scoreIndex key.1 version).keys := by
      rw [SortedMap.mem_keys, DB.scoreIndex, SortedMap.get_under]
      exact stored
    obtain ⟨member, score, rfl⟩ := keyed.scoreEntry_of_mem mem
    refine ⟨?_, by simp [zIterator, ZIterator.belongs, zscanElement]⟩
    have decoded := decodeZScoreItemKey_prefix key version (scoreEntry member score)
    rw [decodeScoreEntry_scoreEntry] at decoded
    rw [zscanElement, scoreItem_scoreEntry]
    exact decoded
  foreign := by
    intro ks found decoded mine
    have same : found.key = key.1 ∧ found.version = version := by
      simpa [zIterator, ZIterator.belongs] using mine
    rw [decodeZScoreItemKey_eq_some decoded, encodeZscoreKey_eq_append, same.1, same.2]
    exact List.prefix_append _ _

theorem processed_zIterator (stringmatchlen : Bytes → Bytes → Bool) (float : FloatUnit)
    (pattern : Bytes) (entries : List (Bytes × Bytes)) :
    processed (zIterator float key.1 version) (zscanElement key version)
        (passing stringmatchlen (zIterator float key.1 version) (zscanElement key version) pattern
          entries) =
      keyScores float true (pageItems stringmatchlen pattern entries) := by
  rw [pageItems, List.filter_map, keyScores, List.flatMap_map]
  rfl

/-- A page of ZSCAN: the next members, and a new cursor unless they were the last. -/
theorem eval_procZscan_page {cursor low : Bytes} {options : List Bytes} {params : ScanParams}
    {scores : SortedMap Bytes Double} (keyed : world.db.WellKeyed)
    (live : ZsetLive world.db.contents key version scores)
    (valid : (strToUInt64 cursor 0).2 ≠ einval)
    (position : scanPosition world.cursors cursor (encodeZscorePrefix key.1 version) =
      encodeZscorePrefix key.1 version ++ low)
    (accepted : prepareForScanParams options {} = .ok params)
    (positive : 0 < params.limit.toNat) :
    ∃ announced,
      (((world.db.scoreIndex key.1 version).seek low).drop params.limit.toNat = [] ∧
        (procZscan stringmatchlen float key.1 cursor options).eval atomically world =
          (.result [48] announced (keyScores float true (pageItems stringmatchlen params.pattern
            ((world.db.scoreIndex key.1 version).seek low))), world)) ∨
      ∃ entry rest,
        ((world.db.scoreIndex key.1 version).seek low).drop params.limit.toNat = entry :: rest ∧
        (procZscan stringmatchlen float key.1 cursor options).eval atomically world =
          (.result (strUInt64 (UInt64.ofNat world.cursors.nextCursor)) announced
            (keyScores float true (pageItems stringmatchlen params.pattern
              (((world.db.scoreIndex key.1 version).seek low).take params.limit.toNat))),
          { world with cursors :=
              world.cursors.getNewRedisCursor (encodeZscorePrefix key.1 version ++ entry.1) }) := by
  obtain ⟨zv, readMeta, rfl⟩ := live.eval_getZsetMetaVal
  rw [getZsetMetaVal, eval_getMetaVal, Prod.mk.injEq] at readMeta
  have page := PagesOver.eval_page (@scanCollection_pages stringmatchlen world _ DataType.zsize
    DataType.zsize zv getZsetMetaVal rfl (zIterator float key.1) (encodeZscorePrefix key.1) key.1
    readMeta.1 _ (zIterator_covers float keyed key zv.version)) valid position accepted positive
  simp only [processed_zIterator] at page
  exact page

end Page

/-! ### Full scans -/

/-- The score of a member, as ZSCORE reads it. -/
def scoreAt (world : World) (key : UserKey) (member : Bytes) : Option Double :=
  let (ret, score) := ((zget key.1 member).eval atomically world).1
  if ret = 1 then some score else none

/-- ZADD, ZINCRBY and ZREM by other clients, after each of which a member is in a sorted set. -/
inductive OtherClients (float : FloatUnit) (key : UserKey) (member : Bytes) : World → World → Prop
  | nil (world : World) : OtherClients float key member world world
  | command {command : ZsetCommand} {user : UserKey} {world after : World} :
      command.WritesMembers → command.key = user.1 →
      (scoreAt ((command.run float).eval atomically world).2 key member).isSome →
      OtherClients float key member ((command.run float).eval atomically world).2 after →
      OtherClients float key member world after

/-- A full ZSCAN among writes of other clients.  What they do between two pages may be restricted by
the position that is remembered meanwhile. -/
def FullZscan (stringmatchlen : Bytes → Bytes → Bool) (float : FloatUnit) (key : UserKey)
    (member : Bytes) (allowed : Bytes → World → World → Prop) :
    (Nat → List Bytes) → World → Bytes → List Bytes → Prop :=
  FullIteration (procZscan stringmatchlen float key.1) HasRoom fun next after resumed =>
    OtherClients float key member after resumed ∧
      allowed (scanPosition after.cursors next []) after resumed

/-- Every page is asked for at least one element, with a pattern that lets a member through. -/
structure AsksFor (stringmatchlen : Bytes → Bytes → Bool) (member : Bytes)
    (options : Nat → List Bytes) (params : Nat → ScanParams) : Prop
    extends AsksForSome options params where
  through : ∀ n, patternMatches stringmatchlen (params n).pattern member

/-- Among members that are each followed by their score. -/
def ReturnsMember (float : FloatUnit) (member : Bytes) (elements : List Bytes) : Prop :=
  ∃ items, elements = keyScores float true items ∧ member ∈ items.map Prod.fst

/-- A member at or behind the entry that is remembered stays there. -/
def NotMovedBack (key : UserKey) (member position : Bytes) (before after : World) : Prop :=
  ∀ zk old new, decodeZScoreItemKey position = some zk →
    scoreAt before key member = some old → scoreAt after key member = some new →
    indexKey (zk.field, zk.score) ≤ indexKey (member, old) →
    indexKey (zk.field, zk.score) ≤ indexKey (member, new)

section Run

variable {stringmatchlen : Bytes → Bytes → Bool} {float : FloatUnit} {world after : World}
  {key : UserKey} {member : Bytes} {version : UInt16} {scores : SortedMap Bytes Double}

theorem AsksFor.later {options : Nat → List Bytes} {params : Nat → ScanParams}
    (asks : AsksFor stringmatchlen member options params) :
    AsksFor stringmatchlen member (fun n => options (n + 1)) fun n => params (n + 1) :=
  ⟨asks.toAsksForSome.later, fun n => asks.through (n + 1)⟩

theorem ZsetLive.scoreAt_eq (live : ZsetLive world.db.contents key version scores) :
    scoreAt world key member = scores.get member := by
  obtain ⟨zv, readMeta, rfl⟩ := live.eval_getZsetMetaVal
  have item := live.stores.eval_getZsetItemVal member
  simp only [scoreAt, zget, Program.eval_bind, readMeta, ne_eq, not_true_eq_false, if_false, item]
  cases scores.get member with
  | none => rfl
  | some score => rfl

theorem scoreAt_of_deleted (deleted : world.db.contents.Deleted key version) :
    scoreAt world key member = none := by
  obtain ⟨metaVal, header, rest, found, decoded, _, flag⟩ := deleted
  have readMeta : ∃ zv, (getZsetMetaVal (encodeMetaKey key.1)).eval atomically world =
      ((0, zv), world) := by
    rw [getZsetMetaVal, getMetaVal, Program.eval_bind, encodeMetaKey_eq, eval_dbGet, found]
    simp only [ReadStatus.ofOption, decodeMetaVal_of_deleted decoded flag, if_pos flag]
    exact ⟨_, rfl⟩
  obtain ⟨zv, readMeta⟩ := readMeta
  have absent : (0 : Int) ≠ 1 := by decide
  simp only [scoreAt, zget, Program.eval_bind, readMeta, if_pos absent, Program.pure_eq_done,
    Program.eval_done, if_neg absent]

/-- One command of another client keeps the version of the set. -/
theorem ZsetCommand.live_run {command : ZsetCommand} {user : UserKey}
    (writes : command.WritesMembers) (own : command.key = user.1)
    (live : ZsetLive world.db.contents key version scores)
    (stays : (scoreAt ((command.run float).eval atomically world).2 key member).isSome) :
    ∃ scores', ZsetLive ((command.run float).eval atomically world).2.db.contents key version
      scores' := by
  by_cases same : user = key
  · subst same
    rcases kept_run float writes own live with live' | deleted
    · exact live'
    · rw [scoreAt_of_deleted deleted] at stays
      cases stays
  · have frame := (writesOwn_run float writes own world).frameOff
    exact ⟨scores, live.congr fun record mine => frame record (mine ▸ Ne.symm same)⟩

/-- What other clients leave: the cursors, and the set under its version with the member in it. -/
theorem OtherClients.keeps (others : OtherClients float key member world after)
    (keyed : world.db.WellKeyed) (live : ZsetLive world.db.contents key version scores)
    (present : (scores.get member).isSome) :
    after.cursors = world.cursors ∧ after.db.WellKeyed ∧
      ∃ scores', ZsetLive after.db.contents key version scores' ∧ (scores'.get member).isSome := by
  induction others generalizing scores with
  | nil world => exact ⟨rfl, keyed, scores, live, present⟩
  | @command command user world after writes own stays rest ih =>
      have moved := ZsetCommand.writesOwn_run float writes own world
      obtain ⟨scores', live'⟩ := ZsetCommand.live_run writes own live stays
      rw [live'.scoreAt_eq] at stays
      obtain ⟨cursors, keyed', kept⟩ := ih (moved.wellKeyed keyed) live' stays
      exact ⟨cursors.trans moved.cursors, keyed', kept⟩

theorem ZsetLive.mem_seek_index (live : ZsetLive world.db.contents key version scores)
    {score : Double} (stored : scores.get member = some score) {low : Bytes}
    (behind : low ≤ scoreEntry member score) :
    (scoreEntry member score, []) ∈ (world.db.scoreIndex key.1 version).seek low := by
  have entry := live.stores.index score member
  rw [if_pos stored] at entry
  rw [SortedMap.mem_seek, DB.scoreIndex, SortedMap.get_under, ← encodeZscoreKey_eq_append]
  exact ⟨behind, entry⟩

theorem mem_pageItems {pattern : Bytes} (through : patternMatches stringmatchlen pattern member)
    {score : Double} {val : Bytes} {entries : List (Bytes × Bytes)}
    (mem : (scoreEntry member score, val) ∈ entries) :
    member ∈ (pageItems stringmatchlen pattern entries).map Prod.fst := by
  have item : (member, score) ∈ entries.map fun entry => scoreItem entry.1 :=
    List.mem_map.mpr ⟨_, mem, scoreItem_scoreEntry member score⟩
  exact List.mem_map.mpr ⟨(member, score), List.mem_filter.mpr ⟨item, through⟩, rfl⟩

theorem keyScores_append (first second : List (Bytes × Double)) :
    keyScores float true (first ++ second) = keyScores float true first ++
      keyScores float true second := List.flatMap_append

/-- A full scan delivers members with their scores, and with them every member whose entry is at or
behind the position it goes on from. -/
theorem FullZscan.returns_behind {options : Nat → List Bytes} {cursor : Bytes}
    {elements : List Bytes}
    (scan : FullZscan stringmatchlen float key member (NotMovedBack key member) options world cursor
      elements)
    {params : Nat → ScanParams} (asks : AsksFor stringmatchlen member options params)
    (keyed : world.db.WellKeyed) (live : ZsetLive world.db.contents key version scores)
    (valid : (strToUInt64 cursor 0).2 ≠ einval) {low : Bytes}
    (position : scanPosition world.cursors cursor (encodeZscorePrefix key.1 version) =
      encodeZscorePrefix key.1 version ++ low)
    {score : Double} (stored : scores.get member = some score) :
    ∃ items, elements = keyScores float true items ∧
      (low ≤ scoreEntry member score → member ∈ items.map Prod.fst) := by
  induction scan generalizing params scores low score with
  | @last options world after cursor announced elements room run =>
      obtain ⟨announced', page⟩ := @eval_procZscan_page stringmatchlen float world key version cursor
        low (options 0) (params 0) scores keyed live valid position (asks.accepted 0)
        (asks.positive 0)
      rcases page with ⟨_, run'⟩ | ⟨entry, rest, _, run'⟩
      · rw [run, Prod.mk.injEq, ScanResponse.result.injEq] at run'
        exact ⟨_, run'.1.2.2, fun behind =>
          mem_pageItems (asks.through 0) (live.mem_seek_index stored behind)⟩
      · rw [run, Prod.mk.injEq, ScanResponse.result.injEq] at run'
        exact absurd run'.1.1.symm (scanPosition_getNewRedisCursor room [] []).1
  | @page options world after resumed cursor next announced elements later room run notZero
    meanwhile
      scan ih =>
      obtain ⟨others, stays⟩ := meanwhile
      obtain ⟨announced', page⟩ := @eval_procZscan_page stringmatchlen float world key version cursor
        low (options 0) (params 0) scores keyed live valid position (asks.accepted 0)
        (asks.positive 0)
      rcases page with ⟨_, run'⟩ | ⟨entry, rest, left, run'⟩
      · rw [run, Prod.mk.injEq, ScanResponse.result.injEq] at run'
        exact absurd run'.1.1 notZero
      · rw [run, Prod.mk.injEq, ScanResponse.result.injEq] at run'
        obtain ⟨⟨rfl, _, rfl⟩, rfl⟩ := run'
        obtain ⟨cursors, keyed', scores', live', present⟩ :=
          others.keeps keyed live (Option.isSome_of_mem stored)
        obtain ⟨score', stored'⟩ := Option.isSome_iff_exists.mp present
        have resumedAt := fun first => (scanPosition_getNewRedisCursor room
          (encodeZscorePrefix key.1 version ++ entry.1) first).2
        obtain ⟨items, same, returned⟩ := ih asks.later keyed' live' (strToUInt64_strUInt64 _).1
          (by rw [cursors]; exact resumedAt _) stored'
        refine ⟨_ ++ items, by rw [keyScores_append, same], fun behind => ?_⟩
        rw [List.map_append, List.mem_append]
        -- the member is on this page, or its entry is at or behind the one that is remembered
        rcases SortedMap.mem_take_seek_or_le left (live.mem_seek_index stored behind) with
          here | beyond
        · exact Or.inl (mem_pageItems (asks.through 0) here)
        · refine Or.inr (returned ?_)
          have inIndex : entry.1 ∈ (world.db.scoreIndex key.1 version).keys := by
            have mem : entry ∈ (world.db.scoreIndex key.1 version).seek low :=
              List.mem_of_mem_drop (left ▸ List.mem_cons_self)
            rw [SortedMap.mem_keys, (SortedMap.mem_seek.mp mem).2]
            rfl
          obtain ⟨named, at', spelled⟩ := keyed.scoreEntry_of_mem inIndex
          have decoded : decodeZScoreItemKey (encodeZscorePrefix key.1 version ++ entry.1) =
              some { key := key.1, version, field := named, score := at' } := by
            rw [spelled, decodeZScoreItemKey_prefix, decodeScoreEntry_scoreEntry]
            rfl
          have unchanged : ∀ cursors, scoreAt { world with cursors } key member = some score :=
            fun cursors => Eq.trans (ZsetLive.scoreAt_eq (by exact live)) stored
          have place := stays _ score score' (by rw [resumedAt]; exact decoded) (unchanged _)
            (live'.scoreAt_eq.trans stored')
          rw [spelled] at beyond ⊢
          exact (@scoreEntry_le_iff (named, at') (member, score')).mpr
            (place ((@scoreEntry_le_iff (named, at') (member, score)).mp beyond))

/-- A full scan from the beginning returns every member that stays in the set and is never moved
from behind the remembered entry to before it. -/
theorem zscan_returns (keyed : world.db.WellKeyed)
    (valid : KeyValid world.db.contents key (some (version, .zset scores)))
    (present : (scores.get member).isSome) {options : Nat → List Bytes} {params : Nat → ScanParams}
    (asks : AsksFor stringmatchlen member options params) {elements : List Bytes}
    (scan : FullZscan stringmatchlen float key member (NotMovedBack key member) options world [48]
      elements) :
    ReturnsMember float member elements := by
  have zero : (strToUInt64 [48] 0).2 ≠ einval := by decide +kernel
  have start : scanPosition world.cursors [48] (encodeZscorePrefix key.1 version) =
      encodeZscorePrefix key.1 version ++ [] := by
    rw [scanPosition, if_pos rfl, List.append_nil]
  obtain ⟨score, stored⟩ := Option.isSome_iff_exists.mp present
  obtain ⟨items, same, returned⟩ :=
    scan.returns_behind asks keyed (.of_valid valid) zero start stored
  exact ⟨items, same, returned (not_lt.mp (List.not_lt_nil _))⟩

end Run

section Sample

/-- The doubles `1.0`, `2.0` and `3.0` have decimal texts of one digit. -/
def digitsFloat : FloatUnit where
  add x _ := x
  sub x _ := x
  str x :=
    if x = 0x3FF0000000000000 then [49]
    else if x = 0x4000000000000000 then [50]
    else if x = 0x4008000000000000 then [51]
    else be64 x
  bytesDouble text :=
    if text = [49] then some 0x3FF0000000000000
    else if text = [50] then some 0x4000000000000000
    else if text = [51] then some 0x4008000000000000
    else none
  strtod text :=
    if text = [49] then (0x3FF0000000000000, [])
    else if text = [50] then (0x4000000000000000, [])
    else if text = [51] then (0x4008000000000000, [])
    else (0, text)

def pairScores : SortedMap Bytes Double :=
  (SortedMap.put ∅ [97] 0x3FF0000000000000).put [98] 0x4000000000000000

/-- What `ZADD k 1 a 2 b` leaves on an empty server. -/
def pairWorld : World :=
  ((procZadd digitsFloat sampleKey.1 {} [([97], [49]), ([98], [50])]).eval atomically
    emptyServer.world).2

theorem pairWorld_valid : pairWorld.db.WellKeyed ∧
    ∃ version, KeyValid pairWorld.db.contents sampleKey (some (version, .zset pairScores)) := by
  obtain ⟨keyed, state, valid, held⟩ := @zadd_leaves digitsFloat ([97], [49]) [([98], [50])] _
    pairScores rfl (by decide) pairWorld rfl
  have stored : state.map Prod.snd = some (.zset pairScores) := held
  obtain ⟨⟨version, _⟩, rfl, rfl⟩ := Option.map_eq_some_iff.mp stored
  exact ⟨keyed, version, valid⟩

theorem asksFor_oneEach (member : Bytes) :
    AsksFor matchLiterally member oneEach fun _ => { limit := 1 } :=
  ⟨asksForSome_oneEach, fun _ => patternMatches_star matchLiterally member⟩

/-- What `ZSCAN k 0 COUNT 1` leaves. -/
def pagedWorld : World :=
  ((procZscan matchLiterally digitsFloat sampleKey.1 [48] (oneEach 0)).eval atomically
    pairWorld).2

/-- What `ZADD k n b` leaves after that page. -/
def movedWorld (digit : Bytes) : World :=
  (((ZsetCommand.zadd sampleKey.1 {} [([98], digit)]).run digitsFloat).eval atomically
    pagedWorld).2

/-- One page with `a`, a new score for `b`, and a last page. -/
theorem fullZscan_moved {allowed : Bytes → World → World → Prop} {digit : Bytes}
    {elements : List Bytes} {announced : Int}
    (stays : (scoreAt (movedWorld digit) sampleKey [98]).isSome)
    (allows : allowed (scanPosition pagedWorld.cursors [49] []) pagedWorld (movedWorld digit))
    (room : HasRoom (movedWorld digit))
    (shown : ((procZscan matchLiterally digitsFloat sampleKey.1 [49] (oneEach 1)).eval atomically
      (movedWorld digit)).1 = .result [48] announced elements) :
    FullZscan matchLiterally digitsFloat sampleKey [98] allowed oneEach pairWorld [48]
      ([[97], [49]] ++ elements) := by
  have first : ((procZscan matchLiterally digitsFloat sampleKey.1 [48] (oneEach 0)).eval atomically
      pairWorld).1 = .result [49] 2 [[97], [49]] := by decide +kernel
  have others : OtherClients digitsFloat sampleKey [98] pagedWorld (movedWorld digit) :=
    @OtherClients.command digitsFloat sampleKey [98] (.zadd sampleKey.1 {} [([98], digit)])
      sampleKey pagedWorld _ trivial rfl stays (.nil _)
  exact .page (by rw [HasRoom]; decide +kernel) (Prod.ext first rfl) (by decide)
    ⟨others, allows⟩ (.last room (Prod.ext shown rfl))

/-- `ZADD k 3 b` between the pages moves `b` away from the pages that were sent. -/
theorem zscan_returns_moved :
    ReturnsMember digitsFloat [98] ([[97], [49]] ++ [[98], [51]]) := by
  obtain ⟨keyed, version, valid⟩ := pairWorld_valid
  refine zscan_returns keyed valid (by decide) (asksFor_oneEach [98])
    (@fullZscan_moved _ [51] _ 2 (by decide +kernel) ?_ (by rw [HasRoom]; decide +kernel)
      (by decide +kernel))
  intro zk old new decoded was becomes behind
  have moved : scoreAt (movedWorld [51]) sampleKey [98] = some 0x4008000000000000 := by
    decide +kernel
  have remembered : decodeZScoreItemKey (scanPosition pagedWorld.cursors [49] []) =
      some { key := [107], version := 0, field := [98], score := 0x4000000000000000 } := by
    decide +kernel
  rw [moved, Option.some_inj] at becomes
  rw [remembered, Option.some_inj] at decoded
  rw [← becomes, ← decoded]
  exact (indexKey_lt_iff.mpr (Or.inl (by decide))).le

/-- `ZADD k 1 b` between the pages hides `b` from the scan. -/
theorem zscan_misses_member :
    pairWorld.db.WellKeyed ∧
      (∃ version, KeyValid pairWorld.db.contents sampleKey (some (version, .zset pairScores))) ∧
      (pairScores.get [98]).isSome ∧
      AsksFor matchLiterally [98] oneEach (fun _ => { limit := 1 }) ∧
      ∃ elements, FullZscan matchLiterally digitsFloat sampleKey [98] (fun _ _ _ => True) oneEach
        pairWorld [48] elements ∧ ¬ReturnsMember digitsFloat [98] elements := by
  refine ⟨pairWorld_valid.1, pairWorld_valid.2, by decide, asksFor_oneEach [98], _,
    @fullZscan_moved _ [49] [] 0 (by decide +kernel) trivial (by rw [HasRoom]; decide +kernel)
      (by decide +kernel), ?_⟩
  rintro ⟨items, same, mem⟩
  cases items with
  | nil => cases mem
  | cons item items =>
      obtain ⟨first, same⟩ := List.cons.inj same
      cases items with
      | nil =>
          have named : [98] = item.1 := List.mem_singleton.mp mem
          rw [← named] at first
          exact absurd first (by decide)
      | cons item' items => cases (List.cons.inj same).2

end Sample

end Vcdb
