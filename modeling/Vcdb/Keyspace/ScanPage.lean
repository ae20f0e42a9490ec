import Vcdb.Proc.Scan

/-!
# Pages of a scan

A page of at least one element examines the elements at its start and remembers the one behind
them.  A page of none takes an element from the iterator and forgets it.
-/

namespace Vcdb

namespace ScanIterator

variable {γ : Type} {mit : ScanIterator γ}

/-- What is left to deliver, with the keys it is stored under. -/
def records (mit : ScanIterator γ) : List (Bytes × Bytes) → List (Bytes × γ × Bytes)
  | [] => []
  | (ks, vs) :: rest =>
      match mit.decode ks with
      | none => records mit rest
      | some item => if mit.belongs item then (ks, item, vs) :: records mit rest else []

theorem elements_eq_records (entries : List (Bytes × Bytes)) :
    mit.elements entries = (mit.records entries).map Prod.snd := by
  induction entries with
  | nil => rfl
  | cons head entries ih =>
      obtain ⟨ks, vs⟩ := head
      rw [elements, Iterator.collect, records]
      cases mit.decode ks with
      | none => exact ih
      | some item =>
          simp only
          split_ifs
          · exact congrArg _ ih
          · rfl

/-- The next record is the first of those left, and starts what is left behind the skipped
ones. -/
theorem next_eq_some {entries rest : List (Bytes × Bytes)} {ks vs : Bytes} {item : γ}
    (found : mit.next entries = (some (ks, item, vs), rest)) :
    mit.records entries = (ks, item, vs) :: mit.records rest ∧
      (∃ skipped, entries = skipped ++ (ks, vs) :: rest) ∧
        mit.records ((ks, vs) :: rest) = (ks, item, vs) :: mit.records rest := by
  induction entries with
  | nil => cases found
  | cons head entries ih =>
      obtain ⟨key, val⟩ := head
      rw [next, Iterator.next] at found
      cases decoded : mit.decode key with
      | none =>
          rw [decoded] at found
          obtain ⟨left, ⟨skipped, split⟩, first⟩ := ih found
          refine ⟨?_, ⟨(key, val) :: skipped, by rw [split]; rfl⟩, first⟩
          rw [records, decoded]
          exact left
      | some decodedItem =>
          by_cases mine : mit.belongs decodedItem
          · simp only [decoded, mine, if_true, Prod.mk.injEq, Option.some.injEq] at found
            obtain ⟨⟨rfl, rfl, rfl⟩, rfl⟩ := found
            have first : mit.records ((key, val) :: entries) =
                (key, decodedItem, val) :: mit.records entries := by
              rw [records, decoded]
              exact if_pos mine
            exact ⟨first, ⟨[], rfl⟩, first⟩
          · simp [decoded, mine] at found

theorem next_eq_none {entries : List (Bytes × Bytes)} :
    (mit.next entries).1 = none ↔ mit.records entries = [] := by
  cases found : mit.next entries with
  | mk answer rest =>
      cases answer with
      | some answer =>
          obtain ⟨ks, item, vs⟩ := answer
          simp [(next_eq_some found).1]
      | none =>
          refine iff_of_true rfl ?_
          induction entries with
          | nil => rfl
          | cons head entries ih =>
              obtain ⟨key, val⟩ := head
              rw [next, Iterator.next] at found
              rw [records]
              cases decoded : mit.decode key with
              | none =>
                  rw [decoded] at found
                  exact ih found
              | some item =>
                  by_cases mine : mit.belongs item
                  · simp [decoded, mine] at found
                  · simp [mine]

theorem next_suffix (entries : List (Bytes × Bytes)) : (mit.next entries).2 <:+ entries := by
  induction entries with
  | nil => exact List.suffix_rfl
  | cons head entries ih =>
      obtain ⟨key, val⟩ := head
      rw [next, Iterator.next]
      cases mit.decode key with
      | none => exact ih.trans (List.suffix_cons _ _)
      | some item =>
          simp only
          split_ifs
          · exact List.suffix_cons _ _
          · exact List.suffix_cons _ _

/-- What a scan that goes on from a page delivers. -/
def remaining (mit : ScanIterator γ) (db : DB) : Option Bytes → List (γ × Bytes)
  | none => []
  | some start => mit.elements (iterator db start)

end ScanIterator

section Page

variable {stringmatchlen : Bytes → Bytes → Bool} {γ : Type} {mit : ScanIterator γ} {pattern : Bytes}

/-- The elements that a pattern lets through, as they are sent. -/
def matching (stringmatchlen : Bytes → Bytes → Bool) (mit : ScanIterator γ) (pattern : Bytes)
    (elements : List (γ × Bytes)) : List Bytes :=
  (elements.filter fun element =>
    patternMatches stringmatchlen pattern (mit.key element.1)).flatMap fun element =>
      mit.process element.1 element.2

theorem matching_cons (item : γ) (val : Bytes) (elements : List (γ × Bytes)) :
    matching stringmatchlen mit pattern ((item, val) :: elements) =
      (if patternMatches stringmatchlen pattern (mit.key item) then mit.process item val else []) ++
        matching stringmatchlen mit pattern elements := by
  rw [matching, List.filter_cons]
  split_ifs
  · rfl
  · rfl

/-- The loop sends the examined elements that match, and examines the first ones there are. -/
theorem scanLoop_spec (limit : Nat) (entries : List (Bytes × Bytes)) :
    let state := scanLoop stringmatchlen mit pattern limit entries
    state.resp = matching stringmatchlen mit pattern state.examined ∧
      state.examined = ((mit.records entries).take limit).map Prod.snd ∧
      state.limit = limit - (mit.records entries).length ∧ state.rest <:+ entries := by
  induction limit generalizing entries with
  | zero =>
      have behind := mit.next_suffix entries
      rw [scanLoop]
      cases found : mit.next entries with
      | mk answer rest =>
          rw [found] at behind
          cases answer with
          | none => exact ⟨rfl, rfl, (Nat.zero_sub _).symm, behind⟩
          | some answer => exact ⟨rfl, rfl, (Nat.zero_sub _).symm, behind⟩
  | succ limit ih =>
      have behind := mit.next_suffix entries
      rw [scanLoop]
      cases found : mit.next entries with
      | mk answer rest =>
          rw [found] at behind
          cases answer with
          | none =>
              have nothing := ScanIterator.next_eq_none.mp (congrArg Prod.fst found)
              rw [nothing]
              exact ⟨rfl, rfl, rfl, behind⟩
          | some answer =>
              obtain ⟨ks, item, vs⟩ := answer
              have left := (ScanIterator.next_eq_some found).1
              simp only [left, List.take_succ_cons, List.map_cons, List.length_cons]
              by_cases last : limit = 0
              · subst last
                simp only [if_true, matching_cons]
                exact ⟨(List.append_nil _).symm, rfl, by omega, behind⟩
              · obtain ⟨sent, examined, spare, later⟩ := ih rest
                simp only [if_neg last, matching_cons]
                exact ⟨congrArg _ sent, congrArg _ examined, by omega, later.trans behind⟩

/-- Where the loop stops when its limit is used up. -/
theorem records_scanLoop_rest {limit : Nat} (positive : 0 < limit)
    {entries : List (Bytes × Bytes)} (enough : limit ≤ (mit.records entries).length) :
    mit.records (scanLoop stringmatchlen mit pattern limit entries).rest =
      (mit.records entries).drop limit := by
  induction limit generalizing entries with
  | zero => omega
  | succ limit ih =>
      rw [scanLoop]
      cases found : mit.next entries with
      | mk answer rest =>
          cases answer with
          | none =>
              have nothing := ScanIterator.next_eq_none.mp (congrArg Prod.fst found)
              rw [nothing] at enough
              cases enough
          | some answer =>
              obtain ⟨ks, item, vs⟩ := answer
              have left := (ScanIterator.next_eq_some found).1
              rw [left, List.length_cons] at enough
              simp only [left, List.drop_succ_cons]
              by_cases last : limit = 0
              · rw [if_pos last, last]
                rfl
              · rw [if_neg last]
                exact ih (Nat.pos_of_ne_zero last) (Nat.le_of_succ_le_succ enough)

theorem doScanGeneric_spec (limit : Nat) (entries : List (Bytes × Bytes)) :
    let page := doScanGeneric stringmatchlen mit pattern limit entries
    page.resp = matching stringmatchlen mit pattern page.examined ∧
      page.examined = (mit.elements entries).take limit := by
  obtain ⟨sent, examined, _, _⟩ := @scanLoop_spec stringmatchlen γ mit pattern limit entries
  rw [List.map_take, ← ScanIterator.elements_eq_records] at examined
  rw [doScanGeneric]
  cases mit.next (scanLoop stringmatchlen mit pattern limit entries).rest with
  | mk answer rest =>
      cases answer with
      | none => exact ⟨sent, examined⟩
      | some answer =>
          simp only
          split_ifs
          · exact ⟨sent, examined⟩
          · exact ⟨sent, examined⟩

/-- The record a page remembers is the first one that the loop has left. -/
theorem next_doScanGeneric (limit : Nat) (entries : List (Bytes × Bytes))
    (used : (scanLoop stringmatchlen mit pattern limit entries).limit = 0) :
    (doScanGeneric stringmatchlen mit pattern limit entries).next =
      (mit.records (scanLoop stringmatchlen mit pattern limit entries).rest).head?.map Prod.fst := by
  rw [doScanGeneric]
  cases found : mit.next (scanLoop stringmatchlen mit pattern limit entries).rest with
  | mk answer rest =>
      cases answer with
      | none =>
          rw [ScanIterator.next_eq_none.mp (congrArg Prod.fst found)]
          rfl
      | some answer =>
          obtain ⟨ks, item, vs⟩ := answer
          rw [(ScanIterator.next_eq_some found).1]
          simp only [used, ne_eq, not_true_eq_false, if_false]
          rfl

/-- A page of at least one element remembers the record behind its own. -/
theorem next_doScanGeneric_of_pos {limit : Nat} (positive : 0 < limit)
    (entries : List (Bytes × Bytes)) :
    (doScanGeneric stringmatchlen mit pattern limit entries).next =
      ((mit.records entries).drop limit).head?.map Prod.fst := by
  obtain ⟨_, _, spare, _⟩ := @scanLoop_spec stringmatchlen γ mit pattern limit entries
  by_cases enough : limit ≤ (mit.records entries).length
  · rw [next_doScanGeneric limit entries (by omega), records_scanLoop_rest positive enough]
  · have unused : (scanLoop stringmatchlen mit pattern limit entries).limit ≠ 0 := by omega
    rw [List.drop_of_length_le (Nat.le_of_not_le enough), doScanGeneric]
    cases mit.next (scanLoop stringmatchlen mit pattern limit entries).rest with
    | mk answer rest =>
        cases answer with
        | none => rfl
        | some answer => exact congrArg ScanPage.next (if_pos unused)

/-- A scan from the key of a record delivers what is left from that record on. -/
theorem remaining_of_suffix {db : DB} {start : Bytes} {later : List (Bytes × Bytes)}
    (behind : later <:+ iterator db start) :
    mit.remaining db ((mit.records later).head?.map Prod.fst) = mit.elements later := by
  cases found : mit.next later with
  | mk answer rest =>
      cases answer with
      | none =>
          rw [ScanIterator.elements_eq_records,
            ScanIterator.next_eq_none.mp (congrArg Prod.fst found)]
          rfl
      | some answer =>
          obtain ⟨ks, item, vs⟩ := answer
          obtain ⟨left, ⟨skipped, split⟩, first⟩ := ScanIterator.next_eq_some found
          obtain ⟨before, whole⟩ := behind
          have position : db.seek start = (before ++ skipped) ++ (ks, vs) :: rest := by
            rw [List.append_assoc, ← split, whole, iterator_eq_seek]
          rw [left, List.head?_cons, Option.map_some, ScanIterator.remaining, iterator_eq_seek,
            SortedMap.seek_of_seek_eq_append position, ScanIterator.elements_eq_records, first,
            ScanIterator.elements_eq_records, left]

/-- What a page is for: it sends the examined elements that match, and the examined ones together
with those that a scan from its cursor delivers are all there are. -/
structure PageKeepsAll (stringmatchlen : Bytes → Bytes → Bool) (mit : ScanIterator γ)
    (pattern : Bytes) (limit : Nat) (db : DB) (start : Bytes) : Prop where
  sent : (doScanGeneric stringmatchlen mit pattern limit (iterator db start)).resp =
    matching stringmatchlen mit pattern
      (doScanGeneric stringmatchlen mit pattern limit (iterator db start)).examined
  kept : (doScanGeneric stringmatchlen mit pattern limit (iterator db start)).examined ++
      mit.remaining db (doScanGeneric stringmatchlen mit pattern limit (iterator db start)).next =
    mit.elements (iterator db start)

/-- Asked twice, the iterator delivers nothing. -/
def ScanIterator.Exhausted (mit : ScanIterator γ) (entries : List (Bytes × Bytes)) : Prop :=
  (mit.next entries).1 = none ∧ (mit.next (mit.next entries).2).1 = none

/-- A page of at least one element loses none. -/
theorem pageKeepsAll_of_pos {limit : Nat} (positive : 0 < limit) (db : DB) (start : Bytes) :
    PageKeepsAll stringmatchlen mit pattern limit db start := by
  obtain ⟨sent, examined⟩ :=
    @doScanGeneric_spec stringmatchlen γ mit pattern limit (iterator db start)
  obtain ⟨_, _, spare, behind⟩ :=
    @scanLoop_spec stringmatchlen γ mit pattern limit (iterator db start)
  refine ⟨sent, ?_⟩
  rw [examined]
  by_cases enough : limit ≤ (mit.records (iterator db start)).length
  · rw [next_doScanGeneric limit _ (by omega), remaining_of_suffix behind,
      ScanIterator.elements_eq_records, ScanIterator.elements_eq_records,
      records_scanLoop_rest positive enough, ← List.map_take, ← List.map_append,
      List.take_append_drop]
  · have short : (mit.elements (iterator db start)).length ≤ limit := by
      rw [ScanIterator.elements_eq_records, List.length_map]
      exact Nat.le_of_not_le enough
    rw [next_doScanGeneric_of_pos positive, List.drop_of_length_le (Nat.le_of_not_le enough),
      List.take_of_length_le short]
    exact List.append_nil _

/-- A page of no elements loses the first one there is. -/
theorem pageKeepsAll_zero_iff (db : DB) (start : Bytes) :
    PageKeepsAll stringmatchlen mit pattern 0 db start ↔ mit.Exhausted (iterator db start) := by
  obtain ⟨sent, examined⟩ := @doScanGeneric_spec stringmatchlen γ mit pattern 0 (iterator db start)
  have taken : (scanLoop stringmatchlen mit pattern 0 (iterator db start)).limit = 0 ∧
      (scanLoop stringmatchlen mit pattern 0 (iterator db start)).rest =
        (mit.next (iterator db start)).2 := by
    rw [scanLoop]
    cases mit.next (iterator db start) with
    | mk answer rest =>
        cases answer with
        | none => exact ⟨rfl, rfl⟩
        | some answer => exact ⟨rfl, rfl⟩
  have forgotten := @next_doScanGeneric stringmatchlen γ mit pattern 0 (iterator db start) taken.1
  have behind := mit.next_suffix (iterator db start)
  rw [taken.2] at forgotten
  have kept : (doScanGeneric stringmatchlen mit pattern 0 (iterator db start)).examined ++
      mit.remaining db (doScanGeneric stringmatchlen mit pattern 0 (iterator db start)).next =
        (mit.records (mit.next (iterator db start)).2).map Prod.snd := by
    rw [examined, forgotten, remaining_of_suffix behind, List.take_zero,
      ScanIterator.elements_eq_records]
    rfl
  rw [ScanIterator.Exhausted, ScanIterator.next_eq_none, ScanIterator.next_eq_none]
  constructor
  · rintro ⟨_, all⟩
    rw [kept, ScanIterator.elements_eq_records] at all
    cases found : mit.next (iterator db start) with
    | mk answer rest =>
        rw [found] at all
        cases answer with
        | none =>
            have nothing := ScanIterator.next_eq_none.mp (congrArg Prod.fst found)
            rw [nothing] at all
            exact ⟨nothing, List.map_eq_nil_iff.mp all⟩
        | some answer =>
            obtain ⟨ks, item, vs⟩ := answer
            rw [(ScanIterator.next_eq_some found).1] at all
            exact absurd (congrArg List.length all) (by simp)
  · rintro ⟨nothing, still⟩
    refine ⟨sent, ?_⟩
    rw [kept, ScanIterator.elements_eq_records, still, nothing]

/-- A page keeps all elements exactly when its count is not zero or nothing is ahead. -/
theorem pageKeepsAll_iff (stringmatchlen : Bytes → Bytes → Bool) (mit : ScanIterator γ)
    (pattern : Bytes) (limit : Nat) (db : DB) (start : Bytes) :
    PageKeepsAll stringmatchlen mit pattern limit db start ↔
      0 < limit ∨ mit.Exhausted (iterator db start) := by
  rcases Nat.eq_zero_or_pos limit with rfl | positive
  · rw [pageKeepsAll_zero_iff]
    simp
  · exact iff_of_true (pageKeepsAll_of_pos positive db start) (Or.inl positive)

end Page

/-- A set `s` of two members. -/
def twoMembers : DB :=
  (SortedMap.put ∅ (encodeSetKey [115] [97] 0) []).put (encodeSetKey [115] [98] 0) []

/-- Matching of patterns without special characters. -/
def matchLiterally (pattern key : Bytes) : Bool := pattern = key

/-- With `COUNT 0` the first member is never seen and the scan goes on from the second one. -/
theorem page_loses_member :
    ¬PageKeepsAll matchLiterally (sIterator [115] 0) [42] 0 twoMembers
      (encodeSetKey [115] [] 0) := by
  rintro ⟨_, kept⟩
  have first : (sIterator [115] 0).elements (iterator twoMembers (encodeSetKey [115] [] 0)) =
      [(⟨[115], 0, [97]⟩, []), (⟨[115], 0, [98]⟩, [])] := by decide +kernel
  have second : (sIterator [115] 0).elements (iterator twoMembers (encodeSetKey [115] [98] 0)) =
      [(⟨[115], 0, [98]⟩, [])] := by decide +kernel
  have page : (doScanGeneric matchLiterally (sIterator [115] 0) [42] 0
      (iterator twoMembers (encodeSetKey [115] [] 0))) =
        ⟨[], [], some (encodeSetKey [115] [98] 0)⟩ := rfl
  rw [page, first] at kept
  exact absurd (second.symm.trans kept) (by decide)

end Vcdb
