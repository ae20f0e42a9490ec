import Vcdb.Keyspace.ScanReply

/-!
# Cursors

A page of a scan runs through the records under one prefix of the store.  The position behind it is
put in a table under a number, and the number is sent as a text.
-/

namespace Vcdb

/-! ### Texts of cursors -/

theorem readSigned_strUInt64 (n : UInt64) :
    Conversion.readSigned (strUInt64 n) = some (false, n.toNat) := by
  have isDigit : ∀ c ∈ strUInt64 n, Decimal.IsDigit c := fun c mem =>
    Decimal.isDigit_of_mem_numeral mem
  have fits : n.toNat < 10 ^ 20 := lt_trans n.toNat_lt (by decide)
  have read : Conversion.readDigits (strUInt64 n) = some n.toNat := by
    have nonempty : strUInt64 n ≠ [] := Decimal.numeral_ne_nil (by decide)
    have all : (strUInt64 n).all (Decimal.IsDigit ·) := List.all_eq_true.mpr fun c mem =>
      decide_eq_true (isDigit c mem)
    rw [Conversion.readDigits, if_pos ⟨nonempty, all⟩, strUInt64,
      Decimal.value_numeral fits (by decide)]
  cases spelled : strUInt64 n with
  | nil => exact absurd spelled (Decimal.numeral_ne_nil (by decide))
  | cons c rest =>
      have digit := isDigit c (by rw [spelled]; exact List.mem_cons_self)
      have notMinus : c ≠ 45 := by
        rintro rfl
        exact absurd digit (by decide)
      have notPlus : c ≠ 43 := by
        rintro rfl
        exact absurd digit (by decide)
      rw [spelled] at read
      unfold Conversion.readSigned
      split
      · next digits same => exact absurd (List.cons.inj same).1 notMinus
      · next digits same => exact absurd (List.cons.inj same).1 notPlus
      · rw [read]
        rfl

/-- The text of a cursor is read as its number. -/
theorem strToUInt64_strUInt64 (n : UInt64) :
    (strToUInt64 (strUInt64 n) 0).2 ≠ einval ∧ (strToUInt64 (strUInt64 n) 0).1 = n := by
  have read := readSigned_strUInt64 n
  have number : uint64Number (strUInt64 n) = some n := by
    have inRange : 0 ≤ Conversion.signed (false, n.toNat) ∧
        Conversion.signed (false, n.toNat) < 2 ^ 64 := by
      have := n.toNat_lt
      rw [Conversion.signed_false]
      omega
    rw [uint64Number, read, Option.bind_some, if_pos inRange, Conversion.signed_false,
      Int.toNat_natCast, UInt64.ofNat_toNat]
  have text : UInt64Text (strUInt64 n) := by
    refine ⟨Decimal.numeral_ne_nil (by decide), fun number leading => ?_, fun spaced => ?_, ?_⟩
    · rw [leadingInteger_of_readSigned read, Option.mem_some] at leading
      rw [← leading]
      exact n.toNat_lt
    · exact not_isSpace_of_readSigned read spaced.1
    · intro magnitude negative
      rw [read] at negative
      cases negative
  have meets := (strToUInt64_meets_iff (strUInt64 n) 0).mpr text
  rw [number] at meets
  exact meets

theorem strUInt64_eq_zero_iff (n : UInt64) : strUInt64 n = [48] ↔ n = 0 := by
  constructor
  · intro zero
    have value := (strToUInt64_strUInt64 n).2
    rw [zero] at value
    rw [← value]
    rfl
  · rintro rfl
    rfl

/-! ### The table -/

/-- The largest number given out. -/
def lastCursor (cursors : RedisCursorTable) : Nat := cursors.keys.getLast?.getD 0

/-- Cursors are numbers of 64 bits. -/
def CursorsSized (cursors : RedisCursorTable) : Prop := ∀ n ∈ cursors.keys, n < 2 ^ 64

theorem le_lastCursor {cursors : RedisCursorTable} {n : Nat} (mem : n ∈ cursors.keys) :
    n ≤ lastCursor cursors := by
  have nonempty := List.ne_nil_of_mem mem
  rw [lastCursor, List.getLast?_eq_some_getLast nonempty, Option.getD_some]
  exact (cursors.keys_sorted.imp fun below => le_of_lt below).rel_getLast mem

theorem nextCursor_eq (cursors : RedisCursorTable) :
    cursors.nextCursor = (lastCursor cursors + 1) % 2 ^ 64 := by
  rw [RedisCursorTable.nextCursor, lastCursor]
  cases cursors.keys.getLast? with
  | none => rfl
  | some last => rfl

theorem lastCursor_lt {cursors : RedisCursorTable} (sized : CursorsSized cursors) :
    lastCursor cursors < 2 ^ 64 := by
  rw [lastCursor]
  cases last : cursors.keys.getLast? with
  | none => exact Nat.two_pow_pos 64
  | some n => exact sized n (List.mem_of_getLast? last)

section Table

variable {cursors : RedisCursorTable} (room : lastCursor cursors + 1 < 2 ^ 64) (element : Bytes)

include room

theorem nextCursor_of_room : cursors.nextCursor = lastCursor cursors + 1 := by
  rw [nextCursor_eq cursors, Nat.mod_eq_of_lt room]

/-- A new cursor is put behind all others. -/
theorem getNewRedisCursor_of_room :
    cursors.getNewRedisCursor element = cursors.put (lastCursor cursors + 1) element := by
  have unused : cursors.get (lastCursor cursors + 1) = none := by
    rw [Option.eq_none_iff_forall_not_mem]
    intro element found
    have mem : lastCursor cursors + 1 ∈ cursors.keys := by
      rw [SortedMap.mem_keys, Option.mem_def.mp found]
      rfl
    exact absurd (le_lastCursor mem) (by omega)
  rw [RedisCursorTable.getNewRedisCursor, nextCursor_of_room room, unused]
  rfl

theorem cursorsSized_getNewRedisCursor (sized : CursorsSized cursors) :
    CursorsSized (cursors.getNewRedisCursor element) := by
  intro n mem
  rw [getNewRedisCursor_of_room room, SortedMap.mem_keys, SortedMap.get_put] at mem
  split_ifs at mem with new
  · omega
  · exact sized n (SortedMap.mem_keys.mpr mem)

theorem lastCursor_getNewRedisCursor :
    lastCursor (cursors.getNewRedisCursor element) = lastCursor cursors + 1 := by
  have added : lastCursor cursors + 1 ∈ (cursors.getNewRedisCursor element).keys := by
    rw [getNewRedisCursor_of_room room, SortedMap.mem_keys, SortedMap.get_put_self]
    rfl
  refine le_antisymm ?_ (le_lastCursor added)
  have nonempty := List.ne_nil_of_mem added
  rw [lastCursor, List.getLast?_eq_some_getLast nonempty, Option.getD_some]
  have last := List.getLast_mem nonempty
  generalize (cursors.getNewRedisCursor element).keys.getLast nonempty = n at last
  rw [getNewRedisCursor_of_room room, SortedMap.mem_keys, SortedMap.get_put] at last
  split_ifs at last with new
  · exact le_of_eq new
  · exact (le_lastCursor (SortedMap.mem_keys.mpr last)).trans (Nat.le_succ _)

theorem get_getNewRedisCursor :
    (cursors.getNewRedisCursor element).get cursors.nextCursor = some element := by
  rw [nextCursor_of_room room, getNewRedisCursor_of_room room, SortedMap.get_put_self]

/-- The text sent for a new cursor is not `0`, and leads back to the element while the table keeps
it. -/
theorem scanPosition_of_get {kept : RedisCursorTable}
    (found : kept.get cursors.nextCursor = some element) (first : Bytes) :
    strUInt64 (UInt64.ofNat cursors.nextCursor) ≠ [48] ∧
      scanPosition kept (strUInt64 (UInt64.ofNat cursors.nextCursor)) first = element := by
  have number : (UInt64.ofNat cursors.nextCursor).toNat = cursors.nextCursor :=
    UInt64.toNat_ofNat_of_lt' (by rw [nextCursor_of_room room]; exact room)
  have notZero : strUInt64 (UInt64.ofNat cursors.nextCursor) ≠ [48] := by
    rw [Ne, strUInt64_eq_zero_iff]
    intro zero
    have := congrArg UInt64.toNat zero
    rw [number, nextCursor_of_room room] at this
    exact absurd this (Nat.succ_ne_zero _)
  refine ⟨notZero, ?_⟩
  obtain ⟨valid, same⟩ := strToUInt64_strUInt64 (UInt64.ofNat cursors.nextCursor)
  rw [scanPosition, if_neg notZero, if_neg valid, same, number, found, Option.getD_some]

theorem scanPosition_getNewRedisCursor (first : Bytes) :
    strUInt64 (UInt64.ofNat cursors.nextCursor) ≠ [48] ∧
      scanPosition (cursors.getNewRedisCursor element)
        (strUInt64 (UInt64.ofNat cursors.nextCursor)) first = element :=
  scanPosition_of_get room element (get_getNewRedisCursor room element) first

end Table

/-- Behind the largest number comes `0`, which tells a client that the scan has ended. -/
theorem strUInt64_nextCursor_of_full {cursors : RedisCursorTable} (sized : CursorsSized cursors)
    (full : 2 ^ 64 ≤ lastCursor cursors + 1) :
    strUInt64 (UInt64.ofNat cursors.nextCursor) = [48] := by
  have below := lastCursor_lt sized
  have last : lastCursor cursors + 1 = 2 ^ 64 := by omega
  rw [nextCursor_eq cursors, last, Nat.mod_self]
  rfl

/-! ### Records under one prefix -/

/-- An iterator delivers the records under a prefix of the store and no others. -/
structure ScanIterator.Covers {γ : Type} (mit : ScanIterator γ) (db : DB) (start : Bytes)
    (item : Bytes → γ) : Prop where
  own : ∀ tail, (db.get (start ++ tail)).isSome →
    mit.decode (start ++ tail) = some (item tail) ∧ mit.belongs (item tail)
  foreign : ∀ {ks found}, mit.decode ks = some found → mit.belongs found → start <+: ks

namespace ScanIterator.Covers

variable {γ : Type} {mit : ScanIterator γ} {db : DB} {start : Bytes} {item : Bytes → γ}
  (covers : mit.Covers db start item)

include covers

theorem records_foreign {rest : List (Bytes × Bytes)}
    (outside : ∀ entry ∈ rest, ¬start <+: entry.1) : mit.records rest = [] := by
  induction rest with
  | nil => rfl
  | cons entry rest ih =>
      obtain ⟨ks, vs⟩ := entry
      rw [records]
      cases decoded : mit.decode ks with
      | none => exact ih fun entry mem => outside entry (List.mem_cons_of_mem _ mem)
      | some found =>
          exact if_neg fun mine => outside _ List.mem_cons_self (covers.foreign decoded mine)

theorem records_eq (low : Bytes) :
    mit.records (iterator db (start ++ low)) =
      ((db.under start).seek low).map fun entry => (start ++ entry.1, item entry.1, entry.2) := by
  obtain ⟨rest, block, outside⟩ := db.seek_append_eq_block start low
  have stored : ∀ entry ∈ (db.under start).seek low, (db.get (start ++ entry.1)).isSome := by
    intro entry mem
    rw [← SortedMap.get_under, (SortedMap.mem_seek.mp mem).2]
    rfl
  rw [iterator_eq_seek, block]
  generalize (db.under start).seek low = entries at stored
  induction entries with
  | nil => exact covers.records_foreign outside
  | cons entry entries ih =>
      obtain ⟨tail, val⟩ := entry
      obtain ⟨decoded, mine⟩ := covers.own tail (stored _ List.mem_cons_self)
      rw [List.map_cons, List.cons_append, records, decoded]
      simp only [mine, if_true, List.map_cons]
      exact congrArg _ (ih fun entry mem => stored entry (List.mem_cons_of_mem _ mem))

/-- A page examines the first records from its position on and remembers the one behind them. -/
theorem page (stringmatchlen : Bytes → Bytes → Bool) (pattern low : Bytes) {limit : Nat}
    (positive : 0 < limit) :
    (doScanGeneric stringmatchlen mit pattern limit (iterator db (start ++ low))).examined =
        (((db.under start).seek low).take limit).map (fun entry => (item entry.1, entry.2)) ∧
      (doScanGeneric stringmatchlen mit pattern limit (iterator db (start ++ low))).next =
        (((db.under start).seek low).drop limit).head?.map fun entry => start ++ entry.1 := by
  have records := covers.records_eq low
  constructor
  · rw [(doScanGeneric_spec limit _).2, elements_eq_records, records, List.map_map, ← List.map_take]
    rfl
  · rw [next_doScanGeneric_of_pos positive, records, ← List.map_drop, List.head?_map,
      Option.map_map]
    rfl

end ScanIterator.Covers

theorem mIterator_covers (db : DB) : mIterator.Covers db [DataType.metadata] some where
  own _ _ := ⟨rfl, rfl⟩
  foreign := by
    intro ks found decoded mine
    rw [mIterator] at decoded mine
    cases ks with
    | nil =>
        obtain rfl := Option.some_inj.mp decoded
        cases mine
    | cons type key =>
        by_cases kind : type = DataType.metadata
        · rw [kind]
          exact List.prefix_append [DataType.metadata] key
        · simp only [List.head?_cons, Option.some_inj, kind, if_false] at decoded
          obtain rfl := decoded
          cases mine

end Vcdb
