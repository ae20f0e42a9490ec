import Vcdb.Codec.RdbDecoder

/-!
# The grammar of serialized values

Which byte strings the loaders accept, with the values they stand for, and which ones end the
process: the fatal inputs.
-/

namespace Vcdb

/-- A failure that ends the process. -/
def Failure.IsFatal : Failure → Prop
  | code _ => False
  | crash _ => True

/-- A length; the flag tells the encoding of a string from the length of a plain one. -/
inductive LenWord : Bytes → Bool × UInt64 → Prop
  | encoding (b : UInt8) : lenType b = rdbEncval → LenWord [b] (true, (b &&& 0x3F).toUInt64)
  | short (b : UInt8) : lenType b = rdb6bitlen → LenWord [b] (false, (b &&& 0x3F).toUInt64)
  | medium (b low : UInt8) : lenType b = rdb14bitlen →
      LenWord [b, low] (false, ((b &&& 0x3F).toUInt64 <<< 8) ||| low.toUInt64)
  | wide (digits : Bytes) : digits.length = 4 →
      LenWord (rdb32bitlen :: digits) (false, UInt64.ofNat (Endian.ofBigEndian digits))
  | huge (digits : Bytes) : digits.length = 8 →
      UInt64.ofNat (Endian.ofBigEndian digits) ≠ rdbLenerr →
      LenWord (rdb64bitlen :: digits) (false, UInt64.ofNat (Endian.ofBigEndian digits))

/-- A first byte that is no length at all: the process exits. -/
def BadLen (input : Bytes) : Prop :=
  ∃ b rest, input = b :: rest ∧ lenType b = 2 ∧ b ≠ rdb32bitlen ∧ b ≠ rdb64bitlen

/-- Lengths, read by a caller for whom a missing length is fatal or not. -/
def lenGrammar (strict : Prop) : Grammar UInt8 (Bool × UInt64) where
  word := LenWord
  fatal input := BadLen input ∨ strict ∧ ¬∃ w rest len, input = w ++ rest ∧ LenWord w len

/-- A fixed number of bytes. -/
def bytesGrammar (strict : Prop) (n : Nat) : Grammar UInt8 Bytes where
  word w value := value = w ∧ w.length = n ∧ n ≠ 0
  fatal input := strict ∧ (input.length < n ∨ n = 0)

/-- No word, and every input is fatal. -/
def exitGrammar {α : Type} : Grammar UInt8 α where
  word _ _ := False
  fatal _ := True

/-- Short integers; one that is cut off is fatal. -/
def integerGrammar (enctype : UInt64) : Grammar UInt8 Bytes :=
  if enctype = rdbEncInt8 then
    (bytesGrammar True 1).bind fun enc =>
      .pure (str (UInt8.ofNat (Endian.ofBigEndian enc.reverse)).toInt8.toInt64)
  else if enctype = rdbEncInt16 then
    (bytesGrammar True 2).bind fun enc =>
      .pure (str (UInt16.ofNat (Endian.ofBigEndian enc.reverse)).toInt16.toInt64)
  else
    (bytesGrammar True 4).bind fun enc =>
      .pure (str (UInt32.ofNat (Endian.ofBigEndian enc.reverse)).toInt32.toInt64)

/-- The first token is whole and fits, so that the decompressor touches its block. -/
def LzfTouches (outLen : Nat) : Bytes → Prop
  | [] => False
  | ctrl :: ip =>
      if ctrl < 32 then ctrl.toNat + 1 ≤ outLen ∧ ctrl.toNat + 1 ≤ ip.length
      else ∃ len offset rest, backReference ctrl ip = some (len, offset, rest) ∧ len ≤ outLen

/-- The string a block ends up with: what was decompressed, and what was found behind it. -/
def blockGrammar (runtime : Runtime) (tmp : Bytes) (len : UInt64) : Grammar UInt8 Bytes where
  word w value := w = [] ∧ runtime.malloc tmp len ∧ ∃ out unwritten,
    lzfDecompress true (len.toNat % 2 ^ 32) [] tmp = .ok (some out) ∧
      (List.range' out.length (len.toNat - out.length)).mapM (runtime.stale tmp) = some unwritten ∧
      value = out ++ unwritten
  fatal _ :=
    if runtime.malloc tmp len then
      ∃ out, lzfDecompress true (len.toNat % 2 ^ 32) [] tmp = .ok (some out) ∧
        (List.range' out.length (len.toNat - out.length)).mapM (runtime.stale tmp) = none
    else LzfTouches (len.toNat % 2 ^ 32) tmp

/-- Compressed strings; a missing length is fatal. -/
def lzfGrammar (runtime : Runtime) : Grammar UInt8 Bytes :=
  (lenGrammar True).bind fun clen =>
    (lenGrammar True).bind fun len =>
      (bytesGrammar False clen.2.toNat).bind fun tmp => blockGrammar runtime tmp len.2

/-- Strings in every encoding. -/
def stringGrammar (runtime : Runtime) : Grammar UInt8 Bytes :=
  (lenGrammar False).bind fun len =>
    if len.1 then
      if len.2 = rdbEncInt8 ∨ len.2 = rdbEncInt16 ∨ len.2 = rdbEncInt32 then integerGrammar len.2
      else if len.2 = rdbEncLzf then lzfGrammar runtime
      else exitGrammar
    else if len.2 = 0 then .pure []
    else bytesGrammar False len.2.toNat

def binaryDoubleGrammar : Grammar UInt8 Double :=
  (bytesGrammar False 8).bind fun val => .pure (UInt64.ofNat (Endian.ofBigEndian val.reverse))

/-- Doubles as text. -/
def doubleGrammar (runtime : Runtime) (val : Double) : Grammar UInt8 Double :=
  (bytesGrammar False 1).bind fun first =>
    if first.headD 0 = 255 then .pure rNegInf
    else if first.headD 0 = 254 then .pure rPosInf
    else if first.headD 0 = 253 then .pure runtime.rNan
    else
      (bytesGrammar False (first.headD 0).toNat).bind fun buf =>
        .pure ((runtime.scanDouble buf).getD val)

/-- Read a length, failing when there is none. -/
def rdbLoadLenOr (failure : Failure) : RdbDecoder (Bool × UInt64) := do
  let len ← rdbLoadLen
  if len.2 = rdbLenerr then throw failure else return len

section Lengths

theorem toUInt64_low_ne (b : UInt8) : (b &&& 0x3F).toUInt64 ≠ rdbLenerr := by
  intro same
  have words := congrArg UInt64.toNat same
  rw [UInt8.toNat_toUInt64] at words
  have small := (b &&& 0x3F).toNat_lt
  rw [words] at small
  exact absurd small (by decide)

/-- A length in a fixed number of bytes. -/
def loadFixed (rest : Bytes) (n : Nat) : Except Failure ((Bool × UInt64) × Bytes) :=
  if rest.length < n then .ok ((false, rdbLenerr), rest)
  else .ok ((false, UInt64.ofNat (Endian.ofBigEndian (rest.take n))), rest.drop n)

/-- What is loaded behind the first byte of a length. -/
def loadLenTail (b : UInt8) (rest : Bytes) : Except Failure ((Bool × UInt64) × Bytes) :=
  if lenType b = rdbEncval then .ok ((true, (b &&& 0x3F).toUInt64), rest)
  else if lenType b = rdb6bitlen then .ok ((false, (b &&& 0x3F).toUInt64), rest)
  else if lenType b = rdb14bitlen then
    match rest with
    | [] => .ok ((false, rdbLenerr), [])
    | low :: rest => .ok ((false, ((b &&& 0x3F).toUInt64 <<< 8) ||| low.toUInt64), rest)
  else if b = rdb32bitlen then loadFixed rest 4
  else if b = rdb64bitlen then loadFixed rest 8
  else .error (.crash .corruptRdb)

theorem rioRead_bind {α : Type} (n : Nat) (next : Bytes → RdbDecoder α) (rest : Bytes) :
    (rioRead n >>= next) rest =
      if rest.length < n then next [] rest else next (rest.take n) (rest.drop n) := by
  simp only [bind, StateT.bind, rioRead]
  split <;> rfl

theorem rdbLoadLen_cons (b : UInt8) (rest : Bytes) : rdbLoadLen (b :: rest) = loadLenTail b rest := by
  have first : ∀ {α : Type} (next : Bytes → RdbDecoder α),
      (rioRead 1 >>= next) (b :: rest) = next [b] rest := by
    intro α next
    rw [rioRead_bind, if_neg (by simp)]
    rfl
  unfold rdbLoadLen rdbLoadLenByRef loadLenTail loadFixed
  rw [bind_assoc, first]
  dsimp only
  split_ifs
  · rfl
  · rfl
  · cases rest <;> rfl
  · rw [bind_assoc, rioRead_bind, if_pos ‹_›]
    rfl
  · rw [bind_assoc, rioRead_bind, if_neg ‹_›]
    cases taken : rest.take 4 with
    | nil => simp_all
    | cons head tail => rfl
  · rw [bind_assoc, rioRead_bind, if_pos ‹_›]
    rfl
  · rw [bind_assoc, rioRead_bind, if_neg ‹_›]
    cases taken : rest.take 8 with
    | nil => simp_all
    | cons head tail => rfl
  · rfl

theorem lenType_cases (b : UInt8) :
    lenType b = rdbEncval ∨ lenType b = rdb6bitlen ∨ lenType b = rdb14bitlen ∨ lenType b = 2 := by
  have every : ∀ n : Fin 256, lenType (UInt8.ofNat n) = rdbEncval ∨
      lenType (UInt8.ofNat n) = rdb6bitlen ∨ lenType (UInt8.ofNat n) = rdb14bitlen ∨
      lenType (UInt8.ofNat n) = 2 := by decide +kernel
  simpa using every ⟨b.toNat, b.toNat_lt⟩

theorem toUInt64_pair_ne (b low : UInt8) :
    ((b &&& 0x3F).toUInt64 <<< 8) ||| low.toUInt64 ≠ rdbLenerr := by
  intro same
  have words := congrArg UInt64.toNat same
  have high : (((b &&& 0x3F).toUInt64 <<< 8)).toNat < 2 ^ 16 := by
    have small := (b &&& 0x3F).toNat_lt
    simp only [UInt64.toNat_shiftLeft, UInt8.toNat_toUInt64, Nat.shiftLeft_eq]
    exact (Nat.mod_le _ _).trans_lt (by change _ * 2 ^ 8 < _; omega)
  have both : (((b &&& 0x3F).toUInt64 <<< 8) ||| low.toUInt64).toNat < 2 ^ 16 := by
    rw [UInt64.toNat_or, UInt8.toNat_toUInt64]
    exact Nat.or_lt_two_pow high (low.toNat_lt.trans (by decide))
  rw [words] at both
  exact absurd both (by decide)

/-- A length is loaded exactly when the input starts with one. -/
theorem rdbLoadLen_ok_iff {input rest : Bytes} {len : Bool × UInt64} :
    rdbLoadLen input = .ok (len, rest) ∧ len.2 ≠ rdbLenerr ↔
      ∃ w, input = w ++ rest ∧ LenWord w len := by
  constructor
  · rintro ⟨loaded, some⟩
    cases input with
    | nil =>
        obtain ⟨rfl, rfl⟩ : (false, rdbLenerr) = len ∧ [] = rest := by
          simpa using (show Except.ok ((false, rdbLenerr), []) = Except.ok (len, rest) from loaded)
        exact absurd rfl some
    | cons b tail =>
        have fixed : ∀ n, loadFixed tail n = .ok (len, rest) →
            ∃ digits : Bytes, digits.length = n ∧ tail = digits ++ rest ∧
              len = (false, UInt64.ofNat (Endian.ofBigEndian digits)) := by
          intro n found
          unfold loadFixed at found
          split_ifs at found with short
          · obtain ⟨rfl, _⟩ := by simpa using found
            exact absurd rfl some
          · obtain ⟨rfl, rfl⟩ := by simpa using found
            exact ⟨tail.take n, by rw [List.length_take]; omega,
              (List.take_append_drop n tail).symm, rfl⟩
        rw [rdbLoadLen_cons, loadLenTail.eq_def] at loaded
        split_ifs at loaded with encoding short medium wide huge
        · obtain ⟨rfl, rfl⟩ := by simpa using loaded
          exact ⟨[b], rfl, .encoding b encoding⟩
        · obtain ⟨rfl, rfl⟩ := by simpa using loaded
          exact ⟨[b], rfl, .short b short⟩
        · cases tail with
          | nil =>
              obtain ⟨rfl, _⟩ := by simpa using loaded
              exact absurd rfl some
          | cons low tail =>
              obtain ⟨rfl, rfl⟩ := by simpa using loaded
              exact ⟨[b, low], rfl, .medium b low medium⟩
        · obtain ⟨digits, four, rfl, rfl⟩ := fixed 4 loaded
          exact ⟨b :: digits, rfl, wide ▸ .wide digits four⟩
        · obtain ⟨digits, eight, rfl, rfl⟩ := fixed 8 loaded
          exact ⟨b :: digits, rfl, huge ▸ .huge digits eight some⟩
  · rintro ⟨w, rfl, word⟩
    have fixed : ∀ digits : Bytes, loadFixed (digits ++ rest) digits.length =
        .ok ((false, UInt64.ofNat (Endian.ofBigEndian digits)), rest) := by
      intro digits
      simp [loadFixed]
    cases word with
    | encoding b encoding =>
        rw [List.singleton_append, rdbLoadLen_cons, loadLenTail.eq_def, if_pos encoding]
        exact ⟨rfl, toUInt64_low_ne b⟩
    | short b short =>
        rw [List.singleton_append, rdbLoadLen_cons, loadLenTail.eq_def, short,
          if_neg (by decide), if_pos rfl]
        exact ⟨rfl, toUInt64_low_ne b⟩
    | medium b low medium =>
        rw [List.cons_append, rdbLoadLen_cons, loadLenTail.eq_def, medium,
          if_neg (by decide), if_neg (by decide), if_pos rfl]
        exact ⟨rfl, toUInt64_pair_ne b low⟩
    | wide digits four =>
        rw [List.cons_append, rdbLoadLen_cons, loadLenTail.eq_def, if_neg (by decide),
          if_neg (by decide), if_neg (by decide), if_pos rfl, ← four, fixed]
        refine ⟨rfl, fun same => ?_⟩
        have words := congrArg UInt64.toNat same
        have small := Endian.ofBigEndian_lt digits
        rw [four] at small
        rw [UInt64.toNat_ofNat_of_lt' (small.trans (by decide))] at words
        rw [words] at small
        exact absurd small (by decide)
    | huge digits eight some =>
        rw [List.cons_append, rdbLoadLen_cons, loadLenTail.eq_def, if_neg (by decide),
          if_neg (by decide), if_neg (by decide), if_neg (by decide), if_pos rfl, ← eight, fixed]
        exact ⟨rfl, some⟩

theorem rdbLoadLen_error_iff {input : Bytes} {failure : Failure} :
    rdbLoadLen input = .error failure ↔ failure = .crash .corruptRdb ∧ BadLen input := by
  cases input with
  | nil =>
      have none : rdbLoadLen [] = .ok ((false, rdbLenerr), []) := rfl
      simp [none, BadLen]
  | cons b rest =>
      rw [rdbLoadLen_cons, loadLenTail.eq_def]
      have bad : BadLen (b :: rest) ↔ lenType b = 2 ∧ b ≠ rdb32bitlen ∧ b ≠ rdb64bitlen := by
        constructor
        · rintro ⟨_, _, same, bad⟩
          rwa [(List.cons.inj same).1]
        · exact fun bad => ⟨b, rest, rfl, bad⟩
      rw [bad]
      unfold loadFixed
      split_ifs with encoding short medium wide _ huge
      · simp [encoding, show rdbEncval ≠ 2 by decide]
      · simp [short, show rdb6bitlen ≠ 2 by decide]
      · cases rest <;> simp [medium, show rdb14bitlen ≠ 2 by decide]
      · simp [wide]
      · simp [wide]
      · simp [huge]
      · simp [huge]
      · have other : lenType b = 2 := by
          rcases lenType_cases b with h | h | h | h
          · exact absurd h encoding
          · exact absurd h short
          · exact absurd h medium
          · exact h
        simp [other, wide, huge, eq_comm]

theorem lenOr_implements (failure : Failure) :
    Grammar.Implements Failure.IsFatal (rdbLoadLenOr failure) (lenGrammar failure.IsFatal) := by
  have accepts : ∀ input len rest, rdbLoadLenOr failure input = .ok (len, rest) ↔
      ∃ w, input = w ++ rest ∧ LenWord w len := by
    intro input len rest
    rw [← rdbLoadLen_ok_iff, rdbLoadLenOr, Loader.bind_eq_ok]
    constructor
    · rintro ⟨found, middle, loaded, continued⟩
      split_ifs at continued with missing
      · cases continued
      · cases continued
        exact ⟨loaded, missing⟩
    · rintro ⟨loaded, present⟩
      exact ⟨len, rest, loaded, by rw [if_neg present]; rfl⟩
  refine ⟨accepts, fun input => ⟨?_, ?_⟩⟩
  · rintro ⟨found, failed, fatal⟩
    rw [rdbLoadLenOr, Loader.bind_eq_error] at failed
    rcases failed with failed | ⟨len, rest, loaded, continued⟩
    · exact Or.inl (rdbLoadLen_error_iff.mp failed).2
    · split_ifs at continued with missing
      · cases continued
        refine Or.inr ⟨fatal, ?_⟩
        rintro ⟨w, rest', len', same, word⟩
        obtain ⟨loaded', present⟩ := rdbLoadLen_ok_iff.mpr ⟨w, same, word⟩
        rw [loaded, Except.ok.injEq, Prod.mk.injEq] at loaded'
        exact present (loaded'.1 ▸ missing)
      · cases continued
  · rintro (bad | ⟨strict, missing⟩)
    · refine ⟨.crash .corruptRdb, ?_, trivial⟩
      rw [rdbLoadLenOr, Loader.bind_eq_error]
      exact Or.inl (rdbLoadLen_error_iff.mpr ⟨rfl, bad⟩)
    · cases result : rdbLoadLenOr failure input with
      | ok loaded =>
          obtain ⟨w, same, word⟩ := (accepts input loaded.1 loaded.2).mp result
          exact absurd ⟨w, _, _, same, word⟩ missing
      | error found =>
          refine ⟨found, rfl, ?_⟩
          rw [rdbLoadLenOr, Loader.bind_eq_error] at result
          rcases result with failed | ⟨len, rest, _, continued⟩
          · rw [(rdbLoadLen_error_iff.mp failed).1]
            trivial
          · split_ifs at continued
            · cases continued
              exact strict
            · cases continued

end Lengths

section Strings

theorem exit_implements {α : Type} :
    Grammar.Implements Failure.IsFatal (throw (.crash .corruptRdb) : RdbDecoder α)
      exitGrammar where
  accepts input value rest := by
    change Except.error _ = _ ↔ _
    simp [exitGrammar]
  fails input := ⟨fun _ => trivial, fun _ => ⟨.crash .corruptRdb, rfl, trivial⟩⟩

theorem readOr_implements (failure : Failure) (n : Nat) :
    Grammar.Implements Failure.IsFatal (rioReadOr failure n)
      (bytesGrammar failure.IsFatal n) := by
  have read : ∀ input, rioReadOr failure n input =
      if input.length < n ∨ n = 0 then .error failure
      else .ok (input.take n, input.drop n) := by
    intro input
    rw [rioReadOr, rioRead_bind]
    by_cases short : input.length < n
    · rw [if_pos short, if_pos (Or.inl short)]
      rfl
    · rw [if_neg short]
      by_cases zero : n = 0
      · subst zero
        rfl
      · rw [if_neg (by omega)]
        cases taken : input.take n with
        | nil => simp_all
        | cons head tail => rfl
  constructor
  · intro input value rest
    rw [read]
    constructor
    · intro loaded
      split_ifs at loaded with failed
      obtain ⟨rfl, rfl⟩ := by simpa using loaded
      refine ⟨input.take n, (List.take_append_drop n input).symm, rfl, ?_, by omega⟩
      rw [List.length_take]
      omega
    · rintro ⟨w, rfl, rfl, rfl, positive⟩
      rw [if_neg (by simp [positive])]
      simp
  · intro input
    rw [read]
    constructor
    · rintro ⟨found, failed, fatal⟩
      split_ifs at failed with short
      · cases failed
        exact ⟨fatal, short⟩
    · rintro ⟨strict, short⟩
      exact ⟨failure, if_pos short, strict⟩

/-- A block that could be allocated is never left. -/
theorem lzfDecompress_allocated (outLen : Nat) (out input : Bytes) :
    ∃ result, lzfDecompress true outLen out input = .ok result := by
  fun_induction lzfDecompress true outLen out input
  all_goals first | exact ⟨_, rfl⟩ | simp_all

/-- A block that could not be allocated is left when the first token touches it. -/
theorem lzfDecompress_unallocated (outLen : Nat) (input : Bytes) :
    (∃ crash, lzfDecompress false outLen [] input = .error crash) ↔ LzfTouches outLen input := by
  cases input with
  | nil => simp [lzfDecompress, LzfTouches]
  | cons ctrl ip =>
      rw [lzfDecompress, LzfTouches]
      simp only [Bool.false_eq_true, if_false, List.length_nil, Nat.zero_add]
      split_ifs with literal tooLong cut
      · simp [not_le.mpr tooLong]
      · simp [not_le.mpr cut]
      · simp [not_lt.mp tooLong, not_lt.mp cut]
      · split
        · simp [*]
        · rename_i len offset rest found
          by_cases tooLong : outLen < len
          · simp [found, tooLong]
          · simp [found, tooLong, not_lt.mp tooLong]

theorem lzfDecompress_unallocated_ok {outLen : Nat} {input : Bytes} (nonempty : input ≠ [])
    {out : Bytes} : lzfDecompress false outLen [] input ≠ .ok (some out) := by
  cases input with
  | nil => exact absurd rfl nonempty
  | cons ctrl ip =>
      rw [lzfDecompress]
      simp only [Bool.false_eq_true, if_false]
      split_ifs
      · simp
      · simp
      · simp
      · split
        · simp
        · split_ifs <;> simp

/-- What decompressing a block comes to. -/
def blockOutcome (runtime : Runtime) (tmp : Bytes) (len : UInt64) (input : Bytes) :
    Except Failure (Bytes × Bytes) :=
  match lzfDecompress (runtime.malloc tmp len) (len.toNat % 2 ^ 32) [] tmp with
  | .error crash => .error (.crash crash)
  | .ok none => .error (.code (-1))
  | .ok (some out) =>
      match (List.range' out.length (len.toNat - out.length)).mapM (runtime.stale tmp) with
      | none => .error (.crash .wildRead)
      | some unwritten => .ok (out ++ unwritten, input)

theorem lzfString_eq (runtime : Runtime) (tmp : Bytes) (len : UInt64) (input : Bytes) :
    lzfString runtime tmp len input = blockOutcome runtime tmp len input := by
  rw [lzfString, blockOutcome]
  cases lzfDecompress (runtime.malloc tmp len) (len.toNat % 2 ^ 32) [] tmp with
  | error crash => rfl
  | ok result =>
      cases result with
      | none => rfl
      | some out =>
          dsimp only
          cases (List.range' out.length (len.toNat - out.length)).mapM (runtime.stale tmp) <;> rfl

theorem block_implements (runtime : Runtime) {tmp : Bytes} (nonempty : tmp ≠ []) (len : UInt64) :
    Grammar.Implements Failure.IsFatal (lzfString runtime tmp len)
      (blockGrammar runtime tmp len) := by
  constructor
  · intro input value rest
    rw [lzfString_eq, blockOutcome]
    cases allocated : runtime.malloc tmp len with
    | false =>
        simp only [blockGrammar, allocated, Bool.false_eq_true, false_and, and_false, exists_false,
          iff_false]
        cases result : lzfDecompress false (len.toNat % 2 ^ 32) [] tmp with
        | error crash => simp
        | ok found =>
            cases found with
            | none => simp
            | some out => exact absurd result (lzfDecompress_unallocated_ok nonempty)
    | true =>
        obtain ⟨found, result⟩ := lzfDecompress_allocated (len.toNat % 2 ^ 32) [] tmp
        simp only [blockGrammar, allocated, result, Except.ok.injEq, true_and]
        cases found with
        | none => simp
        | some out =>
            cases reads : (List.range' out.length (len.toNat - out.length)).mapM
                (runtime.stale tmp) with
            | none => simp [reads]
            | some unwritten =>
                simp only [reads, Except.ok.injEq, Prod.mk.injEq, Option.some.injEq,
                  exists_and_left, exists_eq_left']
                constructor
                · rintro ⟨rfl, rfl⟩
                  exact ⟨[], rfl, rfl, rfl⟩
                · rintro ⟨_, rfl, rfl, rfl⟩
                  exact ⟨rfl, rfl⟩
  · intro input
    rw [lzfString_eq, blockOutcome]
    cases allocated : runtime.malloc tmp len with
    | false =>
        simp only [blockGrammar, allocated, Bool.false_eq_true, if_false,
          ← lzfDecompress_unallocated]
        cases result : lzfDecompress false (len.toNat % 2 ^ 32) [] tmp with
        | error crash => simp [Failure.IsFatal]
        | ok found =>
            cases found with
            | none => simp [Failure.IsFatal]
            | some out => exact absurd result (lzfDecompress_unallocated_ok nonempty)
    | true =>
        obtain ⟨found, result⟩ := lzfDecompress_allocated (len.toNat % 2 ^ 32) [] tmp
        simp only [blockGrammar, allocated, result, if_true, Except.ok.injEq]
        cases found with
        | none => simp [Failure.IsFatal]
        | some out =>
            cases reads : (List.range' out.length (len.toNat - out.length)).mapM
                (runtime.stale tmp) with
            | none => simp [reads, Failure.IsFatal]
            | some unwritten => simp [reads]

theorem integer_implements (enctype : UInt64) :
    Grammar.Implements Failure.IsFatal (rdbLoadIntegerObject enctype)
      (integerGrammar enctype) := by
  rw [rdbLoadIntegerObject, integerGrammar]
  split_ifs
  all_goals
    exact Grammar.implements_bind (readOr_implements (.crash .nullString) _) fun _ enc _ =>
      Grammar.implements_pure _

theorem rdbLoadLzfStringObject_eq (runtime : Runtime) :
    rdbLoadLzfStringObject runtime = (do
      let clen ← rdbLoadLenOr (.crash .nullString)
      let len ← rdbLoadLenOr (.crash .nullString)
      let tmp ← rioReadOr (.code (-1)) clen.2.toNat
      lzfString runtime tmp len.2) := by
  have checked : ∀ {α : Type} (next : Bool × UInt64 → RdbDecoder α),
      (rdbLoadLenOr (.crash .nullString) >>= next) = (do
        let len ← rdbLoadLen
        if len.2 = rdbLenerr then throw (.crash .nullString) else next len) := by
    intro α next
    rw [rdbLoadLenOr, bind_assoc]
    refine congrArg _ (funext fun len => ?_)
    split_ifs <;> rfl
  rw [checked, rdbLoadLzfStringObject]
  refine congrArg _ (funext fun clen => ?_)
  rw [checked]

theorem lzf_implements (runtime : Runtime) :
    Grammar.Implements Failure.IsFatal (rdbLoadLzfStringObject runtime)
      (lzfGrammar runtime) := by
  rw [rdbLoadLzfStringObject_eq, lzfGrammar]
  refine Grammar.implements_bind (lenOr_implements (.crash .nullString)) fun _ clen _ => ?_
  refine Grammar.implements_bind (lenOr_implements (.crash .nullString)) fun _ len _ => ?_
  refine Grammar.implements_bind (readOr_implements (.code (-1)) _) fun w tmp word => ?_
  obtain ⟨rfl, length, positive⟩ := word
  refine block_implements runtime ?_ len.2
  rintro rfl
  exact positive length.symm

/-- An encoding is never mistaken for a missing length. -/
theorem rdbLoadLen_encoding {input rest : Bytes} {len : UInt64}
    (loaded : rdbLoadLen input = .ok ((true, len), rest)) : len ≠ rdbLenerr := by
  cases input with
  | nil => cases loaded
  | cons b tail =>
      rw [rdbLoadLen_cons, loadLenTail.eq_def, loadFixed, loadFixed] at loaded
      split_ifs at loaded
      · obtain ⟨rfl, _⟩ := by simpa using loaded
        exact toUInt64_low_ne b
      · simp at loaded
      · split at loaded <;> simp at loaded
      all_goals simp at loaded

theorem string_implements (runtime : Runtime) :
    Grammar.Implements Failure.IsFatal (rdbGenericLoadStringObject runtime)
      (stringGrammar runtime) := by
  have split : rdbGenericLoadStringObject runtime = (do
      let len ← rdbLoadLenOr (.code (-1))
      if len.1 then
        if len.2 = rdbEncInt8 ∨ len.2 = rdbEncInt16 ∨ len.2 = rdbEncInt32 then
          rdbLoadIntegerObject len.2
        else if len.2 = rdbEncLzf then rdbLoadLzfStringObject runtime
        else throw (.crash .corruptRdb)
      else if len.2 = 0 then return []
      else rioReadOr (.code (-1)) len.2.toNat) := by
    funext input
    rw [rdbGenericLoadStringObject, rdbLoadLenOr, bind_assoc]
    change Except.bind (rdbLoadLen input) _ = Except.bind (rdbLoadLen input) _
    cases loaded : rdbLoadLen input with
    | error failure => rfl
    | ok found =>
        obtain ⟨⟨isencoded, len⟩, rest⟩ := found
        cases isencoded with
        | true =>
            have present := rdbLoadLen_encoding loaded
            simp only [Except.bind, if_true, if_neg present]
            rfl
        | false =>
            by_cases missing : len = rdbLenerr
            · simp only [Except.bind, missing, Bool.false_eq_true, if_false, if_true]
              rfl
            · simp only [Except.bind, Bool.false_eq_true, if_false, if_neg missing]
              rfl
  rw [split, stringGrammar]
  refine Grammar.implements_bind (lenOr_implements (.code (-1))) fun _ len _ => ?_
  split_ifs
  · exact integer_implements len.2
  · exact lzf_implements runtime
  · exact exit_implements
  · exact Grammar.implements_pure []
  · exact readOr_implements (.code (-1)) _

theorem binaryDouble_implements :
    Grammar.Implements Failure.IsFatal rdbLoadBinaryDoubleValue binaryDoubleGrammar :=
  Grammar.implements_bind (readOr_implements (.code (-1)) 8) fun _ _ _ =>
    Grammar.implements_pure _

theorem double_implements (runtime : Runtime) (val : Double) :
    Grammar.Implements Failure.IsFatal (rdbLoadDoubleValue runtime val)
      (doubleGrammar runtime val) := by
  rw [rdbLoadDoubleValue, doubleGrammar]
  refine Grammar.implements_bind (readOr_implements (.code (-1)) 1) fun _ first _ => ?_
  dsimp only
  split_ifs
  · exact Grammar.implements_pure _
  · exact Grammar.implements_pure _
  · exact Grammar.implements_pure _
  · exact Grammar.implements_bind (readOr_implements (.code (-1)) _) fun _ buf _ =>
      Grammar.implements_pure _

end Strings

section ErrorCodes

/-- An error result is negative; any other failure ends the process. -/
def Failure.IsError : Failure → Prop
  | .code ret => ret < 0
  | .crash _ => True

theorem minusOne_isError : Failure.IsError (.code (-1)) := Int.negSucc_lt_zero 0

theorem rioRead_failsAs (len : Nat) : Loader.FailsAs Failure.IsError (rioRead len) := by
  intro input failure failed
  unfold rioRead at failed
  split_ifs at failed

theorem rioReadOr_failsAs {failure : Failure} (isError : failure.IsError) (len : Nat) :
    Loader.FailsAs Failure.IsError (rioReadOr failure len) := by
  refine Loader.failsAs_bind (rioRead_failsAs len) fun data => ?_
  cases data with
  | nil => exact Loader.failsAs_throw isError
  | cons head tail => exact Loader.failsAs_pure _

theorem rdbLoadLen_failsAs : Loader.FailsAs Failure.IsError rdbLoadLen := by
  intro input failure failed
  rw [rdbLoadLen_error_iff] at failed
  rw [failed.1]
  trivial

theorem rdbLoadIntegerObject_failsAs (enctype : UInt64) :
    Loader.FailsAs Failure.IsError (rdbLoadIntegerObject enctype) := by
  have read : ∀ len, Loader.FailsAs Failure.IsError (rioReadOr (.crash .nullString) len) :=
    rioReadOr_failsAs (show Failure.IsError (.crash .nullString) from trivial)
  rw [rdbLoadIntegerObject]
  refine Loader.failsAs_ite ?_ (Loader.failsAs_ite ?_ ?_)
  all_goals exact Loader.failsAs_bind (read _) fun _ => Loader.failsAs_pure _

theorem lzfString_failsAs (runtime : Runtime) (tmp : Bytes) (len : UInt64) :
    Loader.FailsAs Failure.IsError (lzfString runtime tmp len) := by
  intro input failure failed
  rw [lzfString_eq] at failed
  unfold blockOutcome at failed
  split at failed
  · cases failed
    trivial
  · cases failed
    exact minusOne_isError
  · split at failed
    · cases failed
      trivial
    · cases failed

theorem rdbLoadLzfStringObject_failsAs (runtime : Runtime) :
    Loader.FailsAs Failure.IsError (rdbLoadLzfStringObject runtime) := by
  have null : ∀ {α : Type},
      Loader.FailsAs Failure.IsError (throw (.crash .nullString) : RdbDecoder α) :=
    Loader.failsAs_throw trivial
  refine Loader.failsAs_bind rdbLoadLen_failsAs fun clen => ?_
  refine Loader.failsAs_ite null ?_
  refine Loader.failsAs_bind rdbLoadLen_failsAs fun len => ?_
  refine Loader.failsAs_ite null ?_
  exact Loader.failsAs_bind (rioReadOr_failsAs minusOne_isError _) fun tmp =>
    lzfString_failsAs runtime tmp _

theorem rdbGenericLoadStringObject_failsAs (runtime : Runtime) :
    Loader.FailsAs Failure.IsError (rdbGenericLoadStringObject runtime) := by
  refine Loader.failsAs_bind rdbLoadLen_failsAs fun len => ?_
  refine Loader.failsAs_ite (Loader.failsAs_ite ?_ (Loader.failsAs_ite ?_ ?_))
    (Loader.failsAs_ite ?_ (Loader.failsAs_ite ?_ ?_))
  · exact rdbLoadIntegerObject_failsAs _
  · exact rdbLoadLzfStringObject_failsAs runtime
  · exact Loader.failsAs_throw trivial
  · exact Loader.failsAs_throw minusOne_isError
  · exact Loader.failsAs_pure []
  · exact rioReadOr_failsAs minusOne_isError _

theorem rdbLoadBinaryDoubleValue_failsAs :
    Loader.FailsAs Failure.IsError rdbLoadBinaryDoubleValue :=
  Loader.failsAs_bind (rioReadOr_failsAs minusOne_isError 8) fun _ => Loader.failsAs_pure _

theorem rdbLoadDoubleValue_failsAs (runtime : Runtime) (val : Double) :
    Loader.FailsAs Failure.IsError (rdbLoadDoubleValue runtime val) := by
  have read : ∀ len, Loader.FailsAs Failure.IsError (rioReadOr (.code (-1)) len) :=
    rioReadOr_failsAs minusOne_isError
  refine Loader.failsAs_bind (read 1) fun len => ?_
  refine Loader.failsAs_ite (Loader.failsAs_pure _) (Loader.failsAs_ite (Loader.failsAs_pure _)
    (Loader.failsAs_ite (Loader.failsAs_pure _) ?_))
  exact Loader.failsAs_bind (read _) fun _ => Loader.failsAs_pure _

end ErrorCodes

end Vcdb
