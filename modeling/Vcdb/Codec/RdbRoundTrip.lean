import Vcdb.Codec.RdbEncoder
import Vcdb.Codec.RdbGrammar

/-!
# Loading what was saved

What an encoder saves is a word of the grammar of the loaders: it tells by itself where it ends.
-/

namespace Vcdb

/-- The bytes of a length. -/
def lenWord (len : UInt64) : Bytes :=
  if len < (1 : UInt64) <<< 6 then [(len &&& 0xFF).toUInt8 ||| rdb6bitlen <<< 6]
  else if len < (1 : UInt64) <<< 14 then
    [(len >>> 8 &&& 0xFF).toUInt8 ||| rdb14bitlen <<< 6, (len &&& 0xFF).toUInt8]
  else if len ≤ 0xFFFFFFFF then rdb32bitlen :: Endian.bigEndian 4 len.toNat
  else rdb64bitlen :: be64 len

/-- No short write is taken for a failed one. -/
def RdbEncoder.TakesShort (encoder : RdbEncoder) : Prop := ∀ n ≤ 11, encoder.report n ≠ -1

section Lengths

variable {encoder : RdbEncoder}

theorem rdbWriteRaw_bind (p : Bytes) (next : Int → Saving Int) (output : Bytes) :
    (rdbWriteRaw encoder p >>= next) output = next (encoder.report p.length) (output ++ p) :=
  rfl

theorem rdbSaveLen_run (takes : encoder.TakesShort) (len : UInt64) (output : Bytes) :
    rdbSaveLen encoder len output = (((lenWord len).length : Int), output ++ lenWord len) := by
  have one : encoder.report 1 ≠ -1 := takes 1 (by decide)
  rw [rdbSaveLen, lenWord]
  split_ifs
  · rw [rdbWriteRaw_bind, List.length_singleton, if_neg one]
    rfl
  · rw [rdbWriteRaw_bind, List.length_cons, List.length_singleton, if_neg (takes 2 (by decide))]
    rfl
  · rw [rdbWriteRaw_bind, List.length_singleton, if_neg one, rdbWriteRaw_bind,
      Endian.length_bigEndian, if_neg (takes 4 (by decide)), List.append_assoc, List.length_cons,
      Endian.length_bigEndian]
    rfl
  · rw [rdbWriteRaw_bind, List.length_singleton, if_neg one, rdbWriteRaw_bind, be64,
      Endian.length_bigEndian, if_neg (takes 8 (by decide)), List.append_assoc, List.length_cons,
      Endian.length_bigEndian]
    rfl

theorem saving_bind {α β : Type} {save : Saving α} {next : α → Saving β} {output after : Bytes}
    {ret : α} (run : save output = (ret, after)) : (save >>= next) output = next ret after := by
  change (fun result : α × Bytes => next result.1 result.2) (save output) = _
  rw [run]

/-- A length that is saved is never taken for a failure. -/
theorem rdbSaveLen_bind (takes : encoder.TakesShort) (len : UInt64) (next : Int → Saving Int)
    (output : Bytes) :
    (rdbSaveLen encoder len >>= fun n => if n = -1 then pure (-1) else next n) output =
      next (lenWord len).length (output ++ lenWord len) := by
  have positive : ¬((lenWord len).length : Int) = -1 := by omega
  rw [saving_bind (rdbSaveLen_run takes len output), if_neg positive]

theorem toNat_lowByte (len : UInt64) : (len &&& 0xFF).toUInt8.toNat = len.toNat % 256 := by
  rw [UInt64.toNat_toUInt8, UInt64.toNat_and]
  change (len.toNat &&& (2 ^ 8 - 1)) % 2 ^ 8 = _
  rw [Nat.and_two_pow_sub_one_eq_mod]
  omega

theorem toNat_highByte (len : UInt64) :
    (len >>> 8 &&& 0xFF).toUInt8.toNat = len.toNat / 256 % 256 := by
  rw [toNat_lowByte, UInt64.toNat_shiftRight, Nat.shiftRight_eq_div_pow]
  rfl

/-- Six bits and the type of a length do not disturb each other. -/
theorem lenType_or {b : UInt8} (small : b.toNat < 64) {type : UInt8} (short : type.toNat < 4) :
    lenType (b ||| type <<< 6) = type ∧ (b ||| type <<< 6) &&& 0x3F = b := by
  have every : ∀ (m : Fin 64) (n : Fin 4),
      lenType (UInt8.ofNat m ||| UInt8.ofNat n <<< 6) = UInt8.ofNat n ∧
        (UInt8.ofNat m ||| UInt8.ofNat n <<< 6) &&& 0x3F = UInt8.ofNat m := by decide +kernel
  simpa using every ⟨b.toNat, small⟩ ⟨type.toNat, short⟩

theorem toNat_pair {high low : UInt8} :
    (high.toUInt64 <<< 8 ||| low.toUInt64).toNat = high.toNat * 256 + low.toNat := by
  have small := low.toNat_lt
  have bound := high.toNat_lt
  rw [UInt64.toNat_or, UInt64.toNat_shiftLeft, UInt8.toNat_toUInt64, UInt8.toNat_toUInt64]
  change high.toNat <<< 8 % 2 ^ 64 ||| low.toNat = _
  rw [Nat.mod_eq_of_lt, ← Nat.shiftLeft_add_eq_or_of_lt small, Nat.shiftLeft_eq]
  rw [Nat.shiftLeft_eq]
  omega

/-- A length is loaded as it was saved. -/
theorem lenWord_isWord {len : UInt64} (present : len ≠ rdbLenerr) :
    LenWord (lenWord len) (false, len) := by
  have bound := len.toNat_lt
  rw [lenWord]
  split_ifs with short medium wide
  · rw [UInt64.lt_iff_toNat_lt] at short
    change len.toNat < 64 at short
    have low := toNat_lowByte len
    have parts := @lenType_or (len &&& 0xFF).toUInt8 (by omega) rdb6bitlen (by decide)
    have word := LenWord.short _ parts.1
    rw [parts.2] at word
    have same : (len &&& 0xFF).toUInt8.toUInt64 = len := by
      rw [← UInt64.toNat_inj, UInt8.toNat_toUInt64]
      omega
    rwa [same] at word
  · rw [UInt64.lt_iff_toNat_lt] at medium
    change len.toNat < 16384 at medium
    have low := toNat_lowByte len
    have high := toNat_highByte len
    have parts := @lenType_or (len >>> 8 &&& 0xFF).toUInt8 (by omega) rdb14bitlen (by decide)
    have word := LenWord.medium _ (len &&& 0xFF).toUInt8 parts.1
    rw [parts.2] at word
    have same : (len >>> 8 &&& 0xFF).toUInt8.toUInt64 <<< 8 ||| (len &&& 0xFF).toUInt8.toUInt64 =
        len := by
      rw [← UInt64.toNat_inj, toNat_pair]
      omega
    rwa [same] at word
  · have small : len.toNat < 256 ^ 4 := Nat.lt_succ_of_le (UInt64.le_iff_toNat_le.mp wide)
    have word := LenWord.wide _ (Endian.length_bigEndian 4 len.toNat)
    rwa [Endian.ofBigEndian_bigEndian small, UInt64.ofNat_toNat] at word
  · have same : UInt64.ofNat (Endian.ofBigEndian (be64 len)) = len := by
      rw [be64, Endian.ofBigEndian_bigEndian bound, UInt64.ofNat_toNat]
    have word := LenWord.huge _ (Endian.length_bigEndian 8 len.toNat) (same.symm ▸ present)
    rwa [show UInt64.ofNat (Endian.ofBigEndian (Endian.bigEndian 8 len.toNat)) = len from same]
      at word

end Lengths

section Integers

/-- Shifting a number is dividing it. -/
theorem toNat_byteOf (value : Int64) {bits : Int64} {k : Nat}
    (same : (bits.toBitVec.smod 64).toNat = k) :
    ((byteOf value bits).toNat : Int) = value.toInt / 2 ^ k % 256 := by
  have shifted : (value >>> bits).toInt = value.toInt / 2 ^ k := by
    change (value.toBitVec.sshiftRight' (bits.toBitVec.smod 64)).toInt = _
    rw [BitVec.toInt_sshiftRight', same, Int.shiftRight_eq_div_pow]
    rfl
  have unsigned := toInt_toInt64 (value >>> bits).toUInt64
  rw [show (value >>> bits).toUInt64.toInt64 = value >>> bits from rfl, shifted] at unsigned
  rw [byteOf, Int64.toUInt64_and, show Int64.toUInt64 0xFF = 0xFF from rfl, toNat_lowByte]
  split_ifs at unsigned <;> omega

theorem encodingByte_isWord {encoding : UInt64} (short : encoding.toNat < 4) :
    LenWord [encodingByte encoding] (true, encoding) := by
  have every : ∀ n : Fin 4, lenType (encodingByte (UInt64.ofNat n)) = rdbEncval ∧
      (encodingByte (UInt64.ofNat n) &&& 0x3F).toUInt64 = UInt64.ofNat n := by decide +kernel
  have parts := every ⟨encoding.toNat, short⟩
  simp only [UInt64.ofNat_toNat] at parts
  have word := LenWord.encoding _ parts.1
  rwa [parts.2] at word

theorem integer_isWord (runtime : Runtime) {encoding : UInt64}
    (isInteger : encoding = rdbEncInt8 ∨ encoding = rdbEncInt16 ∨ encoding = rdbEncInt32)
    {w value : Bytes} (word : (integerGrammar encoding).word w value) :
    (stringGrammar runtime).word (encodingByte encoding :: w) value := by
  have short : encoding.toNat < 4 := by
    rcases isInteger with rfl | rfl | rfl <;> decide
  refine ⟨[encodingByte encoding], w, (true, encoding), rfl, encodingByte_isWord short, ?_⟩
  dsimp only
  rwa [if_pos rfl, if_pos isInteger]

theorem ofBigEndian_reverse (low : UInt8) (rest : Bytes) :
    Endian.ofBigEndian (low :: rest).reverse = Endian.ofBigEndian rest.reverse * 256 + low.toNat := by
  rw [List.reverse_cons, Endian.ofBigEndian, List.foldl_append]
  rfl

/-- The bytes of a number, lowest first, up to some size. -/
theorem ofBigEndian_bytesOf (value : Int64) :
    (Endian.ofBigEndian [byteOf value 0].reverse : Int) = value.toInt % 256 ∧
      (Endian.ofBigEndian [byteOf value 0, byteOf value 8].reverse : Int) = value.toInt % 65536 ∧
      (Endian.ofBigEndian [byteOf value 0, byteOf value 8, byteOf value 16,
        byteOf value 24].reverse : Int) = value.toInt % 4294967296 := by
  have byte0 : ((byteOf value 0).toNat : Int) = value.toInt / 1 % 256 := toNat_byteOf value rfl
  have byte8 : ((byteOf value 8).toNat : Int) = value.toInt / 256 % 256 := toNat_byteOf value rfl
  have byte16 : ((byteOf value 16).toNat : Int) = value.toInt / 65536 % 256 :=
    toNat_byteOf value rfl
  have byte24 : ((byteOf value 24).toNat : Int) = value.toInt / 16777216 % 256 :=
    toNat_byteOf value rfl
  have none : Endian.ofBigEndian ([] : Bytes).reverse = 0 := rfl
  simp only [ofBigEndian_reverse, none]
  refine ⟨?_, ?_, ?_⟩ <;> omega

/-- The text of a number that is encoded is loaded. -/
theorem rdbEncodeInteger_isWord (runtime : Runtime) {value : Int64}
    (short : rdbEncodeInteger value ≠ []) :
    (stringGrammar runtime).word (rdbEncodeInteger value) (str value) := by
  obtain ⟨one, two, four⟩ := ofBigEndian_bytesOf value
  rw [rdbEncodeInteger] at short ⊢
  simp only [Int64.le_iff_toInt_le] at short ⊢
  split_ifs at short ⊢ with small medium wide
  · have lower : -128 ≤ value.toInt := small.1
    have upper : value.toInt ≤ 127 := small.2
    have same : (UInt8.ofNat (Endian.ofBigEndian [byteOf value 0].reverse)).toInt8.toInt64 =
        value := by
      rw [← Int64.toInt_inj, Int8.toInt_toInt64]
      change (Int8.ofNat _).toInt = _
      rw [Int8.toInt_ofNat', one]
      exact (Int.emod_bmod _ _).trans (Int.bmod_eq_of_le lower (Int.lt_add_one_of_le upper))
    refine integer_isWord runtime (Or.inl rfl)
      ⟨[byteOf value 0], [], _, rfl, ⟨rfl, rfl, by decide⟩, rfl, ?_⟩
    rw [same]
  · have lower : -32768 ≤ value.toInt := medium.1
    have upper : value.toInt ≤ 32767 := medium.2
    have same : (UInt16.ofNat (Endian.ofBigEndian
        [byteOf value 0, byteOf value 8].reverse)).toInt16.toInt64 = value := by
      rw [← Int64.toInt_inj, Int16.toInt_toInt64]
      change (Int16.ofNat _).toInt = _
      rw [Int16.toInt_ofNat', two]
      exact (Int.emod_bmod _ _).trans (Int.bmod_eq_of_le lower (Int.lt_add_one_of_le upper))
    refine integer_isWord runtime (Or.inr (Or.inl rfl))
      ⟨[byteOf value 0, byteOf value 8], [], _, rfl, ⟨rfl, rfl, by decide⟩, rfl, ?_⟩
    rw [same]
  · have lower : -2147483648 ≤ value.toInt := wide.1
    have upper : value.toInt ≤ 2147483647 := wide.2
    have same : (UInt32.ofNat (Endian.ofBigEndian [byteOf value 0, byteOf value 8, byteOf value 16,
        byteOf value 24].reverse)).toInt32.toInt64 = value := by
      rw [← Int64.toInt_inj, Int32.toInt_toInt64]
      change (Int32.ofNat _).toInt = _
      rw [Int32.toInt_ofNat', four]
      exact (Int.emod_bmod _ _).trans (Int.bmod_eq_of_le lower (Int.lt_add_one_of_le upper))
    refine integer_isWord runtime (Or.inr (Or.inr rfl))
      ⟨[byteOf value 0, byteOf value 8, byteOf value 16, byteOf value 24], [], _, rfl,
        ⟨rfl, rfl, by decide⟩, rfl, ?_⟩
    rw [same]
  · exact absurd rfl short

end Integers

section Strings

variable {encoder : RdbEncoder}

/-- The bytes of a compressed string. -/
def lzfBlob (data : Bytes) (len : UInt64) : Bytes :=
  encodingByte rdbEncLzf :: (lenWord (UInt64.ofNat data.length) ++ (lenWord len ++ data))

/-- The bytes of a string saved as it is. -/
def rawWord (string : Bytes) : Bytes := lenWord (UInt64.ofNat string.length) ++ string

theorem ofNat_ne_lenerr {n : Nat} (small : n < 2 ^ 64 - 1) : UInt64.ofNat n ≠ rdbLenerr := by
  intro same
  have words := congrArg UInt64.toNat same
  rw [UInt64.toNat_ofNat_of_lt' (small.trans (by decide))] at words
  exact small.ne words

theorem rawWord_isWord (runtime : Runtime) {string : Bytes} (small : string.length < 2 ^ 64 - 1) :
    (stringGrammar runtime).word (rawWord string) string := by
  have size : (UInt64.ofNat string.length).toNat = string.length :=
    UInt64.toNat_ofNat_of_lt' (small.trans (by decide))
  refine ⟨_, string, _, rfl, lenWord_isWord (ofNat_ne_lenerr small), ?_⟩
  simp only [Bool.false_eq_true, if_false, size]
  by_cases empty : UInt64.ofNat string.length = 0
  · rw [if_pos empty]
    rw [empty] at size
    have none : string = [] := List.length_eq_zero_iff.mp size.symm
    exact ⟨none, none⟩
  · rw [if_neg empty]
    refine ⟨rfl, rfl, fun zero => empty ?_⟩
    rw [zero]
    rfl

theorem lzfBlob_isWord (runtime : Runtime) {data value : Bytes} {len : UInt64}
    (nonempty : data ≠ []) (small : data.length < 2 ^ 64 - 1) (present : len ≠ rdbLenerr)
    (block : (blockGrammar runtime data len).word [] value) :
    (stringGrammar runtime).word (lzfBlob data len) value := by
  have size : (UInt64.ofNat data.length).toNat = data.length :=
    UInt64.toNat_ofNat_of_lt' (small.trans (by decide))
  refine ⟨[encodingByte rdbEncLzf], _, (true, rdbEncLzf), rfl,
    encodingByte_isWord (by decide), ?_⟩
  refine ⟨_, _, _, rfl, lenWord_isWord (ofNat_ne_lenerr small), ?_⟩
  refine ⟨_, _, _, rfl, lenWord_isWord present, data, [], data, (List.append_nil _).symm, ?_, block⟩
  refine ⟨rfl, size.symm, ?_⟩
  rw [size]
  exact fun zero => nonempty (List.length_eq_zero_iff.mp zero)

/-- What is reported for a compressed string. -/
def blobReport (encoder : RdbEncoder) (data : Bytes) (len : UInt64) : Int :=
  if encoder.report data.length = -1 then -1
  else encoder.report 1 + (lenWord (UInt64.ofNat data.length)).length + (lenWord len).length +
    encoder.report data.length

theorem rdbSaveLzfBlob_run (takes : encoder.TakesShort) (data : Bytes) (len : UInt64)
    (output : Bytes) :
    rdbSaveLzfBlob encoder data len output =
      (blobReport encoder data len, output ++ lzfBlob data len) := by
  have one : encoder.report 1 ≠ -1 := takes 1 (by decide)
  rw [rdbSaveLzfBlob, rdbWriteRaw_bind, List.length_singleton, if_neg one, rdbSaveLen_bind takes,
    rdbSaveLen_bind takes, rdbWriteRaw_bind]
  have joined : output ++ [encodingByte rdbEncLzf] ++ lenWord (UInt64.ofNat data.length) ++
      lenWord len ++ data = output ++ lzfBlob data len := by
    simp only [lzfBlob, List.append_assoc, List.cons_append, List.nil_append]
  rw [joined, blobReport]
  split_ifs <;> rfl

/-- The last resort of the encoder. -/
def saveVerbatim (encoder : RdbEncoder) (string : Bytes) : Saving Int := do
  let n ← rdbSaveLen encoder (UInt64.ofNat string.length)
  if n = -1 then return -1
  else if 0 < string.length then
    if (← rdbWriteRaw encoder string) = -1 then return -1 else return n + string.length
  else return n

/-- What is reported for a string saved as it is. -/
def verbatimReport (encoder : RdbEncoder) (string : Bytes) : Int :=
  if encoder.report string.length = -1 then -1
  else (lenWord (UInt64.ofNat string.length)).length + string.length

theorem saveVerbatim_run (takes : encoder.TakesShort) (string output : Bytes) :
    saveVerbatim encoder string output =
      (verbatimReport encoder string, output ++ rawWord string) := by
  rw [saveVerbatim, rdbSaveLen_bind takes, rawWord, ← List.append_assoc, verbatimReport]
  by_cases filled : 0 < string.length
  · rw [if_pos filled]
    change (if encoder.report string.length = -1 then pure (-1)
      else pure ((lenWord (UInt64.ofNat string.length)).length + string.length : Int) : Saving Int)
        _ = _
    split_ifs <;> rfl
  · obtain rfl : string = [] := List.length_eq_zero_iff.mp (Nat.eq_zero_of_not_pos filled)
    have taken : encoder.report ([] : Bytes).length ≠ -1 := takes 0 (by decide)
    rw [if_neg filled, if_neg taken, List.append_nil]
    rfl

/-- The compressed form of a string; nothing when it is not compressed. -/
def lzfForm (rdbCompression : Bool) (lzfCompress : Bytes → Nat → Bytes) (string : Bytes) : Bytes :=
  if rdbCompression ∧ 20 < string.length then
    lzfCompress (string.take (string.length % 2 ^ 32)) ((string.length - 4) % 2 ^ 32)
  else []

variable {lzfCompress : Bytes → Nat → Bytes}

theorem length_rdbEncodeInteger (value : Int64) : (rdbEncodeInteger value).length ≤ 5 := by
  rw [rdbEncodeInteger]
  split_ifs <;> simp

theorem length_rdbTryIntegerEncoding (string : Bytes) :
    (rdbTryIntegerEncoding string).length ≤ 5 := by
  simp only [rdbTryIntegerEncoding]
  split_ifs
  · exact Nat.zero_le _
  · exact Nat.zero_le _
  · exact length_rdbEncodeInteger _

theorem rdbSaveRawString_integer (takes : encoder.TakesShort) {string : Bytes}
    (short : string.length ≤ 11) (isInteger : rdbTryIntegerEncoding string ≠ []) (output : Bytes) :
    rdbSaveRawString encoder lzfCompress string output =
      (((rdbTryIntegerEncoding string).length : Int),
        output ++ rdbTryIntegerEncoding string) := by
  have small := length_rdbTryIntegerEncoding string
  have taken := takes (rdbTryIntegerEncoding string).length (by omega)
  simp only [rdbSaveRawString, if_pos short, if_pos (List.length_pos_iff.mpr isInteger)]
  change (if encoder.report _ = -1 then _ else _ : Saving Int) _ = _
  rw [if_neg taken]
  rfl

theorem rdbSaveRawString_eq {string : Bytes}
    (other : ¬(string.length ≤ 11 ∧ rdbTryIntegerEncoding string ≠ [])) :
    rdbSaveRawString encoder lzfCompress string =
      (if lzfForm encoder.rdbCompression lzfCompress string = [] then pure 0
        else rdbSaveLzfBlob encoder (lzfForm encoder.rdbCompression lzfCompress string)
          (UInt64.ofNat string.length)) >>= fun n =>
        if n = -1 then pure (-1) else if 0 < n then pure n else saveVerbatim encoder string := by
  have buf : (if string.length ≤ 11 then rdbTryIntegerEncoding string else []) = [] := by
    split_ifs with short
    · exact not_not.mp fun isInteger => other ⟨short, isInteger⟩
    · rfl
  have form : (if encoder.rdbCompression ∧ 20 < string.length then
        rdbSaveLzfStringObject encoder lzfCompress string else pure 0) =
      if lzfForm encoder.rdbCompression lzfCompress string = [] then pure 0
      else rdbSaveLzfBlob encoder (lzfForm encoder.rdbCompression lzfCompress string)
        (UInt64.ofNat string.length) := by
    rw [lzfForm]
    by_cases tried : encoder.rdbCompression ∧ 20 < string.length
    · have long : ¬string.length ≤ 4 := by omega
      simp only [if_pos tried, rdbSaveLzfStringObject, if_neg long, List.length_eq_zero_iff]
    · rw [if_neg tried, if_neg tried, if_pos rfl]
  have none : ¬0 < ([] : Bytes).length := lt_irrefl 0
  simp only [rdbSaveRawString, buf]
  rw [← form, if_neg none]
  by_cases tried : encoder.rdbCompression ∧ 20 < string.length
  · rw [if_pos tried, if_pos tried]
    rfl
  · rw [if_neg tried, if_neg tried]
    rfl

theorem rdbSaveRawString_verbatim {string : Bytes}
    (nothing : lzfForm encoder.rdbCompression lzfCompress string = [])
    (other : ¬(string.length ≤ 11 ∧ rdbTryIntegerEncoding string ≠ [])) :
    rdbSaveRawString encoder lzfCompress string = saveVerbatim encoder string := by
  rw [rdbSaveRawString_eq other, if_pos nothing, pure_bind]
  rfl

theorem rdbSaveRawString_compressed (takes : encoder.TakesShort) {string data : Bytes}
    (form : lzfForm encoder.rdbCompression lzfCompress string = data) (compressed : data ≠ [])
    (output : Bytes) :
    rdbSaveRawString encoder lzfCompress string output =
      (if blobReport encoder data (UInt64.ofNat string.length) = -1 then pure (-1)
        else if 0 < blobReport encoder data (UInt64.ofNat string.length) then
          pure (blobReport encoder data (UInt64.ofNat string.length))
        else saveVerbatim encoder string)
      (output ++ lzfBlob data (UInt64.ofNat string.length)) := by
  have long : ¬string.length ≤ 11 := by
    intro short
    rw [lzfForm, if_neg (by omega)] at form
    exact compressed form.symm
  rw [rdbSaveRawString_eq fun both => long both.1, form, if_neg compressed,
    saving_bind (rdbSaveLzfBlob_run takes _ _ _)]

end Strings

section Delimited

/-- What was saved is loaded as the string, whatever follows it and whatever memory holds. -/
def SelfDelimiting (written string : Bytes) : Prop :=
  ∀ runtime : Runtime, (∀ tmp len, runtime.malloc tmp len) →
    ∀ suffix, rdbGenericLoadStringObject runtime (written ++ suffix) = .ok (string, suffix)

/-- The encoder succeeds with what tells by itself where it ends. -/
def SavesLength (encoder : RdbEncoder) (len : UInt64) : Prop :=
  ∀ output, (rdbSaveLen encoder len output).1 ≠ -1 ∧
    ∃ written, (rdbSaveLen encoder len output).2 = output ++ written ∧
      ∀ suffix, rdbLoadLen (written ++ suffix) = .ok ((false, len), suffix)

/-- The encoder succeeds with what tells by itself where it ends. -/
def SavesString (encoder : RdbEncoder) (lzfCompress : Bytes → Nat → Bytes) (string : Bytes) :
    Prop :=
  ∀ output, (rdbSaveRawString encoder lzfCompress string output).1 ≠ -1 ∧
    ∃ written, (rdbSaveRawString encoder lzfCompress string output).2 = output ++ written ∧
      SelfDelimiting written string

/-- The compressor keeps to its block, and the decompressor undoes it. -/
structure LzfInverts (lzfCompress : Bytes → Nat → Bytes) : Prop where
  fits : ∀ data outLen, (lzfCompress data outLen).length ≤ outLen
  inverts : ∀ data outLen, data.length < 2 ^ 32 → outLen < 2 ^ 32 → lzfCompress data outLen ≠ [] →
    lzfDecompress true data.length [] (lzfCompress data outLen) = .ok (some data)

theorem savesLength {encoder : RdbEncoder} (takes : encoder.TakesShort) {len : UInt64}
    (present : len ≠ rdbLenerr) : SavesLength encoder len := by
  intro output
  rw [rdbSaveLen_run takes]
  refine ⟨by omega, lenWord len, rfl, fun suffix => ?_⟩
  exact (rdbLoadLen_ok_iff.mpr ⟨lenWord len, rfl, lenWord_isWord present⟩).1

theorem selfDelimiting_of_word {written string : Bytes}
    (word : ∀ runtime : Runtime, (∀ tmp len, runtime.malloc tmp len) →
      (stringGrammar runtime).word written string) : SelfDelimiting written string := by
  intro runtime allocates suffix
  exact ((string_implements runtime).accepts _ _ _).mpr ⟨written, rfl, word runtime allocates⟩

/-- A word in front stops the loader, so that nothing else is loaded. -/
theorem not_selfDelimiting {w extra string : Bytes} {runtime : Runtime}
    (allocates : ∀ tmp len, runtime.malloc tmp len) {value : Bytes}
    (word : (stringGrammar runtime).word w value) (wrong : value ≠ string ∨ extra ≠ []) :
    ¬SelfDelimiting (w ++ extra) string := by
  intro delimited
  have loaded := delimited runtime allocates []
  have front := ((string_implements runtime).accepts (w ++ extra) value extra).mpr ⟨w, rfl, word⟩
  rw [List.append_nil, front] at loaded
  have parts := Prod.mk.inj (Except.ok.inj loaded)
  exact wrong.elim (fun other => other parts.1) (fun rest => rest parts.2)

variable {encoder : RdbEncoder} {lzfCompress : Bytes → Nat → Bytes} {string : Bytes}

theorem rdbTryIntegerEncoding_isWord (runtime : Runtime)
    (isInteger : rdbTryIntegerEncoding string ≠ []) :
    (stringGrammar runtime).word (rdbTryIntegerEncoding string) string := by
  simp only [rdbTryIntegerEncoding] at isInteger ⊢
  split_ifs at isInteger ⊢ with failed other
  · exact absurd rfl isInteger
  · exact absurd rfl isInteger
  · have same : str (strToInt64 string 0).1 = string := not_not.mp fun differs => other (Or.inr differs)
    have word := rdbEncodeInteger_isWord runtime isInteger
    rwa [same] at word

theorem selfDelimiting_rdbTryIntegerEncoding (isInteger : rdbTryIntegerEncoding string ≠ []) :
    SelfDelimiting (rdbTryIntegerEncoding string) string :=
  selfDelimiting_of_word fun runtime _ => rdbTryIntegerEncoding_isWord runtime isInteger

theorem selfDelimiting_rawWord (small : string.length < 2 ^ 63) :
    SelfDelimiting (rawWord string) string :=
  selfDelimiting_of_word fun runtime _ => rawWord_isWord runtime (by omega)

/-- A string that is not compressed is saved well unless its size is taken for a failure. -/
theorem savesString_verbatim_iff (takes : encoder.TakesShort) (small : string.length < 2 ^ 63)
    (nothing : lzfForm encoder.rdbCompression lzfCompress string = []) :
    SavesString encoder lzfCompress string ↔ encoder.report string.length ≠ -1 := by
  by_cases isInteger : string.length ≤ 11 ∧ rdbTryIntegerEncoding string ≠ []
  · refine ⟨fun _ => takes _ isInteger.1, fun _ output => ?_⟩
    rw [rdbSaveRawString_integer takes isInteger.1 isInteger.2]
    exact ⟨by omega, _, rfl, selfDelimiting_rdbTryIntegerEncoding isInteger.2⟩
  · rw [SavesString, rdbSaveRawString_verbatim nothing isInteger]
    constructor
    · intro saves failed
      have report := (saves []).1
      rw [saveVerbatim_run takes, verbatimReport, if_pos failed] at report
      exact report rfl
    · intro taken output
      rw [saveVerbatim_run takes, verbatimReport, if_neg taken]
      exact ⟨by omega, _, rfl, selfDelimiting_rawWord small⟩

/-! ### Compressed strings -/

/-- What a string decompresses to, with what memory holds behind it. -/
theorem lzfBlob_isWord_of_inverts (inverts : LzfInverts lzfCompress) {rdbCompression : Bool}
    (small : string.length < 2 ^ 63) {data : Bytes}
    (form : lzfForm rdbCompression lzfCompress string = data) (compressed : data ≠ [])
    {runtime : Runtime} (allocates : ∀ tmp len, runtime.malloc tmp len) {unwritten : Bytes}
    (found : (List.range' (string.length % 2 ^ 32)
      (string.length - string.length % 2 ^ 32)).mapM (runtime.stale data) = some unwritten) :
    (stringGrammar runtime).word (lzfBlob data (UInt64.ofNat string.length))
      (string.take (string.length % 2 ^ 32) ++ unwritten) := by
  have size : (UInt64.ofNat string.length).toNat = string.length :=
    UInt64.toNat_ofNat_of_lt' (small.trans (by decide))
  have called : data =
      lzfCompress (string.take (string.length % 2 ^ 32)) ((string.length - 4) % 2 ^ 32) := by
    rw [lzfForm] at form
    split_ifs at form
    · exact form.symm
    · exact absurd form.symm compressed
  have low : (string.take (string.length % 2 ^ 32)).length = string.length % 2 ^ 32 := by
    rw [List.length_take]
    omega
  have half : (string.length - 4) % 2 ^ 32 < 2 ^ 32 := Nat.mod_lt _ (by decide)
  have fits := inverts.fits (string.take (string.length % 2 ^ 32)) ((string.length - 4) % 2 ^ 32)
  have undone := inverts.inverts (string.take (string.length % 2 ^ 32))
    ((string.length - 4) % 2 ^ 32) (by omega) half (by rwa [← called])
  rw [← called] at fits undone
  refine lzfBlob_isWord runtime compressed (by omega) (ofNat_ne_lenerr (by omega))
    ⟨rfl, allocates _ _, string.take (string.length % 2 ^ 32), unwritten, ?_, ?_, rfl⟩
  · rw [size, ← undone, low]
  · rw [size, low]
    exact found

/-- A string of at most 32 bits of length is decompressed as a whole. -/
theorem selfDelimiting_lzfBlob (inverts : LzfInverts lzfCompress) {rdbCompression : Bool}
    (short : string.length < 2 ^ 32) {data : Bytes}
    (form : lzfForm rdbCompression lzfCompress string = data) (compressed : data ≠ [])
    (runtime : Runtime) (allocates : ∀ tmp len, runtime.malloc tmp len) :
    (stringGrammar runtime).word (lzfBlob data (UInt64.ofNat string.length)) string := by
  have whole : string.length % 2 ^ 32 = string.length := Nat.mod_eq_of_lt short
  have word := @lzfBlob_isWord_of_inverts lzfCompress string inverts rdbCompression (by omega) data
    form compressed runtime allocates [] (by rw [whole, Nat.sub_self]; rfl)
  rwa [whole, List.take_length, List.append_nil] at word

/-- Memory in which no byte of a string stands where the string has it. -/
def foreignMemory (string : Bytes) : Runtime where
  malloc _ _ := true
  stale _ i := some (string.getD i 0 + 1)
  logsErrors := false
  rNan := 0
  scanDouble _ := none
  bytesDouble _ := none
  crc64 _ := 0
  ziplistEntries _ := []
  intsetValues _ := []

/-- Where a longer string is read back, foreign bytes stand behind its front. -/
theorem lzfBlob_foreign (inverts : LzfInverts lzfCompress) {rdbCompression : Bool}
    (small : string.length < 2 ^ 63) (long : 2 ^ 32 ≤ string.length) {data : Bytes}
    (form : lzfForm rdbCompression lzfCompress string = data) (compressed : data ≠ []) :
    ∃ other, other ≠ string ∧ (stringGrammar (foreignMemory string)).word
      (lzfBlob data (UInt64.ofNat string.length)) other := by
  have below : string.length % 2 ^ 32 < 2 ^ 32 := Nat.mod_lt _ (by decide)
  have word := @lzfBlob_isWord_of_inverts lzfCompress string inverts rdbCompression small data form
    compressed (foreignMemory string) (fun _ _ => rfl) _ List.mapM_pure
  refine ⟨_, fun same => ?_, word⟩
  obtain ⟨more, rest⟩ : ∃ more, string.length - string.length % 2 ^ 32 = more + 1 :=
    ⟨string.length - string.length % 2 ^ 32 - 1, by omega⟩
  have low : (string.take (string.length % 2 ^ 32)).length = string.length % 2 ^ 32 := by
    rw [List.length_take]
    omega
  have byte := congrArg (fun s : Bytes => s.getD (string.length % 2 ^ 32) 0) same
  rw [rest, List.range'_succ, List.map_cons] at byte
  simp only [List.getD_eq_getElem?_getD, List.getElem?_append_right low.le, low, Nat.sub_self,
    List.getElem?_cons_zero, Option.getD_some] at byte
  have number := congrArg UInt8.toNat byte
  rw [UInt8.toNat_add, UInt8.toNat_one] at number
  omega

theorem not_selfDelimiting_lzfBlob (inverts : LzfInverts lzfCompress) {rdbCompression : Bool}
    (small : string.length < 2 ^ 63) (long : 2 ^ 32 ≤ string.length) {data : Bytes}
    (form : lzfForm rdbCompression lzfCompress string = data) (compressed : data ≠ [])
    (extra : Bytes) : ¬SelfDelimiting (lzfBlob data (UInt64.ofNat string.length) ++ extra) string := by
  obtain ⟨other, differs, word⟩ := lzfBlob_foreign inverts small long form compressed
  exact not_selfDelimiting (fun _ _ => rfl) word (Or.inl differs)

/-! ### The encoder of DUMP -/

theorem dumpEncoder_report (rdbCompression : Bool) (n : Nat) :
    (dumpEncoder rdbCompression).report n =
      if n % 2 ^ 32 < 2 ^ 31 then ((n % 2 ^ 32 : Nat) : Int) else (n % 2 ^ 32 : Nat) - 2 ^ 32 := by
  change (Int32.ofNat n).toInt = _
  rw [Int32.toInt_ofNat', Int.bmod_def]
  norm_num only [Int32.size]
  split_ifs <;> omega

theorem dumpEncoder_takesShort (rdbCompression : Bool) :
    (dumpEncoder rdbCompression).TakesShort := by
  intro n small
  rw [dumpEncoder_report]
  split_ifs <;> omega

theorem dumpEncoder_report_eq_iff (rdbCompression : Bool) (n : Nat) :
    (dumpEncoder rdbCompression).report n = -1 ↔ n % 2 ^ 32 = 2 ^ 32 - 1 := by
  rw [dumpEncoder_report]
  by_cases low : n % 2 ^ 32 < 2 ^ 31
  · rw [if_pos low]
    omega
  · rw [if_neg low]
    omega

theorem length_lenWord_wide {n : Nat} (wide : 2 ^ 14 ≤ n) (small : n < 2 ^ 32) :
    (lenWord (UInt64.ofNat n)).length = 5 := by
  have size : (UInt64.ofNat n).toNat = n := UInt64.toNat_ofNat_of_lt' (small.trans (by decide))
  have notShort : ¬UInt64.ofNat n < (1 : UInt64) <<< 6 := by
    rw [UInt64.lt_iff_toNat_lt, size]
    change ¬n < 64
    omega
  have notMedium : ¬UInt64.ofNat n < (1 : UInt64) <<< 14 := by
    rw [UInt64.lt_iff_toNat_lt, size]
    change ¬n < 16384
    omega
  have isWide : UInt64.ofNat n ≤ 0xFFFFFFFF := by
    rw [UInt64.le_iff_toNat_le, size]
    exact Nat.le_of_lt_succ small
  rw [lenWord, if_neg notShort, if_neg notMedium, if_pos isWide, List.length_cons,
    Endian.length_bigEndian]

theorem rocksdbWritableFileEncoder_takesShort : rocksdbWritableFileEncoder.TakesShort :=
  fun _ _ => by
    change (0 : Int) ≠ -1
    decide

/-- A short string is compressed by at least four bytes. -/
theorem lzfForm_fits (inverts : LzfInverts lzfCompress) {rdbCompression : Bool}
    (short : string.length < 2 ^ 32) {data : Bytes}
    (form : lzfForm rdbCompression lzfCompress string = data) (compressed : data ≠ []) :
    data.length + 4 ≤ string.length ∧ string.length < 2 ^ 32 := by
  rw [lzfForm] at form
  split_ifs at form
  · have fits := inverts.fits (string.take (string.length % 2 ^ 32))
      ((string.length - 4) % 2 ^ 32)
    rw [form, Nat.mod_eq_of_lt (by omega : string.length - 4 < 2 ^ 32)] at fits
    omega
  · exact absurd form.symm compressed

/-- The report of a compressed string is positive unless its size has become negative. -/
theorem blobReport_pos_iff {rdbCompression : Bool} {data : Bytes} {n : Nat}
    (sizes : data.length + 4 ≤ n ∧ n < 2 ^ 32) :
    0 < blobReport (dumpEncoder rdbCompression) data (UInt64.ofNat n) ↔
      data.length < 2 ^ 31 ∨ 2 ^ 32 - 11 < data.length := by
  have one : (dumpEncoder rdbCompression).report 1 = 1 := rfl
  have low : data.length % 2 ^ 32 = data.length := Nat.mod_eq_of_lt (by omega)
  by_cases little : data.length < 2 ^ 31
  · have exact : (dumpEncoder rdbCompression).report data.length = data.length := by
      rw [dumpEncoder_report, low, if_pos little]
    rw [blobReport, exact, one, if_neg (by omega)]
    omega
  · have exact : (dumpEncoder rdbCompression).report data.length = data.length - 2 ^ 32 := by
      rw [dumpEncoder_report, low, if_neg little]
    rw [blobReport, exact, one, length_lenWord_wide (by omega) (by omega),
      length_lenWord_wide (by omega) sizes.2, if_neg (by omega)]
    omega

/-- A compressed string is followed by a second copy when its report is not positive. -/
theorem rdbSaveRawString_extra (takes : encoder.TakesShort) {data : Bytes}
    (form : lzfForm encoder.rdbCompression lzfCompress string = data) (compressed : data ≠ []) :
    ∃ ret extra, (∀ output, rdbSaveRawString encoder lzfCompress string output =
        (ret, output ++ (lzfBlob data (UInt64.ofNat string.length) ++ extra))) ∧
      (ret ≠ -1 ∧ extra = [] ↔ 0 < blobReport encoder data (UInt64.ofNat string.length)) := by
  have run := @rdbSaveRawString_compressed encoder lzfCompress takes string data form compressed
  have verbatim := @saveVerbatim_run encoder takes string
  by_cases failed : blobReport encoder data (UInt64.ofNat string.length) = -1
  · refine ⟨-1, [], fun output => ?_, by omega⟩
    rw [run, if_pos failed, List.append_nil]
    rfl
  · by_cases positive : 0 < blobReport encoder data (UInt64.ofNat string.length)
    · refine ⟨_, [], fun output => ?_, fun _ => positive, fun _ => ⟨failed, rfl⟩⟩
      rw [run, if_neg failed, if_pos positive, List.append_nil]
      rfl
    · refine ⟨verbatimReport encoder string, rawWord string, fun output => ?_, fun both => ?_, fun both => absurd both positive⟩
      · rw [run, if_neg failed, if_neg positive, verbatim, List.append_assoc]
      · have nothing := congrArg List.length both.2
        have filled : 20 < string.length := by
          rw [lzfForm] at form
          split_ifs at form with tried
          · exact tried.2
          · exact absurd form.symm compressed
        rw [rawWord, List.length_append, List.length_nil] at nothing
        omega

/-- A compressed string of DUMP is saved well when its sizes fit. -/
theorem savesString_compressed_iff (inverts : LzfInverts lzfCompress)
    (small : string.length < 2 ^ 63) {rdbCompression : Bool} {data : Bytes}
    (form : lzfForm rdbCompression lzfCompress string = data) (compressed : data ≠ []) :
    SavesString (dumpEncoder rdbCompression) lzfCompress string ↔
      string.length < 2 ^ 32 ∧ (data.length < 2 ^ 31 ∨ 2 ^ 32 - 11 < data.length) := by
  obtain ⟨ret, extra, run, whole⟩ := @rdbSaveRawString_extra (dumpEncoder rdbCompression)
    lzfCompress string (dumpEncoder_takesShort rdbCompression) data form compressed
  have saves : SavesString (dumpEncoder rdbCompression) lzfCompress string ↔
      ret ≠ -1 ∧ SelfDelimiting (lzfBlob data (UInt64.ofNat string.length) ++ extra) string := by
    constructor
    · intro saves
      obtain ⟨succeeds, written, output, delimited⟩ := saves []
      rw [run] at succeeds output
      have same : lzfBlob data (UInt64.ofNat string.length) ++ extra = written := output
      exact ⟨succeeds, same ▸ delimited⟩
    · rintro ⟨succeeds, delimited⟩ output
      rw [run]
      exact ⟨succeeds, _, rfl, delimited⟩
  rw [saves]
  by_cases short : string.length < 2 ^ 32
  · have word := selfDelimiting_lzfBlob inverts short form compressed
    have delimited : SelfDelimiting (lzfBlob data (UInt64.ofNat string.length) ++ extra) string ↔
        extra = [] := by
      constructor
      · intro delimited
        by_contra more
        exact not_selfDelimiting (fun _ _ => rfl) (word (foreignMemory string) fun _ _ => rfl)
          (Or.inr more) delimited
      · rintro rfl
        rw [List.append_nil]
        exact selfDelimiting_of_word word
    rw [delimited, whole, blobReport_pos_iff (lzfForm_fits inverts short form compressed)]
    exact ⟨fun sizes => ⟨short, sizes⟩, fun both => both.2⟩
  · refine iff_of_false (fun both => ?_) (fun both => short both.1)
    exact not_selfDelimiting_lzfBlob inverts small (not_lt.mp short) form compressed extra both.2

/-- Lengths are saved well.  So is every string by SAVE, while DUMP needs sizes that fit where it
takes them for an `int` or the compressor for an `unsigned int`. -/
theorem rdbSave_selfDelimiting (inverts : LzfInverts lzfCompress) :
    (∀ len : UInt64, len ≠ rdbLenerr → SavesLength rocksdbWritableFileEncoder len ∧
      ∀ rdbCompression, SavesLength (dumpEncoder rdbCompression) len) ∧
    ∀ string : Bytes, string.length < 2 ^ 63 →
      SavesString rocksdbWritableFileEncoder lzfCompress string ∧
      ∀ rdbCompression, SavesString (dumpEncoder rdbCompression) lzfCompress string ↔
        if lzfForm rdbCompression lzfCompress string = [] then string.length % 2 ^ 32 ≠ 2 ^ 32 - 1
        else string.length < 2 ^ 32 ∧
          ((lzfForm rdbCompression lzfCompress string).length < 2 ^ 31 ∨
            2 ^ 32 - 11 < (lzfForm rdbCompression lzfCompress string).length) := by
  refine ⟨fun len present => ⟨savesLength rocksdbWritableFileEncoder_takesShort present,
    fun rdbCompression => savesLength (dumpEncoder_takesShort rdbCompression) present⟩,
    fun string small => ⟨?_, fun rdbCompression => ?_⟩⟩
  · refine (savesString_verbatim_iff rocksdbWritableFileEncoder_takesShort small ?_).mpr ?_
    · exact if_neg fun tried => Bool.false_ne_true tried.1
    · change (0 : Int) ≠ -1
      decide
  · by_cases nothing : lzfForm rdbCompression lzfCompress string = []
    · rw [if_pos nothing, ne_eq, ← dumpEncoder_report_eq_iff rdbCompression]
      exact savesString_verbatim_iff (dumpEncoder_takesShort rdbCompression) small nothing
    · rw [if_neg nothing]
      exact savesString_compressed_iff inverts small rfl nothing

/-- What `lzf_compress` makes of a single byte; it need not compress anything else. -/
def compressByte (data : Bytes) (outLen : Nat) : Bytes :=
  if data.length = 1 ∧ 4 ≤ outLen then 0 :: data else []

theorem compressByte_inverts : LzfInverts compressByte where
  fits data outLen := by
    rw [compressByte]
    split_ifs with one
    · rw [List.length_cons]
      omega
    · exact Nat.zero_le _
  inverts data outLen _ _ nonempty := by
    rw [compressByte] at nonempty ⊢
    split_ifs at nonempty ⊢ with one
    · obtain ⟨byte, rfl⟩ := List.length_eq_one_iff.mp one.1
      rw [lzfDecompress]
      simp [lzfDecompress]
    · exact absurd rfl nonempty

theorem lzfForm_compressByte {n : Nat} (long : 20 < n) (one : n % 2 ^ 32 = 1)
    (room : 4 ≤ (n - 4) % 2 ^ 32) :
    lzfForm true compressByte (List.replicate n 97) = [0, 97] := by
  have front : (List.replicate n (97 : UInt8)).take 1 = [97] := by
    rw [List.take_replicate, Nat.min_eq_left (by omega)]
    rfl
  rw [lzfForm, List.length_replicate, one, front, if_pos ⟨rfl, long⟩, compressByte,
    if_pos ⟨rfl, room⟩]

/-- A string of one byte more than `2 ^ 32`: loading it delivers the first byte, and then what
memory holds. -/
theorem rdbSave_not_selfDelimiting :
    LzfInverts compressByte ∧
      ¬SavesString (dumpEncoder true) compressByte (List.replicate (2 ^ 32 + 1) 97) := by
  have form := @lzfForm_compressByte (2 ^ 32 + 1) (by norm_num) (by norm_num) (by norm_num)
  refine ⟨compressByte_inverts, fun saves => ?_⟩
  rw [savesString_compressed_iff compressByte_inverts (by rw [List.length_replicate]; norm_num)
    form (by decide), List.length_replicate] at saves
  omega

/-- The same string, saved by either encoder. -/
theorem rdbSave_selfDelimiting_long :
    (∀ len : UInt64, len ≠ rdbLenerr → SavesLength rocksdbWritableFileEncoder len ∧
      ∀ rdbCompression, SavesLength (dumpEncoder rdbCompression) len) ∧
    SavesString rocksdbWritableFileEncoder compressByte (List.replicate (2 ^ 32 + 1) 97) ∧
    (SavesString (dumpEncoder true) compressByte (List.replicate (2 ^ 32 + 1) 97) ↔
      if lzfForm true compressByte (List.replicate (2 ^ 32 + 1) 97) = [] then
        (List.replicate (2 ^ 32 + 1) (97 : UInt8)).length % 2 ^ 32 ≠ 2 ^ 32 - 1
      else (List.replicate (2 ^ 32 + 1) (97 : UInt8)).length < 2 ^ 32 ∧
        ((lzfForm true compressByte (List.replicate (2 ^ 32 + 1) 97)).length < 2 ^ 31 ∨
          2 ^ 32 - 11 < (lzfForm true compressByte (List.replicate (2 ^ 32 + 1) 97)).length)) := by
  have both := rdbSave_selfDelimiting compressByte_inverts
  have string := both.2 (List.replicate (2 ^ 32 + 1) 97) (by rw [List.length_replicate]; norm_num)
  exact ⟨both.1, string.1, string.2 true⟩

end Delimited

end Vcdb
