import Vcdb.Codec.Decode
import Vcdb.Lib.PrefixScan

/-!
# Record keys

The keys of the store, seen as data.  For user keys whose size fits the sixteen-bit length field
the encoding is injective, and the decoders recognise exactly the encoded keys.
-/

namespace Vcdb

theorem ofNat_toNat16 (n : UInt16) : UInt16.ofNat n.toNat = n := UInt16.ofNat_toNat

namespace Decoder

@[simp]
theorem readUint16_be16 (n : UInt16) (rest : Bytes) :
    readUint16 (be16 n ++ rest) = some (n, rest) := by
  have roundTrip : Endian.ofBigEndian (be16 n) = n.toNat :=
    Endian.ofBigEndian_bigEndian n.toNat_lt
  have two : (be16 n).length = 2 := Endian.length_bigEndian 2 _
  match digits : be16 n, two with
  | [high, low], _ =>
      rw [digits] at roundTrip
      simp [readUint16, roundTrip]

theorem readUint16_eq_some {data rest : Bytes} {n : UInt16} :
    readUint16 data = some (n, rest) ↔ data = be16 n ++ rest := by
  constructor
  · intro read
    match data, read with
    | high :: low :: tail, read =>
        simp only [readUint16, Option.some.injEq, Prod.mk.injEq] at read
        obtain ⟨rfl, rfl⟩ := read
        have below : Endian.ofBigEndian [high, low] < UInt16.size := by
          simpa using Endian.ofBigEndian_lt [high, low]
        rw [be16, UInt16.toNat_ofNat_of_lt' below]
        exact congrArg (· ++ tail) (Endian.bigEndian_ofBigEndian [high, low]).symm
  · rintro rfl
    exact readUint16_be16 n rest

@[simp]
theorem length_be64 (n : UInt64) : (be64 n).length = 8 := Endian.length_bigEndian 8 _

@[simp]
theorem readUint64_be64 (n : UInt64) (rest : Bytes) :
    readUint64 (be64 n ++ rest) = some (n, rest) := by
  have roundTrip : Endian.ofBigEndian (be64 n) = n.toNat :=
    Endian.ofBigEndian_bigEndian n.toNat_lt
  simp [readUint64, List.take_left' (length_be64 n), List.drop_left' (length_be64 n), roundTrip]

theorem readUint64_eq_some {data rest : Bytes} {n : UInt64} :
    readUint64 data = some (n, rest) ↔ data = be64 n ++ rest := by
  constructor
  · intro read
    unfold readUint64 at read
    split_ifs at read with short
    simp only [Option.some.injEq, Prod.mk.injEq] at read
    obtain ⟨rfl, rfl⟩ := read
    have eight : (data.take 8).length = 8 := by simp; omega
    have below := Endian.ofBigEndian_lt (data.take 8)
    rw [eight] at below
    have digits := Endian.bigEndian_ofBigEndian (data.take 8)
    rw [eight] at digits
    rw [be64, UInt64.toNat_ofNat_of_lt' below, digits, List.take_append_drop]
  · rintro rfl
    exact readUint64_be64 n rest

@[simp]
theorem read16Data_eq {key : Bytes} (short : key.length < 65536) (rest : Bytes) :
    read16Data (be16 (UInt16.ofNat key.length) ++ (key ++ rest)) = some (key, rest) := by
  have len : (UInt16.ofNat key.length).toNat = key.length := UInt16.toNat_ofNat_of_lt' short
  simp [read16Data, len]

theorem read16Data_eq_some {data key rest : Bytes} :
    read16Data data = some (key, rest) ↔
      key.length < 65536 ∧ data = be16 (UInt16.ofNat key.length) ++ (key ++ rest) := by
  constructor
  · intro read
    simp only [read16Data, Option.bind_eq_bind, Option.bind_eq_some_iff] at read
    obtain ⟨⟨len, tail⟩, readLen, read⟩ := read
    simp only at read
    split_ifs at read with short
    simp only [Option.some.injEq, Prod.mk.injEq] at read
    obtain ⟨rfl, rfl⟩ := read
    have size : (tail.take len.toNat).length = len.toNat := by simp; omega
    refine ⟨by rw [size]; exact len.toNat_lt, ?_⟩
    rw [size, UInt16.ofNat_toNat, List.take_append_drop]
    exact readUint16_eq_some.mp readLen
  · rintro ⟨short, rfl⟩
    exact read16Data_eq short rest

end Decoder

theorem shiftRight_eq_one_iff (n : UInt64) : n >>> 63 = 1 ↔ 2 ^ 63 ≤ n.toNat := by
  have below := n.toNat_lt
  rw [← UInt64.toNat_inj]
  simp [Nat.shiftRight_eq_div_pow]
  omega

theorem xor_ones (n : UInt64) : n ^^^ 0xFFFFFFFFFFFFFFFF = ~~~n := by
  apply UInt64.eq_of_toBitVec_eq
  apply BitVec.eq_of_getLsbD_eq
  intro i small
  simp only [UInt64.toBitVec_xor, UInt64.toBitVec_not, BitVec.getLsbD_xor, BitVec.getLsbD_not]
  have ones : (0xFFFFFFFFFFFFFFFF : UInt64).toBitVec = BitVec.allOnes 64 := by decide
  rw [ones, BitVec.getLsbD_allOnes]
  simp [small]

theorem toNat_or_signBit {n : UInt64} (positive : n.toNat < 2 ^ 63) :
    (n ||| signBit).toNat = n.toNat + 2 ^ 63 := by
  have bit : signBit.toNat = 2 ^ 63 := by decide
  rw [UInt64.toNat_or, bit, Nat.or_comm, Nat.add_comm]
  exact (Nat.two_pow_add_eq_or_of_lt positive 1).symm

theorem and_not_signBit (n : UInt64) : (n &&& ~~~signBit).toNat = n.toNat % 2 ^ 63 := by
  have mask : (~~~signBit).toNat = 2 ^ 63 - 1 := by decide
  rw [UInt64.toNat_and, mask, Nat.and_two_pow_sub_one_eq_mod]

@[simp]
theorem decodeScore_encodeScore (score : Double) : decodeScore (encodeScore score) = score := by
  unfold encodeScore
  have below := score.toNat_lt
  split_ifs with negative
  · rw [shiftRight_eq_one_iff] at negative
    rw [xor_ones, decodeScore, if_neg, xor_ones, UInt64.not_not]
    rw [shiftRight_eq_one_iff, UInt64.toNat_not]
    simp only [UInt64.size] at below ⊢
    omega
  · rw [shiftRight_eq_one_iff, not_le] at negative
    rw [decodeScore, if_pos]
    · rw [← UInt64.toNat_inj, and_not_signBit, toNat_or_signBit negative]
      omega
    · rw [shiftRight_eq_one_iff, toNat_or_signBit negative]
      omega

@[simp]
theorem encodeScore_decodeScore (c : UInt64) : encodeScore (decodeScore c) = c := by
  unfold decodeScore
  have below := c.toNat_lt
  split_ifs with negative
  · rw [shiftRight_eq_one_iff] at negative
    rw [encodeScore, if_neg]
    · rw [← UInt64.toNat_inj, toNat_or_signBit] <;> rw [and_not_signBit] <;> omega
    · rw [shiftRight_eq_one_iff, and_not_signBit]
      omega
  · rw [shiftRight_eq_one_iff, not_le] at negative
    rw [xor_ones, encodeScore, if_pos, xor_ones, UInt64.not_not]
    rw [shiftRight_eq_one_iff, UInt64.toNat_not]
    simp only [UInt64.size] at below ⊢
    omega

theorem encodeScore_injective : Function.Injective encodeScore :=
  Function.LeftInverse.injective decodeScore_encodeScore

/-- User keys whose size fits the length field of item and delete keys. -/
abbrev UserKey : Type := { key : Bytes // key.length < 65536 }

/-- Append the user key, the version and the field of an item key to its type. -/
theorem decodeItemKeyInternal_eq_some {type : UInt8} {str : Bytes} {item : ItemKey} :
    decodeItemKeyInternal type str = some item ↔
      item.key.length < 65536 ∧ str = encodeKeyInternal type item.key item.field item.version := by
  cases str with
  | nil => simp [decodeItemKeyInternal, encodeKeyInternal]
  | cons first rest =>
      by_cases same : first = type
      · subst same
        simp only [decodeItemKeyInternal, ne_eq, not_true_eq_false, if_false, Option.bind_eq_bind,
          Option.bind_eq_some_iff, encodeKeyInternal, List.cons.injEq, true_and]
        constructor
        · rintro ⟨⟨key, tail⟩, readKey, ⟨version, field⟩, readVersion, found⟩
          simp only [Option.some.injEq] at found
          subst found
          rw [Decoder.read16Data_eq_some] at readKey
          rw [Decoder.readUint16_eq_some] at readVersion
          simp only at readVersion
          exact ⟨readKey.1, by rw [readKey.2, readVersion]⟩
        · rintro ⟨short, rfl⟩
          exact ⟨_, Decoder.read16Data_eq short _, _, Decoder.readUint16_be16 _ _, rfl⟩
      · simp [decodeItemKeyInternal, encodeKeyInternal, same]

theorem decodeItemKey_encode (key : UserKey) (field : Bytes) (version : UInt16) :
    decodeItemKey (encodeKeyInternal DataType.item key.1 field version) =
      some ⟨key.1, version, field⟩ :=
  decodeItemKeyInternal_eq_some.mpr ⟨key.2, rfl⟩

theorem encodeKeyInternal_injective {type : UInt8} {key key' : UserKey} {field field' : Bytes}
    {version version' : UInt16}
    (same : encodeKeyInternal type key.1 field version =
      encodeKeyInternal type key'.1 field' version') :
    key = key' ∧ version = version' ∧ field = field' := by
  have left : decodeItemKeyInternal type (encodeKeyInternal type key.1 field version) =
      some ⟨key.1, version, field⟩ := decodeItemKeyInternal_eq_some.mpr ⟨key.2, rfl⟩
  have right : decodeItemKeyInternal type (encodeKeyInternal type key'.1 field' version') =
      some ⟨key'.1, version', field'⟩ := decodeItemKeyInternal_eq_some.mpr ⟨key'.2, rfl⟩
  rw [same, right] at left
  simp only [Option.some.injEq, ItemKey.mk.injEq] at left
  exact ⟨Subtype.ext left.1.symm, left.2.1.symm, left.2.2.symm⟩

theorem encodeKeyInternal_append (type : UInt8) (key field rest : Bytes) (version : UInt16) :
    encodeKeyInternal type key (field ++ rest) version =
      encodeKeyInternal type key field version ++ rest := by
  simp [encodeKeyInternal]

/-- Every item key starts with the item key of the empty field. -/
theorem encodeKeyInternal_eq_append (type : UInt8) (key field : Bytes) (version : UInt16) :
    encodeKeyInternal type key field version =
      encodeKeyInternal type key [] version ++ field := by
  rw [← encodeKeyInternal_append, List.nil_append]

theorem encodeZscoreKey_eq (key field : Bytes) (score : Double) (version : UInt16) :
    encodeZscoreKey key field score version =
      encodeKeyInternal DataType.zscore key (be64 (encodeScore score) ++ field) version := rfl

/-- A decoded entry of the score index is encoded as it was found. -/
theorem decodeZScoreItemKey_eq_some {str : Bytes} {zk : ZScoreItemKey}
    (decoded : decodeZScoreItemKey str = some zk) :
    str = encodeZscoreKey zk.key zk.field zk.score zk.version := by
  simp only [decodeZScoreItemKey, Option.bind_eq_bind, Option.bind_eq_some_iff,
    Option.some_inj] at decoded
  obtain ⟨item, found, ⟨tscore, field⟩, read, rfl⟩ := decoded
  rw [decodeItemKeyInternal_eq_some] at found
  rw [found.2, Decoder.readUint64_eq_some.mp read, encodeZscoreKey_eq, encodeScore_decodeScore]
theorem encodeListKey_eq (key : Bytes) (seq : UInt64) (version : UInt16) :
    encodeListKey key seq version = encodeKeyInternal DataType.item key (be64 seq) version := rfl

theorem be16_injective : Function.Injective be16 := fun _ _ same =>
  UInt16.toNat_inj.mp (Endian.bigEndian_injective (UInt16.toNat_lt _) (UInt16.toNat_lt _) same)

theorem be64_injective : Function.Injective be64 := fun _ _ same =>
  UInt64.toNat_inj.mp (Endian.bigEndian_injective (UInt64.toNat_lt _) (UInt64.toNat_lt _) same)

/-- A key of the store. -/
inductive RecordKey
  /-- Metadata of a user key; the whole value of a string. -/
  | metadata (key : UserKey)
  /-- A hash field, a set or sorted-set member, a list cell. -/
  | item (key : UserKey) (version : UInt16) (field : Bytes)
  /-- An entry of a sorted set's score index. -/
  | zscore (key : UserKey) (version : UInt16) (score : Double) (field : Bytes)
  /-- The expiry of a user key. -/
  | ekey (key : UserKey)
  /-- An entry of the expiry index. -/
  | escore (score : UInt64) (key : UserKey)
  /-- A deletion the background worker still has to finish. -/
  | delete (key : UserKey) (version : UInt16)
deriving DecidableEq

namespace RecordKey

/-- The bytes a record is stored under. -/
def encode : RecordKey → Bytes
  | metadata key => encodeMetaKey key.1
  | item key version field => encodeKeyInternal DataType.item key.1 field version
  | zscore key version score field => encodeZscoreKey key.1 field score version
  | ekey key => encodeEsetKey key.1
  | escore score key => encodeEscoreKey key.1 score
  | delete key version => encodeDeleteKey key.1 version

/-- The user key a record belongs to. -/
def owner : RecordKey → UserKey
  | metadata key => key
  | item key _ _ => key
  | zscore key _ _ _ => key
  | ekey key => key
  | escore _ key => key
  | delete key _ => key

theorem delete_encode_eq (key : UserKey) (version : UInt16) :
    (delete key version).encode = encodeKeyInternal keyDeleteMask key.1 [] version := by
  simp [encode, encodeDeleteKey, encodeKeyInternal]

/-- The first byte of an encoded record. -/
def family : RecordKey → UInt8
  | metadata _ => DataType.metadata
  | item _ _ _ => DataType.item
  | zscore _ _ _ _ => DataType.zscore
  | ekey _ => DataType.ekey
  | escore _ _ => DataType.escore
  | delete _ _ => DataType.delete

theorem head?_encode (record : RecordKey) : record.encode.head? = some record.family := by
  cases record <;> rfl

theorem encode_injective : Function.Injective encode := by
  intro left right same
  have families : left.family = right.family := by
    rw [← Option.some_inj, ← head?_encode, ← head?_encode, same]
  cases left <;> cases right <;> dsimp only [family] at families
  all_goals try exact absurd families (by decide)
  case metadata.metadata key key' =>
    rw [encode, encode, encodeMetaKey, encodeMetaKey, List.cons.injEq] at same
    rw [Subtype.ext same.2]
  case item.item key version field key' version' field' =>
    obtain ⟨rfl, rfl, rfl⟩ := encodeKeyInternal_injective same
    rfl
  case zscore.zscore key version score field key' version' score' field' =>
    rw [encode, encode, encodeZscoreKey_eq, encodeZscoreKey_eq] at same
    obtain ⟨rfl, rfl, fields⟩ := encodeKeyInternal_injective same
    obtain ⟨scores, rfl⟩ := List.append_inj fields (by simp)
    rw [encodeScore_injective (be64_injective scores)]
  case ekey.ekey key key' =>
    rw [encode, encode, encodeEsetKey, encodeEsetKey, List.cons.injEq] at same
    rw [Subtype.ext same.2]
  case escore.escore score key score' key' =>
    rw [encode, encode, encodeEscoreKey, encodeEscoreKey, List.cons.injEq] at same
    obtain ⟨scores, keys⟩ := List.append_inj same.2 (by simp)
    rw [be64_injective scores, Subtype.ext keys]
  case delete.delete key version key' version' =>
    rw [delete_encode_eq, delete_encode_eq] at same
    obtain ⟨rfl, rfl, _⟩ := encodeKeyInternal_injective same
    rfl

@[simp]
theorem encode_inj {left right : RecordKey} : left.encode = right.encode ↔ left = right :=
  encode_injective.eq_iff

end RecordKey

end Vcdb
