import Vcdb.Codec.RecordKey

/-!
# Round trips of keys and metadata values

Every decoder gives back what the encoder was given, for user keys that fit the length field.  A
deleted metadata value is read up to its flag.  A longer user key shares its records with a shorter
one.
-/

namespace Vcdb

theorem enabled_ne_delete : keyEnabledMask ≠ keyDeleteMask := by decide

theorem decodeMetaHeader_cons (type : UInt8) (version : UInt16) (del : UInt8) (rest : Bytes)
    (flag : del = keyDeleteMask ∨ del = keyEnabledMask) :
    decodeMetaHeader (type :: (be16 version ++ del :: rest)) =
      some (⟨type, version, del⟩, rest) := by
  have read := Decoder.readUint16_be16 version []
  have two : (be16 version).length = 2 := Endian.length_bigEndian 2 _
  match digits : be16 version, two with
  | [high, low], _ =>
      rw [digits] at read
      simp only [Decoder.readUint16, List.append_nil, Option.some.injEq, Prod.mk.injEq] at read
      simp [decodeMetaHeader, flag, read.1]

theorem decodeMetaHeader_kvVal (val : Bytes) (version : UInt16) :
    decodeMetaHeader (encodeKvVal val version) =
      some (⟨DataType.kv, version, keyEnabledMask⟩, val) :=
  decodeMetaHeader_cons _ _ _ _ (Or.inr rfl)

theorem decodeMetaHeader_metaVal (type : UInt8) (length : UInt64) (version : UInt16) (del : UInt8)
    (flag : del = keyDeleteMask ∨ del = keyEnabledMask) :
    decodeMetaHeader (encodeMetaValInternal type length version del) =
      some (⟨type, version, del⟩, be64 length) :=
  decodeMetaHeader_cons _ _ _ _ flag

theorem decodeMetaHeader_listMetaVal (length left right : UInt64) (version : UInt16) (del : UInt8)
    (flag : del = keyDeleteMask ∨ del = keyEnabledMask) :
    decodeMetaHeader (encodeListMetaVal length left right version del) =
      some (⟨DataType.lsize, version, del⟩, be64 length ++ (be64 left ++ be64 right)) :=
  decodeMetaHeader_cons _ _ _ _ flag

theorem decodeMetaVal_encode {type : UInt8}
    (collection : type = DataType.hsize ∨ type = DataType.ssize ∨ type = DataType.zsize)
    (length : UInt64) (version : UInt16) :
    MetaVal.decodeMetaVal (encodeMetaValInternal type length version keyEnabledMask) =
      .ok { type, del := keyEnabledMask, version, length } := by
  have known : ¬(type ≠ DataType.hsize ∧ type ≠ DataType.ssize ∧ type ≠ DataType.zsize) := by
    tauto
  have whole := Decoder.readUint64_be64 length []
  rw [List.append_nil] at whole
  rw [MetaVal.decodeMetaVal, decodeMetaHeader_metaVal _ _ _ _ (Or.inr rfl)]
  simp only [if_neg enabled_ne_delete, if_neg known, whole]

/-- A metadata value is read whole while its flag is enabled, and up to the flag once deleted. -/
theorem decodeMetaVal_deleted (type : UInt8) (length : UInt64) (version : UInt16) :
    MetaVal.decodeMetaVal (encodeMetaValInternal type length version keyDeleteMask) =
      .ok { type, del := keyDeleteMask, version } := by
  rw [MetaVal.decodeMetaVal, decodeMetaHeader_metaVal _ _ _ _ (Or.inl rfl)]
  exact if_pos rfl

namespace ListMetaVal

theorem decodeMetaVal_encode (length left right : UInt64) (version : UInt16) :
    decodeMetaVal (encodeListMetaVal length left right version) =
      .ok { type := DataType.lsize, version, length, leftSeq := left, rightSeq := right } := by
  have last := Decoder.readUint64_be64 right []
  rw [List.append_nil] at last
  simp [decodeMetaVal, decodeMetaHeader_listMetaVal _ _ _ _ _ (Or.inr rfl), enabled_ne_delete, last]

theorem decodeMetaVal_deleted (length left right : UInt64) (version : UInt16) :
    decodeMetaVal (encodeListMetaVal length left right version keyDeleteMask) =
      .ok { type := DataType.lsize, version, del := keyDeleteMask } := by
  rw [decodeMetaVal, decodeMetaHeader_listMetaVal _ _ _ _ _ (Or.inl rfl)]
  exact if_pos rfl

end ListMetaVal

namespace KvMetaVal

theorem decodeMetaVal_encode (val : Bytes) (version : UInt16) :
    decodeMetaVal (encodeKvVal val version) =
      .ok { type := DataType.kv, del := keyEnabledMask, version, value := val } := by
  rw [decodeMetaVal, decodeMetaHeader_kvVal]
  simp [enabled_ne_delete]

theorem decodeMetaVal_deleted (val : Bytes) (version : UInt16) :
    decodeMetaVal (encodeKvVal val version keyDeleteMask) =
      .ok { type := DataType.kv, del := keyDeleteMask, version } := by
  rw [decodeMetaVal, encodeKvVal, decodeMetaHeader_cons _ _ _ _ (Or.inl rfl)]
  exact if_pos rfl

end KvMetaVal

/-- What a storage key is built from; user keys have any length. -/
inductive StorageKey
  | metadata (key : Bytes)
  | item (key : Bytes) (version : UInt16) (field : Bytes)
  | zscore (key : Bytes) (version : UInt16) (score : Double) (field : Bytes)
  | ekey (key : Bytes)
  | escore (score : UInt64) (key : Bytes)
  | delete (key : Bytes) (version : UInt16)
deriving DecidableEq

namespace StorageKey

/-- The bytes a key is stored under. -/
def encode : StorageKey → Bytes
  | metadata key => encodeMetaKey key
  | item key version field => encodeKeyInternal DataType.item key field version
  | zscore key version score field => encodeZscoreKey key field score version
  | ekey key => encodeEsetKey key
  | escore score key => encodeEscoreKey key score
  | delete key version => encodeDeleteKey key version

/-- The user key fits the length field, where the layout has one. -/
def Fits : StorageKey → Prop
  | item key _ _ | zscore key _ _ _ | delete key _ => key.length < 65536
  | metadata _ | ekey _ | escore _ _ => True

/-- An item or a score entry of a user key at a version. -/
def ElementOf (storageKey : StorageKey) (key : Bytes) (version : UInt16) : Prop :=
  (∃ field, storageKey = item key version field) ∨
    ∃ score field, storageKey = zscore key version score field

/-- The decoder of the layout gives back the components; an expiry key has no decoder. -/
def Decodes : StorageKey → Prop
  | metadata key => decodeMetaKey (encodeMetaKey key) = some key
  | item key version field =>
      decodeItemKey (encodeKeyInternal DataType.item key field version) =
          some { key, version, field } ∧
        ∀ seq, field = be64 seq →
          decodeListItemKey (encodeListKey key seq version) = some { key, version, seq }
  | zscore key version score field =>
      decodeZScoreItemKey (encodeZscoreKey key field score version) =
        some { key, version, field, score }
  | ekey _ => True
  | escore score key => decodeEScoreItemKey (encodeEscoreKey key score) = some ⟨key, score.toInt64⟩
  | delete key version => decodeDeleteKey (encodeDeleteKey key version) = some { key, version }

/-- The first byte of an encoded key. -/
def family : StorageKey → UInt8
  | metadata _ => DataType.metadata
  | item _ _ _ => DataType.item
  | zscore _ _ _ _ => DataType.zscore
  | ekey _ => DataType.ekey
  | escore _ _ => DataType.escore
  | delete _ _ => DataType.delete

theorem head?_encode (storageKey : StorageKey) :
    storageKey.encode.head? = some storageKey.family := by
  cases storageKey <;> rfl

theorem encode_injective {left right : StorageKey} (fits : left.Fits) (fits' : right.Fits)
    (same : left.encode = right.encode) : left = right := by
  have families : left.family = right.family := by
    rw [← Option.some_inj, ← head?_encode, ← head?_encode, same]
  -- Keys that fit are the records of `RecordKey`; the others have no length field.
  cases left <;> cases right <;> dsimp only [family] at families
  all_goals try exact absurd families (by decide)
  case metadata.metadata key key' =>
    rw [(List.cons.inj same).2]
  case item.item key version field key' version' field' =>
    have records := RecordKey.encode_injective
      (show (RecordKey.item ⟨key, fits⟩ version field).encode =
        (RecordKey.item ⟨key', fits'⟩ version' field').encode from same)
    cases records
    rfl
  case zscore.zscore key version score field key' version' score' field' =>
    have records := RecordKey.encode_injective
      (show (RecordKey.zscore ⟨key, fits⟩ version score field).encode =
        (RecordKey.zscore ⟨key', fits'⟩ version' score' field').encode from same)
    cases records
    rfl
  case ekey.ekey key key' =>
    rw [(List.cons.inj same).2]
  case escore.escore score key score' key' =>
    obtain ⟨scores, keys⟩ := List.append_inj (List.cons.inj same).2 (by simp)
    rw [be64_injective scores, keys]
  case delete.delete key version key' version' =>
    have records := RecordKey.encode_injective
      (show (RecordKey.delete ⟨key, fits⟩ version).encode =
        (RecordKey.delete ⟨key', fits'⟩ version').encode from same)
    cases records
    rfl

/-- Scans of different keys or versions do not meet. -/
theorem prefix_eq {storageKey : StorageKey} {key key' : Bytes} {version version' : UInt16}
    (element : storageKey.ElementOf key version) (fits : key.length < 65536)
    (fits' : key'.length < 65536) {type : UInt8}
    (starts : encodeKeyInternal type key' [] version' <+: storageKey.encode) :
    key' = key ∧ version' = version := by
  obtain ⟨field', whole⟩ := starts
  rw [← encodeKeyInternal_append, List.nil_append] at whole
  have shaped : ∃ type' field, storageKey.encode = encodeKeyInternal type' key field version := by
    rcases element with ⟨field, rfl⟩ | ⟨score, field, rfl⟩
    · exact ⟨_, field, rfl⟩
    · exact ⟨_, _, encodeZscoreKey_eq _ _ _ _⟩
  obtain ⟨type', field, encoded⟩ := shaped
  rw [encoded] at whole
  obtain rfl : type = type' := (List.cons.inj whole).1
  have whole : encodeKeyInternal type (⟨key', fits'⟩ : UserKey).1 field' version' =
      encodeKeyInternal type (⟨key, fits⟩ : UserKey).1 field version := whole
  obtain ⟨keys, versions, _⟩ := encodeKeyInternal_injective whole
  exact ⟨congrArg Subtype.val keys, versions⟩

theorem decodes {storageKey : StorageKey} (fits : storageKey.Fits) : storageKey.Decodes := by
  cases storageKey with
  | metadata key => simp [Decodes, decodeMetaKey, encodeMetaKey]
  | item key version field =>
      refine ⟨decodeItemKeyInternal_eq_some.mpr ⟨fits, rfl⟩, ?_⟩
      rintro seq rfl
      have found : decodeItemKeyInternal DataType.item
          (encodeKeyInternal DataType.item key (be64 seq) version) =
          some { key, version, field := be64 seq } := decodeItemKeyInternal_eq_some.mpr ⟨fits, rfl⟩
      have cell := Decoder.readUint64_be64 seq []
      rw [List.append_nil] at cell
      simp [decodeListItemKey, encodeListKey_eq, found, cell]
  | zscore key version score field =>
      have found : decodeItemKeyInternal DataType.zscore
          (encodeKeyInternal DataType.zscore key (be64 (encodeScore score) ++ field) version) =
          some { key, version, field := be64 (encodeScore score) ++ field } :=
        decodeItemKeyInternal_eq_some.mpr ⟨fits, rfl⟩
      simp [Decodes, decodeZScoreItemKey, encodeZscoreKey_eq, found]
  | ekey key => trivial
  | escore score key =>
      simp [Decodes, decodeEScoreItemKey, encodeEscoreKey]
  | delete key version =>
      have last := Decoder.readUint16_be16 version []
      rw [List.append_nil] at last
      simp [Decodes, decodeDeleteKey, encodeDeleteKey, Decoder.read16Data_eq fits, last]

end StorageKey

/-- Storage keys whose user keys fit the length field are told apart by their bytes, also by the
prefixes of scans, and every decoder gives back what the encoder was given; of a deleted metadata
value it gives type, version and flag. -/
theorem storageKey_roundTrip :
    (∀ left right : StorageKey, left.Fits → right.Fits → left.encode = right.encode →
      left = right) ∧
    (∀ (storageKey : StorageKey) (key key' : Bytes) (version version' : UInt16) (type : UInt8),
      storageKey.ElementOf key version → key.length < 65536 → key'.length < 65536 →
      (type = DataType.item ∨ type = DataType.zscore) →
      encodeKeyInternal type key' [] version' <+: storageKey.encode →
      key' = key ∧ version' = version) ∧
    (∀ storageKey : StorageKey, storageKey.Fits → storageKey.Decodes) ∧
    (∀ (val : Bytes) (version : UInt16),
      KvMetaVal.decodeMetaVal (encodeKvVal val version) =
          .ok { type := DataType.kv, del := keyEnabledMask, version, value := val } ∧
        KvMetaVal.decodeMetaVal (encodeKvVal val version keyDeleteMask) =
          .ok { type := DataType.kv, del := keyDeleteMask, version }) ∧
    (∀ (type : UInt8) (length : UInt64) (version : UInt16),
      type = DataType.hsize ∨ type = DataType.ssize ∨ type = DataType.zsize →
      MetaVal.decodeMetaVal (encodeMetaValInternal type length version keyEnabledMask) =
          .ok { type, del := keyEnabledMask, version, length } ∧
        MetaVal.decodeMetaVal (encodeMetaValInternal type length version keyDeleteMask) =
          .ok { type, del := keyDeleteMask, version }) ∧
    ∀ (length left right : UInt64) (version : UInt16),
      ListMetaVal.decodeMetaVal (encodeListMetaVal length left right version) =
          .ok { type := DataType.lsize, version, length, leftSeq := left, rightSeq := right } ∧
        ListMetaVal.decodeMetaVal (encodeListMetaVal length left right version keyDeleteMask) =
          .ok { type := DataType.lsize, version, del := keyDeleteMask } :=
  ⟨fun _ _ => StorageKey.encode_injective,
    fun _ _ _ _ _ _ element fits fits' _ => StorageKey.prefix_eq element fits fits',
    fun _ => StorageKey.decodes,
    fun val version => ⟨KvMetaVal.decodeMetaVal_encode val version,
      KvMetaVal.decodeMetaVal_deleted val version⟩,
    fun _ length version collection => ⟨decodeMetaVal_encode collection length version,
      decodeMetaVal_deleted _ length version⟩,
    fun length left right version => ⟨ListMetaVal.decodeMetaVal_encode length left right version,
      ListMetaVal.decodeMetaVal_deleted length left right version⟩⟩

/-- A list cell at the largest sequence number is read back. -/
theorem storageKey_roundTrip_cell :
    decodeListItemKey (encodeListKey [107] 0xFFFFFFFFFFFFFFFF 3) =
      some { key := [107], version := 3, seq := 0xFFFFFFFFFFFFFFFF } :=
  (storageKey_roundTrip.2.2.1 (.item [107] 3 (be64 0xFFFFFFFFFFFFFFFF))
    (show [107].length < 65536 by decide)).2 0xFFFFFFFFFFFFFFFF rfl

/-- A user key of 65536 zeros shares an item with the empty key, and the length of a deleted hash is
not read. -/
theorem storageKey_collision :
    ((StorageKey.item (List.replicate 65536 0) 0 []).encode =
        (StorageKey.item [] 0 (List.replicate 65536 0)).encode ∧
      StorageKey.item (List.replicate 65536 0) 0 [] ≠
        .item [] 0 (List.replicate 65536 0)) ∧
    MetaVal.decodeMetaVal (encodeHashMetaVal 5 0 keyDeleteMask) ≠
      .ok { type := DataType.hsize, del := keyDeleteMask, version := 0, length := 5 } := by
  refine ⟨⟨?_, ?_⟩, ?_⟩
  · have zeros : be16 (UInt16.ofNat 65536) = List.replicate 2 0 := rfl
    have version : be16 0 = List.replicate 2 0 := rfl
    have empty : be16 (UInt16.ofNat 0) = List.replicate 2 0 := rfl
    simp only [StorageKey.encode, encodeKeyInternal, List.length_replicate, List.length_nil, zeros,
      version, empty, List.append_nil, List.nil_append, List.replicate_append_replicate]
  · intro same
    have keys := (StorageKey.item.inj same).1
    have sizes := congrArg List.length keys
    rw [List.length_replicate] at sizes
    exact absurd sizes (by decide)
  · rw [encodeHashMetaVal, decodeMetaVal_deleted]
    decide

end Vcdb
