import Vcdb.Codec.Encode

/-!
# Decoding of keys and metadata values

Every decoder consumes its input from the front.  A short input or an unexpected first byte gives
the error code `-1`; a live value of another type gives `wrongTypeErr`.
-/

namespace Vcdb

/-- Result of a metadata read that hit a storage failure. -/
def storageErr : Int := -2

def wrongTypeErr : Int := -3

def mkeyDecodecErr : Int := -4

def intOverflow : Int := -6

def dblOverflow : Int := -7

def invalidInt : Int := -8

def invalidDbl : Int := -9

def invalidIncrLen : Int := -10

def stringOvermax : Int := -11

def indexOutOfRange : Int := -12

def invalidMetaval : Int := -13

def syntaxErr : Int := -14

def invalidExTime : Int := -15

def invalidIncrPdcNanOrInf : Int := -16

def nanScore : Int := -17

def zsetInvalidStr : Int := -19

def busyKeyExists : Int := -20

def invalidDumpStr : Int := -21

def invalidArgs : Int := -22

def valueOutOfRange : Int := -23

def invalidMinMaxDbl : Int := -24

/-- A 64-bit unsigned integer read from a signed one. -/
def uint64 (n : Int) : UInt64 := UInt64.ofNat (n % 2 ^ 64).toNat

namespace Decoder

/-- Sixteen bits in network order. -/
def readUint16 : Bytes → Option (UInt16 × Bytes)
  | high :: low :: rest => some (UInt16.ofNat (Endian.ofBigEndian [high, low]), rest)
  | _ => none

/-- Sixty-four bits in network order. -/
def readUint64 (data : Bytes) : Option (UInt64 × Bytes) :=
  if data.length < 8 then none
  else some (UInt64.ofNat (Endian.ofBigEndian (data.take 8)), data.drop 8)

/-- A string behind a sixteen-bit length. -/
def read16Data (data : Bytes) : Option (Bytes × Bytes) := do
  let (len, rest) ← readUint16 data
  if rest.length < len.toNat then none else some (rest.take len.toNat, rest.drop len.toNat)

end Decoder

/-- A decoded metadata key. -/
def decodeMetaKey : Bytes → Option Bytes
  | [] => none
  | type :: key => if type = DataType.metadata then some key else none

/-- A decoded item key. -/
structure ItemKey where
  key : Bytes
  version : UInt16
  field : Bytes
deriving DecidableEq

/-- Item keys and score keys agree up to the version. -/
def decodeItemKeyInternal (type : UInt8) : Bytes → Option ItemKey
  | [] => none
  | first :: rest =>
      if first ≠ type then none
      else do
        let (key, rest) ← Decoder.read16Data rest
        let (version, field) ← Decoder.readUint16 rest
        some { key, version, field }

def decodeItemKey : Bytes → Option ItemKey := decodeItemKeyInternal DataType.item

/-- A decoded key of the score index. -/
structure ZScoreItemKey extends ItemKey where
  score : Double
deriving DecidableEq

def decodeZScoreItemKey (str : Bytes) : Option ZScoreItemKey := do
  let item ← decodeItemKeyInternal DataType.zscore str
  let (tscore, field) ← Decoder.readUint64 item.field
  some { key := item.key, version := item.version, field, score := decodeScore tscore }

/-- A decoded key of a list cell. -/
structure ListItemKey where
  key : Bytes
  version : UInt16
  seq : UInt64
deriving DecidableEq

def decodeListItemKey (str : Bytes) : Option ListItemKey := do
  let item ← decodeItemKeyInternal DataType.item str
  let (seq, _) ← Decoder.readUint64 item.field
  some { key := item.key, version := item.version, seq }

/-- A decoded key of the expiry index. -/
structure EScoreItemKey where
  field : Bytes
  score : Int64
deriving DecidableEq

def decodeEScoreItemKey : Bytes → Option EScoreItemKey
  | [] => none
  | first :: rest =>
      if first ≠ DataType.escore then none
      else do
        let (tscore, field) ← Decoder.readUint64 rest
        some { field, score := tscore.toInt64 }

/-- A decoded delete key. -/
structure DeleteKey where
  key : Bytes
  version : UInt16
deriving DecidableEq

def decodeDeleteKey : Bytes → Option DeleteKey
  | [] => none
  | first :: rest =>
      if first ≠ keyDeleteMask then none
      else do
        let (key, rest) ← Decoder.read16Data rest
        let (version, _) ← Decoder.readUint16 rest
        some { key, version }

/-- The four bytes every metadata value starts with. -/
structure MetaHeader where
  type : UInt8
  version : UInt16
  del : UInt8
deriving DecidableEq

/-- Type, version and deletion flag, with the rest of the value. -/
def decodeMetaHeader : Bytes → Option (MetaHeader × Bytes)
  | type :: high :: low :: del :: rest =>
      if del = keyDeleteMask ∨ del = keyEnabledMask then
        some ({ type, version := UInt16.ofNat (Endian.ofBigEndian [high, low]), del }, rest)
      else none
  | _ => none

/-- The version a key is recreated at after a deletion. -/
def nextVersion (version : UInt16) : UInt16 := if version = 0xFFFF then 0 else version + 1

/-- Metadata of a string. -/
structure KvMetaVal where
  type : UInt8
  del : UInt8
  version : UInt16
  value : Bytes := []
deriving DecidableEq

/-- A deleted value is accepted whatever its type; its content is not read. -/
def KvMetaVal.decodeMetaVal (str : Bytes) (skipVal : Bool := false) : Except Int KvMetaVal :=
  match decodeMetaHeader str with
  | none => .error (-1)
  | some (⟨type, version, del⟩, rest) =>
      if del = keyDeleteMask then .ok { type, del, version }
      else if type ≠ DataType.kv then .error wrongTypeErr
      else if skipVal then .ok { type, del, version }
      else .ok { type, del, version, value := rest }

/-- Metadata of a hash, a set or a sorted set. -/
structure MetaVal where
  type : UInt8
  del : UInt8 := keyEnabledMask
  version : UInt16 := 0
  length : UInt64 := 0
deriving DecidableEq

def MetaVal.decodeMetaVal (str : Bytes) : Except Int MetaVal :=
  match decodeMetaHeader str with
  | none => .error (-1)
  | some (⟨type, version, del⟩, rest) =>
      if del = keyDeleteMask then .ok { type, del, version }
      else if type ≠ DataType.hsize ∧ type ≠ DataType.ssize ∧ type ≠ DataType.zsize then
        .error wrongTypeErr
      else
        match Decoder.readUint64 rest with
        | none => .error (-1)
        | some (length, _) => .ok { type, del, version, length }

/-- Metadata of a list: the cells of the list sit at the sequence numbers from `leftSeq` to
`rightSeq`, modulo 2^64. -/
structure ListMetaVal extends MetaVal where
  leftSeq : UInt64 := 0
  rightSeq : UInt64 := 0xFFFFFFFFFFFFFFFF
deriving DecidableEq

def ListMetaVal.decodeMetaVal (str : Bytes) : Except Int ListMetaVal :=
  match decodeMetaHeader str with
  | none => .error (-1)
  | some (⟨type, version, del⟩, rest) =>
      if del = keyDeleteMask then .ok { type, del, version }
      else if type ≠ DataType.lsize then .error wrongTypeErr
      else
        match (do
          let (length, rest) ← Decoder.readUint64 rest
          let (leftSeq, rest) ← Decoder.readUint64 rest
          let (rightSeq, _) ← Decoder.readUint64 rest
          some (length, leftSeq, rightSeq)) with
        | none => .error (-1)
        | some (length, leftSeq, rightSeq) =>
            .ok { type, del, version, length, leftSeq, rightSeq }

end Vcdb
