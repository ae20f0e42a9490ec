import Vcdb.Lib.Endian

/-!
# Storage keys and metadata values

Every record of the store lives in one ordered byte space.  The first byte tells the record
families apart; item, score and delete keys carry the user key behind a 16-bit length field.
-/

namespace Vcdb

/-- Byte strings, compared as `memcmp` does and then by length. -/
abbrev Bytes := List UInt8

/-- A double, as its IEEE binary64 bit pattern. -/
abbrev Double := UInt64

/-- Flag of a metadata value whose key has been deleted, and first byte of a delete key. -/
def keyDeleteMask : UInt8 := 'D'.toUInt8

/-- Flag of a metadata value whose key is live. -/
def keyEnabledMask : UInt8 := 'E'.toUInt8

namespace DataType

/-- First byte of a metadata key. -/
def metadata : UInt8 := 'M'.toUInt8

def kv : UInt8 := 'k'.toUInt8

def hsize : UInt8 := 'H'.toUInt8

def zsize : UInt8 := 'Z'.toUInt8

def ssize : UInt8 := 'S'.toUInt8

def lsize : UInt8 := 'L'.toUInt8

/-- First byte of an item: a hash field, a set or sorted-set member, a list cell. -/
def item : UInt8 := 'S'.toUInt8

/-- First byte of a score-index entry. -/
def zscore : UInt8 := 'z'.toUInt8

/-- First byte of an expiry-index entry. -/
def escore : UInt8 := 'T'.toUInt8

/-- First byte of the expiry of a key. -/
def ekey : UInt8 := 'E'.toUInt8

def delete : UInt8 := keyDeleteMask

end DataType

/-- Sixteen bits in network order. -/
def be16 (n : UInt16) : Bytes := Endian.bigEndian 2 n.toNat

/-- Sixty-four bits in network order. -/
def be64 (n : UInt64) : Bytes := Endian.bigEndian 8 n.toNat

/-- The most significant bit of a double is its sign. -/
def signBit : UInt64 := 0x8000000000000000

/-- Map a bit pattern to an unsigned number that sorts like the double. -/
def encodeScore (score : Double) : UInt64 :=
  if score >>> 63 = 1 then score ^^^ 0xFFFFFFFFFFFFFFFF else score ||| signBit

/-- Inverse of `encodeScore`. -/
def decodeScore (c : UInt64) : Double :=
  if c >>> 63 = 1 then c &&& ~~~signBit else c ^^^ 0xFFFFFFFFFFFFFFFF

def encodeMetaKey (key : Bytes) : Bytes := DataType.metadata :: key

/-- The length field keeps the low sixteen bits of the key's size. -/
def encodeKeyInternal (type : UInt8) (key field : Bytes) (version : UInt16) : Bytes :=
  type :: (be16 (UInt16.ofNat key.length) ++ (key ++ (be16 version ++ field)))

def encodeHashKey (key field : Bytes) (version : UInt16) : Bytes :=
  encodeKeyInternal DataType.item key field version

def encodeSetKey (key member : Bytes) (version : UInt16) : Bytes :=
  encodeKeyInternal DataType.item key member version

def encodeZsetKey (key member : Bytes) (version : UInt16) : Bytes :=
  encodeKeyInternal DataType.item key member version

def encodeZscorePrefix (key : Bytes) (version : UInt16) : Bytes :=
  encodeKeyInternal DataType.zscore key [] version

def encodeEsetKey (member : Bytes) : Bytes := DataType.ekey :: member

def encodeZscoreKey (key field : Bytes) (score : Double) (version : UInt16) : Bytes :=
  DataType.zscore ::
    (be16 (UInt16.ofNat key.length) ++
      (key ++ (be16 version ++ (be64 (encodeScore score) ++ field))))

def encodeEscoreKey (member : Bytes) (score : UInt64) : Bytes :=
  DataType.escore :: (be64 score ++ member)

def encodeListKey (key : Bytes) (seq : UInt64) (version : UInt16) : Bytes :=
  DataType.item ::
    (be16 (UInt16.ofNat key.length) ++ (key ++ (be16 version ++ be64 seq)))

/-- Replace the sequence number at the end of a list key. -/
def updateListKey (old : Bytes) (seq : UInt64) : Bytes :=
  old.take (old.length - 8) ++ be64 seq

def encodeKvVal (val : Bytes) (version : UInt16) (del : UInt8 := keyEnabledMask) : Bytes :=
  DataType.kv :: (be16 version ++ del :: val)

def encodeMetaValInternal (type : UInt8) (length : UInt64) (version : UInt16) (del : UInt8) :
    Bytes :=
  type :: (be16 version ++ del :: be64 length)

def encodeHashMetaVal (length : UInt64) (version : UInt16) (del : UInt8 := keyEnabledMask) :
    Bytes :=
  encodeMetaValInternal DataType.hsize length version del

def encodeSetMetaVal (length : UInt64) (version : UInt16) (del : UInt8 := keyEnabledMask) :
    Bytes :=
  encodeMetaValInternal DataType.ssize length version del

def encodeZsetMetaVal (length : UInt64) (version : UInt16) (del : UInt8 := keyEnabledMask) :
    Bytes :=
  encodeMetaValInternal DataType.zsize length version del

def encodeListMetaVal (length left right : UInt64) (version : UInt16)
    (del : UInt8 := keyEnabledMask) : Bytes :=
  DataType.lsize :: (be16 version ++ del :: (be64 length ++ (be64 left ++ be64 right)))

/-- Name of a deletion the background worker still has to finish. -/
def encodeDeleteKey (key : Bytes) (version : UInt16) : Bytes :=
  keyDeleteMask :: (be16 (UInt16.ofNat key.length) ++ (key ++ be16 version))

end Vcdb
