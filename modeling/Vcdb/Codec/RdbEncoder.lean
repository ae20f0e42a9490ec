import Vcdb.Codec.Encode
import Vcdb.Codec.RdbDecoder
import Vcdb.Codec.Number

/-!
# Saving lengths and strings

An encoder appends to its output and reports how much it has saved, or `-1`.  What a single write
reports is up to the kind of encoder.
-/

namespace Vcdb

structure RdbEncoder where
  rdbCompression : Bool
  /-- What a write of some bytes reports. -/
  report : Nat → Int

/-- The encoder of DUMP reports the number of bytes as an `int`. -/
def dumpEncoder (rdbCompression : Bool) : RdbEncoder where
  rdbCompression := rdbCompression
  report n := (Int32.ofNat n).toInt

/-- The encoder of SAVE, on a file that takes every write. -/
def rocksdbWritableFileEncoder : RdbEncoder where
  rdbCompression := false
  report _ := 0

/-- Saving appends to the output. -/
abbrev Saving := StateM Bytes

section Encoder

variable (encoder : RdbEncoder)

def rdbWriteRaw (p : Bytes) : Saving Int := fun output => (encoder.report p.length, output ++ p)

def rdbSaveLen (len : UInt64) : Saving Int := do
  if len < (1 : UInt64) <<< 6 then
    let buf := [(len &&& 0xFF).toUInt8 ||| rdb6bitlen <<< 6]
    if (← rdbWriteRaw encoder buf) = -1 then return -1 else return 1
  else if len < (1 : UInt64) <<< 14 then
    let buf := [(len >>> 8 &&& 0xFF).toUInt8 ||| rdb14bitlen <<< 6, (len &&& 0xFF).toUInt8]
    if (← rdbWriteRaw encoder buf) = -1 then return -1 else return 2
  else if len ≤ 0xFFFFFFFF then
    if (← rdbWriteRaw encoder [rdb32bitlen]) = -1 then return -1
    else if (← rdbWriteRaw encoder (Endian.bigEndian 4 len.toNat)) = -1 then return -1
    else return 1 + 4
  else
    if (← rdbWriteRaw encoder [rdb64bitlen]) = -1 then return -1
    else if (← rdbWriteRaw encoder (be64 len)) = -1 then return -1
    else return 1 + 8

/-- The first byte of an encoded string. -/
def encodingByte (encoding : UInt64) : UInt8 := rdbEncval <<< 6 ||| encoding.toUInt8

/-- The low byte of a number behind some bits. -/
def byteOf (value : Int64) (bits : Int64) : UInt8 := (value >>> bits &&& 0xFF).toUInt64.toUInt8

/-- A short integer; nothing for one of more than 32 bits. -/
def rdbEncodeInteger (value : Int64) : Bytes :=
  if -2 ^ 7 ≤ value ∧ value ≤ 2 ^ 7 - 1 then [encodingByte rdbEncInt8, byteOf value 0]
  else if -2 ^ 15 ≤ value ∧ value ≤ 2 ^ 15 - 1 then
    [encodingByte rdbEncInt16, byteOf value 0, byteOf value 8]
  else if -2 ^ 31 ≤ value ∧ value ≤ 2 ^ 31 - 1 then
    [encodingByte rdbEncInt32, byteOf value 0, byteOf value 8, byteOf value 16, byteOf value 24]
  else []

/-- Text that an integer is printed as; nothing for any other. -/
def rdbTryIntegerEncoding (string : Bytes) : Bytes :=
  let (value, errno) := strToInt64 string 0
  if errno ≠ 0 then []
  else
    let newValue := str value
    if newValue.length ≠ string.length ∨ newValue ≠ string then [] else rdbEncodeInteger value

def rdbSaveLzfBlob (data : Bytes) (originalLen : UInt64) : Saving Int := do
  let first ← rdbWriteRaw encoder [encodingByte rdbEncLzf]
  if first = -1 then return -1
  else
    let compressed ← rdbSaveLen encoder (UInt64.ofNat data.length)
    if compressed = -1 then return -1
    else
      let original ← rdbSaveLen encoder originalLen
      if original = -1 then return -1
      else
        let n ← rdbWriteRaw encoder data
        if n = -1 then return -1 else return first + compressed + original + n

-- `lzf_compress`: what it leaves in a block, nothing when it returns zero.
variable (lzfCompress : (data : Bytes) → (outLen : Nat) → Bytes)

/-- The compressor is given a block that could be allocated, and the low halves of the lengths. -/
def rdbSaveLzfStringObject (string : Bytes) : Saving Int := do
  if string.length ≤ 4 then return 0
  else
    let outlen := string.length - 4
    let out := lzfCompress (string.take (string.length % 2 ^ 32)) (outlen % 2 ^ 32)
    if out.length = 0 then return 0
    else rdbSaveLzfBlob encoder out (UInt64.ofNat string.length)

def rdbSaveRawString (string : Bytes) : Saving Int := do
  let buf := if string.length ≤ 11 then rdbTryIntegerEncoding string else []
  if 0 < buf.length then
    if (← rdbWriteRaw encoder buf) = -1 then return -1 else return buf.length
  else
    let n ←
      if encoder.rdbCompression ∧ 20 < string.length then
        rdbSaveLzfStringObject encoder lzfCompress string
      else pure 0
    if n = -1 then return -1
    else if 0 < n then return n
    else
      -- Nothing was compressed, so the string is saved verbatim.
      let n ← rdbSaveLen encoder (UInt64.ofNat string.length)
      if n = -1 then return -1
      else if 0 < string.length then
        if (← rdbWriteRaw encoder string) = -1 then return -1 else return n + string.length
      else return n

/-- The string as it is; what its writes report is not looked at. -/
def saveRawString (string : Bytes) : Saving Int := do
  let _ ← rdbSaveLen encoder (UInt64.ofNat string.length)
  let _ ← rdbWriteRaw encoder string
  return string.length

def rdbSaveType (type : UInt8) : Saving Int := rdbWriteRaw encoder [type]

/-- The type an object of some metadata is saved with. -/
def rdbSaveObjectType (dtype : UInt8) : Saving Int :=
  if dtype = DataType.kv then rdbSaveType encoder 0
  else if dtype = DataType.hsize then rdbSaveType encoder 4
  else if dtype = DataType.ssize then rdbSaveType encoder 2
  else if dtype = DataType.zsize then rdbSaveType encoder 5
  else if dtype = DataType.lsize then rdbSaveType encoder 1
  else return -1

def rdbSaveBinaryDoubleValue (val : Double) : Saving Int := rdbWriteRaw encoder (be64 val).reverse

/-- The version, and a checksum of everything before it. -/
def encodeFooter (crc64 : Bytes → UInt64) : Saving Int := do
  let buf := [UInt8.ofNat rdbVersion, UInt8.ofNat (rdbVersion / 256)]
  if (← rdbWriteRaw encoder buf) = -1 then return -1
  else
    let crc := crc64 (← get)
    if (← rdbWriteRaw encoder (be64 crc).reverse) = -1 then return -1 else return 0

end Encoder

end Vcdb
