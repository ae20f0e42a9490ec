import Vcdb.Codec.Integer
import Vcdb.Lib.Grammar

/-!
# Loading serialized values

The payload of RESTORE is an object in the RDB format behind which stand a version and a checksum.
Nothing in it can be trusted: besides an error result, a load can end in the exit of the process, in
a string made from a null pointer, or in an access to foreign memory.
-/

namespace Vcdb

/-- Ends of the process. -/
inductive Crash
  /-- The exit on a corrupt file. -/
  | corruptRdb
  /-- A string made from a null pointer. -/
  | nullString
  /-- A write to a block that could not be allocated. -/
  | nullWrite
  /-- A read of memory that is neither payload nor made from it. -/
  | wildRead
deriving DecidableEq

inductive Failure
  | code (ret : Int)
  | crash (crash : Crash)
deriving DecidableEq

/-- An entry of a ziplist. -/
inductive ZiplistEntry
  | str (value : Bytes)
  | int (longval : Int64)
deriving DecidableEq

/-- What a load depends on besides its payload.  The blocks it allocates are told apart by the
compressed strings they are allocated for. -/
structure Runtime where
  /-- Whether a block of some size can be allocated. -/
  malloc : (tmp : Bytes) → UInt64 → Bool
  /-- The byte at a position of a block where nothing has been written, if it can be read. -/
  stale : (tmp : Bytes) → Nat → Option UInt8
  /-- Whether messages of level error are written. -/
  logsErrors : Bool
  /-- Zero divided by zero; its sign is up to the compiler. -/
  rNan : Double
  /-- `sscanf` with `%lg`; nothing is stored when the text does not start with a number. -/
  scanDouble : Bytes → Option Double
  /-- The double a text stands for, unless `errno` tells that it is not one. -/
  bytesDouble : Bytes → Option Double
  crc64 : Bytes → UInt64
  ziplistEntries : Bytes → List ZiplistEntry
  intsetValues : Bytes → List Int64

abbrev RdbDecoder := Loader Failure UInt8

def rdbVersion : Nat := 8

def rdb6bitlen : UInt8 := 0

def rdb14bitlen : UInt8 := 1

def rdb32bitlen : UInt8 := 0x80

def rdb64bitlen : UInt8 := 0x81

def rdbEncval : UInt8 := 3

/-- The length that stands for a failed load. -/
def rdbLenerr : UInt64 := 0xFFFFFFFFFFFFFFFF

def rdbEncInt8 : UInt64 := 0

def rdbEncInt16 : UInt64 := 1

def rdbEncInt32 : UInt64 := 2

def rdbEncLzf : UInt64 := 3

def rNegInf : Double := 0xFFF0000000000000

def rPosInf : Double := 0x7FF0000000000000

/-- The next `len` bytes; nothing when fewer are left. -/
def rioRead (len : Nat) : RdbDecoder Bytes := fun rest =>
  if rest.length < len then .ok ([], rest) else .ok (rest.take len, rest.drop len)

/-- The next `len` bytes, for a caller that fails on an empty read. -/
def rioReadOr (failure : Failure) (len : Nat) : RdbDecoder Bytes := do
  match ← rioRead len with
  | [] => throw failure
  | data => return data

/-- The two high bits of the first byte of a length. -/
def lenType (buf : UInt8) : UInt8 := (buf &&& 0xC0) >>> 6

/-- A length, or an encoding when the flag is set. -/
def rdbLoadLenByRef : RdbDecoder (Option (Bool × UInt64)) := do
  match ← rioRead 1 with
  | [] => return none
  | buf :: _ =>
      if lenType buf = rdbEncval then return some (true, (buf &&& 0x3F).toUInt64)
      else if lenType buf = rdb6bitlen then return some (false, (buf &&& 0x3F).toUInt64)
      else if lenType buf = rdb14bitlen then
        match ← rioRead 1 with
        | [] => return none
        | low :: _ => return some (false, ((buf &&& 0x3F).toUInt64 <<< 8) ||| low.toUInt64)
      else if buf = rdb32bitlen then
        match ← rioRead 4 with
        | [] => return none
        | len => return some (false, UInt64.ofNat (Endian.ofBigEndian len))
      else if buf = rdb64bitlen then
        match ← rioRead 8 with
        | [] => return none
        | len => return some (false, UInt64.ofNat (Endian.ofBigEndian len))
      else throw (.crash .corruptRdb)

def rdbLoadLen : RdbDecoder (Bool × UInt64) := do
  match ← rdbLoadLenByRef with
  | none => return (false, rdbLenerr)
  | some len => return len

def rdbLoadType : RdbDecoder (Option UInt8) := do
  match ← rioRead 1 with
  | [] => return none
  | type :: _ => return some type

/-- Types of objects. -/
inductive RdbType
  | string
  | list
  | set
  | zset
  | hash
  | zset2
  | module
  | hashZipmap
  | listZiplist
  | setIntset
  | zsetZiplist
  | hashZiplist
  | listQuicklist
deriving DecidableEq

/-- The bytes `rdbIsObjectType` accepts. -/
def RdbType.ofByte (type : UInt8) : Option RdbType :=
  match type.toNat with
  | 0 => some string
  | 1 => some list
  | 2 => some set
  | 3 => some zset
  | 4 => some hash
  | 5 => some zset2
  | 6 => some module
  | 9 => some hashZipmap
  | 10 => some listZiplist
  | 11 => some setIntset
  | 12 => some zsetZiplist
  | 13 => some hashZiplist
  | 14 => some listQuicklist
  | _ => none

/-- Without a value the source returns -1. -/
def rdbLoadObjectType : RdbDecoder (Option RdbType) := do
  return (← rdbLoadType).bind RdbType.ofByte

/-- A short integer, as decimal text; a payload that ends too early makes a string from null. -/
def rdbLoadIntegerObject (enctype : UInt64) : RdbDecoder Bytes := do
  if enctype = rdbEncInt8 then
    let enc ← rioReadOr (.crash .nullString) 1
    return str (UInt8.ofNat (Endian.ofBigEndian enc.reverse)).toInt8.toInt64
  else if enctype = rdbEncInt16 then
    let enc ← rioReadOr (.crash .nullString) 2
    return str (UInt16.ofNat (Endian.ofBigEndian enc.reverse)).toInt16.toInt64
  else
    let enc ← rioReadOr (.crash .nullString) 4
    return str (UInt32.ofNat (Endian.ofBigEndian enc.reverse)).toInt32.toInt64

/-- Append `len` bytes that start `offset` bytes before the end; they may overlap their source. -/
def copyBack (offset : Nat) : Nat → Bytes → Bytes
  | 0, out => out
  | len + 1, out => copyBack offset len (out ++ [out.getD (out.length - offset) 0])

/-- Length and distance of a back reference, and the input behind it. -/
def backReference (ctrl : UInt8) : Bytes → Option (Nat × Nat × Bytes)
  | [] => none
  | first :: ip =>
      let len := (ctrl >>> 5).toNat
      let far := (ctrl &&& 0x1F).toNat * 256 + 1
      if len = 7 then
        match ip with
        | [] => none
        | low :: ip => some (len + first.toNat + 2, far + low.toNat, ip)
      else some (len + 2, far + first.toNat, ip)

theorem backReference_length {ctrl : UInt8} {ip rest : Bytes} {len offset : Nat}
    (found : backReference ctrl ip = some (len, offset, rest)) : rest.length < ip.length := by
  cases ip with
  | nil => simp [backReference] at found
  | cons first ip =>
      simp only [backReference] at found
      split_ifs at found with long
      · cases ip with
        | nil => simp at found
        | cons low ip =>
            obtain ⟨_, _, rfl⟩ := by simpa using found
            simp only [List.length_cons]
            omega
      · obtain ⟨_, _, rfl⟩ := by simpa using found
        simp

/-- Decompress into a block behind the bytes already written; without a value the call returns 0.
A block that could not be allocated has address zero, where the range check of a back reference
wraps around. -/
def lzfDecompress (allocated : Bool) (outLen : Nat) (out : Bytes) :
    Bytes → Except Crash (Option Bytes)
  | [] => .ok (some out)
  | ctrl :: ip =>
      if ctrl < 32 then
        let len := ctrl.toNat + 1
        if outLen < out.length + len then .ok none
        else if ip.length < len then .ok none
        else if allocated then lzfDecompress allocated outLen (out ++ ip.take len) (ip.drop len)
        else .error .nullWrite
      else
        match _found : backReference ctrl ip with
        | none => .ok none
        | some (len, offset, ip') =>
            if outLen < out.length + len then .ok none
            else if allocated then
              if out.length < offset then .ok none
              else lzfDecompress allocated outLen (copyBack offset len out) ip'
            else .error .wildRead
termination_by ip => ip.length
decreasing_by
  · simp only [List.length_drop, List.length_cons]
    omega
  · have shorter := backReference_length _found
    simp only [List.length_cons]
    omega

/-- Decompress `tmp` into a block of `len` bytes.  The result has this length even when the block
was not filled, and the decompressor is given the low half of the length. -/
def lzfString (runtime : Runtime) (tmp : Bytes) (len : UInt64) : RdbDecoder Bytes := do
  match lzfDecompress (runtime.malloc tmp len) (len.toNat % 2 ^ 32) [] tmp with
  | .error crash => throw (.crash crash)
  | .ok none => throw (.code (-1))
  | .ok (some out) =>
      match (List.range' out.length (len.toNat - out.length)).mapM (runtime.stale tmp) with
      | none => throw (.crash .wildRead)
      | some unwritten => return out ++ unwritten

def rdbLoadLzfStringObject (runtime : Runtime) : RdbDecoder Bytes := do
  let (_, clen) ← rdbLoadLen
  if clen = rdbLenerr then throw (.crash .nullString)
  else
    let (_, len) ← rdbLoadLen
    if len = rdbLenerr then throw (.crash .nullString)
    else
      let tmp ← rioReadOr (.code (-1)) clen.toNat
      lzfString runtime tmp len

/-- A string in any encoding.  Its callers answer the error result of the source with `-1`. -/
def rdbGenericLoadStringObject (runtime : Runtime) : RdbDecoder Bytes := do
  let (isencoded, len) ← rdbLoadLen
  if isencoded then
    if len = rdbEncInt8 ∨ len = rdbEncInt16 ∨ len = rdbEncInt32 then rdbLoadIntegerObject len
    else if len = rdbEncLzf then rdbLoadLzfStringObject runtime
    else throw (.crash .corruptRdb)
  else if len = rdbLenerr then throw (.code (-1))
  else if len = 0 then return []
  else rioReadOr (.code (-1)) len.toNat

def rdbLoadBinaryDoubleValue : RdbDecoder Double := do
  let val ← rioReadOr (.code (-1)) 8
  return UInt64.ofNat (Endian.ofBigEndian val.reverse)

/-- A double as text; text that is not a number leaves the variable as it was. -/
def rdbLoadDoubleValue (runtime : Runtime) (val : Double) : RdbDecoder Double := do
  let len := (← rioReadOr (.code (-1)) 1).headD 0
  if len = 255 then return rNegInf
  else if len = 254 then return rPosInf
  else if len = 253 then return runtime.rNan
  else
    let buf ← rioReadOr (.code (-1)) len.toNat
    return (runtime.scanDouble buf).getD val

/-- The object of a dump whose version is known and whose checksum is right. -/
def verifyDumpPayload (runtime : Runtime) (data : Bytes) : Option Bytes :=
  if data.length < 10 then none
  else
    let body := data.take (data.length - 10)
    let footer := data.drop (data.length - 10)
    if rdbVersion < Endian.ofBigEndian (footer.take 2).reverse then none
    else if footer.drop 2 = (be64 (runtime.crc64 (data.take (data.length - 8)))).reverse then
      some body
    else none

end Vcdb
