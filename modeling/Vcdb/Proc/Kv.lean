import Vcdb.Codec.Number
import Vcdb.Proc.Hash
import Vcdb.Storage.Kv

/-!
# String and expiry commands

From the arguments of a request to its reply.
-/

namespace Vcdb

/-- An integer argument, refused when `errno` tells so; the error left by an earlier call has no
influence. -/
def int64Argument (text : Bytes) : Option Int64 :=
  if (strToInt64 text 0).2 = einval then none else some (strToInt64 text 0).1

def procGet (key : Bytes) : Command Reply := do
  let (ret, val) ← Kv.get key
  if ret < 0 then return .error ret
  else if ret = 0 then return .nil
  else return .bulk val

def procGetset (key newval : Bytes) : Command Reply := do
  match ← getset key newval with
  | .error code => return .error code
  | .ok none => return .nil
  | .ok (some val) => return .bulk val

def procAppend (key value : Bytes) : Command Reply := do
  match ← Kv.append key value with
  | .error code => return .error code
  | .ok newlen => return .int newlen.toNat

/-- What the options of a SET ask for. -/
structure SetOptions where
  flags : SetFlags := {}
  ttl : Int64 := 0
  unit : TimeUnit := .second
deriving DecidableEq

/-- The options of a SET, in any order and of any case. -/
def setOptions : List Bytes → SetOptions → Except Int SetOptions
  | [], options => .ok options
  | word :: rest, options =>
      let key := word.map Conversion.toLower
      let flags := options.flags
      if key = [110, 120] ∧ !flags.xx then
        setOptions rest { options with flags := { flags with nx := true } }
      else if key = [120, 120] ∧ !flags.nx then
        setOptions rest { options with flags := { flags with xx := true } }
      else if key = [101, 120] ∧ !flags.px ∨ key = [112, 120] ∧ !flags.ex then
        match rest with
        | [] => .error syntaxErr
        | argument :: rest =>
            match int64Argument argument with
            | none => .error invalidInt
            | some ttl =>
                if ttl ≤ 0 then .error invalidExTime
                else if key = [101, 120] then
                  setOptions rest ⟨{ flags with ex := true }, ttl, .second⟩
                else setOptions rest ⟨{ flags with px := true }, ttl, .millisecond⟩
      else .error syntaxErr

/-- Set a key with options that have been read. -/
def setWithOptions (key val : Bytes) (options : SetOptions) : Command Reply :=
  match convert2ms options.ttl options.unit with
  | .error code => return .error code
  | .ok ttl => do
      let (ret, added) ← Kv.set key val options.flags ttl
      if ret < 0 then return .error ret
      else if (options.flags.nx ∨ options.flags.xx) ∧ added = 0 then return .nil
      else return .ok

def procSet (key val : Bytes) (words : List Bytes) : Command Reply :=
  match setOptions words {} with
  | .error code => return .error code
  | .ok options => setWithOptions key val options

def procSetnx (key val : Bytes) : Command Reply := do
  let (ret, added) ← Kv.set key val { nx := true } 0
  if ret < 0 then return .error ret else return .int added

/-- SETEX and PSETEX. -/
def setExpiring (unit : TimeUnit) (flags : SetFlags) (key argument val : Bytes) : Command Reply :=
  match int64Argument argument with
  | none => return .error invalidInt
  | some ttl =>
      if ttl ≤ 0 then return .error invalidExTime
      else
        match convert2ms ttl unit with
        | .error code => return .error code
        | .ok ttl => do
            let (ret, _) ← Kv.set key val flags ttl
            if ret < 0 then return .error ret else return .ok

def procSetex (key argument val : Bytes) : Command Reply :=
  setExpiring .second { ex := true } key argument val

def procPsetex (key argument val : Bytes) : Command Reply :=
  setExpiring .millisecond { px := true } key argument val

def procPttl (key : Bytes) : Command Reply := do
  let ttl ← pttl key .millisecond
  return .int ttl

def procTtl (key : Bytes) : Command Reply := do
  let ttl ← pttl key .second
  return .int ttl

/-- EXPIRE and PEXPIRE. -/
def expireIn (unit : TimeUnit) (reply : Int → Reply) (key argument : Bytes) : Command Reply :=
  match string2ll argument with
  | none => return .error invalidInt
  | some when => do
      let ret ← expire key when unit
      if ret < 0 then return .error ret else return reply ret

def procPexpire (key argument : Bytes) : Command Reply :=
  expireIn .millisecond Reply.int key argument

/-- The only one of its kind that does not pass its result on as it is. -/
def procExpire (key argument : Bytes) : Command Reply :=
  expireIn .second (fun ret => .int (if ret = 0 then 0 else 1)) key argument

def expireAtInstant (key : Bytes) (instant : Int64) : Command Reply := do
  let (ret, _) ← expireAt key instant []
  if ret < 0 then return .error ret else return .int ret

def procExpireat (key argument : Bytes) : Command Reply :=
  match string2ll argument with
  | none => return .error invalidInt
  | some ts => expireAtInstant key (ts * 1000)

def procPexpireat (key argument : Bytes) : Command Reply :=
  match string2ll argument with
  | none => return .error invalidInt
  | some tsMs => expireAtInstant key tsMs

def procPersist (key : Bytes) : Command Reply := do
  let ret ← persist key
  if ret < 0 then return .error ret else return .int ret

def procMset (kvs : List (Bytes × Bytes)) : Command Reply :=
  if kvs = [] then return .errorInfo "ERR wrong number of arguments for MSET"
  else do
    let ret ← multiSet kvs
    if ret < 0 then return .error ret else return .int ret

def procDel (keys : List Bytes) : Command Reply :=
  if keys = [] then return .wrongNumberOfArguments
  else do
    match ← multiDel (byteSet keys).keys with
    | .error code => return .error code
    | .ok num => return .int num

def mgetLoop : List Bytes → Command (List (Option Bytes))
  | [] => return []
  | key :: keys => do
      let (ret, val) ← Kv.get key
      let vals ← mgetLoop keys
      return (if ret < 1 then none else some val) :: vals

def procMget (keys : List Bytes) : Command Reply :=
  if keys = [] then return .wrongNumberOfArguments
  else do
    let vals ← mgetLoop keys
    return .list vals

/-- INCR, INCRBY, DECR and DECRBY; the amount is multiplied by the direction in 64 bits. -/
def incrBy (dir : Int64) (key : Bytes) (argument : Option Bytes) : Command Reply :=
  match argument.elim (some 1) int64Argument with
  | none => return .error invalidInt
  | some by' => do
      match ← incr key (dir * by') with
      | .error code => return .error code
      | .ok newVal => return .int newVal.toInt

def procIncr (key : Bytes) (argument : Option Bytes) : Command Reply := incrBy 1 key argument

def procDecr (key : Bytes) (argument : Option Bytes) : Command Reply := incrBy (-1) key argument

def procIncrbyfloat (float : LongDoubleUnit) (key argument : Bytes) : Command Reply :=
  match float.bytesLongDouble argument with
  | none => return .error invalidInt
  | some by' => do
      match ← incrbyfloat float key by' with
      | .error code => return .error code
      | .ok newVal => return .bulk (float.str newVal)

def procHincrbyfloat (float : LongDoubleUnit) (dblMax : float.LongDouble)
    (name key argument : Bytes) : Command Reply :=
  match float.bytesLongDouble argument with
  | none => return .error invalidDbl
  | some by' => do
      match ← hincrbyfloat float dblMax name key by' with
      | .error code => return .error code
      | .ok newVal => return .bulk (float.str newVal)

/-- Largest request. -/
def maxPacketSize : Nat := 128 * 1024 * 1024

/-- A bit offset; a text that is no integer counts as zero. -/
def bitOffset (argument : Bytes) : Option Int64 :=
  let offset := (string2ll argument).getD 0
  if offset < 0 ∨ maxPacketSize * 4 ≤ offset.toInt.toNat / 8 then none else some offset

def procGetbit (key argument : Bytes) : Command Reply :=
  match bitOffset argument with
  | none => return .errorInfo "ERR offset is is not an integer or out of range"
  | some offset => do
      match ← getbit key offset with
      | .error code => return .error code
      | .ok res => return .int res

/-- Failure to parse the bit itself is not looked at. -/
def procSetbit (key argument bit : Bytes) : Command Reply :=
  let offset := (string2ll argument).getD 0
  let on := (strToInt bit 0).1
  if on &&& ~~~1 ≠ 0 then return .errorInfo "ERR bit is not an integer or out of range"
  else if offset < 0 ∨ maxPacketSize * 4 ≤ offset.toInt.toNat / 8 then
    return .errorInfo "ERR offset is out of range [0, 4294967296)"
  else do
    match ← setbit key offset on.toInt with
    | .error code => return .error code
    | .ok res => return .int (if res = 0 then 0 else 1)

def procSetrange (key argument value : Bytes) : Command Reply :=
  match int64Argument argument with
  | none => return .error invalidInt
  | some start =>
      if start < 0 then return .error indexOutOfRange
      else do
        match ← setrange key start value with
        | .error code => return .error code
        | .ok newLen => return .int newLen.toNat

def procGetrange (key first last : Bytes) : Command Reply :=
  match int64Argument first with
  | none => return .error invalidInt
  | some start =>
      match int64Argument last with
      | none => return .error invalidInt
      | some stop => do
          match ← getrange key start stop with
          | .error code => return .error code
          | .ok res => return .bulk res

def procStrlen (key : Bytes) : Command Reply := do
  let (ret, val) ← Kv.get key
  if ret < 0 then return .error ret else return .int val.length

end Vcdb
