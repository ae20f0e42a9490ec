import Vcdb.Lib.Conversion
import Vcdb.Proc.Hash
import Vcdb.Storage.ZsetRange

/-!
# Sorted set commands

From the arguments of a request to its reply.
-/

namespace Vcdb

/-- Scores by member; of a repeated member the last score counts, or the first under NX. -/
def scoreMap (nx : Bool) (elements : List (Bytes × Bytes)) : SortedMap Bytes Bytes :=
  elements.foldl
    (fun sortedSet element =>
      if nx ∧ (sortedSet.get element.1).isSome then sortedSet
      else sortedSet.put element.1 element.2)
    ∅

/-- The elements are members with the text of their score. -/
def procZadd (float : FloatUnit) (name : Bytes) (flags : ZaddFlags)
    (elements : List (Bytes × Bytes)) : Command Reply :=
  match elements with
  | [] => return .error syntaxErr
  | (key, val) :: more =>
      if flags.nx ∧ flags.xx then
        return .errorInfo "ERR XX and NX options at the same time are not compatible"
      else if flags.incr then
        if more ≠ [] then
          return .errorInfo "ERR INCR option supports a single increment-element pair"
        else
          match float.bytesDouble val with
          | none => return .error invalidDbl
          | some score => do
              match ← zincr float name key score flags with
              | .error code => return .error code
              | .ok (result, newVal) =>
                  if result = .nop then return .nil
                  else return .bulk (float.str (newVal.getD 0))
      else do
        let (ret, num) ← multiZset float name (scoreMap flags.nx elements) flags
        if ret < 0 then return .error ret else return .int num

def procZrem (name : Bytes) (keys : List Bytes) : Command Reply :=
  if keys = [] then return .wrongNumberOfArguments
  else do
    let (ret, count) ← multiZdel name (byteSet keys)
    if ret < 0 then return .error ret else return .int count

def procZcard (name : Bytes) : Command Reply := do
  let (ret, size) ← zsize name
  if ret < 0 then return .error ret else return .int size.toNat

def procZscore (float : FloatUnit) (name key : Bytes) : Command Reply := do
  let (ret, score) ← zget name key
  if ret < 0 then return .error ret
  else if ret = 0 then return .nil
  else return .bulk (float.str score)

/-- The two rank commands count from different ends. -/
def procZrankGeneric (float : FloatUnit) (direction : Direction) (name key : Bytes) :
    Command Reply := do
  let (ret, rank) ← zrankGeneric float name key direction
  if ret < 0 then return .error ret
  else if ret = 0 ∨ rank = -1 then return .nil
  else return .int rank

def procZrank (float : FloatUnit) (name key : Bytes) : Command Reply :=
  procZrankGeneric float .forward name key

def procZrevrank (float : FloatUnit) (name key : Bytes) : Command Reply :=
  procZrankGeneric float .backward name key

/-- The two range commands count from different ends. -/
def procZrangeGeneric (float : FloatUnit) (direction : Direction) (name start stop : Bytes)
    (withscore : Bool) : Command Reply := do
  let (ret, keyScore) ← zrangeGeneric float name start stop withscore direction
  if ret < 0 then return .error ret else return .strings keyScore

def procZrange (float : FloatUnit) (name start stop : Bytes) (withscore : Bool) : Command Reply :=
  procZrangeGeneric float .forward name start stop withscore

def procZrevrange (float : FloatUnit) (name start stop : Bytes) (withscore : Bool) :
    Command Reply :=
  procZrangeGeneric float .backward name start stop withscore

/-- `_zrangebyscore`; without a limit the offset is zero and the limit negative. -/
def procZrangebyscoreGeneric (float : FloatUnit) (name startScore endScore : Bytes)
    (withscores : Bool) (limits : Option (Int64 × Int64)) (reverse : Bool) : Command Reply := do
  let (offset, limit) := limits.getD (0, -1)
  let (ret, keyScore) ← genericZrangebyscore float name startScore endScore withscores
    offset.toInt limit.toInt reverse
  if ret < 0 then return .error ret else return .strings keyScore

def procZrangebyscore (float : FloatUnit) (name startScore endScore : Bytes) (withscores : Bool)
    (limits : Option (Int64 × Int64)) : Command Reply :=
  procZrangebyscoreGeneric float name startScore endScore withscores limits false

def procZrevrangebyscore (float : FloatUnit) (name startScore endScore : Bytes)
    (withscores : Bool) (limits : Option (Int64 × Int64)) : Command Reply :=
  procZrangebyscoreGeneric float name startScore endScore withscores limits true

/-- The new score of a member, as text. -/
def procZincrby (float : FloatUnit) (name increment key : Bytes) : Command Reply :=
  match float.bytesDouble increment with
  | none => return .error invalidDbl
  | some score => do
      match ← zincr float name key score { incr := true } with
      | .error code => return .error code
      | .ok (_, newVal) => return .bulk (float.str (newVal.getD 0))

/-- Counting and removing by score differ in whether members are removed. -/
def procZscoreRange (float : FloatUnit) (remove : Bool) (name scoreStart scoreEnd : Bytes) :
    Command Reply := do
  let (ret, count) ← zremrangebyscore float name scoreStart scoreEnd remove
  if ret < 0 then return .error ret else return .int count

def procZcount (float : FloatUnit) (name scoreStart scoreEnd : Bytes) : Command Reply :=
  procZscoreRange float false name scoreStart scoreEnd

def procZremrangebyscore (float : FloatUnit) (name scoreStart scoreEnd : Bytes) : Command Reply :=
  procZscoreRange float true name scoreStart scoreEnd

def procZremrangebyrank (float : FloatUnit) (name start stop : Bytes) : Command Reply := do
  let (ret, keyScore) ← zrange float name start stop false
  if ret < 0 then return .error ret
  else if ret = 0 then return .int 0
  else
    let (ret, count) ← multiZdel name (byteSet keyScore)
    if ret < 0 then return .error ret else return .int count

def tolower (c : UInt8) : UInt8 := if 65 ≤ c ∧ c ≤ 90 then c + 32 else c

/-- Two texts are equal up to their first null byte, whatever the case of their letters. -/
def strcasecmp (left right : Bytes) : Bool :=
  (Conversion.cString left).map tolower = (Conversion.cString right).map tolower

/-- The option of a range by member, of which the last one counts. -/
def zrangebylexLimits : List Bytes → Int64 × Int64 → Except Int (Int64 × Int64)
  | [], limits => .ok limits
  | word :: offset :: limit :: options, _ =>
      if strcasecmp word [108, 105, 109, 105, 116] then
        match string2ll offset, string2ll limit with
        | some offset, some limit => zrangebylexLimits options (offset, limit)
        | _, _ => .error nanScore
      else .error syntaxErr
  | _, _ => .error syntaxErr

/-- `_zrangebylex` -/
def procZrangebylexGeneric (name keyStart keyEnd : Bytes) (options : List Bytes)
    (direction : Direction) : Command Reply :=
  match zrangebylexLimits options (0, -1) with
  | .error code => return .error code
  | .ok (offset, limit) => do
      let result ←
        match direction with
        | .backward => zrevrangebylex name keyStart keyEnd offset.toInt limit.toInt
        | .forward => zrangebylex name keyStart keyEnd offset.toInt limit.toInt
      match result with
      | none => return .terminated
      | some (ret, keys) => if ret < 0 then return .error ret else return .strings keys

def procZrangebylex (name keyStart keyEnd : Bytes) (options : List Bytes) : Command Reply :=
  procZrangebylexGeneric name keyStart keyEnd options .forward

def procZrevrangebylex (name keyStart keyEnd : Bytes) (options : List Bytes) : Command Reply :=
  procZrangebylexGeneric name keyStart keyEnd options .backward

def procZremrangebylex (name keyStart keyEnd : Bytes) : Command Reply := do
  match ← zremrangebylex name keyStart keyEnd with
  | none => return .terminated
  | some (ret, count) => if ret < 0 then return .error ret else return .int count

/-- Whatever goes wrong is reported as an error of syntax. -/
def procZlexcount (name keyStart keyEnd : Bytes) : Command Reply := do
  match ← zlexcount name keyStart keyEnd with
  | none => return .terminated
  | some (ret, count) => if ret < 0 then return .error syntaxErr else return .int count

/-- A sorted set command with its arguments. -/
inductive ZsetCommand
  | zadd (key : Bytes) (flags : ZaddFlags) (elements : List (Bytes × Bytes))
  | zincrby (key increment member : Bytes)
  | zrem (key : Bytes) (members : List Bytes)
  | zscore (key member : Bytes)
  | zcard (key : Bytes)
  | zremrangebyscore (key min max : Bytes)
  | zremrangebyrank (key start stop : Bytes)
  | zremrangebylex (key min max : Bytes)
deriving DecidableEq

namespace ZsetCommand

/-- The user key a command works on. -/
def key : ZsetCommand → Bytes
  | zadd key _ _ | zincrby key _ _ | zrem key _ | zscore key _ | zcard key
  | zremrangebyscore key _ _ | zremrangebyrank key _ _ | zremrangebylex key _ _ => key

def run (float : FloatUnit) : ZsetCommand → Command Reply
  | zadd key flags elements => procZadd float key flags elements
  | zincrby key increment member => procZincrby float key increment member
  | zrem key members => procZrem key members
  | zscore key member => procZscore float key member
  | zcard key => procZcard key
  | zremrangebyscore key min max => procZremrangebyscore float key min max
  | zremrangebyrank key start stop => procZremrangebyrank float key start stop
  | zremrangebylex key min max => procZremrangebylex key min max

end ZsetCommand

end Vcdb
