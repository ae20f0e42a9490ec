import Vcdb.Proc.Reply
import Vcdb.Storage.Hash

/-!
# Hash commands

From the arguments of a request to its reply.
-/

namespace Vcdb

def procHexists (name key : Bytes) : Command Reply := do
  let (ret, val) ← hget name key
  if ret < 0 then return .error ret
  else if ret = 0 then return .int 0
  else return .int (if val.isSome then 1 else 0)

/-- Later values of a repeated field win. -/
def fieldMap (kvs : List (Bytes × Bytes)) : SortedMap Bytes Bytes :=
  SortedMap.putAll ∅ kvs

/-- A set of byte strings. -/
def byteSet (members : List Bytes) : SortedMap Bytes Unit :=
  SortedMap.putAll ∅ (members.map fun member => (member, ()))

theorem mem_keys_byteSet {members : List Bytes} {member : Bytes} :
    member ∈ (byteSet members).keys ↔ member ∈ members := by
  rw [byteSet, SortedMap.mem_keys_putAll, List.map_map]
  simp

def procHmset (name : Bytes) (kvs : List (Bytes × Bytes)) : Command Reply :=
  if kvs = [] then return .errorInfo "ERR wrong number of arguments for 'hmset' command"
  else do
    let ret ← hmset name (fieldMap kvs)
    if ret < 0 then return .error ret else return .ok

def procHdel (name : Bytes) (fields : List Bytes) : Command Reply :=
  if fields = [] then return .wrongNumberOfArguments
  else do
    let (ret, deleted) ← hdel name (byteSet fields)
    if ret < 0 then return .error ret else return .int deleted

def procHmget (name : Bytes) (reqKeys : List Bytes) : Command Reply :=
  if reqKeys = [] then return .wrongNumberOfArguments
  else do
    let (ret, resMap) ← hmget name reqKeys
    if ret < 0 then return .error ret
    else return .list (reqKeys.map resMap.get)

def procHlen (name : Bytes) : Command Reply := do
  let (ret, size) ← hsize name
  if ret < 0 then return .error ret else return .int size.toNat

def procHset (name key val : Bytes) : Command Reply := do
  let (ret, added) ← hset name key val
  if ret < 0 then return .error ret
  else if ret = 0 then return .int 0
  else return .int added

def procHsetnx (name key val : Bytes) : Command Reply := do
  let (ret, added) ← hsetnx name key val
  if ret < 0 then return .error ret
  else if ret = 0 then return .int 0
  else return .int added

def procHget (name key : Bytes) : Command Reply := do
  let (ret, val) ← hget name key
  if ret < 0 then return .error ret
  else
    match val with
    | some val => return .bulk val
    | none => return .nil

/-- The three listing commands differ in what they keep of an entry. -/
def procHlist (saveKey saveValue : Bool) (name : Bytes) : Command Reply := do
  let (ret, list) ← hgetall name saveKey saveValue
  if ret < 0 then return .error ret
  else if ret = 0 then return .list []
  else return .strings list

def procHgetall (name : Bytes) : Command Reply := procHlist true true name

def procHkeys (name : Bytes) : Command Reply := procHlist true false name

def procHvals (name : Bytes) : Command Reply := procHlist false true name

def procHincrby (name key : Bytes) (by' : Int64) : Command Reply := do
  match ← hincr name key by' with
  | .error code => return .error code
  | .ok newVal => return .int newVal.toInt

/-- A hash command with its arguments. -/
inductive HashCommand
  | hset (key field val : Bytes)
  | hsetnx (key field val : Bytes)
  | hmset (key : Bytes) (kvs : List (Bytes × Bytes))
  | hdel (key : Bytes) (fields : List Bytes)
  | hincrby (key field : Bytes) (by' : Int64)
  | hget (key field : Bytes)
  | hmget (key : Bytes) (fields : List Bytes)
  | hgetall (key : Bytes)
  | hkeys (key : Bytes)
  | hvals (key : Bytes)
  | hexists (key field : Bytes)
  | hlen (key : Bytes)
deriving DecidableEq

namespace HashCommand

/-- The user key a command works on. -/
def key : HashCommand → Bytes
  | hset key _ _ | hsetnx key _ _ | hmset key _ | hdel key _ | hincrby key _ _ | hget key _
  | hmget key _ | hgetall key | hkeys key | hvals key | hexists key _ | hlen key => key

def run : HashCommand → Command Reply
  | hset key field val => procHset key field val
  | hsetnx key field val => procHsetnx key field val
  | hmset key kvs => procHmset key kvs
  | hdel key fields => procHdel key fields
  | hincrby key field by' => procHincrby key field by'
  | hget key field => procHget key field
  | hmget key fields => procHmget key fields
  | hgetall key => procHgetall key
  | hkeys key => procHkeys key
  | hvals key => procHvals key
  | hexists key field => procHexists key field
  | hlen key => procHlen key

end HashCommand

end Vcdb
