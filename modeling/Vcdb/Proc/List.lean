import Vcdb.Proc.Reply
import Vcdb.Storage.List

/-!
# List commands

From the arguments of a request to its reply.
-/

namespace Vcdb

def procLlen (name : Bytes) : Command Reply := do
  let (ret, len) ← lLen name
  if ret < 0 then return .error ret else return .int len.toNat

/-- The four pushing commands differ in the storage operation they call. -/
def procPush (push : Bytes → List Bytes → Command (Int × UInt64)) (name : Bytes)
    (vals : List Bytes) : Command Reply :=
  if vals = [] then return .wrongNumberOfArguments
  else do
    let (ret, len) ← push name vals
    if ret < 0 then return .error ret else return .int len.toNat

def procLpushx (name : Bytes) (vals : List Bytes) : Command Reply := procPush lPushX name vals

def procLpush (name : Bytes) (vals : List Bytes) : Command Reply := procPush lPush name vals

def procRpushx (name : Bytes) (vals : List Bytes) : Command Reply := procPush rPushX name vals

def procRpush (name : Bytes) (vals : List Bytes) : Command Reply := procPush rPush name vals

/-- Reply with a value that may be missing. -/
def replyValue (read : Command (Int × Option Bytes)) : Command Reply := do
  let (ret, val) ← read
  if ret < 0 then return .error ret
  else
    match val with
    | some val => return .bulk val
    | none => return .nil

def procLpop (name : Bytes) : Command Reply := replyValue (lPop name)

def procRpop (name : Bytes) : Command Reply := replyValue (rPop name)

def procLtrim (name : Bytes) (start stop : Int64) : Command Reply := do
  let ret ← ltrim name start stop
  if ret < 0 then return .error ret else return .ok

def procLrange (name : Bytes) (start stop : Int64) : Command Reply := do
  let (ret, list) ← lrange name start stop
  if ret < 0 then return .error ret else return .strings list

def procLindex (name : Bytes) (index : Int64) : Command Reply := replyValue (lIndex name index)

def procLset (name : Bytes) (index : Int64) (item : Bytes) : Command Reply := do
  let ret ← lSet name index item
  if ret < 0 then return .error ret
  else if ret = 0 then return .errorInfo "ERR no such key"
  else return .ok

/-- A list command with its arguments. -/
inductive ListCommand
  | lpush (key : Bytes) (vals : List Bytes)
  | rpush (key : Bytes) (vals : List Bytes)
  | lpushx (key : Bytes) (vals : List Bytes)
  | rpushx (key : Bytes) (vals : List Bytes)
  | lpop (key : Bytes)
  | rpop (key : Bytes)
  | lset (key : Bytes) (index : Int64) (val : Bytes)
  | ltrim (key : Bytes) (start stop : Int64)
  | lindex (key : Bytes) (index : Int64)
  | lrange (key : Bytes) (start stop : Int64)
  | llen (key : Bytes)
deriving DecidableEq

namespace ListCommand

/-- The user key a command works on. -/
def key : ListCommand → Bytes
  | lpush key _ | rpush key _ | lpushx key _ | rpushx key _ | lpop key | rpop key | lset key _ _
  | ltrim key _ _ | lindex key _ | lrange key _ _ | llen key => key

def run : ListCommand → Command Reply
  | lpush key vals => procLpush key vals
  | rpush key vals => procRpush key vals
  | lpushx key vals => procLpushx key vals
  | rpushx key vals => procRpushx key vals
  | lpop key => procLpop key
  | rpop key => procRpop key
  | lset key index val => procLset key index val
  | ltrim key start stop => procLtrim key start stop
  | lindex key index => procLindex key index
  | lrange key start stop => procLrange key start stop
  | llen key => procLlen key

end ListCommand

end Vcdb
