import Vcdb.Proc.Hash
import Vcdb.Storage.Set

/-!
# Set commands

From the arguments of a request to its reply.
-/

namespace Vcdb

def procSadd (name : Bytes) (members : List Bytes) : Command Reply :=
  if members = [] then return .wrongNumberOfArguments
  else do
    let (ret, num) ← sadd name (byteSet members)
    if ret < 0 then return .error ret else return .int num

def procSrem (name : Bytes) (members : List Bytes) : Command Reply :=
  if members = [] then return .wrongNumberOfArguments
  else do
    let (ret, num) ← srem name members
    if ret < 0 then return .error ret else return .int num

def procScard (name : Bytes) : Command Reply := do
  let (ret, len) ← scard name
  if ret < 0 then return .error ret else return .int len.toNat

def procSismember (name member : Bytes) : Command Reply := do
  let (ret, ismember) ← sismember name member
  if ret < 0 then return .error ret
  else if ret = 0 then return .int 0
  else return .int (if ismember then 1 else 0)

def procSmembers (name : Bytes) : Command Reply := do
  let (ret, members) ← smembers name
  if ret < 0 then return .error ret else return .strings members

/-- One member is popped when no count is given. -/
def procSpop (name : Bytes) (popCount : Option Int64) : Command Reply := do
  let (ret, members) ← spop name (popCount.getD 1)
  if ret < 0 then return .error ret else return .strings members

/-- A set command with its arguments. -/
inductive SetCommand
  | sadd (key : Bytes) (members : List Bytes)
  | srem (key : Bytes) (members : List Bytes)
  | spop (key : Bytes) (count : Option Int64)
  | scard (key : Bytes)
  | sismember (key member : Bytes)
  | smembers (key : Bytes)
deriving DecidableEq

namespace SetCommand

/-- The user key a command works on. -/
def key : SetCommand → Bytes
  | sadd key _ | srem key _ | spop key _ | scard key | sismember key _ | smembers key => key

def run : SetCommand → Command Reply
  | sadd key members => procSadd key members
  | srem key members => procSrem key members
  | spop key count => procSpop key count
  | scard key => procScard key
  | sismember key member => procSismember key member
  | smembers key => procSmembers key

end SetCommand

end Vcdb
