import Vcdb.Proc.Kv
import Vcdb.Proc.List
import Vcdb.Proc.Set
import Vcdb.Proc.Zset

/-!
# Requests

The commands that change strings, collections and expiries, with their arguments as they are sent.
-/

namespace Vcdb

/-- Arithmetic and text of the floating-point types. -/
structure Floats where
  double : FloatUnit
  longDouble : LongDoubleUnit
  /-- The largest double. -/
  dblMax : longDouble.LongDouble

/-- A command that changes a string in place. -/
inductive StringCommand
  | append (key value : Bytes)
  | incr (key : Bytes) (by' : Option Bytes)
  | decr (key : Bytes) (by' : Option Bytes)
  | incrbyfloat (key by' : Bytes)
  | setbit (key offset bit : Bytes)
  | setrange (key start value : Bytes)
deriving DecidableEq

namespace StringCommand

/-- The user key a command works on. -/
def key : StringCommand → Bytes
  | append key _ | incr key _ | decr key _ | incrbyfloat key _ | setbit key _ _
  | setrange key _ _ => key

def run (float : LongDoubleUnit) : StringCommand → Command Reply
  | append key value => procAppend key value
  | incr key by' => procIncr key by'
  | decr key by' => procDecr key by'
  | incrbyfloat key by' => procIncrbyfloat float key by'
  | setbit key offset bit => procSetbit key offset bit
  | setrange key start value => procSetrange key start value

end StringCommand

/-- A command that works on the value of one key. -/
inductive ValueCommand
  | string (command : StringCommand)
  | hash (command : HashCommand)
  | hincrbyfloat (key field by' : Bytes)
  | set (command : SetCommand)
  | list (command : ListCommand)
  | zset (command : ZsetCommand)
deriving DecidableEq

namespace ValueCommand

def key : ValueCommand → Bytes
  | string command => command.key
  | hash command => command.key
  | hincrbyfloat key _ _ => key
  | set command => command.key
  | list command => command.key
  | zset command => command.key

def run (floats : Floats) : ValueCommand → Command Reply
  | string command => command.run floats.longDouble
  | hash command => command.run
  | hincrbyfloat key field by' => procHincrbyfloat floats.longDouble floats.dblMax key field by'
  | set command => command.run
  | list command => command.run
  | zset command => command.run floats.double

end ValueCommand

/-- A command with its arguments. -/
inductive Request
  | value (command : ValueCommand)
  | set (key val : Bytes) (options : List Bytes)
  | setnx (key val : Bytes)
  | setex (key seconds val : Bytes)
  | psetex (key millis val : Bytes)
  | getset (key val : Bytes)
  | mset (kvs : List (Bytes × Bytes))
  | del (keys : List Bytes)
  | expire (key seconds : Bytes)
  | pexpire (key millis : Bytes)
  | expireat (key seconds : Bytes)
  | pexpireat (key millis : Bytes)
  | persist (key : Bytes)
deriving DecidableEq

def Request.run (floats : Floats) : Request → Command Reply
  | value command => command.run floats
  | set key val options => procSet key val options
  | setnx key val => procSetnx key val
  | setex key seconds val => procSetex key seconds val
  | psetex key millis val => procPsetex key millis val
  | getset key val => procGetset key val
  | mset kvs => procMset kvs
  | del keys => procDel keys
  | expire key seconds => procExpire key seconds
  | pexpire key millis => procPexpire key millis
  | expireat key seconds => procExpireat key seconds
  | pexpireat key millis => procPexpireat key millis
  | persist key => procPersist key

end Vcdb
