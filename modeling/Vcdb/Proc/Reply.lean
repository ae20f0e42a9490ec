import Vcdb.Storage.Engine

/-!
# Replies

What a command sends back to its client.
-/

namespace Vcdb

inductive Reply
  /-- The message of an error code. -/
  | error (code : Int)
  /-- An error with its own message. -/
  | errorInfo (message : String)
  | nil
  | status (message : String)
  | bulk (val : Bytes)
  | int (n : Int)
  /-- A list of strings and missing values. -/
  | list (vals : List (Option Bytes))
  /-- None is sent, as an exception ends the process. -/
  | terminated
deriving DecidableEq

namespace Reply

def ok : Reply := status "OK"

/-- A list of strings. -/
def strings (vals : List Bytes) : Reply := list (vals.map some)

def wrongNumberOfArguments : Reply := errorInfo "ERR wrong number of arguments"

def IsError : Reply → Prop
  | error _ | errorInfo _ => True
  | _ => False

end Reply

theorem strings_inj {left right : List Bytes} :
    Reply.strings left = Reply.strings right ↔ left = right := by
  rw [Reply.strings, Reply.strings, Reply.list.injEq]
  exact (List.map_injective_iff.mpr (Option.some_injective _)).eq_iff

end Vcdb
