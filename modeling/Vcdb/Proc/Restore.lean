import Vcdb.Proc.Kv
import Vcdb.Storage.Dump
import Vcdb.Storage.Restore

/-!
# The DUMP and RESTORE commands

From the arguments of a request to its reply, or to the end of the process.
-/

namespace Vcdb

/-- DUMP compresses. -/
def procDump (lzfCompress : (data : Bytes) → (outLen : Nat) → Bytes) (crc64 : Bytes → UInt64)
    (float : FloatUnit) (key : Bytes) : Command Reply := do
  let (ret, val, _) ← dump lzfCompress crc64 float key false true
  if ret < 0 then return .error ret
  else if ret = 0 then return .nil
  else return .bulk val

def procRestore (runtime : Runtime) (key : Bytes) (ttl : Int64) (data : Bytes) (replace : Bool) :
    Command (Except Crash Reply) :=
  if ttl < 0 then return .ok (.error invalidExTime)
  else do
    match ← restore runtime key ttl data replace with
    | .error crash => return .error crash
    | .ok (ret, val) => if ret < 0 then return .ok (.error ret) else return .ok (.status val)

/-- Whether the option behind a dump is REPLACE, in any case; anything behind it is not read. -/
def replaceOption : List Bytes → Option Bool
  | [] => some false
  | word :: _ =>
      if word.map Conversion.toLower = [114, 101, 112, 108, 97, 99, 101] then some true else none

/-- RESTORE with its arguments as they are sent. -/
def procRestoreRequest (runtime : Runtime) (key ttl data : Bytes) (options : List Bytes) :
    Command (Except Crash Reply) :=
  match int64Argument ttl with
  | none => return .ok (.error invalidExTime)
  | some ttl =>
      if ttl < 0 then return .ok (.error invalidExTime)
      else
        match replaceOption options with
        | none => return .ok (.error syntaxErr)
        | some replace => procRestore runtime key ttl data replace

end Vcdb
