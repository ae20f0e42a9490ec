import Vcdb.Proc.Reply
import Vcdb.Storage.Scan

/-!
# Scan commands

The options of a scan, and the reply made from its response vector.
-/

namespace Vcdb

structure ScanParams where
  pattern : Bytes := [42]
  limit : UInt64 := 10
deriving DecidableEq

inductive ParamsResult
  | ok (params : ScanParams)
  | error (code : Int)
  /-- Memory behind the request is read. -/
  | outside
deriving DecidableEq

def matchWord : Bytes := [109, 97, 116, 99, 104]

def countWord : Bytes := [99, 111, 117, 110, 116]

/-- Two arguments are taken at a time until none is left; a last one without a partner is followed
by whatever lies behind the request. -/
def prepareForScanParams : List Bytes → ScanParams → ParamsResult
  | [], params => .ok params
  | word :: rest, params =>
      let key := word.map Conversion.toLower
      if key = matchWord then
        match rest with
        | [] => .outside
        | pattern :: rest => prepareForScanParams rest { params with pattern }
      else if key = countWord then
        match rest with
        | [] => .outside
        | argument :: rest =>
            let (limit, errno) := strToUInt64 argument 0
            if errno = einval then .error invalidInt
            else prepareForScanParams rest { params with limit }
      else .error syntaxErr

/-- What a scan sends back. -/
inductive ScanResponse
  | error (code : Int)
  /-- A cursor, and an array under the length announced for it. -/
  | result (cursor : Bytes) (announced : Int) (elements : List Bytes)
  /-- Memory outside the request or outside the response vector is read. -/
  | outside
deriving DecidableEq

/-- The first element of the vector is read without a look at its length, which is printed as an
`int`. -/
def convertReplyToScanResult : List Bytes → ScanResponse
  | [] => .outside
  | cursor :: elements => .result cursor ((Int32.ofNat (elements.length + 1)).toInt - 1) elements

section

variable (stringmatchlen : Bytes → Bytes → Bool)

/-- The handlers of the scans check the cursor, read the options and convert what was found. -/
def procScanGeneric (scan : Bytes → Nat → Command (Int × List Bytes)) (cursor : Bytes)
    (options : List Bytes) : Command ScanResponse :=
  if (strToUInt64 cursor 0).2 = einval then return .error invalidInt
  else
    match prepareForScanParams options {} with
    | .outside => return .outside
    | .error code => return .error code
    | .ok params => do
        let (ret, resp) ← scan params.pattern params.limit.toNat
        if ret < 0 then return .error ret else return convertReplyToScanResult resp

def procScan (cursor : Bytes) (options : List Bytes) : Command ScanResponse :=
  procScanGeneric (scan stringmatchlen cursor) cursor options

def procHscan (name cursor : Bytes) (options : List Bytes) : Command ScanResponse :=
  procScanGeneric (hscan stringmatchlen name cursor) cursor options

def procSscan (name cursor : Bytes) (options : List Bytes) : Command ScanResponse :=
  procScanGeneric (sscan stringmatchlen name cursor) cursor options

def procZscan (float : FloatUnit) (name cursor : Bytes) (options : List Bytes) :
    Command ScanResponse :=
  procScanGeneric (zscan stringmatchlen float name cursor) cursor options

/-- Every key unless a pattern is given. -/
def procKeys (pattern : Option Bytes) : Command Reply := do
  let db ← getSnapshot
  let found := (mIterator.elements (iterator db [DataType.metadata])).map fun element =>
    mIterator.key element.1
  return .strings (found.filter (patternMatches stringmatchlen (pattern.getD [42])))

end

/-- The number of keys that exist; a key that cannot be read does not count. -/
def existsLoop : List Bytes → Nat → Command Nat
  | [], num => return num
  | key :: keys, num => do
      let ret ← keyExists key
      existsLoop keys (if ret = 1 then num + 1 else num)

def procExists (keys : List Bytes) : Command Reply :=
  if keys = [] then return .wrongNumberOfArguments
  else do
    let num ← existsLoop keys 0
    return .int num

end Vcdb
