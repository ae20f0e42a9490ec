import Vcdb.Codec.Number
import Vcdb.Storage.Hash
import Vcdb.Storage.Set
import Vcdb.Storage.ZsetRange

/-!
# Scans in pages

A page tests a number of elements against a pattern and remembers the key of the element behind
them.  The four scans differ in the iterator they run and in where they start.
-/

namespace Vcdb

/-- A typed iterator: which raw keys it delivers, and what a scan sends of an element. -/
structure ScanIterator (γ : Type) where
  decode : Bytes → Option γ
  belongs : γ → Bool
  key : γ → Bytes
  /-- Texts for an element and the value stored with it. -/
  process : γ → Bytes → List Bytes

namespace ScanIterator

variable {γ : Type} (mit : ScanIterator γ)

def next (entries : List (Bytes × Bytes)) : Option (Bytes × γ × Bytes) × List (Bytes × Bytes) :=
  Iterator.next mit.decode mit.belongs entries

/-- What is left to deliver. -/
def elements (entries : List (Bytes × Bytes)) : List (γ × Bytes) :=
  Iterator.collect mit.decode mit.belongs entries

end ScanIterator

/-- The metadata of every key; other records end the iteration. -/
def mIterator : ScanIterator (Option Bytes) where
  decode ks := if ks.head? = some DataType.metadata then (decodeMetaKey ks).map some else some none
  belongs key := key.isSome
  key key := key.getD []
  process key _ := [key.getD []]

def hIterator (name : Bytes) (version : UInt16) : ScanIterator ItemKey where
  decode := decodeItemKey
  belongs hk := hk.key = name ∧ hk.version = version
  key hk := hk.field
  process hk val := [hk.field, val]

def sIterator (name : Bytes) (version : UInt16) : ScanIterator ItemKey where
  decode := decodeItemKey
  belongs sk := sk.key = name ∧ sk.version = version
  key sk := sk.field
  process sk _ := [sk.field]

def zIterator (float : FloatUnit) (name : Bytes) (version : UInt16) : ScanIterator ZScoreItemKey where
  decode := decodeZScoreItemKey
  belongs := ZIterator.belongs name version
  key zk := zk.field
  process zk _ := [zk.field, float.str zk.score]

/-- What the loop of a scan leaves behind. -/
structure ScanState (γ : Type) where
  /-- The elements tested against the pattern. -/
  examined : List (γ × Bytes)
  resp : List Bytes
  limit : Nat
  rest : List (Bytes × Bytes)

/-- One page: its elements, and the key to go on from unless the scan has ended. -/
structure ScanPage (γ : Type) where
  examined : List (γ × Bytes)
  resp : List Bytes
  next : Option Bytes

section

variable (stringmatchlen : Bytes → Bytes → Bool)

/-- Whether a pattern lets a key through. -/
def patternMatches (pattern key : Bytes) : Bool := pattern = [42] || stringmatchlen pattern key

variable {γ : Type} (mit : ScanIterator γ) (pattern : Bytes)

/-- The loop advances before it looks at the limit. -/
def scanLoop (limit : Nat) (entries : List (Bytes × Bytes)) : ScanState γ :=
  match mit.next entries with
  | (none, rest) => ⟨[], [], limit, rest⟩
  | (some (_, item, val), rest) =>
      match limit with
      | 0 => ⟨[], [], 0, rest⟩
      | limit + 1 =>
          let sent :=
            if patternMatches stringmatchlen pattern (mit.key item) then mit.process item val else []
          if limit = 0 then ⟨[(item, val)], sent, 0, rest⟩
          else
            let later := scanLoop limit rest
            ⟨(item, val) :: later.examined, sent ++ later.resp, later.limit, later.rest⟩

def doScanGeneric (limit : Nat) (entries : List (Bytes × Bytes)) : ScanPage γ :=
  let state := scanLoop stringmatchlen mit pattern limit entries
  match (mit.next state.rest).1 with
  | none => ⟨state.examined, state.resp, none⟩
  | some (key, _) =>
      if state.limit ≠ 0 then ⟨state.examined, state.resp, none⟩
      else ⟨state.examined, state.resp, some key⟩

/-- Where a scan begins: at the first key for cursor `0`, else where the cursor was given out, and
at the start of the store when it is not known. -/
def scanStart (cursor first : Bytes) : Command Bytes :=
  if cursor = [48] then return first
  else
    let (number, errno) := strToUInt64 cursor 0
    if errno = einval then return []
    else do
      match ← findElementByRedisCursor number.toNat with
      | none => return []
      | some element => return element

/-- A page in the flat form of the response vector: the next cursor, then the elements. -/
def scanFrom (limit : Nat) (start : Bytes) : Command (List Bytes) := do
  let db ← getSnapshot
  let page := doScanGeneric stringmatchlen mit pattern limit (iterator db start)
  match page.next with
  | none => return [48] :: page.resp
  | some key =>
      let tCursor ← getNewRedisCursor key
      return strUInt64 (UInt64.ofNat tCursor) :: page.resp

end

section

variable (stringmatchlen : Bytes → Bytes → Bool)

def scan (cursor pattern : Bytes) (limit : Nat) : Command (Int × List Bytes) := do
  let start ← scanStart cursor [DataType.metadata]
  let resp ← scanFrom stringmatchlen mIterator pattern limit start
  return (1, resp)

/-- HSCAN, SSCAN and ZSCAN; nothing is answered for a key that does not exist. -/
def scanCollection {γ : Type} (getMeta : Bytes → Command (Int × MetaVal))
    (iterate : UInt16 → ScanIterator γ) (first : UInt16 → Bytes) (name cursor pattern : Bytes)
    (limit : Nat) : Command (Int × List Bytes) := do
  let (ret, mv) ← getMeta (encodeMetaKey name)
  if ret ≠ 1 then return (ret, [])
  else
    let start ← scanStart cursor (first mv.version)
    let resp ← scanFrom stringmatchlen (iterate mv.version) pattern limit start
    return (1, resp)

def hscan (name cursor pattern : Bytes) (limit : Nat) : Command (Int × List Bytes) :=
  scanCollection stringmatchlen getHashMetaVal (hIterator name) (encodeHashKey name []) name cursor
    pattern limit

def sscan (name cursor pattern : Bytes) (limit : Nat) : Command (Int × List Bytes) :=
  scanCollection stringmatchlen getSetMetaVal (sIterator name) (encodeSetKey name []) name cursor
    pattern limit

def zscan (float : FloatUnit) (name cursor pattern : Bytes) (limit : Nat) :
    Command (Int × List Bytes) :=
  scanCollection stringmatchlen getZsetMetaVal (zIterator float name) (encodeZscorePrefix name) name
    cursor pattern limit

end

/-- Whether a key exists. -/
def keyExists (key : Bytes) : Command Int := do
  match ← dbGet (encodeMetaKey key) with
  | .notFound => return 0
  | .error => return storageErr
  | .ok metaVal =>
      -- the byte behind the end of a string is null
      let del := metaVal[posDel]?.getD 0
      if del = keyEnabledMask then return 1
      else if del = keyDeleteMask then return 0
      else return mkeyDecodecErr

end Vcdb
