import Vcdb.Codec.Integer
import Vcdb.Storage.Zset

/-!
# Ranges of a sorted set

A range by score moves its bounds outwards by a small amount, prints them and parses them again to
position a scan of the score index, and checks the exact bounds on every member it meets.  Ranges
by rank count the entries of the index, ranges by member scan the items.
-/

namespace Vcdb

/-- Entries from `start` down to `stop`.  When the first entry from `start` on has `start` as a
prefix the scan begins there, else at the entry before it. -/
def revIterator (db : DB) (start : Bytes) (stop : Bytes := []) (limit : Option Nat := none) :
    List (Bytes × Bytes) :=
  let below := (db.entries.takeWhile fun entry => entry.1 < start).reverse
  let entries :=
    match db.seek start with
    | [] => below
    | entry :: _ => if start <+: entry.1 then entry :: below else below
  let entries := entries.takeWhile fun entry => stop.isEmpty ∨ stop ≤ entry.1
  match limit with
  | none => entries
  | some n => entries.take n

inductive Direction
  | forward
  | backward
deriving DecidableEq

namespace Double

def quietNan : Double := 0x7FF8000000000000

/-- The quiet NaN with its sign bit set. -/
def negQuietNan : Double := 0xFFF8000000000000

/-- The amount by which score bounds are moved, `1e-15`. -/
def eps : Double := 0x3CD203AF9EE75616

end Double

/-- The score a printed bound stands for. -/
def FloatUnit.double (float : FloatUnit) (text : Bytes) : Double := (float.bytesDouble text).getD 0

/-- Where a scan of the score index stands; without a bound it reaches as far as NaN would sort. -/
def zscanKey (float : FloatUnit) (name score : Bytes) (extreme : Double) (version : UInt16) : Bytes :=
  encodeZscoreKey name [] (if score.isEmpty then extreme else float.double score) version

/-- The entries a scan of the score index runs through. -/
def zscanInternal (float : FloatUnit) (db : DB) (name scoreStart scoreEnd : Bytes)
    (limit : Option Nat) (direction : Direction) (version : UInt16) : List (Bytes × Bytes) :=
  match direction with
  | .forward =>
      iterator db (zscanKey float name scoreStart Double.negQuietNan version)
        (zscanKey float name scoreEnd Double.quietNan version) limit
  | .backward =>
      revIterator db (zscanKey float name scoreStart Double.quietNan version)
        (zscanKey float name scoreEnd Double.negQuietNan version) limit

namespace ZIterator

/-- The records of one version of a sorted set. -/
def belongs (name : Bytes) (version : UInt16) (zk : ZScoreItemKey) : Bool :=
  zk.key = name ∧ zk.version = version

/-- Members and scores up to the first record that does not belong. -/
def items (name : Bytes) (version : UInt16) (entries : List (Bytes × Bytes)) :
    List (Bytes × Double) :=
  (Iterator.collect decodeZScoreItemKey (belongs name version) entries).map
    fun record => (record.1.field, record.1.score)

/-- What is left after a number of records. -/
def skip (name : Bytes) (version : UInt16) : Nat → List (Bytes × Bytes) → List (Bytes × Bytes)
  | 0, entries => entries
  | offset + 1, entries =>
      match Iterator.next decodeZScoreItemKey (belongs name version) entries with
      | (none, rest) => rest
      | (some _, rest) => skip name version offset rest

end ZIterator

/-- The metadata of a sorted set and a snapshot taken behind it. -/
def zsetSnapshot (name : Bytes) : Command (Int × MetaVal × DB) :=
  recordKeyLock name do
    let (ret, zv) ← getZsetMetaVal (encodeMetaKey name)
    if ret ≤ 0 then return (ret, zv, ∅)
    else
      let snapshot ← getSnapshot
      return (ret, zv, snapshot)

/-- The position of a member in the index, counted from either end. -/
def zrankGeneric (float : FloatUnit) (name key : Bytes) (direction : Direction) :
    Command (Int × Int) := do
  let (ret, zv, snapshot) ← zsetSnapshot name
  if ret ≤ 0 then return (ret, 0)
  else
    let entries := zscanInternal float snapshot name [] [] (some (2 ^ 31 - 1)) direction
      zv.version
    let members := (ZIterator.items name zv.version entries).map Prod.fst
    return (1, if key ∈ members then members.idxOf key else -1)

def zrank (float : FloatUnit) (name key : Bytes) : Command (Int × Int) :=
  zrankGeneric float name key .forward

def zrrank (float : FloatUnit) (name key : Bytes) : Command (Int × Int) :=
  zrankGeneric float name key .backward

/-- Members, each followed by its score when scores are asked for. -/
def keyScores (float : FloatUnit) (withscores : Bool) (items : List (Bytes × Double)) :
    List Bytes :=
  items.flatMap fun item => if withscores then [item.1, float.str item.2] else [item.1]

/-- Members by rank; the length of the set is truncated to an `int`. -/
def zrangeGeneric (float : FloatUnit) (name start stop : Bytes) (withscore : Bool)
    (direction : Direction) : Command (Int × List Bytes) :=
  match string2ll start, string2ll stop with
  | some start, some stop => do
      let (ret, zv, snapshot) ← zsetSnapshot name
      if ret ≤ 0 then return (ret, [])
      else
        let llen := zv.length.toUInt32.toInt32.toInt
        let start := if start.toInt < 0 then llen + start.toInt else start.toInt
        let stop := if stop.toInt < 0 then llen + stop.toInt else stop.toInt
        let start := if start < 0 then 0 else start
        if start > stop ∨ start ≥ llen then return (1, [])
        else
          let stop := if stop ≥ llen then llen - 1 else stop
          let entries := zscanInternal float snapshot name [] [] (some (stop + 1).toNat) direction
            zv.version
          let rest := ZIterator.skip name zv.version start.toNat entries
          return (1, keyScores float withscore (ZIterator.items name zv.version rest))
  | _, _ => return (invalidInt, [])

def zrange (float : FloatUnit) (name start stop : Bytes) (withscore : Bool) :
    Command (Int × List Bytes) :=
  zrangeGeneric float name start stop withscore .forward

def zrrange (float : FloatUnit) (name start stop : Bytes) (withscore : Bool) :
    Command (Int × List Bytes) :=
  zrangeGeneric float name start stop withscore .backward

/-- An interval of scores. -/
structure Zrangespec where
  min : Double
  max : Double
  minex : Bool
  maxex : Bool
deriving DecidableEq

/-- One bound; a leading parenthesis excludes it. -/
def zslParseBound (float : FloatUnit) (text : Bytes) (nanCode : Int) :
    Except Int (Double × Bool) :=
  let (exclusive, digits) := if text.head? = some 40 then (true, text.tail) else (false, text)
  let (value, rest) := float.strtod digits
  if value.isNan then .error (if exclusive then nanCode else invalidMinMaxDbl)
  else if rest.head?.getD 0 ≠ 0 then .error invalidMinMaxDbl
  else .ok (value, exclusive)

def zslParseRange (float : FloatUnit) (min max : Bytes) : Except Int Zrangespec := do
  let (min, minex) ← zslParseBound float min nanScore
  let (max, maxex) ← zslParseBound float max invalidMinMaxDbl
  return { min, max, minex, maxex }

namespace Zrangespec

/-- `zslValueGteMin` -/
def gteMin (range : Zrangespec) (value : Double) : Bool :=
  if range.minex then range.min.lt value else range.min.le value

/-- `zslValueLteMax` -/
def lteMax (range : Zrangespec) (value : Double) : Bool :=
  if range.maxex then value.lt range.max else value.le range.max

end Zrangespec

/-- The loop of a range by score: records that do not pass the first test are skipped, the first
one that does not pass the second ends it. -/
def zrangeLoop (starts continues : Double → Bool) :
    List (Bytes × Double) → Int → Int → List (Bytes × Double)
  | [], _, _ => []
  | item :: items, offset, limit =>
      if !starts item.2 then zrangeLoop starts continues items offset limit
      else if !continues item.2 then []
      else if offset = 0 then
        if limit = 0 then [] else item :: zrangeLoop starts continues items offset (limit - 1)
      else zrangeLoop starts continues items (offset - 1) limit

def genericZrangebyscore (float : FloatUnit) (name startScore endScore : Bytes) (withscores : Bool)
    (offset limit : Int) (reverse : Bool) : Command (Int × List Bytes) :=
  if reverse then
    match zslParseRange float endScore startScore with
    | .error code => return (code, [])
    | .ok range => do
        let scoreStart := float.str (float.add range.max Double.eps)
        let scoreEnd := float.str (float.sub range.min Double.eps)
        let (ret, zv, snapshot) ← zsetSnapshot name
        if ret ≤ 0 then return (ret, [])
        else
          let items := ZIterator.items name zv.version
            (zscanInternal float snapshot name scoreStart scoreEnd none .backward zv.version)
          return (1, keyScores float withscores
            (zrangeLoop range.lteMax range.gteMin items offset limit))
  else
    match zslParseRange float startScore endScore with
    | .error code => return (code, [])
    | .ok range => do
        -- An infinite lower bound is recognised first, and then treated like the others.
        let scoreStart := float.str (float.sub range.min Double.eps)
        let scoreEnd :=
          if range.max.isInf then [] else float.str (float.add range.max Double.eps)
        let (ret, zv, snapshot) ← zsetSnapshot name
        if ret ≤ 0 then return (ret, [])
        else
          let items := ZIterator.items name zv.version
            (zscanInternal float snapshot name scoreStart scoreEnd none .forward zv.version)
          return (1, keyScores float withscores
            (zrangeLoop range.gteMin range.lteMax items offset limit))

def zrangebyscore (float : FloatUnit) (name startScore endScore : Bytes) (withscores : Bool)
    (offset limit : Int) : Command (Int × List Bytes) :=
  genericZrangebyscore float name startScore endScore withscores offset limit false

def zrevrangebyscore (float : FloatUnit) (name startScore endScore : Bytes) (withscores : Bool)
    (offset limit : Int) : Command (Int × List Bytes) :=
  genericZrangebyscore float name startScore endScore withscores offset limit true

/-- The loop of a removal by range, with the tests of `zrangeLoop`. -/
def zremrangeLoop {γ : Type} (starts continues : γ → Bool) (member : γ → Bytes) (remove : Bool)
    (name : Bytes) (version : UInt16) :
    List γ → WriteBatch → Int → Command (Except Int (Int × WriteBatch))
  | [], batch, count => return .ok (count, batch)
  | item :: items, batch, count =>
      if !starts item then
        zremrangeLoop starts continues member remove name version items batch count
      else if !continues item then return .ok (count, batch)
      else if remove then do
        let (dret, batch) ← zdelOne batch name (member item) version
        if dret < 0 then return .error dret
        else zremrangeLoop starts continues member remove name version items batch (count + 1)
      else zremrangeLoop starts continues member remove name version items batch (count + 1)

/-- Count, and on demand remove, the members in a range of scores. -/
def zremrangebyscore (float : FloatUnit) (name scoreStart scoreEnd : Bytes) (remove : Bool) :
    Command (Int × Int) :=
  match zslParseRange float scoreStart scoreEnd with
  | .error code => return (code, 0)
  | .ok range =>
      recordKeyLock name do
        let startScore := float.str (float.sub range.min Double.eps)
        let endScore := float.str (float.add range.max Double.eps)
        let (ret, zv) ← getZsetMetaVal (encodeMetaKey name)
        if ret ≤ 0 then return (ret, 0)
        else
          let db ← getSnapshot
          let items := ZIterator.items name zv.version
            (zscanInternal float db name startScore endScore none .forward zv.version)
          match ← zremrangeLoop (fun item => range.gteMin item.2) (fun item => range.lteMax item.2)
              Prod.fst remove name zv.version items [] 0 with
          | .error code => return (code, 0)
          | .ok (count, batch) =>
              if remove then
                let ret ← commitZset name batch zv (-count)
                return (ret, count)
              else return (1, count)

/-- An interval of members; an empty bound stands for no bound. -/
structure Zlexrangespec where
  min : Bytes
  max : Bytes
  minex : Bool
  maxex : Bool
deriving DecidableEq

/-- A text is refused, or the copy of what follows its first byte throws. -/
inductive LexError
  | invalid
  | lengthError
deriving DecidableEq

/-- The signs stand alone, the other bounds follow a parenthesis or a bracket. -/
def zslParseLexRangeItem (item : Bytes) : Except LexError (Bytes × Bool) :=
  match item with
  | [] => .error .lengthError
  | first :: rest =>
      if first = 43 ∨ first = 45 then
        -- A null byte is taken for the end of the text.
        if rest.head?.getD 0 ≠ 0 then .error .invalid else .ok ([], false)
      else if first = 40 then .ok (rest, true)
      else if first = 91 then .ok (rest, false)
      else .error .invalid

def zslParseLexRange (min max : Bytes) : Except LexError Zlexrangespec := do
  let (min, minex) ← zslParseLexRangeItem min
  let (max, maxex) ← zslParseLexRangeItem max
  return { min, max, minex, maxex }

namespace Zlexrangespec

/-- `zslLexValueGteMin` -/
def gteMin (range : Zlexrangespec) (value : Bytes) : Bool :=
  if range.minex then range.min < value else range.min ≤ value

/-- `zslLexValueLteMax` -/
def lteMax (range : Zlexrangespec) (value : Bytes) : Bool :=
  if range.max = [] then true
  else if range.maxex then value < range.max
  else value ≤ range.max

/-- Ranges that are answered without a look at the key. -/
def degenerate (range : Zlexrangespec) (keyStart keyEnd : Bytes) : Bool :=
  keyStart.head? = some 43 ∨ keyEnd.head? = some 45 ∨
    range.min > range.max ∧ keyEnd.head? ≠ some 43 ∨
    range.min = [] ∧ range.max = [] ∧ keyEnd.head? ≠ some 43 ∨
    range.min = range.max ∧ range.max ≠ [] ∧ (range.minex ∨ range.maxex)

end Zlexrangespec

/-- The members a scan by member delivers. -/
def zscanbylexInternal (db : DB) (name keyStart keyEnd : Bytes) (version : UInt16) : List Bytes :=
  (Iterator.collect decodeItemKey (fun zk => zk.key = name ∧ zk.version = version)
      (iterator db (encodeZsetKey name keyStart version)
        (if keyEnd = [] then [] else encodeZsetKey name keyEnd version))).map
    fun record => record.1.field

/-- The loop of a range by member: those kept, and how many have been counted when it ends. -/
def zrangebylexLoop (range : Zlexrangespec) (save : Bool) :
    List Bytes → Int → Int → List Bytes × Int
  | [], _, _ => ([], 0)
  | member :: members, offset, limit =>
      if !range.gteMin member then zrangebylexLoop range save members offset limit
      else if !range.lteMax member then ([], 0)
      else if !save then
        let (keys, count) := zrangebylexLoop range save members offset limit
        (keys, count + 1)
      else if offset = 0 then
        if limit = 0 then ([], 1)
        else
          let (keys, count) := zrangebylexLoop range save members offset (limit - 1)
          (member :: keys, count + 1)
      else
        let (keys, count) := zrangebylexLoop range save members (offset - 1) limit
        (keys, count + 1)

/-- `none` stands for an exception, here and in the other commands by member. -/
def genericZrangebylex (name keyStart keyEnd : Bytes) (offset limit : Int) (save : Bool) :
    Command (Option (Int × List Bytes × Int)) :=
  match zslParseLexRange keyStart keyEnd with
  | .error .lengthError => return none
  | .error .invalid => return some (zsetInvalidStr, [], 0)
  | .ok range =>
      if range.degenerate keyStart keyEnd then return some (1, [], 0)
      else do
        let (ret, zv, snapshot) ← zsetSnapshot name
        if ret ≤ 0 then return some (ret, [], 0)
        else
          let members := zscanbylexInternal snapshot name range.min range.max zv.version
          return some (1, zrangebylexLoop range save members offset limit)

def zlexcount (name keyStart keyEnd : Bytes) : Command (Option (Int × Int)) := do
  let result ← genericZrangebylex name keyStart keyEnd 0 (-1) false
  return result.map fun found => (found.1, found.2.2)

def zrangebylex (name keyStart keyEnd : Bytes) (offset limit : Int) :
    Command (Option (Int × List Bytes)) := do
  let result ← genericZrangebylex name keyStart keyEnd offset limit true
  return result.map fun found => (found.1, found.2.1)

/-- The stack of the members in a range, the last one on top. -/
def zrevrangebylexPush (range : Zlexrangespec) : List Bytes → List Bytes → List Bytes
  | [], stack => stack
  | member :: members, stack =>
      if range.gteMin member then
        if range.lteMax member then zrevrangebylexPush range members (member :: stack) else stack
      else zrevrangebylexPush range members stack

def zrevrangebylexPop : List Bytes → Int → Int → List Bytes
  | [], _, _ => []
  | top :: stack, offset, limit =>
      if offset = 0 then
        if limit = 0 then [] else top :: zrevrangebylexPop stack offset (limit - 1)
      else zrevrangebylexPop stack (offset - 1) limit

def zrevrangebylex (name keyStart keyEnd : Bytes) (offset limit : Int) :
    Command (Option (Int × List Bytes)) :=
  match zslParseLexRange keyEnd keyStart with
  | .error .lengthError => return none
  | .error .invalid => return some (zsetInvalidStr, [])
  | .ok range =>
      if range.degenerate keyEnd keyStart then return some (1, [])
      else do
        let (ret, zv, snapshot) ← zsetSnapshot name
        if ret ≤ 0 then return some (ret, [])
        else
          let members := zscanbylexInternal snapshot name range.min range.max zv.version
          return some (1, zrevrangebylexPop (zrevrangebylexPush range members []) offset limit)

def zremrangebylex (name keyStart keyEnd : Bytes) : Command (Option (Int × Int)) :=
  match zslParseLexRange keyStart keyEnd with
  | .error .lengthError => return none
  | .error .invalid => return some (syntaxErr, 0)
  | .ok range =>
      if range.degenerate keyStart keyEnd then return some (1, 0)
      else
        recordKeyLock name do
          let (ret, zv) ← getZsetMetaVal (encodeMetaKey name)
          if ret ≤ 0 then return some (ret, 0)
          else
            let db ← getSnapshot
            let members := zscanbylexInternal db name range.min range.max zv.version
            match ← zremrangeLoop range.gteMin range.lteMax id true name zv.version members [] 0 with
            | .error code => return some (code, 0)
            | .ok (count, batch) =>
                let ret ← commitZset name batch zv (-count)
                return some (ret, count)

end Vcdb
