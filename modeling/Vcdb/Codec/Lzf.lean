import Mathlib.Logic.Function.Basic
import Vcdb.Codec.Encode

/-!
# The compressor

A hash table remembers where three bytes were seen last.  It is not cleared before it is used, so
what it says is checked against the input.
-/

namespace Vcdb

def maxLit : Nat := 32

def maxOff : UInt64 := 8192

def maxRef : Nat := 264

/-- What the compressor works on: its place in the input, the output, of which the current run of
`lit` literal bytes is the end, and the hash table. -/
structure LzfState where
  ip : Nat
  out : Bytes
  lit : Nat
  hval : UInt32
  htab : UInt32 → UInt32

section Input

variable (data : Bytes)

def lzfFrst (p : Nat) : UInt32 := ((data.getD p 0).toUInt32 <<< 8) ||| (data.getD (p + 1) 0).toUInt32

def lzfNext (v : UInt32) (p : Nat) : UInt32 := (v <<< 8) ||| (data.getD (p + 2) 0).toUInt32

def lzfIdx (h : UInt32) : UInt32 := ((h >>> 8) - h * 5) &&& 0xFFFF

/-- The difference of the pointers wraps around when the reference does not lie before the place. -/
def lzfFound (ip ref : Nat) : Bool :=
  UInt64.ofNat ip - UInt64.ofNat ref - 1 < maxOff && 0 < ref &&
    data.getD (ref + 2) 0 == data.getD (ip + 2) 0 &&
    data.getD (ref + 1) 0 == data.getD (ip + 1) 0 && data.getD ref 0 == data.getD ip 0

/-- Sixteen comparisons at most; the second result says whether none has failed. -/
def compareRow (same : Nat → Bool) : Nat → Nat → Nat × Bool
  | 0, len => (len, true)
  | n + 1, len => if same (len + 1) then compareRow same n (len + 1) else (len + 1, false)

/-- One byte more at least. -/
def extendMatch (same : Nat → Bool) (maxlen len : Nat) : Nat :=
  if len + 1 < maxlen ∧ same (len + 1) then extendMatch same maxlen (len + 1) else len + 1
termination_by maxlen - len

def matchLength (same : Nat → Bool) (maxlen : Nat) : Nat :=
  if 16 < maxlen then
    let (len, equal) := compareRow same 16 2
    if equal then extendMatch same maxlen len else len
  else extendMatch same maxlen 2

/-- Fill in the length of the current run. -/
def stopRun (out : Bytes) (lit : Nat) : Bytes := out.set (out.length - lit - 1) (UInt8.ofNat lit - 1)

/-- What a run of no bytes takes up. -/
def emptyRun (lit : Nat) : Nat := if lit = 0 then 1 else 0

/-- A run of no bytes is taken back. -/
def undoRun (out : Bytes) (lit : Nat) : Bytes := if lit = 0 then out.dropLast else out

/-- A place for the length of the next run. -/
def startRun (out : Bytes) : Bytes := out ++ [0]

/-- The bytes of a back reference to `octets` bytes, `off + 1` before the place. -/
def referenceBytes (off octets : Nat) : Bytes :=
  let len := octets - 2
  if len < 7 then [UInt8.ofNat (off / 256 + len * 32), UInt8.ofNat off]
  else [UInt8.ofNat (off / 256 + 7 * 32), UInt8.ofNat (len - 7), UInt8.ofNat off]

def putReference (outLen : Nat) (s : LzfState) (ref : Nat) : Option LzfState :=
  let off := s.ip - ref - 1
  let maxlen := min (data.length - s.ip - 2) maxRef
  if outLen ≤ s.out.length + 4 ∧ outLen ≤ s.out.length - emptyRun s.lit + 4 then none
  else
    let octets := matchLength (fun k => data.getD (ref + k) 0 == data.getD (s.ip + k) 0) maxlen
    let ip := s.ip + octets
    let out := startRun (undoRun (stopRun s.out s.lit) s.lit ++ referenceBytes off octets)
    if data.length ≤ ip + 2 then some { s with ip, out, lit := 0 }
    else
      -- The last two places of the reference are remembered.
      let first := lzfNext data (lzfFrst data (ip - 2)) (ip - 2)
      let second := lzfNext data first (ip - 1)
      let htab := Function.update s.htab (lzfIdx first) (UInt32.ofNat (ip - 2))
      some { ip, out, lit := 0, hval := second,
             htab := Function.update htab (lzfIdx second) (UInt32.ofNat (ip - 1)) }

/-- One more literal byte. -/
def putLiteral (s : LzfState) : LzfState :=
  let out := s.out ++ [data.getD s.ip 0]
  if s.lit + 1 = maxLit then
    { s with ip := s.ip + 1, out := startRun (stopRun out (s.lit + 1)), lit := 0 }
  else { s with ip := s.ip + 1, out, lit := s.lit + 1 }

def lzfStep (outLen : Nat) (s : LzfState) : Option LzfState :=
  let hval := lzfNext data s.hval s.ip
  let ref := (s.htab (lzfIdx hval)).toNat
  let s := { s with hval, htab := Function.update s.htab (lzfIdx hval) (UInt32.ofNat s.ip) }
  if lzfFound data s.ip ref then putReference data outLen s ref
  else if outLen ≤ s.out.length then none
  else some (putLiteral data s)

/-! ### The length of a match -/

theorem extendMatch_spec (same : Nat → Bool) (maxlen len : Nat) :
    len < extendMatch same maxlen len ∧ extendMatch same maxlen len ≤ max (len + 1) maxlen ∧
      ∀ k, len < k → k < extendMatch same maxlen len → same k := by
  fun_induction extendMatch same maxlen len with
  | case1 len more ih =>
      obtain ⟨longer, bounded, equal⟩ := ih
      refine ⟨by omega, by omega, fun k above below => ?_⟩
      by_cases first : k = len + 1
      · exact first ▸ more.2
      · exact equal k (by omega) below
  | case2 len stops => exact ⟨by omega, by omega, fun k above below => by omega⟩

theorem compareRow_spec (same : Nat → Bool) (n len : Nat) :
    (∀ k, len < k → k < (compareRow same n len).1 → same k) ∧
      if (compareRow same n len).2 then
        (compareRow same n len).1 = len + n ∧ (0 < n → same (len + n))
      else len < (compareRow same n len).1 ∧ (compareRow same n len).1 ≤ len + n := by
  induction n generalizing len with
  | zero => exact ⟨fun k above below => by rw [compareRow] at below; omega, rfl, fun no => by omega⟩
  | succ n ih =>
      obtain ⟨equal, ends⟩ := ih (len + 1)
      rw [compareRow]
      by_cases next : same (len + 1) = true
      · rw [if_pos next]
        refine ⟨fun k above below => ?_, ?_⟩
        · by_cases first : k = len + 1
          · exact first ▸ next
          · exact equal k (by omega) below
        · split_ifs at ends ⊢
          · refine ⟨by omega, fun _ => ?_⟩
            by_cases last : n = 0
            · exact last ▸ next
            · rw [show len + (n + 1) = len + 1 + n by omega]
              exact ends.2 (by omega)
          · exact ⟨by omega, by omega⟩
      · rw [if_neg next]
        exact ⟨fun k above below => by simp only at below; omega, by simp⟩

/-- A match is as long as it claims, and ends where the input does. -/
theorem matchLength_spec (same : Nat → Bool) {maxlen : Nat} (room : 0 < maxlen) :
    2 < matchLength same maxlen ∧ matchLength same maxlen ≤ maxlen + 2 ∧
      matchLength same maxlen ≤ max 19 maxlen ∧
      ∀ k, 2 < k → k < matchLength same maxlen → same k := by
  rw [matchLength]
  split_ifs with long
  · obtain ⟨equal, ends⟩ := compareRow_spec same 16 2
    simp only
    split_ifs at ends ⊢ with whole
    · obtain ⟨longer, bounded, more⟩ := extendMatch_spec same maxlen (compareRow same 16 2).1
      refine ⟨by omega, by omega, by omega, fun k above below => ?_⟩
      by_cases early : k < (compareRow same 16 2).1
      · exact equal k above early
      · by_cases last : k = (compareRow same 16 2).1
        · rw [last, ends.1]
          exact ends.2 (by decide)
        · exact more k (by omega) below
    · exact ⟨by omega, by omega, by omega, equal⟩
  · obtain ⟨longer, bounded, more⟩ := extendMatch_spec same maxlen 2
    exact ⟨longer, by omega, by omega, more⟩

theorem lt_matchLength (same : Nat → Bool) (maxlen : Nat) : 2 < matchLength same maxlen := by
  by_cases room : 0 < maxlen
  · exact (matchLength_spec same room).1
  · rw [matchLength, if_neg (by omega)]
    exact (extendMatch_spec same maxlen 2).1

theorem putLiteral_ip (s : LzfState) : (putLiteral data s).ip = s.ip + 1 := by
  rw [putLiteral]
  split_ifs
  · rfl
  · rfl

/-- What a back reference leaves. -/
theorem putReference_eq_some {outLen ref : Nat} {s s' : LzfState}
    (put : putReference data outLen s ref = some s') :
    ∃ octets, octets = matchLength (fun k => data.getD (ref + k) 0 == data.getD (s.ip + k) 0)
        (min (data.length - s.ip - 2) maxRef) ∧
      s'.ip = s.ip + octets ∧ s'.lit = 0 ∧
      s'.out = startRun (undoRun (stopRun s.out s.lit) s.lit ++
        referenceBytes (s.ip - ref - 1) octets) ∧
      s.out.length - emptyRun s.lit + 4 < outLen := by
  have room : ¬(outLen ≤ s.out.length + 4 ∧
      outLen ≤ s.out.length - emptyRun s.lit + 4) →
        s.out.length - emptyRun s.lit + 4 < outLen := fun full => by
    by_contra tight
    exact full ⟨by omega, by omega⟩
  rw [putReference] at put
  simp only at put
  split_ifs at put with full last
  · obtain rfl := Option.some_inj.mp put
    exact ⟨_, rfl, rfl, rfl, rfl, room full⟩
  · obtain rfl := Option.some_inj.mp put
    exact ⟨_, rfl, rfl, rfl, rfl, room full⟩

theorem lzfStep_ip {outLen : Nat} {s s' : LzfState} (step : lzfStep data outLen s = some s') :
    s.ip < s'.ip := by
  rw [lzfStep] at step
  simp only at step
  split_ifs at step
  · obtain ⟨octets, rfl, ip, _⟩ := putReference_eq_some data step
    have long := lt_matchLength (fun k => data.getD
      ((s.htab (lzfIdx (lzfNext data s.hval s.ip))).toNat + k) 0 == data.getD (s.ip + k) 0)
        (min (data.length - s.ip - 2) maxRef)
    rw [ip]
    simp only
    omega
  · obtain rfl := Option.some_inj.mp step
    rw [putLiteral_ip]
    exact Nat.lt_succ_self _

def lzfLoop (outLen : Nat) (s : LzfState) : Option LzfState :=
  if _inside : s.ip + 2 < data.length then
    match _step : lzfStep data outLen s with
    | none => none
    | some s' => lzfLoop outLen s'
  else some s
termination_by data.length - s.ip
decreasing_by
  have further := lzfStep_ip data _step
  omega

/-- The bytes that are left. -/
def putLiterals : Nat → LzfState → LzfState
  | 0, s => s
  | n + 1, s => putLiterals n (putLiteral data s)

def lzfStart (htab : UInt32 → UInt32) : LzfState :=
  { ip := 0, out := startRun [], lit := 0, hval := lzfFrst data 0, htab }

/-- The compressed bytes, with whatever the hash table holds at first; none when they do not fit. -/
def lzfCompress (htab : UInt32 → UInt32) (outLen : Nat) : Bytes :=
  if data.length = 0 ∨ outLen = 0 then []
  else
    match lzfLoop data outLen (lzfStart data htab) with
    | none => []
    | some s =>
        if outLen < s.out.length + 3 then []
        else
          let s := putLiterals data (data.length - s.ip) s
          undoRun (stopRun s.out s.lit) s.lit

/-- What has been compressed came through the loop with room to spare. -/
theorem lzfCompress_spec {htab : UInt32 → UInt32} {outLen : Nat}
    (compressed : lzfCompress data htab outLen ≠ []) :
    ∃ s, lzfLoop data outLen (lzfStart data htab) = some s ∧ s.out.length + 3 ≤ outLen ∧
      lzfCompress data htab outLen =
        undoRun (stopRun (putLiterals data (data.length - s.ip) s).out
          (putLiterals data (data.length - s.ip) s).lit)
            (putLiterals data (data.length - s.ip) s).lit := by
  rw [lzfCompress] at compressed ⊢
  by_cases nothing : data.length = 0 ∨ outLen = 0
  · exact absurd (if_pos nothing) compressed
  · rw [if_neg nothing] at compressed ⊢
    cases loop : lzfLoop data outLen (lzfStart data htab) with
    | none =>
        rw [loop] at compressed
        exact absurd rfl compressed
    | some s =>
        rw [loop] at compressed
        simp only at compressed ⊢
        by_cases full : outLen < s.out.length + 3
        · exact absurd (if_pos full) compressed
        · exact ⟨s, rfl, not_lt.mp full, if_neg full⟩

/-! ### The room that is used -/

theorem length_stopRun (out : Bytes) (lit : Nat) : (stopRun out lit).length = out.length :=
  List.length_set

theorem length_putLiteral (s : LzfState) :
    (putLiteral data s).out.length = s.out.length + 1 ∧ (putLiteral data s).lit = s.lit + 1 ∨
      (putLiteral data s).out.length = s.out.length + 2 ∧ (putLiteral data s).lit = 0 := by
  rw [putLiteral]
  split_ifs
  · right
    simp [startRun, length_stopRun]
  · left
    simp

theorem length_referenceBytes (off octets : Nat) : (referenceBytes off octets).length ≤ 3 := by
  rw [referenceBytes]
  split_ifs
  · exact Nat.le_succ 2
  · exact Nat.le_refl 3

/-- No step puts more than the place for another run behind the block. -/
theorem lzfStep_out {outLen : Nat} {s s' : LzfState} (step : lzfStep data outLen s = some s') :
    s'.out.length ≤ outLen + 1 := by
  rw [lzfStep] at step
  simp only at step
  split_ifs at step with found full
  · obtain ⟨octets, _, _, _, out, room⟩ := putReference_eq_some data step
    have bytes := length_referenceBytes
      (s.ip - (s.htab (lzfIdx (lzfNext data s.hval s.ip))).toNat - 1) octets
    simp only at out room
    rw [out, startRun, List.length_append, List.length_append, undoRun]
    rw [emptyRun] at room
    split_ifs at room ⊢
    · rw [List.length_dropLast, length_stopRun, List.length_singleton]
      omega
    · rw [length_stopRun, List.length_singleton]
      omega
  · obtain rfl := Option.some_inj.mp step
    have grown := length_putLiteral data { s with
      hval := lzfNext data s.hval s.ip
      htab := Function.update s.htab (lzfIdx (lzfNext data s.hval s.ip)) (UInt32.ofNat s.ip) }
    simp only at grown full
    omega

theorem lzfLoop_ended {outLen : Nat} {s s' : LzfState} (loop : lzfLoop data outLen s = some s') :
    data.length ≤ s'.ip + 2 := by
  fun_induction lzfLoop data outLen s with
  | case1 s more none' => cases loop
  | case2 s more next step ih => exact ih loop
  | case3 s ended =>
      obtain rfl := Option.some_inj.mp loop
      omega

/-- At most one of the last bytes begins another run. -/
theorem length_putLiterals {count : Nat} (few : count ≤ 2) (s : LzfState) :
    (putLiterals data count s).out.length ≤ s.out.length + 3 := by
  rcases count with _ | _ | _ | count
  · exact Nat.le_add_right _ 3
  · have first := length_putLiteral data s
    rw [putLiterals, putLiterals]
    omega
  · have first := length_putLiteral data s
    have second := length_putLiteral data (putLiteral data s)
    have short : (putLiteral data s).lit = 0 →
        (putLiteral data (putLiteral data s)).lit = 1 := by
      intro begun
      rw [putLiteral, begun]
      rfl
    rw [putLiterals, putLiterals, putLiterals]
    omega
  · omega

/-- The compressed bytes fit their block. -/
theorem length_lzfCompress (htab : UInt32 → UInt32) (outLen : Nat) :
    (lzfCompress data htab outLen).length ≤ outLen := by
  by_cases compressed : lzfCompress data htab outLen = []
  · rw [compressed]
    exact Nat.zero_le _
  · obtain ⟨s, loop, room, written⟩ := lzfCompress_spec data compressed
    have ended := lzfLoop_ended data loop
    have tail := length_putLiterals data (by omega : data.length - s.ip ≤ 2) s
    rw [written, undoRun]
    split_ifs
    · rw [List.length_dropLast, length_stopRun]
      omega
    · rw [length_stopRun]
      omega

end Input

end Vcdb
