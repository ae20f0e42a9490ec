import Vcdb.Codec.Lzf
import Vcdb.Codec.RdbRoundTrip
import Vcdb.Lib.Lz

/-!
# What the compressor writes can be read

The output of the compressor is a chain of runs and back references that tells the input, and the
decompressor follows it.
-/

namespace Vcdb

open Lz (Token Chain repeatBack)

/-- A token as the compressor writes it. -/
def lzfToken : Token UInt8 → Bytes
  | .literal run => (UInt8.ofNat run.length - 1) :: run
  | .copy offset len => referenceBytes (offset - 1) len

/-- Tokens that can be written. -/
def LzfFits : Token UInt8 → Prop
  | .literal run => 0 < run.length ∧ run.length ≤ maxLit
  | .copy offset len => offset ≤ 8192 ∧ 2 < len ∧ len ≤ maxRef

/-! ### The decompressor -/

theorem copyBack_eq (offset len : Nat) (out : Bytes) :
    copyBack offset len out = repeatBack offset len out := by
  induction len generalizing out with
  | zero => rfl
  | succ len ih => exact ih _

theorem toNat_shiftRight_five (ctrl : UInt8) : (ctrl >>> 5).toNat = ctrl.toNat / 32 := by
  rw [UInt8.toNat_shiftRight, Nat.shiftRight_eq_div_pow]
  rfl

theorem toNat_and_low (ctrl : UInt8) : (ctrl &&& 0x1F).toNat = ctrl.toNat % 32 := by
  rw [UInt8.toNat_and]
  exact Nat.and_two_pow_sub_one_eq_mod ctrl.toNat 5

/-- A back reference is read as it was written. -/
theorem backReference_referenceBytes {off len : Nat} (near : off < 8192) (long : 2 < len)
    (short : len ≤ maxRef) (rest : Bytes) :
    ∃ ctrl more, referenceBytes off len = ctrl :: more ∧ 32 ≤ ctrl ∧
      backReference ctrl (more ++ rest) = some (len, off + 1, rest) := by
  have top : off / 256 < 32 := by omega
  have low : (UInt8.ofNat off).toNat = off % 256 := UInt8.toNat_ofNat
  have bound : len ≤ 264 := short
  rw [referenceBytes]
  by_cases few : len - 2 < 7
  · have ctrl : (UInt8.ofNat (off / 256 + (len - 2) * 32)).toNat = off / 256 + (len - 2) * 32 :=
      UInt8.toNat_ofNat_of_lt' (show _ < 256 by omega)
    rw [if_pos few]
    refine ⟨_, _, rfl, ?_, ?_⟩
    · rw [UInt8.le_iff_toNat_le, ctrl]
      change 32 ≤ _
      omega
    · simp only [List.singleton_append, backReference, toNat_shiftRight_five, toNat_and_low, ctrl,
        low]
      rw [if_neg (by omega)]
      congr 2
      · omega
      · congr 1
        omega
  · have ctrl : (UInt8.ofNat (off / 256 + 7 * 32)).toNat = off / 256 + 7 * 32 :=
      UInt8.toNat_ofNat_of_lt' (show _ < 256 by omega)
    have count : (UInt8.ofNat (len - 2 - 7)).toNat = len - 2 - 7 :=
      UInt8.toNat_ofNat_of_lt' (show _ < 256 by omega)
    rw [if_neg few]
    refine ⟨_, _, rfl, ?_, ?_⟩
    · rw [UInt8.le_iff_toNat_le, ctrl]
      change 32 ≤ _
      omega
    · simp only [List.cons_append, List.nil_append, backReference, toNat_shiftRight_five,
        toNat_and_low, ctrl, low, count]
      rw [if_pos (by omega)]
      congr 2
      · omega
      · congr 1
        omega

section Decompressing

variable {text : Bytes} {token : Token UInt8} {tokens : List (Token UInt8)} {start stop : Nat}

theorem lzfDecompress_token (fits : LzfFits token) (spans : token.Spans text start stop)
    (rest : Bytes) :
    lzfDecompress true text.length (text.take start) (lzfToken token ++ rest) =
      lzfDecompress true text.length (text.take stop) rest := by
  have inside := spans.inside
  have grown := spans.expand
  cases spans with
  | @literal _ run within shown =>
      obtain ⟨some', few⟩ := fits
      have few' : run.length < 256 := Nat.lt_of_le_of_lt few (by decide)
      have ctrl : (UInt8.ofNat run.length - 1).toNat = run.length - 1 := by
        rw [UInt8.toNat_sub_of_le, UInt8.toNat_ofNat_of_lt' few']
        · rfl
        · rw [UInt8.le_iff_toNat_le, UInt8.toNat_ofNat_of_lt' few']
          exact some'
      have small : UInt8.ofNat run.length - 1 < 32 := by
        rw [UInt8.lt_iff_toNat_lt, ctrl]
        exact Nat.lt_of_lt_of_le (Nat.sub_lt some' Nat.one_pos) few
      rw [lzfToken, List.cons_append, lzfDecompress, if_pos small]
      simp only [ctrl, Nat.sub_add_cancel some', List.length_take_of_le within]
      rw [if_neg (not_lt.mpr inside), if_neg (by rw [List.length_append]; omega), if_pos trivial,
        List.take_left, List.drop_left, ← grown]
      rfl
  | @copy _ offset len forward back within same =>
      obtain ⟨near, long, short⟩ := fits
      obtain ⟨ctrl, more, written, large, read⟩ :=
        backReference_referenceBytes (by omega : offset - 1 < 8192) long short rest
      rw [lzfToken, written, List.cons_append, lzfDecompress, if_neg (not_lt.mpr large), read]
      simp only [List.length_take_of_le (by omega : start ≤ text.length)]
      rw [Nat.sub_add_cancel forward, if_neg (not_lt.mpr inside), if_pos trivial,
        if_neg (not_lt.mpr back), copyBack_eq]
      exact congrArg (fun out => lzfDecompress true text.length out rest) grown

/-- The decompressor follows a chain. -/
theorem lzfDecompress_chain (chain : Chain text LzfFits tokens stop) (rest : Bytes) :
    lzfDecompress true text.length [] (tokens.flatMap lzfToken ++ rest) =
      lzfDecompress true text.length (text.take stop) rest := by
  induction chain generalizing rest with
  | nil => rfl
  | snoc chain fits spans ih =>
      rw [List.flatMap_append, List.flatMap_singleton, List.append_assoc, ih]
      exact lzfDecompress_token fits spans rest

end Decompressing

/-! ### The compressor -/

/-- What the compressor has written: tokens that tell the input up to the current run, a place for
the length of the run, and the run. -/
structure Compressing (data : Bytes) (tokens : List (Token UInt8)) (s : LzfState) : Prop where
  chain : Chain data LzfFits tokens (s.ip - s.lit)
  short : s.lit < maxLit
  behind : s.lit ≤ s.ip
  inside : s.ip ≤ data.length
  out : ∃ slot, s.out = tokens.flatMap lzfToken ++ slot :: (data.drop (s.ip - s.lit)).take s.lit

section Compression

variable {data : Bytes} {tokens : List (Token UInt8)} {s : LzfState}

/-- The length of a run is written in front of it. -/
theorem stopRun_eq (front run : Bytes) (slot : UInt8) :
    stopRun (front ++ slot :: run) run.length = front ++ (UInt8.ofNat run.length - 1) :: run := by
  have place : (front ++ slot :: run).length - run.length - 1 = front.length := by
    rw [List.length_append, List.length_cons]
    omega
  rw [stopRun, place, List.set_append_right _ _ (Nat.le_refl _), Nat.sub_self, List.set_cons_zero]

theorem length_run {start count : Nat} (inside : start + count ≤ data.length) :
    ((data.drop start).take count).length = count :=
  List.length_take_of_le (by rw [List.length_drop]; omega)

/-- A run of the input joins the tokens. -/
theorem chain_run {start count : Nat} (chain : Chain data LzfFits tokens start) (some' : 0 < count)
    (few : count ≤ maxLit) (inside : start + count ≤ data.length) :
    ∃ tokens', Chain data LzfFits tokens' (start + count) ∧ tokens'.flatMap lzfToken =
      tokens.flatMap lzfToken ++ (UInt8.ofNat count - 1) :: (data.drop start).take count := by
  have whole := length_run inside
  have spans : (Token.literal ((data.drop start).take count)).Spans data start
      (start + ((data.drop start).take count).length) :=
    .literal (by omega) (List.take_prefix _ _)
  have fits : LzfFits (.literal ((data.drop start).take count)) :=
    ⟨whole.symm ▸ some', whole.symm ▸ few⟩
  rw [whole] at spans
  refine ⟨_, chain.snoc fits spans, ?_⟩
  rw [List.flatMap_append, List.flatMap_singleton, lzfToken, whole]

/-- The run that ends joins the tokens. -/
theorem Compressing.ends (compressing : Compressing data tokens s) :
    ∃ tokens', Chain data LzfFits tokens' s.ip ∧
      undoRun (stopRun s.out s.lit) s.lit = tokens'.flatMap lzfToken := by
  obtain ⟨chain, short, behind, inside, slot, out⟩ := compressing
  have within : s.ip - s.lit + s.lit ≤ data.length := by omega
  have stopped := stopRun_eq (tokens.flatMap lzfToken) ((data.drop (s.ip - s.lit)).take s.lit) slot
  rw [length_run within, ← out] at stopped
  rw [stopped, undoRun]
  by_cases none' : s.lit = 0
  · refine ⟨tokens, by simpa [none'] using chain, ?_⟩
    rw [if_pos none', none', List.take_zero, List.dropLast_concat]
  · obtain ⟨tokens', longer, written⟩ :=
      chain_run chain (Nat.pos_of_ne_zero none') short.le within
    rw [Nat.sub_add_cancel behind] at longer
    exact ⟨tokens', longer, (if_neg none').trans written.symm⟩

theorem Compressing.putLiteral (compressing : Compressing data tokens s)
    (more : s.ip < data.length) : ∃ tokens', Compressing data tokens' (putLiteral data s) := by
  obtain ⟨chain, short, behind, inside, slot, out⟩ := compressing
  have within : s.ip - s.lit + (s.lit + 1) ≤ data.length := by omega
  -- The run with the new byte.
  have grown : s.out ++ [data.getD s.ip 0] =
      tokens.flatMap lzfToken ++ slot :: (data.drop (s.ip - s.lit)).take (s.lit + 1) := by
    have next : (data.drop (s.ip - s.lit))[s.lit]? = some (data.getD s.ip 0) := by
      rw [List.getElem?_drop, Nat.sub_add_cancel behind, List.getD_eq_getElem?_getD,
        List.getElem?_eq_getElem more]
      rfl
    rw [out, List.take_add_one, next, List.append_assoc, List.cons_append]
    rfl
  have start : s.ip + 1 - (s.lit + 1) = s.ip - s.lit := by omega
  rw [Vcdb.putLiteral]
  by_cases full : s.lit + 1 = maxLit
  · obtain ⟨tokens', longer, written⟩ := chain_run chain (Nat.succ_pos s.lit) full.le within
    have stopped := stopRun_eq (tokens.flatMap lzfToken)
      ((data.drop (s.ip - s.lit)).take (s.lit + 1)) slot
    rw [length_run within, ← grown] at stopped
    rw [show s.ip - s.lit + (s.lit + 1) = s.ip + 1 by omega] at longer
    rw [if_pos full]
    refine ⟨tokens', longer, (by decide : 0 < maxLit), Nat.zero_le _, more, 0, ?_⟩
    simp only [startRun]
    rw [stopped, written, List.take_zero]
  · rw [if_neg full]
    refine ⟨tokens, start.symm ▸ chain, Nat.lt_of_le_of_ne short full, Nat.succ_le_succ behind, more,
      slot, ?_⟩
    simp only [start]
    exact grown

/-- What has been found lies before the place, and begins with the same three bytes. -/
theorem lzfFound_spec {ip ref : Nat} (small : ip < 2 ^ 32) (small' : ref < 2 ^ 32)
    (found : lzfFound data ip ref = true) :
    0 < ref ∧ ref < ip ∧ ip - ref - 1 < 8192 ∧
      ∀ k < 3, data.getD (ref + k) 0 = data.getD (ip + k) 0 := by
  simp only [lzfFound, Bool.and_eq_true, decide_eq_true_eq, beq_iff_eq] at found
  obtain ⟨⟨⟨⟨near, forward⟩, third⟩, second⟩, first⟩ := found
  have distance : ref < ip ∧ ip - ref - 1 < 8192 := by
    have place : (UInt64.ofNat ip).toNat = ip :=
      UInt64.toNat_ofNat_of_lt' (show ip < 2 ^ 64 by omega)
    have place' : (UInt64.ofNat ref).toNat = ref :=
      UInt64.toNat_ofNat_of_lt' (show ref < 2 ^ 64 by omega)
    have limit : maxOff.toNat = 8192 := rfl
    rw [UInt64.lt_iff_toNat_lt, UInt64.toNat_sub, UInt64.toNat_sub, place, place', limit,
      UInt64.toNat_one] at near
    omega
  refine ⟨forward, distance.1, distance.2, fun k below => ?_⟩
  rcases k with _ | _ | _ | k
  · exact first
  · exact second
  · exact third
  · omega

theorem Compressing.putReference {outLen ref : Nat} {s' : LzfState}
    (compressing : Compressing data tokens s) (more : s.ip + 2 < data.length)
    (small : data.length < 2 ^ 32) (small' : ref < 2 ^ 32) (found : lzfFound data s.ip ref = true)
    (put : putReference data outLen s ref = some s') : ∃ tokens', Compressing data tokens' s' := by
  obtain ⟨tokens', chain, written⟩ := compressing.ends
  obtain ⟨forward, back, near, same⟩ := lzfFound_spec (by omega) small' found
  obtain ⟨octets, length, ip, lit, out, _⟩ := putReference_eq_some data put
  obtain ⟨long, within, few, equal⟩ := @matchLength_spec
    (fun k => data.getD (ref + k) 0 == data.getD (s.ip + k) 0)
    (min (data.length - s.ip - 2) maxRef) (by rw [maxRef]; omega)
  rw [← length] at long within few equal
  have short : octets ≤ maxRef := by
    rw [maxRef] at few ⊢
    omega
  have inside : s.ip + octets ≤ data.length := by omega
  -- What has been compared, byte by byte.
  have repeats : ∀ k < octets, data[s.ip - (s.ip - ref) + k]? = data[s.ip + k]? := by
    intro k below
    have bytes : data.getD (ref + k) 0 = data.getD (s.ip + k) 0 := by
      by_cases early : k < 3
      · exact same k early
      · exact beq_iff_eq.mp (equal k (by omega) below)
    have place : s.ip - (s.ip - ref) + k = ref + k := by omega
    rw [List.getD_eq_getElem?_getD, List.getD_eq_getElem?_getD,
      List.getElem?_eq_getElem (by omega : ref + k < data.length),
      List.getElem?_eq_getElem (by omega : s.ip + k < data.length)] at bytes
    rw [place, List.getElem?_eq_getElem (by omega : ref + k < data.length),
      List.getElem?_eq_getElem (by omega : s.ip + k < data.length)]
    exact congrArg some bytes
  have fits : LzfFits (.copy (s.ip - ref) octets) := ⟨by omega, long, short⟩
  refine ⟨tokens' ++ [.copy (s.ip - ref) octets], ?_, by rw [lit]; decide, by rw [lit]; exact Nat.zero_le _,
    by rw [ip]; exact inside, 0, ?_⟩
  · rw [lit, ip, Nat.sub_zero]
    exact chain.snoc fits (.copy (by omega) (by omega) inside repeats)
  · rw [out, lit, List.take_zero, startRun, written, List.flatMap_append, List.flatMap_singleton]
    rfl

theorem Compressing.lzfStep {outLen : Nat} {s' : LzfState}
    (compressing : Compressing data tokens s) (more : s.ip + 2 < data.length)
    (small : data.length < 2 ^ 32) (step : lzfStep data outLen s = some s') :
    ∃ tokens', Compressing data tokens' s' := by
  obtain ⟨chain, short, behind, inside, out⟩ := compressing
  have noted : Compressing data tokens { s with
      hval := lzfNext data s.hval s.ip
      htab := Function.update s.htab (lzfIdx (lzfNext data s.hval s.ip)) (UInt32.ofNat s.ip) } :=
    ⟨chain, short, behind, inside, out⟩
  rw [Vcdb.lzfStep] at step
  simp only at step
  split_ifs at step with found
  · exact noted.putReference more small (UInt32.toNat_lt _) found step
  · obtain rfl := Option.some_inj.mp step
    exact noted.putLiteral (by simp only; omega)

theorem Compressing.lzfLoop {outLen : Nat} {s' : LzfState}
    (compressing : Compressing data tokens s) (small : data.length < 2 ^ 32)
    (loop : lzfLoop data outLen s = some s') : ∃ tokens', Compressing data tokens' s' := by
  fun_induction Vcdb.lzfLoop data outLen s generalizing tokens with
  | case1 s more none' => cases loop
  | case2 s more next step ih =>
      obtain ⟨tokens', compressing⟩ := compressing.lzfStep more small step
      exact ih compressing loop
  | case3 s ended =>
      obtain rfl := Option.some_inj.mp loop
      exact ⟨tokens, compressing⟩

theorem Compressing.putLiterals (compressing : Compressing data tokens s) :
    ∃ tokens', Compressing data tokens' (putLiterals data (data.length - s.ip) s) ∧
      (putLiterals data (data.length - s.ip) s).ip = data.length := by
  obtain ⟨count, left⟩ : ∃ count, count = data.length - s.ip := ⟨_, rfl⟩
  rw [← left]
  induction count generalizing tokens s with
  | zero =>
      have inside := compressing.inside
      exact ⟨tokens, compressing, by rw [Vcdb.putLiterals]; omega⟩
  | succ count ih =>
      obtain ⟨tokens', compressing⟩ := compressing.putLiteral (by omega)
      exact ih compressing (by rw [putLiteral_ip]; omega)

end Compression

/-- The decompressor reads what the compressor has written, whatever the hash table held. -/
theorem lzfDecompress_lzfCompress (htab : UInt32 → UInt32) {data : Bytes} {outLen : Nat}
    (small : data.length < 2 ^ 32) (compressed : lzfCompress data htab outLen ≠ []) :
    lzfDecompress true data.length [] (lzfCompress data htab outLen) = .ok (some data) := by
  obtain ⟨s, loop, _, written⟩ := lzfCompress_spec data compressed
  have begun : Compressing data [] (lzfStart data htab) :=
    ⟨.nil, (by decide : 0 < maxLit), Nat.zero_le _, Nat.zero_le _, 0, rfl⟩
  obtain ⟨_, compressing⟩ := begun.lzfLoop small loop
  obtain ⟨_, compressing, last⟩ := compressing.putLiterals
  obtain ⟨tokens, chain, ended⟩ := compressing.ends
  have read := lzfDecompress_chain chain []
  rw [last, List.take_length, List.append_nil] at read
  rw [written, ended, read, lzfDecompress]

/-- The compressor keeps to its block, and what it compresses is decompressed to the same. -/
theorem lzf_inverts (htab : UInt32 → UInt32) : LzfInverts fun data => lzfCompress data htab where
  fits data := length_lzfCompress data htab
  inverts _ _ small _ compressed := lzfDecompress_lzfCompress htab small compressed

end Vcdb
