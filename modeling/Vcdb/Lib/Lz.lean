import Mathlib.Tactic.Common
import Mathlib.Data.List.TakeDrop

/-!
# Texts from runs and repetitions

A compressed text is made of runs of new elements and of repetitions of what stands a little before.
A repetition may reach into itself.
-/

namespace Lz

variable {α : Type*}

/-- A part of a compressed text. -/
inductive Token (α : Type*)
  | literal (run : List α)
  | copy (offset len : Nat)

/-- Append `len` elements, each the one that stands `offset` places before it. -/
def repeatBack [Inhabited α] (offset : Nat) : Nat → List α → List α
  | 0, out => out
  | len + 1, out => repeatBack offset len (out ++ [out.getD (out.length - offset) default])

def Token.expand [Inhabited α] : Token α → List α → List α
  | literal run, out => out ++ run
  | copy offset len, out => repeatBack offset len out

/-- The token tells the part of a text between two places. -/
inductive Token.Spans (text : List α) : Token α → Nat → Nat → Prop
  | literal {start : Nat} {run : List α} (inside : start ≤ text.length)
      (shown : run <+: text.drop start) : Spans text (literal run) start (start + run.length)
  | copy {start offset len : Nat} (forward : 0 < offset) (back : offset ≤ start)
      (inside : start + len ≤ text.length)
      (same : ∀ k < len, text[start - offset + k]? = text[start + k]?) :
      Spans text (copy offset len) start (start + len)

/-- Tokens of a kind, one behind the other. -/
inductive Chain (text : List α) (p : Token α → Prop) : List (Token α) → Nat → Prop
  | nil : Chain text p [] 0
  | snoc {tokens : List (Token α)} {token : Token α} {start stop : Nat}
      (chain : Chain text p tokens start) (kind : p token) (spans : token.Spans text start stop) :
      Chain text p (tokens ++ [token]) stop

section Expansion

variable {text : List α} {token : Token α} {p : Token α → Prop} {tokens : List (Token α)}
  {start stop : Nat}

theorem Token.Spans.inside (spans : token.Spans text start stop) : stop ≤ text.length := by
  cases spans with
  | literal inside shown =>
      have room := shown.length_le
      rw [List.length_drop] at room
      omega
  | copy _ _ inside _ => exact inside

theorem Chain.inside (chain : Chain text p tokens stop) : stop ≤ text.length := by
  cases chain with
  | nil => exact Nat.zero_le _
  | snoc _ _ spans => exact spans.inside

variable [Inhabited α]

theorem length_repeatBack (offset len : Nat) (out : List α) :
    (repeatBack offset len out).length = out.length + len := by
  induction len generalizing out with
  | zero => rfl
  | succ len ih =>
      rw [repeatBack, ih, List.length_append, List.length_singleton]
      omega

/-- What repeats in the text is told by a repetition. -/
theorem repeatBack_take {offset len : Nat} (forward : 0 < offset) (back : offset ≤ start)
    (inside : start + len ≤ text.length)
    (same : ∀ k < len, text[start - offset + k]? = text[start + k]?) :
    repeatBack offset len (text.take start) = text.take (start + len) := by
  induction len generalizing start with
  | zero => rfl
  | succ len ih =>
      have next : start < text.length := by omega
      have first := same 0 (Nat.succ_pos len)
      rw [Nat.add_zero, Nat.add_zero, List.getElem?_eq_getElem next] at first
      have grown : text.take start ++ [(text.take start).getD ((text.take start).length - offset)
          default] = text.take (start + 1) := by
        rw [List.length_take_of_le (Nat.le_of_lt next), List.getD_eq_getElem?_getD,
          List.getElem?_take_of_lt (by omega), first, List.take_add_one,
          List.getElem?_eq_getElem next]
        rfl
      rw [repeatBack, grown, ih (by omega) (by omega) fun k below => ?_]
      · congr 1
        omega
      · have later := same (k + 1) (by omega)
        rw [show start + 1 - offset + k = start - offset + (k + 1) by omega,
          show start + 1 + k = start + (k + 1) by omega]
        exact later

/-- A token makes the text longer. -/
theorem Token.Spans.expand (spans : token.Spans text start stop) :
    token.expand (text.take start) = text.take stop := by
  cases spans with
  | @literal _ run inside shown =>
      have front := List.prefix_iff_eq_take.mp shown
      rw [Token.expand, List.take_add, ← front]
  | copy forward back inside same => exact repeatBack_take forward back inside same

end Expansion

end Lz
