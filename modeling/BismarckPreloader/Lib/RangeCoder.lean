import BismarckPreloader.Lib.Words
import Mathlib.Logic.Relation

/-!
# Range coding

A range coder keeps an interval of numbers. Each decision narrows it; when it gets small, all
of it is multiplied by the base, which asks for one digit more. `Span` is such an interval
together with the number of digits of its numbers, `Holds` says that a text begins with the
digits of one of them.

`Step.holds` goes backwards: a text that begins with a number of the last interval begins with
a number of every interval before it. `Reads` is what a reader of the text knows of the
interval: its size, and how far from its lower end the number lies.
-/

namespace BismarckPreloader.RangeCoder

theorem bytesVal_append (as bs : List UInt8) :
    bytesVal (as ++ bs) = bytesVal as * 256 ^ bs.length + bytesVal bs := by
  induction as with
  | nil => simp [bytesVal]
  | cons a as ih =>
    simp only [List.cons_append, bytesVal, ih, List.length_append]
    ring

theorem bytesVal_take_succ {text : List UInt8} {n : Nat} (h : n < text.length) :
    bytesVal (text.take (n + 1)) = 256 * bytesVal (text.take n) + (text[n]).toNat := by
  rw [List.take_succ_eq_append_getElem h, bytesVal_append]
  simp [bytesVal]
  ring

/-- The numbers from `low` on, `range` of them, with `len` digits. -/
@[ext] structure Span where
  low : Nat
  range : Nat
  len : Nat

namespace Span

def narrow (s : Span) (off size : Nat) : Span := ⟨s.low + off, size, s.len⟩

def shift (s : Span) : Span := ⟨256 * s.low, 256 * s.range, s.len + 1⟩

structure Holds (s : Span) (text : List UInt8) : Prop where
  inside : s.len ≤ text.length
  low_le : s.low ≤ bytesVal (text.take s.len)
  lt : bytesVal (text.take s.len) < s.low + s.range

end Span

inductive Step : Span → Span → Prop
  | narrow {s : Span} {off size : Nat} (h : off + size ≤ s.range) : Step s (s.narrow off size)
  | shift {s : Span} : Step s s.shift

abbrev Steps := Relation.ReflTransGen Step

variable {s s' : Span} {text : List UInt8}

theorem Step.holds (h : Step s s') (hs : s'.Holds text) : s.Holds text := by
  obtain ⟨hin, hlow, hlt⟩ := hs
  cases h with
  | narrow h =>
    simp only [Span.narrow] at hin hlow hlt
    exact ⟨hin, by omega, by omega⟩
  | shift =>
    simp only [Span.shift] at hin hlow hlt
    have hdigit := (text[s.len]).toNat_lt
    rw [bytesVal_take_succ hin] at hlow hlt
    exact ⟨by omega, by omega, by omega⟩

theorem Steps.holds (h : Steps s s') (hs : s'.Holds text) : s.Holds text := by
  induction h with
  | refl => exact hs
  | tail _ hstep ih => exact ih (hstep.holds hs)

theorem Span.Holds.append (h : s.Holds text) (more : List UInt8) : s.Holds (text ++ more) := by
  obtain ⟨hin, hlow, hlt⟩ := h
  have htake : (text ++ more).take s.len = text.take s.len := List.take_append_of_le_length hin
  refine ⟨?_, ?_, ?_⟩
  · rw [List.length_append]
    omega
  · rw [htake]
    exact hlow
  · rw [htake]
    exact hlt

/-- The reader's side of an interval: its size, the distance of the number from its lower end,
and the digits not read yet. -/
structure Reads (text : List UInt8) (s : Span) (range code : Nat) (rest : List UInt8) : Prop where
  range : range = s.range
  code : s.low + code = bytesVal (text.take s.len)
  rest : rest = text.drop s.len

variable {range code off size : Nat} {rest : List UInt8}

theorem Reads.code_lt (h : Reads text s range code rest) (hs : s.Holds text) : code < range := by
  have := hs.lt
  have := h.code
  have := h.range
  omega

theorem Reads.narrow (h : Reads text s range code rest) (hs : (s.narrow off size).Holds text) :
    off ≤ code ∧ Reads text (s.narrow off size) size (code - off) rest := by
  have hle := hs.low_le
  have hcode := h.code
  simp only [Span.narrow] at hle
  exact ⟨by omega, rfl, by simp only [Span.narrow]; omega, h.rest⟩

theorem Reads.shift (h : Reads text s range code rest) (hs : s.shift.Holds text) :
    ∃ digit more, rest = digit :: more ∧
      Reads text s.shift (256 * range) (256 * code + digit.toNat) more := by
  have hin : s.len < text.length := hs.inside
  refine ⟨text[s.len], text.drop (s.len + 1), ?_, ?_, ?_, rfl⟩
  · rw [h.rest, List.drop_eq_getElem_cons hin]
  · simp only [Span.shift, h.range]
  · simp only [Span.shift]
    rw [bytesVal_take_succ hin, ← h.code]
    ring

end BismarckPreloader.RangeCoder
