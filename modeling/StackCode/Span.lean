/-!
# Source spans

A span is a half-open range `start..stop` of byte offsets into a source file.  Offsets are 32-bit,
so the few operations that could leave that range answer `none` there.
-/

namespace StackCode

/-- The byte offsets `start..stop` of a source file. -/
structure Span where
  start : Nat
  stop : Nat
deriving DecidableEq

namespace Span

/-- The largest byte offset. -/
def maxOffset : Nat := 4294967295

/-- The number of bytes covered; a span that ends before it starts has no length. -/
def length? (s : Span) : Option Nat :=
  if s.start ≤ s.stop then some (s.stop - s.start) else none

def isEmpty (s : Span) : Bool := s.start == s.stop

/-- A span is valid when it covers at least one byte. -/
def isValid (s : Span) : Bool := s.start < s.stop

/-- The first byte of the span, such as the opening brace of a body. -/
def head (s : Span) : Span := ⟨s.start, s.start + 1⟩

/-- The first byte, where its end is still an offset. -/
def head? (s : Span) : Option Span := if s.start < maxOffset then some s.head else none

/-- The smallest span that covers both. -/
def merge (s t : Span) : Span := ⟨min s.start t.start, max s.stop t.stop⟩

/-- A span is written as its two offsets with two dots between them. -/
def text (s : Span) : String := toString s.start ++ ".." ++ toString s.stop

/-- Only a valid span is asked for its head, and there the head always exists. -/
theorem head?_of_isValid {s : Span} (h : s.isValid = true) (hs : s.stop ≤ maxOffset) :
    s.head? = some s.head := by
  simp only [isValid, decide_eq_true_eq] at h
  simp only [head?, if_pos (Nat.lt_of_lt_of_le h hs)]

end Span

end StackCode
