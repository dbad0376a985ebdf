/-!
# Places in a source text

A `Span` is a stretch of a source text, given by the offsets of its first byte and of the byte
after its last one.  A `Located` value is a value together with the span it was read from.

* `Span.join` : the least span that covers two spans.
* `Span.shift` : the same stretch in a text that has more in front.
-/

namespace ModuleResolution

/-- A stretch of a source text in byte offsets. -/
structure Span where
  /-- Offset of the first byte. -/
  start : Nat
  /-- Offset of the byte after the last one. -/
  stop : Nat
deriving DecidableEq, Inhabited

namespace Span

/-- The empty span at `n`. -/
def point (n : Nat) : Span := ⟨n, n⟩

/-- The least span that covers `a` and `b`. -/
def join (a b : Span) : Span := ⟨min a.start b.start, max a.stop b.stop⟩

/-- Length in bytes; a span that stops before it starts has length zero. -/
def length (s : Span) : Nat := s.stop - s.start

/-- The span holds no byte. -/
def isEmpty (s : Span) : Bool := s.length == 0

/-- The span in a text that has `n` more bytes in front. -/
def shift (n : Nat) (s : Span) : Span := ⟨n + s.start, n + s.stop⟩

/-- `start..stop`. -/
def text (s : Span) : String := toString s.start ++ ".." ++ toString s.stop

theorem isEmpty_iff {s : Span} : s.isEmpty = true ↔ s.stop ≤ s.start := by
  simp only [isEmpty, length, beq_iff_eq]; omega

/-- `a` lies inside `b`. -/
def Within (a b : Span) : Prop := b.start ≤ a.start ∧ a.stop ≤ b.stop

end Span

/-- A value and the span it was read from. -/
structure Located (α : Type) where
  /-- What was read. -/
  value : α
  /-- Where it stands. -/
  span : Span
deriving DecidableEq

namespace Located

variable {α : Type}

/-- The same value in a text that has `n` more bytes in front. -/
def shift (n : Nat) (x : Located α) : Located α := ⟨x.value, x.span.shift n⟩

end Located

end ModuleResolution
