/-!
# Spans of source text

A span is a half-open range of offsets. Its ends are kept in order.
-/
namespace StructuralTyping.Text

structure Span where
  start : Nat
  stop : Nat
  ordered : start ≤ stop
deriving DecidableEq

namespace Span

instance : Inhabited Span := ⟨0, 0, Nat.le_refl 0⟩

/-- The span between two offsets, given in either order. -/
def between (a b : Nat) : Span := ⟨min a b, max a b, by omega⟩

def length (s : Span) : Nat := s.stop - s.start

def isEmpty (s : Span) : Bool := s.start = s.stop

/-- The span of a given length from an offset. -/
def ofOffset (offset length : Nat) : Span := ⟨offset, offset + length, by omega⟩

def text (s : Span) : String := s!"[{s.start}, {s.stop})"

end Span

end StructuralTyping.Text
