/-!
Spans: ranges of bytes in a text.
-/
namespace Formula

/-- The bytes of a text from `start` on up to, but without, `stop`. Positions count the bytes of
the UTF-8 form from zero. -/
structure Span where
  start : Nat
  stop : Nat
deriving DecidableEq, Repr, Inhabited

namespace Span

/-- The span of one byte. -/
def single (position : Nat) : Span := ⟨position, position + 1⟩

/-- Whether the span holds a byte at all. -/
def isValid (s : Span) : Bool :=
  decide (s.start < s.stop)

/-- Wording of a span at the end of a message, with positions counted from one. A span without a
byte says nothing. -/
def text (s : Span) : String :=
  if !s.isValid then ""
  else if s.stop - s.start = 1 then " at position " ++ (s.start + 1).repr
  else " at positions " ++ (s.start + 1).repr ++ "-" ++ s.stop.repr

end Span

end Formula
