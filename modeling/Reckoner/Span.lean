/-! Ranges of a text, counted in UTF-8 bytes. -/
namespace Reckoner

/-- The bytes from `start` up to `stop`, `stop` itself left out. -/
structure Span where
  start : UInt32
  stop : UInt32
  deriving Repr, DecidableEq, Inhabited

namespace Span

def between (start stop : Nat) : Span := ⟨start.toUInt32, stop.toUInt32⟩

def point (offset : UInt32) : Span := ⟨offset, offset⟩

/-- The least span that covers both. -/
def merge (a b : Span) : Span := ⟨min a.start b.start, max a.stop b.stop⟩

/-- The number of bytes covered; none when the ends are in the wrong order. -/
def length (s : Span) : UInt32 := if s.start ≤ s.stop then s.stop - s.start else 0

def isEmpty (s : Span) : Bool := s.length == 0

/-- Columns are counted from one. -/
def text (s : Span) : String := s!"col {(s.start + 1).toNat}"

end Span
end Reckoner
