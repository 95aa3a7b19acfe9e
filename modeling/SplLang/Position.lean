/-! Positions in a source text and their two written forms.
Positions are ordered by line first, then by column. -/
namespace SplLang

/-- A place in the source text; lines and columns count from one. -/
structure Position where
  line : Nat
  column : Nat
  deriving DecidableEq, Ord

namespace Position

/-- The form a diagnostic opens with. -/
def text (p : Position) : String := s!"line {p.line}, column {p.column}"

/-- The short form, line and column joined by a colon. -/
def short (p : Position) : String := s!"{p.line}:{p.column}"

end Position
end SplLang
