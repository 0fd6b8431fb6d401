import Proto2.Source.Position

/-!
Stretches of a source text, as diagnostics point at them.
-/

namespace Proto2

/-- The text of a file from one position up to another, which is not part of it. -/
structure Span where
  file : String
  start : Position
  stop : Position
deriving DecidableEq, Repr

namespace Span

/-- The name under which a file is shown: a text without a file name is one in memory. -/
def shownFile (file : String) : String :=
  if file = "" then "<memory>" else file

/-- A span as diagnostics name it, by file, line and column of its start. -/
def format (s : Span) : String :=
  shownFile s.file ++ ":" ++ toString s.start.line ++ ":" ++ toString s.start.column

/-- The span from the start of one to the end of another. -/
def through (s t : Span) : Span :=
  { s with stop := t.stop }

end Span

end Proto2
