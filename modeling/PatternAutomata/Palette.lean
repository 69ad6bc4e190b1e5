/-!
# Palettes

A palette gives the escape sequences that colour the parts of a transcript: states, symbols,
accepting states and the dim parts between them.  The plain palette colours nothing.
-/

namespace PatternAutomata

/-- The sequences that start each colour, and the one that ends every colour. -/
structure Palette where
  state : String
  symbol : String
  accept : String
  dim : String
  reset : String
deriving DecidableEq, Repr

namespace Palette

/-- Colours of the sixteen-colour terminal: states blue, symbols green, accepting states bold. -/
def ansi : Palette where
  state := "\x1b[34m"
  symbol := "\x1b[32m"
  accept := "\x1b[1;34m"
  dim := "\x1b[2m"
  reset := "\x1b[0m"

def plain : Palette := ⟨"", "", "", "", ""⟩

def ofChoice (colored : Bool) : Palette := if colored then ansi else plain

def isColored (palette : Palette) : Bool := !palette.reset.isEmpty

def paint (palette : Palette) (start text : String) : String :=
  start ++ text ++ palette.reset

@[simp] theorem paint_plain (text : String) : plain.paint "" text = text := by
  simp [paint, plain]

end Palette

end PatternAutomata
