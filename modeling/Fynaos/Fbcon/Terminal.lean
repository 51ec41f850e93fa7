import Fynaos.Types

/-!
# A text terminal

What the console is for: a grid of lines of cells, each blank or with a character, and a cursor on one
of the cells. A character goes to the cell of the cursor, which then advances; at the end of a line it
goes to the next one, and behind the last line the grid moves up.
-/

namespace Fynaos.Fbcon

/-- A grid of cells and a cursor. A blank cell is `none`. -/
structure Terminal (rows cols : ℕ) where
  cells : Fin rows → Fin cols → Option UInt8
  line : Fin rows
  column : Fin cols

namespace Terminal

variable {rows cols : ℕ}

def blank (hrows : 0 < rows) (hcols : 0 < cols) : Terminal rows cols :=
  ⟨fun _ _ => none, ⟨0, hrows⟩, ⟨0, hcols⟩⟩

/-- The top line goes, the others move up by one, and the bottom line is blank. -/
def moveUp (cells : Fin rows → Fin cols → Option UInt8) (i : Fin rows) (j : Fin cols) :
    Option UInt8 :=
  if h : i + 1 < rows then cells ⟨i + 1, h⟩ j else none

/-- To the first column of the next line. -/
def nextLine (t : Terminal rows cols) : Terminal rows cols :=
  if h : t.line + 1 < rows then { t with line := ⟨t.line + 1, h⟩, column := ⟨0, t.column.pos⟩ }
  else { t with cells := moveUp t.cells, column := ⟨0, t.column.pos⟩ }

/-- To the next cell. -/
def advance (t : Terminal rows cols) : Terminal rows cols :=
  if h : t.column + 1 < cols then { t with column := ⟨t.column + 1, h⟩ } else t.nextLine

/-- The cells with a character at the cursor. -/
def marked (t : Terminal rows cols) (ch : UInt8) (i : Fin rows) (j : Fin cols) : Option UInt8 :=
  if i = t.line ∧ j = t.column then some ch else t.cells i j

/-- A character in the cell of the cursor. -/
def put (t : Terminal rows cols) (ch : UInt8) : Terminal rows cols :=
  advance { t with cells := t.marked ch }

/-- A character, a newline or a tab, which is four spaces. -/
def write (t : Terminal rows cols) (ch : UInt8) : Terminal rows cols :=
  if ch = '\n'.toUInt8 then t.nextLine
  else if ch = '\t'.toUInt8 then (List.replicate 4 ' '.toUInt8).foldl put t
  else t.put ch

def print (t : Terminal rows cols) (strings : List (List UInt8)) : Terminal rows cols :=
  strings.foldl (fun t s => s.foldl write t) t

end Terminal

end Fynaos.Fbcon
