import BaseLang.Position
import BaseLang.Text.Lines
import BaseLang.Text.Decimal

/-
  Snippets: an error message with the line of the source that it is about.

  The line is shown without blanks at its ends, under its number, and a caret
  below it marks the column. Without a line at the position only the message and
  the position are shown. The caret stands at the right end of a field whose width
  has 16 bits: a snippet that needs a wider one cannot be drawn.
-/

namespace BaseLang.Snippet

/-- Blanks that indent a line: spaces and tabs. -/
def isIndent (c : Char) : Bool := c == ' ' || c == '\t'

/-- The text at the right end of a field of that width, behind as many `fill`
characters as it takes. -/
def alignRight (fill : Char) (width : Nat) (text : List Char) : List Char :=
  List.replicate (width - text.length) fill ++ text

/-- The bar to the left of the line and of the caret, under the number's end. -/
def bar (line : Nat) : List Char := alignRight ' ' ((Decimal.natural line).length + 2) ['|']

/-- The width of the caret's field. The column counts from the first character shown. -/
def caretWidth (p : Position) (text : List Char) : Nat := p.column - (text.takeWhile isIndent).length

/-- The width of the widest field. -/
def widest : Nat := 65535

/-- The line of the source and the caret below it. -/
def lines (p : Position) (text : List Char) : List Char :=
  let shown := Lines.dropEndWhile isBlank (text.dropWhile isIndent)
  bar p.line ++ ['\n'] ++
    Decimal.natural p.line ++ [' ', '|', ' '] ++ shown ++ ['\n'] ++
    bar p.line ++ [' '] ++ alignRight '-' (caretWidth p text) ['^'] ++ ['\n']

/-- The text of the snippet for a message about a position of the source in the named file. -/
def render (title : String) (p : Position) (source file : String) : String :=
  "Error: " ++ title ++ "\n-> " ++ file ++ ":" ++ p.text ++ "\n" ++
    match Lines.line? source p.line with
    | none => ""
    | some text => String.ofList (lines p text.toList)

/-- Whether the field of the caret is not too wide. -/
def fits (p : Position) (source : String) : Bool :=
  (Lines.line? source p.line).all fun text => caretWidth p text.toList ≤ widest

/-- The snippet, if it can be drawn. -/
def render? (title : String) (p : Position) (source file : String) : Option String :=
  if fits p source then some (render title p source file) else none

theorem render?_of_fits {p : Position} {source : String} (h : fits p source = true) (title file : String) :
    render? title p source file = some (render title p source file) := if_pos h

end BaseLang.Snippet
