import BaseLang.Binding
import BaseLang.Parsing.Programs
import BaseLang.Tree.Printer
import BaseLang.Typing

/-
  The whole analysis of a program, and its canonical text with what was found out
  about its names.
-/

namespace BaseLang

/-- What the analysis of a program finds out. -/
structure Analysis where
  resolution : Resolution
  diagnostics : Diagnostics

def Analysis.hasErrors (a : Analysis) : Bool := !a.diagnostics.isEmpty

/-- Resolves the names of a program, then checks its types. -/
def analyze (p : Program) : Except InternalError Analysis :=
  match resolveNames p with
  | .error e => .error e
  | .ok (resolution, diagnostics) =>
    .ok ⟨resolution, diagnostics ++ Typing.checkProgram resolution p⟩

/-- How an identifier is written in an annotated text: its name, followed by what
it stands for if that is known. -/
def Resolution.annotate (r : Resolution) (x : Ident) : String :=
  match r.symbolOf x with
  | none => x.name
  | some s => x.name ++ "<" ++ s.text ++ ">"

/-- The canonical text of a program, with every identifier annotated. -/
def Program.annotatedText (p : Program) (r : Resolution) : String := p.render r.annotate

end BaseLang
