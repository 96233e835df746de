import BaseLang.Position
import BaseLang.Text.Quoted

/-
  Errors of scanning and parsing. The first one stops the reading of a program.

  An error is a cause and a position; its wording and the hint that goes with it
  are functions of the cause.
-/

namespace BaseLang

/-- Why a source text is not a program. -/
inductive SyntaxError.Cause where
  /-- No token starts with this character. -/
  | unrecognised (token : String)
  /-- This token cannot stand here. -/
  | unexpected (token : String)
  /-- This token cannot stand here, and the note says what could. -/
  | unexpectedWith (token note : String)
  /-- This numeral is not a 32-bit integer. -/
  | badNumber (token : String)
  /-- What is assigned to or read into is no location. -/
  | invalidTarget
  /-- An expression stands where a statement should. -/
  | invalidStatement
  deriving DecidableEq, Repr

/-- A cause and the place it was found at. -/
structure SyntaxError where
  cause : SyntaxError.Cause
  position : Position
  deriving DecidableEq, Repr

namespace SyntaxError

def Cause.name : Cause → String
  | .unrecognised _ => "UnrecognisedToken"
  | .unexpected _ => "UnexpectedToken"
  | .unexpectedWith _ _ => "UnexpectedTokenDetailed"
  | .badNumber _ => "NumberParseError"
  | .invalidTarget => "InvalidAssignmentTarget"
  | .invalidStatement => "InvalidStatement"

/-- The wording of the cause, with tokens quoted. -/
def Cause.message : Cause → String
  | .unrecognised token => "unrecognised token: " ++ Quoted.encode token
  | .unexpected token => "unexpected token: " ++ Quoted.encode token
  | .unexpectedWith token note =>
    "unexpected token (" ++ Quoted.encode note ++ "): " ++ Quoted.encode token
  | .badNumber token => "error parsing number: " ++ Quoted.encode token
  | .invalidTarget => "invalid assignment target"
  | .invalidStatement => "invalid statement"

/-- A hint at what may be wrong, with tokens as they stand in the source. -/
def Cause.tip? : Cause → Option String
  | .unrecognised token => if token = "\"" then some "Unterminated string literal" else none
  | .unexpected token => some ("Unexpected token: `" ++ token ++ "`, did you miss a `.`?")
  | .unexpectedWith token note => some ("Unexpected token: `" ++ token ++ "`, " ++ note)
  | .badNumber token =>
    some ("Invalid number: `" ++ token ++ "`, is it above the integer limit?")
  | .invalidTarget => some "Only a name or a tuple field can be assigned or read into"
  | .invalidStatement => some "Expected an assignment, an increment, a decrement or a call"

/-- The position and the wording. -/
def message (e : SyntaxError) : String := e.position.text ++ " " ++ e.cause.message

/-- The heading under which the error is shown: its name, with the tip if there
is one. -/
def title (e : SyntaxError) : String :=
  match e.cause.tip? with
  | none => e.cause.name
  | some tip => e.cause.name ++ " (" ++ tip ++ ")"

end SyntaxError

end BaseLang
