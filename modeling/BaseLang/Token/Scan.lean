import BaseLang.Text.Blank
import BaseLang.Text.Decimal
import BaseLang.Token
import BaseLang.Token.Cursor
import BaseLang.SyntaxError

/-
  Scanning: from a source text to its tokens.

  Each stretch of the text is described by the first pattern of `Pattern.table`
  that matches at the cursor. Blanks and comments are skipped, a word is looked
  up among the reserved ones, a numeral must have a value of 32 bits, and a
  string keeps its quotes and escapes. Scanning stops at the first character
  that no pattern matches.
-/

namespace BaseLang

/-- A form that a stretch of the source text can have. -/
inductive Pattern where
  /-- A run of blank characters. -/
  | blanks
  /-- A dollar sign and the rest of its line. -/
  | comment
  /-- A letter or underscore, then letters, underscores and digits. -/
  | word
  /-- A run of digits. -/
  | numeral
  /-- Characters between double quotes on one line, where a backslash keeps the
  character after it from closing the string. -/
  | quoted
  /-- An operator or a punctuation mark. -/
  | mark (kind : TokenKind) (text : String)
  deriving DecidableEq, Repr

/-- A character that can start a word: a letter of the English alphabet or an
underscore. -/
def isWordStart (c : Char) : Bool := c.isAlpha || c == '_'

def isWordPart (c : Char) : Bool := isWordStart c || c.isDigit

/-- The number of characters up to and including the quote that closes a string
whose opening quote has been read; `none` if its line ends first. -/
def closingQuote? : List Char → Option Nat
  | [] => none
  | '"' :: _ => some 1
  | ['\\'] => none
  | '\\' :: c :: rest => if c = '\n' then none else (closingQuote? rest).map (· + 2)
  | c :: rest => if c = '\n' then none else (closingQuote? rest).map (· + 1)

namespace Pattern

/-- How many characters at the start of the text have this form, as many as
possible; zero if none have. -/
def matchLength : Pattern → List Char → Nat
  | blanks, cs => (cs.takeWhile isBlank).length
  | comment, '$' :: cs => (cs.takeWhile (· != '\n')).length + 1
  | comment, _ => 0
  | word, c :: cs => if isWordStart c then (cs.takeWhile isWordPart).length + 1 else 0
  | word, [] => 0
  | numeral, cs => (cs.takeWhile Char.isDigit).length
  | quoted, '"' :: cs => (closingQuote? cs).elim 0 (· + 1)
  | quoted, _ => 0
  | mark _ text, cs => if text.toList.isPrefixOf cs then text.toList.length else 0

/-- The patterns in the order in which they are tried. A mark of two characters
comes before its first character alone. -/
def table : List Pattern :=
  [blanks, comment, word, numeral, quoted,
   mark .writeArrow "<<", mark .readArrow ">>", mark .plusPlus "++", mark .minusMinus "--",
   mark .equals "==", mark .notEquals "~=", mark .lessEquals "<=", mark .greaterEquals ">=",
   mark .openBracket "[", mark .closeBracket "]", mark .openCurly "\x7b",
   mark .closeCurly "\x7d", mark .openParen "(", mark .closeParen ")", mark .colon ":",
   mark .comma ",", mark .dot ".", mark .plus "+", mark .dash "-", mark .star "*",
   mark .slash "/", mark .tilde "~", mark .and "&", mark .or "|", mark .less "<",
   mark .greater ">", mark .assignment "="]

/-- The pattern that describes the start of the text. -/
def first? (cs : List Char) : Option Pattern := table.find? fun p => 0 < p.matchLength cs

/-- The token of a stretch of text with this form that starts at the cursor, if
the form makes one. -/
def token? (p : Pattern) (text : List Char) (c : Cursor) : Except SyntaxError (Option Token) :=
  let token (kind : TokenKind) : Token := ⟨kind, String.ofList text, c.span (utf8Length text)⟩
  match p with
  | blanks | comment => .ok none
  | word => .ok (some (token (.ofWord (String.ofList text))))
  | numeral =>
    if (Decimal.int32? text).isSome then .ok (some (token .intLiteral))
    else .error ⟨.badNumber (String.ofList text), c.position⟩
  | quoted => .ok (some (token .stringLiteral))
  | mark kind _ => .ok (some (token kind))

end Pattern

/-- The size of a stretch is at least that of its first character. -/
theorem utf8Size_le_utf8Length_take {ch : Char} {rest : List Char} {n : Nat} (h : 0 < n) :
    ch.utf8Size ≤ utf8Length ((ch :: rest).take n) := by
  cases n with
  | zero => omega
  | succ n => simp [utf8Length]

namespace Cursor

/-- The tokens from the cursor to the end of the text, the end included. -/
def tokens (c : Cursor) : Except SyntaxError (List Token) :=
  match _hc : c.rest with
  | [] => .ok [.endOfInput c.position]
  | ch :: rest =>
    match _hp : Pattern.first? (ch :: rest) with
    | none => .error ⟨.unrecognised (String.singleton ch), c.position⟩
    | some p =>
      let text := (ch :: rest).take (p.matchLength (ch :: rest))
      match p.token? text c with
      | .error e => .error e
      | .ok found =>
        match (c.advance (utf8Length text)).tokens with
        | .error e => .error e
        | .ok others => .ok (found.toList ++ others)
termination_by c.rest.length
decreasing_by
  have hm : 0 < p.matchLength (ch :: rest) := by simpa using List.find?_some _hp
  exact rest_advance_length_lt _hc (utf8Size_le_utf8Length_take hm)

end Cursor

/-- The tokens of a source text, the last of which is the end of the input. -/
def scan (source : String) : Except SyntaxError (List Token) := (Cursor.start source).tokens

end BaseLang
