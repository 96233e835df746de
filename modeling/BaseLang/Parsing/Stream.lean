import BaseLang.SyntaxError
import BaseLang.Token
import BaseLang.Tree

/-
  Token streams, and reading from them.

  A stream ends with the token that marks the end of the input, which is kept
  apart from those before it: it is always there and never consumed. A reader
  takes tokens off the front of the stream, hands out node numbers, and either
  gives a value or fails with a syntax error; the stream is left where it
  stopped in both cases.
-/

namespace BaseLang

/-- The tokens still to be read and the next node number. -/
structure TokenStream where
  /-- The tokens before the last one, which marks the end of the input. -/
  ahead : List Token
  /-- The text of the last token. -/
  endText : String
  /-- The place of the last token. -/
  endSpan : Span
  /-- The number of the next node. -/
  nextId : NodeId
  deriving Repr

namespace TokenStream

def final (s : TokenStream) : Token := ⟨.endOfInput, s.endText, s.endSpan⟩

/-- The stream of a list of tokens. A list that does not end with the end of the
input is given one, at the place where its last token stops. -/
def ofTokens (tokens : List Token) : TokenStream :=
  match tokens.getLast? with
  | none => ⟨[], "EOF", .empty .nowhere, 0⟩
  | some last =>
    if last.kind = .endOfInput then ⟨tokens.dropLast, last.text, last.span, 0⟩
    else ⟨tokens, "EOF", .empty last.span.stop, 0⟩

/-- The token to be read next. -/
def current (s : TokenStream) : Token := s.ahead.headD s.final

/-- The kind of the token that stands that many places after the current one;
the end of the input from the last token on. -/
def peekKind (s : TokenStream) (places : Nat) : TokenKind :=
  ((s.ahead[places]?).map Token.kind).getD .endOfInput

/-- The stream after its current token. The last token stays. -/
def advance (s : TokenStream) : TokenStream := { s with ahead := s.ahead.tail }

/-! ## What is read and what is left -/

/-- Nothing but the end of the input stands at the end of a stream. -/
theorem current_of_ahead_eq_nil {s : TokenStream} (h : s.ahead = []) : s.current = s.final := by
  rw [current, h]
  rfl

/-- The end of a stream is never passed. -/
theorem advance_of_ahead_eq_nil {s : TokenStream} (h : s.ahead = []) : s.advance = s := by
  obtain ⟨ahead, text, place, id⟩ := s
  cases h
  rfl

/-- Every token of a list but a last end of the input lies ahead. -/
theorem ahead_ofTokens (tokens : List Token) :
    (ofTokens tokens).ahead =
      if tokens.getLast?.map Token.kind = some .endOfInput then tokens.dropLast else tokens := by
  unfold ofTokens
  cases h : tokens.getLast? with
  | none =>
    rw [List.getLast?_eq_none_iff] at h
    simp [h]
  | some last =>
    by_cases hk : last.kind = .endOfInput
    · simp [hk]
    · simp [hk]

/-- Numbers begin with zero. -/
theorem nextId_ofTokens (tokens : List Token) : (ofTokens tokens).nextId = 0 := by
  unfold ofTokens
  split
  · rfl
  · split <;> rfl

end TokenStream

/-- A computation that reads from a token stream. -/
abbrev Reader := EStateM SyntaxError TokenStream

namespace Reader

def current : Reader Token := do return (← get).current

def kind : Reader TokenKind := do return (← get).current.kind

/-- The kind of the token that many places ahead. -/
def peekKind (places : Nat) : Reader TokenKind := do return (← get).peekKind places

def position : Reader Position := do return (← get).current.start

/-- The number of tokens before the last one. Every loop and every nesting of a
reader consumes at least one of them each time round, so this bounds both. -/
def remaining : Reader Nat := do return (← get).ahead.length

def advance : Reader Token := do
  let s ← get
  set s.advance
  return s.current

/-- Fails because the current token cannot stand here. -/
def unexpected {α : Type} : Reader α := do
  let t ← current
  throw ⟨.unexpected t.text, t.start⟩

/-- Fails because the current token cannot stand here, with a note. -/
def unexpectedWith {α : Type} (note : String) : Reader α := do
  let t ← current
  throw ⟨.unexpectedWith t.text note, t.start⟩

/-- Takes the current token if it is of the given kind, and fails with the given
error otherwise. -/
def expectOr (wanted : TokenKind) (error : SyntaxError) : Reader Token := do
  if (← kind) = wanted then advance else throw error

/-- Takes the current token if it is of the given kind. -/
def expect (wanted : TokenKind) : Reader Token := do
  if (← kind) = wanted then advance else unexpected

/-- Takes the next node number. -/
def freshId : Reader NodeId := do
  let s ← get
  set { s with nextId := s.nextId + 1 }
  return s.nextId

/-- The occurrence of a name that a token is, under a new number. -/
def identOf (t : Token) : Reader Ident := do
  let id ← freshId
  return ⟨id, t.text, t.start⟩

/-- Takes an identifier and numbers it. -/
def ident : Reader Ident := do
  if (← kind) = .identifier then identOf (← advance)
  else unexpectedWith "expected identifier"

/-- Takes items for as long as the kind of the current token satisfies `goesOn`,
at most the given number of times. -/
def collect {α : Type} (goesOn : TokenKind → Bool) (item : Reader α) : Nat → Reader (List α)
  | 0 => return []
  | n + 1 => do
    if goesOn (← kind) then
      let first ← item
      let others ← collect goesOn item n
      return first :: others
    else return []

/-- Takes items for as long as the kind of the current token satisfies `goesOn`.
Each item takes at least one token or fails, so the bound is never reached. -/
def many {α : Type} (goesOn : TokenKind → Bool) (item : Reader α) : Reader (List α) := do
  collect goesOn item ((← remaining) + 1)

/-- Takes items with commas between them, at least one. -/
def commaList {α : Type} (item : Reader α) : Reader (List α) := do
  let first ← item
  let others ← many (· == .comma) (do let _ ← advance; item)
  return first :: others

end Reader

end BaseLang
