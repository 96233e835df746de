import BaseLang.Position

/-
  The scanner's place in a source text.

  A cursor holds the characters not yet read and counts, in bytes of UTF-8, how
  far it has come and where its line starts. It moves forward only:
  `rest_advance_length_lt` says that a move by the size of the next character or
  more leaves less to read.
-/

namespace BaseLang

/-- The number of bytes of a text's UTF-8 encoding. -/
def utf8Length : List Char → Nat
  | [] => 0
  | c :: cs => c.utf8Size + utf8Length cs

theorem utf8Length_append (cs ds : List Char) :
    utf8Length (cs ++ ds) = utf8Length cs + utf8Length ds := by
  induction cs with
  | nil => simp [utf8Length]
  | cons c cs ih => simp [utf8Length, ih, Nat.add_assoc]

/-- A place between two characters of a source text. -/
structure Cursor where
  /-- The characters still to be read. -/
  rest : List Char
  /-- The number of bytes already read. -/
  offset : Nat
  /-- The line of the next character, counted from one. -/
  line : Nat
  /-- The offset at which that line starts. -/
  lineStart : Nat
  deriving DecidableEq, Repr

namespace Cursor

def start (source : String) : Cursor := ⟨source.toList, 0, 1, 0⟩

/-- The cursor after the next character. Only a line feed ends a line. -/
def next (c : Cursor) : Cursor :=
  match c.rest with
  | [] => c
  | ch :: rest =>
    if ch = '\n' then ⟨rest, c.offset + ch.utf8Size, c.line + 1, c.offset + ch.utf8Size⟩
    else ⟨rest, c.offset + ch.utf8Size, c.line, c.lineStart⟩

/-- Moves the cursor over the leading characters of `ahead` that lie wholly
within the given number of bytes. -/
def advanceOver : List Char → Nat → Cursor → Cursor
  | [], _, c => c
  | ch :: ahead, bytes, c =>
    if bytes < ch.utf8Size then c else advanceOver ahead (bytes - ch.utf8Size) c.next

/-- The cursor moved forward by that many bytes, or to the end of the text if
fewer are left. -/
def advance (c : Cursor) (bytes : Nat) : Cursor := advanceOver c.rest bytes c

def atEnd (c : Cursor) : Bool := c.rest.isEmpty

/-- The position of the next character. -/
def position (c : Cursor) : Position := Position.narrow ⟨c.line, c.offset - c.lineStart + 1⟩

/-- The span of a token of that many bytes that starts here and does not cross
the end of the line. -/
def span (c : Cursor) (bytes : Nat) : Span :=
  ⟨c.position, .narrow ⟨c.position.line, c.position.column + bytes⟩⟩

theorem rest_next (c : Cursor) : c.next.rest = c.rest.tail := by
  unfold next
  split
  · next h => simp [h]
  · next h => split <;> simp [h]

theorem rest_advanceOver_length_le (ahead : List Char) (bytes : Nat) (c : Cursor) :
    (advanceOver ahead bytes c).rest.length ≤ c.rest.length := by
  induction ahead generalizing bytes c with
  | nil => simp [advanceOver]
  | cons ch ahead ih =>
    rw [advanceOver]
    split
    · exact Nat.le_refl _
    · have := ih (bytes - ch.utf8Size) c.next
      rw [rest_next, List.length_tail] at this
      omega

/-- Moving by at least the size of the next character leaves less to read. -/
theorem rest_advance_length_lt {c : Cursor} {ch : Char} {rest : List Char} {bytes : Nat}
    (hc : c.rest = ch :: rest) (hb : ch.utf8Size ≤ bytes) :
    (c.advance bytes).rest.length < c.rest.length := by
  rw [advance, hc, advanceOver, if_neg (by omega)]
  have := rest_advanceOver_length_le rest (bytes - ch.utf8Size) c.next
  rw [rest_next, hc, List.tail_cons] at this
  simp only [List.length_cons]
  omega

end Cursor

end BaseLang
