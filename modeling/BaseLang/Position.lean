/-
  Places in a source text: single positions and the spans of tokens.

  Lines and columns count from one, and a column counts the bytes of the text's
  UTF-8 encoding. `0:0` stands for "no place in the text".

  What counts them has 32 bits and starts again from zero beyond these
  (`Position.narrow`). In a text of fewer than `2 ^ 32 - 1` bytes this makes no
  difference.
-/

namespace BaseLang

/-- A line and a column of a source text, both counted from one. The column
counts bytes of UTF-8. -/
structure Position where
  line : Nat
  column : Nat
  deriving DecidableEq, Repr, Inhabited

namespace Position

/-- The position of a report that belongs to no place in the text. -/
def nowhere : Position := ⟨0, 0⟩

/-- The written form `line:column`. -/
def text (p : Position) : String := toString p.line ++ ":" ++ toString p.column

/-- Source order: by line, then by column. -/
def before (p q : Position) : Prop :=
  p.line < q.line ∨ p.line = q.line ∧ p.column < q.column

instance (p q : Position) : Decidable (p.before q) :=
  inferInstanceAs (Decidable (_ ∨ _))

/-- The position as counters of 32 bits show it. -/
def narrow (p : Position) : Position := ⟨p.line % UInt32.size, p.column % UInt32.size⟩

theorem narrow_of_lt {p : Position} (hline : p.line < UInt32.size) (hcolumn : p.column < UInt32.size) :
    p.narrow = p := by
  rw [narrow, Nat.mod_eq_of_lt hline, Nat.mod_eq_of_lt hcolumn]

/-- A counter that goes on from what it shows comes to show the same. -/
theorem narrow_add (p : Position) (columns : Nat) :
    narrow ⟨p.narrow.line, p.narrow.column + columns⟩ = narrow ⟨p.line, p.column + columns⟩ := by
  simp only [narrow, Nat.mod_mod, Nat.mod_add_mod]

end Position

/-- The stretch of one line that a token covers; `stop` is the position just
after its last byte. -/
structure Span where
  start : Position
  stop : Position
  deriving DecidableEq, Repr, Inhabited

def Span.empty (p : Position) : Span := ⟨p, p⟩

end BaseLang
