import BaseLang.Token.Cursor
import Mathlib.Algebra.Group.Nat.Defs
import Mathlib.Data.List.DropRight

/-
  Where in its source a cursor stands.

  A place in a text is determined by the characters before it: its line by the line feeds
  among them, its column by the bytes since the last of these.

    1. `Position.after` — the position just after the given characters, which counters of
       32 bits can show if there are not too many bytes (`Position.narrow_after`);
    2. `Cursor.Stands` — a cursor that has read these characters and counts them right;
       then it shows that position (`Cursor.Stands.position`);
    3. `Cursor.stands_start`, `Cursor.Stands.advance` — so it does before the first
       character, and after every move over whole characters.
-/

namespace BaseLang

/-! ## Positions -/

/-- The characters after the last line feed. -/
def lastLine (cs : List Char) : List Char := cs.rtakeWhile (· != '\n')

/-- The position just after these characters, with which the text begins. -/
def Position.after (cs : List Char) : Position := ⟨1 + cs.count '\n', 1 + utf8Length (lastLine cs)⟩

theorem lastLine_newline (cs : List Char) : lastLine (cs ++ ['\n']) = [] :=
  List.rtakeWhile_concat_neg _ _ _ (by decide)

theorem lastLine_concat (cs : List Char) {c : Char} (hc : c ≠ '\n') :
    lastLine (cs ++ [c]) = lastLine cs ++ [c] :=
  List.rtakeWhile_concat_pos _ _ _ (bne_iff_ne.2 hc)

theorem lastLine_append (cs : List Char) {ds : List Char} (hds : '\n' ∉ ds) :
    lastLine (cs ++ ds) = lastLine cs ++ ds := by
  induction ds using List.reverseRecOn with
  | nil => rw [List.append_nil, List.append_nil]
  | append_singleton ds d ih =>
    rw [List.mem_append, List.mem_singleton, not_or] at hds
    rw [← List.append_assoc, lastLine_concat _ (Ne.symm hds.2), ih hds.1, List.append_assoc]

/-- Characters none of which is a line feed move the column by their bytes. -/
theorem Position.after_append (cs : List Char) {ds : List Char} (hds : '\n' ∉ ds) :
    Position.after (cs ++ ds) =
      ⟨(Position.after cs).line, (Position.after cs).column + utf8Length ds⟩ := by
  rw [after, lastLine_append cs hds, List.count_append, List.count_eq_zero.2 hds, utf8Length_append,
    Nat.add_zero, ← Nat.add_assoc]
  rfl

theorem length_le_utf8Length (cs : List Char) : cs.length ≤ utf8Length cs := by
  induction cs with
  | nil => exact Nat.le_refl 0
  | cons c cs ih =>
    have hc : 0 < c.utf8Size := c.utf8Size_pos
    rw [List.length_cons, utf8Length]
    omega

/-- What a text begins with is determined by its number of bytes. -/
theorem append_inj_of_utf8Length {before before' rest rest' : List Char}
    (h : before ++ rest = before' ++ rest') (hbytes : utf8Length before = utf8Length before') :
    before = before' := by
  have hnil : ∀ cs : List Char, utf8Length cs = 0 → cs = [] := fun cs hcs =>
    List.eq_nil_of_length_eq_zero (Nat.le_zero.1 (hcs ▸ length_le_utf8Length cs))
  rcases List.append_eq_append_iff.1 h with ⟨more, rfl, -⟩ | ⟨more, rfl, -⟩
  · rw [utf8Length_append] at hbytes
    rw [hnil more (by omega), List.append_nil]
  · rw [utf8Length_append] at hbytes
    rw [hnil more (by omega), List.append_nil]

/-- Neither the line nor the column goes beyond the number of bytes. -/
theorem Position.after_le (cs : List Char) :
    (Position.after cs).line ≤ 1 + utf8Length cs ∧ (Position.after cs).column ≤ 1 + utf8Length cs := by
  constructor
  · have hlines : cs.count '\n' ≤ cs.length := List.count_le_length
    exact Nat.add_le_add_left (Nat.le_trans hlines (length_le_utf8Length cs)) 1
  · obtain ⟨before, hbefore⟩ := List.rtakeWhile_suffix (· != '\n') cs
    have hbytes := congrArg utf8Length hbefore
    rw [utf8Length_append] at hbytes
    exact Nat.add_le_add_left (Nat.le.intro (Nat.add_comm _ _ ▸ hbytes)) 1

theorem Position.narrow_after {cs : List Char} (h : utf8Length cs < 2 ^ 32 - 1) :
    (Position.after cs).narrow = .after cs := by
  obtain ⟨hline, hcolumn⟩ := Position.after_le cs
  have hcounter : 2 ^ 32 - 1 < UInt32.size := by decide
  exact narrow_of_lt (by omega) (by omega)

/-! ## Cursors -/

namespace Cursor

/-- The cursor has read these characters since the start of the text. -/
structure Stands (before : List Char) (c : Cursor) : Prop where
  offset : c.offset = utf8Length before
  line : c.line = 1 + before.count '\n'
  lineStart : c.lineStart + utf8Length (lastLine before) = utf8Length before

variable {before : List Char} {c : Cursor}

theorem stands_start (source : String) : (start source).Stands [] := ⟨rfl, rfl, rfl⟩

theorem Stands.position (h : c.Stands before) : c.position = (Position.after before).narrow := by
  have hcolumn : c.offset - c.lineStart + 1 = 1 + utf8Length (lastLine before) := by
    have hoffset := h.offset
    have hstart := h.lineStart
    omega
  rw [Cursor.position, hcolumn, h.line, Position.after]

/-- The next character moves the cursor as the counts ask. -/
theorem Stands.next (h : c.Stands before) {ch : Char} {rest : List Char} (hc : c.rest = ch :: rest) :
    c.next.Stands (before ++ [ch]) := by
  have hbytes : utf8Length (before ++ [ch]) = utf8Length before + ch.utf8Size := by
    rw [utf8Length_append]
    rfl
  have hoffset : c.offset + ch.utf8Size = utf8Length (before ++ [ch]) := by rw [hbytes, h.offset]
  simp only [Cursor.next, hc]
  split
  · next hline =>
    subst hline
    refine ⟨hoffset, ?_, ?_⟩
    · rw [List.count_append, ← Nat.add_assoc, ← h.line]
      rfl
    · rw [lastLine_newline]
      exact hoffset
  · next hline =>
    refine ⟨hoffset, ?_, ?_⟩
    · rw [List.count_append, List.count_singleton, if_neg (by simpa using hline), Nat.add_zero, ← h.line]
    · rw [lastLine_concat _ hline, utf8Length_append, ← Nat.add_assoc, h.lineStart, utf8Length_append]

theorem Stands.advanceOver {text rest : List Char} :
    ∀ {before : List Char} {c : Cursor}, c.Stands before → c.rest = text ++ rest →
      (Cursor.advanceOver (text ++ rest) (utf8Length text) c).Stands (before ++ text) := by
  induction text with
  | nil =>
    intro before c h _
    rw [List.append_nil, List.nil_append, utf8Length]
    cases rest with
    | nil => exact h
    | cons ch rest =>
      rw [Cursor.advanceOver, if_pos ch.utf8Size_pos]
      exact h
  | cons ch text ih =>
    intro before c h hc
    have hnext : c.next.rest = text ++ rest := by rw [rest_next, hc, List.cons_append, List.tail_cons]
    have hmoved := ih (h.next (hc.trans (List.cons_append ..))) hnext
    rw [List.cons_append, utf8Length, Cursor.advanceOver, if_neg (by omega), Nat.add_sub_cancel_left]
    rwa [List.append_assoc, List.singleton_append] at hmoved

/-- A move over the next characters leaves the cursor just after them. -/
theorem Stands.advance (h : c.Stands before) {text rest : List Char} (hc : c.rest = text ++ rest) :
    (c.advance (utf8Length text)).Stands (before ++ text) := by
  rw [Cursor.advance, hc]
  exact h.advanceOver hc

end Cursor

end BaseLang
