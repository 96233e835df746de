import BaseLang.Proofs.Printing.Printable
import BaseLang.Tree.Printer

/-
  The canonical text scans to its tokens.

  `Prints ps F` says that the pieces `ps` scan to their tokens in front of any text
  that scans and satisfies `F`. Each printer prints in this sense, in front of any text
  that does not go on with a word; what makes it so is that a word or a numeral is
  followed by a blank or a mark, and an operator before its operand by no mark that
  would lengthen it (`expr_head`).
-/

namespace BaseLang.Printer

def lexeme? : Piece → Option Lexeme
  | .token k text => some ⟨k, text⟩
  | .gap _ => none

def lexemes (ps : List Piece) : List Lexeme := ps.filterMap lexeme?

def chars (ps : List Piece) : List Char := ps.flatMap fun p => p.text.toList

theorem lexemes_append (ps qs : List Piece) : lexemes (ps ++ qs) = lexemes ps ++ lexemes qs :=
  List.filterMap_append

theorem chars_append (ps qs : List Piece) : chars (ps ++ qs) = chars ps ++ chars qs :=
  List.flatMap_append

theorem toList_join (ps : List Piece) : (String.join (ps.map Piece.text)).toList = chars ps := by
  rw [String.toList_join, List.flatMap_map]
  rfl

/-- Before any text that scans and satisfies `F`, the pieces scan to their tokens. -/
def Prints (ps : List Piece) (F : List Char → Prop) : Prop :=
  ∀ (rest : List Char) (ls : List Lexeme), F rest → Scans rest ls →
    Scans (chars ps ++ rest) (lexemes ps ++ ls)

/-- The text does not go on with a word. -/
def WordEnds (rest : List Char) : Prop := ∀ d ∈ rest.head?, isWordPart d = false

namespace Prints

variable {ps qs : List Piece} {F G : List Char → Prop}

theorem nil : Prints [] F := fun _ _ _ h => h

theorem append (hp : Prints ps F) (hq : Prints qs G)
    (hF : ∀ rest, G rest → F (chars qs ++ rest)) : Prints (ps ++ qs) G := by
  intro rest ls hrest h
  rw [chars_append, lexemes_append, List.append_assoc, List.append_assoc]
  exact hp _ _ (hF rest hrest) (hq rest ls hrest h)

theorem mono (hp : Prints ps F) (hGF : ∀ rest, G rest → F rest) : Prints ps G :=
  fun rest ls hrest h => hp rest ls (hGF rest hrest) h

theorem token {k : TokenKind} {text : String} (h : IsToken k text) :
    Prints [.token k text] (Apart k) := by
  intro rest ls hrest hs
  simpa [chars, lexemes, lexeme?, Piece.text] using Scans.token h hrest hs

theorem gap {text : String} (h : text.toList.all isBlank = true) (F : List Char → Prop) :
    Prints [.gap text] F := by
  intro rest ls _ hs
  show Scans (chars [.gap text] ++ rest) ls
  simpa [chars, Piece.text] using Scans.blanks h hs

end Prints

/-! ## Marks and layout -/

theorem mark_isToken {k : TokenKind} (hk : k.isFixed = true) :
    ∃ text, mark k = [.token k text] ∧ IsToken k text := by
  cases k <;> first
    | exact ⟨_, rfl, isToken_iff.2 ⟨.mark _ _, rfl, rfl, nofun, rfl⟩⟩
    | exact ⟨_, rfl, isToken_iff.2 ⟨.word, rfl, rfl, nofun, rfl⟩⟩
    | cases hk

theorem Prints.mark {k : TokenKind} (hk : k.isFixed = true) : Prints (mark k) (Apart k) := by
  obtain ⟨text, heq, h⟩ := mark_isToken hk
  rw [heq]
  exact .token h

/-- A mark that no character lengthens. -/
theorem Prints.closed {k : TokenKind} (hk : k.isFixed = true) (hj : ∀ d, k.joins d = false)
    (F : List Char → Prop) : Prints (Printer.mark k) F :=
  (Prints.mark hk).mono fun _ _ _ _ => hj _

theorem Prints.blank (F : List Char → Prop) : Prints blank F := .gap rfl F

theorem Prints.newline (F : List Char → Prop) : Prints newline F := .gap rfl F

theorem Prints.indent (depth : Nat) (F : List Char → Prop) : Prints (indent depth) F :=
  .gap (by
    rw [String.toList_ofList, List.all_eq_true]
    intro c hc
    rw [(List.mem_replicate.1 hc).2]
    rfl) F

/-- A mark and the blank after it. -/
theorem Prints.spaced {k : TokenKind} (hk : k.isFixed = true) (F : List Char → Prop) :
    Prints (Printer.mark k ++ Printer.blank) F := by
  refine (Prints.mark hk).append (.blank F) fun _ _ d hd => ?_
  cases hd
  cases k <;> rfl

theorem wordEnds_cons {c : Char} (hc : isWordPart c = false) (cs : List Char) : WordEnds (c :: cs) := by
  rintro d ⟨⟩
  exact hc

/-! ## Expressions -/

theorem Prints.ident {x : Ident} (h : x.Printable) : Prints (ident Ident.name x) WordEnds :=
  (Prints.token h).mono fun _ hrest => hrest

theorem Prints.loc : ∀ {l : Loc}, l.Printable → Prints (loc Ident.name l) WordEnds
  | .ident _, h => .ident h
  | .access _ base field, h => by
    have hopen : Prints (Printer.mark .openParen) fun _ => True := .closed rfl (fun _ => rfl) _
    have hclose : Prints (Printer.mark .closeParen) fun _ => True := .closed rfl (fun _ => rfl) _
    have hcolon : Prints (Printer.mark .colon) fun _ => True := .closed rfl (fun _ => rfl) _
    refine .append (.append (.append (.append hopen (loc h.1) ?_) hclose ?_) hcolon ?_) (.ident h.2) ?_
    · exact fun _ _ => trivial
    · exact fun _ _ => wordEnds_cons rfl _
    · exact fun _ _ => trivial
    · exact fun _ _ => trivial

/-- The text begins with no sign and no equals sign. -/
def Unsigned (cs : List Char) : Prop := ∃ c ds, cs = c :: ds ∧ c ≠ '-' ∧ c ≠ '='

theorem Unsigned.append {cs : List Char} (h : Unsigned cs) (ds : List Char) : Unsigned (cs ++ ds) := by
  obtain ⟨c, es, rfl, h⟩ := h
  exact ⟨c, es ++ ds, rfl, h⟩

theorem Unsigned.apart {cs : List Char} (h : Unsigned cs) : Apart .dash cs ∧ Apart .tilde cs := by
  obtain ⟨c, ds, rfl, hdash, htilde⟩ := h
  constructor
  · rintro d ⟨⟩
    exact beq_false_of_ne hdash
  · rintro d ⟨⟩
    exact beq_false_of_ne htilde

theorem unsigned_ident {x : Ident} (h : x.Printable) : Unsigned (chars (ident Ident.name x)) := by
  obtain ⟨⟨c, cs, hs, hc, _⟩, _⟩ := isToken_identifier_iff.1 h
  refine ⟨c, cs, ?_, ?_, ?_⟩
  · rw [chars, ident, List.flatMap_singleton, Piece.text, hs]
  · rintro rfl
    cases hc
  · rintro rfl
    cases hc

/-- What stands in parentheses or begins with a name begins with no sign. -/
theorem expr_head : ∀ {e : Expr}, e.Printable → Unsigned (chars (expr Ident.name e))
  | .logical true _, _ => ⟨'T', _, rfl, by decide, by decide⟩
  | .logical false _, _ => ⟨'F', _, rfl, by decide, by decide⟩
  | .int v _, h => by
    have hsigned : Decimal.signed v.toInt = Decimal.natural v.toInt.natAbs := by
      rw [Decimal.signed, if_neg (by rw [Int.not_lt]; exact h)]
    cases hcs : Decimal.natural v.toInt.natAbs with
    | nil => exact absurd hcs (Decimal.natural_ne_nil _)
    | cons c cs =>
      have hc : c.isDigit = true := Decimal.isDigit_of_mem_natural (by rw [hcs]; exact List.mem_cons_self)
      refine ⟨c, cs, ?_, ?_, ?_⟩
      · rw [chars, expr, List.flatMap_singleton, Piece.text, String.toList_ofList, hsigned, hcs]
      · rintro rfl
        cases hc
      · rintro rfl
        cases hc
  | .string t _, h => by
    obtain ⟨cs, hcs⟩ := isToken_stringLiteral h
    refine ⟨'"', cs, ?_, by decide, by decide⟩
    rw [chars, expr, List.flatMap_singleton, Piece.text, hcs]
  | .loc (.ident x), h => unsigned_ident h
  | .loc (.access _ _ _), _ => ⟨'(', _, rfl, by decide, by decide⟩
  | .assign _ _, _ => ⟨'(', _, rfl, by decide, by decide⟩
  | .call f args, h => by
    rw [expr, List.append_assoc, List.append_assoc, chars_append]
    exact (unsigned_ident h.1).append _
  | .unary .negate _, _ => ⟨'(', _, rfl, by decide, by decide⟩
  | .unary .not _, _ => ⟨'(', _, rfl, by decide, by decide⟩
  | .binary _ _ _, _ => ⟨'(', _, rfl, by decide, by decide⟩

theorem wordEnds_digit {rest : List Char} (h : WordEnds rest) : Apart .intLiteral rest := by
  intro d hd
  have hpart := h d hd
  rw [isWordPart, Bool.or_eq_false_iff] at hpart
  exact hpart.2

/-- Pieces in parentheses. -/
theorem Prints.parens {ps : List Piece} (h : Prints ps WordEnds) (F : List Char → Prop) :
    Prints (Printer.mark .openParen ++ ps ++ Printer.mark .closeParen) F := by
  have hopen : Prints (Printer.mark .openParen) fun _ => True := .closed rfl (fun _ => rfl) _
  refine .append (.append hopen h fun _ _ => trivial) (.closed rfl (fun _ => rfl) F) fun _ _ => ?_
  exact wordEnds_cons rfl _

/-- Pieces, a blank, a mark, a blank and pieces. -/
theorem Prints.between {ps qs : List Piece} {k : TokenKind} {F : List Char → Prop}
    (hp : Prints ps WordEnds) (hk : k.isFixed = true) (hq : Prints qs F) :
    Prints (ps ++ Printer.blank ++ Printer.mark k ++ Printer.blank ++ qs) F := by
  rw [List.append_assoc _ (Printer.mark k), List.append_assoc, List.append_assoc]
  refine .append hp (.append (.blank fun _ => True) (.append (.spaced hk fun _ => True) hq ?_) ?_) ?_
  · exact fun _ _ => trivial
  · exact fun _ _ => trivial
  · exact fun _ _ => wordEnds_cons rfl _

theorem Prints.commas : ∀ {pss : List (List Piece)}, (∀ ps ∈ pss, Prints ps WordEnds) →
    Prints (commas pss) WordEnds
  | [], _ => .nil
  | [ps], h => h ps List.mem_cons_self
  | ps :: qs :: pss, h => by
    have hcomma : Prints (Printer.mark .comma) fun _ => True := .closed rfl (fun _ => rfl) _
    have hrest := Prints.commas fun ps hps => h ps (List.mem_cons_of_mem _ hps)
    refine .append (.append (.append (h ps List.mem_cons_self) hcomma ?_) (.blank fun _ => True) ?_)
      hrest ?_
    · exact fun _ _ => wordEnds_cons rfl _
    · exact fun _ _ => trivial
    · exact fun _ _ => trivial

mutual

theorem Prints.expr : ∀ {e : Expr}, e.Printable → Prints (expr Ident.name e) WordEnds
  | .logical true _, _ => (Prints.mark rfl).mono fun _ h => h
  | .logical false _, _ => (Prints.mark rfl).mono fun _ h => h
  | .int _ _, h => (Prints.token (isToken_int h)).mono fun _ => wordEnds_digit
  | .string _ _, h => (Prints.token h).mono fun _ _ _ _ => rfl
  | .loc _, h => .loc h
  | .assign l v, h => by
    have hbody := Prints.between (k := .assignment) (.loc h.1) rfl (Prints.expr h.2)
    have hall := Prints.parens hbody WordEnds
    simp only [List.append_assoc] at hall
    simp only [Printer.expr, List.append_assoc]
    exact hall
  | .call f args, h => by
    have hargs := Prints.parens (Prints.commas (Prints.exprs h.2)) WordEnds
    have hall := Prints.append (.ident h.1) hargs fun _ _ => wordEnds_cons rfl _
    simp only [List.append_assoc] at hall
    simp only [Printer.expr, List.append_assoc]
    exact hall
  | .unary .negate v, h => by
    have hbody := Prints.append (Prints.mark (k := .dash) rfl) (Prints.expr (e := v) h) fun rest _ =>
      ((expr_head (e := v) h).append rest).apart.1
    have hall := Prints.parens hbody WordEnds
    simp only [List.append_assoc] at hall
    simp only [Printer.expr, List.append_assoc]
    exact hall
  | .unary .not v, h => by
    have hbody := Prints.append (Prints.mark (k := .tilde) rfl) (Prints.expr (e := v) h) fun rest _ =>
      ((expr_head (e := v) h).append rest).apart.2
    have hall := Prints.parens hbody WordEnds
    simp only [List.append_assoc] at hall
    simp only [Printer.expr, List.append_assoc]
    exact hall
  | .binary op v w, h => by
    have hfixed : op.kind.isFixed = true := by cases op <;> rfl
    have hall := Prints.parens (Prints.between (Prints.expr h.1) hfixed (Prints.expr h.2)) WordEnds
    simp only [List.append_assoc] at hall
    simp only [Printer.expr, List.append_assoc]
    exact hall

theorem Prints.exprs : ∀ {es : List Expr}, Expr.PrintableAll es →
    ∀ ps ∈ exprs Ident.name es, Prints ps WordEnds
  | [], _, _, hps => nomatch hps
  | _ :: _, h, _, hps => by
    rcases List.mem_cons.1 hps with rfl | hps
    · exact Prints.expr h.1
    · exact Prints.exprs h.2 _ hps

end

/-! ## Declarations of names -/

theorem Prints.type : ∀ {t : TypeName}, t.Printable → Prints (type t) WordEnds
  | .logical, _ | .integer, _ | .void, _ => (Prints.mark rfl).mono fun _ h => h
  | .tuple _, h => (Prints.spaced rfl fun _ => True).append (.ident h) fun _ _ => trivial

theorem Prints.typed {d : VarDecl} (h : d.Printable) : Prints (typed Ident.name d) WordEnds := by
  refine .append (.append (.type h.1) (.blank fun _ => True) ?_) (.ident h.2) fun _ _ => trivial
  exact fun _ _ => wordEnds_cons rfl _

/-- The pieces scan to their tokens in front of any text that scans. -/
def Lines (ps : List Piece) : Prop := Prints ps fun _ => True

theorem Lines.append {ps qs : List Piece} (hp : Lines ps) (hq : Lines qs) : Lines (ps ++ qs) :=
  Prints.append hp hq fun _ _ => trivial

/-- Pieces after lines may still ask something of what follows. -/
theorem Lines.append' {ps qs : List Piece} {F : List Char → Prop} (hp : Lines ps)
    (hq : Prints qs F) : Prints (ps ++ qs) F :=
  Prints.append hp hq fun _ _ => trivial

theorem Lines.mark {k : TokenKind} (hk : k.isFixed = true) (hj : ∀ d, k.joins d = false) :
    Lines (Printer.mark k) := .closed hk hj _

/-- What follows the indentation of a line that a dot ends. -/
theorem Lines.simple {ps : List Piece} (h : Prints ps WordEnds) : Lines (simple ps) :=
  Lines.append (Prints.append h (Lines.mark rfl fun _ => rfl) fun _ _ => wordEnds_cons rfl _) (.newline _)

theorem Lines.varDecl {d : VarDecl} (h : d.Printable) (depth : Nat) :
    Lines (varDecl Ident.name depth d) := by
  have hall := Lines.append (.indent depth _) (Lines.simple (Prints.typed h))
  simp only [Printer.simple, Lines, ← List.append_assoc] at hall
  exact hall

theorem Lines.flatMap {α : Type} {f : α → List Piece} : ∀ {as : List α}, (∀ a ∈ as, Lines (f a)) →
    Lines (as.flatMap f)
  | [], _ => .nil
  | a :: _, h => by
    rw [List.flatMap_cons]
    exact (h a List.mem_cons_self).append (Lines.flatMap fun b hb => h b (List.mem_cons_of_mem _ hb))

/-! ## Statements -/

theorem Lines.bracketed {body : List Piece} (h : Lines body) (depth : Nat) :
    Lines (bracketed depth body) :=
  (((((Lines.append (.blank _) (.mark rfl fun _ => rfl)).append (.newline _)).append h).append
    (.indent depth _)).append (.mark rfl fun _ => rfl)).append (.newline _)

/-- An expression and a block after it, which starts with a blank. -/
theorem Lines.headed {ps body : List Piece} {k : TokenKind} (hk : k.isFixed = true)
    (hp : Prints ps WordEnds) (hbody : Lines body) (depth : Nat) :
    Lines (Printer.indent depth ++ Printer.mark k ++ Printer.blank ++ ps ++
      Printer.bracketed depth body) := by
  have hhead : Prints (Printer.indent depth ++ (Printer.mark k ++ Printer.blank) ++ ps) WordEnds :=
    .append (.append (.indent depth fun _ => True) (.spaced hk fun _ => True) fun _ _ => trivial) hp
      fun _ _ => trivial
  rw [← List.append_assoc (Printer.indent depth)] at hhead
  exact Prints.append hhead (Lines.bracketed hbody depth) fun _ _ => wordEnds_cons rfl _

/-- Two words with a blank after each, and pieces. -/
theorem Prints.arrow {ps : List Piece} {k j : TokenKind} (hk : k.isFixed = true)
    (hj : j.isFixed = true) (hp : Prints ps WordEnds) :
    Prints (Printer.mark k ++ Printer.blank ++ Printer.mark j ++ Printer.blank ++ ps) WordEnds := by
  rw [List.append_assoc _ (Printer.mark j)]
  exact .append (.append (.spaced hk fun _ => True) (.spaced hj fun _ => True) fun _ _ => trivial) hp
    fun _ _ => trivial

mutual

theorem Lines.stmt (depth : Nat) : ∀ {s : Stmt}, s.Printable → Lines (stmt Ident.name depth s)
  | .assign _ _, h =>
    .append (.indent depth _) (.simple (.between (k := .assignment) (.loc h.1) rfl (.expr h.2)))
  | .increment l, h =>
    .append (.indent depth _) (.simple (.append (.loc h) (.closed rfl (fun _ => rfl) _)
      fun _ _ => wordEnds_cons rfl _))
  | .decrement l, h =>
    .append (.indent depth _) (.simple (.append (.loc h) (.closed rfl (fun _ => rfl) _)
      fun _ _ => wordEnds_cons rfl _))
  | .ifThen _ _, h => .headed (k := .ifWord) rfl (.expr h.1) (Lines.block (depth + 1) h.2) depth
  | .ifElse _ _ _, h => by
    have hthen := Lines.headed (k := .ifWord) rfl (.expr h.1) (Lines.block (depth + 1) h.2.1) depth
    have helse := (hthen.append (.indent depth _)).append' (Prints.mark (k := .elseWord) rfl)
    exact Prints.append helse (Lines.bracketed (Lines.block (depth + 1) h.2.2) depth) fun _ _ =>
      wordEnds_cons rfl _
  | .whileDo _ _, h => .headed (k := .whileWord) rfl (.expr h.1) (Lines.block (depth + 1) h.2) depth
  | .read _, h => .append (.indent depth _) (.simple (.arrow (k := .readWord) rfl rfl (.loc h)))
  | .write v, h =>
    .append (.indent depth _) (.simple (.arrow (k := .writeWord) rfl rfl (.expr (e := v) h)))
  | .call f args, h => .append (.indent depth _) (.simple (.expr (e := .call f args) h))
  | .ret none _, _ => .append (.indent depth _) (.simple ((Prints.mark rfl).mono fun _ h => h))
  | .ret (some v) _, h =>
    .append (.indent depth _) (.simple (.append (.spaced rfl fun _ => True) (.expr (e := v) h)
      fun _ _ => trivial))

theorem Lines.block (depth : Nat) : ∀ {b : Block}, b.Printable → Lines (block Ident.name depth b)
  | .mk _ _, h => .append (.flatMap fun d hd => .varDecl (h.1 d hd) depth) (Lines.stmts depth h.2)

theorem Lines.stmts (depth : Nat) : ∀ {ss : List Stmt}, Stmt.PrintableAll ss →
    Lines (stmts Ident.name depth ss)
  | [], _ => .nil
  | _ :: _, h => .append (Lines.stmt depth h.1) (Lines.stmts depth h.2)

end

/-! ## Programs -/

theorem printable_of_simple {d : VarDecl} (h : d.type.IsSimple ∧ d.name.Printable) : d.Printable := by
  obtain ⟨type, name⟩ := d
  cases type with
  | tuple _ => exact h.1.elim
  | _ => exact ⟨trivial, h.2⟩

theorem Lines.decl : ∀ {d : Decl}, d.Printable → Lines (decl Ident.name d)
  | .var _, h => .varDecl h 0
  | .function d, h => by
    obtain ⟨hresult, hname, hformals, hbody⟩ := h
    have htype : d.result.Printable := by
      cases hd : d.result with
      | tuple _ => rw [hd] at hresult; exact hresult.elim
      | _ => trivial
    have hhead := ((Lines.append' (.indent 0 _) (Prints.type htype)).append (.blank fun _ => True)
      fun _ _ => wordEnds_cons rfl _).append (.ident hname) fun _ _ => trivial
    have hopen := hhead.append (Lines.mark (k := .openCurly) rfl fun _ => rfl) fun _ _ =>
      wordEnds_cons rfl _
    have hcommas : Prints (commas (d.formals.map (typed Ident.name))) WordEnds :=
      .commas fun ps hps => by
        obtain ⟨f, hf, rfl⟩ := List.mem_map.1 hps
        exact .typed (printable_of_simple (hformals f hf))
    have hclose := (Lines.append' hopen hcommas).append (Lines.mark (k := .closeCurly) rfl fun _ => rfl)
      fun _ _ => wordEnds_cons rfl _
    exact (Lines.append hclose (Lines.bracketed (Lines.block 1 hbody) 0)).append (.newline _)
  | .tuple d, h => by
    have hhead : Prints (Printer.indent 0 ++ Printer.mark .tupleWord ++ Printer.blank ++
        Printer.ident Ident.name d.name) WordEnds := by
      rw [List.append_assoc (Printer.indent 0)]
      exact (Lines.append (.indent 0 _) (.spaced rfl _)).append' (.ident h.1)
    have hfields : Lines (d.fields.flatMap (Printer.varDecl Ident.name 1)) :=
      .flatMap fun f hf => .varDecl (h.2 f hf) 1
    have hopen : Lines _ := (hhead.append (.blank fun _ => True) fun _ _ => wordEnds_cons rfl _).append
      (Lines.mark (k := .openCurly) rfl fun _ => rfl) fun _ _ => trivial
    exact ((((((hopen.append (.newline _)).append hfields).append (.indent 0 _)).append
      (.mark rfl fun _ => rfl)).append (.mark rfl fun _ => rfl)).append (.newline _)).append (.newline _)

/-- The canonical text of a printable program scans to the tokens of its pieces. -/
theorem scans_text {p : Program} (h : p.Printable) :
    Scans p.text.toList (lexemes (program Ident.name p)) := by
  have hall : Lines (program Ident.name p) := .flatMap fun d hd => .decl (h d hd)
  have hscans := hall [] [] trivial .nil
  rw [List.append_nil, List.append_nil] at hscans
  rwa [Program.text, Program.render, toList_join]

end BaseLang.Printer
