import BaseLang.Proofs.Grammar.Derivation
import BaseLang.Proofs.Printing.Pieces
import BaseLang.Proofs.Tree.Relabelling

/-
  The canonical tokens of a tree derive it.

  Any tokens with the lexemes of a printed tree have a derivation, from any node
  number, of a tree that says the same: every compound expression is printed in
  parentheses, so that it binds as strongly as a call.

    1. `phrase_of_lexemes` — expressions.
    2. `sentence_of_lexemes` — statements.
    3. `derives_of_lexemes` — programs.
-/

namespace BaseLang.Grammar
open Printer

/-! ## Tokens of pieces -/

section Pieces
variable {ts : List Token} {ps qs : List Piece}

theorem lexemes_blank : lexemes blank = [] := rfl

theorem lexemes_newline : lexemes newline = [] := rfl

theorem lexemes_indent (depth : Nat) : lexemes (indent depth) = [] := rfl

/-- Tokens of two runs of pieces come in two runs. -/
theorem split_append (h : ts.map Token.lexeme = lexemes (ps ++ qs)) :
    ∃ us vs, ts = us ++ vs ∧ us.map Token.lexeme = lexemes ps ∧ vs.map Token.lexeme = lexemes qs := by
  rw [lexemes_append, List.map_eq_append_iff] at h
  obtain ⟨us, vs, rfl, hus, hvs⟩ := h
  exact ⟨us, vs, rfl, hus, hvs⟩

theorem split_mark {k : TokenKind} (h : ts.map Token.lexeme = lexemes (mark k)) :
    ∃ t, ts = [t] ∧ t.kind = k := by
  cases ts with
  | nil => cases h
  | cons t ts =>
    obtain ⟨ht, hts⟩ := List.cons.inj h
    exact ⟨t, by rw [List.map_eq_nil_iff.1 hts], congrArg Lexeme.kind ht⟩

theorem split_token {k : TokenKind} {text : String}
    (h : ts.map Token.lexeme = lexemes [.token k text]) :
    ∃ t, ts = [t] ∧ t.kind = k ∧ t.text = text := by
  cases ts with
  | nil => cases h
  | cons t ts =>
    obtain ⟨ht, hts⟩ := List.cons.inj h
    exact ⟨t, by rw [List.map_eq_nil_iff.1 hts], congrArg Lexeme.kind ht, congrArg Lexeme.text ht⟩

theorem split_mark_cons {k : TokenKind} (h : ts.map Token.lexeme = lexemes (mark k ++ ps)) :
    ∃ t us, ts = t :: us ∧ t.kind = k ∧ us.map Token.lexeme = lexemes ps := by
  obtain ⟨us, vs, rfl, hus, hvs⟩ := split_append h
  obtain ⟨t, rfl, ht⟩ := split_mark hus
  exact ⟨t, vs, rfl, ht, hvs⟩

theorem split_mark_end {k : TokenKind} (h : ts.map Token.lexeme = lexemes (ps ++ mark k)) :
    ∃ us t, ts = us ++ [t] ∧ us.map Token.lexeme = lexemes ps ∧ t.kind = k := by
  obtain ⟨us, vs, rfl, hus, hvs⟩ := split_append h
  obtain ⟨t, rfl, ht⟩ := split_mark hvs
  exact ⟨us, t, rfl, hus, ht⟩

theorem split_parens (h : ts.map Token.lexeme = lexemes (mark .openParen ++ ps ++ mark .closeParen)) :
    ∃ o us c, ts = o :: (us ++ [c]) ∧ o.kind = .openParen ∧ us.map Token.lexeme = lexemes ps ∧
      c.kind = .closeParen := by
  rw [List.append_assoc] at h
  obtain ⟨o, us, rfl, ho, h⟩ := split_mark_cons h
  obtain ⟨us, c, rfl, hus, hc⟩ := split_mark_end h
  exact ⟨o, us, c, rfl, ho, hus, hc⟩

theorem split_between {k : TokenKind}
    (h : ts.map Token.lexeme = lexemes (ps ++ blank ++ mark k ++ blank ++ qs)) :
    ∃ us t vs, ts = us ++ t :: vs ∧ us.map Token.lexeme = lexemes ps ∧ t.kind = k ∧
      vs.map Token.lexeme = lexemes qs := by
  simp only [lexemes_append, lexemes_blank, List.nil_append, List.append_assoc] at h
  rw [← lexemes_append, ← lexemes_append] at h
  obtain ⟨us, vs, rfl, hus, hvs⟩ := split_append h
  obtain ⟨t, vs, rfl, ht, hvs⟩ := split_mark_cons hvs
  exact ⟨us, t, vs, rfl, hus, ht, hvs⟩

end Pieces

/-- The tree says the same as the other. -/
theorem erase_ident {x : Ident} {n : NodeId} {t : Token} (h : t.text = x.name) :
    Relabelling.erasing.ident ⟨n, t.text, t.start⟩ = Relabelling.erasing.ident x := by
  rw [h]
  rfl

/-! ## Expressions -/

theorem phrase_of_loc : ∀ (l : Loc) (n : NodeId) (ts : List Token),
    ts.map Token.lexeme = lexemes (loc Ident.name l) →
    ∃ l' m, Phrase .call n ts (.loc l') m ∧ l'.relabel .erasing = l.relabel .erasing
  | .ident x, n, ts, h => by
    obtain ⟨t, rfl, hk, htext⟩ := split_token h
    exact ⟨_, _, .name hk, by rw [Loc.relabel, Loc.relabel, erase_ident htext]⟩
  | .access _ base field, n, ts, h => by
    rw [Printer.loc, List.append_assoc _ (mark .colon)] at h
    obtain ⟨us, vs, rfl, hus, hvs⟩ := split_append h
    obtain ⟨o, us, c, rfl, ho, hbase, hc⟩ := split_parens hus
    obtain ⟨d, vs, rfl, hd, hvs⟩ := split_mark_cons hvs
    obtain ⟨f, rfl, hf, hname⟩ := split_token hvs
    obtain ⟨base', k, hb, herase⟩ := phrase_of_loc base n us hbase
    have hgroup := Phrase.group ho (.weaken (p := .call) (by decide) hb) hc
    exact ⟨_, _, .access hgroup hd hf, by
      rw [Loc.relabel, Loc.relabel, herase, erase_ident hname]; rfl⟩

/-- Phrases that bind as strongly as a call stand anywhere. -/
theorem Phrase.operand {q : BindingPower} {n : NodeId} {ts : List Token} {e : Expr} {m : NodeId}
    (h : Phrase .call n ts e m) (hq : q.level ≤ 9) : Phrase q n ts e m :=
  .weaken (p := .call) hq h

/-- Tokens with the lexemes of the printed expression derive one that says the same. -/
def Rederived (e : Expr) : Prop := ∀ (n : NodeId) (ts : List Token),
  ts.map Token.lexeme = lexemes (Printer.expr Ident.name e) →
  ∃ e' m, Phrase .call n ts e' m ∧ e'.relabel .erasing = e.relabel .erasing

/-- An operator with its operand, in parentheses. -/
theorem Rederived.signed {v : Expr} (hv : Rederived v) {k : TokenKind} {op : UnaryOp}
    (hk : unaryOp? k = some op) (n : NodeId) (ts : List Token)
    (h : ts.map Token.lexeme = lexemes (mark .openParen ++ mark k ++ Printer.expr Ident.name v ++
      mark .closeParen)) :
    ∃ e' m, Phrase .call n ts e' m ∧ e'.relabel .erasing = (Expr.unary op v).relabel .erasing := by
  rw [List.append_assoc (mark _) (mark k)] at h
  obtain ⟨o, us, c, rfl, ho, hus, hc⟩ := split_parens h
  obtain ⟨t, us, rfl, ht, hus⟩ := split_mark_cons hus
  obtain ⟨v', m, hv, herase⟩ := hv n us hus
  have hunary : Phrase .unary n (t :: us) (.unary op v') m :=
    .unary (by rw [ht, hk]) (hv.operand (by decide))
  exact ⟨_, _, .group ho (.weaken (p := .unary) (by decide) hunary) hc, by
    rw [Expr.relabel, Expr.relabel, herase]⟩

/-- An assignment without its parentheses. -/
theorem Rederived.assign {v : Expr} (hv : Rederived v) (l : Loc) (n : NodeId) (ts : List Token)
    (h : ts.map Token.lexeme = lexemes (Printer.loc Ident.name l ++ blank ++ mark .assignment ++
      blank ++ Printer.expr Ident.name v)) :
    ∃ l' v' m, Phrase .assignment n ts (.assign l' v') m ∧ l'.relabel .erasing = l.relabel .erasing ∧
      v'.relabel .erasing = v.relabel .erasing := by
  obtain ⟨us, t, vs, rfl, hus, ht, hvs⟩ := split_between h
  obtain ⟨l', k, hl, hle⟩ := phrase_of_loc l n us hus
  obtain ⟨v', m, hv, hve⟩ := hv k vs hvs
  exact ⟨l', v', m, .assign hl ht (hv.operand (by decide)), hle, hve⟩

mutual

/-- Every expression is derived again from its printed form. -/
theorem phrase_of_lexemes : ∀ e : Expr, Rederived e
  | .logical true _, n, ts, h => by
    obtain ⟨t, rfl, ht⟩ := split_mark h
    exact ⟨_, _, .true ht, rfl⟩
  | .logical false _, n, ts, h => by
    obtain ⟨t, rfl, ht⟩ := split_mark h
    exact ⟨_, _, .false ht, rfl⟩
  | .int v _, n, ts, h => by
    obtain ⟨t, rfl, ht, htext⟩ := split_token h
    have hv : Decimal.int32? t.text.toList = some v := by
      rw [htext, String.toList_ofList, Decimal.int32?_signed]
    exact ⟨_, _, .int ht hv, rfl⟩
  | .string text _, n, ts, h => by
    obtain ⟨t, rfl, ht, htext⟩ := split_token h
    exact ⟨_, _, .string ht, by rw [Expr.relabel, Expr.relabel, htext]; rfl⟩
  | .loc l, n, ts, h => by
    obtain ⟨l', m, hl, herase⟩ := phrase_of_loc l n ts h
    exact ⟨_, _, hl, by rw [Expr.relabel, Expr.relabel, herase]⟩
  | .assign l v, n, ts, h => by
    have h : ts.map Token.lexeme = lexemes (mark .openParen ++ (Printer.loc Ident.name l ++ blank ++
        mark .assignment ++ blank ++ Printer.expr Ident.name v) ++ mark .closeParen) := by
      simpa only [Printer.expr, List.append_assoc] using h
    obtain ⟨o, us, c, rfl, ho, hus, hc⟩ := split_parens h
    obtain ⟨l', v', m, hassign, hle, hve⟩ := (phrase_of_lexemes v).assign l n us hus
    exact ⟨_, _, .group ho hassign hc, by rw [Expr.relabel, Expr.relabel, hle, hve]⟩
  | .call f args, n, ts, h => by
    have h : ts.map Token.lexeme = lexemes (Printer.ident Ident.name f ++ (mark .openParen ++
        commas (Printer.exprs Ident.name args) ++ mark .closeParen)) := by
      simpa only [Printer.expr, List.append_assoc] using h
    obtain ⟨us, vs, rfl, hus, hvs⟩ := split_append h
    obtain ⟨t, rfl, ht, hname⟩ := split_token hus
    obtain ⟨o, us, c, rfl, ho, hus, hc⟩ := split_parens hvs
    obtain ⟨args', m, hargs, herase⟩ := phrases_of_lexemes args (n + 1) us hus
    exact ⟨_, _, .call (.name ht) ho hargs hc, by
      rw [Expr.relabel, Expr.relabel, erase_ident hname, herase]⟩
  | .unary .negate v, n, ts, h => (phrase_of_lexemes v).signed (k := .dash) rfl n ts h
  | .unary .not v, n, ts, h => (phrase_of_lexemes v).signed (k := .tilde) rfl n ts h
  | .binary op v w, n, ts, h => by
    have h : ts.map Token.lexeme = lexemes (mark .openParen ++ (Printer.expr Ident.name v ++ blank ++
        mark op.kind ++ blank ++ Printer.expr Ident.name w) ++ mark .closeParen) := by
      simpa only [Printer.expr, List.append_assoc] using h
    obtain ⟨o, us, c, rfl, ho, hus, hc⟩ := split_parens h
    obtain ⟨us, t, vs, rfl, hus, ht, hvs⟩ := split_between hus
    obtain ⟨v', k, hv, hve⟩ := phrase_of_lexemes v n us hus
    obtain ⟨w', m, hw, hwe⟩ := phrase_of_lexemes w k vs hvs
    obtain ⟨_, hge, hle⟩ := binary_power op
    rw [← ht] at hge hle
    -- both operands are in parentheses or need none, whatever the power of the operator
    have hbinary : Phrase (Rules.standard.powerOf t.kind) n (us ++ t :: vs) (.binary op v' w') m :=
      .binary (hv.operand (by omega)) ht rfl (q := .call) (Nat.lt_of_le_of_lt hle (by decide)) hw
    exact ⟨_, _, .group ho (.weaken (Nat.le_of_succ_le hge) hbinary) hc, by
      rw [Expr.relabel, Expr.relabel, hve, hwe]⟩

theorem phrases_of_lexemes : ∀ (es : List Expr) (n : NodeId) (ts : List Token),
    ts.map Token.lexeme = lexemes (commas (Printer.exprs Ident.name es)) →
    ∃ es' m, Separated (Phrase .assignment) n ts es' m ∧
      Expr.relabelAll .erasing es' = Expr.relabelAll .erasing es
  | [], n, ts, h => by
    have hts : ts = [] := List.map_eq_nil_iff.1 h
    subst hts
    exact ⟨[], n, .none, rfl⟩
  | [e], n, ts, h => by
    obtain ⟨e', m, he, herase⟩ := phrase_of_lexemes e n ts h
    exact ⟨[e'], m, .some (.one (he.operand (by decide))), by simp only [Expr.relabelAll, herase]⟩
  | e :: f :: es, n, ts, h => by
    have h : ts.map Token.lexeme = lexemes (Printer.expr Ident.name e ++ (mark .comma ++
        commas (Printer.exprs Ident.name (f :: es)))) := by
      simpa only [Printer.exprs, commas, lexemes_append, lexemes_blank, List.append_assoc,
        List.nil_append] using h
    obtain ⟨us, vs, rfl, hus, hvs⟩ := split_append h
    obtain ⟨c, vs, rfl, hc, hvs⟩ := split_mark_cons hvs
    obtain ⟨e', k, he, hee⟩ := phrase_of_lexemes e n us hus
    obtain ⟨es', m, hes, hese⟩ := phrases_of_lexemes (f :: es) k vs hvs
    cases hes with
    | none => cases hese
    | some hes =>
      exact ⟨e' :: es', m, .some (.more (he.operand (by decide)) hc hes), by
        rw [Expr.relabelAll, Expr.relabelAll, hee, hese]⟩

end

/-! ## Declarations of names -/

theorem simpleType_of_lexemes {type : TypeName} (hsimple : type.IsSimple) {ts : List Token}
    (h : ts.map Token.lexeme = lexemes (Printer.type type)) : ∃ t, ts = [t] ∧ SimpleType t type := by
  cases type with
  | logical => obtain ⟨t, rfl, ht⟩ := split_mark h; exact ⟨t, rfl, .logical ht⟩
  | integer => obtain ⟨t, rfl, ht⟩ := split_mark h; exact ⟨t, rfl, .integer ht⟩
  | void => obtain ⟨t, rfl, ht⟩ := split_mark h; exact ⟨t, rfl, .void ht⟩
  | tuple _ => exact hsimple.elim

theorem typed_of_lexemes (type : TypeName) (n : NodeId) (ts : List Token)
    (h : ts.map Token.lexeme = lexemes (Printer.type type)) :
    ∃ type' m, Typed n ts type' m ∧ type'.relabel .erasing = type.relabel .erasing := by
  cases type with
  | tuple x =>
    rw [Printer.type, List.append_assoc] at h
    obtain ⟨t, us, rfl, ht, hus⟩ := split_mark_cons h
    obtain ⟨u, rfl, hu, hname⟩ := split_token hus
    exact ⟨_, _, .tuple ht hu, by rw [TypeName.relabel, TypeName.relabel, erase_ident hname]⟩
  | _ =>
    obtain ⟨t, rfl, ht⟩ := simpleType_of_lexemes (by trivial) h
    exact ⟨_, _, .simple ht, rfl⟩

theorem variable_of_lexemes (depth : Nat) (d : VarDecl) (n : NodeId) (ts : List Token)
    (h : ts.map Token.lexeme = lexemes (Printer.varDecl Ident.name depth d)) :
    ∃ d' m, Variable n ts d' m ∧ d'.relabel .erasing = d.relabel .erasing := by
  have h : ts.map Token.lexeme = lexemes (Printer.type d.type ++ (Printer.ident Ident.name d.name ++
      mark .dot)) := by
    simpa only [Printer.varDecl, Printer.typed, lexemes_append, lexemes_indent, lexemes_blank,
      lexemes_newline, List.append_assoc, List.nil_append, List.append_nil] using h
  obtain ⟨us, vs, rfl, hus, hvs⟩ := split_append h
  obtain ⟨vs, ws, rfl, hvs, hws⟩ := split_append hvs
  obtain ⟨u, rfl, hu, hname⟩ := split_token hvs
  obtain ⟨t, rfl, ht⟩ := split_mark hws
  obtain ⟨type', k, htype, herase⟩ := typed_of_lexemes d.type n us hus
  exact ⟨_, _, .mk htype hu ht, by rw [VarDecl.relabel, VarDecl.relabel, herase, erase_ident hname]⟩

theorem formal_of_lexemes {d : VarDecl} (hsimple : d.type.IsSimple) (n : NodeId) (ts : List Token)
    (h : ts.map Token.lexeme = lexemes (Printer.typed Ident.name d)) :
    ∃ d' m, Formal n ts d' m ∧ d'.relabel .erasing = d.relabel .erasing := by
  rw [Printer.typed, List.append_assoc] at h
  obtain ⟨us, vs, rfl, hus, hvs⟩ := split_append h
  obtain ⟨t, rfl, ht⟩ := simpleType_of_lexemes hsimple hus
  obtain ⟨u, rfl, hu, hname⟩ := split_token hvs
  exact ⟨_, _, .mk ht hu, by rw [VarDecl.relabel, VarDecl.relabel, erase_ident hname]⟩

/-- Pieces printed one after the other. -/
theorem repeated_of_lexemes {α : Type} {G : Form α} {f : α → List Piece} {erase : α → α} :
    ∀ (as : List α), (∀ a ∈ as, ∀ n ts, ts.map Token.lexeme = lexemes (f a) →
      ∃ a' m, G n ts a' m ∧ erase a' = erase a) → ∀ (n : NodeId) (ts : List Token),
      ts.map Token.lexeme = lexemes (as.flatMap f) →
      ∃ as' m, Repeated G n ts as' m ∧ as'.map erase = as.map erase
  | [], _, n, ts, h => by
    cases List.map_eq_nil_iff.1 h
    exact ⟨[], n, .nil, rfl⟩
  | a :: as, hG, n, ts, h => by
    rw [List.flatMap_cons] at h
    obtain ⟨us, vs, rfl, hus, hvs⟩ := split_append h
    obtain ⟨a', k, ha, hae⟩ := hG a List.mem_cons_self n us hus
    obtain ⟨as', m, has, hase⟩ := repeated_of_lexemes as
      (fun b hb => hG b (List.mem_cons_of_mem _ hb)) k vs hvs
    exact ⟨a' :: as', m, .cons ha has, by rw [List.map_cons, List.map_cons, hae, hase]⟩

/-- Pieces printed with commas between them. -/
theorem separated_of_lexemes {α : Type} {G : Form α} {f : α → List Piece} {erase : α → α} :
    ∀ (as : List α), (∀ a ∈ as, ∀ n ts, ts.map Token.lexeme = lexemes (f a) →
      ∃ a' m, G n ts a' m ∧ erase a' = erase a) → ∀ (n : NodeId) (ts : List Token),
      ts.map Token.lexeme = lexemes (commas (as.map f)) →
      ∃ as' m, Separated G n ts as' m ∧ as'.map erase = as.map erase
  | [], _, n, ts, h => by
    cases List.map_eq_nil_iff.1 h
    exact ⟨[], n, .none, rfl⟩
  | [a], hG, n, ts, h => by
    obtain ⟨a', m, ha, hae⟩ := hG a List.mem_cons_self n ts h
    exact ⟨[a'], m, .some (.one ha), by rw [List.map_singleton, List.map_singleton, hae]⟩
  | a :: b :: as, hG, n, ts, h => by
    have h : ts.map Token.lexeme = lexemes (f a ++ (mark .comma ++ commas ((b :: as).map f))) := by
      simpa only [List.map_cons, commas, lexemes_append, lexemes_blank, List.append_assoc,
        List.nil_append] using h
    obtain ⟨us, vs, rfl, hus, hvs⟩ := split_append h
    obtain ⟨c, vs, rfl, hc, hvs⟩ := split_mark_cons hvs
    obtain ⟨a', k, ha, hae⟩ := hG a List.mem_cons_self n us hus
    obtain ⟨as', m, has, hase⟩ := separated_of_lexemes (b :: as)
      (fun c hc => hG c (List.mem_cons_of_mem _ hc)) k vs hvs
    cases has with
    | none => cases hase
    | some has => exact ⟨a' :: as', m, .some (.more ha hc has), by rw [List.map_cons, hae, hase]; rfl⟩

/-! ## Statements -/

section Layout
variable {ts : List Token} {ps qs : List Piece}

theorem split_simple {depth : Nat} (h : ts.map Token.lexeme = lexemes (indent depth ++ simple ps)) :
    ∃ us d, ts = us ++ [d] ∧ us.map Token.lexeme = lexemes ps ∧ d.kind = .dot := by
  have h : ts.map Token.lexeme = lexemes (ps ++ mark .dot) := by
    simpa only [simple, lexemes_append, lexemes_indent, lexemes_newline, List.nil_append,
      List.append_nil] using h
  exact split_mark_end h

theorem split_bracketed {depth : Nat} (h : ts.map Token.lexeme = lexemes (bracketed depth ps)) :
    ∃ o us c, ts = o :: (us ++ [c]) ∧ o.kind = .openBracket ∧ us.map Token.lexeme = lexemes ps ∧
      c.kind = .closeBracket := by
  have h : ts.map Token.lexeme = lexemes (mark .openBracket ++ (ps ++ mark .closeBracket)) := by
    simpa only [bracketed, lexemes_append, lexemes_blank, lexemes_indent, lexemes_newline,
      List.nil_append, List.append_nil, List.append_assoc] using h
  obtain ⟨o, us, rfl, ho, h⟩ := split_mark_cons h
  obtain ⟨us, c, rfl, hus, hc⟩ := split_mark_end h
  exact ⟨o, us, c, rfl, ho, hus, hc⟩

theorem split_headed {depth : Nat} {k : TokenKind}
    (h : ts.map Token.lexeme = lexemes (indent depth ++ mark k ++ blank ++ ps ++ qs)) :
    ∃ w us vs, ts = w :: (us ++ vs) ∧ w.kind = k ∧ us.map Token.lexeme = lexemes ps ∧
      vs.map Token.lexeme = lexemes qs := by
  have h : ts.map Token.lexeme = lexemes (mark k ++ (ps ++ qs)) := by
    simpa only [lexemes_append, lexemes_indent, lexemes_blank, List.nil_append, List.append_nil,
      List.append_assoc] using h
  obtain ⟨w, us, rfl, hw, h⟩ := split_mark_cons h
  obtain ⟨us, vs, rfl, hus, hvs⟩ := split_append h
  exact ⟨w, us, vs, rfl, hw, hus, hvs⟩

theorem split_arrow {k j : TokenKind}
    (h : ts.map Token.lexeme = lexemes (mark k ++ blank ++ mark j ++ blank ++ ps)) :
    ∃ w a us, ts = w :: a :: us ∧ w.kind = k ∧ a.kind = j ∧ us.map Token.lexeme = lexemes ps := by
  have h : ts.map Token.lexeme = lexemes (mark k ++ (mark j ++ ps)) := by
    simpa only [lexemes_append, lexemes_blank, List.append_nil, List.nil_append,
      List.append_assoc] using h
  obtain ⟨w, us, rfl, hw, h⟩ := split_mark_cons h
  obtain ⟨a, us, rfl, ha, h⟩ := split_mark_cons h
  exact ⟨w, a, us, rfl, hw, ha, h⟩

theorem split_word {k : TokenKind} (h : ts.map Token.lexeme = lexemes (mark k ++ blank ++ ps)) :
    ∃ w us, ts = w :: us ∧ w.kind = k ∧ us.map Token.lexeme = lexemes ps := by
  have h : ts.map Token.lexeme = lexemes (mark k ++ ps) := by
    simpa only [lexemes_append, lexemes_blank, List.append_nil] using h
  exact split_mark_cons h

end Layout

mutual

theorem sentence_of_lexemes (depth : Nat) : ∀ (s : Stmt) (n : NodeId) (ts : List Token),
    ts.map Token.lexeme = lexemes (Printer.stmt Ident.name depth s) →
    ∃ s' m, Sentence n ts s' m ∧ s'.relabel .erasing = s.relabel .erasing
  | .assign l v, n, ts, h => by
    obtain ⟨us, d, rfl, hus, hd⟩ := split_simple h
    obtain ⟨l', v', m, hassign, hle, hve⟩ := (phrase_of_lexemes v).assign l n us hus
    exact ⟨_, _, .assign hassign hd, by rw [Stmt.relabel, Stmt.relabel, hle, hve]⟩
  | .increment l, n, ts, h => by
    obtain ⟨us, d, rfl, hus, hd⟩ := split_simple h
    obtain ⟨us, o, rfl, hus, ho⟩ := split_mark_end hus
    obtain ⟨l', m, hl, hle⟩ := phrase_of_loc l n us hus
    rw [List.append_assoc]
    exact ⟨_, _, .increment (hl.operand (by decide)) ho hd, by rw [Stmt.relabel, Stmt.relabel, hle]⟩
  | .decrement l, n, ts, h => by
    obtain ⟨us, d, rfl, hus, hd⟩ := split_simple h
    obtain ⟨us, o, rfl, hus, ho⟩ := split_mark_end hus
    obtain ⟨l', m, hl, hle⟩ := phrase_of_loc l n us hus
    rw [List.append_assoc]
    exact ⟨_, _, .decrement (hl.operand (by decide)) ho hd, by rw [Stmt.relabel, Stmt.relabel, hle]⟩
  | .ifThen c b, n, ts, h => by
    obtain ⟨w, us, vs, rfl, hw, hus, hvs⟩ := split_headed h
    obtain ⟨c', k, hc, hce⟩ := phrase_of_lexemes c n us hus
    obtain ⟨b', m, hb, hbe⟩ := body_of_lexemes depth b k vs hvs
    exact ⟨_, _, .ifThen hw (hc.operand (by decide)) hb, by rw [Stmt.relabel, Stmt.relabel, hce, hbe]⟩
  | .ifElse c b b₂, n, ts, h => by
    have h : ts.map Token.lexeme = lexemes (indent depth ++ mark .ifWord ++ blank ++
        Printer.expr Ident.name c ++ (bracketed depth (Printer.block Ident.name (depth + 1) b) ++
        (mark .elseWord ++ bracketed depth (Printer.block Ident.name (depth + 1) b₂)))) := by
      simpa only [Printer.stmt, lexemes_append, lexemes_indent, List.nil_append,
        List.append_assoc] using h
    obtain ⟨w, us, blocks, rfl, hw, hus, hblocks⟩ := split_headed h
    obtain ⟨vs, ws, rfl, hvs, hws⟩ := split_append hblocks
    obtain ⟨v, ws, rfl, hv, hws⟩ := split_mark_cons hws
    obtain ⟨c', k, hc, hce⟩ := phrase_of_lexemes c n us hus
    obtain ⟨b', j, hb, hbe⟩ := body_of_lexemes depth b k vs hvs
    obtain ⟨b₂', m, hb₂, hbe₂⟩ := body_of_lexemes depth b₂ j ws hws
    exact ⟨_, _, .ifElse hw (hc.operand (by decide)) hb hv hb₂, by
      rw [Stmt.relabel, Stmt.relabel, hce, hbe, hbe₂]⟩
  | .whileDo c b, n, ts, h => by
    obtain ⟨w, us, vs, rfl, hw, hus, hvs⟩ := split_headed h
    obtain ⟨c', k, hc, hce⟩ := phrase_of_lexemes c n us hus
    obtain ⟨b', m, hb, hbe⟩ := body_of_lexemes depth b k vs hvs
    exact ⟨_, _, .whileDo hw (hc.operand (by decide)) hb, by rw [Stmt.relabel, Stmt.relabel, hce, hbe]⟩
  | .read l, n, ts, h => by
    obtain ⟨us, d, rfl, hus, hd⟩ := split_simple h
    obtain ⟨w, a, us, rfl, hw, ha, hus⟩ := split_arrow hus
    obtain ⟨l', m, hl, hle⟩ := phrase_of_loc l n us hus
    exact ⟨_, _, .read hw ha (hl.operand (by decide)) hd, by rw [Stmt.relabel, Stmt.relabel, hle]⟩
  | .write v, n, ts, h => by
    obtain ⟨us, d, rfl, hus, hd⟩ := split_simple h
    obtain ⟨w, a, us, rfl, hw, ha, hus⟩ := split_arrow hus
    obtain ⟨v', m, hv, hve⟩ := phrase_of_lexemes v n us hus
    exact ⟨_, _, .write hw ha (hv.operand (by decide)) hd, by rw [Stmt.relabel, Stmt.relabel, hve]⟩
  | .call f args, n, ts, h => by
    obtain ⟨us, d, rfl, hus, hd⟩ := split_simple h
    obtain ⟨e', m, he, hee⟩ := phrase_of_lexemes (.call f args) n us hus
    cases e' <;> simp only [Expr.relabel, Expr.call.injEq, reduceCtorEq] at hee
    exact ⟨_, _, .call (he.operand (by decide)) hd, by rw [Stmt.relabel, Stmt.relabel, hee.1, hee.2]⟩
  | .ret none _, n, ts, h => by
    obtain ⟨us, d, rfl, hus, hd⟩ := split_simple h
    obtain ⟨w, rfl, hw⟩ := split_mark hus
    exact ⟨_, _, .leave hw hd, rfl⟩
  | .ret (some v) _, n, ts, h => by
    obtain ⟨us, d, rfl, hus, hd⟩ := split_simple h
    obtain ⟨w, us, rfl, hw, hus⟩ := split_word hus
    obtain ⟨v', m, hv, hve⟩ := phrase_of_lexemes v n us hus
    exact ⟨_, _, .giveBack hw (hv.operand (by decide)) hd, by
      rw [Stmt.relabel, Stmt.relabel, Option.map_some, Option.map_some, hve]; rfl⟩

theorem body_of_lexemes (depth : Nat) : ∀ (b : Block) (n : NodeId) (ts : List Token),
    ts.map Token.lexeme = lexemes (bracketed depth (Printer.block Ident.name (depth + 1) b)) →
    ∃ b' m, Body n ts b' m ∧ b'.relabel .erasing = b.relabel .erasing
  | .mk ds ss, n, ts, h => by
    obtain ⟨o, us, c, rfl, ho, hus, hc⟩ := split_bracketed h
    rw [Printer.block] at hus
    obtain ⟨us, vs, rfl, hus, hvs⟩ := split_append hus
    obtain ⟨ds', k, hds, hdse⟩ := repeated_of_lexemes ds
      (fun d _ => variable_of_lexemes (depth + 1) d) n us hus
    obtain ⟨ss', m, hss, hsse⟩ := sentences_of_lexemes (depth + 1) ss k vs hvs
    rw [List.append_assoc]
    exact ⟨_, _, .mk ho hds hss hc, by rw [Block.relabel, Block.relabel, hdse, hsse]⟩

theorem sentences_of_lexemes (depth : Nat) : ∀ (ss : List Stmt) (n : NodeId) (ts : List Token),
    ts.map Token.lexeme = lexemes (Printer.stmts Ident.name depth ss) →
    ∃ ss' m, Repeated Sentence n ts ss' m ∧ Stmt.relabelAll .erasing ss' = Stmt.relabelAll .erasing ss
  | [], n, ts, h => by
    cases List.map_eq_nil_iff.1 h
    exact ⟨[], n, .nil, rfl⟩
  | s :: ss, n, ts, h => by
    rw [Printer.stmts] at h
    obtain ⟨us, vs, rfl, hus, hvs⟩ := split_append h
    obtain ⟨s', k, hs, hse⟩ := sentence_of_lexemes depth s n us hus
    obtain ⟨ss', m, hss, hsse⟩ := sentences_of_lexemes depth ss k vs hvs
    exact ⟨s' :: ss', m, .cons hs hss, by rw [Stmt.relabelAll, Stmt.relabelAll, hse, hsse]⟩

end

/-! ## Programs -/

theorem declared_of_lexemes {d : Decl} (hd : d.Printable) (n : NodeId) (ts : List Token)
    (h : ts.map Token.lexeme = lexemes (Printer.decl Ident.name d)) :
    ∃ d' m, Declared n ts d' m ∧ d'.relabel .erasing = d.relabel .erasing := by
  cases d with
  | var d =>
    obtain ⟨d', m, hv, hve⟩ := variable_of_lexemes 0 d n ts h
    exact ⟨_, _, .var hv, by rw [Decl.relabel, Decl.relabel, hve]⟩
  | function d =>
    obtain ⟨hresult, _, hformals, _⟩ := hd
    have h : ts.map Token.lexeme = lexemes (Printer.type d.result ++ (Printer.ident Ident.name d.name ++
        (mark .openCurly ++ (commas (d.formals.map (typed Ident.name)) ++ (mark .closeCurly ++
          bracketed 0 (Printer.block Ident.name 1 d.body)))))) := by
      simpa only [Printer.decl, lexemes_append, lexemes_indent, lexemes_blank, lexemes_newline,
        List.nil_append, List.append_nil, List.append_assoc] using h
    obtain ⟨us, vs, rfl, hus, hvs⟩ := split_append h
    obtain ⟨t, rfl, ht⟩ := simpleType_of_lexemes hresult hus
    obtain ⟨us, rest, rfl, hus, hrest⟩ := split_append hvs
    obtain ⟨u, rfl, hu, hname⟩ := split_token hus
    obtain ⟨o, rest, rfl, ho, hrest⟩ := split_mark_cons hrest
    obtain ⟨fs, rest, rfl, hfs, hrest⟩ := split_append hrest
    obtain ⟨c, bs, rfl, hc, hbs⟩ := split_mark_cons hrest
    obtain ⟨formals', k, hf, hfe⟩ := separated_of_lexemes d.formals
      (fun f hf => formal_of_lexemes (hformals f hf).1) (n + 1) fs hfs
    obtain ⟨body', m, hb, hbe⟩ := body_of_lexemes 0 d.body k bs hbs
    refine ⟨_, _, .function ht hu ho hf hc hb, ?_⟩
    simp only [Decl.relabel, FunctionDecl.relabel, hfe, hbe, erase_ident hname]
  | tuple d =>
    have h : ts.map Token.lexeme = lexemes (mark .tupleWord ++ (Printer.ident Ident.name d.name ++
        (mark .openCurly ++ (d.fields.flatMap (Printer.varDecl Ident.name 1) ++ (mark .closeCurly ++
          mark .dot))))) := by
      simpa only [Printer.decl, lexemes_append, lexemes_indent, lexemes_blank, lexemes_newline,
        List.nil_append, List.append_nil, List.append_assoc] using h
    obtain ⟨t, us, rfl, ht, hus⟩ := split_mark_cons h
    obtain ⟨us, rest, rfl, hus, hrest⟩ := split_append hus
    obtain ⟨u, rfl, hu, hname⟩ := split_token hus
    obtain ⟨o, rest, rfl, ho, hrest⟩ := split_mark_cons hrest
    obtain ⟨fs, rest, rfl, hfs, hrest⟩ := split_append hrest
    obtain ⟨c, ds, rfl, hc, hds⟩ := split_mark_cons hrest
    obtain ⟨d', rfl, hd'⟩ := split_mark hds
    obtain ⟨fields', m, hf, hfe⟩ := repeated_of_lexemes d.fields
      (fun f _ => variable_of_lexemes 1 f) (n + 1) fs hfs
    refine ⟨_, _, .tuple ht hu ho hf hc hd', ?_⟩
    simp only [Decl.relabel, TupleDecl.relabel, hfe, erase_ident hname]

/-- Tokens with the lexemes of a printed program derive one that says the same. -/
theorem derives_of_lexemes {p : Program} (hp : p.Printable) (ts : List Token)
    (h : ts.map Token.lexeme = lexemes (Printer.program Ident.name p)) :
    ∃ q m, Derives ts q m ∧ q.erase = p.erase := by
  obtain ⟨ds', m, hds, herase⟩ :=
    repeated_of_lexemes p.decls (fun d hd => declared_of_lexemes (hp d hd)) 0 ts h
  exact ⟨⟨ds'⟩, m, hds, by rw [Program.erase, Program.erase, Program.relabel, Program.relabel, herase]⟩

end BaseLang.Grammar
