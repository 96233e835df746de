import BaseLang.Proofs.Grammar.Soundness
import BaseLang.Proofs.Printing.Parsed
import BaseLang.Proofs.Printing.Pieces
import BaseLang.Proofs.Scanning.Tiling

/-
  Printing keeps the tokens of the source.

  What the parser takes from a token is in the tree, and what the printer writes for a
  tree is what was taken. Only the parentheses are the printer's own, and a numeral is
  written in its shortest form:

    1. `Content`, `contents` — what tokens say, parentheses apart;
    2. `Phrase.content`, `Sentence.content`, `Declared.content` — the tokens of a derivation
       say what its printed tree says, one case for each form;
    3. `text_tokens` — the text of a parsed program has the tokens of its source.
-/

namespace BaseLang

/-! ## What tokens say -/

/-- What a token says: an integer literal its value, every other token its text. -/
inductive Content where
  | integer (value? : Option Int32)
  | other (kind : TokenKind) (text : String)
  deriving DecidableEq, Repr

namespace Lexeme

def isParen (l : Lexeme) : Bool := l.kind == .openParen || l.kind == .closeParen

def content (l : Lexeme) : Content :=
  if l.kind = .intLiteral then .integer (Decimal.int32? l.text.toList) else .other l.kind l.text

end Lexeme

/-- What the tokens say that are no parentheses, in their order. -/
def contents (ls : List Lexeme) : List Content := (ls.filter (!·.isParen)).map Lexeme.content

theorem contents_append (ls ms : List Lexeme) : contents (ls ++ ms) = contents ls ++ contents ms := by
  rw [contents, List.filter_append, List.map_append]
  rfl

/-- What a run of tokens says. -/
def saidBy (ts : List Token) : List Content := contents (ts.map Token.lexeme)

theorem saidBy_append (ts us : List Token) : saidBy (ts ++ us) = saidBy ts ++ saidBy us := by
  rw [saidBy, List.map_append, contents_append]
  rfl

theorem saidBy_cons (t : Token) (ts : List Token) : saidBy (t :: ts) = saidBy [t] ++ saidBy ts :=
  saidBy_append [t] ts

theorem saidBy_paren {t : Token} (ht : t.kind = .openParen ∨ t.kind = .closeParen) : saidBy [t] = [] := by
  have hparen : t.lexeme.isParen = true := by
    rcases ht with ht | ht <;> simp [Token.lexeme, Lexeme.isParen, ht]
  simp [saidBy, contents, hparen]

namespace Printer

def said (ps : List Piece) : List Content := contents (lexemes ps)

@[simp] theorem said_append (ps qs : List Piece) : said (ps ++ qs) = said ps ++ said qs := by
  rw [said, lexemes_append, contents_append]
  rfl

@[simp] theorem said_nil : said [] = [] := rfl

@[simp] theorem said_blank : said blank = [] := rfl

@[simp] theorem said_newline : said newline = [] := rfl

@[simp] theorem said_indent (depth : Nat) : said (indent depth) = [] := rfl

@[simp] theorem said_openParen : said (mark .openParen) = [] := rfl

@[simp] theorem said_closeParen : said (mark .closeParen) = [] := rfl

/-- A kind that is written in one way is written like that by the printer. -/
theorem mark_eq {k : TokenKind} {text : String} (hk : k.isFixed = true) (h : IsToken k text) :
    mark k = [.token k text] := by
  obtain ⟨p, hp, hlen, _, hkind⟩ := isToken_iff.1 h
  have hpos := Pattern.matchLength_pos hp
  cases p with
  | blanks | comment => cases hkind
  | numeral | quoted => cases hkind; cases hk
  | word =>
    have hreserved : ∀ e ∈ TokenKind.reserved, mark e.2 = [.token e.2 e.1] := by decide
    rw [Pattern.kind?, String.ofList_toList, TokenKind.ofWord] at hkind
    cases hlookup : TokenKind.reserved.lookup text with
    | none => rw [hlookup] at hkind; cases hkind; cases hk
    | some k' =>
      rw [hlookup] at hkind
      cases hkind
      obtain ⟨before, after, heq, _⟩ := List.lookup_eq_some_iff.1 hlookup
      exact hreserved (text, _) (by rw [heq]; exact List.mem_append_right _ List.mem_cons_self)
  | mark k' t =>
    have hmark := Pattern.of_mark_mem (fun k t => mark k == [.token k t]) (by decide)
      (List.mem_of_find?_eq_some hp)
    have hchars : t.toList = text.toList := by
      rw [Pattern.matchLength] at hlen hpos
      split at hlen
      · next hpre => exact (List.isPrefixOf_iff_prefix.1 hpre).eq_of_length hlen
      · next hpre => rw [if_neg hpre] at hpos; cases hpos
    cases hkind
    rw [← String.toList_inj.1 hchars]
    exact eq_of_beq hmark

end Printer

namespace Grammar
open Printer
variable {t : Token}

/-- A token that is written in one way says what the printer writes for it. -/
theorem Written.said_mark {k : TokenKind} (h : Written t) (ht : t.kind = k) (hk : k.isFixed = true) :
    said (mark k) = saidBy [t] := by
  subst ht
  rw [mark_eq hk h]
  rfl

theorem said_ident {n : NodeId} (ht : t.kind = .identifier) :
    said (ident Ident.name ⟨n, t.text, t.start⟩) = saidBy [t] := by
  rw [saidBy, List.map_singleton, Token.lexeme, ht]
  rfl

theorem saidBy_group {o c : Token} (ho : o.kind = .openParen) (hc : c.kind = .closeParen)
    (ts : List Token) : saidBy (o :: (ts ++ [c])) = saidBy ts := by
  rw [saidBy_cons, saidBy_append, saidBy_paren (.inl ho), saidBy_paren (.inr hc), List.append_nil,
    List.nil_append]

/-! ## Expressions -/

theorem said_loc_access (id : NodeId) (base : Loc) (field : Ident) :
    said (loc Ident.name (.access id base field)) =
      said (loc Ident.name base) ++ said (mark .colon) ++ said (ident Ident.name field) := by
  simp [loc]

theorem said_binary (op : BinaryOp) (left right : Expr) :
    said (expr Ident.name (.binary op left right)) =
      said (expr Ident.name left) ++ said (mark op.kind) ++ said (expr Ident.name right) := by
  simp [expr]

theorem said_assign (target : Loc) (value : Expr) :
    said (expr Ident.name (.assign target value)) =
      said (loc Ident.name target) ++ said (mark .assignment) ++ said (expr Ident.name value) := by
  simp [expr]

theorem said_call (callee : Ident) (args : List Expr) :
    said (expr Ident.name (.call callee args)) =
      said (ident Ident.name callee) ++ said (commas (exprs Ident.name args)) := by
  simp [expr]

theorem said_unary {k : TokenKind} {op : UnaryOp} (hop : unaryOp? k = some op) (operand : Expr) :
    said (expr Ident.name (.unary op operand)) = said (mark k) ++ said (expr Ident.name operand) := by
  unfold unaryOp? at hop
  split at hop <;> cases hop <;> simp [expr]

theorem said_commas (ps : List Piece) {pss : List (List Piece)} (hne : pss ≠ []) :
    said (commas (ps :: pss)) = said ps ++ said (mark .comma) ++ said (commas pss) := by
  cases pss with
  | nil => exact absurd rfl hne
  | cons qs pss => simp [commas]

theorem isFixed_of_unaryOp? {k : TokenKind} {op : UnaryOp} (hop : unaryOp? k = some op) :
    k.isFixed = true := by
  unfold unaryOp? at hop
  split at hop <;> first | rfl | cases hop

theorem isFixed_kind (op : BinaryOp) : op.kind.isFixed = true := by
  cases op <;> rfl

theorem exprs_ne_nil {n : NodeId} {ts : List Token} {es : List Expr} {m : NodeId}
    (h : Commas (Phrase .assignment) n ts es m) : exprs Ident.name es ≠ [] := by
  cases h <;> nofun

mutual

/-- The tokens of an expression say what the printer writes for its tree. -/
theorem Phrase.content {p : BindingPower} {n : NodeId} {ts : List Token} {e : Expr} {m : NodeId} :
    Phrase p n ts e m → (∀ t ∈ ts, Written t) → said (expr Ident.name e) = saidBy ts
  | .int (t := t) (v := v) ht hv, _ => by
    have hprinted : said (expr Ident.name (.int v t.start)) = [.integer (some v)] := by
      show [Content.integer (Decimal.int32? (String.ofList _).toList)] = _
      rw [String.toList_ofList, Decimal.int32?_signed]
    rw [hprinted, saidBy, List.map_singleton, Token.lexeme, ht, ← hv]
    rfl
  | .string ht, _ => by
    rw [saidBy, List.map_singleton, Token.lexeme, ht]
    rfl
  | .true ht, hts => (hts _ (List.mem_singleton.2 rfl)).said_mark ht rfl
  | .false ht, hts => (hts _ (List.mem_singleton.2 rfl)).said_mark ht rfl
  | .name ht, _ => said_ident ht
  | .group ho h hc, hts => by
    rw [saidBy_group ho hc]
    exact h.content fun t ht => hts t (by simp [ht])
  | .call h ho hargs hc, hts => by
    have hcallee := h.content fun t ht => hts t (by simp [ht])
    have hlist := Phrase.content_arguments hargs fun t ht => hts t (by simp [ht])
    rw [said_call, saidBy_append, saidBy_group ho hc, ← hcallee, ← hlist]
    rfl
  | .access h hc hf, hts => by
    have hbase := h.content fun t ht => hts t (by simp [ht])
    have hcolon := (hts _ (by simp)).said_mark hc rfl
    rw [saidBy_append, saidBy_cons, ← hbase, ← hcolon, ← said_ident hf, ← List.append_assoc]
    exact said_loc_access ..
  | .unary ht h, hts => by
    have hsign := (hts _ (by simp)).said_mark rfl (isFixed_of_unaryOp? ht)
    have hoperand := h.content fun t ht => hts t (by simp [ht])
    rw [said_unary ht, saidBy_cons, hsign, hoperand]
  | .binary hl ht _ _ hr, hts => by
    have hleft := hl.content fun t ht => hts t (by simp [ht])
    have hop := (hts _ (by simp)).said_mark ht (isFixed_kind _)
    have hright := hr.content fun t ht => hts t (by simp [ht])
    rw [said_binary, saidBy_append, saidBy_cons, hleft, hop, hright, List.append_assoc]
  | .assign h ht hv, hts => by
    have htarget := h.content fun t ht => hts t (by simp [ht])
    have hequals := (hts _ (by simp)).said_mark ht rfl
    have hvalue := hv.content fun t ht => hts t (by simp [ht])
    rw [said_assign, saidBy_append, saidBy_cons, ← htarget, hequals, hvalue, List.append_assoc]
    rfl
  | .weaken _ h, hts => h.content hts

theorem Phrase.content_arguments {n : NodeId} {ts : List Token} {es : List Expr} {m : NodeId} :
    Separated (Phrase .assignment) n ts es m → (∀ t ∈ ts, Written t) →
      said (commas (exprs Ident.name es)) = saidBy ts
  | .none, _ => rfl
  | .some h, hts => Phrase.content_list h hts

theorem Phrase.content_list {n : NodeId} {ts : List Token} {es : List Expr} {m : NodeId} :
    Commas (Phrase .assignment) n ts es m → (∀ t ∈ ts, Written t) →
      said (commas (exprs Ident.name es)) = saidBy ts
  | .one h, hts => h.content hts
  | .more h hc hs, hts => by
    have hfirst := h.content fun t ht => hts t (by simp [ht])
    have hcomma := (hts _ (by simp)).said_mark hc rfl
    have hrest := Phrase.content_list hs fun t ht => hts t (by simp [ht])
    rw [exprs, said_commas _ (exprs_ne_nil hs), saidBy_append, saidBy_cons, hfirst, hcomma, hrest, List.append_assoc]

end

/-! ## Declarations of names -/

theorem SimpleType.content {type : TypeName} (h : SimpleType t type) (ht : Written t) :
    said (Printer.type type) = saidBy [t] := by
  cases h with
  | logical hk => exact ht.said_mark hk rfl
  | integer hk => exact ht.said_mark hk rfl
  | void hk => exact ht.said_mark hk rfl

theorem Typed.content {n : NodeId} {ts : List Token} {type : TypeName} {m : NodeId}
    (h : Typed n ts type m) (hts : ∀ t ∈ ts, Written t) : said (Printer.type type) = saidBy ts := by
  cases h with
  | simple h => exact h.content (hts _ (by simp))
  | tuple ht hu =>
    have hword := (hts _ (by simp)).said_mark ht rfl
    have hname := said_ident hu (n := n)
    rw [saidBy_cons, ← hword, ← hname]
    simp [Printer.type, ident]

theorem Variable.content {n : NodeId} {ts : List Token} {d : VarDecl} {m : NodeId}
    (h : Variable n ts d m) (hts : ∀ t ∈ ts, Written t) (depth : Nat) :
    said (varDecl Ident.name depth d) = saidBy ts := by
  cases h with
  | @mk n ts type k u d h hu hd =>
    have htype := h.content fun t ht => hts t (by simp [ht])
    have hname := said_ident hu (n := k)
    have hdot := (hts _ (by simp)).said_mark hd rfl
    rw [saidBy_append, saidBy_cons, ← htype, ← hname, ← hdot]
    simp [varDecl, typed]

theorem Formal.content {n : NodeId} {ts : List Token} {d : VarDecl} {m : NodeId}
    (h : Formal n ts d m) (hts : ∀ t ∈ ts, Written t) : said (typed Ident.name d) = saidBy ts := by
  cases h with
  | @mk n t type u h hu =>
    have htype := h.content (hts _ (by simp))
    have hname := said_ident hu (n := n)
    rw [saidBy_cons, ← htype, ← hname]
    simp [typed]

section Lists
variable {α : Type} {G : Form α} {f : α → List Piece}

theorem Repeated.content {n : NodeId} {ts : List Token} {as : List α} {m : NodeId}
    (h : Repeated G n ts as m) (hts : ∀ t ∈ ts, Written t)
    (hG : ∀ n ts a m, G n ts a m → (∀ t ∈ ts, Written t) → said (f a) = saidBy ts) :
    said (as.flatMap f) = saidBy ts := by
  induction h with
  | nil => rfl
  | cons h _ ih =>
    rw [List.forall_mem_append] at hts
    rw [List.flatMap_cons, said_append, saidBy_append, hG _ _ _ _ h hts.1, ih hts.2]

theorem Commas.content {n : NodeId} {ts : List Token} {as : List α} {m : NodeId}
    (h : Commas G n ts as m) (hts : ∀ t ∈ ts, Written t)
    (hG : ∀ n ts a m, G n ts a m → (∀ t ∈ ts, Written t) → said (f a) = saidBy ts) :
    as ≠ [] ∧ said (commas (as.map f)) = saidBy ts := by
  induction h with
  | one h => exact ⟨nofun, hG _ _ _ _ h hts⟩
  | more h hc _ ih =>
    rw [List.forall_mem_append, List.forall_mem_cons] at hts
    obtain ⟨hne, hrest⟩ := ih hts.2.2
    refine ⟨nofun, ?_⟩
    rw [List.map_cons, said_commas _ (by simpa using hne), saidBy_append, saidBy_cons,
      hG _ _ _ _ h hts.1, hts.2.1.said_mark hc rfl, hrest, List.append_assoc]

end Lists

/-! ## Statements -/

theorem said_bracketed (depth : Nat) (ps : List Piece) :
    said (bracketed depth ps) = said (mark .openBracket) ++ said ps ++ said (mark .closeBracket) := by
  simp [bracketed]

mutual

/-- The tokens of a statement say what the printer writes for its tree. -/
theorem Sentence.content {n : NodeId} {ts : List Token} {s : Stmt} {m : NodeId} :
    Sentence n ts s m → (∀ t ∈ ts, Written t) → ∀ depth, said (stmt Ident.name depth s) = saidBy ts
  | .assign h hd, hts, depth => by
    have hassign := h.content fun t ht => hts t (by simp [ht])
    have hdot := (hts _ (by simp)).said_mark hd rfl
    rw [saidBy_append, ← hassign, ← hdot, said_assign]
    simp [stmt, simple]
  | .call h hd, hts, depth => by
    have hcall := h.content fun t ht => hts t (by simp [ht])
    have hdot := (hts _ (by simp)).said_mark hd rfl
    rw [saidBy_append, ← hcall, ← hdot]
    simp [stmt, simple]
  | .increment h ho hd, hts, depth => by
    have htarget := h.content fun t ht => hts t (by simp [ht])
    have hop := (hts _ (by simp)).said_mark ho rfl
    have hdot := (hts _ (by simp)).said_mark hd rfl
    rw [saidBy_append, saidBy_cons, ← htarget, ← hop, ← hdot]
    simp [stmt, simple, expr]
  | .decrement h ho hd, hts, depth => by
    have htarget := h.content fun t ht => hts t (by simp [ht])
    have hop := (hts _ (by simp)).said_mark ho rfl
    have hdot := (hts _ (by simp)).said_mark hd rfl
    rw [saidBy_append, saidBy_cons, ← htarget, ← hop, ← hdot]
    simp [stmt, simple, expr]
  | .ifThen hw h hb, hts, depth => by
    have hword := (hts _ (by simp)).said_mark hw rfl
    have hcond := h.content fun t ht => hts t (by simp [ht])
    have hbody := hb.content (fun t ht => hts t (by simp [ht])) depth
    rw [saidBy_cons, saidBy_append, ← hword, ← hcond, ← hbody]
    simp [stmt]
  | .ifElse hw h hb hv ho, hts, depth => by
    have hword := (hts _ (by simp)).said_mark hw rfl
    have hcond := h.content fun t ht => hts t (by simp [ht])
    have hbody := hb.content (fun t ht => hts t (by simp [ht])) depth
    have helse := (hts _ (by simp)).said_mark hv rfl
    have hother := ho.content (fun t ht => hts t (by simp [ht])) depth
    rw [saidBy_cons, ← hword, saidBy_append, saidBy_append, saidBy_cons, ← hcond, ← hbody, ← helse,
      ← hother]
    simp [stmt]
  | .whileDo hw h hb, hts, depth => by
    have hword := (hts _ (by simp)).said_mark hw rfl
    have hcond := h.content fun t ht => hts t (by simp [ht])
    have hbody := hb.content (fun t ht => hts t (by simp [ht])) depth
    rw [saidBy_cons, saidBy_append, ← hword, ← hcond, ← hbody]
    simp [stmt]
  | .read hw ha h hd, hts, depth => by
    have hword := (hts _ (by simp)).said_mark hw rfl
    have harrow := (hts _ (by simp)).said_mark ha rfl
    have htarget := h.content fun t ht => hts t (by simp [ht])
    have hdot := (hts _ (by simp)).said_mark hd rfl
    rw [saidBy_cons, ← hword, saidBy_cons, saidBy_append, ← harrow, ← htarget, ← hdot]
    simp [stmt, simple, expr]
  | .write hw ha h hd, hts, depth => by
    have hword := (hts _ (by simp)).said_mark hw rfl
    have harrow := (hts _ (by simp)).said_mark ha rfl
    have hvalue := h.content fun t ht => hts t (by simp [ht])
    have hdot := (hts _ (by simp)).said_mark hd rfl
    rw [saidBy_cons, ← hword, saidBy_cons, saidBy_append, ← harrow, ← hvalue, ← hdot]
    simp [stmt, simple]
  | .leave hw hd, hts, depth => by
    have hword := (hts _ (by simp)).said_mark hw rfl
    have hdot := (hts _ (by simp)).said_mark hd rfl
    rw [saidBy_cons, ← hword, ← hdot]
    simp [stmt, simple]
  | .giveBack hw h hd, hts, depth => by
    have hword := (hts _ (by simp)).said_mark hw rfl
    have hvalue := h.content fun t ht => hts t (by simp [ht])
    have hdot := (hts _ (by simp)).said_mark hd rfl
    rw [saidBy_cons, saidBy_append, ← hword, ← hvalue, ← hdot]
    simp [stmt, simple]

theorem Body.content {n : NodeId} {ts : List Token} {b : Block} {m : NodeId} :
    Body n ts b m → (∀ t ∈ ts, Written t) → ∀ depth,
      said (bracketed depth (block Ident.name (depth + 1) b)) = saidBy ts
  | .mk ho hd hs hc, hts, depth => by
    have hopen := (hts _ (by simp)).said_mark ho rfl
    have hdecls := hd.content (fun t ht => hts t (by simp [ht]))
      (f := varDecl Ident.name (depth + 1)) fun _ _ _ _ h hts => h.content hts _
    have hstmts := Sentence.content_all hs (fun t ht => hts t (by simp [ht])) (depth + 1)
    have hclose := (hts _ (by simp)).said_mark hc rfl
    rw [saidBy_cons, saidBy_append, saidBy_append, ← hopen, ← hdecls, ← hstmts, ← hclose, said_bracketed]
    simp [block]

theorem Sentence.content_all {n : NodeId} {ts : List Token} {ss : List Stmt} {m : NodeId} :
    Repeated Sentence n ts ss m → (∀ t ∈ ts, Written t) → ∀ depth,
      said (stmts Ident.name depth ss) = saidBy ts
  | .nil, _, _ => rfl
  | .cons h hs, hts, depth => by
    have hfirst := h.content (fun t ht => hts t (by simp [ht])) depth
    have hrest := Sentence.content_all hs (fun t ht => hts t (by simp [ht])) depth
    rw [saidBy_append, ← hfirst, ← hrest, stmts, said_append]

end

/-! ## Declarations -/

theorem Declared.content {n : NodeId} {ts : List Token} {d : Decl} {m : NodeId}
    (h : Declared n ts d m) (hts : ∀ t ∈ ts, Written t) : said (decl Ident.name d) = saidBy ts := by
  cases h with
  | var h => exact h.content hts 0
  | @function n t result u o ts formals k c us body m ht hu ho hf hc hb =>
    have hresult := ht.content (hts _ (by simp))
    have hname := said_ident hu (n := n)
    have hopen := (hts _ (by simp)).said_mark ho rfl
    have hformals : said (commas (formals.map (typed Ident.name))) = saidBy ts := by
      cases hf with
      | none => rfl
      | some hf =>
        exact (hf.content (fun t ht => hts t (by simp [ht])) fun _ _ _ _ h => h.content).2
    have hclose := (hts _ (by simp)).said_mark hc rfl
    have hbody := hb.content (fun t ht => hts t (by simp [ht])) 0
    rw [saidBy_cons, ← hresult, saidBy_cons, ← hname, saidBy_cons, ← hopen, saidBy_append, saidBy_cons,
      ← hformals, ← hclose, ← hbody]
    simp [decl]
  | @tuple n t u o ts fields m c d ht hu ho hf hc hd =>
    have hword := (hts _ (by simp)).said_mark ht rfl
    have hname := said_ident hu (n := n)
    have hopen := (hts _ (by simp)).said_mark ho rfl
    have hfields := hf.content (fun t ht => hts t (by simp [ht]))
      (f := varDecl Ident.name 1) fun _ _ _ _ h hts => h.content hts 1
    have hclose := (hts _ (by simp)).said_mark hc rfl
    have hdot := (hts _ (by simp)).said_mark hd rfl
    rw [saidBy_cons, ← hword, saidBy_cons, ← hname, saidBy_cons, ← hopen, saidBy_append, saidBy_cons,
      ← hfields, ← hclose, ← hdot]
    simp [decl]

/-- The tokens of a program say what the printer writes for it. -/
theorem Derives.content {ts : List Token} {p : Program} {m : NodeId} (h : Derives ts p m)
    (hts : ∀ t ∈ ts, Written t) : said (program Ident.name p) = saidBy ts :=
  Repeated.content h hts fun _ _ _ _ h => h.content

end Grammar

/-! ## Sources -/

/-- The tokens of a source are read to the last one. -/
theorem derives_of_scan {source : String} {ts : List Token} {p : Program} (hscan : scan source = .ok ts)
    (hparse : parse ts = .ok p) :
    ∃ us stop m, ts = us ++ [.endOfInput stop] ∧ (∀ t ∈ us, Grammar.Written t) ∧ Grammar.Derives us p m := by
  obtain ⟨us, stop, rfl, hs⟩ := scans_of_tokens hscan
  have hwritten : ∀ t ∈ us, Grammar.Written t := fun t ht => hs.isToken t.lexeme (List.mem_map_of_mem ht)
  obtain ⟨used, rest, m, hused, hstop, hd⟩ := Grammar.parse_reads hparse
  rw [ahead_ofTokens_append] at hused
  subst hused
  cases rest with
  | nil =>
    rw [List.append_nil] at hwritten ⊢
    exact ⟨used, stop, m, rfl, hwritten, hd⟩
  | cons t rest =>
    -- the end of the input is no token of a source
    have hend : t.kind = .endOfInput := hstop
    obtain ⟨q, hq, _, _, hk⟩ := isToken_iff.1 (hwritten t (by simp))
    rw [hend] at hk
    exact absurd rfl (Pattern.kind?_ne_endOfInput (List.mem_of_find?_eq_some hq) hk)

/-- Printing keeps every token of the source and its place among the others, parentheses
apart: the text of a parsed program scans, and to tokens that say what those of its source
say. -/
theorem text_tokens {source : String} {ts : List Token} {p : Program} (hscan : scan source = .ok ts)
    (hparse : parse ts = .ok p) : ∃ us, scan p.text = .ok us ∧ saidBy us = saidBy ts := by
  obtain ⟨used, stop, m, rfl, hwritten, hd⟩ := derives_of_scan hscan hparse
  have hprintable := printable_of_parse hscan hparse
  obtain ⟨us, stop', htext, hus⟩ := scan_eq_ok_iff.1 (Printer.scans_text hprintable)
  have hcontent := hd.content hwritten
  rw [Printer.said, ← hus] at hcontent
  refine ⟨us ++ [.endOfInput stop'], htext, ?_⟩
  rw [saidBy_append, saidBy_append, ← hcontent]
  rfl

/-- A numeral with zeros before it, parentheses that are not needed and a comment. -/
def wordySource : String := "integer x. void f{}[ x = ((x + 007)) * - 1. $ more\n return. ]"

theorem text_tokens_wordy :
    ∃ ts p us, scan wordySource = .ok ts ∧ parse ts = .ok p ∧ scan p.text = .ok us ∧
      saidBy us = saidBy ts := by
  have hok : ((scan wordySource).bind parse).isOk = true := by decide +kernel
  cases hscan : scan wordySource with
  | error e => rw [hscan] at hok; cases hok
  | ok ts =>
    cases hparse : parse ts with
    | error e => rw [hscan, Except.bind, hparse] at hok; cases hok
    | ok p =>
      obtain ⟨us, htext, hsame⟩ := text_tokens hscan hparse
      exact ⟨ts, p, us, rfl, hparse, htext, hsame⟩

end BaseLang
