import BaseLang.Proofs.Concrete.Phrases
import BaseLang.Proofs.Concrete.Statements

/-
  The statements and programs of the grammar and those that are read.

  Statements, blocks and declarations of the one and of the other kind have the same tokens,
  trees and numbers. What a statement demands of its expression is in the one kind that it has
  that shape at the highest level, and in the other that it has such a tree.

    1. `Statement.sentence`, `exists_statement` — statements, with their blocks.
    2. `Definition.declared`, `exists_definition` — declarations of a program.
    3. `Source.derives`, `exists_source` — programs.
-/

namespace BaseLang.Concrete

open Grammar (Phrase Commas Separated Repeated Sentence Body Declared Derives)

/-! ## Lists -/

section Lists
variable {α β : Type} {G : Form β} {write : α → List Token} {tree : α → NodeId → β × NodeId}

theorem repeated_treesOf (h : ∀ a n, Valued (write a) → G n (write a) (tree a n).1 (tree a n).2) :
    (as : List α) → (n : NodeId) → Valued (as.flatMap write) →
      Repeated G n (as.flatMap write) (treesOf tree as n).1 (treesOf tree as n).2
  | [], _, _ => .nil
  | a :: as, n, hv => by
    rw [List.flatMap_cons] at hv ⊢
    exact .cons (h a n hv.append.1) (repeated_treesOf h as _ hv.append.2)

theorem exists_treesOf {n m : NodeId} {ts : List Token} {bs : List β} (hs : Repeated G n ts bs m)
    (h : ∀ n ts b m, G n ts b m → ∃ a, write a = ts ∧ tree a n = (b, m)) :
    ∃ as : List α, as.flatMap write = ts ∧ treesOf tree as n = (bs, m) := by
  induction hs with
  | nil => exact ⟨[], rfl, rfl⟩
  | cons hfirst _ ih =>
    obtain ⟨a, rfl, ha⟩ := h _ _ _ _ hfirst
    obtain ⟨as, rfl, has⟩ := ih
    exact ⟨a :: as, rfl, by simp only [treesOf, ha, has]⟩

end Lists

/-! ## Declarations of names -/

theorem simpleType_wordTree (t : TypeWord) : Grammar.SimpleType t.1 (wordTree t.1) := by
  have ht := t.2
  simp only [List.mem_cons, List.not_mem_nil, or_false] at ht
  rcases ht with ht | ht | ht <;> simp only [wordTree, ht]
  · exact .logical ht
  · exact .integer ht
  · exact .void ht

theorem exists_typeWord {t : Token} {type : TypeName} (h : Grammar.SimpleType t type) :
    ∃ w : TypeWord, w.1 = t ∧ wordTree t = type := by
  cases h with
  | logical ht | integer ht | void ht => exact ⟨⟨t, by rw [ht]; decide⟩, rfl, by simp only [wordTree, ht]⟩

theorem Typed.typed (d : Typed) (n : NodeId) : Grammar.Typed n d.tokens (d.tree n).1 (d.tree n).2 := by
  cases d with
  | word t => exact .simple (simpleType_wordTree t)
  | tuple w x => exact .tuple w.kind x.kind

theorem exists_typed {n m : NodeId} {ts : List Token} {type : TypeName} (h : Grammar.Typed n ts type m) :
    ∃ d : Typed, d.tokens = ts ∧ d.tree n = (type, m) := by
  cases h with
  | simple h =>
    obtain ⟨w, rfl, rfl⟩ := exists_typeWord h
    exact ⟨.word w, rfl, rfl⟩
  | tuple ht hu => exact ⟨.tuple (.of ht) (.of hu), rfl, rfl⟩

theorem Variable.declared (d : Variable) (n : NodeId) :
    Grammar.Variable n d.tokens (d.tree n).1 (d.tree n).2 :=
  .mk (d.type.typed n) d.name.kind d.dot.kind

theorem exists_variable {n m : NodeId} {ts : List Token} {x : VarDecl} (h : Grammar.Variable n ts x m) :
    ∃ d : Variable, d.tokens = ts ∧ d.tree n = (x, m) := by
  obtain ⟨h, hu, hd⟩ := h
  obtain ⟨type, rfl, htree⟩ := exists_typed h
  exact ⟨⟨type, .of hu, .of hd⟩, rfl, by simp only [Variable.tree, htree, identTree, OneOf.of]⟩

theorem Formal.declared (d : Formal) (n : NodeId) : Grammar.Formal n d.tokens (d.tree n).1 (d.tree n).2 :=
  .mk (simpleType_wordTree d.type) d.name.kind

theorem exists_formal {n m : NodeId} {ts : List Token} {x : VarDecl} (h : Grammar.Formal n ts x m) :
    ∃ d : Formal, d.tokens = ts ∧ d.tree n = (x, m) := by
  obtain ⟨h, hu⟩ := h
  obtain ⟨w, rfl, rfl⟩ := exists_typeWord h
  exact ⟨⟨w, .of hu⟩, rfl, rfl⟩

theorem commas_formals : (first : Formal) → (others : List (OneOf [.comma] × Formal)) → (n : NodeId) →
    Commas Grammar.Formal n (Formals.some first others).tokens
      ((Formals.some first others).trees n).1 ((Formals.some first others).trees n).2
  | first, [], n => by
    rw [Formals.tokens, List.flatMap_nil, List.append_nil]
    exact .one (first.declared n)
  | first, (c, d) :: others, n => .more (first.declared n) c.kind (commas_formals d others _)

theorem Formals.declared (fs : Formals) (n : NodeId) :
    Separated Grammar.Formal n fs.tokens (fs.trees n).1 (fs.trees n).2 := by
  cases fs with
  | none => exact .none
  | some first others => exact .some (commas_formals first others n)

theorem exists_formals {n m : NodeId} {ts : List Token} {xs : List VarDecl}
    (h : Commas Grammar.Formal n ts xs m) :
    ∃ first others, (Formals.some first others).tokens = ts ∧ (Formals.some first others).trees n = (xs, m) := by
  induction h with
  | one h =>
    obtain ⟨d, rfl, htree⟩ := exists_formal h
    exact ⟨d, [], by rw [Formals.tokens, List.flatMap_nil, List.append_nil],
      by simp only [Formals.trees, List.map_nil, treesOf, htree]⟩
  | more h hc _ ih =>
    obtain ⟨d, rfl, htree⟩ := exists_formal h
    obtain ⟨first, others, rfl, htrees⟩ := ih
    refine ⟨d, (.of hc, first) :: others, rfl, ?_⟩
    simp only [Formals.trees, List.map_cons, treesOf, htree, Prod.mk.injEq] at htrees ⊢
    exact ⟨by rw [htrees.1], htrees.2⟩

/-! ## Expressions of a shape -/

/-- A location or a call is so at the highest level. -/
theorem Exp.exists_primary : {l : Level} → {s : Shape} → (e : Exp l s) → s ∉ [.assignment, .other] →
    ∃ e' : Exp .primary s, e'.tokens = e.tokens ∧ ∀ n, e'.tree n = e.tree n
  | _, _, .literal _, h | _, _, .unary .., h | _, _, .binary .., h | _, _, .assign .., h => absurd (by decide) h
  | _, _, .name t, _ => ⟨.name t, rfl, fun _ => rfl⟩
  | _, _, .group o e c, _ => ⟨.group o e c, rfl, fun _ => rfl⟩
  | _, _, .call f o c, _ => ⟨.call f o c, rfl, fun _ => rfl⟩
  | _, _, .callWith f o args c, _ => ⟨.callWith f o args c, rfl, fun _ => rfl⟩
  | _, _, .access base c f, _ => ⟨.access base c f, rfl, fun _ => rfl⟩
  | _, _, .lift _ e, h => e.exists_primary h

section Shapes
variable {n m : NodeId} {ts : List Token}

theorem exists_location {target : Loc} (h : Phrase .assignment n ts (.loc target) m) :
    ∃ (p : Place) (e : Location p), e.tokens = ts ∧ p.loc (e.tree n).1 = target ∧ (e.tree n).2 = m := by
  obtain ⟨d, rfl, htree⟩ := exists_exp h .assignment (Nat.le_refl _)
  obtain ⟨p, e, rfl, htarget, hm⟩ := d.exists_place htree
  obtain ⟨e', hts, htree'⟩ := e.exists_primary (by simp)
  exact ⟨p, e', hts, by rw [htree', htarget], by rw [htree', hm]⟩

theorem exists_call {f : Ident} {args : List Expr} (h : Phrase .assignment n ts (.call f args) m) :
    ∃ e : Exp .primary .call, e.tokens = ts ∧ e.tree n = ((f, args), m) := by
  obtain ⟨d, rfl, htree⟩ := exists_exp h .assignment (Nat.le_refl _)
  obtain ⟨e, rfl⟩ := AnyExp.exists_eq (s := .call) (by rw [htree]; rfl)
  obtain ⟨e', hts, htree'⟩ := e.exists_primary (by simp)
  simp only [AnyExp.tree, Prod.mk.injEq] at htree
  obtain ⟨hf, hargs⟩ := Expr.call.inj htree.1
  exact ⟨e', hts, by rw [htree']; exact Prod.ext (Prod.ext hf hargs) htree.2⟩

theorem exists_assignment {target : Loc} {value : Expr}
    (h : Phrase .assignment n ts (.assign target value) m) :
    ∃ e : Exp .assignment .assignment, e.tokens = ts ∧ e.tree n = ((target, value), m) := by
  obtain ⟨d, rfl, htree⟩ := exists_exp h .assignment (Nat.le_refl _)
  obtain ⟨e, rfl⟩ := AnyExp.exists_eq (s := .assignment) (by rw [htree]; rfl)
  simp only [AnyExp.tree, Prod.mk.injEq] at htree
  obtain ⟨htarget, hvalue⟩ := Expr.assign.inj htree.1
  exact ⟨e, rfl, Prod.ext (Prod.ext htarget hvalue) htree.2⟩

end Shapes

/-! ## Statements and blocks -/

/-- An expression of the highest level, where any may stand. -/
theorem Exp.phrase_primary {s : Shape} (e : Exp .primary s) (n : NodeId) (h : Valued e.tokens) :
    Phrase .assignment n e.tokens (s.expr (e.tree n).1) (e.tree n).2 :=
  .weaken (by decide) (e.phrase n h)

mutual

theorem Statement.sentence : (s : Statement) → (n : NodeId) → Valued s.tokens →
    Sentence n s.tokens (s.tree n).1 (s.tree n).2
  | .assign e d, n, h => .assign (e.phrase n h.append.1) d.kind
  | .call e d, n, h => .call (e.phrase_primary n h.append.1) d.kind
  | .increment e o d, n, h => .increment (e.phrase_primary n h.append.1) o.kind d.kind
  | .decrement e o d, n, h => .decrement (e.phrase_primary n h.append.1) o.kind d.kind
  | .ifThen w cond body, n, h =>
    .ifThen w.kind (cond.phrase n h.cons.append.1) (body.body _ h.cons.append.2)
  | .ifElse w cond body v other, n, h =>
    .ifElse w.kind (cond.phrase n h.cons.append.1) (body.body _ h.cons.append.2.append.1) v.kind
      (other.body _ h.cons.append.2.append.2.cons)
  | .whileDo w cond body, n, h =>
    .whileDo w.kind (cond.phrase n h.cons.append.1) (body.body _ h.cons.append.2)
  | .read w a e d, n, h => .read w.kind a.kind (e.phrase_primary n h.cons.cons.append.1) d.kind
  | .write w a e d, n, h => .write w.kind a.kind (e.phrase n h.cons.cons.append.1) d.kind
  | .leave w d, _, _ => .leave w.kind d.kind
  | .giveBack w e d, n, h => .giveBack w.kind (e.phrase n h.cons.append.1) d.kind

theorem Block.body : (b : Block) → (n : NodeId) → Valued b.tokens →
    Body n b.tokens (b.tree n).1 (b.tree n).2
  | .mk o decls stmts c, n, h =>
    .mk o.kind (repeated_treesOf (fun d n _ => d.declared n) decls n h.cons.append.1)
      (stmts.sentences _ h.cons.append.2.append.1) c.kind

theorem Statements.sentences : (ss : Statements) → (n : NodeId) → Valued ss.tokens →
    Repeated Sentence n ss.tokens (ss.trees n).1 (ss.trees n).2
  | .nil, _, _ => .nil
  | .cons s rest, n, h => .cons (s.sentence n h.append.1) (rest.sentences _ h.append.2)

end

mutual

theorem exists_statement {n m : NodeId} {ts : List Token} {x : Stmt} :
    Sentence n ts x m → ∃ s : Statement, s.tokens = ts ∧ s.tree n = (x, m)
  | .assign h hd => by
    obtain ⟨e, rfl, htree⟩ := exists_assignment h
    exact ⟨.assign e (.of hd), rfl, by simp only [Statement.tree, htree]⟩
  | .call h hd => by
    obtain ⟨e, rfl, htree⟩ := exists_call h
    exact ⟨.call e (.of hd), rfl, by simp only [Statement.tree, htree]⟩
  | .increment h ho hd => by
    obtain ⟨p, e, rfl, htarget, hm⟩ := exists_location h
    exact ⟨.increment e (.of ho) (.of hd), rfl, by simp only [Statement.tree, htarget, hm]⟩
  | .decrement h ho hd => by
    obtain ⟨p, e, rfl, htarget, hm⟩ := exists_location h
    exact ⟨.decrement e (.of ho) (.of hd), rfl, by simp only [Statement.tree, htarget, hm]⟩
  | .ifThen hw h hb => by
    obtain ⟨⟨s, cond⟩, rfl, hcond⟩ := exists_exp h .assignment (Nat.le_refl _)
    obtain ⟨body, rfl, hbody⟩ := exists_block hb
    simp only [AnyExp.tree, Prod.mk.injEq] at hcond
    exact ⟨.ifThen (.of hw) cond body, rfl, by simp only [Statement.tree, hcond, hbody]⟩
  | .ifElse hw h hb hv ho => by
    obtain ⟨⟨s, cond⟩, rfl, hcond⟩ := exists_exp h .assignment (Nat.le_refl _)
    obtain ⟨body, rfl, hbody⟩ := exists_block hb
    obtain ⟨other, rfl, hother⟩ := exists_block ho
    simp only [AnyExp.tree, Prod.mk.injEq] at hcond
    exact ⟨.ifElse (.of hw) cond body (.of hv) other, rfl,
      by simp only [Statement.tree, hcond, hbody, hother]⟩
  | .whileDo hw h hb => by
    obtain ⟨⟨s, cond⟩, rfl, hcond⟩ := exists_exp h .assignment (Nat.le_refl _)
    obtain ⟨body, rfl, hbody⟩ := exists_block hb
    simp only [AnyExp.tree, Prod.mk.injEq] at hcond
    exact ⟨.whileDo (.of hw) cond body, rfl, by simp only [Statement.tree, hcond, hbody]⟩
  | .read hw ha h hd => by
    obtain ⟨p, e, rfl, htarget, hm⟩ := exists_location h
    exact ⟨.read (.of hw) (.of ha) e (.of hd), rfl, by simp only [Statement.tree, htarget, hm]⟩
  | .write hw ha h hd => by
    obtain ⟨⟨s, e⟩, rfl, htree⟩ := exists_exp h .assignment (Nat.le_refl _)
    simp only [AnyExp.tree, Prod.mk.injEq] at htree
    exact ⟨.write (.of hw) (.of ha) e (.of hd), rfl, by simp only [Statement.tree, htree]⟩
  | .leave hw hd => ⟨.leave (.of hw) (.of hd), rfl, rfl⟩
  | .giveBack hw h hd => by
    obtain ⟨⟨s, e⟩, rfl, htree⟩ := exists_exp h .assignment (Nat.le_refl _)
    simp only [AnyExp.tree, Prod.mk.injEq] at htree
    exact ⟨.giveBack (.of hw) e (.of hd), rfl, by simp only [Statement.tree, htree, OneOf.of]⟩

theorem exists_block {n m : NodeId} {ts : List Token} {x : BaseLang.Block} :
    Body n ts x m → ∃ b : Block, b.tokens = ts ∧ b.tree n = (x, m)
  | .mk ho hd hs hc => by
    obtain ⟨decls, rfl, hdecls⟩ := exists_treesOf hd fun _ _ _ _ h => exists_variable h
    obtain ⟨stmts, rfl, hstmts⟩ := exists_statements hs
    exact ⟨.mk (.of ho) decls stmts (.of hc), rfl, by simp only [Block.tree, hdecls, hstmts]⟩

theorem exists_statements {n m : NodeId} {ts : List Token} {xs : List Stmt} :
    Repeated Sentence n ts xs m → ∃ ss : Statements, ss.tokens = ts ∧ ss.trees n = (xs, m)
  | .nil => ⟨.nil, rfl, rfl⟩
  | .cons h hs => by
    obtain ⟨s, rfl, htree⟩ := exists_statement h
    obtain ⟨ss, rfl, htrees⟩ := exists_statements hs
    exact ⟨.cons s ss, rfl, by simp only [Statements.trees, htree, htrees]⟩

end

/-! ## Programs -/

theorem Definition.declared (d : Definition) (n : NodeId) (h : Valued d.tokens) :
    Declared n d.tokens (d.tree n).1 (d.tree n).2 := by
  cases d with
  | var d => exact .var (d.declared n)
  | function result name o formals c body =>
    exact .function (simpleType_wordTree result) name.kind o.kind (formals.declared _) c.kind
      (body.body _ h.cons.cons.cons.append.2.cons)
  | tuple w name o fields c d =>
    exact .tuple w.kind name.kind o.kind
      (repeated_treesOf (fun d n _ => d.declared n) fields _ h.cons.cons.cons.append.1) c.kind d.kind

theorem exists_definition {n m : NodeId} {ts : List Token} {x : Decl} (h : Declared n ts x m) :
    ∃ d : Definition, d.tokens = ts ∧ d.tree n = (x, m) := by
  cases h with
  | var h =>
    obtain ⟨d, rfl, htree⟩ := exists_variable h
    exact ⟨.var d, rfl, by simp only [Definition.tree, htree]⟩
  | function ht hu ho hf hc hb =>
    obtain ⟨w, rfl, rfl⟩ := exists_typeWord ht
    obtain ⟨body, rfl, hbody⟩ := exists_block hb
    obtain ⟨formals, rfl, hformals⟩ := exists_separated hf
    exact ⟨.function w (.of hu) (.of ho) formals (.of hc) body, rfl,
      by simp only [Definition.tree, hformals, hbody, identTree, OneOf.of]⟩
  | tuple ht hu ho hf hc hd =>
    obtain ⟨fields, rfl, hfields⟩ := exists_treesOf hf fun _ _ _ _ h => exists_variable h
    exact ⟨.tuple (.of ht) (.of hu) (.of ho) fields (.of hc) (.of hd), rfl,
      by simp only [Definition.tree, hfields, identTree, OneOf.of]⟩
where
  exists_separated {n m : NodeId} {ts : List Token} {xs : List VarDecl}
      (h : Separated Grammar.Formal n ts xs m) : ∃ fs : Formals, fs.tokens = ts ∧ fs.trees n = (xs, m) := by
    cases h with
    | none => exact ⟨.none, rfl, rfl⟩
    | some h =>
      obtain ⟨first, others, hts, htrees⟩ := exists_formals h
      exact ⟨.some first others, hts, htrees⟩

theorem Source.derives (d : Source) (h : Valued d.tokens) : ∃ m, Derives d.tokens d.program m :=
  ⟨_, repeated_treesOf (fun d n h => d.declared n h) d.definitions 0 h⟩

theorem exists_source {ts : List Token} {p : Program} {m : NodeId} (h : Derives ts p m) :
    ∃ d : Source, d.tokens = ts ∧ d.program = p := by
  obtain ⟨ds, rfl, htrees⟩ := exists_treesOf h fun _ _ _ _ h => exists_definition h
  exact ⟨⟨ds⟩, rfl, by rw [Source.program, htrees]⟩

end BaseLang.Concrete
