import BaseLang.Analysis
import BaseLang.Proofs.Tree.Relabelling

/-
  The annotated text of a program is the canonical text of another one.

  With a resolution the printer writes what each identifier stands for behind its name. The
  same text comes from the program whose identifiers have these longer names, and so all but
  names is written as it is without a resolution.

    1. `Program.mapNames` — a change of all identifiers but those in written types;
    2. `Printer.Agree` — two ways to write identifiers that cannot be told apart, one in the
       tree and the other in the changed tree; then neither can the texts
       (`Agree.program`);
    3. `Resolution.decorated` — the identifier with what it stands for in its name;
    4. `annotated_eq_decorated` — the theorem, for every program and every resolution whose
       links lead to symbols.
-/

namespace BaseLang

/-! ## Other names -/

/-- Changes identifiers, and keeps the numbers of accesses and all positions. -/
def Relabelling.naming (f : Ident → Ident) : Relabelling where
  ident := f
  access := id
  position := id

section MapNames
variable (f : Ident → Ident)

def VarDecl.mapName (d : VarDecl) : VarDecl := ⟨d.type, f d.name⟩

mutual

def Stmt.mapNames : Stmt → Stmt
  | .assign l v => .assign (l.relabel (.naming f)) (v.relabel (.naming f))
  | .increment l => .increment (l.relabel (.naming f))
  | .decrement l => .decrement (l.relabel (.naming f))
  | .ifThen c b => .ifThen (c.relabel (.naming f)) b.mapNames
  | .ifElse c b b' => .ifElse (c.relabel (.naming f)) b.mapNames b'.mapNames
  | .whileDo c b => .whileDo (c.relabel (.naming f)) b.mapNames
  | .read l => .read (l.relabel (.naming f))
  | .write v => .write (v.relabel (.naming f))
  | .call g args => .call (f g) (Expr.relabelAll (.naming f) args)
  | .ret v p => .ret (v.map (Expr.relabel (.naming f))) p

def Block.mapNames : Block → Block
  | .mk ds ss => .mk (ds.map (VarDecl.mapName f)) (Stmt.mapNamesAll ss)

def Stmt.mapNamesAll : List Stmt → List Stmt
  | [] => []
  | s :: ss => s.mapNames :: Stmt.mapNamesAll ss

end

def Decl.mapNames : Decl → Decl
  | .var d => .var (d.mapName f)
  | .function d => .function ⟨d.result, f d.name, d.formals.map (VarDecl.mapName f), d.body.mapNames f⟩
  | .tuple d => .tuple ⟨f d.name, d.fields.map (VarDecl.mapName f)⟩

/-- The program with other identifiers everywhere but in the types that its declarations
write. -/
def Program.mapNames (p : Program) : Program := ⟨p.decls.map (Decl.mapNames f)⟩

end MapNames

/-! ## The printer and names -/

namespace Printer

/-- Whatever `g` looks at in a piece, it is the same for an identifier that is written in one
way and for the changed one written in the other. -/
def Agree {α : Type} (g : Piece → α) (f : Ident → Ident) (naming naming' : Naming) : Prop :=
  ∀ x, g (.token .identifier (naming x)) = g (.token .identifier (naming' (f x)))

namespace Agree
variable {α : Type} {g : Piece → α} {f : Ident → Ident} {naming naming' : Naming}

theorem ident (h : Agree g f naming naming') (x : Ident) :
    (ident naming x).map g = (Printer.ident naming' (f x)).map g := by
  simp only [Printer.ident, List.map_cons, List.map_nil, h x]

theorem loc (h : Agree g f naming naming') : ∀ l : Loc,
    (loc naming l).map g = (Printer.loc naming' (l.relabel (.naming f))).map g
  | .ident x => h.ident x
  | .access _ base field => by
    simp only [Loc.relabel, Printer.loc, List.map_append, h.loc base, h.ident field, Relabelling.naming]

theorem commas {pss qss : List (List Piece)} (h : pss.map (List.map g) = qss.map (List.map g)) :
    (commas pss).map g = (Printer.commas qss).map g := by
  induction pss generalizing qss with
  | nil => cases qss <;> first | rfl | cases h
  | cons ps pss ih =>
    cases qss with
    | nil => cases h
    | cons qs qss =>
      obtain ⟨hfirst, hrest⟩ := List.cons.inj h
      cases pss with
      | nil =>
        cases qss with
        | nil => exact hfirst
        | cons _ _ => cases hrest
      | cons _ _ =>
        cases qss with
        | nil => cases hrest
        | cons _ _ => simp only [Printer.commas, List.map_append, hfirst, ih hrest]

mutual

theorem expr (h : Agree g f naming naming') : ∀ e : Expr,
    (expr naming e).map g = (Printer.expr naming' (e.relabel (.naming f))).map g
  | .logical true _ | .logical false _ | .int _ _ | .string _ _ => rfl
  | .loc l => h.loc l
  | .assign l v => by
    simp only [Expr.relabel, Printer.expr, List.map_append, h.loc l, expr h v]
  | .call callee args => by
    simp only [Expr.relabel, Printer.expr, List.map_append, commas (exprs h args)]
    rw [h.ident callee]
    rfl
  | .unary .negate v | .unary .not v => by
    simp only [Expr.relabel, Printer.expr, List.map_append, expr h v]
  | .binary _ v w => by
    simp only [Expr.relabel, Printer.expr, List.map_append, expr h v, expr h w]

theorem exprs (h : Agree g f naming naming') : ∀ es : List Expr,
    (exprs naming es).map (List.map g) =
      (Printer.exprs naming' (Expr.relabelAll (.naming f) es)).map (List.map g)
  | [] => rfl
  | e :: es => by
    simp only [Expr.relabelAll, Printer.exprs, List.map_cons, expr h e, exprs h es]

end

theorem typed (h : Agree g f naming naming') (d : VarDecl) :
    (typed naming d).map g = (Printer.typed naming' (d.mapName f)).map g := by
  simp only [Printer.typed, VarDecl.mapName, List.map_append, h.ident d.name]

theorem varDecl (h : Agree g f naming naming') (depth : Nat) (d : VarDecl) :
    (varDecl naming depth d).map g = (Printer.varDecl naming' depth (d.mapName f)).map g := by
  simp only [Printer.varDecl, List.map_append, h.typed d]

theorem varDecls (h : Agree g f naming naming') (depth : Nat) : ∀ ds : List VarDecl,
    (ds.flatMap (Printer.varDecl naming depth)).map g =
      ((ds.map (VarDecl.mapName f)).flatMap (Printer.varDecl naming' depth)).map g
  | [] => rfl
  | d :: ds => by
    simp only [List.map_cons, List.flatMap_cons, List.map_append, h.varDecl depth d, h.varDecls depth ds]

theorem bracketed (depth : Nat) {ps qs : List Piece} (h : ps.map g = qs.map g) :
    (bracketed depth ps).map g = (Printer.bracketed depth qs).map g := by
  simp only [Printer.bracketed, List.map_append, h]

mutual

theorem stmt (h : Agree g f naming naming') (depth : Nat) : ∀ s : Stmt,
    (stmt naming depth s).map g = (Printer.stmt naming' depth (s.mapNames f)).map g
  | .assign l v => by
    simp only [Stmt.mapNames, Printer.stmt, simple, List.map_append, h.loc l, h.expr v]
  | .increment l | .decrement l | .read l => by
    simp only [Stmt.mapNames, Printer.stmt, simple, List.map_append, h.loc l]
  | .ifThen c b | .whileDo c b => by
    simp only [Stmt.mapNames, Printer.stmt, List.map_append, h.expr c,
      bracketed depth (block h (depth + 1) b)]
  | .ifElse c b b' => by
    simp only [Stmt.mapNames, Printer.stmt, List.map_append, h.expr c,
      bracketed depth (block h (depth + 1) b), bracketed depth (block h (depth + 1) b')]
  | .write v => by
    simp only [Stmt.mapNames, Printer.stmt, simple, List.map_append, h.expr v]
  | .call callee args => by
    simp only [Stmt.mapNames, Printer.stmt, simple, List.map_append, h.expr (.call callee args)]
    rfl
  | .ret none _ => rfl
  | .ret (some v) _ => by
    simp only [Stmt.mapNames, Option.map_some, Printer.stmt, simple, List.map_append, h.expr v]

theorem block (h : Agree g f naming naming') (depth : Nat) : ∀ b : Block,
    (block naming depth b).map g = (Printer.block naming' depth (b.mapNames f)).map g
  | .mk ds ss => by
    simp only [Block.mapNames, Printer.block, List.map_append, h.varDecls depth ds, stmts h depth ss]

theorem stmts (h : Agree g f naming naming') (depth : Nat) : ∀ ss : List Stmt,
    (stmts naming depth ss).map g = (Printer.stmts naming' depth (Stmt.mapNamesAll f ss)).map g
  | [] => rfl
  | s :: ss => by
    simp only [Stmt.mapNamesAll, Printer.stmts, List.map_append, stmt h depth s, stmts h depth ss]

end

theorem decl (h : Agree g f naming naming') (d : Decl) :
    (decl naming d).map g = (Printer.decl naming' (d.mapNames f)).map g := by
  cases d with
  | var d => exact h.varDecl 0 d
  | function d =>
    have hformals : (d.formals.map (Printer.typed naming)).map (List.map g) =
        ((d.formals.map (VarDecl.mapName f)).map (Printer.typed naming')).map (List.map g) := by
      simp only [List.map_map]
      exact List.map_congr_left fun formal _ => h.typed formal
    simp only [Decl.mapNames, Printer.decl, List.map_append, h.ident d.name, commas hformals,
      bracketed 0 (h.block 1 d.body)]
  | tuple d =>
    simp only [Decl.mapNames, Printer.decl, List.map_append, h.ident d.name, h.varDecls 1 d.fields]

/-- The texts of the program and of the changed one cannot be told apart either. -/
theorem program (h : Agree g f naming naming') (p : Program) :
    (program naming p).map g = (Printer.program naming' (p.mapNames f)).map g := by
  simp only [Printer.program, Program.mapNames, List.map_flatMap, List.flatMap_map]
  exact congrArg (p.decls.flatMap ·) (funext h.decl)

end Agree

end Printer

/-! ## Annotated names -/

/-- The identifier with a symbol in its name: the type of the symbol, or that it is a tuple
type. -/
def Ident.decoratedWith (x : Ident) (s : Symbol) : Ident :=
  { x with name := x.name ++ "<" ++ (if s.isTupleDef then "tuple" else s.ty.text) ++ ">" }

/-- The identifier with what it stands for in its name, if that is known. -/
def Resolution.decorated (r : Resolution) (x : Ident) : Ident :=
  match (r.linkOf x).bind r.symbol? with
  | none => x
  | some s => x.decoratedWith s

/-- The printer writes that name. -/
theorem Resolution.annotate_eq (r : Resolution) (x : Ident) : r.annotate x = (r.decorated x).name := by
  rw [annotate, symbolOf, decorated]
  cases (r.linkOf x).bind r.symbol? with
  | none => rfl
  | some s =>
    obtain ⟨name, kind⟩ := s
    cases kind <;> rfl

/-- The piece without the name that it writes, if it is an identifier. -/
def Piece.nameless : Piece → Piece
  | .token .identifier _ => .token .identifier ""
  | q => q

/-- Every linked identifier is decorated, with a symbol that there is. -/
theorem LinkedResolution.decorated_of_linkOf {r : LinkedResolution} {x : Ident} {id : SymbolId}
    (h : r.linkOf x = some id) : ∃ s, r.symbol? id = some s ∧ r.decorated x = x.decoratedWith s := by
  obtain ⟨s, hs⟩ := r.symbol_of_link x.id id h
  refine ⟨s, hs, ?_⟩
  rw [Resolution.decorated, h, Option.bind_some, hs]

/-- Annotation only changes names, with whatever resolution whose links lead to symbols. The
annotated text of a program is the canonical text of the program in which the name of every
identifier that is linked, outside the types that declarations write, is followed by the
symbol that it is linked to; all other names are kept. And piece by piece all but names is
written as it is without a resolution. -/
theorem annotated_eq_decorated (p : Program) (r : LinkedResolution) :
    p.annotatedText r = (p.mapNames r.decorated).text ∧
      (∀ x, r.linkOf x = none → r.decorated x = x) ∧
      (∀ x id, r.linkOf x = some id → ∃ s, r.symbol? id = some s ∧ r.decorated x = x.decoratedWith s) ∧
      (Printer.program r.annotate p).map Piece.nameless =
        (Printer.program Ident.name p).map Piece.nameless := by
  have hwritten : Printer.Agree id r.decorated r.annotate Ident.name := fun x => by rw [r.annotate_eq]
  have hbare : ∀ naming, Printer.Agree Piece.nameless r.decorated naming Ident.name := fun _ _ => rfl
  have hpieces := hwritten.program p
  rw [List.map_id, List.map_id] at hpieces
  refine ⟨?_, fun x h => ?_, fun x id h => r.decorated_of_linkOf h, ?_⟩
  · rw [Program.annotatedText, Program.text, Program.render, Program.render, hpieces]
  · rw [Resolution.decorated, h]
    rfl
  · rw [(hbare r.annotate).program p, (hbare Ident.name).program p]

/-- A tuple type, an instance whose written type is not annotated, and a name that stands for
nothing. -/
example : (⟨[.tuple ⟨⟨0, "T", .nowhere⟩, []⟩, .var ⟨.tuple ⟨1, "T", .nowhere⟩, ⟨2, "t", .nowhere⟩⟩,
      .var ⟨.integer, ⟨3, "n", .nowhere⟩⟩]⟩ : Program).annotatedText
      ⟨#[⟨"T", .tupleDef .empty⟩, ⟨"t", .tupleInstance "T" 0⟩], ⟨[(0, 0), (1, 0), (2, 1)]⟩, .empty⟩ =
    "tuple T<tuple> \x7b\n\x7d.\n\ntuple T t<T>.\ninteger n.\n" := by
  decide +kernel

end BaseLang
