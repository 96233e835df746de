import BaseLang.Proofs.Isolation.Renumbering
import BaseLang.Typing

/-
  Types are checked alike with a resolution that holds another one.

  The checker asks a resolution for the kinds of symbols, for their types and for whether
  a field was found. None of these depends on the numbers of the symbols:

    1. `Embeds.locType`, `Embeds.call` — the types of names and the rule of a call;
    2. `Embeds.checkExpr`, `Embeds.checkBlock` — so an expression and a block on no hidden
       node have the same types and the same faults;
    3. `Embeds.checkDecl` — and so has a declaration.
-/

namespace BaseLang

namespace Resolution.Embeds
variable {f : SymbolId → SymbolId} {hidden : List NodeId} {r r' : Resolution}

/-! ## Types of names -/

theorem identType (h : r.Embeds f hidden r') {x : Ident} (hx : x.id ∉ hidden) :
    Typing.identType r' x = Typing.identType r x := by
  have hty : Symbol.ty ∘ Symbol.renumber f = Symbol.ty := funext Symbol.ty_renumber
  rw [Typing.identType, h.symbolOf hx, Option.map_map, hty, Typing.identType]

/-- A field has its type if its access was found, whatever was found. -/
theorem locType_access (r : Resolution) (id : NodeId) (l : Loc) (x : Ident) :
    Typing.locType r (.access id l x) =
      if (r.access id).map AccessLink.isResolved = some true then Typing.identType r x else .error := by
  rw [Typing.locType]
  cases r.access id with
  | none => rfl
  | some outcome => cases outcome <;> rfl

theorem locType (h : r.Embeds f hidden r') {l : Loc} (hl : ∀ i ∈ l.nodes, i ∉ hidden) :
    Typing.locType r' l = Typing.locType r l := by
  cases l with
  | ident x => exact h.identType (hl _ List.mem_cons_self)
  | access id l x =>
    have hfield : Typing.identType r' x = Typing.identType r x :=
      h.identType (hl _ (List.mem_append_right _ (List.mem_cons_of_mem _ List.mem_cons_self)))
    have haccess : (r'.access id).map AccessLink.isResolved = (r.access id).map AccessLink.isResolved :=
      h.accesses id (hl _ (List.mem_append_right _ List.mem_cons_self))
    rw [locType_access, locType_access, hfield, haccess]

theorem call (h : r.Embeds f hidden r') {g : Ident} (hg : g.id ∉ hidden) (args : List (Expr × Ty)) :
    Typing.call r' g args = Typing.call r g args := by
  rw [Typing.call, h.symbolOf hg, Typing.call]
  cases r.symbolOf g with
  | none => rfl
  | some s =>
    obtain ⟨name, kind⟩ := s
    cases kind <;> rfl

/-! ## Expressions -/

mutual

theorem checkExpr (h : r.Embeds f hidden r') : ∀ {e : Expr}, (∀ i ∈ e.nodes, i ∉ hidden) →
    Typing.checkExpr r' e = Typing.checkExpr r e
  | .logical _ _, _ | .int _ _, _ | .string _ _, _ => rfl
  | .loc l, he => by rw [Typing.checkExpr, h.locType he, Typing.checkExpr]
  | .assign l v, he => by
    obtain ⟨hl, hv⟩ := List.forall_mem_append.1 he
    rw [Typing.checkExpr, h.checkExpr hv, h.locType hl, Typing.checkExpr]
  | .call g args, he => by
    obtain ⟨hg, hargs⟩ := List.forall_mem_cons.1 he
    simp only [Typing.checkExpr, h.checkExprs hargs, h.call hg]
  | .unary op v, he => by rw [Typing.checkExpr, h.checkExpr (e := v) he, Typing.checkExpr]
  | .binary op v w, he => by
    obtain ⟨hv, hw⟩ := List.forall_mem_append.1 he
    rw [Typing.checkExpr, h.checkExpr hv, h.checkExpr hw, Typing.checkExpr]

theorem checkExprs (h : r.Embeds f hidden r') : ∀ {es : List Expr},
    (∀ i ∈ Expr.nodesOfAll es, i ∉ hidden) → Typing.checkExprs r' es = Typing.checkExprs r es
  | [], _ => rfl
  | e :: es, hes => by
    obtain ⟨he, hrest⟩ := List.forall_mem_append.1 hes
    rw [Typing.checkExprs, h.checkExpr he, h.checkExprs hrest, Typing.checkExprs]

end

theorem exprFaults (h : r.Embeds f hidden r') {e : Expr} (he : ∀ i ∈ e.nodes, i ∉ hidden) :
    Typing.exprFaults r' e = Typing.exprFaults r e := congrArg Prod.snd (h.checkExpr he)

/-! ## Statements -/

theorem conditionFaults (h : r.Embeds f hidden r') (kind : DiagnosticKind) {e : Expr}
    (he : ∀ i ∈ e.nodes, i ∉ hidden) :
    Typing.conditionFaults r' kind e = Typing.conditionFaults r kind e := by
  rw [Typing.conditionFaults, h.checkExpr he, Typing.conditionFaults]

mutual

theorem checkStmt (h : r.Embeds f hidden r') (result : Ty) : ∀ {s : Stmt}, (∀ i ∈ s.nodes, i ∉ hidden) →
    Typing.checkStmt r' result s = Typing.checkStmt r result s
  | .assign l v, hs => h.exprFaults (e := .assign l v) hs
  | .increment l, hs | .decrement l, hs => by
    rw [Typing.checkStmt, Typing.stepFaults, h.locType hs, Typing.checkStmt, Typing.stepFaults]
  | .ifThen c b, hs | .whileDo c b, hs => by
    obtain ⟨hc, hb⟩ := List.forall_mem_append.1 hs
    rw [Typing.checkStmt, h.conditionFaults _ hc, h.checkBlock result hb, Typing.checkStmt]
  | .ifElse c b b', hs => by
    obtain ⟨hc, hrest⟩ := List.forall_mem_append.1 hs
    obtain ⟨hb, hb'⟩ := List.forall_mem_append.1 hrest
    rw [Typing.checkStmt, h.conditionFaults _ hc, h.checkBlock result hb, h.checkBlock result hb',
      Typing.checkStmt]
  | .read l, hs => by rw [Typing.checkStmt, h.locType hs, Typing.checkStmt]
  | .write v, hs => by rw [Typing.checkStmt, h.checkExpr hs, Typing.checkStmt]
  | .call g args, hs => h.exprFaults (e := .call g args) hs
  | .ret none _, _ => rfl
  | .ret (some v) _, hs => by
    rw [Typing.checkStmt, Typing.returnFaults, h.checkExpr hs, Typing.checkStmt, Typing.returnFaults]

theorem checkBlock (h : r.Embeds f hidden r') (result : Ty) : ∀ {b : Block}, (∀ i ∈ b.nodes, i ∉ hidden) →
    Typing.checkBlock r' result b = Typing.checkBlock r result b
  | .mk _ _, hb => h.checkStmts result (List.forall_mem_append.1 hb).2

theorem checkStmts (h : r.Embeds f hidden r') (result : Ty) : ∀ {ss : List Stmt},
    (∀ i ∈ Stmt.nodesOfAll ss, i ∉ hidden) →
    Typing.checkStmts r' result ss = Typing.checkStmts r result ss
  | [], _ => rfl
  | s :: ss, hss => by
    obtain ⟨hs, hrest⟩ := List.forall_mem_append.1 hss
    rw [Typing.checkStmts, h.checkStmt result hs, h.checkStmts result hrest, Typing.checkStmts]

end

/-! ## Declarations -/

theorem checkDecl (h : r.Embeds f hidden r') {d : Decl} (hd : ∀ i ∈ d.nodes, i ∉ hidden) :
    Typing.checkDecl r' d = Typing.checkDecl r d := by
  cases d with
  | function d =>
    refine h.checkBlock d.result.ty fun i hi => hd i ?_
    exact List.mem_append_right _ (List.mem_cons_of_mem _ (List.mem_append_right _ hi))
  | var _ | tuple _ => rfl

theorem checkDecls (h : r.Embeds f hidden r') {ds : List Decl}
    (hds : ∀ i ∈ ds.flatMap Decl.nodes, i ∉ hidden) :
    ds.flatMap (Typing.checkDecl r') = ds.flatMap (Typing.checkDecl r) := by
  induction ds with
  | nil => rfl
  | cons d ds ih =>
    rw [List.flatMap_cons] at hds
    obtain ⟨hd, hrest⟩ := List.forall_mem_append.1 hds
    rw [List.flatMap_cons, List.flatMap_cons, h.checkDecl hd, ih hrest]

end Resolution.Embeds

end BaseLang
