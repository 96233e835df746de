import BaseLang.Proofs.Renaming.Tables
import BaseLang.Typing

/-
  Types are checked alike under every renaming.

  The checker looks at no name. It asks a resolution for the types of identifiers, for the
  signatures of those that are called and for the accesses that were found, and compares
  types, in which different names stay different.

    1. `Renaming.Reads` — a relabelling of trees, and a second resolution that gives for
       relabelled identifiers and accesses the renamed answers;
    2. `Reads.uniform`, …, `Reads.call` — then each rule of an operator gives the renamed
       type and the renamed faults for relabelled operands;
    3. `Reads.checkExpr` — so does the check of an expression;
    4. `Reads.checkProgram`, `Renaming.checkProgram_relabel` — the faults of a relabelled
       program, and those of a renamed one, are its faults, renamed.
-/

namespace BaseLang

/-! ## What the checker asks -/

/-- The result and the formals of a function. -/
def Symbol.signature? (s : Symbol) : Option (Ty × List Ty) :=
  match s.kind with
  | .function result params => some (result, params)
  | _ => none

/-- A call asks for the signature of what is called. -/
theorem Typing.call_eq (r : Resolution) (f : Ident) (os : List (Expr × Ty)) :
    Typing.call r f os =
      match (r.symbolOf f).map Symbol.signature? with
      | none => (.error, [])
      | some none => (.error, [⟨f.position, .callNonFunction⟩])
      | some (some (result, params)) =>
        if os.any fun (_, t) => t.isError then (.error, [])
        else if os.length ≠ params.length then (.error, [⟨f.position, .wrongArgCount⟩])
        else
          (if (Typing.argFaults os params).isEmpty then result else .error, Typing.argFaults os params) := by
  rw [Typing.call]
  cases r.symbolOf f with
  | none => rfl
  | some s =>
    obtain ⟨name, kind⟩ := s
    cases kind <;> rfl

namespace Renaming
variable (ρ : Renaming)

def checked (c : Ty × Diagnostics) : Ty × Diagnostics := (ρ.ty c.1, ρ.diagnostics c.2)

/-- The second resolution answers for relabelled trees as the first one does for the trees,
with the names in types renamed and the positions replaced. -/
structure Reads (labels : Relabelling) (r r' : Resolution) : Prop where
  positions : ∀ q, labels.position q = ρ.place q
  places : ∀ x, (labels.ident x).position = ρ.place x.position
  types : ∀ x, (r'.symbolOf (labels.ident x)).map Symbol.ty = ((r.symbolOf x).map Symbol.ty).map ρ.ty
  signatures : ∀ x, (r'.symbolOf (labels.ident x)).map Symbol.signature? =
    ((r.symbolOf x).map Symbol.signature?).map (Option.map fun s => (ρ.ty s.1, ρ.tys s.2))
  accesses : ∀ i, r'.access (labels.access i) = r.access i

def operand (labels : Relabelling) (o : Expr × Ty) : Expr × Ty := (o.1.relabel labels, ρ.ty o.2)

/-! ## What a renaming leaves -/

theorem isCall_relabel (r : Relabelling) (e : Expr) : (e.relabel r).isCall = e.isCall := by
  cases e <;> rfl

@[simp] theorem isError_ty (t : Ty) : (ρ.ty t).isError = t.isError := by cases t <;> rfl

@[simp] theorem isLogical_ty (t : Ty) : (ρ.ty t).isLogical = t.isLogical := by cases t <;> rfl

@[simp] theorem isInteger_ty (t : Ty) : (ρ.ty t).isInteger = t.isInteger := by cases t <;> rfl

@[simp] theorem isVoid_ty (t : Ty) : (ρ.ty t).isVoid = t.isVoid := by cases t <;> rfl

/-- Types are the same after the renaming exactly if they were before, since different
names stay different. -/
@[simp] theorem same_ty (t u : Ty) : (ρ.ty t).same (ρ.ty u) = t.same u := by
  have hname : ∀ m n : String, (ρ.name m == ρ.name n) = (m == n) := by
    intro m n
    rw [Bool.eq_iff_iff, beq_iff_eq, beq_iff_eq]
    exact ρ.name_injective.eq_iff
  cases t <;> cases u <;> first | rfl | exact hname _ _

theorem equalityFault?_relabel (r : Relabelling) (e e' : Expr) (t : Ty) :
    Typing.equalityFault? (e.relabel r) (e'.relabel r) (ρ.ty t) = Typing.equalityFault? e e' t := by
  cases t <;> first
    | rfl
    | simp only [ty, Typing.equalityFault?, isCall_relabel]

theorem equalityFault?_ne (e e' : Expr) (t : Ty) :
    Typing.equalityFault? e e' t ≠ some .returnValueMissing := by
  cases t <;> simp [Typing.equalityFault?]

theorem isEmpty_diagnostics (ds : Diagnostics) : (ρ.diagnostics ds).isEmpty = ds.isEmpty := by
  cases ds <;> rfl

namespace Reads
variable {ρ} {labels : Relabelling} {r r' : Resolution}

section Rules
variable (h : ρ.Reads labels r r')
include h

theorem position_loc (l : Loc) : (l.relabel labels).position = ρ.place l.position := by
  cases l <;> exact h.places _

theorem position_expr : ∀ e : Expr, (e.relabel labels).position = ρ.place e.position
  | .unary _ v | .binary _ v _ => position_expr v
  | .loc l | .assign l _ => h.position_loc l
  | .call f _ => h.places f
  | .logical _ _ | .int _ _ | .string _ _ => h.positions _

theorem identType (x : Ident) : Typing.identType r' (labels.ident x) = ρ.ty (Typing.identType r x) := by
  rw [Typing.identType, h.types, Typing.identType]
  cases r.symbolOf x <;> rfl

theorem locType (l : Loc) : Typing.locType r' (l.relabel labels) = ρ.ty (Typing.locType r l) := by
  cases l with
  | ident x => exact h.identType x
  | access id l f =>
    rw [Loc.relabel, Typing.locType, h.accesses, h.identType, Typing.locType]
    cases r.access id with
    | none => rfl
    | some outcome => cases outcome <;> rfl

/-! ## The rules of the operators -/

omit h in
theorem any_isError (os : List (Expr × Ty)) :
    ((os.map (ρ.operand labels)).any fun o => o.2.isError) = os.any fun o => o.2.isError := by
  rw [List.any_map]
  congr 1
  funext o
  exact ρ.isError_ty o.2

theorem operandFaults {wanted : Ty → Bool} (hw : ∀ t, wanted (ρ.ty t) = wanted t)
    {kind : DiagnosticKind} (hk : kind ≠ .returnValueMissing) (os : List (Expr × Ty)) :
    Typing.operandFaults wanted kind (os.map (ρ.operand labels)) =
      ρ.diagnostics (Typing.operandFaults wanted kind os) := by
  rw [Typing.operandFaults, List.filterMap_map, diagnostics, Typing.operandFaults, List.map_filterMap]
  congr 1
  funext o
  obtain ⟨e, t⟩ := o
  show (if wanted (ρ.ty t) then none else some (⟨(e.relabel labels).position, kind⟩ : Diagnostic)) = _
  rw [hw, h.position_expr]
  dsimp only
  split
  · rfl
  · rw [Option.map_some, diagnostic_mk ρ hk]

theorem uniform {wanted : Ty → Bool} (hw : ∀ t, wanted (ρ.ty t) = wanted t)
    {kind : DiagnosticKind} (hk : kind ≠ .returnValueMissing) {result : Ty} (hr : ρ.ty result = result)
    (os : List (Expr × Ty)) :
    Typing.uniform wanted kind result (os.map (ρ.operand labels)) =
      ρ.checked (Typing.uniform wanted kind result os) := by
  rw [Typing.uniform, any_isError, h.operandFaults hw hk, Typing.uniform]
  split
  · rfl
  · dsimp only
    rw [isEmpty_diagnostics, checked]
    split
    · rw [hr]
    · rfl

theorem unary (op : UnaryOp) (o : Expr × Ty) :
    Typing.unary op (ρ.operand labels o) = ρ.checked (Typing.unary op o) := by
  cases op with
  | negate => exact h.uniform ρ.isInteger_ty (by decide) rfl [o]
  | not => exact h.uniform ρ.isLogical_ty (by decide) rfl [o]

theorem equality (o o' : Expr × Ty) :
    Typing.equality (ρ.operand labels o) (ρ.operand labels o') = ρ.checked (Typing.equality o o') := by
  obtain ⟨e, t⟩ := o
  obtain ⟨e', t'⟩ := o'
  simp only [Typing.equality, operand, isError_ty, same_ty, equalityFault?_relabel, h.position_expr]
  split
  · rfl
  · split
    · rfl
    · have hne := equalityFault?_ne e e' t
      cases hfault : Typing.equalityFault? e e' t with
      | none => rfl
      | some kind =>
        rw [hfault] at hne
        have hk : kind ≠ .returnValueMissing := fun heq => hne (congrArg some heq)
        rw [checked, diagnostics, List.map_singleton, diagnostic_mk ρ hk]
        rfl

theorem binary (op : BinaryOp) (o o' : Expr × Ty) :
    Typing.binary op (ρ.operand labels o) (ρ.operand labels o') = ρ.checked (Typing.binary op o o') := by
  rw [Typing.binary, Typing.binary]
  split
  · exact h.uniform ρ.isInteger_ty (by decide) rfl [o, o']
  · split
    · exact h.uniform ρ.isInteger_ty (by decide) rfl [o, o']
    · split
      · exact h.equality o o'
      · exact h.uniform ρ.isLogical_ty (by decide) rfl [o, o']

theorem assign (l : Loc) (t u : Ty) :
    Typing.assign (l.relabel labels) (ρ.ty t) (ρ.ty u) = ρ.checked (Typing.assign l t u) := by
  have hfault : Typing.assignFault? (ρ.ty t) = Typing.assignFault? t := by cases t <;> rfl
  simp only [Typing.assign, isError_ty, same_ty, hfault, h.position_loc]
  split
  · rfl
  · split
    · rfl
    · cases t <;> rfl

theorem argFaults : ∀ (os : List (Expr × Ty)) (params : List Ty),
    Typing.argFaults (os.map (ρ.operand labels)) (ρ.tys params) = ρ.diagnostics (Typing.argFaults os params)
  | [], _ => rfl
  | _ :: _, [] => rfl
  | (e, t) :: os, u :: params => by
    show (if (ρ.ty t).same (ρ.ty u) then Typing.argFaults (os.map (ρ.operand labels)) (ρ.tys params)
      else ⟨(e.relabel labels).position, .actualFormalMismatch⟩ ::
        Typing.argFaults (os.map (ρ.operand labels)) (ρ.tys params)) = _
    rw [same_ty, argFaults os params, h.position_expr, Typing.argFaults]
    split <;> rfl

theorem call (f : Ident) (os : List (Expr × Ty)) :
    Typing.call r' (labels.ident f) (os.map (ρ.operand labels)) = ρ.checked (Typing.call r f os) := by
  rw [Typing.call_eq, h.signatures, Typing.call_eq]
  cases (r.symbolOf f).map Symbol.signature? with
  | none => rfl
  | some signature? =>
    cases signature? with
    | none =>
      dsimp only [Option.map_some, Option.map_none]
      rw [h.places]
      rfl
    | some signature =>
      have hlength : (ρ.tys signature.2).length = signature.2.length := by rw [tys_eq_map, List.length_map]
      simp only [Option.map_some, any_isError, List.length_map, hlength, h.argFaults,
        isEmpty_diagnostics, h.places]
      split
      · rfl
      · split
        · rfl
        · rw [checked]
          split <;> rfl

end Rules

/-! ## Expressions -/

mutual

/-- The check of a relabelled expression gives the renamed type and the renamed faults. -/
theorem checkExpr (h : ρ.Reads labels r r') : ∀ e : Expr,
    Typing.checkExpr r' (e.relabel labels) = ρ.checked (Typing.checkExpr r e)
  | .logical _ _ | .int _ _ | .string _ _ => rfl
  | .loc l => by
    rw [Expr.relabel, Typing.checkExpr, h.locType]
    rfl
  | .assign l v => by
    simp only [Expr.relabel, Typing.checkExpr, h.checkExpr v, h.locType, checked, h.assign, diagnostics_append]
  | .call f args => by
    have hzip : (Expr.relabelAll labels args).zip ((Typing.checkExprs r args).1.map ρ.ty) =
        (args.zip (Typing.checkExprs r args).1).map (ρ.operand labels) := by
      rw [Expr.relabelAll_eq_map, List.zip_map]
      rfl
    simp only [Expr.relabel, Typing.checkExpr, h.checkExprs args, hzip, h.call, checked, diagnostics_append]
  | .unary op v => by
    have hrule := h.unary op (v, (Typing.checkExpr r v).1)
    simp only [Expr.relabel, Typing.checkExpr, h.checkExpr v, checked, diagnostics_append]
    rw [show (v.relabel labels, ρ.ty (Typing.checkExpr r v).1) =
      ρ.operand labels (v, (Typing.checkExpr r v).1) from rfl, hrule]
    rfl
  | .binary op v w => by
    have hrule := h.binary op (v, (Typing.checkExpr r v).1) (w, (Typing.checkExpr r w).1)
    simp only [Expr.relabel, Typing.checkExpr, h.checkExpr v, h.checkExpr w, checked, diagnostics_append]
    rw [show (v.relabel labels, ρ.ty (Typing.checkExpr r v).1) =
      ρ.operand labels (v, (Typing.checkExpr r v).1) from rfl,
      show (w.relabel labels, ρ.ty (Typing.checkExpr r w).1) =
      ρ.operand labels (w, (Typing.checkExpr r w).1) from rfl, hrule]
    rfl

theorem checkExprs (h : ρ.Reads labels r r') : ∀ es : List Expr,
    Typing.checkExprs r' (Expr.relabelAll labels es) =
      ((Typing.checkExprs r es).1.map ρ.ty, ρ.diagnostics (Typing.checkExprs r es).2)
  | [] => rfl
  | e :: es => by
    simp only [Expr.relabelAll, Typing.checkExprs, h.checkExpr e, h.checkExprs es, checked, diagnostics_append,
      List.map_cons]

end

theorem exprFaults (h : ρ.Reads labels r r') (e : Expr) :
    Typing.exprFaults r' (e.relabel labels) = ρ.diagnostics (Typing.exprFaults r e) := by
  rw [Typing.exprFaults, h.checkExpr]
  rfl

/-! ## Statements -/

theorem conditionFaults (h : ρ.Reads labels r r') {kind : DiagnosticKind} (hk : kind ≠ .returnValueMissing)
    (e : Expr) :
    Typing.conditionFaults r' kind (e.relabel labels) = ρ.diagnostics (Typing.conditionFaults r kind e) := by
  simp only [Typing.conditionFaults, h.checkExpr, checked, isError_ty, isLogical_ty, h.position_expr,
    diagnostics_append]
  split
  · rfl
  · rw [diagnostics, diagnostics, List.map_singleton, diagnostic_mk ρ hk]

theorem stepFaults (h : ρ.Reads labels r r') (l : Loc) :
    Typing.stepFaults r' (l.relabel labels) = ρ.diagnostics (Typing.stepFaults r l) := by
  simp only [Typing.stepFaults, h.locType, isError_ty, isInteger_ty, h.position_loc]
  split <;> rfl

theorem readFaults (h : ρ.Reads labels r r') (l : Loc) :
    Typing.faultAt (l.relabel labels).position (Typing.readFault? (Typing.locType r' (l.relabel labels))) =
      ρ.diagnostics (Typing.faultAt l.position (Typing.readFault? (Typing.locType r l))) := by
  rw [h.locType, h.position_loc]
  cases Typing.locType r l <;> rfl

theorem writeFaults (h : ρ.Reads labels r r') (e : Expr) (t : Ty) :
    Typing.faultAt (e.relabel labels).position (Typing.writeFault? (e.relabel labels) (ρ.ty t)) =
      ρ.diagnostics (Typing.faultAt e.position (Typing.writeFault? e t)) := by
  rw [h.position_expr]
  cases t <;> first | rfl | (simp only [ty, Typing.writeFault?, isCall_relabel]; split <;> rfl)

theorem returnFaults (h : ρ.Reads labels r r') (result : Ty) (value : Option Expr) :
    Typing.returnFaults r' (ρ.ty result) (value.map (Expr.relabel labels)) =
      ρ.diagnostics (Typing.returnFaults r result value) := by
  cases value with
  | none =>
    rw [Option.map_none, Typing.returnFaults, Typing.returnFaults, isVoid_ty]
    split <;> rfl
  | some e =>
    simp only [Option.map_some, Typing.returnFaults, h.checkExpr, checked, isVoid_ty, isError_ty, same_ty,
      h.position_expr, diagnostics_append]
    congr 1
    split
    · rfl
    · split <;> rfl

mutual

theorem checkStmt (h : ρ.Reads labels r r') (result : Ty) : ∀ s : Stmt,
    Typing.checkStmt r' (ρ.ty result) (s.relabel labels) = ρ.diagnostics (Typing.checkStmt r result s)
  | .assign l v => h.exprFaults (.assign l v)
  | .increment l | .decrement l => h.stepFaults l
  | .ifThen c b | .whileDo c b => by
    rw [Stmt.relabel, Typing.checkStmt, Typing.checkStmt, diagnostics_append,
      h.conditionFaults (by decide), h.checkBlock result b]
  | .ifElse c b b' => by
    rw [Stmt.relabel, Typing.checkStmt, Typing.checkStmt, diagnostics_append, diagnostics_append,
      h.conditionFaults (by decide), h.checkBlock result b, h.checkBlock result b']
  | .read l => h.readFaults l
  | .write v => by
    rw [Stmt.relabel, Typing.checkStmt, Typing.checkStmt, h.checkExpr]
    simp only [checked, diagnostics_append, h.writeFaults]
  | .call f args => h.exprFaults (.call f args)
  | .ret value _ => h.returnFaults result value

theorem checkBlock (h : ρ.Reads labels r r') (result : Ty) : ∀ b : Block,
    Typing.checkBlock r' (ρ.ty result) (b.relabel labels) = ρ.diagnostics (Typing.checkBlock r result b)
  | .mk _ ss => h.checkStmts result ss

theorem checkStmts (h : ρ.Reads labels r r') (result : Ty) : ∀ ss : List Stmt,
    Typing.checkStmts r' (ρ.ty result) (Stmt.relabelAll labels ss) =
      ρ.diagnostics (Typing.checkStmts r result ss)
  | [] => rfl
  | s :: ss => by
    rw [Stmt.relabelAll, Typing.checkStmts, Typing.checkStmts, diagnostics_append, h.checkStmt result s,
      h.checkStmts result ss]

end

/-! ## Programs -/

theorem checkDecl (h : ρ.Reads labels r r') {d : Decl}
    (hd : ∀ f, d = .function f → (f.result.relabel labels).ty = ρ.ty f.result.ty) :
    Typing.checkDecl r' (d.relabel labels) = ρ.diagnostics (Typing.checkDecl r d) := by
  cases d with
  | function f =>
    show Typing.checkBlock _ (f.result.relabel labels).ty (f.body.relabel labels) = _
    rw [hd f rfl]
    exact h.checkBlock f.result.ty f.body
  | var _ | tuple _ => rfl

/-- The faults of a relabelled program are its faults, renamed, if the types of the results
of its functions are. -/
theorem checkProgram (h : ρ.Reads labels r r') {p : Program}
    (hp : ∀ f, .function f ∈ p.decls → (f.result.relabel labels).ty = ρ.ty f.result.ty) :
    Typing.checkProgram r' (p.relabel labels) = ρ.diagnostics (Typing.checkProgram r p) := by
  rw [Typing.checkProgram, Program.relabel, List.flatMap_map, Typing.checkProgram, diagnostics,
    List.map_flatMap]
  exact congrArg List.flatten (List.map_congr_left fun d hd => h.checkDecl fun f hf => hp f (hf ▸ hd))

end Reads

/-- What is renamed everywhere is read everywhere. -/
theorem reads_resolution (r : Resolution) : ρ.Reads ρ.labels r (ρ.resolution r) where
  positions _ := rfl
  places _ := rfl
  types x := by
    rw [symbolOf_resolution, Option.map_map, Option.map_map]
    exact congrArg (Option.map · _) (funext ρ.ty_symbol)
  signatures x := by
    rw [symbolOf_resolution, Option.map_map, Option.map_map]
    congr 1
    funext s
    obtain ⟨name, kind⟩ := s
    cases kind <;> rfl
  accesses := ρ.access_resolution r

/-- The faults of a renamed program are its faults, renamed. -/
theorem checkProgram_relabel (r : Resolution) (p : Program) :
    Typing.checkProgram (ρ.resolution r) (p.relabel ρ.labels) = ρ.diagnostics (Typing.checkProgram r p) :=
  (ρ.reads_resolution r).checkProgram fun f _ => ρ.ty_typeName f.result

end Renaming

end BaseLang
