import BaseLang.Tree.Views
import BaseLang.Typing

/-
  Statements are checked one by one.

  Blocks hold statements and statements hold blocks, and the checker follows them down. What it
  reports is nevertheless the list of what it reports of the single statements, taken in source
  order and each checked alone: with empty blocks in place of its own.

    1. `Stmt.alone`, `Program.functions` — a statement without its blocks, the functions in order;
    2. `checkStmt_eq`, `checkProgram_eq` — the faults of a program are those of its statements;
    3. `checkStmt_alone` — these are the faults of the expressions of the statement, then what its
       own rule finds, which is at most one fault;
    4. `Program.Place` — a place for a statement in a program, at any depth; `checked_program` — the
       faults before and after do not depend on what stands there;
    5. `checked_one_by_one` — the main theorem.
-/

namespace BaseLang

/-! ## Single statements -/

/-- The statement with empty blocks. -/
def Stmt.alone : Stmt → Stmt
  | .ifThen cond _ => .ifThen cond (.mk [] [])
  | .ifElse cond _ _ => .ifElse cond (.mk [] []) (.mk [] [])
  | .whileDo cond _ => .whileDo cond (.mk [] [])
  | s => s

def Decl.function? : Decl → Option FunctionDecl
  | .function d => some d
  | _ => none

def Program.functions (p : Program) : List FunctionDecl := p.decls.filterMap Decl.function?

theorem Program.flatMap_functions {α : Type} (p : Program) {f : Decl → List α} {g : FunctionDecl → List α}
    (hfunction : ∀ d, f (.function d) = g d) (hother : ∀ d, d.function? = none → f d = []) :
    p.decls.flatMap f = p.functions.flatMap g := by
  rw [functions]
  induction p.decls with
  | nil => rfl
  | cons d ds ih =>
    rw [List.flatMap_cons, ih]
    cases d with
    | function d => rw [hfunction]; rfl
    | var d => rw [hother _ rfl]; rfl
    | tuple d => rw [hother _ rfl]; rfl

/-! ## Every expression stands in one statement -/

mutual

theorem Stmt.exprs_eq : ∀ s : Stmt, s.exprs = s.statements.flatMap fun t => t.alone.exprs
  | .ifThen c b | .whileDo c b => by
    rw [Stmt.statements, List.flatMap_cons, ← b.exprs_eq]
    rfl
  | .ifElse c b b' => by
    rw [Stmt.statements, List.flatMap_cons, List.flatMap_append, ← b.exprs_eq, ← b'.exprs_eq]
    rfl
  | .assign _ _ | .increment _ | .decrement _ | .read _ | .write _ | .call _ _ | .ret _ _ =>
    (List.flatMap_singleton _ _).symm

theorem Block.exprs_eq : ∀ b : Block, b.exprs = b.statements.flatMap fun t => t.alone.exprs
  | .mk _ ss => Stmt.exprsOfAll_eq ss

theorem Stmt.exprsOfAll_eq : ∀ ss : List Stmt,
    Stmt.exprsOfAll ss = (Stmt.statementsOfAll ss).flatMap fun t => t.alone.exprs
  | [] => rfl
  | s :: ss => by
    rw [Stmt.exprsOfAll, Stmt.statementsOfAll, List.flatMap_append, s.exprs_eq, Stmt.exprsOfAll_eq ss]

end

namespace Typing
variable (r : Resolution) (result : Ty)

/-! ## A statement and those inside it -/

mutual

theorem checkStmt_eq : ∀ s : Stmt,
    checkStmt r result s = s.statements.flatMap fun t => checkStmt r result t.alone
  | .ifThen c b | .whileDo c b => by
    rw [Stmt.statements, List.flatMap_cons, ← checkBlock_eq b, Stmt.alone]
    simp only [checkStmt, checkBlock, checkStmts, List.append_nil]
  | .ifElse c b b' => by
    rw [Stmt.statements, List.flatMap_cons, List.flatMap_append, ← checkBlock_eq b, ← checkBlock_eq b',
      Stmt.alone]
    simp only [checkStmt, checkBlock, checkStmts, List.append_nil]
  | .assign _ _ | .increment _ | .decrement _ | .read _ | .write _ | .call _ _ | .ret _ _ =>
    (List.flatMap_singleton _ _).symm

theorem checkBlock_eq : ∀ b : Block,
    checkBlock r result b = b.statements.flatMap fun t => checkStmt r result t.alone
  | .mk _ ss => checkStmts_eq ss

theorem checkStmts_eq : ∀ ss : List Stmt,
    checkStmts r result ss = (Stmt.statementsOfAll ss).flatMap fun t => checkStmt r result t.alone
  | [] => rfl
  | s :: ss => by rw [checkStmts, Stmt.statementsOfAll, List.flatMap_append, checkStmt_eq s, checkStmts_eq ss]

end

theorem checkProgram_eq (p : Program) : checkProgram r p =
    p.functions.flatMap fun d => d.body.statements.flatMap fun s => checkStmt r d.result.ty s.alone :=
  p.flatMap_functions (fun d => checkBlock_eq r d.result.ty d.body) fun d hd => by
    cases d with
    | function d => cases hd
    | var _ | tuple _ => rfl

/-! ## What is found in a single statement -/

/-- One fault of that kind at that place, unless there is an error already or all is right. -/
def faultUnless (t : Ty) (right : Bool) (p : Position) (kind : DiagnosticKind) : Option Diagnostic :=
  if t.isError || right then none else some ⟨p, kind⟩

/-- What the rule of a statement finds once its expressions are checked. Assignments and calls are
expressions themselves. -/
def ruleFault? : Stmt → Option Diagnostic
  | .assign _ _ | .call _ _ => none
  | .increment l | .decrement l =>
    faultUnless (locType r l) (locType r l).isInteger l.position .arithmeticNonInteger
  | .ifThen c _ | .ifElse c _ _ =>
    faultUnless (exprType r c) (exprType r c).isLogical c.position .nonLogicalIfCondition
  | .whileDo c _ =>
    faultUnless (exprType r c) (exprType r c).isLogical c.position .nonLogicalWhileCondition
  | .read l => (readFault? (locType r l)).map (⟨l.position, ·⟩)
  | .write v => (writeFault? v (exprType r v)).map (⟨v.position, ·⟩)
  | .ret none _ => if result.isVoid then none else some ⟨.nowhere, .returnValueMissing⟩
  | .ret (some v) _ =>
    if result.isVoid then some ⟨v.position, .returnWithValueInVoid⟩
    else faultUnless (exprType r v) ((exprType r v).same result) v.position .returnValueWrongType

theorem toList_faultUnless (t : Ty) (right : Bool) (p : Position) (kind : DiagnosticKind) :
    (faultUnless t right p kind).toList = if t.isError || right then [] else [⟨p, kind⟩] := by
  rw [faultUnless]
  split <;> rfl

theorem faultAt_eq (p : Position) (kind : Option DiagnosticKind) :
    faultAt p kind = (kind.map (Diagnostic.mk p)).toList := by
  cases kind <;> rfl

/-- The faults of a single statement are those of its expressions, then that of its rule. -/
theorem checkStmt_alone (s : Stmt) :
    checkStmt r result s.alone = s.alone.exprs.flatMap (exprFaults r) ++ (ruleFault? r result s).toList := by
  cases s with
  | assign l v => simp [Stmt.alone, Stmt.exprs, checkStmt, ruleFault?]
  | call f args => simp [Stmt.alone, Stmt.exprs, checkStmt, ruleFault?]
  | increment l | decrement l =>
    rw [ruleFault?, toList_faultUnless]
    rfl
  | ifThen c b | ifElse c b b' | whileDo c b =>
    rw [ruleFault?, toList_faultUnless, Stmt.alone]
    simp [Stmt.exprs, Block.exprs, Stmt.exprsOfAll, checkStmt, checkBlock, checkStmts, conditionFaults, exprFaults,
      exprType]
  | read l => exact faultAt_eq _ _
  | write v =>
    change exprFaults r v ++ faultAt v.position (writeFault? v (exprType r v)) =
      [v].flatMap (exprFaults r) ++ ((writeFault? v (exprType r v)).map (Diagnostic.mk v.position)).toList
    rw [faultAt_eq, List.flatMap_singleton]
  | ret value p =>
    cases value with
    | none =>
      change (if result.isVoid then [] else [⟨.nowhere, .returnValueMissing⟩]) =
        (if result.isVoid then none else some (Diagnostic.mk .nowhere .returnValueMissing)).toList
      split <;> rfl
    | some v =>
      change exprFaults r v ++ _ = [v].flatMap (exprFaults r) ++ _
      rw [List.flatMap_singleton, ruleFault?]
      split
      · rfl
      · rw [toList_faultUnless]
        rfl

end Typing

/-! ## Places for a statement -/

mutual

/-- A statement with a place inside it, or nothing but the place. -/
inductive Stmt.Place : (Stmt → Stmt) → Prop
  | here : Stmt.Place id
  | thenBranch {f} (cond : Expr) (h : Block.Place f) : Stmt.Place fun s => .ifThen cond (f s)
  | firstBranch {f} (cond : Expr) (other : Block) (h : Block.Place f) :
      Stmt.Place fun s => .ifElse cond (f s) other
  | secondBranch {f} (cond : Expr) (body : Block) (h : Block.Place f) :
      Stmt.Place fun s => .ifElse cond body (f s)
  | loop {f} (cond : Expr) (h : Block.Place f) : Stmt.Place fun s => .whileDo cond (f s)

/-- A block with a place at or in one of its statements. -/
inductive Block.Place : (Stmt → Block) → Prop
  | among {f} (decls : List VarDecl) (before after : List Stmt) (h : Stmt.Place f) :
      Block.Place fun s => .mk decls (before ++ f s :: after)

end

/-- A program with a place for a statement in a function whose result has this type. -/
inductive Program.Place : Ty → (Stmt → Program) → Prop
  | inside {f} (before : List Decl) (d : FunctionDecl) (after : List Decl) (h : Block.Place f) :
      Program.Place d.result.ty fun s => ⟨before ++ .function { d with body := f s } :: after⟩

namespace Typing
variable (r : Resolution) (result : Ty)

/-- The faults are those of the statement at the place, between some that are always the same. -/
def Checked {α : Type} (check : α → Diagnostics) (f : Stmt → α) : Prop :=
  ∃ before after, ∀ s, check (f s) = before ++ checkStmt r result s ++ after

theorem Checked.around {α β : Type} {check : α → Diagnostics} {check' : β → Diagnostics} {f : Stmt → α}
    {g : Stmt → β} (h : Checked r result check f) (before after : Diagnostics)
    (hg : ∀ s, check' (g s) = before ++ (check (f s) ++ after)) : Checked r result check' g := by
  obtain ⟨pre, post, h⟩ := h
  refine ⟨before ++ pre, post ++ after, fun s => ?_⟩
  rw [hg, h]
  simp only [List.append_assoc]

theorem checkStmts_append (ss ss' : List Stmt) :
    checkStmts r result (ss ++ ss') = checkStmts r result ss ++ checkStmts r result ss' := by
  induction ss with
  | nil => rfl
  | cons s ss ih => rw [List.cons_append, checkStmts, checkStmts, ih, List.append_assoc]

mutual

theorem checked_stmt : ∀ {f : Stmt → Stmt}, Stmt.Place f → Checked r result (checkStmt r result) f
  | _, .here => ⟨[], [], fun s => (List.append_nil _).symm⟩
  | _, .thenBranch c h =>
    (checked_block h).around r result (conditionFaults r .nonLogicalIfCondition c) [] fun s => by
      rw [checkStmt, List.append_nil]
  | _, .firstBranch c b h =>
    (checked_block h).around r result (conditionFaults r .nonLogicalIfCondition c) (checkBlock r result b)
      fun s => by rw [checkStmt]
  | _, .secondBranch c b h =>
    (checked_block h).around r result (conditionFaults r .nonLogicalIfCondition c ++ checkBlock r result b) []
      fun s => by rw [checkStmt, List.append_nil, List.append_assoc]
  | _, .loop c h =>
    (checked_block h).around r result (conditionFaults r .nonLogicalWhileCondition c) [] fun s => by
      rw [checkStmt, List.append_nil]

theorem checked_block : ∀ {f : Stmt → Block}, Block.Place f → Checked r result (checkBlock r result) f
  | _, .among ds before after h =>
    (checked_stmt h).around r result (checkStmts r result before) (checkStmts r result after) fun s => by
      rw [checkBlock, checkStmts_append, checkStmts]

end

theorem checked_program {f : Stmt → Program} (h : Program.Place result f) :
    Checked r result (checkProgram r) f := by
  obtain ⟨before, d, after, h⟩ := h
  refine (checked_block r _ h).around r _ (before.flatMap (checkDecl r)) (after.flatMap (checkDecl r)) fun s => ?_
  rw [checkProgram, List.flatMap_append, List.flatMap_cons, checkDecl]

/-! ## The main theorem -/

/-- Statements are checked one by one, with whatever resolution whose links lead to symbols. The
faults of a program are, for its functions in order and for the statements of their bodies at every
depth in source order, those of each statement alone in a function with that result. These are the
faults of the expressions of the statement, and then what its own rule finds. Every expression of the
program stands in one of the statements, in this order. And wherever in a program a statement stands,
the faults before and after its own do not depend on it. -/
theorem checked_one_by_one (r : LinkedResolution) (p : Program) :
    checkProgram r p =
        p.functions.flatMap (fun d => d.body.statements.flatMap fun s => checkStmt r d.result.ty s.alone) ∧
      (∀ result s, checkStmt r result s.alone =
        s.alone.exprs.flatMap (exprFaults r) ++ (ruleFault? r result s).toList) ∧
      p.exprs = p.functions.flatMap (fun d => d.body.statements.flatMap fun s => s.alone.exprs) ∧
      ∀ result f, Program.Place result f →
        ∃ before after, ∀ s, checkProgram r (f s) = before ++ checkStmt r result s ++ after := by
  refine ⟨checkProgram_eq r p, checkStmt_alone r.toResolution, ?_,
    fun result f h => checked_program r.toResolution result h⟩
  exact p.flatMap_functions (fun d => d.body.exprs_eq) fun d hd => by
    cases d with
    | function d => cases hd
    | var _ | tuple _ => rfl

/-- The statement in a loop in a branch, with a fault of its own in each statement around it. -/
def guarded (s : Stmt) : Program :=
  ⟨[.function ⟨.void, ⟨0, "main", ⟨1, 6⟩⟩, [], .mk []
    [.ifElse (.int 1 ⟨2, 6⟩) (.mk [] [.whileDo (.int 2 ⟨3, 11⟩) (.mk [] [s])])
      (.mk [] [.ret (some (.int 5 ⟨6, 12⟩)) ⟨6, 5⟩])]⟩]⟩

theorem checked_one_by_one_guarded :
    Program.Place .void guarded ∧
      (∃ before after, ∀ s,
        checkProgram LinkedResolution.empty (guarded s) =
          before ++ checkStmt LinkedResolution.empty .void s ++ after) ∧
      checkProgram LinkedResolution.empty (guarded (.write (.unary .not (.int 3 ⟨4, 18⟩)))) =
        [⟨⟨2, 6⟩, .nonLogicalIfCondition⟩, ⟨⟨3, 11⟩, .nonLogicalWhileCondition⟩, ⟨⟨4, 18⟩, .logicalNonLogical⟩,
          ⟨⟨6, 12⟩, .returnWithValueInVoid⟩] := by
  have hplace : Program.Place .void guarded :=
    .inside [] ⟨.void, ⟨0, "main", ⟨1, 6⟩⟩, [], .mk [] []⟩ [] (.among [] [] [] (.firstBranch _ _
      (.among [] [] [] (.loop _ (.among [] [] [] .here)))))
  refine ⟨hplace, (checked_one_by_one .empty ⟨[]⟩).2.2.2 .void guarded hplace, ?_⟩
  rw [(checked_one_by_one .empty _).1]
  decide

end Typing

end BaseLang
