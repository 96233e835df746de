import BaseLang.Proofs.Renaming.Resolving
import BaseLang.Proofs.Renaming.Typing
import BaseLang.Proofs.Resolving.Faults
import BaseLang.Proofs.Typing.OwnFaults

/-
  The analysis sees only how names are bound.

  Names, node numbers and positions can be replaced all over a tree, the first two by
  different ones: what is found out is the same, with the same replacements. This is so for
  every tree, whatever is wrong with it. Only that a value is missing is reported at no
  position of the tree, and stays there.

    1. `Diagnostics.MissingNowhere` — missing values are reported nowhere, by the resolver
       (`Binding.found_missing`) and by the checker (`Typing.checkProgram_missing`);
    2. `Renaming.analyze_labels` — the analysis of the renamed tree;
    3. `analyze_renamed` — the theorem, for every tree and every renaming.
-/

namespace BaseLang

/-! ## Missing values -/

/-- That a value is missing is reported nowhere in the text. -/
def Diagnostics.MissingNowhere (ds : Diagnostics) : Prop :=
  ∀ d ∈ ds, d.kind = .returnValueMissing → d.position = .nowhere

namespace Diagnostics.MissingNowhere
variable {ds es : Diagnostics}

theorem nil : MissingNowhere [] := nofun

theorem append (hd : ds.MissingNowhere) (he : es.MissingNowhere) : MissingNowhere (ds ++ es) :=
  fun d h => (List.mem_append.1 h).elim (hd d) (he d)

/-- Nothing is missing. -/
theorem of_kinds (h : ∀ d ∈ ds, d.kind ≠ .returnValueMissing) : ds.MissingNowhere :=
  fun d hd hk => absurd hk (h d hd)

theorem one {p : Position} {k : DiagnosticKind} (hk : k ≠ .returnValueMissing) :
    MissingNowhere [⟨p, k⟩] :=
  of_kinds fun d hd => by
    rw [List.mem_singleton.1 hd]
    exact hk

end Diagnostics.MissingNowhere

open Diagnostics (MissingNowhere)

namespace Binding
variable (b : Binding)

theorem locFaults_missing : ∀ l : Loc, MissingNowhere (b.locFaults l)
  | .ident x => by
    rw [locFaults]
    split
    · exact .one (by decide)
    · exact .nil
  | .access _ l f => by
    have hcolon : MissingNowhere (b.colonFaults l) := by
      rw [colonFaults]
      split
      · exact .nil
      · split
        · exact .one (by decide)
        · exact .nil
    have hfield : MissingNowhere (b.fieldFaults l f) := by
      rw [fieldFaults]
      split
      · exact .nil
      · split
        · exact .one (by decide)
        · exact .nil
    exact (locFaults_missing l).append (hcolon.append hfield)

theorem nameFaults_missing (x : Ident) : MissingNowhere (b.nameFaults x) := by
  rw [nameFaults]
  split
  · exact .one (by decide)
  · exact .nil

theorem declFaults_missing (t : ScopeTable) (d : VarDecl) : MissingNowhere (b.declFaults t d) := by
  have htype : MissingNowhere (b.typeFaults d) := by
    rw [typeFaults]
    split
    · exact .one (by decide)
    · split
      · exact .one (by decide)
      · exact .nil
    · exact .nil
  refine htype.append ?_
  split
  · exact .one (by decide)
  · exact .nil

theorem varsFaults_missing : ∀ (ds : List VarDecl) (b : Binding), MissingNowhere (b.varsFaults ds)
  | [], _ => .nil
  | d :: ds, b => (b.declFaults_missing b.scopes d).append (varsFaults_missing ds (b.afterVar d))

theorem fieldsFaults_missing : ∀ (ds : List VarDecl) (b : Binding) (t : ScopeTable),
    MissingNowhere (b.fieldsFaults t ds)
  | [], _, _ => .nil
  | d :: ds, b, t =>
    (b.declFaults_missing t d).append (fieldsFaults_missing ds (b.afterDecl t b.scopes d) (b.tableAfter t d))

theorem faults_missing (s : Step) : MissingNowhere (b.faults s) := by
  cases s with
  | use _ l => exact b.locFaults_missing l
  | enter _ | exit _ => exact .nil
  | var _ d => exact b.declFaults_missing b.scopes d
  | heading _ d => exact (b.nameFaults_missing d.name).append (varsFaults_missing d.formals _)
  | tuple _ d => exact (b.nameFaults_missing d.name).append (fieldsFaults_missing d.fields _ .empty)

/-- The resolver reports no missing value. -/
theorem found_missing : ∀ (steps : List Step) (b : Binding), MissingNowhere (b.found steps)
  | [], _ => .nil
  | s :: steps, b => (b.faults_missing s).append (found_missing steps (b.after s))

end Binding

namespace Typing
variable {r : Resolution}

theorem Modest.missing {types : List Ty} {positions : List Position} {own : Diagnostics}
    (h : Modest types positions own) : own.MissingNowhere := .of_kinds fun d hd => (h.plain d hd).1

theorem call_missing (hr : r.Sound) (callee : Ident) (args : List (Expr × Ty)) :
    MissingNowhere (call r callee args).2 := by
  rcases call_modest hr callee args with hmodest | ⟨-, hother⟩
  · exact hmodest.missing
  · rw [hother]
    exact .one (by decide)

mutual

theorem exprFaults_missing (hr : r.Sound) : ∀ e : Expr, MissingNowhere (exprFaults r e)
  | .logical _ _ | .int _ _ | .string _ _ | .loc _ => .nil
  | .assign l v => (exprFaults_missing hr v).append (assign_modest l _ _).missing
  | .call f args => (argsFaults_missing hr args).append (call_missing hr f _)
  | .unary op v => (exprFaults_missing hr v).append (unary_modest op _).missing
  | .binary op v w =>
    ((exprFaults_missing hr v).append (exprFaults_missing hr w)).append (binary_modest op _ _).missing

theorem argsFaults_missing (hr : r.Sound) : ∀ es : List Expr, MissingNowhere (checkExprs r es).2
  | [] => .nil
  | e :: es => (exprFaults_missing hr e).append (argsFaults_missing hr es)

end

theorem conditionFaults_missing (hr : r.Sound) (k : DiagnosticKind) (hk : k ≠ .returnValueMissing)
    (e : Expr) : MissingNowhere (conditionFaults r k e) := by
  refine (exprFaults_missing hr e).append ?_
  split
  · exact .nil
  · exact .one hk

theorem stepFaults_missing (r : Resolution) (l : Loc) : MissingNowhere (stepFaults r l) := by
  rw [stepFaults]
  split
  · exact .nil
  · exact .one (by decide)

theorem faultAt_missing {kind : Option DiagnosticKind} (h : kind ≠ some .returnValueMissing)
    (p : Position) : MissingNowhere (faultAt p kind) := by
  cases kind with
  | none => exact .nil
  | some k => exact .one fun hk => h (congrArg some hk)

theorem readFault?_ne (t : Ty) : readFault? t ≠ some .returnValueMissing := by
  intro h
  cases t <;> cases h

theorem writeFault?_ne (e : Expr) (t : Ty) : writeFault? e t ≠ some .returnValueMissing := by
  intro h
  cases t with
  | void =>
    rw [writeFault?] at h
    split at h <;> cases h
  | _ => cases h

/-- A return without the value that it should have is the one report that has no place. -/
theorem returnFaults_missing (hr : r.Sound) (result : Ty) : ∀ value : Option Expr,
    MissingNowhere (returnFaults r result value)
  | none => by
    rw [returnFaults]
    split
    · exact .nil
    · intro d hd _
      rw [List.mem_singleton.1 hd]
  | some v => by
    refine (exprFaults_missing hr v).append ?_
    split
    · exact .one (by decide)
    · split
      · exact .nil
      · exact .one (by decide)

mutual

theorem checkStmt_missing (hr : r.Sound) (result : Ty) : ∀ s : Stmt, MissingNowhere (checkStmt r result s)
  | .assign l v => exprFaults_missing hr (.assign l v)
  | .increment l | .decrement l => stepFaults_missing r l
  | .ifThen c b =>
    (conditionFaults_missing hr .nonLogicalIfCondition (by decide) c).append (checkBlock_missing hr result b)
  | .ifElse c b b' =>
    (conditionFaults_missing hr .nonLogicalIfCondition (by decide) c).append
      ((checkBlock_missing hr result b).append (checkBlock_missing hr result b'))
  | .whileDo c b =>
    (conditionFaults_missing hr .nonLogicalWhileCondition (by decide) c).append (checkBlock_missing hr result b)
  | .read l => faultAt_missing (readFault?_ne _) l.position
  | .write v => (exprFaults_missing hr v).append (faultAt_missing (writeFault?_ne v _) v.position)
  | .call f args => exprFaults_missing hr (.call f args)
  | .ret value _ => returnFaults_missing hr result value

theorem checkBlock_missing (hr : r.Sound) (result : Ty) : ∀ b : Block, MissingNowhere (checkBlock r result b)
  | .mk _ ss => checkStmts_missing hr result ss

theorem checkStmts_missing (hr : r.Sound) (result : Ty) : ∀ ss : List Stmt,
    MissingNowhere (checkStmts r result ss)
  | [] => .nil
  | s :: ss => (checkStmt_missing hr result s).append (checkStmts_missing hr result ss)

end

/-- The checker reports missing values nowhere. -/
theorem checkProgram_missing (hr : r.Sound) (p : Program) : MissingNowhere (checkProgram r p) := by
  intro d hd
  obtain ⟨decl, -, hd⟩ := List.mem_flatMap.1 hd
  cases decl with
  | var _ | tuple _ => cases hd
  | function f => exact checkBlock_missing hr f.result.ty f.body d hd

end Typing

/-! ## The analysis of a renamed tree -/

namespace Renaming
variable (ρ : Renaming)

def analysis (a : Analysis) : Analysis := ⟨ρ.resolution a.resolution, ρ.diagnostics a.diagnostics⟩

theorem kinds_diagnostics (ds : Diagnostics) : (ρ.diagnostics ds).kinds = ds.kinds := by
  rw [Diagnostics.kinds, diagnostics, List.map_map]
  apply List.map_congr_left
  intro d _
  rw [Function.comp_apply, diagnostic]
  split <;> rfl

/-- What is found out about a renamed tree is what is found out about the tree, renamed. -/
theorem analyze_labels (p : Program) :
    ∃ a, analyze p = .ok a ∧ analyze (p.relabel ρ.labels) = .ok (ρ.analysis a) := by
  refine ⟨_, analyze_eq p, ?_⟩
  rw [analyze_eq, resolved_relabel]
  show Except.ok (Analysis.mk (ρ.resolution p.resolved.resolution) (ρ.diagnostics p.resolved.diagnostics ++
    Typing.checkProgram (ρ.resolution p.resolved.resolution) (p.relabel ρ.labels))) = _
  rw [checkProgram_relabel, ← diagnostics_append]
  rfl

end Renaming

/-- The analysis sees only how names are bound. Whatever names, node numbers and positions a
tree has, and whatever is wrong with it: with other names and numbers, different ones for
different ones, and with any other positions, the same is found out. The same kinds of faults
are reported in the same order, each at the new position, except that a missing value is
reported nowhere in both. The symbols are the same with the new names, and the links of
identifiers and accesses the same with the new numbers. -/
theorem analyze_renamed (ρ : Renaming) (p : Program) :
    ∃ a a', analyze p = .ok a ∧ analyze (p.relabel ρ.labels) = .ok a' ∧
      a'.diagnostics.kinds = a.diagnostics.kinds ∧
      (∀ d ∈ a.diagnostics, d.kind = .returnValueMissing → d.position = .nowhere) ∧
      a'.diagnostics = a.diagnostics.map (fun d =>
        if d.kind = .returnValueMissing then d else ⟨ρ.place d.position, d.kind⟩) ∧
      a'.resolution.symbols = a.resolution.symbols.map ρ.symbol ∧
      (∀ i id, a'.resolution.links.find? i = some id ↔
        ∃ j, i = ρ.node j ∧ a.resolution.links.find? j = some id) ∧
      ∀ i outcome, a'.resolution.accesses.find? i = some outcome ↔
        ∃ j, i = ρ.node j ∧ a.resolution.accesses.find? j = some outcome := by
  obtain ⟨a, ha, hrenamed⟩ := ρ.analyze_labels p
  refine ⟨a, ρ.analysis a, ha, hrenamed, ρ.kinds_diagnostics a.diagnostics, ?_, rfl, rfl,
    ρ.find?_nodes_eq_some_iff a.resolution.links, ρ.find?_nodes_eq_some_iff a.resolution.accesses⟩
  rw [analyze_eq] at ha
  cases ha
  rw [p.resolved_diagnostics]
  exact (Binding.found_missing p.steps .start).append
    (Typing.checkProgram_missing (resolved_sound p).resolution p)

/-- Longer names, higher numbers and later lines. -/
def laterLabels : Renaming where
  name n := "x" ++ n
  node i := i + 7
  place q := ⟨q.line + 1, q.column⟩
  name_injective _ _ h := by simpa using h
  node_injective _ _ h := Nat.add_right_cancel h

/-- A function that calls an undeclared one and does not return its value. -/
def idleProgram : Program :=
  ⟨[.function ⟨.integer, ⟨0, "f", ⟨1, 9⟩⟩, [], .mk [] [.call ⟨1, "g", ⟨2, 1⟩⟩ [], .ret none ⟨3, 1⟩]⟩]⟩

theorem analyze_renamed_idle :
    ∃ a a', analyze idleProgram = .ok a ∧ analyze (idleProgram.relabel laterLabels.labels) = .ok a' ∧
      a.diagnostics = [⟨⟨2, 1⟩, .undeclaredIdentifier⟩, ⟨.nowhere, .returnValueMissing⟩] ∧
      a'.diagnostics = [⟨⟨3, 1⟩, .undeclaredIdentifier⟩, ⟨.nowhere, .returnValueMissing⟩] ∧
      a'.resolution.links.find? 7 = some 0 := by
  obtain ⟨a, a', ha, ha', -, -, hfaults, -, hlinks, -⟩ := analyze_renamed laterLabels idleProgram
  have hsome : a.diagnostics = [⟨⟨2, 1⟩, .undeclaredIdentifier⟩, ⟨.nowhere, .returnValueMissing⟩] ∧
      a.resolution.links.find? 0 = some 0 := by
    cases ha
    exact ⟨rfl, rfl⟩
  refine ⟨a, a', ha, ha', hsome.1, ?_, (hlinks 7 0).2 ⟨0, rfl, hsome.2⟩⟩
  rw [hfaults, hsome.1]
  rfl

end BaseLang
