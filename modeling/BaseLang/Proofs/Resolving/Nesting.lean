import BaseLang.Proofs.Resolving.Invariant

/-
  Scopes are opened and closed in pairs.

    1. `Walks` — a list of steps leads from one scope to another, each step standing in
       the scope that is open when it is performed;
    2. `Program.walks` — the steps of a program lead from its own scope back to it;
    3. `Binding.nested_walk` — so as many scopes are open after the steps as the path to
       the scope names;
    4. `Program.opened_nodup` — no two scopes of a program are the same.
-/

namespace BaseLang

/-! ## From scope to scope -/

/-- A step stands in the first scope and leads to the second. -/
inductive Step.Moves : Step → ScopePath → ScopePath → Prop
  | use {scope l} : Moves (.use scope l) scope scope
  | enter {n scope} : Moves (.enter (n :: scope)) scope (n :: scope)
  | exit {n scope} : Moves (.exit (n :: scope)) (n :: scope) scope
  | var {scope d} : Moves (.var scope d) scope scope
  | heading {n scope d} : Moves (.heading (n :: scope) d) scope (n :: scope)
  | tuple {n scope d} : Moves (.tuple (n :: scope) d) scope scope

/-- The steps lead from the first scope to the second, one after the other. -/
inductive Walks : ScopePath → List Step → ScopePath → Prop
  | nil {scope} : Walks scope [] scope
  | cons {scope s scope' steps scope''} (h : s.Moves scope scope') (rest : Walks scope' steps scope'') :
      Walks scope (s :: steps) scope''

namespace Walks
variable {scope scope' scope'' : ScopePath} {xs ys : List Step}

theorem one {s : Step} (h : s.Moves scope scope') : Walks scope [s] scope' := .cons h .nil

theorem append (h : Walks scope xs scope') (h' : Walks scope' ys scope'') :
    Walks scope (xs ++ ys) scope'' := by
  induction h with
  | nil => exact h'
  | cons hs _ ih => exact .cons hs (ih h')

theorem of_append (h : Walks scope (xs ++ ys) scope'') :
    ∃ scope', Walks scope xs scope' ∧ Walks scope' ys scope'' := by
  induction xs generalizing scope with
  | nil => exact ⟨scope, .nil, h⟩
  | cons x xs ih =>
    rw [List.cons_append] at h
    cases h with
    | cons hs rest =>
      obtain ⟨mid, hxs, hys⟩ := ih rest
      exact ⟨mid, .cons hs hxs, hys⟩

theorem uses (scope : ScopePath) : ∀ ls : List Loc, Walks scope (ls.map (.use scope)) scope
  | [] => .nil
  | _ :: ls => .cons .use (uses scope ls)

theorem vars (scope : ScopePath) : ∀ ds : List VarDecl, Walks scope (ds.map (.var scope)) scope
  | [] => .nil
  | _ :: ds => .cons .var (vars scope ds)

end Walks

theorem Expr.walks (scope : ScopePath) (e : Expr) : Walks scope (e.steps scope) scope := .uses scope _

mutual

theorem Stmt.walks (scope : ScopePath) (k : Nat) : ∀ s : Stmt, Walks scope (s.steps scope k) scope
  | .assign _ v => .cons .use (v.walks scope)
  | .increment _ | .decrement _ | .read _ => .one .use
  | .ifThen c b | .whileDo c b => (c.walks scope).append (Block.walks (k, false) scope b)
  | .ifElse c b b' =>
    (c.walks scope).append ((Block.walks (k, false) scope b).append (Block.walks (k, true) scope b'))
  | .write v => v.walks scope
  | .call f args => (Expr.call f args).walks scope
  | .ret none _ => .nil
  | .ret (some v) _ => v.walks scope

theorem Block.walks (n : Nat × Bool) (scope : ScopePath) : ∀ b : Block,
    Walks scope (b.steps (n :: scope)) scope
  | .mk ds ss =>
    .cons .enter ((Walks.vars _ ds).append ((Stmt.walksAll (n :: scope) 0 ss).append (.one .exit)))

theorem Stmt.walksAll (scope : ScopePath) (k : Nat) : ∀ ss : List Stmt,
    Walks scope (Stmt.stepsOfAll scope k ss) scope
  | [] => .nil
  | s :: ss => (Stmt.walks scope k s).append (Stmt.walksAll scope (k + 1) ss)

end

theorem Block.walks_body (scope : ScopePath) (b : Block) : Walks scope (b.bodySteps scope) scope := by
  obtain ⟨ds, ss⟩ := b
  exact (Walks.vars scope ds).append (Stmt.walksAll scope 0 ss)

theorem Decl.walks (k : Nat) (d : Decl) : Walks [] (d.steps k) [] := by
  cases d with
  | var d => exact .one .var
  | function d => exact .cons .heading ((d.body.walks_body _).append (.one .exit))
  | tuple d => exact .one .tuple

theorem Decl.walksAll (k : Nat) : ∀ ds : List Decl, Walks [] (Decl.stepsOfAll k ds) []
  | [] => .nil
  | d :: ds => (d.walks k).append (walksAll (k + 1) ds)

/-- The steps of a program lead from its own scope back to it. -/
theorem Program.walks (p : Program) : Walks [] p.steps [] := Decl.walksAll 0 p.decls

/-! ## As many scopes are open as the path names -/

namespace Binding

theorem nested_extend (t : ScopeTable) (name : String) (id : SymbolId) :
    (t.extend name id).nested.length = t.nested.length := by
  obtain ⟨outermost, nested⟩ := t
  cases nested <;> rfl

theorem nested_tableAfter (b : Binding) (t : ScopeTable) (d : VarDecl) :
    (b.tableAfter t d).nested.length = t.nested.length := by
  rw [tableAfter]
  split
  · exact nested_extend _ _ _
  · rfl

theorem nested_formals : ∀ (ds : List VarDecl) (b : Binding),
    (ds.foldl afterVar b).scopes.nested.length = b.scopes.nested.length
  | [], _ => rfl
  | d :: ds, b => (nested_formals ds (b.afterVar d)).trans (b.nested_tableAfter b.scopes d)

variable {b : Binding}

theorem nested_heading (b : Binding) (d : FunctionDecl) :
    (b.afterHeading d).scopes.nested.length = b.scopes.nested.length + 1 := by
  have hname : (b.afterFunctionName d).scopes.nested.length = b.scopes.nested.length := by
    rw [afterFunctionName]
    split
    · rfl
    · exact nested_extend _ _ _
  have hformals : (d.formals.foldl afterVar (b.afterFunctionName d).inside).scopes.nested.length =
      b.scopes.nested.length + 1 :=
    (nested_formals _ _).trans (congrArg (· + 1) hname)
  rw [afterHeading]
  split <;> exact hformals

theorem nested_tuple (b : Binding) (d : TupleDecl) :
    (b.afterTuple d).scopes.nested.length = b.scopes.nested.length := by
  rw [afterTuple]
  split
  · rw [Binder.scopes_afterFields]
    rfl
  · show ((b.afterFields .empty d.fields).scopes.extend _ _).nested.length = _
    rw [nested_extend, Binder.scopes_afterFields]

theorem nested_after {s : Step} {scope scope' : ScopePath} (hs : s.Moves scope scope')
    (h : b.scopes.nested.length = scope.length) :
    (b.after s).scopes.nested.length = scope'.length := by
  cases hs with
  | use => exact h
  | enter => exact congrArg (· + 1) h
  | exit =>
    show b.scopes.nested.tail.length = _
    rw [List.length_tail, h]
    rfl
  | var => exact (b.nested_tableAfter b.scopes _).trans h
  | heading => exact (b.nested_heading _).trans (congrArg (· + 1) h)
  | tuple => exact (b.nested_tuple _).trans h

theorem nested_walk {scope scope' : ScopePath} {steps : List Step} (hw : Walks scope steps scope') :
    ∀ {b : Binding}, b.scopes.nested.length = scope.length →
      (steps.foldl after b).scopes.nested.length = scope'.length := by
  induction hw with
  | nil => exact id
  | cons hs _ ih => exact fun h => ih (nested_after hs h)

end Binding

/-! ## Scopes are distinct -/

/-- The scope that a step makes, for names or for fields. -/
def Step.opens? : Step → Option ScopePath
  | .enter scope | .heading scope _ | .tuple scope _ => some scope
  | .use _ _ | .exit _ | .var _ _ => none

/-- The scopes that steps make. -/
def opened (steps : List Step) : List ScopePath := steps.filterMap Step.opens?

theorem opened_append (xs ys : List Step) : opened (xs ++ ys) = opened xs ++ opened ys :=
  List.filterMap_append

theorem opened_uses (scope : ScopePath) (ls : List Loc) : opened (ls.map (.use scope)) = [] := by
  rw [opened, List.filterMap_map]
  exact List.filterMap_eq_nil_iff.2 fun _ _ => rfl

theorem opened_vars (scope : ScopePath) (ds : List VarDecl) : opened (ds.map (.var scope)) = [] := by
  rw [opened, List.filterMap_map]
  exact List.filterMap_eq_nil_iff.2 fun _ _ => rfl

/-- The scopes are distinct, and each lies in a scope that opens for one of these reasons. -/
def Distinct (scope : ScopePath) (reasons : Nat × Bool → Prop) (scopes : List ScopePath) : Prop :=
  scopes.Nodup ∧ ∀ inner ∈ scopes, ∃ n, reasons n ∧ (n :: scope) <:+ inner

namespace Distinct
variable {scope : ScopePath} {reasons reasons' : Nat × Bool → Prop} {xs ys : List ScopePath}

theorem nil : Distinct scope reasons [] := ⟨.nil, fun _ h => by cases h⟩

theorem mono (h : Distinct scope reasons xs) (hr : ∀ n, reasons n → reasons' n) :
    Distinct scope reasons' xs := by
  refine ⟨h.1, fun inner hin => ?_⟩
  obtain ⟨n, hn, hsuffix⟩ := h.2 inner hin
  exact ⟨n, hr n hn, hsuffix⟩

/-- What lies in different scopes of one scope is different. -/
theorem append (h : Distinct scope reasons xs) (h' : Distinct scope reasons' ys)
    (hne : ∀ n, reasons n → ¬ reasons' n) :
    Distinct scope (fun n => reasons n ∨ reasons' n) (xs ++ ys) := by
  refine ⟨List.nodup_append.2 ⟨h.1, h'.1, ?_⟩, ?_⟩
  · intro inner hx inner' hy heq
    obtain ⟨n, hn, hin⟩ := h.2 inner hx
    obtain ⟨m, hm, hin'⟩ := h'.2 inner' hy
    rw [← heq] at hin'
    have hsame := List.suffix_of_suffix_length_le hin hin' (Nat.le_refl _) |>.eq_of_length rfl
    injection hsame with hnm
    exact hne n hn (hnm ▸ hm)
  · intro inner hin
    rcases List.mem_append.1 hin with hx | hy
    · obtain ⟨n, hn, hsuffix⟩ := h.2 inner hx
      exact ⟨n, .inl hn, hsuffix⟩
    · obtain ⟨n, hn, hsuffix⟩ := h'.2 inner hy
      exact ⟨n, .inr hn, hsuffix⟩

/-- A scope and what lies in it. -/
theorem cons {n : Nat × Bool} (h : Distinct (n :: scope) reasons xs) :
    Distinct scope (· = n) ((n :: scope) :: xs) := by
  refine ⟨List.nodup_cons.2 ⟨?_, h.1⟩, ?_⟩
  · intro hin
    obtain ⟨m, _, hsuffix⟩ := h.2 _ hin
    exact Nat.not_succ_le_self _ hsuffix.length_le
  · intro inner hin
    rcases List.mem_cons.1 hin with rfl | hin
    · exact ⟨n, rfl, List.suffix_refl _⟩
    · obtain ⟨m, _, hsuffix⟩ := h.2 inner hin
      exact ⟨n, rfl, (List.suffix_cons m (n :: scope)).trans hsuffix⟩

/-- Scopes of one number, before those of the numbers that come later. -/
theorem followedBy {k : Nat} (h : Distinct scope (fun n => n.1 = k) xs)
    (h' : Distinct scope (fun n => k + 1 ≤ n.1) ys) : Distinct scope (fun n => k ≤ n.1) (xs ++ ys) := by
  refine (h.append h' ?_).mono ?_
  · rintro n rfl hlater
    exact Nat.not_succ_le_self _ hlater
  · rintro n (h | h)
    · exact Nat.le_of_eq h.symm
    · exact Nat.le_of_succ_le h

end Distinct

theorem Expr.opened (scope : ScopePath) (e : Expr) : opened (e.steps scope) = [] := opened_uses scope _

theorem opened_use (scope : ScopePath) (l : Loc) (steps : List Step) :
    opened (.use scope l :: steps) = opened steps := rfl

mutual

theorem Stmt.distinct (scope : ScopePath) (k : Nat) : ∀ s : Stmt,
    Distinct scope (fun n => n.1 = k) (opened (s.steps scope k))
  | .assign _ v => by
    rw [Stmt.steps, opened_use, v.opened]
    exact .nil
  | .increment _ | .decrement _ | .read _ => .nil
  | .ifThen c b | .whileDo c b => by
    rw [Stmt.steps, opened_append, c.opened]
    exact (Block.distinct (k, false) scope b).mono fun n hn => by rw [hn]
  | .ifElse c b b' => by
    rw [Stmt.steps, opened_append, opened_append, c.opened]
    refine ((Block.distinct (k, false) scope b).append (Block.distinct (k, true) scope b') ?_).mono ?_
    · rintro n rfl h
      cases h
    · rintro n (rfl | rfl) <;> rfl
  | .write v => by
    rw [Stmt.steps, v.opened]
    exact .nil
  | .call f args => by
    rw [Stmt.steps, Expr.opened]
    exact .nil
  | .ret none _ => .nil
  | .ret (some v) _ => by
    rw [Stmt.steps, v.opened]
    exact .nil

theorem Block.distinct (n : Nat × Bool) (scope : ScopePath) : ∀ b : Block,
    Distinct scope (· = n) (opened (b.steps (n :: scope)))
  | .mk ds ss => by
    have hin := Stmt.distinctAll (n :: scope) 0 ss
    have hopened : opened (Block.steps (n :: scope) (.mk ds ss)) =
        (n :: scope) :: opened (Stmt.stepsOfAll (n :: scope) 0 ss) := by
      show (n :: scope) :: opened _ = _
      rw [opened_append, opened_append, opened_vars, List.nil_append]
      exact congrArg _ (List.append_nil _)
    rw [hopened]
    exact hin.cons

theorem Stmt.distinctAll (scope : ScopePath) (k : Nat) : ∀ ss : List Stmt,
    Distinct scope (fun n => k ≤ n.1) (opened (Stmt.stepsOfAll scope k ss))
  | [] => .nil
  | s :: ss => by
    rw [Stmt.stepsOfAll, opened_append]
    exact (Stmt.distinct scope k s).followedBy (Stmt.distinctAll scope (k + 1) ss)

end

theorem Decl.distinct (k : Nat) (d : Decl) : Distinct [] (fun n => n.1 = k) (opened (d.steps k)) := by
  cases d with
  | var d => exact .nil
  | function d =>
    obtain ⟨result, name, formals, ds, ss⟩ := d
    have hopened : opened (Decl.steps k (.function ⟨result, name, formals, .mk ds ss⟩)) =
        [(k, false)] :: opened (Stmt.stepsOfAll [(k, false)] 0 ss) := by
      show [(k, false)] :: opened _ = _
      rw [Block.bodySteps, opened_append, opened_append, opened_vars, List.nil_append]
      exact congrArg _ (List.append_nil _)
    rw [hopened]
    exact (Stmt.distinctAll [(k, false)] 0 ss).cons.mono fun n hn => by rw [hn]
  | tuple d =>
    have hin : Distinct [(k, false)] (fun _ => True) [] := .nil
    exact hin.cons.mono fun n hn => by rw [hn]

theorem Decl.distinctAll (k : Nat) : ∀ ds : List Decl,
    Distinct [] (fun n => k ≤ n.1) (opened (Decl.stepsOfAll k ds))
  | [] => .nil
  | d :: ds => by
    rw [Decl.stepsOfAll, opened_append]
    exact (d.distinct k).followedBy (distinctAll (k + 1) ds)

/-- No two scopes of a program are the same. -/
theorem Program.opened_nodup (p : Program) : (opened p.steps).Nodup := (Decl.distinctAll 0 p.decls).1

/-- None of them is that of the program. -/
theorem Program.nil_not_mem_opened (p : Program) : [] ∉ opened p.steps := by
  intro h
  obtain ⟨n, _, hsuffix⟩ := (Decl.distinctAll 0 p.decls).2 _ h
  cases List.suffix_nil.1 hsuffix

end BaseLang
