import BaseLang.Proofs.Grammar.Numbering
import BaseLang.Proofs.Resolving.Locations
import BaseLang.Proofs.Typing.Errors
import BaseLang.Tree.Views

/-
  No error is silent, and none is forgotten.

  The type of an expression is `error` exactly if something has been reported about it:
  by name resolution when it came to the expression, or by the checker.

    1. `Program.Reaches` — the state in which name resolution comes to an expression;
    2. `Program.exists_reaches` — it comes to every expression in the body of a function;
    3. `exprType_error_iff_reported` — the theorem, for every program that was parsed.
-/

namespace BaseLang

/-! ## The expressions of a program -/

mutual

/-- An expression and those in it. A location to which a value is assigned is one of them. -/
def Expr.within : Expr → List Expr
  | .logical v p => [.logical v p]
  | .int v p => [.int v p]
  | .string t p => [.string t p]
  | .loc l => [.loc l]
  | .assign l v => .assign l v :: .loc l :: v.within
  | .call f args => .call f args :: Expr.withinAll args
  | .unary op v => .unary op v :: v.within
  | .binary op v w => .binary op v w :: (v.within ++ w.within)

def Expr.withinAll : List Expr → List Expr
  | [] => []
  | e :: es => e.within ++ Expr.withinAll es

end

theorem Expr.self_within (e : Expr) : e ∈ e.within := by
  cases e <;> exact List.mem_cons_self

/-- Every expression in the bodies of the functions of a program, at any depth. -/
def Program.allExprs (p : Program) : List Expr := p.exprs.flatMap Expr.within

/-- The resolver is in this state when it comes to the expression: it has performed the
steps of the program before those of the expression. -/
def Program.Reaches (p : Program) (e : Expr) (b : Binding) : Prop :=
  ∃ scope pre post, p.steps = pre ++ e.steps scope ++ post ∧ (Binder.walk pre).run .start = .ok ((), b)

/-! ## Every expression is reached -/

mutual

theorem Expr.places_isInfix : ∀ {e e' : Expr}, e' ∈ e.within → e'.places <:+: e.places
  | .logical _ _, _, h | .int _ _, _, h | .string _ _, _, h | .loc _, _, h => by
    cases List.mem_singleton.1 h
    exact List.infix_rfl
  | .assign l v, _, h => by
    rcases List.mem_cons.1 h with rfl | h
    · exact List.infix_rfl
    · rcases List.mem_cons.1 h with rfl | h
      · exact ⟨[], v.places, rfl⟩
      · exact List.infix_cons (places_isInfix h)
  | .call f args, _, h => by
    rcases List.mem_cons.1 h with rfl | h
    · exact List.infix_rfl
    · exact List.infix_cons (placesOfAll_isInfix h)
  | .unary _ v, _, h => by
    rcases List.mem_cons.1 h with rfl | h
    · exact List.infix_rfl
    · exact places_isInfix (e := v) h
  | .binary _ v w, _, h => by
    rcases List.mem_cons.1 h with rfl | h
    · exact List.infix_rfl
    · rcases List.mem_append.1 h with h | h
      · exact (places_isInfix h).trans (List.prefix_append _ _).isInfix
      · exact (places_isInfix h).trans (List.suffix_append _ _).isInfix

theorem Expr.placesOfAll_isInfix : ∀ {es : List Expr} {e' : Expr}, e' ∈ Expr.withinAll es →
    e'.places <:+: Expr.placesOfAll es
  | [], _, h => by cases h
  | e :: es, _, h => by
    rcases List.mem_append.1 h with h | h
    · exact (places_isInfix h).trans (List.prefix_append _ _).isInfix
    · exact (placesOfAll_isInfix h).trans (List.suffix_append _ _).isInfix

end

theorem Expr.steps_isInfix {e e' : Expr} (h : e' ∈ e.within) (scope : ScopePath) :
    e'.steps scope <:+: e.steps scope := by
  obtain ⟨pre, post, heq⟩ := places_isInfix h
  exact ⟨pre.map (.use scope), post.map (.use scope), by
    rw [steps, steps, ← List.map_append, ← List.map_append, heq]⟩

/-- The steps of the expression stand among the steps, in some scope. -/
def Expr.Stands (e : Expr) (steps : List Step) : Prop := ∃ scope, e.steps scope <:+: steps

namespace Expr.Stands
variable {e : Expr} {xs ys : List Step}

theorem here (scope : ScopePath) : e.Stands (e.steps scope) := ⟨scope, List.infix_rfl⟩

theorem left (h : e.Stands xs) : e.Stands (xs ++ ys) := by
  obtain ⟨scope, h⟩ := h
  exact ⟨scope, h.trans (List.prefix_append _ _).isInfix⟩

theorem right (h : e.Stands ys) : e.Stands (xs ++ ys) := by
  obtain ⟨scope, h⟩ := h
  exact ⟨scope, h.trans (List.suffix_append _ _).isInfix⟩

theorem cons {s : Step} (h : e.Stands xs) : e.Stands (s :: xs) := by
  obtain ⟨scope, h⟩ := h
  exact ⟨scope, List.infix_cons h⟩

end Expr.Stands

mutual

theorem Stmt.expr_stands (scope : ScopePath) (k : Nat) : ∀ {s : Stmt} {e : Expr}, e ∈ s.exprs →
    e.Stands (s.steps scope k)
  | .assign l v, _, h => by
    cases List.mem_singleton.1 h
    exact .here scope
  | .increment l, _, h | .decrement l, _, h | .read l, _, h => by
    cases List.mem_singleton.1 h
    exact .here scope
  | .ifThen c b, _, h | .whileDo c b, _, h => by
    rcases List.mem_cons.1 h with rfl | h
    · exact (Expr.Stands.here scope).left
    · exact (Block.expr_stands _ h).right
  | .ifElse c b b', _, h => by
    rcases List.mem_cons.1 h with rfl | h
    · exact (Expr.Stands.here scope).left
    · rcases List.mem_append.1 h with h | h
      · exact (Block.expr_stands _ h).left.right
      · exact (Block.expr_stands _ h).right.right
  | .write v, _, h => by
    cases List.mem_singleton.1 h
    exact .here scope
  | .call f args, _, h => by
    cases List.mem_singleton.1 h
    exact .here scope
  | .ret none _, _, h => by cases h
  | .ret (some v) _, _, h => by
    cases List.mem_singleton.1 h
    exact .here scope

theorem Block.expr_stands (scope : ScopePath) : ∀ {b : Block} {e : Expr}, e ∈ b.exprs →
    e.Stands (b.steps scope)
  | .mk _ _, _, h => (Stmt.exprs_stand scope 0 h).left.right.cons

theorem Stmt.exprs_stand (scope : ScopePath) (k : Nat) : ∀ {ss : List Stmt} {e : Expr},
    e ∈ Stmt.exprsOfAll ss → e.Stands (Stmt.stepsOfAll scope k ss)
  | [], _, h => by cases h
  | s :: ss, _, h => by
    rcases List.mem_append.1 h with h | h
    · exact (Stmt.expr_stands scope k h).left
    · exact (Stmt.exprs_stand scope (k + 1) h).right

end

theorem Decl.expr_stands (k : Nat) {d : Decl} {e : Expr} (h : e ∈ d.exprs) : e.Stands (d.steps k) := by
  cases d with
  | var _ | tuple _ => cases h
  | function d =>
    obtain ⟨result, name, formals, ds, ss⟩ := d
    exact (Stmt.exprs_stand _ 0 h).right.left.cons

theorem Decl.exprs_stand (k : Nat) : ∀ {ds : List Decl} {e : Expr}, e ∈ ds.flatMap Decl.exprs →
    e.Stands (Decl.stepsOfAll k ds)
  | [], _, h => by cases h
  | d :: ds, _, h => by
    rw [List.flatMap_cons] at h
    rcases List.mem_append.1 h with h | h
    · exact (Decl.expr_stands k h).left
    · exact (exprs_stand (k + 1) h).right

/-- Name resolution comes to every expression in the body of a function. -/
theorem Program.exists_reaches {p : Program} {e : Expr} (h : e ∈ p.allExprs) : ∃ b, p.Reaches e b := by
  obtain ⟨whole, hwhole, hin⟩ := List.mem_flatMap.1 h
  obtain ⟨scope, hstands⟩ := Decl.exprs_stand 0 hwhole
  obtain ⟨pre, post, hsteps⟩ := (Expr.steps_isInfix hin scope).trans hstands
  have hwalks := p.walks
  rw [Program.steps, ← hsteps, List.append_assoc] at hwalks
  obtain ⟨mid, hpre, -⟩ := hwalks.of_append
  exact ⟨_, scope, pre, post, hsteps.symm, hpre.run Binding.sound_start rfl⟩

/-! ## Errors are reported -/

theorem Typing.locType_eq_error_iff {r : Resolution} (hr : r.Sound) (l : Loc) :
    locType r l = .error ↔ ¬ r.Finds l := by
  have hident : ∀ x, identType r x = .error ↔ ¬ ∃ id, r.linkOf x = some id := by
    intro x
    rw [identType_eq_error_iff hr]
    cases r.linkOf x <;> simp
  cases l with
  | ident x => exact hident x
  | access id base f =>
    rw [locType, Resolution.Finds]
    cases r.access id with
    | none => simp
    | some outcome =>
      cases outcome with
      | bad => simp
      | resolved t => simpa using hident f

/-- Nothing has been found out about nodes that the steps so far do not have. -/
theorem Binding.fresh_walk {pre : List Step} {nodes : List NodeId}
    (h : ∀ i ∈ nodes, i ∉ pre.flatMap Step.nodes) :
    (pre.foldl Binding.after .start).resolution.Fresh nodes :=
  (evolves_walk pre .start).fresh (fun _ _ => rfl) h

/-- Before and after an expression. The resolver comes to it in a sound state, in which nothing
is known of its nodes, performs its steps, and goes on with steps that do not have its nodes. -/
theorem Program.Reaches.around {p : Program} {e : Expr} {b : Binding} (hnodup : p.nodes.Nodup)
    (h : p.Reaches e b) :
    ∃ (scope : ScopePath) (post : List Step), b.Sound ∧ e.nodes.Nodup ∧ b.resolution.Fresh e.nodes ∧
      (Binder.expr e).run b = .ok ((), (e.steps scope).foldl Binding.after b) ∧
      p.resolved = post.foldl Binding.after ((e.steps scope).foldl Binding.after b) ∧
      ∀ i ∈ e.nodes, i ∉ post.flatMap Step.nodes := by
  obtain ⟨scope, pre, post, hsteps, hrun⟩ := h
  -- the walk leads through the scope of the expression and its state
  have hwalks := p.walks
  rw [hsteps, List.append_assoc] at hwalks
  obtain ⟨mid, hpre, hrest⟩ := hwalks.of_append
  obtain ⟨_, hexpr, -⟩ := hrest.of_append
  rw [hpre.run Binding.sound_start rfl] at hrun
  cases hrun
  have hexprRun := hexpr.run (Binding.sound_start.walk pre) (Binding.nested_walk hpre rfl)
  rw [← Binder.expr_eq_walk] at hexprRun
  -- its nodes are not those of the steps before and after it
  rw [← p.steps_nodes, hsteps, List.flatMap_append, List.flatMap_append, e.steps_nodes] at hnodup
  obtain ⟨hbefore, -, hpost⟩ := List.nodup_append.1 hnodup
  obtain ⟨-, hnodes, hdisjoint⟩ := List.nodup_append.1 hbefore
  refine ⟨scope, post, Binding.sound_start.walk pre, hnodes, ?_, hexprRun, ?_, ?_⟩
  · exact Binding.fresh_walk fun i hi hpre => hdisjoint i hpre i hi rfl
  · rw [Program.resolved, hsteps, List.foldl_append, List.foldl_append]
  · exact fun i hi hip => hpost i (List.mem_append_right _ hi) i hip rfl

/-- What is reported when the resolver comes to an expression: something exactly if a
location in it has the type `error` in the end. -/
theorem Program.Reaches.reports {p : Program} {e : Expr} {b : Binding} (hnodup : p.nodes.Nodup)
    (h : p.Reaches e b) :
    ∃ b' found more, (Binder.expr e).run b = .ok ((), b') ∧
      b'.diagnostics = b.diagnostics ++ found ∧ p.resolved.diagnostics = b'.diagnostics ++ more ∧
      (found ≠ [] ↔ ∃ l ∈ e.places, Typing.locType p.resolved.resolution l = .error) := by
  obtain ⟨scope, post, -, hnodes, hfresh, hrun, hend, hpost⟩ := h.around hnodup
  rw [← e.places_nodes] at hnodes hfresh
  obtain ⟨found, hfound, hiff⟩ := Binding.uses_report_iff scope e.places _ hnodes hfresh
  have hevolves := Binding.evolves_walk post ((e.steps scope).foldl Binding.after b)
  obtain ⟨more, hmore⟩ := hevolves.diagnostics
  refine ⟨_, found, more, hrun, hfound, by rw [hend, hmore], hiff.trans ?_⟩
  have hstays : ∀ l ∈ e.places, (Typing.locType p.resolved.resolution l = .error ↔
      ¬ ((e.steps scope).foldl Binding.after b).resolution.Finds l) := by
    intro l hl
    rw [Typing.locType_eq_error_iff (resolved_sound p).resolution, hend]
    refine not_congr (hevolves.finds_iff fun i hi => hpost i ?_)
    rw [← e.places_nodes]
    exact List.mem_flatMap.2 ⟨l, hl, hi⟩
  constructor
  · rintro ⟨l, hl, hlost⟩
    exact ⟨l, hl, (hstays l hl).2 hlost⟩
  · rintro ⟨l, hl, herror⟩
    exact ⟨l, hl, (hstays l hl).1 herror⟩

/-- An expression has the type `error` exactly if something was reported about it, when
the resolver came to it or when its type was checked. -/
theorem exprType_error_iff_reported {tokens : List Token} {p : Program}
    (hp : parse tokens = .ok p) :
    ∃ r ds, resolveNames p = .ok (r, ds) ∧ ∀ e ∈ p.allExprs, (∃ b, p.Reaches e b) ∧
      ∀ b, p.Reaches e b → ∃ b' found, (Binder.expr e).run b = .ok ((), b') ∧
        b'.diagnostics = b.diagnostics ++ found ∧
        (Typing.exprType r e = .error ↔ found ≠ [] ∨ Typing.exprFaults r e ≠ []) := by
  refine ⟨_, _, resolveNames_eq p, fun e he => ⟨Program.exists_reaches he, ?_⟩⟩
  intro b hb
  obtain ⟨b', found, _, hrun, hfound, -, hiff⟩ := hb.reports (Grammar.parse_nodup hp)
  exact ⟨b', found, hrun, hfound, by
    rw [Typing.exprType_eq_error_iff (resolved_sound p).resolution, hiff]⟩

/-- A function that returns a sum with an undeclared name. -/
def lostTokens : List Token :=
  [(.integerWord, "integer"), (.identifier, "f"), (.openCurly, "\x7b"), (.closeCurly, "\x7d"),
    (.openBracket, "["), (.returnWord, "return"), (.identifier, "y"), (.plus, "+"), (.trueWord, "True"),
    (.dot, "."), (.closeBracket, "]")].map
    fun (kind, text) => ⟨kind, text, ⟨.nowhere, .nowhere⟩⟩

def lostProgram : Program :=
  ⟨[.function ⟨.integer, ⟨0, "f", .nowhere⟩, [],
    .mk [] [.ret (some (.binary .plus (.loc (.ident ⟨1, "y", .nowhere⟩)) (.logical true .nowhere)))
      .nowhere]⟩]⟩

theorem exprType_error_iff_reported_lost :
    parse lostTokens = .ok lostProgram ∧
      ∃ r ds, resolveNames lostProgram = .ok (r, ds) ∧ ∀ e ∈ lostProgram.allExprs,
        (∃ b, lostProgram.Reaches e b) ∧
        ∀ b, lostProgram.Reaches e b → ∃ b' found, (Binder.expr e).run b = .ok ((), b') ∧
          b'.diagnostics = b.diagnostics ++ found ∧
          (Typing.exprType r e = .error ↔ found ≠ [] ∨ Typing.exprFaults r e ≠ []) := by
  have hp : parse lostTokens = .ok lostProgram := rfl
  exact ⟨hp, exprType_error_iff_reported hp⟩

/-- When no name was reported, no location has the type `error`. -/
theorem locType_ne_error {p : Program} (hnodup : p.nodes.Nodup) (hclean : p.resolved.diagnostics = [])
    {e : Expr} (he : e ∈ p.exprs) {l : Loc} (hl : l ∈ e.places) :
    Typing.locType p.resolved.resolution l ≠ .error := by
  intro herror
  have hin : e ∈ p.allExprs := List.mem_flatMap.2 ⟨e, he, e.self_within⟩
  obtain ⟨b, hb⟩ := Program.exists_reaches hin
  obtain ⟨b', found, more, -, hfound, hmore, hiff⟩ := hb.reports hnodup
  refine hiff.2 ⟨l, hl, herror⟩ ?_
  rw [hmore, hfound, List.append_eq_nil_iff, List.append_eq_nil_iff] at hclean
  exact hclean.1.2

end BaseLang
