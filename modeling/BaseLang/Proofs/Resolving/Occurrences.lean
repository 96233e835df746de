import BaseLang.Proofs.Grammar.Numbering
import BaseLang.Proofs.Resolving.Walk
import BaseLang.Tree.Views

/-
  The identifiers and the accesses of the steps.

    1. `Block.bodySteps_local`, `Program.tuple_scope` — bodies use and declare values only, so
       that tuple types are declared at the top level;
    2. `Program.steps_idents` — the steps hold the identifiers of the program in their order,
       if no function has a result of a tuple type, and `parse_results`: none of a parsed
       program has;
    3. `Program.steps_accesses` — they hold its field accesses;
    4. `Step.idents_sublist` — the numbers of their identifiers are among their nodes, each
       in its place.
-/

namespace BaseLang

/-! ## Where steps stand -/

/-- Neither a function nor a tuple type is declared. -/
def Step.IsLocal : Step → Prop
  | .use _ _ | .enter _ | .exit _ | .var _ _ => True
  | .heading _ _ | .tuple _ _ => False

theorem Expr.steps_local {scope : ScopePath} {e : Expr} : ∀ s ∈ e.steps scope, s.IsLocal := by
  intro s hs
  obtain ⟨l, -, rfl⟩ := List.mem_map.1 hs
  trivial

theorem var_steps_local {scope : ScopePath} {ds : List VarDecl} : ∀ s ∈ ds.map (Step.var scope), s.IsLocal := by
  intro s hs
  obtain ⟨d, -, rfl⟩ := List.mem_map.1 hs
  trivial

mutual

theorem Stmt.steps_local {scope : ScopePath} {k : Nat} : ∀ {s : Stmt}, ∀ t ∈ s.steps scope k, t.IsLocal
  | .assign _ v, t, h => by
    rcases List.mem_cons.1 h with rfl | h
    · trivial
    · exact v.steps_local t h
  | .increment _, t, h | .decrement _, t, h | .read _, t, h => by
    cases List.mem_singleton.1 h
    trivial
  | .ifThen c b, t, h | .whileDo c b, t, h => by
    rcases List.mem_append.1 h with h | h
    · exact c.steps_local t h
    · exact Block.steps_local t h
  | .ifElse c b b', t, h => by
    rcases List.mem_append.1 h with h | h
    · exact c.steps_local t h
    · rcases List.mem_append.1 h with h | h
      · exact Block.steps_local t h
      · exact Block.steps_local t h
  | .write v, t, h => v.steps_local t h
  | .call f args, t, h => (Expr.call f args).steps_local t h
  | .ret none _, _, h => by cases h
  | .ret (some v) _, t, h => v.steps_local t h

theorem Block.steps_local {scope : ScopePath} : ∀ {b : Block}, ∀ t ∈ b.steps scope, t.IsLocal
  | .mk ds ss, t, h => by
    rcases List.mem_cons.1 h with rfl | h
    · trivial
    · rcases List.mem_append.1 h with h | h
      · exact var_steps_local t h
      · rcases List.mem_append.1 h with h | h
        · exact Stmt.stepsOfAll_local t h
        · cases List.mem_singleton.1 h
          trivial

theorem Stmt.stepsOfAll_local {scope : ScopePath} {k : Nat} : ∀ {ss : List Stmt},
    ∀ t ∈ Stmt.stepsOfAll scope k ss, t.IsLocal
  | [], _, h => by cases h
  | s :: ss, t, h => by
    rcases List.mem_append.1 h with h | h
    · exact Stmt.steps_local t h
    · exact Stmt.stepsOfAll_local t h

end

theorem Block.bodySteps_local {scope : ScopePath} {b : Block} : ∀ t ∈ b.bodySteps scope, t.IsLocal := by
  obtain ⟨ds, ss⟩ := b
  intro t h
  rcases List.mem_append.1 h with h | h
  · exact var_steps_local t h
  · exact Stmt.stepsOfAll_local t h

theorem Decl.tuple_scope {k : Nat} {d : Decl} {scope : ScopePath} {t : TupleDecl}
    (h : .tuple scope t ∈ d.steps k) : scope = [(k, false)] := by
  cases d with
  | var d => cases List.mem_singleton.1 h
  | function d =>
    rcases List.mem_cons.1 h with h | h
    · cases h
    · rcases List.mem_append.1 h with h | h
      · exact absurd (Block.bodySteps_local _ h) id
      · cases List.mem_singleton.1 h
  | tuple d =>
    cases List.mem_singleton.1 h
    rfl

theorem Decl.tuple_scopes {scope : ScopePath} {t : TupleDecl} : ∀ {ds : List Decl} {k : Nat},
    .tuple scope t ∈ Decl.stepsOfAll k ds → ∃ n, scope = [n]
  | [], _, h => by cases h
  | _ :: _, k, h => by
    rcases List.mem_append.1 h with h | h
    · exact ⟨_, Decl.tuple_scope h⟩
    · exact tuple_scopes h

/-- Tuple types are declared at the top level only. -/
theorem Program.tuple_scope {p : Program} {scope : ScopePath} {t : TupleDecl}
    (h : .tuple scope t ∈ p.steps) : ∃ n, scope = [n] := Decl.tuple_scopes h

theorem Decl.heading_mem {k : Nat} {d : Decl} {scope : ScopePath} {f : FunctionDecl}
    (h : .heading scope f ∈ d.steps k) : d = .function f := by
  cases d with
  | var d | tuple d => cases List.mem_singleton.1 h
  | function d =>
    rcases List.mem_cons.1 h with h | h
    · cases h
      rfl
    · rcases List.mem_append.1 h with h | h
      · exact absurd (Block.bodySteps_local _ h) id
      · cases List.mem_singleton.1 h

theorem Decl.headings_mem {scope : ScopePath} {f : FunctionDecl} : ∀ {ds : List Decl} {k : Nat},
    .heading scope f ∈ Decl.stepsOfAll k ds → .function f ∈ ds
  | [], _, h => by cases h
  | _ :: _, _, h => by
    rcases List.mem_append.1 h with h | h
    · exact List.mem_cons.2 (.inl (Decl.heading_mem h).symm)
    · exact List.mem_cons_of_mem _ (headings_mem h)

/-- Functions are those declared at the top level. -/
theorem Program.heading_mem {p : Program} {scope : ScopePath} {f : FunctionDecl}
    (h : .heading scope f ∈ p.steps) : .function f ∈ p.decls := Decl.headings_mem h

/-! ## Their identifiers -/

def Step.idents : Step → List Ident
  | .use _ l => l.idents
  | .enter _ | .exit _ => []
  | .var _ d => d.idents
  | .heading _ d => d.name :: d.formals.flatMap VarDecl.idents
  | .tuple _ d => d.name :: d.fields.flatMap VarDecl.idents

mutual

theorem Expr.places_idents : ∀ e : Expr, e.places.flatMap Loc.idents = e.idents
  | .logical _ _ | .int _ _ | .string _ _ => rfl
  | .loc l => by rw [Expr.places, Expr.idents, List.flatMap_singleton]
  | .assign l v => by rw [Expr.places, Expr.idents, List.flatMap_cons, places_idents v]
  | .call f args => by
    rw [Expr.places, Expr.idents, List.flatMap_cons, placesOfAll_idents args]
    rfl
  | .unary _ v => places_idents v
  | .binary _ v w => by rw [Expr.places, Expr.idents, List.flatMap_append, places_idents v, places_idents w]

theorem Expr.placesOfAll_idents : ∀ es : List Expr,
    (Expr.placesOfAll es).flatMap Loc.idents = Expr.identsOfAll es
  | [] => rfl
  | e :: es => by
    rw [Expr.placesOfAll, Expr.identsOfAll, List.flatMap_append, places_idents e, placesOfAll_idents es]

end

theorem Expr.steps_idents (scope : ScopePath) (e : Expr) :
    (e.steps scope).flatMap Step.idents = e.idents := by
  rw [Expr.steps, List.flatMap_map, ← e.places_idents]
  rfl

theorem var_steps_idents (scope : ScopePath) (ds : List VarDecl) :
    (ds.map (Step.var scope)).flatMap Step.idents = ds.flatMap VarDecl.idents := by
  rw [List.flatMap_map]
  rfl

mutual

theorem Stmt.steps_idents (scope : ScopePath) (k : Nat) : ∀ s : Stmt,
    (s.steps scope k).flatMap Step.idents = s.idents
  | .assign l v => by
    rw [Stmt.steps, List.flatMap_cons, v.steps_idents]
    rfl
  | .increment l | .decrement l | .read l => by rw [Stmt.steps, List.flatMap_singleton]; rfl
  | .ifThen c b | .whileDo c b => by
    rw [Stmt.steps, List.flatMap_append, c.steps_idents, Block.steps_idents _ b, Stmt.idents]
  | .ifElse c b b' => by
    rw [Stmt.steps, List.flatMap_append, List.flatMap_append, c.steps_idents, Block.steps_idents _ b,
      Block.steps_idents _ b', Stmt.idents]
  | .write v => v.steps_idents scope
  | .call f args => (Expr.call f args).steps_idents scope
  | .ret none _ => rfl
  | .ret (some v) _ => v.steps_idents scope

theorem Block.steps_idents (scope : ScopePath) : ∀ b : Block,
    (b.steps scope).flatMap Step.idents = b.idents
  | .mk ds ss => by
    rw [Block.steps, List.flatMap_cons, List.flatMap_append, List.flatMap_append, var_steps_idents,
      Stmt.stepsOfAll_idents scope 0 ss, List.flatMap_singleton, Block.idents]
    simp [Step.idents]

theorem Stmt.stepsOfAll_idents (scope : ScopePath) (k : Nat) : ∀ ss : List Stmt,
    (Stmt.stepsOfAll scope k ss).flatMap Step.idents = Stmt.identsOfAll ss
  | [] => rfl
  | s :: ss => by
    rw [Stmt.stepsOfAll, List.flatMap_append, Stmt.steps_idents scope k s,
      Stmt.stepsOfAll_idents scope (k + 1) ss, Stmt.identsOfAll]

end

theorem Block.bodySteps_idents (scope : ScopePath) (b : Block) :
    (b.bodySteps scope).flatMap Step.idents = b.idents := by
  obtain ⟨ds, ss⟩ := b
  rw [Block.bodySteps, List.flatMap_append, var_steps_idents, Stmt.stepsOfAll_idents, Block.idents]

/-- No function has a result of a tuple type. -/
def Decl.ReturnsSimple : Decl → Prop
  | .function d => d.result.idents = []
  | .var _ | .tuple _ => True

theorem Decl.steps_idents (k : Nat) {d : Decl} (h : d.ReturnsSimple) :
    (d.steps k).flatMap Step.idents = d.idents := by
  cases d with
  | var d => rw [Decl.steps, List.flatMap_singleton]; rfl
  | function d =>
    rw [Decl.steps, List.flatMap_cons, List.flatMap_append, List.flatMap_singleton, Block.bodySteps_idents,
      Decl.idents, h]
    simp [Step.idents]
  | tuple d => rw [Decl.steps, List.flatMap_singleton]; rfl

theorem Decl.stepsOfAll_idents (k : Nat) : ∀ {ds : List Decl}, (∀ d ∈ ds, d.ReturnsSimple) →
    (Decl.stepsOfAll k ds).flatMap Step.idents = ds.flatMap Decl.idents
  | [], _ => rfl
  | d :: ds, h => by
    obtain ⟨hd, hds⟩ := List.forall_mem_cons.1 h
    rw [Decl.stepsOfAll, List.flatMap_append, d.steps_idents k hd, stepsOfAll_idents (k + 1) hds,
      List.flatMap_cons]

/-- The steps of a program hold its identifiers in their order. -/
theorem Program.steps_idents {p : Program} (h : ∀ d ∈ p.decls, d.ReturnsSimple) :
    p.steps.flatMap Step.idents = p.idents := Decl.stepsOfAll_idents 0 h

/-- The parser reads no function with a result of a tuple type. -/
theorem Grammar.parse_results {tokens : List Token} {p : Program} (hp : parse tokens = .ok p) :
    ∀ d ∈ p.decls, d.ReturnsSimple := by
  obtain ⟨used, rest, m, -, hderives⟩ := parse_derives hp
  refine Repeated.forall (Q := fun _ => True) hderives (fun _ _ => trivial) fun _ _ _ _ hd _ => ?_
  cases hd with
  | function ht => cases ht <;> rfl
  | var _ | tuple _ _ _ _ _ _ => trivial

/-- Neither the result nor a formal of the function has a tuple type. -/
def FunctionDecl.Simple (d : FunctionDecl) : Prop :=
  d.result.idents = [] ∧ ∀ f ∈ d.formals, f.type.idents = []

/-- The parser reads no function with a formal of a tuple type either. -/
theorem Grammar.parse_simple {tokens : List Token} {p : Program} (hp : parse tokens = .ok p) :
    ∀ d, .function d ∈ p.decls → d.Simple := by
  obtain ⟨used, rest, m, -, hderives⟩ := parse_derives hp
  have hall : ∀ d ∈ p.decls, ∀ f, d = .function f → f.Simple := by
    refine Repeated.forall (Q := fun _ => True) hderives (fun _ _ => trivial) fun _ _ _ _ hd _ => ?_
    cases hd with
    | function ht _ _ hf =>
      have hformal : ∀ n ts d m, Formal n ts d m → d.type.idents = [] := by
        rintro n ts d m ⟨ht, -⟩
        cases ht <;> rfl
      have hformals := hf.forall (Q := fun _ => True) (fun _ _ => trivial) fun n ts d m h _ => hformal n ts d m h
      rintro f ⟨⟩
      exact ⟨by cases ht <;> rfl, hformals⟩
    | var _ | tuple _ _ _ _ _ _ => exact nofun
  exact fun d hd => hall _ hd d rfl

/-! ## Their accesses -/

def Step.accesses : Step → List NodeId
  | .use _ l => l.accesses
  | .enter _ | .exit _ | .var _ _ | .heading _ _ | .tuple _ _ => []

mutual

theorem Expr.places_accesses : ∀ e : Expr, e.places.flatMap Loc.accesses = e.accesses
  | .logical _ _ | .int _ _ | .string _ _ => rfl
  | .loc l => by rw [Expr.places, Expr.accesses, List.flatMap_singleton]
  | .assign l v => by rw [Expr.places, Expr.accesses, List.flatMap_cons, places_accesses v]
  | .call _ args => placesOfAll_accesses args
  | .unary _ v => places_accesses v
  | .binary _ v w => by
    rw [Expr.places, Expr.accesses, List.flatMap_append, places_accesses v, places_accesses w]

theorem Expr.placesOfAll_accesses : ∀ es : List Expr,
    (Expr.placesOfAll es).flatMap Loc.accesses = Expr.accessesOfAll es
  | [] => rfl
  | e :: es => by
    rw [Expr.placesOfAll, Expr.accessesOfAll, List.flatMap_append, places_accesses e,
      placesOfAll_accesses es]

end

theorem Expr.steps_accesses (scope : ScopePath) (e : Expr) :
    (e.steps scope).flatMap Step.accesses = e.accesses := by
  rw [Expr.steps, List.flatMap_map, ← e.places_accesses]
  rfl

theorem var_steps_accesses (scope : ScopePath) (ds : List VarDecl) :
    (ds.map (Step.var scope)).flatMap Step.accesses = [] := by
  rw [List.flatMap_map]
  exact List.flatMap_eq_nil_iff.2 fun _ _ => rfl

mutual

theorem Stmt.steps_accesses (scope : ScopePath) (k : Nat) : ∀ s : Stmt,
    (s.steps scope k).flatMap Step.accesses = s.exprs.flatMap Expr.accesses
  | .assign l v => by
    rw [Stmt.steps, List.flatMap_cons, v.steps_accesses, Stmt.exprs, List.flatMap_singleton]
    rfl
  | .increment l | .decrement l | .read l => by
    rw [Stmt.steps, List.flatMap_singleton, Stmt.exprs, List.flatMap_singleton]
    rfl
  | .ifThen c b | .whileDo c b => by
    rw [Stmt.steps, List.flatMap_append, c.steps_accesses, Block.steps_accesses _ b, Stmt.exprs,
      List.flatMap_cons]
  | .ifElse c b b' => by
    rw [Stmt.steps, List.flatMap_append, List.flatMap_append, c.steps_accesses, Block.steps_accesses _ b,
      Block.steps_accesses _ b', Stmt.exprs, List.flatMap_cons, List.flatMap_append]
  | .write v => by rw [Stmt.steps, v.steps_accesses, Stmt.exprs, List.flatMap_singleton]
  | .call f args => by rw [Stmt.steps, Expr.steps_accesses, Stmt.exprs, List.flatMap_singleton]
  | .ret none _ => rfl
  | .ret (some v) _ => by
    rw [Stmt.steps, v.steps_accesses]
    exact (List.append_nil _).symm

theorem Block.steps_accesses (scope : ScopePath) : ∀ b : Block,
    (b.steps scope).flatMap Step.accesses = b.exprs.flatMap Expr.accesses
  | .mk ds ss => by
    rw [Block.steps, List.flatMap_cons, List.flatMap_append, List.flatMap_append, var_steps_accesses,
      Stmt.stepsOfAll_accesses scope 0 ss, List.flatMap_singleton, Block.exprs]
    exact List.append_nil _

theorem Stmt.stepsOfAll_accesses (scope : ScopePath) (k : Nat) : ∀ ss : List Stmt,
    (Stmt.stepsOfAll scope k ss).flatMap Step.accesses = (Stmt.exprsOfAll ss).flatMap Expr.accesses
  | [] => rfl
  | s :: ss => by
    rw [Stmt.stepsOfAll, List.flatMap_append, Stmt.steps_accesses scope k s,
      Stmt.stepsOfAll_accesses scope (k + 1) ss, Stmt.exprsOfAll, List.flatMap_append]

end

theorem Decl.steps_accesses (k : Nat) (d : Decl) :
    (d.steps k).flatMap Step.accesses = d.exprs.flatMap Expr.accesses := by
  cases d with
  | var d | tuple d => rw [Decl.steps, List.flatMap_singleton]; rfl
  | function d =>
    obtain ⟨result, name, formals, ds, ss⟩ := d
    rw [Decl.steps, List.flatMap_cons, List.flatMap_append, List.flatMap_singleton, Block.bodySteps,
      List.flatMap_append, var_steps_accesses, Stmt.stepsOfAll_accesses]
    exact List.append_nil _

theorem Decl.stepsOfAll_accesses (k : Nat) : ∀ ds : List Decl,
    (Decl.stepsOfAll k ds).flatMap Step.accesses = (ds.flatMap Decl.exprs).flatMap Expr.accesses
  | [] => rfl
  | d :: ds => by
    rw [Decl.stepsOfAll, List.flatMap_append, d.steps_accesses k, stepsOfAll_accesses (k + 1) ds,
      List.flatMap_cons, List.flatMap_append]

/-- The steps of a program hold its accesses in their order. -/
theorem Program.steps_accesses (p : Program) : p.steps.flatMap Step.accesses = p.accesses :=
  Decl.stepsOfAll_accesses 0 p.decls

/-! ## Their numbers -/

theorem Loc.idents_sublist : ∀ l : Loc, (l.idents.map Ident.id).Sublist l.nodes
  | .ident _ => .refl _
  | .access id l f => by
    rw [idents, List.map_append]
    exact l.idents_sublist.append (List.sublist_cons_self id [f.id])

theorem Loc.accesses_subset : ∀ {l : Loc} {i : NodeId}, i ∈ l.accesses → i ∈ l.nodes
  | .ident _, _, h => by cases h
  | .access _ l _, i, h => by
    rcases List.mem_append.1 h with h | h
    · exact List.mem_append_left _ (l.accesses_subset h)
    · cases List.mem_singleton.1 h
      exact List.mem_append_right _ List.mem_cons_self

theorem VarDecl.idents_nodes (d : VarDecl) : d.idents.map Ident.id = d.nodes := List.map_append

theorem varDecls_idents_nodes (ds : List VarDecl) :
    (ds.flatMap VarDecl.idents).map Ident.id = ds.flatMap VarDecl.nodes := by
  rw [List.map_flatMap]
  exact congrArg (ds.flatMap ·) (funext VarDecl.idents_nodes)

theorem Step.idents_sublist (s : Step) : (s.idents.map Ident.id).Sublist s.nodes := by
  cases s with
  | use _ l => exact l.idents_sublist
  | enter _ | exit _ => exact .slnil
  | var _ d =>
    rw [idents, d.idents_nodes]
    exact .refl _
  | heading _ d =>
    rw [idents, List.map_cons, varDecls_idents_nodes]
    exact List.sublist_append_right _ _
  | tuple _ d =>
    rw [idents, List.map_cons, varDecls_idents_nodes]
    exact .refl _

/-- The numbers of the identifiers of steps are among their nodes, in the same order. -/
theorem steps_idents_sublist : ∀ steps : List Step,
    ((steps.flatMap Step.idents).map Ident.id).Sublist (steps.flatMap Step.nodes)
  | [] => .slnil
  | s :: steps => by
    rw [List.flatMap_cons, List.map_append, List.flatMap_cons]
    exact s.idents_sublist.append (steps_idents_sublist steps)

end BaseLang
