import BaseLang.Binding
import BaseLang.Proofs.Tree.Relabelling

/-
  Name resolution as a walk over a list of steps.

  The resolver is a recursion over the tree, but what it does with its state has no
  tree in it: it uses locations, declares names and opens and closes scopes, one after
  the other. `Program.steps` lists these steps, each with the scope it stands in, and

    1. `Binder.decls_eq_walk` — resolving the declarations of a program is performing
       its steps in order;
    2. `Program.steps_nodes` — the steps hold the nodes of the program in their order.

  So a property of a whole resolution is proved for each of the six kinds of step, and
  by induction on the list for every run.
-/

namespace BaseLang

/-- Where a scope lies: what opens it, what opens the scope around it, and so on. A
number counts the declarations of the program or the statements of a block; the truth
value tells the second branch of a statement from the first. The scope of the program
is `[]`. -/
abbrev ScopePath := List (Nat × Bool)

/-- One thing that the resolver does, and the scope in which it does it. -/
inductive Step where
  /-- Links a location. -/
  | use (scope : ScopePath) (place : Loc)
  /-- Opens this scope. -/
  | enter (scope : ScopePath)
  /-- Closes this scope. -/
  | exit (scope : ScopePath)
  /-- Declares a variable. -/
  | var (scope : ScopePath) (d : VarDecl)
  /-- Declares the name of a function, opens this scope and declares the formals. -/
  | heading (scope : ScopePath) (d : FunctionDecl)
  /-- Declares the fields of a tuple type in this scope, then the name of the type. -/
  | tuple (scope : ScopePath) (d : TupleDecl)

/-! ## The steps of a tree -/

mutual

/-- The locations of an expression, callees included, in source order. -/
def Expr.places : Expr → List Loc
  | .logical _ _ | .int _ _ | .string _ _ => []
  | .loc l => [l]
  | .assign l v => l :: v.places
  | .call f args => .ident f :: Expr.placesOfAll args
  | .unary _ v => v.places
  | .binary _ v w => v.places ++ w.places

def Expr.placesOfAll : List Expr → List Loc
  | [] => []
  | e :: es => e.places ++ Expr.placesOfAll es

end

section Steps
variable (scope : ScopePath)

def Expr.steps (e : Expr) : List Step := e.places.map (.use scope)

mutual

def Stmt.steps (scope : ScopePath) (k : Nat) : Stmt → List Step
  | .assign l v => .use scope l :: v.steps scope
  | .increment l | .decrement l | .read l => [.use scope l]
  | .ifThen c b | .whileDo c b => c.steps scope ++ b.steps ((k, false) :: scope)
  | .ifElse c b b' =>
    c.steps scope ++ (b.steps ((k, false) :: scope) ++ b'.steps ((k, true) :: scope))
  | .write v => v.steps scope
  | .call f args => (Expr.call f args).steps scope
  | .ret none _ => []
  | .ret (some v) _ => v.steps scope

/-- The steps of a block with a scope of its own. -/
def Block.steps (scope : ScopePath) : Block → List Step
  | .mk ds ss => .enter scope :: (ds.map (.var scope) ++ (Stmt.stepsOfAll scope 0 ss ++ [.exit scope]))

/-- The steps of statements that are numbered from `k` on. -/
def Stmt.stepsOfAll (scope : ScopePath) (k : Nat) : List Stmt → List Step
  | [] => []
  | s :: ss => s.steps scope k ++ Stmt.stepsOfAll scope (k + 1) ss

end

/-- The steps of the body of a function, in the scope of its formals. -/
def Block.bodySteps : Block → List Step
  | .mk ds ss => ds.map (.var scope) ++ Stmt.stepsOfAll scope 0 ss

end Steps

def Decl.steps (k : Nat) : Decl → List Step
  | .var d => [.var [] d]
  | .function d => .heading [(k, false)] d :: (d.body.bodySteps [(k, false)] ++ [.exit [(k, false)]])
  | .tuple d => [.tuple [(k, false)] d]

/-- The steps of declarations that are numbered from `k` on. -/
def Decl.stepsOfAll (k : Nat) : List Decl → List Step
  | [] => []
  | d :: ds => d.steps k ++ Decl.stepsOfAll (k + 1) ds

theorem Decl.stepsOfAll_append : ∀ (ds ds' : List Decl) (k : Nat),
    Decl.stepsOfAll k (ds ++ ds') = Decl.stepsOfAll k ds ++ Decl.stepsOfAll (k + ds.length) ds'
  | [], _, _ => rfl
  | d :: ds, ds', k => by
    rw [List.cons_append, Decl.stepsOfAll, stepsOfAll_append ds ds', Decl.stepsOfAll, List.append_assoc,
      List.length_cons, Nat.add_assoc, Nat.add_comm 1]

def Program.steps (p : Program) : List Step := Decl.stepsOfAll 0 p.decls

/-! ## Performing steps -/

namespace Binder

def enterScope : Binder Unit := modify fun b => { b with scopes := b.scopes.enter }

def exitScope : Binder Unit := do
  let b ← get
  let scopes ← b.scopes.exit
  set { b with scopes }

/-- Declares the name of a function. The result is its symbol if it was accepted. -/
def functionName (d : FunctionDecl) : Binder (Option SymbolId) := do
  if ← isTaken d.name.name then
    report d.name.position .multiplyDeclared
    return none
  else
    let id ← alloc ⟨d.name.name, .function d.result.ty []⟩
    declare d.name.name id
    link d.name id
    return some id

/-- Declares a function and its formals, and leaves its scope open. -/
def heading (d : FunctionDecl) : Binder Unit := do
  let symbol ← functionName d
  enterScope
  let params ← formals d.formals
  match symbol with
  | some id => setParams id params
  | none => pure ()

def perform : Step → Binder Unit
  | .use _ place => loc place
  | .enter _ => enterScope
  | .exit _ => exitScope
  | .var _ d => do
    let _ ← varDecl d
  | .heading _ d => heading d
  | .tuple _ d => tupleDecl d

def walk : List Step → Binder Unit
  | [] => pure ()
  | s :: steps => do
    perform s
    walk steps

theorem walk_append (xs ys : List Step) : walk (xs ++ ys) = walk xs >>= fun _ => walk ys := by
  induction xs with
  | nil => rw [List.nil_append, walk, pure_bind]
  | cons x xs ih => rw [List.cons_append, walk, walk, ih, bind_assoc]

theorem walk_one (s : Step) : walk [s] = perform s := by
  rw [walk, walk]
  exact bind_pure (perform s)

theorem inScope_eq (inside : Binder Unit) :
    inScope inside = enterScope >>= fun _ => inside >>= fun _ => exitScope := rfl

/-! ## The resolver performs the steps of the tree -/

mutual

theorem expr_eq_walk (scope : ScopePath) : ∀ e : Expr, expr e = walk (e.steps scope)
  | .logical _ _ | .int _ _ | .string _ _ => rfl
  | .loc l => (walk_one (.use scope l)).symm
  | .assign l v => by
    show (loc l >>= fun _ => expr v) = walk (.use scope l :: v.steps scope)
    rw [expr_eq_walk scope v, walk, perform]
  | .call f args => by
    show (ident f >>= fun _ => exprs args) = walk (.use scope (.ident f) :: _)
    rw [exprs_eq_walk scope args, walk, perform, loc]
  | .unary _ v => expr_eq_walk scope v
  | .binary _ v w => by
    show (expr v >>= fun _ => expr w) = walk ((v.places ++ w.places).map (.use scope))
    rw [List.map_append, walk_append, expr_eq_walk scope v, expr_eq_walk scope w]
    rfl

theorem exprs_eq_walk (scope : ScopePath) : ∀ es : List Expr,
    exprs es = walk ((Expr.placesOfAll es).map (.use scope))
  | [] => rfl
  | e :: es => by
    show (expr e >>= fun _ => exprs es) = walk ((e.places ++ Expr.placesOfAll es).map (.use scope))
    rw [List.map_append, walk_append, expr_eq_walk scope e, exprs_eq_walk scope es]
    rfl

end

theorem varDecls_eq_walk (scope : ScopePath) : ∀ ds : List VarDecl,
    varDecls ds = walk (ds.map (.var scope))
  | [] => rfl
  | d :: ds => by
    show (varDecl d >>= fun _ => varDecls ds) = walk (.var scope d :: ds.map (.var scope))
    rw [varDecls_eq_walk scope ds, walk, perform, bind_assoc]
    simp only [pure_bind]

mutual

theorem stmt_eq_walk (scope : ScopePath) (k : Nat) : ∀ s : Stmt, stmt s = walk (s.steps scope k)
  | .assign l v => by
    show (loc l >>= fun _ => expr v) = walk (.use scope l :: v.steps scope)
    rw [expr_eq_walk scope v, walk, perform]
  | .increment l | .decrement l | .read l => (walk_one (.use scope l)).symm
  | .ifThen c b | .whileDo c b => by
    rw [Stmt.steps, walk_append, ← expr_eq_walk scope c, ← block_eq_walk _ b]
    rfl
  | .ifElse c b b' => by
    rw [Stmt.steps, walk_append, walk_append, ← expr_eq_walk scope c, ← block_eq_walk _ b,
      ← block_eq_walk _ b']
    rfl
  | .write v => expr_eq_walk scope v
  | .call f args => expr_eq_walk scope (.call f args)
  | .ret none _ => rfl
  | .ret (some v) _ => expr_eq_walk scope v

theorem block_eq_walk (scope : ScopePath) : ∀ b : Block, inScope (block b) = walk (b.steps scope)
  | .mk ds ss => by
    rw [inScope_eq, block, Block.steps, walk, walk_append, walk_append, walk_one,
      ← varDecls_eq_walk, ← stmts_eq_walk scope 0 ss, bind_assoc]
    rfl

theorem stmts_eq_walk (scope : ScopePath) (k : Nat) : ∀ ss : List Stmt,
    stmts ss = walk (Stmt.stepsOfAll scope k ss)
  | [] => rfl
  | s :: ss => by
    rw [stmts, Stmt.stepsOfAll, walk_append, ← stmt_eq_walk scope k s, ← stmts_eq_walk scope (k + 1) ss]

end

/-- Declaring a function is its heading, its body and the end of its scope. -/
theorem functionDecl_eq (d : FunctionDecl) :
    functionDecl d = heading d >>= fun _ => block d.body >>= fun _ => exitScope := by
  rw [functionDecl, heading, functionName]
  simp only [inScope_eq, bind_assoc]
  congr 1
  funext taken
  cases taken <;> simp

theorem body_eq_walk (scope : ScopePath) (b : Block) : block b = walk (b.bodySteps scope) := by
  obtain ⟨ds, ss⟩ := b
  rw [block, Block.bodySteps, walk_append, ← varDecls_eq_walk, ← stmts_eq_walk]

theorem decl_eq_walk (k : Nat) (d : Decl) : decl d = walk (d.steps k) := by
  cases d with
  | var d => exact (walk_one (.var [] d)).symm
  | function d =>
    rw [decl, functionDecl_eq, Decl.steps, walk, walk_append, walk_one, ← body_eq_walk]
    rfl
  | tuple d => exact (walk_one (.tuple [(k, false)] d)).symm

/-- Resolving declarations is performing their steps. -/
theorem decls_eq_walk (k : Nat) : ∀ ds : List Decl, decls ds = walk (Decl.stepsOfAll k ds)
  | [] => rfl
  | d :: ds => by
    rw [decls, Decl.stepsOfAll, walk_append, ← decl_eq_walk k d, ← decls_eq_walk (k + 1) ds]

end Binder

/-! ## The nodes of the steps -/

def Step.nodes : Step → List NodeId
  | .use _ l => l.nodes
  | .enter _ | .exit _ => []
  | .var _ d => d.nodes
  | .heading _ d => d.result.nodes ++ (d.name.id :: d.formals.flatMap VarDecl.nodes)
  | .tuple _ d => d.name.id :: d.fields.flatMap VarDecl.nodes

mutual

theorem Expr.places_nodes : ∀ e : Expr, e.places.flatMap Loc.nodes = e.nodes
  | .logical _ _ | .int _ _ | .string _ _ => rfl
  | .loc l => by rw [Expr.places, Expr.nodes, List.flatMap_singleton]
  | .assign l v => by rw [Expr.places, Expr.nodes, List.flatMap_cons, places_nodes v]
  | .call f args => by
    rw [Expr.places, Expr.nodes, List.flatMap_cons, placesOfAll_nodes args]
    rfl
  | .unary _ v => places_nodes v
  | .binary _ v w => by rw [Expr.places, Expr.nodes, List.flatMap_append, places_nodes v, places_nodes w]

theorem Expr.placesOfAll_nodes : ∀ es : List Expr,
    (Expr.placesOfAll es).flatMap Loc.nodes = Expr.nodesOfAll es
  | [] => rfl
  | e :: es => by
    rw [Expr.placesOfAll, Expr.nodesOfAll, List.flatMap_append, places_nodes e, placesOfAll_nodes es]

end

theorem Expr.steps_nodes (scope : ScopePath) (e : Expr) :
    (e.steps scope).flatMap Step.nodes = e.nodes := by
  rw [Expr.steps, List.flatMap_map, ← e.places_nodes]
  rfl

theorem var_steps_nodes (scope : ScopePath) (ds : List VarDecl) :
    (ds.map (Step.var scope)).flatMap Step.nodes = ds.flatMap VarDecl.nodes := by
  rw [List.flatMap_map]
  rfl

mutual

theorem Stmt.steps_nodes (scope : ScopePath) (k : Nat) : ∀ s : Stmt,
    (s.steps scope k).flatMap Step.nodes = s.nodes
  | .assign l v => by
    rw [Stmt.steps, List.flatMap_cons, v.steps_nodes]
    rfl
  | .increment l | .decrement l | .read l => by rw [Stmt.steps, List.flatMap_singleton]; rfl
  | .ifThen c b | .whileDo c b => by
    rw [Stmt.steps, List.flatMap_append, c.steps_nodes, Block.steps_nodes _ b, Stmt.nodes]
  | .ifElse c b b' => by
    rw [Stmt.steps, List.flatMap_append, List.flatMap_append, c.steps_nodes, Block.steps_nodes _ b,
      Block.steps_nodes _ b', Stmt.nodes]
  | .write v => v.steps_nodes scope
  | .call f args => (Expr.call f args).steps_nodes scope
  | .ret none _ => rfl
  | .ret (some v) _ => v.steps_nodes scope

theorem Block.steps_nodes (scope : ScopePath) : ∀ b : Block,
    (b.steps scope).flatMap Step.nodes = b.nodes
  | .mk ds ss => by
    rw [Block.steps, List.flatMap_cons, List.flatMap_append, List.flatMap_append, var_steps_nodes,
      Stmt.stepsOfAll_nodes scope 0 ss, List.flatMap_singleton, Block.nodes]
    simp [Step.nodes]

theorem Stmt.stepsOfAll_nodes (scope : ScopePath) (k : Nat) : ∀ ss : List Stmt,
    (Stmt.stepsOfAll scope k ss).flatMap Step.nodes = Stmt.nodesOfAll ss
  | [] => rfl
  | s :: ss => by
    rw [Stmt.stepsOfAll, List.flatMap_append, Stmt.steps_nodes scope k s,
      Stmt.stepsOfAll_nodes scope (k + 1) ss, Stmt.nodesOfAll]

end

theorem Block.bodySteps_nodes (scope : ScopePath) (b : Block) :
    (b.bodySteps scope).flatMap Step.nodes = b.nodes := by
  obtain ⟨ds, ss⟩ := b
  rw [Block.bodySteps, List.flatMap_append, var_steps_nodes, Stmt.stepsOfAll_nodes, Block.nodes]

theorem Decl.steps_nodes (k : Nat) (d : Decl) : (d.steps k).flatMap Step.nodes = d.nodes := by
  cases d with
  | var d => rw [Decl.steps, List.flatMap_singleton]; rfl
  | function d =>
    rw [Decl.steps, List.flatMap_cons, List.flatMap_append, List.flatMap_singleton, Block.bodySteps_nodes]
    simp [Step.nodes, Decl.nodes]
  | tuple d => rw [Decl.steps, List.flatMap_singleton]; rfl

theorem Decl.stepsOfAll_nodes (k : Nat) : ∀ ds : List Decl,
    (Decl.stepsOfAll k ds).flatMap Step.nodes = ds.flatMap Decl.nodes
  | [] => rfl
  | d :: ds => by
    rw [Decl.stepsOfAll, List.flatMap_append, d.steps_nodes, stepsOfAll_nodes (k + 1) ds,
      List.flatMap_cons]

/-- The steps of a program hold its nodes in their order. -/
theorem Program.steps_nodes (p : Program) : p.steps.flatMap Step.nodes = p.nodes :=
  Decl.stepsOfAll_nodes 0 p.decls

end BaseLang
