import BaseLang.Proofs.Isolation.Bodies
import BaseLang.Proofs.Isolation.Typing
import BaseLang.Proofs.Resolving.Declaring

/-
  The body of a function has no influence on the analysis of anything else.

    1. `Surroundings` — a program around the body of one of its functions;
       `Surroundings.resolved_fill` — the program with a body is resolved by resolving what
       comes before it, the body, and what comes after;
    2. `Surroundings.embeds` — the result holds that for the program without the body;
    3. `Surroundings.splits`, `Surroundings.links_fill` — so the body adds its own diagnostics
       to those of the surroundings, in which the identifiers stand for what they stand for
       without it;
    4. `analysis_isolated` — hence two bodies make no difference but for their diagnostics.
-/

namespace BaseLang

/-- A program around the body of one of its functions. -/
structure Surroundings where
  before : List Decl
  result : TypeName
  name : Ident
  formals : List VarDecl
  after : List Decl

namespace Surroundings
variable (c : Surroundings)

def function (body : Block) : FunctionDecl := ⟨c.result, c.name, c.formals, body⟩

def fill (body : Block) : Program := ⟨c.before ++ .function (c.function body) :: c.after⟩

/-- The program with nothing in the body. -/
def emptied : Program := c.fill (.mk [] [])

def nodes : List NodeId := c.emptied.nodes

/-- Resolves all that comes before the body, down to the formals of its function. What the
body is does not matter for that. -/
def opening : Binder Unit := do
  Binder.decls c.before
  Binder.heading (c.function (.mk [] []))

/-- How the diagnostics of the program with this body are put together. Those of names are
what has been reported when the resolver comes to the body, in the state `opened`, what
resolving the body from there adds, and the rest. Those of types are the faults before the
body, those of its statements, and those after it. -/
structure Splits (body : Block) (opened : Binding) (rest typesBefore typesAfter : Diagnostics)
    (r : Resolution) : Prop where
  names : ∃ filled added, (Binder.block body).run opened = .ok ((), filled) ∧
    filled.diagnostics = opened.diagnostics ++ added ∧
    resolveNames (c.fill body) = .ok (r, opened.diagnostics ++ added ++ rest)
  types : Typing.checkProgram r (c.fill body) =
    typesBefore ++ Typing.checkBlock r c.result.ty body ++ typesAfter

/-- The identifier stands in both programs for the symbol of a name which is declared in both
outside the bodies, or in both for none, and it has the same type in both. -/
def Alike (body body' : Block) (r r' : Resolution) (x : Ident) : Prop :=
  (∃ d? : Option Declaration,
    (∀ d ∈ d?, d.name.id ∈ c.nodes ∧ .declares d ∈ (c.fill body).mentions ∧
      .declares d ∈ (c.fill body').mentions) ∧ r.Links x d? ∧ r'.Links x d?) ∧
    (r.symbolOf x).map Symbol.ty = (r'.symbolOf x).map Symbol.ty

/-! ## The walk around a body -/

def scope : ScopePath := [(c.before.length, false)]

def earlier : List Step := Decl.stepsOfAll 0 c.before ++ [.heading c.scope (c.function (.mk [] []))]

/-- The steps after the body, but for the one that closes its scope. -/
def later : List Step := Decl.stepsOfAll (c.before.length + 1) c.after

/-- The state in which the body is resolved. -/
def opened : Binding := c.earlier.foldl Binding.after .start

/-- The state in which the body has been resolved. -/
def filled (body : Block) : Binding := (body.bodySteps c.scope).foldl Binding.after c.opened

theorem walks_earlier : Walks [] c.earlier c.scope := (Decl.walksAll 0 c.before).append (.one .heading)

theorem opened_sound : c.opened.Sound := Binding.sound_start.walk c.earlier

theorem length_nested_opened : c.opened.scopes.nested.length = c.scope.length :=
  Binding.nested_walk c.walks_earlier rfl

theorem nested_opened_ne : c.opened.scopes.nested ≠ [] :=
  List.ne_nil_of_length_pos (by rw [length_nested_opened]; exact Nat.one_pos)

theorem run_opening : c.opening.run .start = .ok ((), c.opened) := by
  have hwalk : c.opening = Binder.walk c.earlier := by
    rw [opening, earlier, Binder.walk_append, ← Binder.decls_eq_walk, Binder.walk_one]
    rfl
  rw [hwalk]
  exact c.walks_earlier.run Binding.sound_start rfl

theorem run_block (body : Block) : (Binder.block body).run c.opened = .ok ((), c.filled body) := by
  rw [Binder.body_eq_walk c.scope]
  exact (body.walks_body c.scope).run c.opened_sound c.length_nested_opened

theorem steps_fill (body : Block) :
    (c.fill body).steps = Decl.stepsOfAll 0 c.before ++
      (.heading c.scope (c.function body) :: (body.bodySteps c.scope ++ (.exit c.scope :: c.later))) := by
  rw [Program.steps, fill, Decl.stepsOfAll_append, Nat.zero_add, Decl.stepsOfAll, Decl.steps, List.cons_append,
    List.append_assoc]
  rfl

/-- The walk goes up to the body, through it, and on when its scope is closed. -/
theorem resolved_fill (body : Block) :
    (c.fill body).resolved = c.later.foldl Binding.after (c.filled body).outside := by
  have hopened : c.opened = ((Decl.stepsOfAll 0 c.before).foldl Binding.after .start).after
      (.heading c.scope (c.function body)) := by
    rw [opened, earlier, List.foldl_append]
    rfl
  rw [Program.resolved, steps_fill, List.foldl_append, List.foldl_cons, List.foldl_append, List.foldl_cons,
    ← hopened]
  rfl

theorem resolved_emptied : c.emptied.resolved = c.later.foldl Binding.after c.opened.outside :=
  c.resolved_fill (.mk [] [])

theorem mem_mentions_fill (body : Block) {m : Mention} (hm : m ∈ c.emptied.mentions) :
    m ∈ (c.fill body).mentions := by
  rw [Program.mentions, emptied, steps_fill, List.flatMap_append, List.flatMap_cons] at hm
  rw [Program.mentions, steps_fill, List.flatMap_append, List.flatMap_cons, List.flatMap_append]
  rcases List.mem_append.1 hm with hm | hm
  · exact List.mem_append_left _ hm
  · rcases List.mem_append.1 hm with hm | hm
    · exact List.mem_append_right _ (List.mem_append_left _ hm)
    · exact List.mem_append_right _ (List.mem_append_right _ (List.mem_append_right _ hm))

/-! ## With a body and without it -/

section Body
variable {c} {body : Block} (hnodup : (c.fill body).nodes.Nodup)
include hnodup

/-- The nodes of the surroundings and those of the body are all different. -/
theorem nodes_nodup : (c.nodes ++ body.nodes).Nodup := by
  -- the body stands before the rest of the declarations, here it comes after them
  have hperm : (c.nodes ++ body.nodes).Perm (c.fill body).nodes := by
    have hfill : ∀ body : Block, (c.fill body).nodes =
        (c.before.flatMap Decl.nodes ++ (c.result.nodes ++ c.name.id :: c.formals.flatMap VarDecl.nodes)) ++
          (body.nodes ++ c.after.flatMap Decl.nodes) := by
      intro body
      simp [fill, Program.nodes, Decl.nodes, function]
    have hempty : (Block.mk [] []).nodes = [] := rfl
    rw [nodes, emptied, hfill, hfill, hempty, List.nil_append, List.append_assoc]
    exact List.Perm.append_left _ List.perm_append_comm
  exact hperm.nodup_iff.2 hnodup

theorem nodes_disjoint : ∀ i ∈ c.nodes, i ∉ body.nodes :=
  fun i hi hin => (List.nodup_append.1 (nodes_nodup hnodup)).2.2 i hi i hin rfl

/-- What is found out with the body holds what is found out without it, and after the body
the same is reported. -/
theorem embeds : ∃ f, c.emptied.resolved.resolution.Embeds f body.nodes (c.fill body).resolved.resolution ∧
    (c.filled body).outside.found c.later = c.opened.outside.found c.later := by
  have hconfined := body.confined_body c.scope c.opened
  have hevolves := Binding.evolves_walk (body.bodySteps c.scope) c.opened
  rw [body.bodySteps_nodes] at hevolves
  have hstart := hconfined.embeds hevolves c.opened_sound c.nested_opened_ne
  have hlater : ∀ i ∈ c.later.flatMap Step.nodes, i ∉ body.nodes := by
    intro i hi
    refine nodes_disjoint hnodup i ?_
    rw [later, Decl.stepsOfAll_nodes] at hi
    simp only [nodes, emptied, fill, Program.nodes, List.flatMap_append, List.flatMap_cons, List.mem_append]
    exact .inr (.inr hi)
  obtain ⟨hstate, hfound⟩ := hstart.walk c.later hlater
  rw [resolved_emptied, resolved_fill]
  exact ⟨_, hstate.resolution, hfound⟩

theorem diagnostics_fill : (c.fill body).resolved.diagnostics =
    c.opened.diagnostics ++ c.opened.found (body.bodySteps c.scope) ++ c.opened.outside.found c.later := by
  obtain ⟨_, -, hfound⟩ := embeds hnodup
  have hfilled : (c.filled body).outside.diagnostics =
      c.opened.diagnostics ++ c.opened.found (body.bodySteps c.scope) :=
    Binding.diagnostics_walk (body.bodySteps c.scope) c.opened
  rw [resolved_fill, Binding.diagnostics_walk, hfound, hfilled]

theorem checkProgram_fill : Typing.checkProgram (c.fill body).resolved.resolution (c.fill body) =
    c.before.flatMap (Typing.checkDecl c.emptied.resolved.resolution) ++
      Typing.checkBlock (c.fill body).resolved.resolution c.result.ty body ++
      c.after.flatMap (Typing.checkDecl c.emptied.resolved.resolution) := by
  obtain ⟨_, hembeds, -⟩ := embeds hnodup
  have hnodes : c.nodes = c.before.flatMap Decl.nodes ++
      ((Decl.function (c.function (.mk [] []))).nodes ++ c.after.flatMap Decl.nodes) := List.flatMap_append
  have houter := nodes_disjoint hnodup
  rw [hnodes] at houter
  obtain ⟨hbefore, hrest⟩ := List.forall_mem_append.1 houter
  obtain ⟨-, hafter⟩ := List.forall_mem_append.1 hrest
  rw [← hembeds.checkDecls hbefore, ← hembeds.checkDecls hafter, Typing.checkProgram, List.append_assoc]
  exact List.flatMap_append

/-- The body adds its own diagnostics to those of the surroundings. -/
theorem splits : c.Splits body c.opened (c.opened.outside.found c.later)
    (c.before.flatMap (Typing.checkDecl c.emptied.resolved.resolution))
    (c.after.flatMap (Typing.checkDecl c.emptied.resolved.resolution)) (c.fill body).resolved.resolution := by
  refine ⟨⟨c.filled body, c.opened.found (body.bodySteps c.scope), c.run_block body, ?_, ?_⟩,
    checkProgram_fill hnodup⟩
  · exact Binding.diagnostics_walk (body.bodySteps c.scope) c.opened
  · rw [resolveNames_eq, diagnostics_fill hnodup]

/-- The program without the body has no nodes twice either. -/
theorem emptied_nodup : c.emptied.nodes.Nodup := (List.nodup_append.1 (nodes_nodup hnodup)).1

/-- An identifier of the surroundings stands with the body for what it stands for without. -/
theorem links_fill {x : Ident} (hx : x.id ∈ c.nodes) {d? : Option Declaration}
    (hd : ∀ d ∈ d?, .declares d ∈ c.emptied.mentions) (hlinks : c.emptied.resolved.resolution.Links x d?) :
    (c.fill body).resolved.resolution.Links x d? := by
  obtain ⟨f, hembeds, -⟩ := embeds hnodup
  have houter := nodes_disjoint hnodup
  cases d? with
  | none => exact (hembeds.linkOf (houter _ hx)).trans (congrArg (Option.map f) hlinks)
  | some d =>
    obtain ⟨id, hname, hid⟩ := hlinks
    have hdeclared := Program.declares_mem_nodes (emptied_nodup hnodup) (hd d rfl)
    refine ⟨f id, ?_, ?_⟩
    · rw [hembeds.linkOf (houter _ hdeclared), hname, Option.map_some]
    · rw [hembeds.linkOf (houter _ hx), hid, Option.map_some]

theorem ty_fill {x : Ident} (hx : x.id ∈ c.nodes) :
    ((c.fill body).resolved.resolution.symbolOf x).map Symbol.ty =
      (c.emptied.resolved.resolution.symbolOf x).map Symbol.ty := by
  obtain ⟨f, hembeds, -⟩ := embeds hnodup
  rw [hembeds.symbolOf (nodes_disjoint hnodup _ hx), Option.map_map]
  exact congrArg (Option.map · _) (funext Symbol.ty_renumber)

end Body

end Surroundings

/-- The body of a function has no influence on the analysis of anything else. Of two programs
with different bodies in the same surroundings, both are resolved, what is reported before
and after each of the bodies is the same, for the names and for the types, and every
identifier outside the bodies stands in both programs for the same declared name, with the
same type. -/
theorem analysis_isolated (c : Surroundings) {body body' : Block} (hnodup : (c.fill body).nodes.Nodup)
    (hnodup' : (c.fill body').nodes.Nodup) :
    ∃ opened rest typesBefore typesAfter r r', c.opening.run .start = .ok ((), opened) ∧
      c.Splits body opened rest typesBefore typesAfter r ∧
      c.Splits body' opened rest typesBefore typesAfter r' ∧
      ∀ x : Ident, x.id ∈ c.nodes → c.Alike body body' r r' x := by
  refine ⟨_, _, _, _, _, _, c.run_opening, Surroundings.splits hnodup, Surroundings.splits hnodup', ?_⟩
  intro x hx
  have hempty := Surroundings.emptied_nodup hnodup
  refine ⟨?_, (Surroundings.ty_fill hnodup hx).trans (Surroundings.ty_fill hnodup' hx).symm⟩
  obtain ⟨d?, hd, hlinks⟩ := Program.links hempty x
  refine ⟨d?, fun d hin => ⟨Program.declares_mem_nodes hempty (hd d hin), ?_, ?_⟩,
    Surroundings.links_fill hnodup hx hd hlinks, Surroundings.links_fill hnodup' hx hd hlinks⟩
  · exact c.mem_mentions_fill body (hd d hin)
  · exact c.mem_mentions_fill body' (hd d hin)

/-- A tuple type before a function, and after it a variable of that type, with a field to
which another function assigns. -/
def pairSurroundings : Surroundings where
  before := [.tuple ⟨⟨0, "pair", .nowhere⟩, [⟨.integer, ⟨1, "n", .nowhere⟩⟩]⟩]
  result := .integer
  name := ⟨2, "f", .nowhere⟩
  formals := []
  after :=
    [.var ⟨.tuple ⟨3, "pair", .nowhere⟩, ⟨4, "y", .nowhere⟩⟩,
      .function ⟨.void, ⟨5, "g", .nowhere⟩, [],
        .mk [] [.assign (.access 7 (.ident ⟨6, "y", .nowhere⟩) ⟨8, "n", .nowhere⟩)
          (.call ⟨9, "f", .nowhere⟩ [])]⟩]

/-- A body that declares two names and returns one of the wrong type. -/
def localBody : Block :=
  .mk [⟨.integer, ⟨10, "a", .nowhere⟩⟩, ⟨.logical, ⟨11, "b", .nowhere⟩⟩]
    [.ret (some (.loc (.ident ⟨12, "b", .nowhere⟩))) .nowhere]

/-- A body that uses a name before it is declared. -/
def strayBody : Block := .mk [] [.ret (some (.loc (.ident ⟨10, "y", .nowhere⟩))) .nowhere]

/-- With these bodies the variable has different numbers, and stands for the same. -/
theorem analysis_isolated_pair :
    (pairSurroundings.fill localBody).nodes.Nodup ∧ (pairSurroundings.fill strayBody).nodes.Nodup ∧
      ∃ r ds r' ds', resolveNames (pairSurroundings.fill localBody) = .ok (r, ds) ∧
        resolveNames (pairSurroundings.fill strayBody) = .ok (r', ds') ∧
        r.linkOf ⟨6, "y", .nowhere⟩ = some 5 ∧ r'.linkOf ⟨6, "y", .nowhere⟩ = some 3 ∧
        pairSurroundings.Alike localBody strayBody r r' ⟨6, "y", .nowhere⟩ := by
  have hnodup : (pairSurroundings.fill localBody).nodes.Nodup := by decide
  have hnodup' : (pairSurroundings.fill strayBody).nodes.Nodup := by decide
  obtain ⟨opened, _, _, _, r, r', -, hsplits, hsplits', halike⟩ :=
    analysis_isolated pairSurroundings hnodup hnodup'
  obtain ⟨_, added, -, -, hr⟩ := hsplits.names
  obtain ⟨_, added', -, -, hr'⟩ := hsplits'.names
  have hlink : (resolveNames (pairSurroundings.fill localBody)).toOption.map
      (fun a => a.1.linkOf ⟨6, "y", .nowhere⟩) = some (some 5) := by decide +kernel
  have hlink' : (resolveNames (pairSurroundings.fill strayBody)).toOption.map
      (fun a => a.1.linkOf ⟨6, "y", .nowhere⟩) = some (some 3) := by decide +kernel
  rw [hr] at hlink
  rw [hr'] at hlink'
  exact ⟨hnodup, hnodup', r, _, r', _, hr, hr', Option.some.inj hlink, Option.some.inj hlink',
    halike _ (by decide)⟩

end BaseLang
