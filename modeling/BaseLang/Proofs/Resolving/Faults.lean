import BaseLang.Proofs.Typing.Reported

/-
  What each step of the resolver reports.

    1. `Binding.faults` — the faults that a step reports in a state, and `Binding.found`,
       those of steps one after the other;
    2. `Binding.diagnostics_walk` — they are what is added to the diagnostics;
    3. `Settles` — each location among the steps is new when it is used, and has no fault
       exactly if its type in the end is no error;
    4. `Program.settles` — so it is in a program whose nodes have different numbers.
-/

namespace BaseLang

namespace Binding
variable (b : Binding)

def nameFaults (x : Ident) : Diagnostics :=
  if (b.scopes.lookupLocal x.name).isSome then [⟨x.position, .multiplyDeclared⟩] else []

def varsFaults (b : Binding) : List VarDecl → Diagnostics
  | [] => []
  | d :: ds => b.declFaults b.scopes d ++ varsFaults (b.afterVar d) ds

def fieldsFaults (b : Binding) (t : ScopeTable) : List VarDecl → Diagnostics
  | [] => []
  | d :: ds => b.declFaults t d ++ fieldsFaults (b.afterDecl t b.scopes d) (b.tableAfter t d) ds

def atFields (d : TupleDecl) : Binding :=
  if (b.scopes.lookupLocal d.name.name).isSome then b.withMultiple d.name else b

def faults : Step → Diagnostics
  | .use _ l => b.locFaults l
  | .enter _ | .exit _ => []
  | .var _ d => b.declFaults b.scopes d
  | .heading _ d => b.nameFaults d.name ++ (b.afterFunctionName d).inside.varsFaults d.formals
  | .tuple _ d => b.nameFaults d.name ++ (b.atFields d).fieldsFaults .empty d.fields

/-- The faults that steps report one after the other. -/
def found (b : Binding) : List Step → Diagnostics
  | [] => []
  | s :: steps => b.faults s ++ found (b.after s) steps

/-! ## They are what is added to the diagnostics -/

theorem diagnostics_vars : ∀ (ds : List VarDecl) (b : Binding),
    (ds.foldl afterVar b).diagnostics = b.diagnostics ++ b.varsFaults ds
  | [], _ => (List.append_nil _).symm
  | d :: ds, b => (diagnostics_vars ds (b.afterVar d)).trans (List.append_assoc _ _ _)

theorem diagnostics_fields : ∀ (ds : List VarDecl) (b : Binding) (t : ScopeTable),
    (b.afterFields t ds).diagnostics = b.diagnostics ++ b.fieldsFaults t ds
  | [], _, _ => (List.append_nil _).symm
  | d :: ds, b, t =>
    (diagnostics_fields ds (b.afterDecl t b.scopes d) (b.tableAfter t d)).trans (List.append_assoc _ _ _)

theorem diagnostics_heading (d : FunctionDecl) :
    (b.afterHeading d).diagnostics = b.diagnostics ++ b.faults (.heading [] d) := by
  have hname : (b.afterFunctionName d).inside.diagnostics = b.diagnostics ++ b.nameFaults d.name := by
    show (b.afterFunctionName d).diagnostics = _
    rw [afterFunctionName, nameFaults]
    split
    · rfl
    · exact (List.append_nil _).symm
  have hformals := diagnostics_vars d.formals (b.afterFunctionName d).inside
  rw [hname, List.append_assoc] at hformals
  rw [afterHeading]
  split <;> exact hformals

theorem diagnostics_tuple (d : TupleDecl) :
    (b.afterTuple d).diagnostics = b.diagnostics ++ b.faults (.tuple [] d) := by
  rw [afterTuple, faults, nameFaults, atFields]
  split
  · exact (diagnostics_fields d.fields _ _).trans (List.append_assoc _ _ _)
  · exact diagnostics_fields d.fields _ _

theorem diagnostics_after (s : Step) : (b.after s).diagnostics = b.diagnostics ++ b.faults s := by
  cases s with
  | use _ l => rfl
  | enter _ | exit _ => exact (List.append_nil _).symm
  | var _ d => rfl
  | heading _ d => exact b.diagnostics_heading d
  | tuple _ d => exact b.diagnostics_tuple d

theorem diagnostics_walk : ∀ (steps : List Step) (b : Binding),
    (steps.foldl after b).diagnostics = b.diagnostics ++ b.found steps
  | [], _ => (List.append_nil _).symm
  | s :: steps, b => by
    rw [List.foldl_cons, diagnostics_walk steps, diagnostics_after, found, List.append_assoc]

theorem found_append : ∀ (xs ys : List Step) (b : Binding),
    b.found (xs ++ ys) = b.found xs ++ (xs.foldl after b).found ys
  | [], _, _ => rfl
  | x :: xs, ys, b => by
    rw [List.cons_append, found, found_append xs ys, found, List.foldl_cons, List.append_assoc]

end Binding

/-- What the resolver reports of a program. -/
theorem Program.resolved_diagnostics (p : Program) :
    p.resolved.diagnostics = Binding.start.found p.steps := Binding.diagnostics_walk p.steps .start

/-! ## Locations and their types in the end -/

/-- A step in the walk to a resolution: a location that is used has not been linked
before, and it has no fault exactly if its type in the end is no error. -/
def Step.Settled (r : Resolution) (b : Binding) : Step → Prop
  | .use _ l => b.resolution.Fresh l.nodes ∧ (b.locFaults l = [] ↔ Typing.locType r l ≠ .error)
  | _ => True

def Settles (r : Resolution) (b : Binding) : List Step → Prop
  | [] => True
  | s :: steps => s.Settled r b ∧ Settles r (b.after s) steps

namespace Settles
variable {r : Resolution}

theorem of_append : ∀ {xs ys : List Step} {b : Binding}, Settles r b (xs ++ ys) →
    Settles r b xs ∧ Settles r (xs.foldl Binding.after b) ys
  | [], _, _, h => ⟨trivial, h⟩
  | _ :: _, _, _, h =>
    have hrest := of_append h.2
    ⟨⟨h.1, hrest.1⟩, hrest.2⟩

/-- Nothing is reported of locations none of which has the type `error` in the end. -/
theorem found_eq_nil (scope : ScopePath) : ∀ {ls : List Loc} {b : Binding},
    Settles r b (ls.map (.use scope)) → (∀ l ∈ ls, Typing.locType r l ≠ .error) →
    b.found (ls.map (.use scope)) = []
  | [], _, _, _ => rfl
  | l :: ls, b, h, hls => by
    have hl : b.locFaults l = [] := h.1.2.2 (hls l List.mem_cons_self)
    have hrest := found_eq_nil scope h.2 fun l' hl' => hls l' (List.mem_cons_of_mem _ hl')
    rw [List.map_cons, Binding.found, hrest, List.append_nil]
    exact hl

/-- Nothing is found in an expression whose type is no error. -/
theorem quiet (hr : r.Sound) {scope : ScopePath} {b : Binding} {e : Expr}
    (h : Settles r b (e.steps scope)) (hne : Typing.exprType r e ≠ .error) :
    b.found (e.steps scope) = [] ∧ Typing.exprFaults r e = [] := by
  have hsilent := (not_congr (Typing.exprType_eq_error_iff hr e)).1 hne
  rw [not_or, ne_eq, Classical.not_not] at hsilent
  refine ⟨found_eq_nil scope h fun l hl herror => ?_, hsilent.2⟩
  exact hsilent.1 ⟨l, hl, herror⟩

end Settles

/-- The steps of a program settle its locations. -/
theorem Program.settles {p : Program} (hnodup : p.nodes.Nodup) :
    Settles p.resolved.resolution .start p.steps := by
  rw [← p.steps_nodes] at hnodup
  have hwalk : ∀ (post pre : List Step), p.steps = pre ++ post →
      Settles p.resolved.resolution (pre.foldl Binding.after .start) post := by
    intro post
    induction post with
    | nil => exact fun _ _ => trivial
    | cons s post ih =>
      intro pre hsteps
      have hnext := ih (pre ++ [s]) (by rw [hsteps, List.append_assoc]; rfl)
      rw [List.foldl_append] at hnext
      refine ⟨?_, hnext⟩
      cases s with
      | use scope l =>
        -- the nodes of the location are not those of the steps before and after it
        rw [hsteps, List.flatMap_append, List.flatMap_cons] at hnodup
        obtain ⟨-, hrest, hbefore⟩ := List.nodup_append.1 hnodup
        obtain ⟨-, -, hafter⟩ := List.nodup_append.1 hrest
        have hfresh : (pre.foldl Binding.after .start).resolution.Fresh l.nodes :=
          Binding.fresh_walk fun i hi hpre => hbefore i hpre i (List.mem_append_left _ hi) rfl
        have hend : p.resolved = post.foldl Binding.after
            ((pre.foldl Binding.after .start).afterUse l) := by
          rw [Program.resolved, hsteps, List.foldl_append, List.foldl_cons]
          rfl
        have hevolves := Binding.evolves_walk post ((pre.foldl Binding.after .start).afterUse l)
        refine ⟨hfresh, ?_⟩
        rw [ne_eq, Typing.locType_eq_error_iff (resolved_sound p).resolution, Classical.not_not, hend,
          hevolves.finds_iff fun i hil hi => hafter i hil i hi rfl, Binding.finds_afterUse_iff hfresh]
      | enter _ | exit _ | var _ _ | heading _ _ | tuple _ _ => trivial
  exact hwalk p.steps [] rfl

end BaseLang
