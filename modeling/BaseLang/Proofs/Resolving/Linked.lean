import BaseLang.Proofs.Resolving.Faults
import BaseLang.Proofs.Resolving.Occurrences

/-
  Nothing is reported exactly if everything is linked.

  A fault need not stand at the name that is left without a link: a colon after a name that
  is no tuple is reported at that name, and the field after it is not linked; a type that is
  wrong is reported at the name of the type, and the variable is not linked either.

    1. `Binding.Tallies` — between two states some faults have been found, none exactly if
       some identifiers are linked, and then some accesses are found; `Tallies.append` puts
       two such stretches together;
    2. `Tallies.use`, `Tallies.decl` — so it is for the use of a location and for the
       declaration of a value, in whatever table;
    3. `Tallies.after`, `Tallies.walk` — so it is for every step and for steps one after the
       other;
    4. `clean_iff_linked` — the theorem, for every program that was parsed.
-/

namespace BaseLang

namespace Binding

/-- Between the two states only these nodes have been touched. The faults are none exactly
if the identifiers are linked, and if they are none the accesses have been found. -/
structure Tallies (ns : List NodeId) (xs : List Ident) (is : List NodeId) (faults : Diagnostics)
    (b b' : Binding) : Prop where
  evolves : Evolves ns b b'
  idents : ∀ x ∈ xs, x.id ∈ ns
  accesses : ∀ i ∈ is, i ∈ ns
  linked : faults = [] ↔ ∀ x ∈ xs, ∃ id, b'.resolution.linkOf x = some id
  found : faults = [] → ∀ i ∈ is, ∃ t, b'.resolution.access i = some (.resolved t)

namespace Tallies
variable {ns ns' : List NodeId} {xs xs' : List Ident} {is is' : List NodeId}
  {faults faults' : Diagnostics} {b b' b'' : Binding}

theorem nil (he : Evolves ns b b') : Tallies ns [] [] [] b b' :=
  ⟨he, nofun, nofun, iff_of_true rfl nofun, fun _ => nofun⟩

theorem append (h : Tallies ns xs is faults b b') (h' : Tallies ns' xs' is' faults' b' b'')
    (hnodup : (ns ++ ns').Nodup) :
    Tallies (ns ++ ns') (xs ++ xs') (is ++ is') (faults ++ faults') b b'' := by
  have hout : ∀ i ∈ ns, i ∉ ns' := fun i hi hi' => (List.nodup_append.1 hnodup).2.2 i hi i hi' rfl
  -- what has been linked or recorded first is not touched again
  have hlinks : ∀ x ∈ xs, b''.resolution.linkOf x = b'.resolution.linkOf x :=
    fun x hx => h'.evolves.links x.id (hout x.id (h.idents x hx))
  have haccesses : ∀ i ∈ is, b''.resolution.access i = b'.resolution.access i :=
    fun i hi => h'.evolves.accesses i (hout i (h.accesses i hi))
  refine ⟨h.evolves.trans h'.evolves, ?_, ?_, ?_, ?_⟩
  · intro x hx
    rcases List.mem_append.1 hx with hx | hx
    · exact List.mem_append_left _ (h.idents x hx)
    · exact List.mem_append_right _ (h'.idents x hx)
  · intro i hi
    rcases List.mem_append.1 hi with hi | hi
    · exact List.mem_append_left _ (h.accesses i hi)
    · exact List.mem_append_right _ (h'.accesses i hi)
  · rw [List.append_eq_nil_iff, h.linked, h'.linked, List.forall_mem_append]
    exact and_congr_left' (forall₂_congr fun x hx => by rw [hlinks x hx])
  · intro hquiet
    obtain ⟨hfirst, hsecond⟩ := List.append_eq_nil_iff.1 hquiet
    rw [List.forall_mem_append]
    refine ⟨fun i hi => ?_, h'.found hsecond⟩
    rw [haccesses i hi]
    exact h.found hfirst i hi

/-- The order of the nodes and of the identifiers does not matter. -/
theorem congr (h : Tallies ns xs is faults b b') (hns : ∀ i ∈ ns, i ∈ ns') (hxs : ∀ x, x ∈ xs' ↔ x ∈ xs)
    (hfaults : faults' = [] ↔ faults = []) : Tallies ns' xs' is faults' b b' where
  evolves := h.evolves.mono hns
  idents x hx := hns x.id (h.idents x ((hxs x).1 hx))
  accesses i hi := hns i (h.accesses i hi)
  linked := hfaults.trans (h.linked.trans (forall_congr' fun x => imp_congr_left (hxs x).symm))
  found hquiet := h.found (hfaults.1 hquiet)

/-- What touches no nodes can follow. -/
theorem then_free (h : Tallies ns xs is faults b b') (he : Evolves [] b' b'') :
    Tallies ns xs is faults b b'' := by
  have hlinks : ∀ x, b''.resolution.linkOf x = b'.resolution.linkOf x :=
    fun x => he.links x.id List.not_mem_nil
  refine ⟨h.evolves.then_free he, h.idents, h.accesses, ?_, fun hquiet i hi => ?_⟩
  · rw [h.linked]
    exact forall₂_congr fun x _ => by rw [hlinks x]
  · obtain ⟨t, ht⟩ := h.found hquiet i hi
    exact ⟨t, (he.accesses i List.not_mem_nil).trans ht⟩

end Tallies

/-! ## Uses -/

variable {b : Binding}

/-- What is linked stays linked, perhaps to something else. -/
theorem linked_link {r : Resolution} {x y : Ident} {id : SymbolId} (h : ∃ j, r.linkOf x = some j) :
    ∃ j, (r.link y id).linkOf x = some j := by
  rw [Resolution.linkOf_link]
  split
  · exact ⟨id, rfl⟩
  · exact h

/-- All of a location that leads to a symbol is linked, and its accesses are found. -/
theorem linked_of_symbolAt? : ∀ {l : Loc} {s : SymbolId}, b.resolution.Fresh l.nodes →
    b.symbolAt? l = some s →
    (∀ x ∈ l.idents, ∃ id, (b.linkLoc l).linkOf x = some id) ∧
      ∀ i ∈ l.accesses, ∃ t, (b.linkLoc l).access i = some (.resolved t)
  | .ident x, s, hfresh, hat => by
    have hx : b.resolution.linkOf x = none := hfresh _ List.mem_cons_self
    rw [symbolAt?, hx, Option.or_none] at hat
    refine ⟨fun y hy => ?_, fun _ hi => by cases hi⟩
    rw [List.mem_singleton.1 hy, linkLoc, hat]
    exact ⟨s, Resolution.linkOf_link_self _ _ _⟩
  | .access id l f, s, hfresh, hat => by
    obtain ⟨t, ht, -⟩ := Option.bind_eq_some_iff.1 hat
    obtain ⟨hidents, haccesses⟩ := linked_of_symbolAt? hfresh.left ht
    rw [linkLoc, hat]
    constructor
    · intro x hx
      rcases List.mem_append.1 hx with hx | hx
      · exact linked_link (hidents x hx)
      · rw [List.mem_singleton.1 hx]
        exact ⟨s, Resolution.linkOf_link_self _ _ _⟩
    · intro i hi
      rw [Resolution.access_setAccess]
      split
      · exact ⟨_, rfl⟩
      · next hne =>
        rcases List.mem_append.1 hi with hi | hi
        · exact haccesses i hi
        · exact absurd (List.mem_singleton.1 hi) hne

/-- A location whose last name is linked leads to a symbol. -/
theorem symbolAt?_of_linked {l : Loc} (hfresh : b.resolution.Fresh l.nodes) (hnodup : l.nodes.Nodup)
    (h : ∀ x ∈ l.idents, ∃ id, (b.linkLoc l).linkOf x = some id) : ∃ s, b.symbolAt? l = some s := by
  cases l with
  | ident x =>
    have hx : b.resolution.linkOf x = none := hfresh _ List.mem_cons_self
    obtain ⟨id, hlink⟩ := h x List.mem_cons_self
    rw [symbolAt?, hx, Option.or_none]
    cases hlook : b.scopes.lookupChain x.name with
    | none =>
      rw [linkLoc, hlook, hx] at hlink
      cases hlink
    | some s => exact ⟨s, rfl⟩
  | access i l f =>
    obtain ⟨id, hlink⟩ := h f (List.mem_append_right _ List.mem_cons_self)
    cases hat : b.symbolAt? (.access i l f) with
    | none => cases (linkOf_field_eq_none hat hfresh hnodup).symm.trans hlink
    | some s => exact ⟨s, rfl⟩

namespace Tallies

theorem use {l : Loc} (hfresh : b.resolution.Fresh l.nodes) (hnodup : l.nodes.Nodup) :
    Tallies l.nodes l.idents l.accesses (b.locFaults l) b (b.afterUse l) := by
  refine ⟨b.evolves_use l, ?_, fun _ => l.accesses_subset, ?_, ?_⟩
  · exact fun x hx => l.idents_sublist.subset (List.mem_map_of_mem hx)
  · rw [locFaults_eq_nil_iff hfresh]
    exact ⟨fun ⟨_, hat⟩ => (linked_of_symbolAt? hfresh hat).1, symbolAt?_of_linked hfresh hnodup⟩
  · intro hquiet
    obtain ⟨_, hat⟩ := (locFaults_eq_nil_iff hfresh).1 hquiet
    exact (linked_of_symbolAt? hfresh hat).2

end Tallies

/-! ## Declarations -/

/-- A declaration is accepted exactly if nothing is wrong with it. -/
theorem declFaults_eq_nil_iff {t : ScopeTable} {d : VarDecl} :
    b.declFaults t d = [] ↔ ∃ kind, b.accepts? t d = some kind := by
  have htype : b.typeFaults d = [] ↔ ∃ kind, b.typeKind? d.type = some kind := by
    obtain ⟨type, name⟩ := d
    cases type with
    | void => exact iff_of_false nofun nofun
    | logical | integer => exact iff_of_true rfl ⟨_, rfl⟩
    | tuple x =>
      rw [typeFaults, typeKind?]
      dsimp only
      cases b.definition? x.name <;> simp
  rw [declFaults, accepts?, List.append_eq_nil_iff, htype]
  cases (t.lookupLocal d.name.name).isSome <;> simp

/-- The name of the type of an accepted declaration is linked. -/
theorem linked_linkType {type : TypeName} {kind : SymbolKind} (h : b.typeKind? type = some kind) :
    ∀ x ∈ type.idents, ∃ id, (b.linkType type).linkOf x = some id := by
  cases type with
  | void | logical | integer => exact nofun
  | tuple t =>
    obtain ⟨id, hd, -⟩ := Option.map_eq_some_iff.1 h
    intro x hx
    rw [List.mem_singleton.1 hx, linkType, hd]
    exact ⟨id, Resolution.linkOf_link_self _ _ _⟩

namespace Tallies

/-- A value, in whatever table it is declared. -/
theorem decl {t scopes : ScopeTable} {d : VarDecl} (hfresh : b.resolution.Fresh d.nodes)
    (hnodup : d.nodes.Nodup) :
    Tallies d.nodes d.idents [] (b.declFaults t d) b (b.afterDecl t scopes d) := by
  refine ⟨b.evolves_decl t scopes d, ?_, nofun, ?_, fun _ => nofun⟩
  · intro x hx
    rw [← d.idents_nodes]
    exact List.mem_map_of_mem hx
  · rw [declFaults_eq_nil_iff]
    show _ ↔ ∀ x ∈ d.idents, ∃ id, (b.linkDecl t d).linkOf x = some id
    constructor
    · rintro ⟨kind, haccepts⟩ x hx
      rcases List.mem_append.1 hx with hx | hx
      · rw [linkDecl, haccepts]
        exact linked_link (linked_linkType (accepts?_eq_some haccepts) x hx)
      · rw [List.mem_singleton.1 hx]
        exact ⟨_, linkOf_linkDecl haccepts⟩
    · intro hall
      obtain ⟨id, hname⟩ := hall d.name (List.mem_append_right _ List.mem_cons_self)
      cases haccepts : b.accepts? t d with
      | none => cases (linkOf_linkDecl_eq_none haccepts hfresh hnodup).symm.trans hname
      | some kind => exact ⟨kind, rfl⟩

theorem vars : ∀ (ds : List VarDecl) {b : Binding}, b.resolution.Fresh (ds.flatMap VarDecl.nodes) →
    (ds.flatMap VarDecl.nodes).Nodup →
    Tallies (ds.flatMap VarDecl.nodes) (ds.flatMap VarDecl.idents) [] (b.varsFaults ds) b
      (ds.foldl afterVar b)
  | [], b, _, _ => .nil (.refl b)
  | d :: ds, b, hfresh, hnodup => by
    rw [List.flatMap_cons] at hfresh hnodup
    obtain ⟨hd, hds, -⟩ := List.nodup_append.1 hnodup
    have hfirst : Tallies d.nodes d.idents [] (b.declFaults b.scopes d) b (b.afterVar d) :=
      decl hfresh.left hd
    exact hfirst.append (vars ds (hfirst.evolves.fresh_right hfresh hnodup) hds) hnodup

theorem fields : ∀ (ds : List VarDecl) {b : Binding} {t : ScopeTable},
    b.resolution.Fresh (ds.flatMap VarDecl.nodes) → (ds.flatMap VarDecl.nodes).Nodup →
    Tallies (ds.flatMap VarDecl.nodes) (ds.flatMap VarDecl.idents) [] (b.fieldsFaults t ds) b
      (b.afterFields t ds)
  | [], b, _, _, _ => .nil (.refl b)
  | d :: ds, b, t, hfresh, hnodup => by
    rw [List.flatMap_cons] at hfresh hnodup
    obtain ⟨hd, hds, -⟩ := List.nodup_append.1 hnodup
    have hfirst : Tallies d.nodes d.idents [] (b.declFaults t d) b (b.afterDecl t b.scopes d) :=
      decl hfresh.left hd
    exact hfirst.append (fields ds (hfirst.evolves.fresh_right hfresh hnodup) hds) hnodup

/-- The name of a function or a tuple type that is free. -/
theorem withSymbol (b : Binding) (x : Ident) (kind : SymbolKind) :
    Tallies [x.id] [x] [] [] b (b.withSymbol x kind) := by
  refine ⟨b.evolves_withSymbol x kind, ?_, nofun, iff_of_true rfl fun y hy => ?_, fun _ => nofun⟩
  · exact fun y hy => List.mem_map_of_mem hy
  · rw [List.mem_singleton.1 hy]
    exact ⟨_, Resolution.linkOf_link_self _ _ _⟩

/-- One that is taken. -/
theorem withMultiple {x : Ident} (hfresh : b.resolution.Fresh [x.id]) :
    Tallies [x.id] [x] [] [⟨x.position, .multiplyDeclared⟩] b (b.withMultiple x) := by
  refine ⟨(b.evolves_withMultiple x).free, ?_, nofun, iff_of_false nofun fun hall => ?_, nofun⟩
  · exact fun y hy => List.mem_map_of_mem hy
  · obtain ⟨id, hlink⟩ := hall x List.mem_cons_self
    cases (hfresh x.id List.mem_cons_self).symm.trans hlink

theorem functionName {d : FunctionDecl} (hfresh : b.resolution.Fresh [d.name.id]) :
    Tallies [d.name.id] [d.name] [] (b.nameFaults d.name) b (b.afterFunctionName d) := by
  rw [nameFaults, afterFunctionName]
  split
  · exact withMultiple hfresh
  · exact withSymbol b d.name _

/-! ## Steps -/

theorem heading {d : FunctionDecl}
    (hfresh : b.resolution.Fresh (d.name.id :: d.formals.flatMap VarDecl.nodes))
    (hnodup : (d.name.id :: d.formals.flatMap VarDecl.nodes).Nodup) :
    Tallies (d.name.id :: d.formals.flatMap VarDecl.nodes)
      (d.name :: d.formals.flatMap VarDecl.idents) []
      (b.nameFaults d.name ++ (b.afterFunctionName d).inside.varsFaults d.formals) b (b.afterHeading d) := by
  rw [← List.singleton_append] at hfresh hnodup
  have hname := (functionName hfresh.left).then_free (evolves_inside _)
  have hformals := vars d.formals (hname.evolves.fresh_right hfresh hnodup) (List.nodup_append.1 hnodup).2.1
  have hboth := hname.append hformals hnodup
  rw [afterHeading]
  split
  · exact hboth
  · exact hboth.then_free (evolves_withParams _ _ _)

theorem tuple {d : TupleDecl} (hfresh : b.resolution.Fresh (d.name.id :: d.fields.flatMap VarDecl.nodes))
    (hnodup : (d.name.id :: d.fields.flatMap VarDecl.nodes).Nodup) :
    Tallies (d.name.id :: d.fields.flatMap VarDecl.nodes)
      (d.name :: d.fields.flatMap VarDecl.idents) []
      (b.nameFaults d.name ++ (b.atFields d).fieldsFaults .empty d.fields) b (b.afterTuple d) := by
  rw [← List.singleton_append] at hfresh hnodup
  have hfields := (List.nodup_append.1 hnodup).2.1
  rw [afterTuple, nameFaults, atFields]
  split
  · have hname := withMultiple (x := d.name) hfresh.left
    exact hname.append (fields d.fields (hname.evolves.fresh_right hfresh hnodup) hfields) hnodup
  · -- the fields come first in the walk, the name comes first in the tree
    have hperm := List.perm_append_singleton d.name.id (d.fields.flatMap VarDecl.nodes)
    have hname := withSymbol (b.afterFields .empty d.fields) d.name
      (.tupleDef (b.fieldsAfter .empty d.fields))
    have hboth := (fields d.fields hfresh.right hfields).append hname (hperm.nodup_iff.2 hnodup)
    refine hboth.congr (fun _ => hperm.mem_iff.1) (fun x => ?_) (by rw [List.append_nil, List.nil_append])
    exact (List.perm_append_singleton d.name (d.fields.flatMap VarDecl.idents)).mem_iff.symm

/-- For every step the faults that it reports are none exactly if its identifiers are linked. -/
theorem after {s : Step} (hfresh : b.resolution.Fresh s.nodes) (hnodup : s.nodes.Nodup) :
    Tallies s.nodes s.idents s.accesses (b.faults s) b (b.after s) := by
  cases s with
  | use _ l => exact use hfresh hnodup
  | enter _ => exact .nil b.evolves_inside
  | exit _ => exact .nil b.evolves_outside
  | var _ d => exact decl hfresh hnodup
  | heading _ d =>
    have hheading := heading hfresh.right (List.nodup_append.1 hnodup).2.1
    exact hheading.congr (fun _ => List.mem_append_right _) (fun _ => Iff.rfl) Iff.rfl
  | tuple _ d => exact tuple hfresh hnodup

/-- So it is for steps one after the other. -/
theorem walk : ∀ (steps : List Step) {b : Binding}, b.resolution.Fresh (steps.flatMap Step.nodes) →
    (steps.flatMap Step.nodes).Nodup →
    Tallies (steps.flatMap Step.nodes) (steps.flatMap Step.idents) (steps.flatMap Step.accesses)
      (b.found steps) b (steps.foldl Binding.after b)
  | [], b, _, _ => .nil (.refl b)
  | s :: steps, b, hfresh, hnodup => by
    rw [List.flatMap_cons] at hfresh hnodup
    obtain ⟨hnodes, hrest, -⟩ := List.nodup_append.1 hnodup
    have hfirst := after hfresh.left hnodes
    exact hfirst.append (walk steps (hfirst.evolves.fresh_right hfresh hnodup) hrest) hnodup

end Tallies

end Binding

/-! ## Programs -/

/-- Nothing is reported of the names of a parsed program exactly if all its identifiers are
linked, and then all its accesses are found. -/
theorem clean_iff_linked {tokens : List Token} {p : Program} (hp : parse tokens = .ok p) :
    ∃ r ds, resolveNames p = .ok (r, ds) ∧
      (ds = [] ↔ ∀ x ∈ p.idents, ∃ id, r.linkOf x = some id) ∧
      (ds = [] → ∀ i ∈ p.accesses, ∃ t, r.access i = some (.resolved t)) := by
  have hnodup := Grammar.parse_nodup hp
  rw [← p.steps_nodes] at hnodup
  have htallies := Binding.Tallies.walk (b := .start) p.steps (fun _ _ => rfl) hnodup
  rw [Program.steps_idents (Grammar.parse_results hp), p.steps_accesses,
    ← p.resolved_diagnostics] at htallies
  exact ⟨_, _, resolveNames_eq p, htallies.linked, htallies.found⟩

/-- A function that increments the field of a variable. -/
def fieldTokens : List Token :=
  [(.tupleWord, "tuple"), (.identifier, "pair"), (.openCurly, "\x7b"),
    (.integerWord, "integer"), (.identifier, "n"), (.dot, "."), (.closeCurly, "\x7d"), (.dot, "."),
    (.tupleWord, "tuple"), (.identifier, "pair"), (.identifier, "x"), (.dot, "."),
    (.voidWord, "void"), (.identifier, "f"), (.openCurly, "\x7b"), (.closeCurly, "\x7d"),
    (.openBracket, "["), (.identifier, "x"), (.colon, ":"), (.identifier, "n"), (.plusPlus, "++"),
    (.dot, "."), (.closeBracket, "]")].map
    fun (kind, text) => ⟨kind, text, ⟨.nowhere, .nowhere⟩⟩

def fieldProgram : Program :=
  ⟨[.tuple ⟨⟨0, "pair", .nowhere⟩, [⟨.integer, ⟨1, "n", .nowhere⟩⟩]⟩,
    .var ⟨.tuple ⟨2, "pair", .nowhere⟩, ⟨3, "x", .nowhere⟩⟩,
    .function ⟨.void, ⟨4, "f", .nowhere⟩, [],
      .mk [] [.increment (.access 6 (.ident ⟨5, "x", .nowhere⟩) ⟨7, "n", .nowhere⟩)]⟩]⟩

/-- Nothing is reported of it, all eight of its identifiers are linked, and its access is found. -/
theorem clean_iff_linked_field :
    parse fieldTokens = .ok fieldProgram ∧ ∃ r, resolveNames fieldProgram = .ok (r, []) ∧
      (∀ x ∈ fieldProgram.idents, ∃ id, r.linkOf x = some id) ∧
      ∀ i ∈ fieldProgram.accesses, ∃ t, r.access i = some (.resolved t) := by
  have hp : parse fieldTokens = .ok fieldProgram := rfl
  obtain ⟨r, ds, hr, hiff, hfound⟩ := clean_iff_linked hp
  have hrun : (resolveNames fieldProgram).toOption.map Prod.snd = some [] := by decide +kernel
  rw [hr] at hrun
  have hclean : ds = [] := Option.some.inj hrun
  rw [hclean] at hr
  exact ⟨hp, r, hr, hiff.1 hclean, hfound hclean⟩

end BaseLang
