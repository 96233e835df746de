import BaseLang.Proofs.Resolving.Scoping

/-
  Every symbol is that of a declared name.

    1. `Binding.Names` — from one state to another each symbol that was made is linked to a
       name that is declared in between; `Names.append` puts two such stretches together;
    2. `Names.decl`, `Names.formals`, `Names.fields`, `Names.functionName` — so it is for the
       declaration of a value, of formals, of fields and of the name of a function;
    3. `Binding.names_after`, `Binding.names_walk` — so it is for every step and for steps one
       after the other;
    4. `Program.declared`, `Program.links` — every symbol of a resolved program has a
       declaring occurrence, and every identifier stands for one or for nothing.
-/

namespace BaseLang

namespace Binding

/-- Between the two states only these nodes have been touched, and every symbol that was
made is linked to a name that one of the mentions declares. -/
structure Names (nodes : List NodeId) (ms : List Mention) (b b' : Binding) : Prop where
  evolves : Evolves nodes b b'
  made : ∀ id, b.resolution.nextSymbol ≤ id → id < b'.resolution.nextSymbol →
    ∃ d, .declares d ∈ ms ∧ b'.resolution.linkOf d.name = some id

namespace Names
variable {ns ns' : List NodeId} {ms ms' : List Mention} {b b' b'' : Binding}

/-- Where no symbol is made there is nothing to link. -/
theorem of_next_eq (he : Evolves ns b b') (hnext : b'.resolution.nextSymbol = b.resolution.nextSymbol) :
    Names ns ms b b' := by
  refine ⟨he, fun id hle hlt => ?_⟩
  rw [hnext] at hlt
  exact absurd hlt (Nat.not_lt.2 hle)

theorem append (h : Names ns ms b b') (h' : Names ns' ms' b' b'')
    (hfresh : b.resolution.Fresh (ns ++ ns')) (hnodup : (ns ++ ns').Nodup) :
    Names (ns ++ ns') (ms ++ ms') b b'' := by
  have hlater := h.evolves.fresh_right hfresh hnodup
  refine ⟨h.evolves.trans h'.evolves, fun id hle hlt => ?_⟩
  by_cases hid : id < b'.resolution.nextSymbol
  · obtain ⟨d, hd, hlink⟩ := h.made id hle hid
    exact ⟨d, List.mem_append_left _ hd, h'.evolves.linkOf_eq hlater hlink⟩
  · obtain ⟨d, hd, hlink⟩ := h'.made id (Nat.not_lt.1 hid) hlt
    exact ⟨d, List.mem_append_right _ hd, hlink⟩

theorem mono (h : Names ns ms b b') (hns : ∀ i ∈ ns, i ∈ ns') (hms : ∀ m ∈ ms, m ∈ ms') :
    Names ns' ms' b b' := by
  refine ⟨h.evolves.mono hns, fun id hle hlt => ?_⟩
  obtain ⟨d, hd, hlink⟩ := h.made id hle hlt
  exact ⟨d, hms _ hd, hlink⟩

/-- What touches no names and makes no symbols can follow. -/
theorem then_free (h : Names ns ms b b') (he : Evolves [] b' b'')
    (hnext : b''.resolution.nextSymbol = b'.resolution.nextSymbol) : Names ns ms b b'' := by
  refine ⟨h.evolves.then_free he, fun id hle hlt => ?_⟩
  obtain ⟨d, hd, hlink⟩ := h.made id hle (hnext ▸ hlt)
  exact ⟨d, hd, (he.links d.name.id List.not_mem_nil).trans hlink⟩

/-! ## Declarations -/

/-- A value, in whatever table it is declared. -/
theorem decl (scope around : ScopePath) (b : Binding) (t scopes : ScopeTable) (d : VarDecl) :
    Names d.nodes [.declares (d.declaration scope around)] b (b.afterDecl t scopes d) := by
  have hnext := b.nextSymbol_linkDecl t d
  cases haccepts : b.accepts? t d with
  | none =>
    rw [haccepts] at hnext
    exact .of_next_eq (b.evolves_decl t scopes d) hnext
  | some kind =>
    rw [haccepts] at hnext
    refine ⟨b.evolves_decl t scopes d, fun id hle hlt => ⟨_, List.mem_cons_self, ?_⟩⟩
    have hid : id = b.resolution.nextSymbol :=
      Nat.le_antisymm (Nat.le_of_lt_succ (Nat.lt_of_lt_of_eq hlt hnext)) hle
    rw [hid]
    exact linkOf_linkDecl haccepts

theorem formals (scope : ScopePath) : ∀ (ds : List VarDecl) (b : Binding),
    b.resolution.Fresh (ds.flatMap VarDecl.nodes) → (ds.flatMap VarDecl.nodes).Nodup →
    Names (ds.flatMap VarDecl.nodes) (ds.map fun d => .declares (d.declaration scope scope)) b
      (ds.foldl afterVar b)
  | [], b, _, _ => .of_next_eq (.refl b) rfl
  | d :: ds, b, hfresh, hnodup => by
    rw [List.flatMap_cons] at hfresh hnodup
    have hlater := (b.evolves_var d).fresh_right hfresh hnodup
    exact (decl scope scope b b.scopes _ d).append
      (formals scope ds (b.afterVar d) hlater (List.nodup_append.1 hnodup).2.1) hfresh hnodup

theorem fields (scope around : ScopePath) : ∀ (ds : List VarDecl) (b : Binding) (t : ScopeTable),
    b.resolution.Fresh (ds.flatMap VarDecl.nodes) → (ds.flatMap VarDecl.nodes).Nodup →
    Names (ds.flatMap VarDecl.nodes) (ds.map fun d => .declares (d.declaration scope around)) b
      (b.afterFields t ds)
  | [], b, _, _, _ => .of_next_eq (.refl b) rfl
  | d :: ds, b, t, hfresh, hnodup => by
    rw [List.flatMap_cons] at hfresh hnodup
    have hlater := (b.evolves_decl t b.scopes d).fresh_right hfresh hnodup
    exact (decl scope around b t b.scopes d).append
      (fields scope around ds _ _ hlater (List.nodup_append.1 hnodup).2.1) hfresh hnodup

/-- The name of a function or a tuple type. -/
theorem withSymbol (b : Binding) (d : Declaration) (kind : SymbolKind) :
    Names [d.name.id] [.declares d] b (b.withSymbol d.name kind) := by
  have hnext : (b.withSymbol d.name kind).resolution.nextSymbol = b.resolution.nextSymbol + 1 :=
    Array.size_push _
  refine ⟨b.evolves_withSymbol d.name kind, fun id hle hlt => ⟨d, List.mem_cons_self, ?_⟩⟩
  have hid : id = b.resolution.nextSymbol :=
    Nat.le_antisymm (Nat.le_of_lt_succ (Nat.lt_of_lt_of_eq hlt hnext)) hle
  rw [hid]
  exact Resolution.linkOf_link_self _ _ _

theorem functionName (scope : ScopePath) (b : Binding) (d : FunctionDecl) :
    Names [d.name.id] [.declares ⟨d.name, scope, scope, .function d.result⟩] b (b.afterFunctionName d) := by
  rw [afterFunctionName]
  split
  · exact .of_next_eq (b.evolves_withMultiple d.name).free rfl
  · exact .withSymbol b ⟨d.name, scope, scope, .function d.result⟩ _

end Names

/-! ## Steps -/

variable {b : Binding}

theorem names_heading (scope : ScopePath) {d : FunctionDecl}
    (hfresh : b.resolution.Fresh (d.name.id :: d.formals.flatMap VarDecl.nodes))
    (hnodup : (d.name.id :: d.formals.flatMap VarDecl.nodes).Nodup) :
    Names (d.name.id :: d.formals.flatMap VarDecl.nodes) (Step.heading scope d).mentions b
      (b.afterHeading d) := by
  rw [← List.singleton_append] at hfresh hnodup
  have hname := (Names.functionName scope.tail b d).then_free (evolves_inside _) rfl
  have hlater := hname.evolves.fresh_right hfresh hnodup
  have hformals := hname.append
    (.formals scope d.formals _ hlater (List.nodup_append.1 hnodup).2.1) hfresh hnodup
  rw [afterHeading]
  split
  · exact hformals
  · exact hformals.then_free (evolves_withParams _ _ _) Array.size_modify

theorem names_tuple (scope : ScopePath) {d : TupleDecl}
    (hfresh : b.resolution.Fresh (d.name.id :: d.fields.flatMap VarDecl.nodes))
    (hnodup : (d.name.id :: d.fields.flatMap VarDecl.nodes).Nodup) :
    Names (d.name.id :: d.fields.flatMap VarDecl.nodes) (Step.tuple scope d).mentions b
      (b.afterTuple d) := by
  have hfields := (List.nodup_cons.1 hnodup).2
  have hleft : b.resolution.Fresh (d.fields.flatMap VarDecl.nodes) :=
    fun i hi => hfresh i (List.mem_cons_of_mem _ hi)
  rw [afterTuple]
  split
  · have hname : Names [d.name.id] [] b (b.withMultiple d.name) :=
      .of_next_eq (b.evolves_withMultiple d.name).free rfl
    have hall := hname.append (.fields scope scope.tail d.fields _ .empty hleft hfields) hfresh hnodup
    exact hall.mono (fun _ hi => hi) fun _ hm => List.mem_append_left _ hm
  · -- the fields come first in the walk, the name comes first in the tree
    have hperm := List.perm_append_singleton d.name.id (d.fields.flatMap VarDecl.nodes)
    have hname := Names.withSymbol (b.afterFields .empty d.fields) ⟨d.name, scope.tail, scope.tail, .tuple⟩
      (.tupleDef (b.fieldsAfter .empty d.fields))
    have hall := (Names.fields scope scope.tail d.fields b .empty hleft hfields).append hname
      (fun i hi => hfresh i (hperm.mem_iff.1 hi)) (hperm.nodup_iff.2 hnodup)
    exact hall.mono (fun _ hi => hperm.mem_iff.1 hi) fun _ hm => hm

/-- Every step links the symbols that it makes. -/
theorem names_after {s : Step} (hfresh : b.resolution.Fresh s.nodes) (hnodup : s.nodes.Nodup) :
    Names s.nodes s.mentions b (b.after s) := by
  cases s with
  | use _ l =>
    have hsymbols : (b.linkLoc l).symbols = b.resolution.symbols := Binder.symbols_linkLoc l
    exact .of_next_eq (b.evolves_use l) (congrArg Array.size hsymbols)
  | enter _ => exact .of_next_eq b.evolves_inside rfl
  | exit _ => exact .of_next_eq b.evolves_outside rfl
  | var scope d => exact .decl scope scope b b.scopes _ d
  | heading scope d =>
    have hname := names_heading scope hfresh.right (List.nodup_append.1 hnodup).2.1
    exact hname.mono (fun _ => List.mem_append_right _) fun _ hm => hm
  | tuple scope d => exact names_tuple scope hfresh hnodup

theorem names_walk : ∀ (steps : List Step) {b : Binding}, b.resolution.Fresh (steps.flatMap Step.nodes) →
    (steps.flatMap Step.nodes).Nodup →
    Names (steps.flatMap Step.nodes) (steps.flatMap Step.mentions) b (steps.foldl after b)
  | [], b, _, _ => .of_next_eq (.refl b) rfl
  | s :: steps, b, hfresh, hnodup => by
    rw [List.flatMap_cons] at hfresh hnodup
    obtain ⟨hnodes, hrest, -⟩ := List.nodup_append.1 hnodup
    have hfirst := names_after hfresh.left hnodes
    have hlater := hfirst.evolves.fresh_right hfresh hnodup
    exact hfirst.append (names_walk steps hlater hrest) hfresh hnodup

end Binding

namespace Program
variable {p : Program} (hnodup : p.nodes.Nodup)
include hnodup

/-- Every symbol of a program is that of a name which is declared in it. -/
theorem declared {id : SymbolId} {s : Symbol} (hs : p.resolved.resolution.symbol? id = some s) :
    ∃ d, .declares d ∈ p.mentions ∧ p.resolved.resolution.linkOf d.name = some id := by
  rw [← p.steps_nodes] at hnodup
  have hnames := Binding.names_walk (b := .start) p.steps (fun _ _ => rfl) hnodup
  exact hnames.made id (Nat.zero_le id) (Resolution.symbol?_lt hs)

/-- An identifier stands for a name that is declared in the program, or for nothing. -/
theorem links (x : Ident) :
    ∃ d?, (∀ d ∈ d?, .declares d ∈ p.mentions) ∧ p.resolved.resolution.Links x d? := by
  cases hx : p.resolved.resolution.linkOf x with
  | none => exact ⟨none, nofun, hx⟩
  | some id =>
    obtain ⟨s, hs⟩ := (resolved_sound p).resolution.links _ _ hx
    obtain ⟨d, hd, hlink⟩ := declared hnodup hs
    refine ⟨some d, fun d' hd' => ?_, id, hlink, hx⟩
    rwa [← Option.mem_some.1 hd']

/-- The names that a program declares are among its nodes. -/
theorem declares_mem_nodes {d : Declaration} (hd : .declares d ∈ p.mentions) : d.name.id ∈ p.nodes := by
  obtain ⟨_, htraces⟩ := traces hnodup
  exact htraces.mentioned _ hd _ d.name_mem_nodes

end Program

end BaseLang
