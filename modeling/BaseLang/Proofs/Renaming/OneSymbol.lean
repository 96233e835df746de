import BaseLang.Proofs.Renaming.Resolving
import BaseLang.Proofs.Renaming.Symbols
import BaseLang.Proofs.Resolving.Linked

/-
  Names are resolved alike under a new name for one symbol.

  The tree is relabelled by what the names stand for in the end: each identifier that is
  linked gets the name that its symbol now has. On a walk in which nothing is reported every
  name is linked when its step is performed and never again, so that at each step the
  relabelled name is that of the symbol to which the old one leads there:

    1. `NewName.Applies` — a relabelling does this, for all that a resolution has linked; it
       does so for every earlier state of the walk (`Applies.before`);
    2. `linkLoc_binding`, `linkDecl_binding`, …, `binding_heading`, `binding_tuple` — each
       operation on a state gives the renamed result on the renamed state;
    3. `binding_walk` — so does a list of steps in which nothing is reported.
-/

namespace BaseLang

/-- The relabelling gives every identifier that is linked the name that its symbol now has,
and changes no number. The new name is that of no symbol. -/
structure NewName.Applies (c : NewName) (labels : Relabelling) (r : Resolution) : Prop where
  idents : ∀ x id, r.linkOf x = some id → labels.ident x = c.ident id x
  numbers : ∀ x, (labels.ident x).id = x.id
  accesses : ∀ i, labels.access i = i
  unused : c.Unused r

namespace NewName
variable {c : NewName} {labels : Relabelling} {r r' : Resolution} {b b' : Binding}

/-! ## Earlier states -/

namespace Applies

/-- What has been linked stays linked, and the symbols keep their names. -/
theorem of_links (h : c.Applies labels r') (hlinks : ∀ x id, r.linkOf x = some id → r'.linkOf x = some id)
    (hr : r.Grows r') : c.Applies labels r :=
  ⟨fun x id hx => h.idents x id (hlinks x id hx), h.numbers, h.accesses, h.unused.grows hr⟩

theorem before {ns : List NodeId} (h : c.Applies labels b'.resolution) (he : Binding.Evolves ns b b')
    (hfresh : b.resolution.Fresh ns) : c.Applies labels b.resolution :=
  h.of_links (fun _ _ hx => he.linkOf_eq hfresh hx) he.symbols

theorem before_link {x : Ident} {id : SymbolId} (h : c.Applies labels (r.link x id))
    (hx : r.linkOf x = none) : c.Applies labels r := by
  refine h.of_links (fun y i hy => ?_) (.of_symbols_eq rfl)
  rw [Resolution.linkOf_link, if_neg, hy]
  intro heq
  rw [Resolution.linkOf, heq, ← Resolution.linkOf, hx] at hy
  cases hy

theorem before_setAccess {i : NodeId} {outcome : AccessLink}
    (h : c.Applies labels (r.setAccess i outcome)) : c.Applies labels r :=
  h.of_links (fun _ _ hx => hx) (.of_symbols_eq rfl)

theorem before_alloc {s : Symbol} (h : c.Applies labels (r.alloc s)) : c.Applies labels r :=
  h.of_links (fun _ _ hx => hx) (.alloc r s)

/-- The identifier that is linked last. -/
theorem ident_link {x : Ident} {id : SymbolId} (h : c.Applies labels (r.link x id)) :
    labels.ident x = c.ident id x := h.idents x id (Resolution.linkOf_link_self r x id)

theorem nodes_loc (h : c.Applies labels r) : ∀ l : Loc, (l.relabel labels).nodes = l.nodes
  | .ident x => congrArg (fun i => [i]) (h.numbers x)
  | .access i l f => by rw [Loc.relabel, Loc.nodes, h.nodes_loc l, h.accesses, h.numbers, Loc.nodes]

end Applies

/-! ## Uses -/

section Uses
variable (hb : b.Sound)
include hb

theorem lookupChain_ident {x : Ident} {id : SymbolId} (h : c.Unused b.resolution)
    (hx : labels.ident x = c.ident id x) (hl : b.scopes.lookupChain x.name = some id) :
    (c.binding b).scopes.lookupChain (labels.ident x).name = some id := by
  rw [hx]
  exact lookupChain_table h hb.scopes hl

/-- A location that leads to a symbol leads to it in the renamed state, and is linked alike. -/
theorem linkLoc_binding : ∀ {l : Loc} {id : SymbolId}, b.resolution.Fresh l.nodes → l.nodes.Nodup →
    c.Applies labels (b.linkLoc l) → b.symbolAt? l = some id →
    (c.binding b).symbolAt? (l.relabel labels) = some id ∧
      (c.binding b).linkLoc (l.relabel labels) = c.resolution (b.linkLoc l)
  | .ident x, id, hfresh, _, h, hat => by
    have hx : b.resolution.linkOf x = none := hfresh _ List.mem_cons_self
    have hl : b.scopes.lookupChain x.name = some id := by
      rwa [Binding.symbolAt?, hx, Option.or_none] at hat
    rw [Binding.linkLoc, hl] at h ⊢
    have hnew := lookupChain_ident hb (h.before_link hx).unused h.ident_link hl
    rw [Loc.relabel, Binding.symbolAt?, Binding.linkLoc, hnew]
    refine ⟨rfl, ?_⟩
    rw [h.ident_link]
    rfl
  | .access i l f, id, hfresh, hnodup, h, hat => by
    obtain ⟨hl, -, hdisjoint⟩ := List.nodup_append.1 hnodup
    obtain ⟨base, hbase, hdefinition⟩ := Option.bind_eq_some_iff.1 hat
    obtain ⟨definition, htuple, hfield⟩ := Option.bind_eq_some_iff.1 hdefinition
    -- the field is linked after the location before the colon, and not in it
    have hout : f.id ∉ l.nodes := fun hin => hdisjoint _ hin _ (List.mem_cons_of_mem _ List.mem_cons_self) rfl
    have hf : (b.linkLoc l).linkOf f = none :=
      (b.links_linkLoc l hout).trans (hfresh.right _ (List.mem_cons_of_mem _ List.mem_cons_self))
    rw [Binding.linkLoc, hat] at h ⊢
    have hlinked := h.before_setAccess
    have hbefore := hlinked.before_link hf
    obtain ⟨hatBase, hlinkBase⟩ := linkLoc_binding hfresh.left hl hbefore hbase
    have hfieldNew := fieldOf?_resolution
      (hbefore.unused.grows (.of_symbols_eq (Binder.symbols_linkLoc l))) hb.resolution hfield
    have hatNew : (c.binding b).symbolAt? ((Loc.access i l f).relabel labels) = some id := by
      rw [Loc.relabel, Binding.symbolAt?, hatBase, Option.bind_some]
      show ((c.resolution b.resolution).tupleOf? base).bind _ = _
      rw [tupleOf?_resolution, htuple, Option.bind_some, hlinked.ident_link]
      exact hfieldNew
    refine ⟨hatNew, ?_⟩
    rw [Loc.relabel] at hatNew ⊢
    rw [Binding.linkLoc, hatNew, hlinkBase, h.accesses, hlinked.ident_link]
    show ((c.resolution (b.linkLoc l)).link f id).setAccess i
      (.resolved ((c.resolution b.resolution).tupleOf? id)) = _
    rw [tupleOf?_resolution]
    rfl

theorem binding_use {l : Loc} (hfresh : b.resolution.Fresh l.nodes) (hnodup : l.nodes.Nodup)
    (h : c.Applies labels (b.linkLoc l)) (hquiet : b.locFaults l = []) :
    (c.binding b).afterUse (l.relabel labels) = c.binding (b.afterUse l) := by
  obtain ⟨id, hat⟩ := (Binding.locFaults_eq_nil_iff hfresh).1 hquiet
  obtain ⟨hatNew, hlink⟩ := linkLoc_binding hb hfresh hnodup h hat
  have hfreshNew : (c.binding b).resolution.Fresh (l.relabel labels).nodes := by
    rw [h.nodes_loc]
    exact hfresh
  have hquietNew := (Binding.locFaults_eq_nil_iff hfreshNew).2 ⟨id, hatNew⟩
  rw [Binding.afterUse, hlink, hquietNew, Binding.afterUse, hquiet]
  rfl

end Uses

/-! ## Declarations -/

theorem nextSymbol_binding (c : NewName) (b : Binding) :
    (c.binding b).resolution.nextSymbol = b.resolution.nextSymbol := c.nextSymbol_resolution b.resolution

theorem lookupLocal_ident {t : ScopeTable} {x : Ident} (h : c.Unused b.resolution)
    (ht : t.Leads b.resolution) (hx : labels.ident x = c.ident b.resolution.nextSymbol x)
    (hname : x.name ≠ c.name) (hfree : t.lookupLocal x.name = none) :
    (c.table t).lookupLocal (labels.ident x).name = none := by
  rw [hx]
  exact lookupLocal_table h ht hname hfree

theorem definition?_binding (hb : b.Sound) (h : c.Unused b.resolution) {m : String} {id : SymbolId}
    (hd : b.definition? m = some id) : (c.binding b).definition? (c.nameOf id m) = some id := by
  obtain ⟨hl, hfields⟩ := Option.filter_eq_some_iff.1 hd
  refine Option.filter_eq_some_iff.2 ⟨lookupChain_table h hb.scopes hl, ?_⟩
  show ((c.resolution b.resolution).fieldsOf? id).isSome = true
  rw [fieldsOf?_resolution, Option.isSome_map]
  exact hfields

/-- A written type that is right is right in the renamed state, and is linked alike. -/
theorem linkType_binding (hb : b.Sound) {type : TypeName} {kind : SymbolKind}
    (hfresh : b.resolution.Fresh type.nodes) (h : c.Applies labels (b.linkType type))
    (hk : b.typeKind? type = some kind) :
    (c.binding b).typeKind? (type.relabel labels) = some (c.kind kind) ∧
      (c.binding b).linkType (type.relabel labels) = c.resolution (b.linkType type) := by
  cases type with
  | void => cases hk
  | logical | integer =>
    cases hk
    exact ⟨rfl, rfl⟩
  | tuple x =>
    have hx : b.resolution.linkOf x = none := hfresh _ List.mem_cons_self
    obtain ⟨id, hd, rfl⟩ := Option.map_eq_some_iff.1 hk
    rw [Binding.linkType, hd] at h ⊢
    have hnew : (c.binding b).definition? (labels.ident x).name = some id := by
      rw [h.ident_link]
      exact definition?_binding hb (h.before_link hx).unused hd
    rw [TypeName.relabel, Binding.typeKind?, Binding.linkType, hnew, h.ident_link]
    exact ⟨rfl, rfl⟩

/-- The name of a declaration that is accepted stands for the next symbol. -/
theorem ident_linkDecl {t : ScopeTable} {d : VarDecl} {kind : SymbolKind}
    (h : c.Applies labels (b.linkDecl t d)) (haccepts : b.accepts? t d = some kind) :
    labels.ident d.name = c.ident b.resolution.nextSymbol d.name :=
  h.idents _ _ (Binding.linkOf_linkDecl haccepts)

section Declarations
variable {t : ScopeTable} {d : VarDecl} {kind : SymbolKind} (hb : b.Sound) (ht : t.Leads b.resolution)
  (hfresh : b.resolution.Fresh d.nodes) (hnodup : d.nodes.Nodup)
  (h : c.Applies labels (b.linkDecl t d)) (haccepts : b.accepts? t d = some kind)
include hfresh hnodup h haccepts

/-- The type of a declaration is linked before its name. -/
theorem applies_linkType : c.Applies labels (b.linkType d.type) := by
  have hout : d.name.id ∉ d.type.nodes :=
    fun hin => (List.nodup_append.1 hnodup).2.2 _ hin _ List.mem_cons_self rfl
  have hname : (b.linkType d.type).linkOf d.name = none :=
    (b.links_linkType d.type hout).trans (hfresh.right _ List.mem_cons_self)
  rw [Binding.linkDecl, haccepts] at h
  exact (h.before_link hname).before_alloc

include hb ht

/-- A declaration that is accepted is accepted in the renamed state, and is linked alike. -/
theorem linkDecl_binding :
    (c.binding b).accepts? (c.table t) (d.relabel labels) = some (c.kind kind) ∧
      (c.binding b).linkDecl (c.table t) (d.relabel labels) = c.resolution (b.linkDecl t d) := by
  have htype := applies_linkType hfresh hnodup h haccepts
  have hsame := Binder.symbols_linkType (b := b) d.type
  obtain ⟨hkind, hlink⟩ :=
    linkType_binding hb hfresh.left htype (Binding.accepts?_eq_some haccepts)
  have hx := ident_linkDecl h haccepts
  have hne : d.name.name ≠ c.name := h.unused _ _ (Binding.symbol?_linkDecl haccepts)
  have hfree := lookupLocal_ident (htype.unused.grows (.of_symbols_eq hsame)) ht hx hne
    (Binder.not_taken_of_accepts haccepts)
  have hacceptsNew : (c.binding b).accepts? (c.table t) (d.relabel labels) = some (c.kind kind) := by
    show (if ((c.table t).lookupLocal (labels.ident d.name).name).isSome then none
      else (c.binding b).typeKind? (d.type.relabel labels)) = _
    rw [hfree, hkind]
    rfl
  refine ⟨hacceptsNew, ?_⟩
  have hsymbol : c.symbolAt (b.linkType d.type).nextSymbol ⟨d.name.name, kind⟩ =
      ⟨(labels.ident d.name).name, c.kind kind⟩ := by
    rw [b.nextSymbol_linkType, hx]
    rfl
  rw [Binding.linkDecl, hacceptsNew, nextSymbol_binding, Binding.linkDecl, haccepts]
  show (((c.binding b).linkType (d.type.relabel labels)).alloc ⟨(labels.ident d.name).name, c.kind kind⟩).link
    (labels.ident d.name) b.resolution.nextSymbol = _
  rw [hlink, ← hsymbol, ← resolution_alloc, hx]
  rfl

theorem tableAfter_binding :
    (c.binding b).tableAfter (c.table t) (d.relabel labels) = c.table (b.tableAfter t d) := by
  have hx := ident_linkDecl h haccepts
  rw [Binding.tableAfter, (linkDecl_binding hb ht hfresh hnodup h haccepts).1, nextSymbol_binding,
    Binding.tableAfter, haccepts]
  dsimp only
  rw [table_extend, VarDecl.relabel, hx]
  rfl

theorem binding_decl (scopes : ScopeTable) :
    (c.binding b).afterDecl (c.table t) (c.table scopes) (d.relabel labels) =
      c.binding (b.afterDecl t scopes d) := by
  obtain ⟨hacceptsNew, hlink⟩ := linkDecl_binding hb ht hfresh hnodup h haccepts
  have hquiet := Binding.declFaults_eq_nil_iff.2 ⟨kind, haccepts⟩
  have hquietNew := Binding.declFaults_eq_nil_iff.2 ⟨_, hacceptsNew⟩
  rw [Binding.afterDecl, hlink, hquietNew, Binding.afterDecl, hquiet]
  rfl

end Declarations

theorem binding_var (hb : b.Sound) {d : VarDecl} (hfresh : b.resolution.Fresh d.nodes)
    (hnodup : d.nodes.Nodup) (h : c.Applies labels (b.afterVar d).resolution)
    (hquiet : b.declFaults b.scopes d = []) :
    (c.binding b).afterVar (d.relabel labels) = c.binding (b.afterVar d) := by
  obtain ⟨kind, haccepts⟩ := Binding.declFaults_eq_nil_iff.1 hquiet
  show (c.binding b).afterDecl (c.table b.scopes)
    ((c.binding b).tableAfter (c.table b.scopes) (d.relabel labels)) (d.relabel labels) = _
  rw [tableAfter_binding hb hb.scopes hfresh hnodup h haccepts,
    binding_decl hb hb.scopes hfresh hnodup h haccepts]
  rfl

/-! ### Functions -/

theorem ty_of_idents_eq_nil (ρ : Renaming) {type : TypeName} (h : type.idents = []) :
    (type.relabel labels).ty = ρ.ty type.ty := by
  cases type with
  | tuple _ => cases h
  | logical | integer | void => rfl

/-- Formals, with their types. -/
theorem binding_formals : ∀ (ds : List VarDecl) {b : Binding}, b.Sound →
    b.resolution.Fresh (ds.flatMap VarDecl.nodes) → (ds.flatMap VarDecl.nodes).Nodup →
    c.Applies labels (ds.foldl Binding.afterVar b).resolution → b.varsFaults ds = [] →
    (∀ d ∈ ds, d.type.idents = []) →
    (ds.map (VarDecl.relabel labels)).foldl Binding.afterVar (c.binding b) =
        c.binding (ds.foldl Binding.afterVar b) ∧
      (c.binding b).formalTypes (ds.map (VarDecl.relabel labels)) = c.types.tys (b.formalTypes ds)
  | [], _, _, _, _, _, _, _ => ⟨rfl, rfl⟩
  | d :: ds, b, hb, hfresh, hnodup, h, hquiet, hsimple => by
    rw [List.flatMap_cons] at hfresh hnodup
    obtain ⟨hd, hds, -⟩ := List.nodup_append.1 hnodup
    obtain ⟨hfirst, hrest⟩ := List.append_eq_nil_iff.1 hquiet
    obtain ⟨htype, hsimple⟩ := List.forall_mem_cons.1 hsimple
    have hlater := (b.evolves_var d).fresh_right hfresh hnodup
    have hbefore := h.before (Binding.evolves_formals ds (b.afterVar d)) hlater
    obtain ⟨hstate, htypes⟩ := binding_formals ds (hb.afterVar d) hlater hds h hrest hsimple
    have hvar := binding_var hb hfresh.left hd hbefore hfirst
    obtain ⟨kind, haccepts⟩ := Binding.declFaults_eq_nil_iff.1 hfirst
    have hacceptsNew : (c.binding b).accepts? (c.binding b).scopes (d.relabel labels) =
        some (c.kind kind) := (linkDecl_binding hb hb.scopes hfresh.left hd hbefore haccepts).1
    constructor
    · rw [List.map_cons, List.foldl_cons, hvar, hstate, List.foldl_cons]
    · have hty : (d.relabel labels).type.ty = c.types.ty d.type.ty := ty_of_idents_eq_nil c.types htype
      rw [List.map_cons, Binding.formalTypes, hacceptsNew, hvar, htypes, hty, Binding.formalTypes, haccepts]
      rfl

/-- The name of a function or a tuple type. -/
theorem binding_withSymbol {x : Ident} {kind : SymbolKind}
    (h : c.Applies labels (b.withSymbol x kind).resolution) :
    (c.binding b).withSymbol (labels.ident x) (c.kind kind) = c.binding (b.withSymbol x kind) := by
  have htable := c.table_extend b.scopes x.name b.resolution.nextSymbol
  have halloc := c.resolution_alloc b.resolution ⟨x.name, kind⟩
  have hlink := congrArg (·.link (c.ident b.resolution.nextSymbol x) b.resolution.nextSymbol) halloc
  rw [Binding.withSymbol, nextSymbol_binding, h.ident_link]
  exact (congrArg₂ (Binding.mk · · b.diagnostics) htable hlink).symm

/-- A name that is free is free in the renamed state. -/
theorem lookupLocal_binding (hb : b.Sound) {x : Ident} {kind : SymbolKind}
    (hfresh : b.resolution.Fresh [x.id]) (h : c.Applies labels (b.withSymbol x kind).resolution)
    (hfree : b.scopes.lookupLocal x.name = none) :
    (c.binding b).scopes.lookupLocal (labels.ident x).name = none := by
  have hunused := (h.before (b.evolves_withSymbol x kind) hfresh).unused
  have hname : x.name ≠ c.name := h.unused _ _ (b.resolution.symbol?_alloc_self ⟨x.name, kind⟩)
  exact lookupLocal_ident hunused hb.scopes h.ident_link hname hfree

theorem free_of_nameFaults {x : Ident} (h : b.nameFaults x = []) : b.scopes.lookupLocal x.name = none := by
  rw [Binding.nameFaults] at h
  split at h
  · cases h
  · next hfree => exact Option.not_isSome_iff_eq_none.1 hfree

theorem binding_functionName (hb : b.Sound) {d : FunctionDecl} (hresult : d.result.idents = [])
    (hfresh : b.resolution.Fresh [d.name.id]) (h : c.Applies labels (b.afterFunctionName d).resolution)
    (hfree : b.scopes.lookupLocal d.name.name = none) :
    (c.binding b).scopes.lookupLocal (labels.ident d.name).name = none ∧
      (c.binding b).afterFunctionName (d.relabel labels) = c.binding (b.afterFunctionName d) := by
  rw [Binding.afterFunctionName_of_free hfree] at h ⊢
  have hfreeNew := lookupLocal_binding hb hfresh h hfree
  have hkind : SymbolKind.function (d.relabel labels).result.ty [] = c.kind (.function d.result.ty []) := by
    rw [kind, ← ty_of_idents_eq_nil c.types hresult]
    rfl
  refine ⟨hfreeNew, ?_⟩
  rw [Binding.afterFunctionName_of_free (d := d.relabel labels) hfreeNew, hkind]
  exact binding_withSymbol h

theorem binding_heading (hb : b.Sound) {d : FunctionDecl} (hsimple : d.Simple)
    (hfresh : b.resolution.Fresh (d.name.id :: d.formals.flatMap VarDecl.nodes))
    (hnodup : (d.name.id :: d.formals.flatMap VarDecl.nodes).Nodup)
    (h : c.Applies labels (b.afterHeading d).resolution)
    (hquiet : b.nameFaults d.name ++ (b.afterFunctionName d).inside.varsFaults d.formals = []) :
    (c.binding b).afterHeading (d.relabel labels) = c.binding (b.afterHeading d) := by
  obtain ⟨hname, hformals⟩ := List.append_eq_nil_iff.1 hquiet
  have hfree := free_of_nameFaults hname
  rw [← List.singleton_append] at hfresh hnodup
  have hlater : (b.afterFunctionName d).inside.resolution.Fresh (d.formals.flatMap VarDecl.nodes) :=
    (b.evolves_functionName d).fresh_right hfresh hnodup
  -- the parameters are filled in last, before them the formals are declared
  have hdone : c.Applies labels (d.formals.foldl Binding.afterVar (b.afterFunctionName d).inside).resolution := by
    rw [Binding.afterHeading_of_free hfree] at h
    exact h.before (Binding.evolves_withParams _ _ _) (List.forall_mem_nil _)
  have hopened : c.Applies labels (b.afterFunctionName d).inside.resolution :=
    hdone.before (Binding.evolves_formals d.formals _) hlater
  obtain ⟨hfreeNew, hfunction⟩ := binding_functionName hb hsimple.1 hfresh.left hopened hfree
  obtain ⟨hstate, htypes⟩ := binding_formals d.formals (hb.afterFunctionName d).inside hlater
    (List.nodup_append.1 hnodup).2.1 hdone hformals hsimple.2
  have hparams := c.resolution_setParams (d.formals.foldl Binding.afterVar (b.afterFunctionName d).inside).resolution
    b.resolution.nextSymbol ((b.afterFunctionName d).inside.formalTypes d.formals)
  have hinside : (c.binding (b.afterFunctionName d)).inside = c.binding (b.afterFunctionName d).inside := rfl
  rw [Binding.afterHeading, show (d.relabel labels).name = labels.ident d.name from rfl, hfreeNew,
    show (d.relabel labels).formals = d.formals.map (VarDecl.relabel labels) from rfl, hfunction,
    hinside, hstate, htypes, nextSymbol_binding, Binding.afterHeading_of_free hfree]
  exact congrArg (Binding.mk _ · _) hparams.symm

/-! ### Tuple types -/

/-- Fields, in a table of names that lead to symbols. -/
theorem binding_fields : ∀ (ds : List VarDecl) {b : Binding} {t : ScopeTable}, b.Sound →
    t.IsFields b.resolution b.resolution.nextSymbol →
    b.resolution.Fresh (ds.flatMap VarDecl.nodes) → (ds.flatMap VarDecl.nodes).Nodup →
    c.Applies labels (b.afterFields t ds).resolution → b.fieldsFaults t ds = [] →
    (c.binding b).afterFields (c.table t) (ds.map (VarDecl.relabel labels)) = c.binding (b.afterFields t ds) ∧
      (c.binding b).fieldsAfter (c.table t) (ds.map (VarDecl.relabel labels)) = c.table (b.fieldsAfter t ds)
  | [], _, _, _, _, _, _, _, _ => ⟨rfl, rfl⟩
  | d :: ds, b, t, hb, ht, hfresh, hnodup, h, hquiet => by
    rw [List.flatMap_cons] at hfresh hnodup
    obtain ⟨hd, hds, -⟩ := List.nodup_append.1 hnodup
    obtain ⟨hfirst, hrest⟩ := List.append_eq_nil_iff.1 hquiet
    obtain ⟨kind, haccepts⟩ := Binding.declFaults_eq_nil_iff.1 hfirst
    have hlater := (b.evolves_decl t b.scopes d).fresh_right hfresh hnodup
    have hbefore := h.before (Binding.evolves_fields ds (b.afterDecl t b.scopes d) (b.tableAfter t d)) hlater
    have htable := tableAfter_binding hb ht.leads hfresh.left hd hbefore haccepts
    have hdecl := binding_decl hb ht.leads hfresh.left hd hbefore haccepts b.scopes
    obtain ⟨hstate, hfields⟩ :=
      binding_fields ds (hb.afterField t d) (Binding.isFields_tableAfter ht d) hlater hds h hrest
    constructor
    · rw [List.map_cons, Binding.afterFields, htable, Binding.afterFields, ← hstate, ← hdecl]
      rfl
    · rw [List.map_cons, Binding.fieldsAfter, htable, Binding.fieldsAfter, ← hfields, ← hdecl]
      rfl

theorem afterTuple_of_free {d : TupleDecl} (h : b.scopes.lookupLocal d.name.name = none) :
    b.afterTuple d =
      (b.afterFields .empty d.fields).withSymbol d.name (.tupleDef (b.fieldsAfter .empty d.fields)) := by
  rw [Binding.afterTuple, h]
  rfl

theorem binding_tuple (hb : b.Sound) {d : TupleDecl}
    (hfresh : b.resolution.Fresh (d.name.id :: d.fields.flatMap VarDecl.nodes))
    (hnodup : (d.name.id :: d.fields.flatMap VarDecl.nodes).Nodup)
    (h : c.Applies labels (b.afterTuple d).resolution)
    (hquiet : b.nameFaults d.name ++ (b.atFields d).fieldsFaults .empty d.fields = []) :
    (c.binding b).afterTuple (d.relabel labels) = c.binding (b.afterTuple d) := by
  obtain ⟨hname, hfields⟩ := List.append_eq_nil_iff.1 hquiet
  have hfree := free_of_nameFaults hname
  have hat : b.atFields d = b := by
    rw [Binding.atFields, hfree]
    rfl
  rw [hat] at hfields
  rw [afterTuple_of_free hfree] at h ⊢
  -- the fields come first in the walk, the name comes first in the tree
  have hperm := List.perm_append_singleton d.name.id (d.fields.flatMap VarDecl.nodes)
  have hnodup' := hperm.nodup_iff.2 hnodup
  have hfresh' : b.resolution.Fresh (d.fields.flatMap VarDecl.nodes ++ [d.name.id]) :=
    fun i hi => hfresh i (hperm.mem_iff.1 hi)
  have hnameFresh := (Binding.evolves_fields d.fields b .empty).fresh_right hfresh' hnodup'
  have hdone := h.before (Binding.evolves_withSymbol _ d.name _) hnameFresh
  obtain ⟨hstate, htable⟩ := binding_fields d.fields hb (ScopeTable.isFields_empty _ _) hfresh'.left
    (List.nodup_append.1 hnodup').1 hdone hfields
  -- fields are not declared in the scopes, so that the name is free before and after them
  have hscopes := Binder.scopes_afterFields d.fields b .empty
  have hsound := (Binding.Sound.afterFields d.fields hb (ScopeTable.isFields_empty _ _)).1
  have hfreeNew := lookupLocal_binding hsound hnameFresh h (hscopes ▸ hfree)
  change (c.table (b.afterFields .empty d.fields).scopes).lookupLocal _ = none at hfreeNew
  rw [hscopes] at hfreeNew
  have hempty : ScopeTable.empty = c.table .empty := rfl
  rw [afterTuple_of_free (d := d.relabel labels) hfreeNew,
    show (d.relabel labels).fields = d.fields.map (VarDecl.relabel labels) from rfl, hempty, hstate, htable]
  exact binding_withSymbol h

/-! ## Steps -/

/-- A step that reports nothing leads from the renamed state to the renamed result. -/
theorem binding_after (hb : b.Sound) {s : Step} (hsimple : ∀ scope d, s = .heading scope d → d.Simple)
    (hfresh : b.resolution.Fresh s.nodes) (hnodup : s.nodes.Nodup)
    (h : c.Applies labels (b.after s).resolution) (hquiet : b.faults s = []) :
    (c.binding b).after (s.relabel labels) = c.binding (b.after s) := by
  cases s with
  | use _ l => exact binding_use hb hfresh hnodup h hquiet
  | enter _ => rfl
  | exit _ => exact congrArg (fun nested => Binding.mk ⟨_, nested⟩ _ _) List.map_tail.symm
  | var _ d => exact binding_var hb hfresh hnodup h hquiet
  | heading scope d =>
    exact binding_heading hb (hsimple scope d rfl) hfresh.right (List.nodup_append.1 hnodup).2.1 h hquiet
  | tuple _ d => exact binding_tuple hb hfresh hnodup h hquiet

/-- So do steps one after the other. -/
theorem binding_walk : ∀ (steps : List Step) {b : Binding}, b.Sound →
    (∀ scope d, .heading scope d ∈ steps → d.Simple) →
    b.resolution.Fresh (steps.flatMap Step.nodes) → (steps.flatMap Step.nodes).Nodup →
    c.Applies labels (steps.foldl Binding.after b).resolution → b.found steps = [] →
    (steps.map (Step.relabel labels)).foldl Binding.after (c.binding b) =
      c.binding (steps.foldl Binding.after b)
  | [], _, _, _, _, _, _, _ => rfl
  | s :: steps, b, hb, hsimple, hfresh, hnodup, h, hquiet => by
    rw [List.flatMap_cons] at hfresh hnodup
    obtain ⟨hs, hsteps, -⟩ := List.nodup_append.1 hnodup
    obtain ⟨hfirst, hrest⟩ := List.append_eq_nil_iff.1 hquiet
    have hlater := (b.evolves_after s).fresh_right hfresh hnodup
    have hbefore := h.before (Binding.evolves_walk steps (b.after s)) hlater
    have hstep := binding_after hb (fun scope d hd => hsimple scope d (List.mem_cons.2 (.inl hd.symm)))
      hfresh.left hs hbefore hfirst
    rw [List.map_cons, List.foldl_cons, hstep, List.foldl_cons]
    exact binding_walk steps (hb.after s)
      (fun scope d hd => hsimple scope d (List.mem_cons_of_mem _ hd)) hlater hsteps h hrest

end NewName

end BaseLang
