import BaseLang.Proofs.Resolving.Evolution

/-
  What has been resolved is never changed.

  Symbols are only added. The parameters of a function are filled in by the step that made
  its symbol, so that from one step to the next every symbol stays what it is:

    1. `Resolution.Keeps` — a resolution goes on from another one, with the lemmas for the
       operations on resolutions, and `Keeps.symbols_isPrefix`: it has the symbols of that one
       first;
    2. `Binding.keeps_after`, `Binding.keeps_walk` — every step, and every list of steps,
       goes on from the resolution that it finds.
-/

namespace BaseLang

namespace Resolution

/-- The later resolution has all symbols of the earlier one unchanged, and may have more. -/
structure Keeps (r r' : Resolution) : Prop where
  next : r.nextSymbol ≤ r'.nextSymbol
  symbols : ∀ id < r.nextSymbol, r'.symbol? id = r.symbol? id

namespace Keeps
variable {r r' r'' : Resolution}

theorem of_symbols_eq (h : r'.symbols = r.symbols) : Keeps r r' :=
  ⟨Nat.le_of_eq (congrArg Array.size h.symm), fun id _ => congrArg (·[id]?) h⟩

theorem refl (r : Resolution) : Keeps r r := of_symbols_eq rfl

theorem trans (h : Keeps r r') (h' : Keeps r' r'') : Keeps r r'' where
  next := Nat.le_trans h.next h'.next
  symbols id hid := by rw [h'.symbols id (Nat.lt_of_lt_of_le hid h.next), h.symbols id hid]

theorem alloc (r : Resolution) (s : Symbol) : Keeps r (r.alloc s) where
  next := by
    rw [nextSymbol, nextSymbol, Resolution.alloc, Array.size_push]
    exact Nat.le_succ _
  symbols id hid := by rw [symbol?_alloc, if_neg (Nat.ne_of_lt hid)]

theorem link (h : Keeps r r') (x : Ident) (id : SymbolId) : Keeps r (r'.link x id) := ⟨h.next, h.symbols⟩

/-- Only a symbol that has been made in between is given parameters. -/
theorem setParams (h : Keeps r r') {id : SymbolId} (hid : r.nextSymbol ≤ id) (params : List Ty) :
    Keeps r (r'.setParams id params) where
  next := by
    rw [nextSymbol, nextSymbol, Resolution.setParams, Array.size_modify]
    exact h.next
  symbols i hi := by
    rw [symbol?_setParams, if_neg (Nat.ne_of_gt (Nat.lt_of_lt_of_le hi hid)), h.symbols i hi]

/-- The symbols of the earlier resolution come first. -/
theorem symbols_isPrefix (h : Keeps r r') : r.symbols.toList <+: r'.symbols.toList := by
  rw [List.prefix_iff_getElem?]
  intro id hid
  rw [Array.getElem?_toList]
  exact (h.symbols id hid).trans (Array.getElem?_eq_getElem hid)

end Keeps

end Resolution

open Resolution (Keeps)

namespace Binding
variable (b : Binding)

theorem keeps_use (l : Loc) : Keeps b.resolution (b.afterUse l).resolution :=
  .of_symbols_eq (Binder.symbols_linkLoc l)

/-- A declaration makes at most one symbol, whatever table it goes into. -/
theorem keeps_decl (t scopes : ScopeTable) (d : VarDecl) :
    Keeps b.resolution (b.afterDecl t scopes d).resolution := by
  have htype : Keeps b.resolution (b.linkType d.type) := .of_symbols_eq (Binder.symbols_linkType d.type)
  show Keeps b.resolution (b.linkDecl t d)
  rw [linkDecl]
  split
  · exact (htype.trans (.alloc _ _)).link d.name _
  · exact htype

theorem keeps_formals : ∀ (ds : List VarDecl) (b : Binding),
    Keeps b.resolution (ds.foldl afterVar b).resolution
  | [], b => .refl b.resolution
  | d :: ds, b => (b.keeps_decl _ _ d).trans (keeps_formals ds (b.afterVar d))

theorem keeps_fields : ∀ (ds : List VarDecl) (b : Binding) (t : ScopeTable),
    Keeps b.resolution (b.afterFields t ds).resolution
  | [], b, _ => .refl b.resolution
  | d :: ds, b, t =>
    (b.keeps_decl t b.scopes d).trans (keeps_fields ds (b.afterDecl t b.scopes d) (b.tableAfter t d))

theorem keeps_withSymbol (x : Ident) (kind : SymbolKind) :
    Keeps b.resolution (b.withSymbol x kind).resolution :=
  (Keeps.alloc b.resolution ⟨x.name, kind⟩).link x _

theorem keeps_functionName (d : FunctionDecl) : Keeps b.resolution (b.afterFunctionName d).resolution := by
  rw [afterFunctionName]
  split
  · exact .refl b.resolution
  · exact b.keeps_withSymbol d.name _

theorem keeps_heading (d : FunctionDecl) : Keeps b.resolution (b.afterHeading d).resolution := by
  have hformals := (b.keeps_functionName d).trans (keeps_formals d.formals (b.afterFunctionName d).inside)
  rw [afterHeading]
  split
  · exact hformals
  · exact hformals.setParams (Nat.le_refl _) _

theorem keeps_tuple (d : TupleDecl) : Keeps b.resolution (b.afterTuple d).resolution := by
  rw [afterTuple]
  split
  · exact keeps_fields d.fields (b.withMultiple d.name) .empty
  · exact (keeps_fields d.fields b .empty).trans (keeps_withSymbol _ d.name _)

/-- A step changes no symbol that there was before. -/
theorem keeps_after (s : Step) : Keeps b.resolution (b.after s).resolution := by
  cases s with
  | use _ l => exact b.keeps_use l
  | enter _ | exit _ => exact .refl b.resolution
  | var _ d => exact b.keeps_decl _ _ d
  | heading _ d => exact b.keeps_heading d
  | tuple _ d => exact b.keeps_tuple d

/-- Nor does a list of steps. -/
theorem keeps_walk : ∀ (steps : List Step) (b : Binding),
    Keeps b.resolution (steps.foldl after b).resolution
  | [], b => .refl b.resolution
  | s :: steps, b => (b.keeps_after s).trans (keeps_walk steps (b.after s))

end Binding

end BaseLang
