import BaseLang.Proofs.Resolving.Runs

/-
  Which locations are found.

  A location is found when its last name is linked, and, if it is a field, its access
  has been resolved. When its nodes have not been touched before:

    1. `finds_afterUse_iff` — using it finds it exactly if nothing is reported;
    2. `uses_report_iff` — using locations one after the other reports something exactly
       if one of them is not found in the end;
    3. `Evolves.finds_iff` — what is performed on other nodes does not change this.
-/

namespace BaseLang

/-- The location has been linked to its end. -/
def Resolution.Finds (r : Resolution) : Loc → Prop
  | .ident x => ∃ id, r.linkOf x = some id
  | .access id _ f => (∃ definition?, r.access id = some (.resolved definition?)) ∧ ∃ i, r.linkOf f = some i

/-- None of the nodes has been linked. -/
def Resolution.Fresh (r : Resolution) (nodes : List NodeId) : Prop := ∀ i ∈ nodes, r.links.find? i = none

theorem Resolution.Fresh.left {r : Resolution} {nodes others : List NodeId} (h : r.Fresh (nodes ++ others)) :
    r.Fresh nodes :=
  fun i hi => h i (List.mem_append_left _ hi)

theorem Resolution.Fresh.right {r : Resolution} {nodes others : List NodeId}
    (h : r.Fresh (nodes ++ others)) : r.Fresh others :=
  fun i hi => h i (List.mem_append_right _ hi)

namespace Binding
variable {b b' : Binding}

theorem Evolves.finds_iff {nodes : List NodeId} (h : Evolves nodes b b') {l : Loc}
    (hl : ∀ i ∈ l.nodes, i ∉ nodes) : b'.resolution.Finds l ↔ b.resolution.Finds l := by
  cases l with
  | ident x =>
    have hx := h.links x.id (hl _ List.mem_cons_self)
    simp only [Resolution.Finds, Resolution.linkOf, hx]
  | access id l f =>
    have hid := h.accesses id (hl _ (by simp [Loc.nodes]))
    have hf := h.links f.id (hl _ (by simp [Loc.nodes]))
    simp only [Resolution.Finds, Resolution.linkOf, Resolution.access, hid, hf]

theorem Evolves.fresh {nodes others : List NodeId} (h : Evolves nodes b b')
    (hfresh : b.resolution.Fresh others) (hdisjoint : ∀ i ∈ others, i ∉ nodes) :
    b'.resolution.Fresh others := by
  intro i hi
  rw [h.links i (hdisjoint i hi), hfresh i hi]

/-- The nodes that come later are still untouched. -/
theorem Evolves.fresh_right {nodes others : List NodeId} (h : Evolves nodes b b')
    (hfresh : b.resolution.Fresh (nodes ++ others)) (hnodup : (nodes ++ others).Nodup) :
    b'.resolution.Fresh others :=
  h.fresh hfresh.right fun i hi hin => (List.nodup_append.1 hnodup).2.2 i hin i hi rfl

/-- What has been linked stays linked while nodes are touched that had not been. -/
theorem Evolves.linkOf_eq {nodes : List NodeId} (h : Evolves nodes b b') (hfresh : b.resolution.Fresh nodes)
    {x : Ident} {id : SymbolId} (hx : b.resolution.linkOf x = some id) :
    b'.resolution.linkOf x = some id := by
  refine (h.links x.id fun hi => ?_).trans hx
  rw [Resolution.linkOf, hfresh x.id hi] at hx
  cases hx

/-- The name of a declaration that is not accepted is not linked. -/
theorem linkOf_linkDecl_eq_none {t : ScopeTable} {d : VarDecl} (h : b.accepts? t d = none)
    (hfresh : b.resolution.Fresh d.nodes) (hnodup : d.nodes.Nodup) :
    (b.linkDecl t d).linkOf d.name = none := by
  have hout : d.name.id ∉ d.type.nodes := fun hin =>
    (List.nodup_append.1 hnodup).2.2 _ hin _ List.mem_cons_self rfl
  rw [linkDecl, h]
  exact (b.links_linkType d.type hout).trans (hfresh.right d.name.id List.mem_cons_self)

/-- The field of an access that leads nowhere is not linked. -/
theorem linkOf_field_eq_none {id : NodeId} {l : Loc} {f : Ident} (h : b.symbolAt? (.access id l f) = none)
    (hfresh : b.resolution.Fresh (Loc.access id l f).nodes) (hnodup : (Loc.access id l f).nodes.Nodup) :
    (b.linkLoc (.access id l f)).linkOf f = none := by
  have hout : f.id ∉ l.nodes := fun hin =>
    (List.nodup_append.1 hnodup).2.2 _ hin _ (List.mem_cons_of_mem _ List.mem_cons_self) rfl
  rw [linkLoc, h]
  exact (b.links_linkLoc l hout).trans (hfresh.right f.id (List.mem_cons_of_mem _ List.mem_cons_self))

/-! ## One location -/

/-- A location that has not been linked leads to a symbol exactly if it has no fault. -/
theorem locFaults_eq_nil_iff : ∀ {l : Loc}, b.resolution.Fresh l.nodes →
    (b.locFaults l = [] ↔ ∃ id, b.symbolAt? l = some id)
  | .ident x, hfresh => by
    have hx : b.resolution.linkOf x = none := hfresh _ List.mem_cons_self
    rw [locFaults, symbolAt?, hx, Option.or_none]
    cases b.scopes.lookupChain x.name with
    | none => simp
    | some id => exact ⟨fun _ => ⟨id, rfl⟩, fun _ => rfl⟩
  | .access id l f, hfresh => by
    have hin := locFaults_eq_nil_iff (l := l) hfresh.left
    rw [locFaults, List.append_eq_nil_iff, hin, symbolAt?, colonFaults, fieldFaults]
    cases b.symbolAt? l with
    | none => simp
    | some j =>
      dsimp only [Option.bind_some]
      cases b.resolution.tupleOf? j with
      | none => simp
      | some definition =>
        dsimp only [Option.bind_some]
        cases b.resolution.fieldOf? definition f.name with
        | none => simp
        | some i => exact ⟨fun _ => ⟨i, rfl⟩, fun _ => ⟨⟨j, rfl⟩, rfl⟩⟩

/-- Using a location finds it exactly if nothing is reported. -/
theorem finds_afterUse_iff {l : Loc} (hfresh : b.resolution.Fresh l.nodes) :
    (b.afterUse l).resolution.Finds l ↔ b.locFaults l = [] := by
  rw [locFaults_eq_nil_iff hfresh]
  show (b.linkLoc l).Finds l ↔ _
  cases l with
  | ident x =>
    have hx : b.resolution.linkOf x = none := hfresh _ List.mem_cons_self
    rw [Resolution.Finds, linkLoc, symbolAt?, hx, Option.or_none]
    cases b.scopes.lookupChain x.name with
    | none => rw [hx]
    | some id =>
      rw [Resolution.linkOf_link_self]
  | access id l f =>
    rw [Resolution.Finds, linkLoc]
    cases b.symbolAt? (.access id l f) with
    | none =>
      constructor
      · intro h
        obtain ⟨⟨t, ht⟩, -⟩ := h
        rw [Resolution.access_setAccess_self] at ht
        cases ht
      · intro h
        obtain ⟨field, hfield⟩ := h
        cases hfield
    | some field =>
      refine ⟨fun _ => ⟨field, rfl⟩, fun _ => ⟨⟨b.resolution.tupleOf? field, ?_⟩, field, ?_⟩⟩
      · exact Resolution.access_setAccess_self _ _ _
      · exact Resolution.linkOf_link_self _ _ _

/-! ## Locations one after the other -/

/-- Using locations reports something exactly if one of them is not found in the end. -/
theorem uses_report_iff (scope : ScopePath) : ∀ (ls : List Loc) (b : Binding),
    (ls.flatMap Loc.nodes).Nodup → b.resolution.Fresh (ls.flatMap Loc.nodes) →
    ∃ found, ((ls.map (.use scope)).foldl after b).diagnostics = b.diagnostics ++ found ∧
      (found ≠ [] ↔ ∃ l ∈ ls, ¬ ((ls.map (.use scope)).foldl after b).resolution.Finds l)
  | [], b, _, _ => ⟨[], (List.append_nil _).symm, fun h => absurd rfl h, fun ⟨_, hl, _⟩ => by cases hl⟩
  | l :: ls, b, hnodup, hfresh => by
    rw [List.flatMap_cons] at hnodup hfresh
    obtain ⟨-, hrest, hdisjoint⟩ := List.nodup_append.1 hnodup
    have hl := hfresh.left
    have hls := (b.evolves_use l).fresh_right hfresh hnodup
    obtain ⟨found, hfound, hiff⟩ := uses_report_iff scope ls (b.afterUse l) hrest hls
    -- what is used later is on other nodes, so that the first location stays as it is
    have hstays : ((ls.map (.use scope)).foldl after (b.afterUse l)).resolution.Finds l ↔
        b.locFaults l = [] := by
      have hevolves := evolves_walk (ls.map (.use scope)) (b.afterUse l)
      rw [List.flatMap_map] at hevolves
      rw [hevolves.finds_iff fun i hil hi => hdisjoint i hil i hi rfl, finds_afterUse_iff hl]
    refine ⟨b.locFaults l ++ found, ?_, ?_⟩
    · rw [List.map_cons, List.foldl_cons]
      exact hfound.trans (List.append_assoc _ _ _)
    · rw [List.map_cons, List.foldl_cons]
      show _ ↔ ∃ l' ∈ l :: ls, ¬ ((ls.map (.use scope)).foldl after (b.afterUse l)).resolution.Finds l'
      simp only [List.mem_cons, exists_eq_or_imp, hstays, ← hiff, ne_eq, List.append_eq_nil_iff,
        Classical.not_and_iff_not_or_not]

end Binding

end BaseLang
