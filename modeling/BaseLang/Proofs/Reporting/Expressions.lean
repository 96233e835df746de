import BaseLang.Proofs.Resolving.Faults
import BaseLang.Proofs.Tree.Marks
import BaseLang.Proofs.Typing.OwnFaults
import Mathlib.Data.List.Perm.Subperm

/-
  What both passes together report of an expression.

  Nested expressions share positions: a sum stands where its left operand stands. Still
  there is no place where more is reported than there are identifiers and literals, because a
  fault in an operand keeps everything around it silent.

    1. `Sparse` — diagnostics that take an identifier or literal each, among given marks;
    2. `Loc.sparse` — so do those of a location that is used for the first time;
    3. `Expr.sparse` — so do those of an expression, by name resolution and the checker
       together, once its locations are settled;
    4. `Expr.sparse_under` — a use of the expression may add one fault at its position.
-/

namespace BaseLang

open scoped List

def TokenKind.isTerm : TokenKind → Bool
  | .identifier | .intLiteral | .stringLiteral | .trueWord | .falseWord => true
  | _ => false

/-- The places of the identifiers and literals among the marks. -/
def placesOf (ms : List Mark) : List Position := (ms.filter fun m => m.1.isTerm).map Prod.snd

@[simp] theorem placesOf_append (ms ms' : List Mark) : placesOf (ms ++ ms') = placesOf ms ++ placesOf ms' := by
  simp [placesOf]

@[simp] theorem placesOf_ident (x : Ident) : placesOf [x.mark] = [x.position] := rfl

@[simp] theorem placesOf_ident_cons (x : Ident) (ms : List Mark) :
    placesOf (x.mark :: ms) = x.position :: placesOf ms := rfl

/-- The diagnostics stand at identifiers and literals among the marks, each at one of its own,
and none of them is about a return. -/
structure Sparse (ds : Diagnostics) (ms : List Mark) : Prop where
  places : ds.places <+~ placesOf ms
  plain : ∀ d ∈ ds, d.kind.IsPlain

namespace Sparse
variable {ds es N T N' T' own : Diagnostics} {ms ms' : List Mark}

theorem nil (ms : List Mark) : Sparse [] ms := ⟨List.nil_subperm, nofun⟩

/-- One diagnostic at one of the marks. -/
theorem one {p : Position} {k : DiagnosticKind} (hp : p ∈ placesOf ms) (hk : k.IsPlain) :
    Sparse [⟨p, k⟩] ms where
  places := List.singleton_subperm_iff.2 hp
  plain d hd := by
    rw [List.mem_singleton.1 hd]
    exact hk

theorem perm (h : Sparse ds ms) (hp : ds.Perm es) : Sparse es ms where
  places := ((hp.map _).subperm_right).1 h.places
  plain d hd := h.plain d (hp.mem_iff.2 hd)

/-- The diagnostics of two parts, those of one pass before those of the other. -/
theorem merge (h : Sparse (N ++ T) ms) (h' : Sparse (N' ++ T') ms') :
    Sparse ((N ++ N') ++ (T ++ T')) (ms ++ ms') := by
  have hboth : Sparse ((N ++ T) ++ (N' ++ T')) (ms ++ ms') := by
    constructor
    · rw [Diagnostics.places, List.map_append, placesOf_append]
      exact h.places.append h'.places
    · intro d hd
      rcases List.mem_append.1 hd with hd | hd
      · exact h.plain d hd
      · exact h'.plain d hd
  apply hboth.perm
  calc (N ++ T) ++ (N' ++ T')
      = N ++ ((T ++ N') ++ T') := by simp only [List.append_assoc]
    _ ~ N ++ ((N' ++ T) ++ T') := (List.perm_append_comm.append_right T').append_left N
    _ = (N ++ N') ++ (T ++ T') := by simp only [List.append_assoc]

theorem left (h : Sparse ds ms) (ms' : List Mark) : Sparse ds (ms ++ ms') where
  places := by
    rw [placesOf_append]
    exact h.places.trans (List.sublist_append_left _ _).subperm
  plain := h.plain

/-- A fault that is added only where nothing else has been reported. -/
theorem add (h : Sparse (N ++ T) ms) (hquiet : own ≠ [] → N = [] ∧ T = [])
    (hown : Sparse own ms) : Sparse (N ++ (T ++ own)) ms := by
  by_cases hnil : own = []
  · rw [hnil, List.append_nil]
    exact h
  · obtain ⟨rfl, rfl⟩ := hquiet hnil
    exact hown

end Sparse

/-- What a modest rule adds is sparse where its operands stand. -/
theorem Typing.Modest.sparse {types : List Ty} {positions : List Position} {own : Diagnostics}
    {ms : List Mark} (h : Modest types positions own) (hms : positions <+~ placesOf ms) : Sparse own ms where
  places := h.placed.subperm.trans hms
  plain := h.plain

/-- A first operand and others, with a rule that is modest about them: it adds something only where
nothing has been reported of either part. -/
theorem Sparse.operands {N N' T T' own : Diagnostics} {ms ms' : List Mark} {type : Ty} {types : List Ty}
    {positions : List Position} (h : Sparse (N ++ T) ms) (h' : Sparse (N' ++ T') ms')
    (hquiet : type ≠ .error → N = [] ∧ T = []) (hquiet' : .error ∉ types → N' = [] ∧ T' = [])
    (hown : Typing.Modest (type :: types) positions own) (hms : positions <+~ placesOf (ms ++ ms')) :
    Sparse ((N ++ N') ++ ((T ++ T') ++ own)) (ms ++ ms') := by
  refine (h.merge h').add (fun hsaid => ?_) (hown.sparse hms)
  have herror := mt hown.silent hsaid
  rw [List.mem_cons, not_or] at herror
  obtain ⟨rfl, rfl⟩ := hquiet (Ne.symm herror.1)
  obtain ⟨rfl, rfl⟩ := hquiet' herror.2
  exact ⟨rfl, rfl⟩

/-! ## Locations -/

theorem Loc.position_mem (l : Loc) : l.position ∈ placesOf l.marks := by
  cases l with
  | ident x => simp [marks, position]
  | access id base f => simp [marks, position]

namespace Binding
variable {b : Binding}

/-- The faults after a colon: at most one, and none if the location leads nowhere. -/
theorem colon_field_sparse (l : Loc) (f : Ident) :
    Sparse (b.colonFaults l ++ b.fieldFaults l f) (l.marks ++ [f.mark]) := by
  have hl : l.position ∈ placesOf (l.marks ++ [f.mark]) := by simp [l.position_mem]
  have hf : f.position ∈ placesOf (l.marks ++ [f.mark]) := by simp
  rw [colonFaults, fieldFaults]
  cases b.symbolAt? l with
  | none => exact .nil _
  | some id =>
    dsimp only [Option.bind_some]
    cases b.resolution.tupleOf? id with
    | none => exact .one hl (by decide)
    | some definition =>
      dsimp only
      cases b.resolution.fieldOf? definition f.name with
      | none => exact .one hf (by decide)
      | some _ => exact .nil _

/-- After a base with a fault nothing more is said. -/
theorem colon_field_silent {l : Loc} (hfresh : b.resolution.Fresh l.nodes) (h : b.locFaults l ≠ [])
    (f : Ident) : b.colonFaults l ++ b.fieldFaults l f = [] := by
  have hnone : b.symbolAt? l = none := by
    rw [ne_eq, locFaults_eq_nil_iff hfresh] at h
    exact Option.eq_none_iff_forall_not_mem.2 fun i hi => h ⟨i, hi⟩
  rw [colonFaults, fieldFaults, hnone]
  rfl

end Binding

/-- The faults of a location that has not been linked: where its base has one, nothing more
is said. -/
theorem Loc.sparse {b : Binding} : ∀ {l : Loc}, b.resolution.Fresh l.nodes → Sparse (b.locFaults l) l.marks
  | .ident x, _ => by
    rw [Binding.locFaults, Loc.marks]
    split
    · exact .one (by simp) (by decide)
    · exact .nil _
  | .access id l f, hfresh => by
    have hbase := sparse (l := l) hfresh.left
    rw [Binding.locFaults, Loc.marks]
    by_cases hnil : b.locFaults l = []
    · rw [hnil]
      exact Binding.colon_field_sparse l f
    · rw [Binding.colon_field_silent hfresh.left hnil, List.append_nil]
      exact hbase.left _

/-! ## Expressions -/

theorem Expr.position_mem : ∀ e : Expr, e.position ∈ placesOf e.marks
  | .loc l => l.position_mem
  | .assign l v => by
    rw [Expr.marks, placesOf_append]
    exact List.mem_append_left _ l.position_mem
  | .unary _ v => position_mem v
  | .binary _ v w => by
    rw [Expr.marks, placesOf_append]
    exact List.mem_append_left _ (position_mem v)
  | .logical true _ | .logical false _ | .int _ _ | .string _ _ | .call _ _ => List.mem_cons_self

theorem Expr.positions_subperm (es : List Expr) : es.map Expr.position <+~ placesOf (Expr.marksOfAll es) := by
  induction es with
  | nil => exact List.nil_subperm
  | cons e es ih =>
    rw [Expr.marksOfAll, placesOf_append]
    exact (List.singleton_subperm_iff.2 e.position_mem).append ih

theorem Typing.positionsOf_zip_exprTypes (r : Resolution) (es : List Expr) :
    positionsOf (es.zip (exprTypes r es)) = es.map Expr.position := by
  have hfst := List.map_fst_zip (Nat.le_of_eq (length_exprTypes r es).symm)
  calc positionsOf (es.zip (exprTypes r es))
      = ((es.zip (exprTypes r es)).map Prod.fst).map Expr.position := by rw [List.map_map]; rfl
    _ = es.map Expr.position := by rw [hfst]

/-- Nothing is found in expressions none of which has the type `error`. -/
theorem Settles.quiet_all {r : Resolution} (hr : r.Sound) {scope : ScopePath} {b : Binding}
    {es : List Expr} (h : Settles r b ((Expr.placesOfAll es).map (.use scope)))
    (hne : .error ∉ Typing.exprTypes r es) :
    b.found ((Expr.placesOfAll es).map (.use scope)) = [] ∧ Typing.exprsFaults r es = [] := by
  rw [Typing.error_mem_exprTypes_iff hr, not_or, ne_eq, Classical.not_not] at hne
  refine ⟨found_eq_nil scope h fun l hl herror => ?_, hne.2⟩
  exact hne.1 ⟨l, hl, herror⟩

section Expressions
variable {r : Resolution} (scope : ScopePath)

mutual

/-- What both passes report of an expression whose locations are settled. -/
theorem Expr.sparse (hr : r.Sound) : ∀ {e : Expr} {b : Binding}, Settles r b (e.steps scope) →
    Sparse (b.found (e.steps scope) ++ Typing.exprFaults r e) e.marks
  | .logical _ _, _, _ | .int _ _, _, _ | .string _ _, _, _ => .nil _
  | .loc l, b, h => by
    show Sparse ((b.locFaults l ++ []) ++ []) l.marks
    rw [List.append_nil, List.append_nil]
    exact Loc.sparse h.1.1
  | .assign l v, b, h => by
    have hl : Sparse (b.locFaults l ++ []) l.marks := by
      rw [List.append_nil]
      exact Loc.sparse h.1.1
    have hv := Expr.sparse hr (e := v) h.2
    refine hl.operands hv (fun hne => ⟨h.1.2.2 hne, rfl⟩) (fun hne => ?_)
      (Typing.assign_modest l (Typing.locType r l) (Typing.exprType r v)) ?_
    · exact Settles.quiet hr h.2 (Ne.symm (mt List.mem_singleton.2 hne))
    · rw [placesOf_append]
      exact List.singleton_subperm_iff.2 (List.mem_append_left _ l.position_mem)
  | .call f args, b, h => by
    have hf : Sparse (b.locFaults (.ident f) ++ []) [f.mark] := by
      rw [List.append_nil]
      exact Loc.sparse h.1.1
    have hargs := Expr.sparse_all hr h.2
    rcases Typing.call_modest hr f (args.zip (Typing.exprTypes r args)) with hmodest | ⟨hne, hown⟩
    · rw [Typing.map_snd_zip_exprTypes, Typing.positionsOf_zip_exprTypes] at hmodest
      exact hf.operands hargs (fun hne => ⟨h.1.2.2 hne, rfl⟩) (Settles.quiet_all hr h.2) hmodest
        ((List.subperm_cons f.position).2 (Expr.positions_subperm args))
    · -- the callee has been found, so that the place of its name is still free
      have hcallee : b.locFaults (.ident f) = [] := h.1.2.2 hne
      have hname : Sparse ([] ++ [⟨f.position, .callNonFunction⟩]) [f.mark] :=
        .one (by simp) (by decide)
      apply (hname.merge hargs).perm
      show _ ~ (b.locFaults (.ident f) ++ _) ++
        (Typing.exprsFaults r args ++ (Typing.call r f (args.zip (Typing.exprTypes r args))).2)
      rw [hcallee, hown]
      exact List.perm_append_comm.append_left _
  | .unary op v, b, h => by
    have hv := Expr.sparse hr (e := v) h
    have hmodest := Typing.unary_modest op (v, Typing.exprType r v)
    refine hv.add (fun hown => ?_) (hmodest.sparse (List.singleton_subperm_iff.2 v.position_mem))
    have herror := mt hmodest.silent hown
    rw [List.mem_singleton] at herror
    exact Settles.quiet hr h (Ne.symm herror)
  | .binary op v w, b, h => by
    have hsteps : (Expr.binary op v w).steps scope = v.steps scope ++ w.steps scope := by
      rw [Expr.steps, Expr.places, List.map_append]
      rfl
    rw [hsteps] at h ⊢
    obtain ⟨hvs, hws⟩ := h.of_append
    have hv := Expr.sparse hr (e := v) hvs
    have hw := Expr.sparse hr (e := w) hws
    rw [Binding.found_append]
    refine hv.operands hw (Settles.quiet hr hvs) (fun hne => ?_)
      (Typing.binary_modest op (v, Typing.exprType r v) (w, Typing.exprType r w)) ?_
    · exact Settles.quiet hr hws (Ne.symm (mt List.mem_singleton.2 hne))
    · rw [placesOf_append]
      exact (List.singleton_subperm_iff.2 v.position_mem).append
        (List.singleton_subperm_iff.2 w.position_mem)

theorem Expr.sparse_all (hr : r.Sound) : ∀ {es : List Expr} {b : Binding},
    Settles r b ((Expr.placesOfAll es).map (.use scope)) →
    Sparse (b.found ((Expr.placesOfAll es).map (.use scope)) ++ Typing.exprsFaults r es)
      (Expr.marksOfAll es)
  | [], _, _ => .nil _
  | e :: es, b, h => by
    rw [Expr.placesOfAll, List.map_append] at h ⊢
    obtain ⟨he, hes⟩ := h.of_append
    have hfirst := Expr.sparse hr (e := e) he
    have hrest := Expr.sparse_all hr hes
    rw [Binding.found_append]
    exact hfirst.merge hrest

end

/-- A use of an expression that reports something about it only if it has a type. -/
theorem Expr.sparse_under (hr : r.Sound) {e : Expr} {b : Binding} {own : Diagnostics}
    (h : Settles r b (e.steps scope)) (hown : Typing.Modest [Typing.exprType r e] [e.position] own) :
    Sparse (b.found (e.steps scope) ++ (Typing.exprFaults r e ++ own)) e.marks := by
  refine (Expr.sparse scope hr h).add (fun hne => ?_)
    (hown.sparse (List.singleton_subperm_iff.2 e.position_mem))
  have herror := mt hown.silent hne
  rw [List.mem_singleton] at herror
  exact Settles.quiet hr h (Ne.symm herror)

end Expressions

end BaseLang
