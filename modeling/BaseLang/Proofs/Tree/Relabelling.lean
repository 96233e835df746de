import BaseLang.Tree.Views

/-
  Trees of one shape.

  A relabelling changes what the nodes of a tree carry — names, numbers and
  positions — and leaves the shape. Two of them are of interest:

    1. `erase` forgets numbers and positions: what is left is what the text says.
    2. `unplaced` forgets positions only.

  A tree is determined by its erasure and the numbers of its nodes, up to positions
  (`Program.unplaced_congr`).
-/

namespace BaseLang

/-- A change of what the nodes of a tree carry. -/
structure Relabelling where
  ident : Ident → Ident
  access : NodeId → NodeId
  position : Position → Position

namespace Relabelling

/-- Forgets numbers and positions. -/
def erasing : Relabelling where
  ident x := ⟨0, x.name, .nowhere⟩
  access _ := 0
  position _ := .nowhere

/-- Forgets positions. -/
def unplacing : Relabelling where
  ident x := ⟨x.id, x.name, .nowhere⟩
  access id := id
  position _ := .nowhere

end Relabelling

section Relabel
variable (r : Relabelling)

def Loc.relabel : Loc → Loc
  | .ident x => .ident (r.ident x)
  | .access id base field => .access (r.access id) base.relabel (r.ident field)

def TypeName.relabel : TypeName → TypeName
  | .tuple x => .tuple (r.ident x)
  | t => t

def VarDecl.relabel (d : VarDecl) : VarDecl := ⟨d.type.relabel r, r.ident d.name⟩

mutual

def Expr.relabel : Expr → Expr
  | .logical v p => .logical v (r.position p)
  | .int v p => .int v (r.position p)
  | .string t p => .string t (r.position p)
  | .loc l => .loc (l.relabel r)
  | .assign l v => .assign (l.relabel r) v.relabel
  | .call f args => .call (r.ident f) (Expr.relabelAll args)
  | .unary op v => .unary op v.relabel
  | .binary op v w => .binary op v.relabel w.relabel

def Expr.relabelAll : List Expr → List Expr
  | [] => []
  | e :: es => e.relabel :: Expr.relabelAll es

end

mutual

def Stmt.relabel : Stmt → Stmt
  | .assign l v => .assign (l.relabel r) (v.relabel r)
  | .increment l => .increment (l.relabel r)
  | .decrement l => .decrement (l.relabel r)
  | .ifThen c b => .ifThen (c.relabel r) b.relabel
  | .ifElse c b b' => .ifElse (c.relabel r) b.relabel b'.relabel
  | .whileDo c b => .whileDo (c.relabel r) b.relabel
  | .read l => .read (l.relabel r)
  | .write v => .write (v.relabel r)
  | .call f args => .call (r.ident f) (Expr.relabelAll r args)
  | .ret v p => .ret (v.map (Expr.relabel r)) (r.position p)

def Block.relabel : Block → Block
  | .mk ds ss => .mk (ds.map (VarDecl.relabel r)) (Stmt.relabelAll ss)

def Stmt.relabelAll : List Stmt → List Stmt
  | [] => []
  | s :: ss => s.relabel :: Stmt.relabelAll ss

end

def FunctionDecl.relabel (d : FunctionDecl) : FunctionDecl :=
  ⟨d.result.relabel r, r.ident d.name, d.formals.map (VarDecl.relabel r), d.body.relabel r⟩

def TupleDecl.relabel (d : TupleDecl) : TupleDecl :=
  ⟨r.ident d.name, d.fields.map (VarDecl.relabel r)⟩

def Decl.relabel : Decl → Decl
  | .var d => .var (d.relabel r)
  | .function d => .function (d.relabel r)
  | .tuple d => .tuple (d.relabel r)

def Program.relabel (p : Program) : Program := ⟨p.decls.map (Decl.relabel r)⟩

end Relabel

theorem Expr.relabelAll_eq_map (r : Relabelling) (es : List Expr) :
    Expr.relabelAll r es = es.map (Expr.relabel r) := by
  induction es with
  | nil => rfl
  | cons e es ih => rw [Expr.relabelAll, ih, List.map_cons]

theorem Stmt.relabelAll_eq_map (r : Relabelling) (ss : List Stmt) :
    Stmt.relabelAll r ss = ss.map (Stmt.relabel r) := by
  induction ss with
  | nil => rfl
  | cons s ss ih => rw [Stmt.relabelAll, ih, List.map_cons]

/-- The program without numbers and positions. -/
def Program.erase (p : Program) : Program := p.relabel .erasing

def Program.unplaced (p : Program) : Program := p.relabel .unplacing

/-! ## The numbers of a tree -/

/-- The numbers of a location: an access comes after its base and before its field. -/
def Loc.nodes : Loc → List NodeId
  | .ident x => [x.id]
  | .access id base field => base.nodes ++ [id, field.id]

def TypeName.nodes (t : TypeName) : List NodeId := t.idents.map Ident.id

def VarDecl.nodes (d : VarDecl) : List NodeId := d.type.nodes ++ [d.name.id]

mutual

/-- The numbers of an expression, in the order of its tokens. -/
def Expr.nodes : Expr → List NodeId
  | .logical _ _ | .int _ _ | .string _ _ => []
  | .loc l => l.nodes
  | .assign l v => l.nodes ++ v.nodes
  | .call f args => f.id :: Expr.nodesOfAll args
  | .unary _ v => v.nodes
  | .binary _ v w => v.nodes ++ w.nodes

def Expr.nodesOfAll : List Expr → List NodeId
  | [] => []
  | e :: es => e.nodes ++ Expr.nodesOfAll es

end

mutual

def Stmt.nodes : Stmt → List NodeId
  | .assign l v => l.nodes ++ v.nodes
  | .increment l | .decrement l | .read l => l.nodes
  | .ifThen c b | .whileDo c b => c.nodes ++ b.nodes
  | .ifElse c b b' => c.nodes ++ (b.nodes ++ b'.nodes)
  | .write v => v.nodes
  | .call f args => f.id :: Expr.nodesOfAll args
  | .ret none _ => []
  | .ret (some v) _ => v.nodes

def Block.nodes : Block → List NodeId
  | .mk ds ss => ds.flatMap VarDecl.nodes ++ Stmt.nodesOfAll ss

def Stmt.nodesOfAll : List Stmt → List NodeId
  | [] => []
  | s :: ss => s.nodes ++ Stmt.nodesOfAll ss

end

def Decl.nodes : Decl → List NodeId
  | .var d => d.nodes
  | .function d => d.result.nodes ++ (d.name.id :: (d.formals.flatMap VarDecl.nodes ++ d.body.nodes))
  | .tuple d => d.name.id :: d.fields.flatMap VarDecl.nodes

def Program.nodes (p : Program) : List NodeId := p.decls.flatMap Decl.nodes

/-! ## Relabelling keeps the number of nodes -/

section Count
variable (r : Relabelling)

theorem Loc.length_nodes_relabel : ∀ l : Loc, (l.relabel r).nodes.length = l.nodes.length
  | .ident _ => rfl
  | .access _ base _ => by
    simp only [Loc.relabel, Loc.nodes, List.length_append, length_nodes_relabel base,
      List.length_cons, List.length_nil]

theorem TypeName.length_nodes_relabel (t : TypeName) : (t.relabel r).nodes.length = t.nodes.length := by
  cases t <;> rfl

theorem VarDecl.length_nodes_relabel (d : VarDecl) : (d.relabel r).nodes.length = d.nodes.length := by
  simp only [VarDecl.relabel, VarDecl.nodes, List.length_append, d.type.length_nodes_relabel,
    List.length_cons, List.length_nil]

theorem length_nodes_varDecls : ∀ ds : List VarDecl,
    ((ds.map (VarDecl.relabel r)).flatMap VarDecl.nodes).length = (ds.flatMap VarDecl.nodes).length
  | [] => rfl
  | d :: ds => by
    simp only [List.map_cons, List.flatMap_cons, List.length_append, d.length_nodes_relabel,
      length_nodes_varDecls ds]

mutual

theorem Expr.length_nodes_relabel : ∀ e : Expr, (e.relabel r).nodes.length = e.nodes.length
  | .logical _ _ | .int _ _ | .string _ _ => rfl
  | .loc l => l.length_nodes_relabel r
  | .assign l v => by
    simp only [Expr.relabel, Expr.nodes, List.length_append, l.length_nodes_relabel,
      v.length_nodes_relabel]
  | .call f args => by
    simp only [Expr.relabel, Expr.nodes, List.length_cons, Expr.length_nodes_relabelAll args]
  | .unary _ v => v.length_nodes_relabel
  | .binary _ v w => by
    simp only [Expr.relabel, Expr.nodes, List.length_append, v.length_nodes_relabel,
      w.length_nodes_relabel]

theorem Expr.length_nodes_relabelAll : ∀ es : List Expr,
    (Expr.nodesOfAll (Expr.relabelAll r es)).length = (Expr.nodesOfAll es).length
  | [] => rfl
  | e :: es => by
    simp only [Expr.relabelAll, Expr.nodesOfAll, List.length_append, e.length_nodes_relabel,
      Expr.length_nodes_relabelAll es]

end

mutual

theorem Stmt.length_nodes_relabel : ∀ s : Stmt, (s.relabel r).nodes.length = s.nodes.length
  | .assign l v => by
    simp only [Stmt.relabel, Stmt.nodes, List.length_append, l.length_nodes_relabel,
      v.length_nodes_relabel]
  | .increment l | .decrement l | .read l => l.length_nodes_relabel r
  | .ifThen c b | .whileDo c b => by
    simp only [Stmt.relabel, Stmt.nodes, List.length_append, c.length_nodes_relabel,
      b.length_nodes_relabel]
  | .ifElse c b b' => by
    simp only [Stmt.relabel, Stmt.nodes, List.length_append, c.length_nodes_relabel,
      b.length_nodes_relabel, b'.length_nodes_relabel]
  | .write v => v.length_nodes_relabel r
  | .call f args => by
    simp only [Stmt.relabel, Stmt.nodes, List.length_cons, Expr.length_nodes_relabelAll]
  | .ret none _ => rfl
  | .ret (some v) _ => v.length_nodes_relabel r

theorem Block.length_nodes_relabel : ∀ b : Block, (b.relabel r).nodes.length = b.nodes.length
  | .mk ds ss => by
    simp only [Block.relabel, Block.nodes, List.length_append, length_nodes_varDecls,
      Stmt.length_nodes_relabelAll ss]

theorem Stmt.length_nodes_relabelAll : ∀ ss : List Stmt,
    (Stmt.nodesOfAll (Stmt.relabelAll r ss)).length = (Stmt.nodesOfAll ss).length
  | [] => rfl
  | s :: ss => by
    simp only [Stmt.relabelAll, Stmt.nodesOfAll, List.length_append, s.length_nodes_relabel,
      Stmt.length_nodes_relabelAll ss]

end

theorem Decl.length_nodes_relabel : ∀ d : Decl, (d.relabel r).nodes.length = d.nodes.length
  | .var d => d.length_nodes_relabel r
  | .function d => by
    simp only [Decl.relabel, FunctionDecl.relabel, Decl.nodes, List.length_append, List.length_cons,
      TypeName.length_nodes_relabel, length_nodes_varDecls, Block.length_nodes_relabel]
  | .tuple d => by
    simp only [Decl.relabel, TupleDecl.relabel, Decl.nodes, List.length_cons, length_nodes_varDecls]

theorem Program.length_nodes_relabel (p : Program) : (p.relabel r).nodes.length = p.nodes.length := by
  obtain ⟨ds⟩ := p
  show ((ds.map (Decl.relabel r)).flatMap Decl.nodes).length = (ds.flatMap Decl.nodes).length
  induction ds with
  | nil => rfl
  | cons d ds ih =>
    simp only [List.map_cons, List.flatMap_cons, List.length_append, d.length_nodes_relabel, ih]

end Count

/-! ## Shape and numbers determine a tree up to positions -/

section Lengths
variable {r : Relabelling}

theorem Loc.length_nodes_congr {l l' : Loc} (h : l.relabel r = l'.relabel r) :
    l.nodes.length = l'.nodes.length := by
  rw [← l.length_nodes_relabel r, h, l'.length_nodes_relabel r]

theorem TypeName.length_nodes_congr {t t' : TypeName} (h : t.relabel r = t'.relabel r) :
    t.nodes.length = t'.nodes.length := by
  rw [← t.length_nodes_relabel r, h, t'.length_nodes_relabel r]

theorem VarDecl.length_nodes_congr {d d' : VarDecl} (h : d.relabel r = d'.relabel r) :
    d.nodes.length = d'.nodes.length := by
  rw [← d.length_nodes_relabel r, h, d'.length_nodes_relabel r]

theorem length_nodes_congr_varDecls {ds ds' : List VarDecl}
    (h : ds.map (VarDecl.relabel r) = ds'.map (VarDecl.relabel r)) :
    (ds.flatMap VarDecl.nodes).length = (ds'.flatMap VarDecl.nodes).length := by
  rw [← length_nodes_varDecls r, h, length_nodes_varDecls r]

theorem Expr.length_nodes_congr {e e' : Expr} (h : e.relabel r = e'.relabel r) :
    e.nodes.length = e'.nodes.length := by
  rw [← e.length_nodes_relabel r, h, e'.length_nodes_relabel r]

theorem Stmt.length_nodes_congr {s s' : Stmt} (h : s.relabel r = s'.relabel r) :
    s.nodes.length = s'.nodes.length := by
  rw [← s.length_nodes_relabel r, h, s'.length_nodes_relabel r]

theorem Block.length_nodes_congr {b b' : Block} (h : b.relabel r = b'.relabel r) :
    b.nodes.length = b'.nodes.length := by
  rw [← b.length_nodes_relabel r, h, b'.length_nodes_relabel r]

theorem Decl.length_nodes_congr {d d' : Decl} (h : d.relabel r = d'.relabel r) :
    d.nodes.length = d'.nodes.length := by
  rw [← d.length_nodes_relabel r, h, d'.length_nodes_relabel r]

end Lengths

theorem Ident.unplaced_congr {x y : Ident}
    (h : Relabelling.erasing.ident x = Relabelling.erasing.ident y) (hn : x.id = y.id) :
    Relabelling.unplacing.ident x = Relabelling.unplacing.ident y := by
  have hname : x.name = y.name := by simpa [Relabelling.erasing] using h
  simp only [Relabelling.unplacing, hn, hname]

theorem Loc.unplaced_congr : ∀ {l l' : Loc}, l.relabel .erasing = l'.relabel .erasing →
    l.nodes = l'.nodes → l.relabel .unplacing = l'.relabel .unplacing
  | .ident x, .ident y, h, hn => by
    simp only [Loc.relabel, Loc.ident.injEq] at h
    simp only [Loc.nodes, List.cons.injEq, and_true] at hn
    rw [Loc.relabel, Loc.relabel, Ident.unplaced_congr h hn]
  | .access id base field, .access id' base' field', h, hn => by
    simp only [Loc.relabel, Loc.access.injEq] at h
    obtain ⟨_, hb, hf⟩ := h
    obtain ⟨hnb, hnf⟩ := List.append_inj hn (length_nodes_congr hb)
    simp only [List.cons.injEq, and_true] at hnf
    rw [Loc.relabel, Loc.relabel, unplaced_congr hb hnb, Ident.unplaced_congr hf hnf.2,
      show Relabelling.unplacing.access id = Relabelling.unplacing.access id' from hnf.1]
  | .ident _, .access _ _ _, h, _ => nomatch h
  | .access _ _ _, .ident _, h, _ => nomatch h

theorem TypeName.unplaced_congr {t t' : TypeName} (h : t.relabel .erasing = t'.relabel .erasing)
    (hn : t.nodes = t'.nodes) : t.relabel .unplacing = t'.relabel .unplacing := by
  cases t <;> cases t' <;> try cases h
  · rfl
  · rfl
  · rfl
  · next x y =>
    simp only [TypeName.relabel, TypeName.tuple.injEq] at h
    simp only [TypeName.nodes, TypeName.idents, List.map_cons, List.map_nil, List.cons.injEq,
      and_true] at hn
    rw [TypeName.relabel, TypeName.relabel, Ident.unplaced_congr h hn]

theorem VarDecl.unplaced_congr {d d' : VarDecl} (h : d.relabel .erasing = d'.relabel .erasing)
    (hn : d.nodes = d'.nodes) : d.relabel .unplacing = d'.relabel .unplacing := by
  obtain ⟨type, name⟩ := d
  obtain ⟨type', name'⟩ := d'
  simp only [VarDecl.relabel, VarDecl.mk.injEq] at h
  obtain ⟨ht, hx⟩ := h
  have hlen : [name.id].length = [name'.id].length := rfl
  obtain ⟨hnt, hnx⟩ := List.append_inj' hn hlen
  simp only [List.cons.injEq, and_true] at hnx
  rw [VarDecl.relabel, VarDecl.relabel, TypeName.unplaced_congr ht hnt, Ident.unplaced_congr hx hnx]

theorem unplaced_congr_varDecls : ∀ {ds ds' : List VarDecl},
    ds.map (VarDecl.relabel .erasing) = ds'.map (VarDecl.relabel .erasing) →
    ds.flatMap VarDecl.nodes = ds'.flatMap VarDecl.nodes →
    ds.map (VarDecl.relabel .unplacing) = ds'.map (VarDecl.relabel .unplacing)
  | [], [], _, _ => rfl
  | d :: ds, d' :: ds', h, hn => by
    simp only [List.map_cons, List.cons.injEq] at h
    obtain ⟨hnd, hnds⟩ := List.append_inj hn (VarDecl.length_nodes_congr h.1)
    rw [List.map_cons, List.map_cons, VarDecl.unplaced_congr h.1 hnd, unplaced_congr_varDecls h.2 hnds]
  | [], _ :: _, h, _ => nomatch h
  | _ :: _, [], h, _ => nomatch h

mutual

theorem Expr.unplaced_congr : ∀ {e e' : Expr}, e.relabel .erasing = e'.relabel .erasing →
    e.nodes = e'.nodes → e.relabel .unplacing = e'.relabel .unplacing
  | .logical _ _, e', h, _ => by
    cases e' <;> simp_all [Expr.relabel, Relabelling.unplacing]
  | .int _ _, e', h, _ => by
    cases e' <;> simp_all [Expr.relabel, Relabelling.unplacing]
  | .string _ _, e', h, _ => by
    cases e' <;> simp_all [Expr.relabel, Relabelling.unplacing]
  | .loc l, e', h, hn => by
    cases e' <;> simp only [Expr.relabel, Expr.loc.injEq, reduceCtorEq] at h
    rw [Expr.relabel, Expr.relabel, Loc.unplaced_congr h hn]
  | .assign l v, e', h, hn => by
    cases e' <;> simp only [Expr.relabel, Expr.assign.injEq, reduceCtorEq] at h
    obtain ⟨hl, hv⟩ := h
    obtain ⟨hnl, hnv⟩ := List.append_inj hn (Loc.length_nodes_congr hl)
    rw [Expr.relabel, Expr.relabel, Loc.unplaced_congr hl hnl, v.unplaced_congr hv hnv]
  | .call f args, e', h, hn => by
    cases e' <;> simp only [Expr.relabel, Expr.call.injEq, reduceCtorEq] at h
    simp only [Expr.nodes, List.cons.injEq] at hn
    rw [Expr.relabel, Expr.relabel, Ident.unplaced_congr h.1 hn.1, Expr.unplaced_congrAll h.2 hn.2]
  | .unary op v, e', h, hn => by
    cases e' <;> simp only [Expr.relabel, Expr.unary.injEq, reduceCtorEq] at h
    rw [Expr.relabel, Expr.relabel, h.1, v.unplaced_congr h.2 hn]
  | .binary op v w, e', h, hn => by
    cases e' <;> simp only [Expr.relabel, Expr.binary.injEq, reduceCtorEq] at h
    obtain ⟨rfl, hv, hw⟩ := h
    obtain ⟨hnv, hnw⟩ := List.append_inj hn (Expr.length_nodes_congr hv)
    rw [Expr.relabel, Expr.relabel, v.unplaced_congr hv hnv, w.unplaced_congr hw hnw]

theorem Expr.unplaced_congrAll : ∀ {es es' : List Expr},
    Expr.relabelAll .erasing es = Expr.relabelAll .erasing es' →
    Expr.nodesOfAll es = Expr.nodesOfAll es' →
    Expr.relabelAll .unplacing es = Expr.relabelAll .unplacing es'
  | [], es', h, _ => by cases es' <;> simp_all [Expr.relabelAll]
  | e :: es, es', h, hn => by
    cases es' <;> simp only [Expr.relabelAll, List.cons.injEq, reduceCtorEq] at h
    obtain ⟨he, hes⟩ := h
    obtain ⟨hne, hnes⟩ := List.append_inj hn (Expr.length_nodes_congr he)
    rw [Expr.relabelAll, Expr.relabelAll, e.unplaced_congr he hne, Expr.unplaced_congrAll hes hnes]

end

mutual

theorem Stmt.unplaced_congr : ∀ {s s' : Stmt}, s.relabel .erasing = s'.relabel .erasing →
    s.nodes = s'.nodes → s.relabel .unplacing = s'.relabel .unplacing
  | .assign l v, s', h, hn => by
    cases s' <;> simp only [Stmt.relabel, Stmt.assign.injEq, reduceCtorEq] at h
    obtain ⟨hl, hv⟩ := h
    obtain ⟨hnl, hnv⟩ := List.append_inj hn (Loc.length_nodes_congr hl)
    rw [Stmt.relabel, Stmt.relabel, Loc.unplaced_congr hl hnl, Expr.unplaced_congr hv hnv]
  | .increment l, s', h, hn => by
    cases s' <;> simp only [Stmt.relabel, Stmt.increment.injEq, reduceCtorEq] at h
    rw [Stmt.relabel, Stmt.relabel, Loc.unplaced_congr h hn]
  | .decrement l, s', h, hn => by
    cases s' <;> simp only [Stmt.relabel, Stmt.decrement.injEq, reduceCtorEq] at h
    rw [Stmt.relabel, Stmt.relabel, Loc.unplaced_congr h hn]
  | .ifThen c b, s', h, hn => by
    cases s' <;> simp only [Stmt.relabel, Stmt.ifThen.injEq, reduceCtorEq] at h
    obtain ⟨hc, hb⟩ := h
    obtain ⟨hnc, hnb⟩ := List.append_inj hn (Expr.length_nodes_congr hc)
    rw [Stmt.relabel, Stmt.relabel, Expr.unplaced_congr hc hnc, b.unplaced_congr hb hnb]
  | .ifElse c b b₂, s', h, hn => by
    cases s' <;> simp only [Stmt.relabel, Stmt.ifElse.injEq, reduceCtorEq] at h
    obtain ⟨hc, hb, hb₂⟩ := h
    obtain ⟨hnc, hn⟩ := List.append_inj hn (Expr.length_nodes_congr hc)
    obtain ⟨hnb, hnb₂⟩ := List.append_inj hn (Block.length_nodes_congr hb)
    rw [Stmt.relabel, Stmt.relabel, Expr.unplaced_congr hc hnc, b.unplaced_congr hb hnb,
      b₂.unplaced_congr hb₂ hnb₂]
  | .whileDo c b, s', h, hn => by
    cases s' <;> simp only [Stmt.relabel, Stmt.whileDo.injEq, reduceCtorEq] at h
    obtain ⟨hc, hb⟩ := h
    obtain ⟨hnc, hnb⟩ := List.append_inj hn (Expr.length_nodes_congr hc)
    rw [Stmt.relabel, Stmt.relabel, Expr.unplaced_congr hc hnc, b.unplaced_congr hb hnb]
  | .read l, s', h, hn => by
    cases s' <;> simp only [Stmt.relabel, Stmt.read.injEq, reduceCtorEq] at h
    rw [Stmt.relabel, Stmt.relabel, Loc.unplaced_congr h hn]
  | .write v, s', h, hn => by
    cases s' <;> simp only [Stmt.relabel, Stmt.write.injEq, reduceCtorEq] at h
    rw [Stmt.relabel, Stmt.relabel, Expr.unplaced_congr h hn]
  | .call f args, s', h, hn => by
    cases s' <;> simp only [Stmt.relabel, Stmt.call.injEq, reduceCtorEq] at h
    simp only [Stmt.nodes, List.cons.injEq] at hn
    rw [Stmt.relabel, Stmt.relabel, Ident.unplaced_congr h.1 hn.1, Expr.unplaced_congrAll h.2 hn.2]
  | .ret none _, s', h, _ => by
    cases s' with
    | ret value _ => cases value <;> simp_all [Stmt.relabel, Relabelling.unplacing]
    | _ => cases h
  | .ret (some v) _, s', h, hn => by
    cases s' with
    | ret value _ =>
      cases value with
      | none => cases h
      | some v' =>
        simp only [Stmt.relabel, Option.map_some, Stmt.ret.injEq, Option.some.injEq] at h
        rw [Stmt.relabel, Stmt.relabel, Option.map_some, Option.map_some, Expr.unplaced_congr h.1 hn]
        rfl
    | _ => cases h

theorem Block.unplaced_congr : ∀ {b b' : Block}, b.relabel .erasing = b'.relabel .erasing →
    b.nodes = b'.nodes → b.relabel .unplacing = b'.relabel .unplacing
  | .mk ds ss, .mk ds' ss', h, hn => by
    simp only [Block.relabel, Block.mk.injEq] at h
    obtain ⟨hnd, hns⟩ := List.append_inj hn (length_nodes_congr_varDecls h.1)
    rw [Block.relabel, Block.relabel, unplaced_congr_varDecls h.1 hnd, Stmt.unplaced_congrAll h.2 hns]

theorem Stmt.unplaced_congrAll : ∀ {ss ss' : List Stmt},
    Stmt.relabelAll .erasing ss = Stmt.relabelAll .erasing ss' →
    Stmt.nodesOfAll ss = Stmt.nodesOfAll ss' →
    Stmt.relabelAll .unplacing ss = Stmt.relabelAll .unplacing ss'
  | [], ss', h, _ => by cases ss' <;> simp_all [Stmt.relabelAll]
  | s :: ss, ss', h, hn => by
    cases ss' <;> simp only [Stmt.relabelAll, List.cons.injEq, reduceCtorEq] at h
    obtain ⟨hs, hss⟩ := h
    obtain ⟨hns, hnss⟩ := List.append_inj hn (Stmt.length_nodes_congr hs)
    rw [Stmt.relabelAll, Stmt.relabelAll, s.unplaced_congr hs hns, Stmt.unplaced_congrAll hss hnss]

end

theorem Decl.unplaced_congr {d d' : Decl} (h : d.relabel .erasing = d'.relabel .erasing)
    (hn : d.nodes = d'.nodes) : d.relabel .unplacing = d'.relabel .unplacing := by
  cases d with
  | var d =>
    cases d' <;> simp only [Decl.relabel, Decl.var.injEq, reduceCtorEq] at h
    rw [Decl.relabel, Decl.relabel, VarDecl.unplaced_congr h hn]
  | function d =>
    cases d' <;> simp only [Decl.relabel, Decl.function.injEq, reduceCtorEq] at h
    simp only [FunctionDecl.relabel, FunctionDecl.mk.injEq] at h
    obtain ⟨ht, hx, hf, hb⟩ := h
    obtain ⟨hnt, hn⟩ := List.append_inj hn (TypeName.length_nodes_congr ht)
    simp only [List.cons.injEq] at hn
    obtain ⟨hnf, hnb⟩ := List.append_inj hn.2 (length_nodes_congr_varDecls hf)
    simp only [Decl.relabel, FunctionDecl.relabel, TypeName.unplaced_congr ht hnt,
      Ident.unplaced_congr hx hn.1, unplaced_congr_varDecls hf hnf, Block.unplaced_congr hb hnb]
  | tuple d =>
    cases d' <;> simp only [Decl.relabel, Decl.tuple.injEq, reduceCtorEq] at h
    simp only [TupleDecl.relabel, TupleDecl.mk.injEq] at h
    simp only [Decl.nodes, List.cons.injEq] at hn
    simp only [Decl.relabel, TupleDecl.relabel, Ident.unplaced_congr h.1 hn.1,
      unplaced_congr_varDecls h.2 hn.2]

/-- Programs that say the same and number their nodes alike are equal up to positions. -/
theorem Program.unplaced_congr {p q : Program} (h : p.erase = q.erase) (hn : p.nodes = q.nodes) :
    p.unplaced = q.unplaced := by
  obtain ⟨ds⟩ := p
  obtain ⟨ds'⟩ := q
  simp only [Program.erase, Program.unplaced, Program.relabel, Program.mk.injEq] at h ⊢
  change ds.flatMap Decl.nodes = ds'.flatMap Decl.nodes at hn
  induction ds generalizing ds' with
  | nil => cases ds' <;> simp_all
  | cons d ds ih =>
    cases ds' <;> simp only [List.map_nil, List.map_cons, List.cons.injEq, reduceCtorEq] at h
    next d' ds' =>
    obtain ⟨hnd, hnds⟩ := List.append_inj hn (Decl.length_nodes_congr h.1)
    rw [List.map_cons, List.map_cons, Decl.unplaced_congr h.1 hnd, ih ds' h.2 hnds]

/-- That is the case if the nodes of both are numbered from zero. -/
theorem Program.unplaced_of_numbered {p q : Program} (h : p.erase = q.erase)
    (hp : p.nodes = List.range p.nodes.length) (hq : q.nodes = List.range q.nodes.length) :
    p.unplaced = q.unplaced := by
  have hlength : p.nodes.length = q.nodes.length := by
    rw [← p.length_nodes_relabel .erasing, ← q.length_nodes_relabel .erasing]
    exact congrArg (fun p : Program => p.nodes.length) h
  refine Program.unplaced_congr h ?_
  rw [hp, hq, hlength]

end BaseLang
