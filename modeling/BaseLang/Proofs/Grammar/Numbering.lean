import BaseLang.Proofs.Grammar.Soundness
import BaseLang.Proofs.Tree.Relabelling

/-
  The numbers of a parsed program.

  A derivation hands out the numbers from its first to its last, each once, in the
  order of the tokens (`Derives.nodes_eq`), and so does the parser (`parse_nodes`).
-/

namespace BaseLang.Grammar

/-- The numbers run from the first up to the last, which is not among them. -/
def Counts (n : NodeId) (ids : List NodeId) (m : NodeId) : Prop :=
  ids = List.range' n ids.length ∧ m = n + ids.length

namespace Counts

theorem nil (n : NodeId) : Counts n [] n := ⟨rfl, rfl⟩

theorem one (n : NodeId) : Counts n [n] (n + 1) := ⟨rfl, rfl⟩

theorem append {n k m : NodeId} {xs ys : List NodeId} (hx : Counts n xs k) (hy : Counts k ys m) :
    Counts n (xs ++ ys) m := by
  obtain ⟨hx, rfl⟩ := hx
  obtain ⟨hy, rfl⟩ := hy
  refine ⟨?_, by rw [List.length_append, Nat.add_assoc]⟩
  rw [List.length_append, ← List.range'_append_1, ← hx, ← hy]

theorem cons {n m : NodeId} {ys : List NodeId} (hy : Counts (n + 1) ys m) : Counts n (n :: ys) m :=
  (one n).append hy

end Counts

theorem Typed.counts {n : NodeId} {ts : List Token} {type : TypeName} {m : NodeId}
    (h : Typed n ts type m) : Counts n type.nodes m := by
  cases h with
  | simple h => cases h <;> exact .nil n
  | tuple _ _ => exact .one n

theorem Variable.counts {n : NodeId} {ts : List Token} {d : VarDecl} {m : NodeId}
    (h : Variable n ts d m) : Counts n d.nodes m := by
  obtain ⟨h, _, _⟩ := h
  exact h.counts.append (.one _)

theorem Formal.counts {n : NodeId} {ts : List Token} {d : VarDecl} {m : NodeId}
    (h : Formal n ts d m) : Counts n d.nodes m := by
  obtain ⟨h, _⟩ := h
  cases h <;> exact .one n

theorem Repeated.counts {α : Type} {G : Form α} {nodes : α → List NodeId}
    (hG : ∀ n ts a m, G n ts a m → Counts n (nodes a) m) {n : NodeId} {ts : List Token}
    {as : List α} {m : NodeId} (h : Repeated G n ts as m) : Counts n (as.flatMap nodes) m := by
  induction h with
  | nil => exact .nil _
  | cons h _ ih =>
    rw [List.flatMap_cons]
    exact (hG _ _ _ _ h).append ih

theorem Commas.counts {α : Type} {G : Form α} {nodes : α → List NodeId}
    (hG : ∀ n ts a m, G n ts a m → Counts n (nodes a) m) {n : NodeId} {ts : List Token}
    {as : List α} {m : NodeId} (h : Commas G n ts as m) : Counts n (as.flatMap nodes) m := by
  induction h with
  | one h => simpa using hG _ _ _ _ h
  | more h _ _ ih =>
    rw [List.flatMap_cons]
    exact (hG _ _ _ _ h).append ih

theorem Separated.counts {α : Type} {G : Form α} {nodes : α → List NodeId}
    (hG : ∀ n ts a m, G n ts a m → Counts n (nodes a) m) {n : NodeId} {ts : List Token}
    {as : List α} {m : NodeId} (h : Separated G n ts as m) : Counts n (as.flatMap nodes) m := by
  cases h with
  | none => exact .nil _
  | some h => exact h.counts hG

mutual

theorem Phrase.counts {p : BindingPower} {n : NodeId} {ts : List Token} {e : Expr} {m : NodeId} :
    Phrase p n ts e m → Counts n e.nodes m
  | .int _ _ | .string _ | .true _ | .false _ => .nil _
  | .name _ => .one _
  | .group _ h _ => h.counts
  | .call h _ hargs _ => h.counts.append (Phrase.counts_arguments hargs)
  | .access h _ _ => h.counts.append (.cons (.one _))
  | .unary _ h => h.counts
  | .binary hl _ _ _ hr => hl.counts.append hr.counts
  | .assign h _ hv => h.counts.append hv.counts
  | .weaken _ h => h.counts

theorem Phrase.counts_arguments {n : NodeId} {ts : List Token} {es : List Expr} {m : NodeId} :
    Separated (Phrase .assignment) n ts es m → Counts n (Expr.nodesOfAll es) m
  | .none => .nil _
  | .some h => Phrase.counts_list h

theorem Phrase.counts_list {n : NodeId} {ts : List Token} {es : List Expr} {m : NodeId} :
    Commas (Phrase .assignment) n ts es m → Counts n (Expr.nodesOfAll es) m
  | .one h => h.counts.append (.nil _)
  | .more h _ hs => h.counts.append (Phrase.counts_list hs)

end

mutual

theorem Sentence.counts {n : NodeId} {ts : List Token} {s : Stmt} {m : NodeId} :
    Sentence n ts s m → Counts n s.nodes m
  | .assign h _ | .call h _ | .increment h _ _ | .decrement h _ _ => h.counts
  | .read _ _ h _ | .write _ _ h _ | .giveBack _ h _ => h.counts
  | .ifThen _ h hb | .whileDo _ h hb => h.counts.append hb.counts
  | .ifElse _ h hb _ ho => h.counts.append (hb.counts.append ho.counts)
  | .leave _ _ => .nil _

theorem Body.counts {n : NodeId} {ts : List Token} {b : Block} {m : NodeId} :
    Body n ts b m → Counts n b.nodes m
  | .mk _ hd hs _ => (hd.counts fun _ _ _ _ h => h.counts).append (Sentence.counts_all hs)

theorem Sentence.counts_all {n : NodeId} {ts : List Token} {ss : List Stmt} {m : NodeId} :
    Repeated Sentence n ts ss m → Counts n (Stmt.nodesOfAll ss) m
  | .nil => .nil _
  | .cons h hs => h.counts.append (Sentence.counts_all hs)

end

theorem Declared.counts {n : NodeId} {ts : List Token} {d : Decl} {m : NodeId}
    (h : Declared n ts d m) : Counts n d.nodes m := by
  cases h with
  | var h => exact h.counts
  | function ht _ _ hf _ hb =>
    have hformals := hf.counts fun _ _ _ _ h => Formal.counts h
    cases ht <;> exact .cons (hformals.append hb.counts)
  | tuple _ _ _ hf _ _ => exact .cons (hf.counts fun _ _ _ _ h => h.counts)

/-- The nodes of a derived program are numbered without gaps in the order of its tokens. -/
theorem Derives.nodes_eq {ts : List Token} {p : Program} {m : NodeId} (h : Derives ts p m) :
    p.nodes = List.range m := by
  obtain ⟨hids, hm⟩ := Repeated.counts (fun _ _ _ _ h => Declared.counts h) h
  rw [Nat.zero_add] at hm
  rw [Program.nodes, hids, ← hm, List.range_eq_range']

theorem Derives.nodes_range {ts : List Token} {p : Program} {m : NodeId} (h : Derives ts p m) :
    p.nodes = List.range p.nodes.length := by
  rw [h.nodes_eq, List.length_range]

/-- The nodes of a parsed program are numbered without gaps in the order of its tokens. -/
theorem parse_nodes {tokens : List Token} {p : Program} (h : parse tokens = .ok p) :
    p.nodes = List.range p.nodes.length := by
  obtain ⟨used, rest, m, _, hd⟩ := parse_derives h
  exact hd.nodes_range

/-- No two nodes of a parsed program have the same number. -/
theorem parse_nodup {tokens : List Token} {p : Program} (h : parse tokens = .ok p) : p.nodes.Nodup := by
  rw [parse_nodes h]
  exact List.nodup_range

end BaseLang.Grammar
