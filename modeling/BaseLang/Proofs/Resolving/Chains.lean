import BaseLang.Proofs.Resolving.Scoping
import BaseLang.Proofs.Typing.Reported
import Mathlib.Data.List.Basic

/-
  Chains of field accesses.

  A chain is a name and the fields after it. Where it leads is told by the symbols alone:
  the name stands for a symbol, the symbol of a tuple has a definition, the definition has a
  table of fields, and the next name is looked up in that table and nowhere else.

    1. `Resolution.leadsTo?`, `Resolution.definitionAlong?` — the symbol to which a name and
       the fields after it lead, and the definition of which it is an instance;
    2. `Resolution.Chained` — the outcomes of the accesses, as the definitions ask: found as
       far as the chain leads, and bad from the first failure on;
    3. `Resolution.ChainFault` — what may be reported of a chain;
    4. `Binding.Leaves` — a later resolution that has the location as it was linked in a state;
       `Leaves.leadsTo?_eq`, `Leaves.chained`, `Leaves.faults` — it leads where the resolver
       went, by induction on the location;
    5. `access_chains` — the theorem, for every program whose nodes have different numbers.
-/

namespace BaseLang

/-- The fields of a location with the numbers of their accesses, from the base outwards. -/
def Loc.fields : Loc → List (NodeId × Ident)
  | .ident _ => []
  | .access id base f => base.fields ++ [(id, f)]

def Loc.fieldNames (l : Loc) : List Ident := l.fields.map Prod.snd

theorem Loc.fieldNames_access (id : NodeId) (l : Loc) (f : Ident) :
    (Loc.access id l f).fieldNames = l.fieldNames ++ [f] := List.map_append

/-- A location stands where its last name does. -/
theorem Loc.position_eq (l : Loc) : l.position = (l.fieldNames.getLastD l.root).position := by
  cases l with
  | ident x => rfl
  | access id l f => rw [fieldNames_access, List.getLastD_concat, position]

namespace Resolution
variable {r r' : Resolution} {a : Ident} {fs gs : List Ident}

/-! ## Where a chain leads -/

/-- The symbol to which a name and the fields after it lead: that of the name, then that of
each field in the definition before it. -/
def leadsTo? (r : Resolution) (a : Ident) (fs : List Ident) : Option SymbolId :=
  fs.foldl (fun s f => (s.bind r.tupleOf?).bind (r.fieldOf? · f.name)) (r.linkOf a)

/-- The definition to which they lead, if the last of them is an instance of one. -/
def definitionAlong? (r : Resolution) (a : Ident) (fs : List Ident) : Option SymbolId :=
  (r.leadsTo? a fs).bind r.tupleOf?

theorem leadsTo?_concat (r : Resolution) (a : Ident) (fs : List Ident) (f : Ident) :
    r.leadsTo? a (fs ++ [f]) = (r.definitionAlong? a fs).bind (r.fieldOf? · f.name) := by
  rw [leadsTo?, List.foldl_append]
  rfl

/-- Nothing leads on from a chain that leads nowhere. -/
theorem leadsTo?_append_eq_none (h : r.leadsTo? a fs = none) (gs : List Ident) :
    r.leadsTo? a (fs ++ gs) = none := by
  induction gs generalizing fs with
  | nil => rwa [List.append_nil]
  | cons g gs ih =>
    rw [List.append_cons]
    apply ih
    rw [leadsTo?_concat, definitionAlong?, h]
    rfl

/-- The accesses to these fields after a name are recorded as the definitions ask. An access
is found if the names before it lead to a definition whose table holds its field; its outcome
holds the definition of the field. Otherwise it and all after it are bad, and their fields
stand for nothing. -/
structure Chained (r : Resolution) (a : Ident) (fields : List (NodeId × Ident)) : Prop where
  found : ∀ pre id f post d s, fields = pre ++ (id, f) :: post →
    r.definitionAlong? a (pre.map Prod.snd) = some d → r.fieldOf? d f.name = some s →
    r.linkOf f = some s ∧
      r.access id = some (.resolved (r.definitionAlong? a (pre.map Prod.snd ++ [f])))
  lost : ∀ pre id f post, fields = pre ++ (id, f) :: post →
    (∀ d, r.definitionAlong? a (pre.map Prod.snd) = some d → r.fieldOf? d f.name = none) →
    ∀ e ∈ (id, f) :: post, r.access e.1 = some .bad ∧ r.linkOf e.2 = none

/-- What is reported of a name and the fields after it: that the name is not declared, that
the last name before a colon is no tuple, or that the tuple type does not have the first
field that is missing. -/
inductive ChainFault (r : Resolution) (a : Ident) (fs : List Ident) : Diagnostic → Prop
  | undeclared (h : r.linkOf a = none) : ChainFault r a fs ⟨a.position, .undeclaredIdentifier⟩
  | noTuple {pre f post s} (hfs : fs = pre ++ f :: post) (hs : r.leadsTo? a pre = some s)
      (ht : r.tupleOf? s = none) : ChainFault r a fs ⟨(pre.getLastD a).position, .colonAccessOfNonTuple⟩
  | noField {pre f post d} (hfs : fs = pre ++ f :: post) (hd : r.definitionAlong? a pre = some d)
      (hf : r.fieldOf? d f.name = none) : ChainFault r a fs ⟨f.position, .invalidTupleField⟩

/-- It stays so when more fields follow. -/
theorem ChainFault.append {d : Diagnostic} (h : r.ChainFault a fs d) (gs : List Ident) :
    r.ChainFault a (fs ++ gs) d := by
  cases h with
  | undeclared h => exact .undeclared h
  | noTuple hfs hs ht =>
    rw [hfs, List.append_assoc]
    exact .noTuple rfl hs ht
  | noField hfs hd hf =>
    rw [hfs, List.append_assoc]
    exact .noField rfl hd hf

/-- Whether the fields of the chain lead on is told by the definition before. -/
theorem leadsTo?_concat_eq_none_iff {f : Ident} :
    r.leadsTo? a (fs ++ [f]) = none ↔
      ∀ d, r.definitionAlong? a fs = some d → r.fieldOf? d f.name = none := by
  rw [leadsTo?_concat]
  cases r.definitionAlong? a fs with
  | none => simp
  | some d => simp

/-- One access more. -/
theorem Chained.concat {fields : List (NodeId × Ident)} (h : r.Chained a fields) {id : NodeId} {f : Ident}
    (hfound : ∀ s, r.leadsTo? a (fields.map Prod.snd ++ [f]) = some s →
      r.linkOf f = some s ∧ r.access id = some (.resolved (r.tupleOf? s)))
    (hlost : r.leadsTo? a (fields.map Prod.snd ++ [f]) = none →
      r.access id = some .bad ∧ r.linkOf f = none) : r.Chained a (fields ++ [(id, f)]) := by
  constructor
  · intro pre i g post d s hsplit hd hs
    rcases List.eq_nil_or_concat' post with rfl | ⟨post, e, rfl⟩
    · obtain ⟨rfl, he⟩ := List.append_inj' hsplit rfl
      cases he
      have hleads : r.leadsTo? a (fields.map Prod.snd ++ [f]) = some s := by
        rw [leadsTo?_concat, hd]
        exact hs
      rw [definitionAlong?, hleads]
      exact hfound s hleads
    · have hfront : fields = pre ++ (i, g) :: post := by
        rw [← List.cons_append, ← List.append_assoc] at hsplit
        exact (List.append_inj' hsplit rfl).1
      exact h.found pre i g post d s hfront hd hs
  · intro pre i g post hsplit hnone e he
    rcases List.eq_nil_or_concat' post with rfl | ⟨post, last, rfl⟩
    · obtain ⟨rfl, hlast⟩ := List.append_inj' hsplit rfl
      cases hlast
      rw [List.mem_singleton.1 he]
      exact hlost (leadsTo?_concat_eq_none_iff.2 hnone)
    · rw [← List.cons_append, ← List.append_assoc] at hsplit
      obtain ⟨hfront, hlast⟩ := List.append_inj' hsplit rfl
      cases hlast
      rw [← List.cons_append, List.mem_append] at he
      rcases he with he | he
      · exact h.lost pre i g post hfront hnone e he
      · -- the chain has led nowhere before it comes to the last field
        rw [List.mem_singleton.1 he]
        apply hlost
        have hmap : fields.map Prod.snd ++ [f] = (pre.map Prod.snd ++ [g]) ++ (post.map Prod.snd ++ [f]) := by
          rw [hfront]
          simp
        rw [hmap]
        exact leadsTo?_append_eq_none (leadsTo?_concat_eq_none_iff.2 hnone) _

/-- When the whole chain leads somewhere all its accesses are found. -/
theorem Chained.resolved {fields : List (NodeId × Ident)} (h : r.Chained a fields) {s : SymbolId}
    (hs : r.leadsTo? a (fields.map Prod.snd) = some s) :
    ∀ e ∈ fields, ∃ t, r.access e.1 = some (.resolved t) := by
  intro e he
  obtain ⟨pre, post, hsplit⟩ := List.append_of_mem he
  cases hmid : r.leadsTo? a (pre.map Prod.snd ++ [e.2]) with
  | none =>
    have hnone := leadsTo?_append_eq_none hmid (post.map Prod.snd)
    rw [hsplit, List.map_append, List.map_cons, List.append_cons, hnone] at hs
    cases hs
  | some t =>
    rw [leadsTo?_concat] at hmid
    obtain ⟨d, hd, ht⟩ := Option.bind_eq_some_iff.1 hmid
    exact ⟨_, (h.found pre e.1 e.2 post d t hsplit hd ht).2⟩

/-- When it leads nowhere its last access is bad. -/
theorem Chained.bad {fields : List (NodeId × Ident)} (h : r.Chained a fields) (hne : fields ≠ [])
    (hs : r.leadsTo? a (fields.map Prod.snd) = none) : ∃ e ∈ fields, r.access e.1 = some .bad := by
  rcases List.eq_nil_or_concat' fields with hnil | ⟨pre, e, rfl⟩
  · exact absurd hnil hne
  · rw [List.map_append] at hs
    have hlast := h.lost pre e.1 e.2 [] rfl (leadsTo?_concat_eq_none_iff.1 hs) e List.mem_cons_self
    exact ⟨e, List.mem_append_right _ List.mem_cons_self, hlast.1⟩

/-! ## What is known of a symbol stays known -/

theorem Grows.tupleOf?_eq (h : r.Grows r') {id : SymbolId} {s : Symbol} (hs : r.symbol? id = some s) :
    r'.tupleOf? id = r.tupleOf? id := by
  obtain ⟨params, hs'⟩ := h id s hs
  rw [tupleOf?_of_symbol hs, tupleOf?_of_symbol hs']
  obtain ⟨name, kind⟩ := s
  cases kind <;> rfl

/-- So do the fields of a tuple type. -/
theorem Grows.fieldOf?_eq (h : r.Grows r') (hr : r.Sound) {id definition : SymbolId}
    (hd : r.tupleOf? id = some definition) (name : String) :
    r'.fieldOf? definition name = r.fieldOf? definition name := by
  obtain ⟨fields, hfields⟩ := hr.closed id definition hd
  obtain ⟨s, hs, hk⟩ := fieldsOf?_eq_some_iff.1 hfields
  have hs' := h.symbol hs (by rw [hk]; nofun)
  rw [fieldOf?, fieldOf?, hfields, fieldsOf?_eq_some_iff.2 ⟨s, hs', hk⟩]

end Resolution

/-! ## What the resolver leaves of a location -/

/-- The resolution has grown from that of the state, and has at the nodes of the location what
the state links there. -/
structure Binding.Leaves (b : Binding) (l : Loc) (r : Resolution) : Prop where
  symbols : b.resolution.Grows r
  links : ∀ i ∈ l.nodes, r.links.find? i = (b.linkLoc l).links.find? i
  accesses : ∀ i ∈ l.nodes, r.accesses.find? i = (b.linkLoc l).accesses.find? i

namespace Binding.Leaves
variable {b : Binding} {l : Loc} {r : Resolution}

/-- Other nodes may be touched after the location has been used. -/
theorem of_evolves {nodes : List NodeId} {b' : Binding} (he : Evolves nodes (b.afterUse l) b')
    (hdisjoint : ∀ i ∈ l.nodes, i ∉ nodes) : b.Leaves l b'.resolution where
  symbols := (b.evolves_use l).symbols.trans he.symbols
  links i hi := he.links i (hdisjoint i hi)
  accesses i hi := he.accesses i (hdisjoint i hi)

/-- The base of an access is left as if it stood alone. -/
theorem base {id : NodeId} {f : Ident} (h : b.Leaves (.access id l f) r)
    (hnodup : (Loc.access id l f).nodes.Nodup) : b.Leaves l r := by
  obtain ⟨-, -, hdisjoint⟩ := List.nodup_append.1 hnodup
  have hid : ∀ i ∈ l.nodes, i ≠ id := fun i hi => hdisjoint i hi id List.mem_cons_self
  have hf : ∀ i ∈ l.nodes, i ≠ f.id :=
    fun i hi => hdisjoint i hi f.id (List.mem_cons_of_mem _ List.mem_cons_self)
  refine ⟨h.symbols, fun i hi => ?_, fun i hi => ?_⟩
  · rw [h.links i (List.mem_append_left _ hi), linkLoc]
    cases b.symbolAt? (.access id l f) with
    | none => rfl
    | some s => exact Resolution.links_link _ _ _ (hf i hi)
  · rw [h.accesses i (List.mem_append_left _ hi), linkLoc]
    cases b.symbolAt? (.access id l f) with
    | none => exact Resolution.accesses_setAccess _ _ _ (hid i hi)
    | some s => exact Resolution.accesses_setAccess _ _ _ (hid i hi)

theorem linkOf_root (h : b.Leaves l r) (hfresh : b.resolution.Fresh l.nodes) (hnodup : l.nodes.Nodup) :
    r.linkOf l.root = b.scopes.lookupChain l.root.name :=
  (h.links _ l.root_mem_nodes).trans (b.linkOf_root hfresh hnodup)

/-- The chain leads to the symbol at which the resolver has arrived. -/
theorem leadsTo?_eq (h : b.Leaves l r) (hb : b.Sound) (hfresh : b.resolution.Fresh l.nodes)
    (hnodup : l.nodes.Nodup) : r.leadsTo? l.root l.fieldNames = b.symbolAt? l := by
  induction l with
  | ident x =>
    have hx : b.resolution.linkOf x = none := hfresh _ List.mem_cons_self
    have hroot := h.linkOf_root hfresh hnodup
    rw [symbolAt?, hx, Option.or_none]
    exact hroot
  | access id l f ih =>
    have hbase := ih (h.base hnodup) hfresh.left (List.nodup_append.1 hnodup).1
    rw [Loc.root, Loc.fieldNames_access, Resolution.leadsTo?_concat, Resolution.definitionAlong?, hbase,
      symbolAt?, Option.bind_assoc]
    cases hat : b.symbolAt? l with
    | none => rfl
    | some s =>
      -- the symbol is there already, so that its definition and its fields are what they will be
      obtain ⟨symbol, hs⟩ := hb.symbolAt? hat
      rw [Option.bind_some, Option.bind_some, h.symbols.tupleOf?_eq hs]
      cases hd : b.resolution.tupleOf? s with
      | none => rfl
      | some d =>
        rw [Option.bind_some, Option.bind_some, h.symbols.fieldOf?_eq hb.resolution hd]

/-- The accesses of the location are recorded as the definitions ask. -/
theorem chained (h : b.Leaves l r) (hb : b.Sound) (hfresh : b.resolution.Fresh l.nodes)
    (hnodup : l.nodes.Nodup) : r.Chained l.root l.fields := by
  induction l with
  | ident x => exact ⟨fun _ _ _ _ _ _ hsplit => by simp [Loc.fields] at hsplit,
      fun _ _ _ _ hsplit => by simp [Loc.fields] at hsplit⟩
  | access id l f ih =>
    have hleads := h.leadsTo?_eq hb hfresh hnodup
    rw [Loc.fieldNames_access] at hleads
    have hid : id ∈ (Loc.access id l f).nodes := by simp [Loc.nodes]
    have hf : f.id ∈ (Loc.access id l f).nodes := by simp [Loc.nodes]
    have hlink := h.links f.id hf
    have haccess := h.accesses id hid
    refine (ih (h.base hnodup) hfresh.left (List.nodup_append.1 hnodup).1).concat ?_ ?_
    · intro s hs
      have hat : b.symbolAt? (.access id l f) = some s := hleads.symm.trans hs
      obtain ⟨symbol, hsymbol⟩ := hb.symbolAt? hat
      rw [linkLoc, hat] at hlink haccess
      rw [h.symbols.tupleOf?_eq hsymbol]
      exact ⟨hlink.trans (Resolution.linkOf_link_self _ _ _),
        haccess.trans (Resolution.access_setAccess_self _ _ _)⟩
    · intro hnone
      have hat : b.symbolAt? (.access id l f) = none := hleads.symm.trans hnone
      have hlost := linkOf_field_eq_none hat hfresh hnodup
      rw [linkLoc, hat] at haccess
      exact ⟨haccess.trans (Resolution.access_setAccess_self _ _ _), hlink.trans hlost⟩

/-- Nothing is reported of a location whose chain leads somewhere, and otherwise one thing. -/
theorem faults (h : b.Leaves l r) (hb : b.Sound) (hfresh : b.resolution.Fresh l.nodes)
    (hnodup : l.nodes.Nodup) :
    match r.leadsTo? l.root l.fieldNames with
    | some _ => b.locFaults l = []
    | none => ∃ d, b.locFaults l = [d] ∧ r.ChainFault l.root l.fieldNames d := by
  induction l with
  | ident x =>
    have hleads := h.leadsTo?_eq hb hfresh hnodup
    have hroot : r.linkOf x = b.scopes.lookupChain x.name := h.linkOf_root hfresh hnodup
    have hsame : r.leadsTo? (Loc.ident x).root (Loc.ident x).fieldNames = r.linkOf x := rfl
    rw [hsame, hroot, locFaults]
    cases hlook : b.scopes.lookupChain x.name with
    | none => exact ⟨_, rfl, .undeclared (hroot.trans hlook)⟩
    | some s => exact rfl
  | access id l f ih =>
    have hbase := h.base hnodup
    have hnodupBase := (List.nodup_append.1 hnodup).1
    have hat := hbase.leadsTo?_eq hb hfresh.left hnodupBase
    have hin := ih hbase hfresh.left hnodupBase
    have hwhole := h.leadsTo?_eq hb hfresh hnodup
    rw [Loc.root, Loc.fieldNames_access] at hwhole ⊢
    rw [locFaults, colonFaults, fieldFaults, ← hat, hwhole, symbolAt?, ← hat]
    cases hs : r.leadsTo? l.root l.fieldNames with
    | none =>
      rw [hs] at hin
      obtain ⟨d, hd, hfault⟩ := hin
      exact ⟨d, by rw [hd]; rfl, hfault.append [f]⟩
    | some s =>
      rw [hs] at hin
      have hquiet : b.locFaults l = [] := hin
      obtain ⟨symbol, hsymbol⟩ := hb.symbolAt? (hat.symm.trans hs)
      have htuple := h.symbols.tupleOf?_eq hsymbol
      rw [hquiet]
      dsimp only [Option.bind_some]
      cases hd : b.resolution.tupleOf? s with
      | none =>
        refine ⟨_, rfl, ?_⟩
        rw [l.position_eq]
        exact .noTuple rfl hs (htuple.trans hd)
      | some d =>
        have hfield := h.symbols.fieldOf?_eq hb.resolution hd f.name
        have hlast : r.definitionAlong? l.root l.fieldNames = some d := by
          rw [Resolution.definitionAlong?, hs, Option.bind_some, htuple, hd]
        dsimp only [Option.bind_some]
        cases hf : b.resolution.fieldOf? d f.name with
        | none => exact ⟨_, rfl, .noField rfl hlast (hfield.trans hf)⟩
        | some t => rfl

end Binding.Leaves

/-! ## Every chain of a program -/

/-- In a program whose nodes have different numbers every chain of accesses follows the
definitions. When the resolver comes to it, nothing is reported if all its accesses are found,
and otherwise one thing: what the first failure is. -/
theorem access_chains {p : Program} (hnodup : p.nodes.Nodup) :
    ∃ r ds, resolveNames p = .ok (r, ds) ∧ ∀ l, .loc l ∈ p.allExprs → l.fields ≠ [] →
      r.Chained l.root l.fields ∧ (∃ b, p.Reaches (.loc l) b) ∧
      ∀ b, p.Reaches (.loc l) b → ∃ b' found more, (Binder.loc l).run b = .ok ((), b') ∧
        b'.diagnostics = b.diagnostics ++ found ∧ ds = b'.diagnostics ++ more ∧
        ((∀ e ∈ l.fields, ∃ t, r.access e.1 = some (.resolved t)) ∧ found = [] ∨
          (∃ e ∈ l.fields, r.access e.1 = some .bad) ∧ ∃ d, found = [d] ∧ r.ChainFault l.root l.fieldNames d) := by
  refine ⟨_, _, resolveNames_eq p, fun l hl hfields => ?_⟩
  -- whatever the state in which the resolver comes to the location, this is what it leaves
  have harrives : ∀ b, p.Reaches (.loc l) b → b.Sound ∧ b.resolution.Fresh l.nodes ∧ l.nodes.Nodup ∧
      b.Leaves l p.resolved.resolution ∧ (Binder.loc l).run b = .ok ((), b.afterUse l) ∧
      ∃ more, p.resolved.diagnostics = (b.afterUse l).diagnostics ++ more := by
    intro b hb
    obtain ⟨scope, post, hsound, hnodes, hfresh, hrun, hend, hpost⟩ := hb.around hnodup
    have hlater := Binding.evolves_walk post (b.afterUse l)
    have hresolved : p.resolved = post.foldl Binding.after (b.afterUse l) := hend
    rw [hresolved]
    exact ⟨hsound, hfresh, hnodes, .of_evolves hlater hpost, hrun, hlater.diagnostics⟩
  obtain ⟨b₀, hb₀⟩ := Program.exists_reaches hl
  obtain ⟨hsound₀, hfresh₀, hnodes, hleaves₀, -⟩ := harrives b₀ hb₀
  have hchained := hleaves₀.chained hsound₀ hfresh₀ hnodes
  refine ⟨hchained, ⟨b₀, hb₀⟩, fun b hb => ?_⟩
  obtain ⟨hsound, hfresh, -, hleaves, hrun, more, hmore⟩ := harrives b hb
  refine ⟨b.afterUse l, b.locFaults l, more, hrun, rfl, hmore, ?_⟩
  have hfaults := hleaves.faults hsound hfresh hnodes
  cases hleads : p.resolved.resolution.leadsTo? l.root l.fieldNames with
  | some s =>
    rw [hleads] at hfaults
    exact .inl ⟨hchained.resolved hleads, hfaults⟩
  | none =>
    rw [hleads] at hfaults
    exact .inr ⟨hchained.bad hfields hleads, hfaults⟩

/-- A chain of three accesses through a tuple to an integer and beyond. -/
def chainLoc : Loc :=
  .access 12 (.access 10 (.access 8 (.ident ⟨7, "b", ⟨4, 1⟩⟩) ⟨9, "a", ⟨4, 3⟩⟩) ⟨11, "n", ⟨4, 5⟩⟩)
    ⟨13, "k", ⟨4, 7⟩⟩

/-- A tuple type with a tuple field, a variable of that type, and a function that reads the
chain. -/
def chainProgram : Program :=
  ⟨[.tuple ⟨⟨0, "inner", ⟨1, 7⟩⟩, [⟨.integer, ⟨1, "n", ⟨1, 22⟩⟩⟩]⟩,
    .tuple ⟨⟨2, "outer", ⟨2, 7⟩⟩, [⟨.tuple ⟨3, "inner", ⟨2, 20⟩⟩, ⟨4, "a", ⟨2, 26⟩⟩⟩]⟩,
    .var ⟨.tuple ⟨5, "outer", ⟨3, 7⟩⟩, ⟨6, "b", ⟨3, 13⟩⟩⟩,
    .function ⟨.void, ⟨14, "f", ⟨3, 20⟩⟩, [], .mk [] [.read chainLoc]⟩]⟩

/-- Its second access ends at an integer, so that the third is bad, and that is reported at
the name of the second. -/
theorem access_chains_beyond :
    chainProgram.nodes.Nodup ∧ ∃ r ds, resolveNames chainProgram = .ok (r, ds) ∧
      r.access 8 = some (.resolved (some 1)) ∧ r.access 10 = some (.resolved none) ∧
      r.access 12 = some .bad ∧ ds = [⟨⟨4, 5⟩, .colonAccessOfNonTuple⟩] ∧
      r.Chained chainLoc.root chainLoc.fields ∧ ∃ b, chainProgram.Reaches (.loc chainLoc) b := by
  have hnodup : chainProgram.nodes.Nodup := by decide
  obtain ⟨r, ds, hr, hchains⟩ := access_chains hnodup
  obtain ⟨hchained, hreached, -⟩ := hchains chainLoc List.mem_cons_self (List.cons_ne_nil _ _)
  have hrun : (resolveNames chainProgram).toOption.map
      (fun a => (a.1.access 8, a.1.access 10, a.1.access 12, a.2)) =
        some (some (.resolved (some 1)), some (.resolved none), some .bad,
          [⟨⟨4, 5⟩, .colonAccessOfNonTuple⟩]) := by decide +kernel
  rw [hr] at hrun
  obtain ⟨h₁, hrest⟩ := Prod.mk.inj (Option.some.inj hrun)
  obtain ⟨h₂, hrest⟩ := Prod.mk.inj hrest
  obtain ⟨h₃, hds⟩ := Prod.mk.inj hrest
  exact ⟨hnodup, r, ds, hr, h₁, h₂, h₃, hds, hchained, hreached⟩

end BaseLang
