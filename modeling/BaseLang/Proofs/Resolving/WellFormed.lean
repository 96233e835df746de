import BaseLang.Proofs.Resolving.Declaring
import BaseLang.Proofs.Resolving.Occurrences
import Mathlib.Data.List.Nodup
import Mathlib.Order.RelClasses

/-
  Every resolution is well formed, and tuple types are never recursive.

    1. `Resolution.Records` — all that is linked or recorded belongs to some identifiers and
       accesses, and leads to symbols of their names; `Records.after`, `Records.walk` — every
       step keeps this, and so does every list of steps;
    2. `Program.existsUnique_declares` — every symbol is that of one declared name;
    3. `Resolution.Sound.contains_wellFounded` — a field has a smaller number than the tuple
       type it belongs to, and a greater one than its own, so that no tuple type contains
       itself at any depth;
    4. `resolveNames_wellFormed` — the theorem, for every program that was parsed.
-/

namespace BaseLang

/-! ## Well-formed resolutions -/

/-- A field of the outer tuple type is a value of the inner one. -/
def Resolution.Contains (r : Resolution) (inner outer : SymbolId) : Prop :=
  ∃ fields, r.fieldsOf? outer = some fields ∧
    ∃ scope ∈ fields.levels, ∃ e ∈ scope, r.tupleOf? e.2 = some inner

def Program.Declares (p : Program) (x : Ident) : Prop := ∃ d, .declares d ∈ p.mentions ∧ d.name = x

/-- Links, accesses, symbols and fields of a program fit together. -/
structure Resolution.WellFormed (r : Resolution) (p : Program) : Prop where
  /-- What is linked is an identifier of the program, to a symbol that exists. -/
  links : ∀ i id, r.links.find? i = some id → ∃ x ∈ p.idents, x.id = i ∧ ∃ s, r.symbol? id = some s
  names : ∀ x ∈ p.idents, ∀ s, r.symbolOf x = some s → s.name = x.name
  /-- What is recorded is an access of the program, with a tuple type if there is one. -/
  accesses : ∀ i outcome, r.access i = some outcome → i ∈ p.accesses ∧
    ∀ definition, outcome = .resolved (some definition) →
      ∃ s, r.symbol? definition = some s ∧ s.isTupleDef = true
  declared : ∀ id s, r.symbol? id = some s → ∃! x, p.Declares x ∧ r.linkOf x = some id
  instances : ∀ id s name definition, r.symbol? id = some s → s.kind = .tupleInstance name definition →
    definition < id ∧ ∃ t, r.symbol? definition = some t ∧ t.isTupleDef = true ∧ t.name = name
  fields : ∀ id s fields, r.symbol? id = some s → s.kind = .tupleDef fields →
    ∀ scope ∈ fields.levels, ∀ e ∈ scope,
      e.2 < id ∧ ∃ f, r.symbol? e.2 = some f ∧ f.name = e.1 ∧ f.IsValue
  /-- No tuple type contains itself, at whatever depth. -/
  nesting : WellFounded r.Contains

/-! ## What is recorded -/

/-- Only these identifiers are linked, to symbols of their names, and only these accesses
are recorded, with tuple types. -/
structure Resolution.Records (r : Resolution) (xs : List Ident) (is : List NodeId) : Prop where
  links : ∀ i id, r.links.find? i = some id →
    ∃ x ∈ xs, x.id = i ∧ ∃ s, r.symbol? id = some s ∧ s.name = x.name
  accesses : ∀ i outcome, r.accesses.find? i = some outcome → i ∈ is ∧
    ∀ definition, outcome = .resolved (some definition) →
      ∃ s fields, r.symbol? definition = some s ∧ s.kind = .tupleDef fields

namespace Resolution.Records
variable {r r' : Resolution} {xs : List Ident} {is : List NodeId}

theorem empty (xs : List Ident) (is : List NodeId) : Resolution.empty.Records xs is :=
  ⟨nofun, nofun⟩

/-- More symbols change nothing. -/
theorem grows (h : r.Records xs is) (hr : r.Grows r') (hlinks : r'.links = r.links)
    (haccesses : r'.accesses = r.accesses) : r'.Records xs is := by
  constructor
  · intro i id hi
    rw [hlinks] at hi
    obtain ⟨x, hx, hxi, s, hs, hname⟩ := h.links i id hi
    obtain ⟨s', hs', hname'⟩ := hr.name hs
    exact ⟨x, hx, hxi, s', hs', hname'.trans hname⟩
  · intro i outcome hi
    rw [haccesses] at hi
    obtain ⟨hin, htuple⟩ := h.accesses i outcome hi
    refine ⟨hin, fun definition hd => ?_⟩
    obtain ⟨s, fields, hs, hk⟩ := htuple definition hd
    exact ⟨s, fields, hr.symbol hs (by rw [hk]; nofun), hk⟩

/-- An identifier is linked to a symbol of its name. -/
theorem link (h : r.Records xs is) {x : Ident} (hx : x ∈ xs) {id : SymbolId} {s : Symbol}
    (hs : r.symbol? id = some s) (hname : s.name = x.name) : (r.link x id).Records xs is := by
  refine ⟨fun i j hj => ?_, h.accesses⟩
  change (r.links.insert x.id id).find? i = some j at hj
  rw [NodeMap.find?_insert] at hj
  split at hj
  · next hi =>
    cases hj
    exact ⟨x, hx, hi.symm, s, hs, hname⟩
  · exact h.links i j hj

/-- An access is recorded. -/
theorem setAccess (h : r.Records xs is) {i : NodeId} (hi : i ∈ is) {outcome : AccessLink}
    (htuple : ∀ definition, outcome = .resolved (some definition) →
      ∃ s fields, r.symbol? definition = some s ∧ s.kind = .tupleDef fields) :
    (r.setAccess i outcome).Records xs is := by
  refine ⟨h.links, fun j other hj => ?_⟩
  change (r.accesses.insert i outcome).find? j = some other at hj
  rw [NodeMap.find?_insert] at hj
  split at hj
  · next hji =>
    cases hj
    exact ⟨hji ▸ hi, htuple⟩
  · exact h.accesses j other hj

end Resolution.Records

namespace Binding

abbrev Records (b : Binding) (xs : List Ident) (is : List NodeId) : Prop := b.resolution.Records xs is

namespace Records
variable {b : Binding} {xs : List Ident} {is : List NodeId}

/-! ## Uses -/

theorem linkLoc (hb : b.Sound) (h : b.Records xs is) : ∀ {l : Loc}, l.idents ⊆ xs → l.accesses ⊆ is →
    (b.linkLoc l).Records xs is
  | .ident x, hxs, _ => by
    rw [Binding.linkLoc]
    split
    · next id hl =>
      obtain ⟨s, hs, hname⟩ := hb.lookupChain hl
      exact h.link (hxs List.mem_cons_self) hs hname
    · exact h
  | .access id l f, hxs, his => by
    obtain ⟨hl, hf⟩ := List.append_subset.1 hxs
    obtain ⟨hbase, hid⟩ := List.append_subset.1 his
    have hin := linkLoc hb h hl hbase
    -- linking has made no symbols
    have hsame : (b.linkLoc l).symbol? = b.resolution.symbol? := funext (Binder.symbol?_linkLoc l)
    rw [Binding.linkLoc]
    split
    · next field hat =>
      obtain ⟨_, -, hbind⟩ := Option.bind_eq_some_iff.1 hat
      obtain ⟨_, -, hfield⟩ := Option.bind_eq_some_iff.1 hbind
      obtain ⟨-, s, hs, hname, -⟩ := hb.resolution.fieldOf? hfield
      rw [← hsame] at hs
      refine (hin.link (hf List.mem_cons_self) hs hname).setAccess (hid List.mem_cons_self) ?_
      intro definition hd
      obtain ⟨fields, hfields⟩ := hb.resolution.closed field definition (AccessLink.resolved.inj hd)
      obtain ⟨t, ht, hk⟩ := Resolution.fieldsOf?_eq_some_iff.1 hfields
      exact ⟨t, fields, (congrFun hsame definition).trans ht, hk⟩
    · exact hin.setAccess (hid List.mem_cons_self) fun _ hd => by cases hd

/-! ## Declarations -/

theorem linkType (hb : b.Sound) (h : b.Records xs is) {type : TypeName} (hxs : type.idents ⊆ xs) :
    (b.linkType type).Records xs is := by
  cases type with
  | tuple t =>
    rw [Binding.linkType]
    split
    · next id hd =>
      obtain ⟨s, _, hs, hname, -⟩ := hb.definition? hd
      exact h.link (hxs List.mem_cons_self) hs hname
    · exact h
  | logical | integer | void => exact h

theorem linkDecl (hb : b.Sound) (h : b.Records xs is) (t : ScopeTable) {d : VarDecl}
    (hxs : d.idents ⊆ xs) : (b.linkDecl t d).Records xs is := by
  obtain ⟨htype, hname⟩ := List.append_subset.1 hxs
  have hlinked := linkType hb h htype
  cases haccepts : b.accepts? t d with
  | none =>
    rw [Binding.linkDecl, haccepts]
    exact hlinked
  | some kind =>
    have hnew := symbol?_linkDecl haccepts
    rw [Binding.linkDecl, haccepts] at hnew ⊢
    exact (hlinked.grows (.alloc _ _) rfl rfl).link (hname List.mem_cons_self) hnew rfl

theorem vars : ∀ (ds : List VarDecl) {b : Binding}, b.Sound → b.Records xs is →
    ds.flatMap VarDecl.idents ⊆ xs → (ds.foldl afterVar b).Records xs is
  | [], _, _, h, _ => h
  | d :: ds, b, hb, h, hxs =>
    have hsplit := List.append_subset.1 hxs
    vars ds (hb.afterVar d) (linkDecl hb h b.scopes hsplit.1) hsplit.2

theorem fields : ∀ (ds : List VarDecl) {b : Binding} {t : ScopeTable}, b.Sound → b.Records xs is →
    ds.flatMap VarDecl.idents ⊆ xs → (b.afterFields t ds).Records xs is
  | [], _, _, _, h, _ => h
  | d :: ds, _, t, hb, h, hxs =>
    have hsplit := List.append_subset.1 hxs
    fields ds (hb.afterField t d) (linkDecl hb h t hsplit.1) hsplit.2

/-- The name of a function or a tuple type. -/
theorem withSymbol (h : b.Records xs is) {x : Ident} (hx : x ∈ xs) (kind : SymbolKind) :
    (b.withSymbol x kind).Records xs is := by
  have hnew := b.resolution.symbol?_alloc_self ⟨x.name, kind⟩
  exact (h.grows (.alloc _ _) rfl rfl).link hx hnew rfl

theorem heading (hb : b.Sound) (h : b.Records xs is) {d : FunctionDecl}
    (hxs : d.name :: d.formals.flatMap VarDecl.idents ⊆ xs) : (b.afterHeading d).Records xs is := by
  obtain ⟨hx, hformals⟩ := List.cons_subset.1 hxs
  have hname : (b.afterFunctionName d).inside.Records xs is := by
    show (b.afterFunctionName d).Records xs is
    rw [afterFunctionName]
    split
    · exact h
    · exact withSymbol h hx _
  have hall := vars d.formals (hb.afterFunctionName d).inside hname hformals
  rw [afterHeading]
  split
  · exact hall
  · exact hall.grows (.setParams _ _ _) rfl rfl

/-- A tuple type. Its fields are declared even if its name is taken. -/
theorem tuple (hb : b.Sound) (h : b.Records xs is) {d : TupleDecl}
    (hxs : d.name :: d.fields.flatMap VarDecl.idents ⊆ xs) : (b.afterTuple d).Records xs is := by
  obtain ⟨hx, hfields⟩ := List.cons_subset.1 hxs
  rw [afterTuple]
  split
  · exact fields d.fields (hb.withMultiple d.name) h hfields
  · exact withSymbol (fields d.fields hb h hfields) hx _

/-! ## Steps -/

/-- Every step records its own identifiers and accesses only. -/
theorem after (hb : b.Sound) (h : b.Records xs is) {s : Step} (hxs : s.idents ⊆ xs)
    (his : s.accesses ⊆ is) : (b.after s).Records xs is := by
  cases s with
  | use _ l => exact linkLoc hb h hxs his
  | enter _ | exit _ => exact h
  | var _ d => exact linkDecl hb h b.scopes hxs
  | heading _ d => exact heading hb h hxs
  | tuple _ d => exact tuple hb h hxs

theorem walk : ∀ (steps : List Step) {b : Binding}, b.Sound → b.Records xs is →
    steps.flatMap Step.idents ⊆ xs → steps.flatMap Step.accesses ⊆ is →
    (steps.foldl Binding.after b).Records xs is
  | [], _, _, h, _, _ => h
  | s :: steps, _, hb, h, hxs, his =>
    have hidents := List.append_subset.1 hxs
    have haccesses := List.append_subset.1 his
    walk steps (hb.after s) (after hb h hidents.1 haccesses.1) hidents.2 haccesses.2

end Records

end Binding

/-! ## Every symbol has one declaration -/

theorem acceptedOf_subset : ∀ (ms : List Mention) {ds : List Declaration}, ds ⊆ acceptedOf ds ms
  | [], _ => fun _ h => h
  | .uses _ _ :: ms, _ => acceptedOf_subset ms
  | .declares d :: ms, ds => by
    intro e he
    refine acceptedOf_subset ms ?_
    split
    · exact List.mem_cons_of_mem _ he
    · exact he

/-- A declaration whose name is linked is one of those that count. -/
theorem Resolution.RespectsAll.mem_acceptedOf {r : Resolution} {ds : List Declaration} {ms : List Mention}
    (h : r.RespectsAll ds ms) {d : Declaration} (hd : .declares d ∈ ms) {id : SymbolId}
    (hlink : r.linkOf d.name = some id) : d ∈ acceptedOf ds ms := by
  obtain ⟨pre, post, rfl⟩ := List.append_of_mem hd
  have hrespects := (h.respects pre).1
  rw [acceptedOf_append]
  refine acceptedOf_subset post ?_
  split at hrespects
  · next haccepts =>
    rw [if_pos haccepts]
    exact List.mem_cons_self
  · rw [hlink] at hrespects
    cases hrespects

/-- Every symbol of a program is that of one declared name. -/
theorem Program.existsUnique_declares {p : Program} (hnodup : p.nodes.Nodup) {id : SymbolId} {s : Symbol}
    (hs : p.resolved.resolution.symbol? id = some s) :
    ∃! x, p.Declares x ∧ p.resolved.resolution.linkOf x = some id := by
  obtain ⟨d, hd, hlink⟩ := Program.declared hnodup hs
  obtain ⟨g, htraces⟩ := Program.traces hnodup
  have hlinks := htraces.kept.nodup_links
  rw [htraces.accepted] at hlinks
  refine ⟨d.name, ⟨⟨d, hd, rfl⟩, hlink⟩, ?_⟩
  rintro x ⟨⟨d', hd', rfl⟩, hlink'⟩
  -- both declarations count, and those that count have different symbols
  have hin := htraces.respects.mem_acceptedOf hd hlink
  have hin' := htraces.respects.mem_acceptedOf hd' hlink'
  rw [List.inj_on_of_nodup_map hlinks hin' hin (hlink'.trans hlink.symm)]

/-! ## Tuple types are not recursive -/

namespace Resolution.Sound
variable {r : Resolution} (hr : r.Sound)
include hr

/-- A tuple type that another contains has been declared before it. -/
theorem contains_lt {inner outer : SymbolId} (h : r.Contains inner outer) : inner < outer := by
  obtain ⟨table, htable, scope, hscope, e, he, hinner⟩ := h
  obtain ⟨s, hs, hk⟩ := fieldsOf?_eq_some_iff.1 htable
  obtain ⟨f, name, hf, hkf⟩ := tupleOf?_eq_some_iff.1 hinner
  exact Nat.lt_trans (hr.definition hf hkf).1 (hr.fields hs hk scope hscope e he).1

theorem contains_wellFounded : WellFounded r.Contains :=
  Subrelation.wf (fun h => hr.contains_lt h) Nat.lt_wfRel.wf

end Resolution.Sound

/-! ## Programs -/

/-- What the resolver has recorded in the end belongs to the program. -/
theorem Program.resolved_records {p : Program} (h : ∀ d ∈ p.decls, d.ReturnsSimple) :
    p.resolved.Records p.idents p.accesses := by
  rw [← Program.steps_idents h, ← p.steps_accesses]
  exact Binding.Records.walk p.steps Binding.sound_start (.empty _ _) (List.Subset.refl _) (List.Subset.refl _)

/-- Every parsed program is resolved, and its resolution is well formed. -/
theorem resolveNames_wellFormed {tokens : List Token} {p : Program} (hp : parse tokens = .ok p) :
    ∃ r ds, resolveNames p = .ok (r, ds) ∧ r.WellFormed p := by
  have hnodup := Grammar.parse_nodup hp
  have hsound := (resolved_sound p).resolution
  have hidents := Program.steps_idents (Grammar.parse_results hp)
  have hrecords := Program.resolved_records (Grammar.parse_results hp)
  have hdistinct : (p.idents.map Ident.id).Nodup := by
    rw [← p.steps_nodes] at hnodup
    rw [← hidents]
    exact hnodup.sublist (steps_idents_sublist p.steps)
  refine ⟨_, _, resolveNames_eq p, ?_, ?_, ?_, ?_, ?_, ?_, hsound.contains_wellFounded⟩
  · intro i id hi
    obtain ⟨x, hx, hxi, s, hs, -⟩ := hrecords.links i id hi
    exact ⟨x, hx, hxi, s, hs⟩
  · intro x hx s hs
    obtain ⟨id, hlink, hid⟩ := Option.bind_eq_some_iff.1 hs
    obtain ⟨y, hy, hyx, s', hs', hname⟩ := hrecords.links x.id id hlink
    rw [hs'] at hid
    cases hid
    rw [hname, List.inj_on_of_nodup_map hdistinct hy hx hyx]
  · intro i outcome hi
    obtain ⟨hin, htuple⟩ := hrecords.accesses i outcome hi
    refine ⟨hin, fun definition hd => ?_⟩
    obtain ⟨s, fields, hs, hk⟩ := htuple definition hd
    exact ⟨s, hs, by rw [Symbol.isTupleDef, hk]⟩
  · exact fun id s hs => Program.existsUnique_declares hnodup hs
  · intro id s name definition hs hk
    obtain ⟨hlt, t, fields, ht, hname, hkt⟩ := hsound.definition hs hk
    exact ⟨hlt, t, ht, by rw [Symbol.isTupleDef, hkt], hname⟩
  · exact fun id s fields hs hk => hsound.fields hs hk

/-- A tuple type in another one, which also has a field of its own type, and a second
definition of the first. -/
def nestedTokens : List Token :=
  [(.tupleWord, "tuple"), (.identifier, "inner"), (.openCurly, "\x7b"),
    (.integerWord, "integer"), (.identifier, "n"), (.dot, "."), (.closeCurly, "\x7d"), (.dot, "."),
    (.tupleWord, "tuple"), (.identifier, "outer"), (.openCurly, "\x7b"),
    (.tupleWord, "tuple"), (.identifier, "inner"), (.identifier, "a"), (.dot, "."),
    (.tupleWord, "tuple"), (.identifier, "outer"), (.identifier, "b"), (.dot, "."),
    (.closeCurly, "\x7d"), (.dot, "."),
    (.tupleWord, "tuple"), (.identifier, "inner"), (.openCurly, "\x7b"),
    (.logicalWord, "logical"), (.identifier, "n"), (.dot, "."), (.closeCurly, "\x7d"), (.dot, ".")].map
    fun (kind, text) => ⟨kind, text, ⟨.nowhere, .nowhere⟩⟩

def nestedProgram : Program :=
  ⟨[.tuple ⟨⟨0, "inner", .nowhere⟩, [⟨.integer, ⟨1, "n", .nowhere⟩⟩]⟩,
    .tuple ⟨⟨2, "outer", .nowhere⟩,
      [⟨.tuple ⟨3, "inner", .nowhere⟩, ⟨4, "a", .nowhere⟩⟩,
        ⟨.tuple ⟨5, "outer", .nowhere⟩, ⟨6, "b", .nowhere⟩⟩]⟩,
    .tuple ⟨⟨7, "inner", .nowhere⟩, [⟨.logical, ⟨8, "n", .nowhere⟩⟩]⟩]⟩

/-- The outer tuple type contains the inner one, and not itself. -/
theorem resolveNames_wellFormed_nested :
    parse nestedTokens = .ok nestedProgram ∧
      ∃ r ds, resolveNames nestedProgram = .ok (r, ds) ∧ r.Contains 1 3 ∧ ¬ r.Contains 3 3 ∧
        r.WellFormed nestedProgram := by
  have hp : parse nestedTokens = .ok nestedProgram := rfl
  obtain ⟨r, ds, hr, hwell⟩ := resolveNames_wellFormed hp
  have hrun : (resolveNames nestedProgram).toOption.map (fun a => (a.1.fieldsOf? 3, a.1.tupleOf? 2)) =
      some (some ⟨[("a", 2)], []⟩, some 1) := by decide +kernel
  rw [hr] at hrun
  obtain ⟨hfields, hinner⟩ := Prod.mk.inj (Option.some.inj hrun)
  exact ⟨hp, r, ds, hr, ⟨_, hfields, _, List.mem_cons_self, _, List.mem_cons_self, hinner⟩,
    fun hself => hwell.nesting.asymmetric 3 3 hself hself, hwell⟩

end BaseLang
