import StructuralTyping.Inference.Constraint
import StructuralTyping.Proofs.FilterPatterns
import StructuralTyping.Proofs.Walks

/-!
# What the nodes of a relation demand

Each node of a relation has a rule for the classes at its ends and at those of its children. The
constraints that are generated for a node bring its rule about: in every later graph in which they
hold, and in which no edge is lost, the rule holds.
-/
namespace StructuralTyping

section Rules
variable (repo : Repository) (g : PatternGraph)

/-- The patterns of a demand are among the first so many. -/
def Demand.Within (size : Nat) : Demand → Prop
  | .same patterns => ∀ id ∈ patterns, id < size
  | .edge source _ target => source < size ∧ target < size

/-- What is demanded holds of the classes of a graph. -/
def Demand.Holds : Demand → Prop
  | .same patterns => ∀ a ∈ patterns, ∀ b ∈ patterns, g.find a = g.find b
  | .edge source label target =>
    g.target? source ((g.kind source).memberLabel repo label) = some (g.find target)

/-- Each item of a composition starts where the one before it ends. -/
def Chained (output : Nat) : Nat → List Ends → Prop
  | previous, [] => g.find previous = g.find output
  | previous, p :: rest => g.find previous = g.find p.input ∧ Chained output p.output rest

/-- The class is a product that has exactly the given labels, and is known to be one. -/
def ClosedProductAt (labels : List String) (id : Nat) : Prop :=
  (∀ l, (g.edgesOf id).contains l ↔ l ∈ labels) ∧
    (g.kind id = .closedProduct ∨ ∃ c fields, g.kind id = .bound c ∧
      repo.find c = .code (.product fields) ∧ ∀ l, fields.contains l ↔ l ∈ labels)

/-- The class is the union without labels, or a code that is a union. -/
def EmptyUnionAt (id : Nat) : Prop :=
  (g.kind id = .closedUnion ∧ ∀ l, ¬(g.edgesOf id).contains l) ∨
    ∃ c fields, g.kind id = .bound c ∧ repo.find c = .code (.union fields)

/-- The rule of a node of a relation. Names of codes are understood as in the repository before. -/
def Site.Holds (before : Repository) (definitions : NameMap Ends) (s : Site) : Prop :=
  match s.node with
  | .product [] => g.kind s.ends.output = .bound Repository.unit
  | .product [(label, _)] =>
    (g.kind s.ends.output).isUnion repo ∧ ∀ p ∈ s.children,
      g.find s.ends.input = g.find p.input ∧
      g.target? s.ends.output label = some (g.find p.output)
  | .product fields =>
    ClosedProductAt repo g (fields.map (·.1)) s.ends.output ∧
      ∀ e ∈ (fields.map (·.1)).zip s.children, g.find s.ends.input = g.find e.2.input ∧
        g.target? s.ends.output e.1 = some (g.find e.2.output)
  | .union [] => EmptyUnionAt repo g s.ends.output
  | .union _ => ∀ p ∈ s.children,
      g.find s.ends.input = g.find p.input ∧ g.find s.ends.output = g.find p.output
  | .vector [] => (g.kind s.ends.output).isVector repo
  | .vector _ => (g.kind s.ends.output).isVector repo ∧ ∀ p ∈ s.children,
      g.find s.ends.input = g.find p.input ∧
      g.target? s.ends.output Text.vectorMember = some (g.find p.output)
  | .comp _ => Chained g s.ends.output s.ends.input s.children
  | .ref name => match definitions.get? name with
    | some p => g.find s.ends.input = g.find p.input ∧ g.find s.ends.output = g.find p.output
    | none => (name = "true" ∨ name = "false") ∧ g.kind s.ends.output = .bound "@bool"
  | .dot label =>
    g.target? s.ends.input ((g.kind s.ends.input).memberLabel repo label) =
      some (g.find s.ends.output)
  | .filter f => g.find s.ends.input = g.find s.ends.output ∧
      ∃ vars, f.Describes before repo g vars s.ends.input
  | .identity => g.find s.ends.input = g.find s.ends.output
  | .code name => g.find s.ends.input = g.find s.ends.output ∧
      ∃ c, before.canonical name = some c ∧ g.kind s.ends.input = .bound c
  | .literal l => g.kind s.ends.output = .bound l.builtin

variable {repo g} {labels labels' : List String} {i j : Nat}

theorem Demand.Within.mono {d : Demand} {m n : Nat} (h : d.Within m) (hle : m ≤ n) :
    d.Within n := by
  cases d with
  | same patterns => exact fun id hid => (h id hid).trans_le hle
  | edge source label target => exact ⟨h.1.trans_le hle, h.2.trans_le hle⟩

theorem ClosedProductAt.congr (h : ClosedProductAt repo g labels i) (hij : g.find j = g.find i)
    (hlabels : ∀ l, l ∈ labels ↔ l ∈ labels') : ClosedProductAt repo g labels' j := by
  rw [ClosedProductAt, PatternGraph.kind_congr hij, PatternGraph.edgesOf_congr hij]
  simpa only [ClosedProductAt, hlabels] using h

theorem EmptyUnionAt.congr (h : EmptyUnionAt repo g i) (hij : g.find j = g.find i) :
    EmptyUnionAt repo g j := by
  rwa [EmptyUnionAt, PatternGraph.kind_congr hij, PatternGraph.edgesOf_congr hij, ← EmptyUnionAt]

theorem ClosedProductAt.memberLabel (h : ClosedProductAt repo g labels i) (l : String) :
    (g.kind i).memberLabel repo l = l := by
  apply PatternKind.memberLabel_of_not_isVector
  apply PatternKind.not_isVector_of_isProduct
  rcases h.2 with hk | ⟨c, fields, hk, hc, -⟩
  · simp [hk, PatternKind.isProduct]
  · simp [hk, PatternKind.isProduct, hc]

end Rules

section Anchors
variable {next : Repository} {g h : PatternGraph} {kind : PatternKind} {edges : NameMap Nat}

namespace PatternGraph

variable (hg : g.Formed) (hext : (g.pushNode kind edges).2.Extends h) (hh : h.Settled next [])
include hg hext

omit hg in
theorem Extends.kind_pushed : (h.node g.size).kind = kind := by
  rw [hext.node g.size (by rw [size_pushNode]; omega), node_pushNode, if_pos rfl]

theorem Extends.get?_pushed {l : String} {d : Nat} (hd : edges.get? l = some d) :
    (h.ownEdges g.size).get? l = some d := by
  apply hext.edges
  rwa [ownEdges_pushNode hg.edges_size, if_pos rfl]

include hh

omit hg in
theorem Extends.isUnion_pushed (hkind : kind.isUnion next) : (h.kind g.size).isUnion next := by
  apply (hh.above g.size).keeps.isUnion
  change (h.node g.size).kind.isUnion next
  rwa [hext.kind_pushed]

omit hg in
theorem Extends.isVector_pushed (hkind : kind.isVector next) :
    (h.kind g.size).isVector next := by
  apply (hh.above g.size).isVector
  change (h.node g.size).kind.isVector next
  rwa [hext.kind_pushed]

/-- What a pattern said when it was added is said by its class. -/
theorem Extends.below_pushed (hnormal : ∀ l, edges.contains l → kind.memberLabel next l = l) :
    (⟨kind, edges.map fun _ => ()⟩ : Shape).Below next (h.shape g.size) := by
  rw [← hg.ownShape_pushNode]
  refine hext.below_shape hh (by rw [size_pushNode]; omega) fun l hl => ?_
  rw [hg.ownShape_pushNode] at hl ⊢
  exact hnormal l (NameMap.contains_map.1 hl)

/-- A product that was added with some labels stays a product with these labels. -/
theorem Extends.closedProductAt_pushed (hkind : kind = .closedProduct) :
    ClosedProductAt next h edges.keys g.size := by
  subst hkind
  have hbelow := hext.below_pushed hg hh fun l _ => rfl
  have hkeys (l : String) : (edges.map fun _ => ()).contains l ↔ l ∈ edges.keys := by
    rw [NameMap.contains_map, NameMap.mem_keys_iff]
  have hshape : (h.shape g.size).labels = edges.map fun _ => () :=
    hbelow.labels_eq (hh.fits (h.find g.size)) rfl
  have hlabels (l : String) : (h.edgesOf g.size).contains l ↔ l ∈ edges.keys := by
    rw [← hkeys, ← hshape, shape, NameMap.contains_map]
  rcases hbelow.keeps with ⟨hclosed, -⟩ | ⟨c, fields, hbound, hc, hequal⟩
  · exact ⟨hlabels, .inl hclosed⟩
  · refine ⟨hlabels, .inr ⟨c, fields, hbound, hc, fun l => ?_⟩⟩
    have heq : (edges.map fun _ => ()) = fields.map fun _ => () := of_decide_eq_true hequal
    rw [← hkeys, heq, NameMap.contains_map]

/-- A union that was added without labels gets none, unless it is found to be a code. -/
theorem Extends.emptyUnionAt_pushed (hkind : kind = .closedUnion) (hedges : edges = ∅) :
    EmptyUnionAt next h g.size := by
  subst hkind hedges
  have hbelow := hext.below_pushed hg hh (by simp [NameMap.contains])
  rcases hbelow.keeps with ⟨hclosed, hlabels⟩ | ⟨c, fields, hbound, hc, -⟩
  · refine .inl ⟨hclosed, fun l hl => ?_⟩
    have hl' : (h.shape g.size).labels.contains l := NameMap.contains_map.2 hl
    rw [hlabels, NameMap.contains_map] at hl'
    cases hl'
  · exact .inr ⟨c, fields, hbound, hc⟩

/-- An edge of a pattern that was added is an edge of its class. -/
theorem Extends.target?_pushed {l : String} {d : Nat} (hd : edges.get? l = some d) :
    h.target? g.size ((h.kind g.size).memberLabel next l) = some (h.find d) :=
  hh.target?_of_get? (hext.get?_pushed hg hd)

end PatternGraph

end Anchors

/-- What the fields of a product demand: the first field with a label makes the edge, and the others
meet it. -/
structure Site.FieldsMeet (input : Nat) (edges : NameMap Nat) (fields : List (String × Ends))
    (r : List (List Nat) × NameMap Nat) : Prop where
  kept : ∀ l d, edges.get? l = some d → r.2.get? l = some d
  origin : ∀ l d, r.2.get? l = some d →
    edges.get? l = some d ∨ ∃ p, (l, p) ∈ fields ∧ p.output = d
  inputs : ∀ e ∈ fields, [input, e.2.input] ∈ r.1
  outputs : ∀ e ∈ fields, ∃ first, r.2.get? e.1 = some first ∧
    (first = e.2.output ∨ [first, e.2.output] ∈ r.1)
  ids_lt : ∀ size, input < size → (∀ e ∈ fields, e.2.input < size ∧ e.2.output < size) →
    (∀ l d, edges.get? l = some d → d < size) → ∀ ids ∈ r.1, ∀ id ∈ ids, id < size

namespace Site.FieldsMeet
variable {input first : Nat} {edges : NameMap Nat} {label : String} {p : Ends}
  {fields : List (String × Ends)} {r : List (List Nat) × NameMap Nat}

/-- A field whose label has an edge meets the first field with the label. -/
theorem again (hlabel : edges.get? label = some first) (h : FieldsMeet input edges fields r) :
    FieldsMeet input edges ((label, p) :: fields)
      ([input, p.input] :: [first, p.output] :: r.1, r.2) where
  kept := h.kept
  origin l d hd :=
    (h.origin l d hd).imp_right fun ⟨p, hp, hd⟩ => ⟨p, List.mem_cons_of_mem _ hp, hd⟩
  inputs := by
    refine List.forall_mem_cons.2 ⟨List.mem_cons_self, fun e he => ?_⟩
    exact List.mem_cons_of_mem _ (List.mem_cons_of_mem _ (h.inputs e he))
  outputs := by
    refine List.forall_mem_cons.2 ⟨⟨first, h.kept label first hlabel, ?_⟩, fun e he => ?_⟩
    · exact .inr (List.mem_cons_of_mem _ List.mem_cons_self)
    · obtain ⟨first', hfirst', hmeet⟩ := h.outputs e he
      refine ⟨first', hfirst', hmeet.imp_right fun hmem => ?_⟩
      exact List.mem_cons_of_mem _ (List.mem_cons_of_mem _ hmem)
  ids_lt size hinput hfields hedges := by
    rw [List.forall_mem_cons] at hfields
    have hrest := h.ids_lt size hinput hfields.2 hedges
    have hfirst := hedges label first hlabel
    simpa [hinput, hfields.1, hfirst] using hrest

/-- A field whose label has no edge makes one. -/
theorem new (hlabel : edges.get? label = none)
    (h : FieldsMeet input (edges.insert label p.output) fields r) :
    FieldsMeet input edges ((label, p) :: fields) ([input, p.input] :: r.1, r.2) where
  kept l d hd := by
    refine h.kept l d ?_
    rw [NameMap.get?_insert, if_neg, hd]
    rintro rfl
    cases hlabel.symm.trans hd
  origin l d hd := by
    rcases h.origin l d hd with hold | ⟨p', hp', hd'⟩
    · rw [NameMap.get?_insert] at hold
      split_ifs at hold with hl
      · exact .inr ⟨p, by simp [hl], Option.some.inj hold⟩
      · exact .inl hold
    · exact .inr ⟨p', List.mem_cons_of_mem _ hp', hd'⟩
  inputs := by
    refine List.forall_mem_cons.2 ⟨List.mem_cons_self, fun e he => ?_⟩
    exact List.mem_cons_of_mem _ (h.inputs e he)
  outputs := by
    refine List.forall_mem_cons.2 ⟨⟨p.output, h.kept label _ ?_, .inl rfl⟩, fun e he => ?_⟩
    · rw [NameMap.get?_insert, if_pos rfl]
    · obtain ⟨first', hfirst', hmeet⟩ := h.outputs e he
      exact ⟨first', hfirst', hmeet.imp_right (List.mem_cons_of_mem _)⟩
  ids_lt size hinput hfields hedges := by
    rw [List.forall_mem_cons] at hfields
    have hrest := h.ids_lt size hinput hfields.2 fun l d hd => by
      rw [NameMap.get?_insert] at hd
      split_ifs at hd
      · obtain rfl := Option.some.inj hd
        exact hfields.1.2
      · exact hedges l d hd
    simpa [hinput, hfields.1] using hrest

end Site.FieldsMeet

theorem Site.fieldsMeet_fieldDemands (input : Nat) (edges : NameMap Nat)
    (fields : List (String × Ends)) :
    FieldsMeet input edges fields (fieldDemands input edges fields) := by
  induction fields generalizing edges with
  | nil =>
    refine ⟨fun _ _ h => h, fun _ _ h => .inl h, by simp, by simp, ?_⟩
    intro size _ _ _
    simp [fieldDemands]
  | cons e fields ih =>
    obtain ⟨label, p⟩ := e
    rw [fieldDemands]
    cases hlabel : edges.get? label with
    | some first => exact (ih edges).again hlabel
    | none => exact (ih (edges.insert label p.output)).new hlabel

/-- If there are no edges to start with, the labels are those of the fields. -/
theorem Site.FieldsMeet.mem_keys_iff {input : Nat} {fields : List (String × Ends)}
    {r : List (List Nat) × NameMap Nat} (h : FieldsMeet input ∅ fields r) (l : String) :
    l ∈ r.2.keys ↔ l ∈ fields.map (·.1) := by
  rw [NameMap.mem_keys_iff]
  constructor
  · intro hl
    obtain ⟨d, hd⟩ := NameMap.contains_iff.1 hl
    rcases h.origin l d hd with hnone | ⟨p, hp, -⟩
    · cases hnone
    · exact List.mem_map.2 ⟨(l, p), hp, rfl⟩
  · intro hl
    obtain ⟨e, he, rfl⟩ := List.mem_map.1 hl
    obtain ⟨first, hfirst, -⟩ := h.outputs e he
    exact NameMap.contains_of_get? hfirst

theorem Site.chained_of_joined {g : PatternGraph} {output previous : Nat} {items : List Ends}
    (h : ∀ ids ∈ chain output previous items, ∀ a ∈ ids, ∀ b ∈ ids, g.find a = g.find b) :
    Chained g output previous items := by
  induction items generalizing previous with
  | nil => exact h _ List.mem_cons_self previous (by simp) output (by simp)
  | cons p rest ih =>
    rw [chain, List.forall_mem_cons] at h
    exact ⟨h.1 previous (by simp) p.input (by simp), ih h.2⟩

theorem Site.lt_of_mem_chain {size output previous : Nat} {items : List Ends}
    (houtput : output < size) (hprevious : previous < size)
    (hitems : ∀ p ∈ items, p.input < size ∧ p.output < size) :
    ∀ ids ∈ chain output previous items, ∀ id ∈ ids, id < size := by
  induction items generalizing previous with
  | nil => simp [chain, houtput, hprevious]
  | cons p rest ih =>
    rw [List.forall_mem_cons] at hitems
    rw [chain, List.forall_mem_cons]
    exact ⟨by simp [hprevious, hitems.1], ih hitems.1.2 hitems.2⟩

section Generation
variable {repo : Repository} {definitions : NameMap Ends} {s : Site} {g g' : PatternGraph}

open PatternGraph Build

/-- The constraints of a site are about patterns that are there, and bring its rule about. -/
structure Site.Generates (repo : Repository) (definitions : NameMap Ends) (s : Site)
    (g : PatternGraph) (constraints : List Constraint) (g' : PatternGraph) : Prop where
  evolves : Evolves repo g g'
  within : ∀ c ∈ constraints, c.demand.Within g'.size
  sound : ∀ next h, repo.Consistent → g'.Extends h → h.Settled next [] →
    (∀ c ∈ constraints, c.demand.Holds next h) → s.Holds next h repo definitions

/-- Sites that demand that nodes are of one class. -/
theorem Site.Generates.of_same {rule : String} {demands : List (List Nat)}
    {span : Option Text.Span} (hevolves : Evolves repo g g')
    (hwithin : ∀ ids ∈ demands, ∀ id ∈ ids, id < g'.size)
    (hsound : ∀ next h, repo.Consistent → g'.Extends h → h.Settled next [] →
      (∀ ids ∈ demands, ∀ a ∈ ids, ∀ b ∈ ids, h.find a = h.find b) →
      s.Holds next h repo definitions) :
    s.Generates repo definitions g (demands.map fun ids => ⟨rule, .same ids, span⟩) g' where
  evolves := hevolves
  within := by simpa [Demand.Within] using hwithin
  sound next h hrepo hext hh hholds :=
    hsound next h hrepo hext hh (by simpa [Demand.Holds] using hholds)

theorem Repository.Consistent.canonical_unit (hrepo : repo.Consistent) :
    repo.canonical Repository.unit = some Repository.unit :=
  Repository.Known.canonical (.inr (NameMap.contains_of_get? hrepo.unit))

theorem Literal.isBuiltin_builtin (l : Literal) : Text.isBuiltin l.builtin := by
  cases l with
  | int _ => exact (by decide : Text.isBuiltin "@int")
  | str _ => exact (by decide : Text.isBuiltin "@string")
  | bool _ => exact (by decide : Text.isBuiltin "@bool")

/-- A class that holds the pattern of a code is the code. -/
theorem kind_of_binds {name : String} {id a : Nat} {h : PatternGraph}
    (hb : Binds repo name g id g') (hext : g'.Extends h) (hh : h.Formed)
    (ha : h.find a = h.find id) : ∃ c, repo.canonical name = some c ∧ h.kind a = .bound c := by
  obtain ⟨c, hc, hid⟩ := hb.recorded
  exact ⟨c, hc, by rw [kind_congr ha, hext.kind_of_recorded hh hid]⟩

theorem kind_of_binds_known {name : String} {id a : Nat} {h : PatternGraph}
    (hname : repo.canonical name = some name) (hb : Binds repo name g id g') (hext : g'.Extends h)
    (hh : h.Formed) (ha : h.find a = h.find id) : h.kind a = .bound name := by
  obtain ⟨c, hc, hkind⟩ := kind_of_binds hb hext hh ha
  obtain rfl := Option.some.inj (hname.symm.trans hc)
  exact hkind

/-- Generating the constraints of a site brings its rule about, or fails for want of a name. -/
def Site.Covered (repo : Repository) (definitions : NameMap Ends) (g : PatternGraph) (s : Site) :
    Prop :=
  Outcome (s.constraints repo definitions) g (s.Generates repo definitions g)
    fun e _ => e ≠ .exhausted

/-- Sites at which one end is a code. -/
theorem Site.Generates.of_binds {name rule : String} {id : Nat} {demands : List (List Nat)}
    {span : Option Text.Span}
    (hb : Binds repo name g id g') (hdemands : ∀ ids ∈ demands, ∀ a ∈ ids, a < g.size ∨ a = id)
    (hsound : ∀ next h, repo.Consistent → g'.Extends h → h.Settled next [] →
      (∀ ids ∈ demands, ∀ a ∈ ids, ∀ b ∈ ids, h.find a = h.find b) →
      s.Holds next h repo definitions) :
    s.Generates repo definitions g (demands.map fun ids => ⟨rule, .same ids, span⟩) g' := by
  refine .of_same (.single (.code hb)) (fun ids hids a ha => ?_) hsound
  rcases hdemands ids hids a ha with hlt | rfl
  · exact hlt.trans_le hb.grows.size_le
  · exact hb.id_lt

/-- Sites for which one pattern is added. -/
theorem Site.Generates.of_node {rule : String} {kind : PatternKind} {edges : NameMap Nat}
    {demands : List (List Nat)} {span : Option Text.Span} (hkind : kind.bound? = none)
    (hedges : ∀ l d, edges.get? l = some d → d < g.size)
    (hnormal : ∀ l, edges.contains l → kind.memberLabel repo l = l)
    (hdemands : ∀ ids ∈ demands, ∀ a ∈ ids, a < g.size ∨ a = g.size)
    (hsound : ∀ next h, (g.pushNode kind edges).2.Extends h → h.Settled next [] →
      (∀ ids ∈ demands, ∀ a ∈ ids, ∀ b ∈ ids, h.find a = h.find b) →
      s.Holds next h repo definitions) :
    s.Generates repo definitions g (demands.map fun ids => ⟨rule, .same ids, span⟩)
      (g.pushNode kind edges).2 := by
  refine .of_same (.single (.node hkind hedges hnormal)) (fun ids hids a ha => ?_)
    fun next h _ => hsound next h
  rw [size_pushNode]
  rcases hdemands ids hids a ha with hlt | rfl
  · exact Nat.lt_succ_of_lt hlt
  · exact Nat.lt_succ_self _

section Collections
variable {fields : List (String × Relation)} {rs : List Relation} {input output : Nat}
  {children : List Ends} {span : Option Text.Span} (hg : g.Formed)
include hg

theorem Site.covered_unit
    (hs : Site.Within ⟨.product [], ⟨input, output⟩, children, span⟩ g.size) :
    Site.Covered repo definitions g ⟨.product [], ⟨input, output⟩, children, span⟩ := by
  simp only [Site.Covered, Site.constraints, outcome_bind]
  refine (boundNode_outcome hg).imp (fun id g' hb => ?_) fun _ _ h => h
  refine .of_binds hb (by simp [hs.output]) fun next h hrepo hext hh hjoined => ?_
  exact kind_of_binds_known hrepo.canonical_unit hb hext hh.formed
    (hjoined _ List.mem_cons_self output (by simp) id (by simp))

theorem Site.covered_single {label : String} {r : Relation}
    (hs : Site.Within ⟨.product [(label, r)], ⟨input, output⟩, children, span⟩ g.size) :
    Site.Covered repo definitions g ⟨.product [(label, r)], ⟨input, output⟩, children, span⟩ := by
  obtain ⟨p, rfl⟩ := List.length_eq_one_iff.1 hs.arity
  have hp := hs.children p (by simp)
  simp only [Site.Covered, Site.constraints, outcome_bind, outcome_addNode]
  have hget : (NameMap.ofList [(label, p.output)]).get? label = some p.output :=
    NameMap.get?_ofList_singleton.2 ⟨rfl, rfl⟩
  refine .of_node rfl (fun l d hd => ?_) (fun l _ => rfl) ?_ fun next h hext hh hjoined => ?_
  · obtain ⟨-, rfl⟩ := NameMap.get?_ofList_singleton.1 hd
    exact hp.2
  · simp [hs.input, hs.output, hp, pushNode_fst]
  · have hout := hjoined [output, g.size] (by simp [pushNode_fst]) output (by simp) g.size (by simp)
    have hin := hjoined [input, p.input] (by simp) input (by simp) p.input (by simp)
    have hunion := hext.isUnion_pushed hh rfl
    have htarget := hext.target?_pushed hg hh hget
    rw [PatternKind.memberLabel_of_not_isVector (PatternKind.not_isVector_of_isUnion hunion)]
      at htarget
    refine ⟨by rwa [kind_congr hout], ?_⟩
    simp only [List.mem_singleton, forall_eq]
    exact ⟨hin, by rwa [target?_congr hout]⟩

theorem Site.covered_product {label : String} {r : Relation} {second : String × Relation}
    (hs : Site.Within ⟨.product ((label, r) :: second :: fields), ⟨input, output⟩, children, span⟩
      g.size) :
    Site.Covered repo definitions g
      ⟨.product ((label, r) :: second :: fields), ⟨input, output⟩, children, span⟩ := by
  simp only [Site.Covered, Site.constraints, outcome_bind, outcome_addNode]
  have hmeet := Site.fieldsMeet_fieldDemands input ∅
    ((((label, r) :: second :: fields).map (·.1)).zip children)
  have hlabels : ((((label, r) :: second :: fields).map (·.1)).zip children).map (·.1) =
      ((label, r) :: second :: fields).map (·.1) := by
    apply List.map_fst_zip
    rw [hs.arity]
    simp [Relation.children]
  have hpairs (e : String × Ends)
      (he : e ∈ (((label, r) :: second :: fields).map (·.1)).zip children) : e.2 ∈ children :=
    (List.of_mem_zip he).2
  generalize hzip : ((((label, r) :: second :: fields).map (·.1)).zip children) = pairs at *
  generalize Site.fieldDemands input ∅ pairs = demanded at *
  refine .of_node rfl (fun l d hd => ?_) (fun l _ => rfl) (fun ids hids id hid => ?_)
    fun next h hext hh hjoined => ?_
  · rcases hmeet.origin l d hd with hnone | ⟨p, hp, rfl⟩
    · cases hnone
    · exact (hs.children p (hpairs (l, p) hp)).2
  · rcases List.mem_append.1 hids with hids | hids
    · left
      refine hmeet.ids_lt g.size hs.input (fun e he => hs.children e.2 (hpairs e he)) ?_ ids hids id
        hid
      intro l d hd
      cases hd
    · obtain rfl := List.mem_singleton.1 hids
      simp only [List.mem_cons, List.not_mem_nil, or_false, pushNode_fst] at hid
      rcases hid with rfl | rfl
      · exact .inl hs.output
      · exact .inr rfl
  · have hout := hjoined [output, g.size] (by simp [pushNode_fst]) output (by simp) g.size (by simp)
    have hclosed := hext.closedProductAt_pushed hg hh rfl
    refine ⟨hclosed.congr hout fun l => ?_, ?_⟩
    · rw [← hlabels]
      exact hmeet.mem_keys_iff l
    · dsimp only
      rw [hzip]
      intro e he
      obtain ⟨first, hfirst, hsame⟩ := hmeet.outputs e he
      have hinput := List.mem_append_left [[output, (g.pushNode .closedProduct demanded.2).1]]
        (hmeet.inputs e he)
      refine ⟨hjoined _ hinput input (by simp) _ (by simp), ?_⟩
      have htarget := hext.target?_pushed hg hh hfirst
      rw [hclosed.memberLabel, ← target?_congr hout] at htarget
      rw [htarget]
      rcases hsame with rfl | hsame
      · rfl
      · rw [hjoined _ (List.mem_append_left _ hsame) first (by simp) e.2.output (by simp)]

theorem Site.covered_union (hs : Site.Within ⟨.union rs, ⟨input, output⟩, children, span⟩ g.size) :
    Site.Covered repo definitions g ⟨.union rs, ⟨input, output⟩, children, span⟩ := by
  cases rs with
  | nil =>
    simp only [Site.Covered, Site.constraints, outcome_bind, outcome_addNode]
    refine .of_node rfl (by simp) (fun l _ => rfl) ?_ fun next h hext hh hjoined => ?_
    · simp [hs.output, pushNode_fst]
    · have hout := hjoined _ List.mem_cons_self output (by simp) g.size (by simp [pushNode_fst])
      exact (hext.emptyUnionAt_pushed hg hh rfl rfl).congr hout
  | cons r rs =>
    refine .of_same .refl ?_ fun next h _ _ _ hjoined p hp => ⟨?_, ?_⟩
    · have hchildren := hs.children
      simp only [List.mem_cons, List.not_mem_nil, or_false, forall_eq_or_imp, forall_eq,
        List.mem_map, forall_exists_index, and_imp, forall_apply_eq_imp_iff₂]
      exact ⟨⟨hs.input, fun p hp => (hchildren p hp).1⟩, hs.output, fun p hp => (hchildren p hp).2⟩
    · exact hjoined (input :: children.map (·.input)) (by simp) input (by simp) p.input
        (List.mem_cons_of_mem _ (List.mem_map_of_mem hp))
    · exact hjoined (output :: children.map (·.output)) (by simp) output (by simp) p.output
        (List.mem_cons_of_mem _ (List.mem_map_of_mem hp))

/-- A vector with items: the first pattern that is added is the element, the second the vector. -/
theorem Site.covered_items {r : Relation}
    (hs : Site.Within ⟨.vector (r :: rs), ⟨input, output⟩, children, span⟩ g.size) :
    Site.Covered repo definitions g ⟨.vector (r :: rs), ⟨input, output⟩, children, span⟩ := by
  simp only [Site.Covered, Site.constraints, outcome_bind, outcome_addNode]
  have hg' : (g.pushNode .unconstrained ∅).2.Formed := hg.pushNode (by simp) rfl
  have hmember : (NameMap.ofList [(Text.vectorMember, g.size)]).get? Text.vectorMember =
      some g.size := rfl
  refine .of_same ?_ (fun ids hids id hid => ?_) fun next h _ hext hh hjoined => ?_
  · have hfirst : Operation repo g (g.pushNode .unconstrained ∅).2 :=
      .node rfl (by simp) (by simp [NameMap.contains])
    refine .tail (.single hfirst) (.node rfl (fun l d hd => ?_) fun l hl => ?_)
    · obtain ⟨-, rfl⟩ := NameMap.get?_ofList_singleton.1 hd
      rw [size_pushNode, pushNode_fst]
      exact Nat.lt_succ_self _
    · rw [NameMap.contains_ofList_singleton.1 hl]
      rfl
  · have hchildren := hs.children
    have hinput := hs.input
    have houtput := hs.output
    simp only [size_pushNode, pushNode_fst, List.mem_cons, List.not_mem_nil, or_false] at hids ⊢
    rcases hids with rfl | rfl | rfl
    · simp only [List.mem_cons, List.not_mem_nil, or_false] at hid
      dsimp only at houtput
      omega
    · rcases List.mem_cons.1 hid with rfl | hid
      · exact Nat.lt_succ_of_lt (Nat.lt_succ_of_lt hinput)
      · obtain ⟨p, hp, rfl⟩ := List.mem_map.1 hid
        exact Nat.lt_succ_of_lt (Nat.lt_succ_of_lt (hchildren p hp).1)
    · rcases List.mem_cons.1 hid with rfl | hid
      · omega
      · obtain ⟨p, hp, rfl⟩ := List.mem_map.1 hid
        exact Nat.lt_succ_of_lt (Nat.lt_succ_of_lt (hchildren p hp).2)
  · have hout := hjoined _ List.mem_cons_self output (by simp) _
      (List.mem_cons_of_mem _ List.mem_cons_self)
    rw [pushNode_fst] at hout
    have hvector := hext.isVector_pushed hh rfl
    have htarget := hext.target?_pushed hg' hh hmember
    rw [PatternKind.memberLabel_of_isVector hvector PatternKind.isMemberLabel_vectorMember,
      ← target?_congr hout] at htarget
    refine ⟨by rwa [kind_congr hout], fun p hp => ⟨?_, ?_⟩⟩
    · exact hjoined (input :: children.map (·.input)) (by simp) input (by simp) p.input
        (List.mem_cons_of_mem _ (List.mem_map_of_mem hp))
    · have hsame := hjoined (g.size :: children.map (·.output)) (by simp [pushNode_fst]) g.size
        (by simp) p.output (List.mem_cons_of_mem _ (List.mem_map_of_mem hp))
      rw [htarget, hsame]

theorem Site.covered_vector
    (hs : Site.Within ⟨.vector rs, ⟨input, output⟩, children, span⟩ g.size) :
    Site.Covered repo definitions g ⟨.vector rs, ⟨input, output⟩, children, span⟩ := by
  cases rs with
  | nil =>
    simp only [Site.Covered, Site.constraints, outcome_bind, outcome_addNode]
    refine .of_node rfl (by simp) (by simp [NameMap.contains]) ?_ fun next h hext hh hjoined => ?_
    · simp [hs.output, pushNode_fst]
    · have hout := hjoined _ List.mem_cons_self output (by simp) g.size (by simp [pushNode_fst])
      change (h.kind output).isVector next
      rw [kind_congr hout]
      exact hext.isVector_pushed hh rfl
  | cons r rs => exact Site.covered_items hg hs

omit hg in
theorem Site.covered_comp (hs : Site.Within ⟨.comp rs, ⟨input, output⟩, children, span⟩ g.size) :
    Site.Covered repo definitions g ⟨.comp rs, ⟨input, output⟩, children, span⟩ := by
  have hchain : Site.Generates repo definitions ⟨.comp rs, ⟨input, output⟩, children, span⟩ g
      ((Site.chain output input children).map fun ids => ⟨"composition", .same ids, span⟩) g :=
    .of_same .refl (Site.lt_of_mem_chain hs.output hs.input hs.children)
      fun next h _ _ _ hjoined => Site.chained_of_joined hjoined
  cases rs with
  | nil =>
    obtain rfl := List.length_eq_zero_iff.1 hs.arity
    refine .of_same .refl ?_ fun next h _ _ _ hjoined => ?_
    · simpa using ⟨hs.input, hs.output⟩
    · exact hjoined _ List.mem_cons_self input (by simp) output (by simp)
  | cons r rs => exact hchain

theorem Site.covered_ref {name : String}
    (hs : Site.Within ⟨.ref name, ⟨input, output⟩, children, span⟩ g.size)
    (hdefs : ∀ name p, definitions.get? name = some p → p.input < g.size ∧ p.output < g.size) :
    Site.Covered repo definitions g ⟨.ref name, ⟨input, output⟩, children, span⟩ := by
  simp only [Site.Covered, Site.constraints]
  cases hname : definitions.get? name with
  | some p =>
    have hp := hdefs name p hname
    refine .of_same .refl ?_ fun next h _ _ _ hjoined => ?_
    · simpa using ⟨⟨hs.input, hp.1⟩, hs.output, hp.2⟩
    · simp only [Site.Holds, hname]
      exact ⟨hjoined [input, p.input] (by simp) input (by simp) p.input (by simp),
        hjoined [output, p.output] (by simp) output (by simp) p.output (by simp)⟩
  | none =>
    dsimp only
    split_ifs with hbool
    · rw [outcome_bind]
      refine (boundNode_outcome hg).imp (fun id g' hb => ?_) fun _ _ h => h
      refine .of_binds hb (by simp [hs.output]) fun next h _ hext hh hjoined => ?_
      have hknown : repo.Known "@bool" := .inl (by decide)
      simp only [Site.Holds, hname]
      refine ⟨hbool, kind_of_binds_known hknown.canonical hb hext hh.formed ?_⟩
      exact hjoined _ List.mem_cons_self output (by simp) id (by simp)
    · simp

end Collections

theorem Site.constraints_outcome (hg : g.Formed) (hs : s.Within g.size)
    (hdefs : ∀ name p, definitions.get? name = some p → p.input < g.size ∧ p.output < g.size) :
    s.Covered repo definitions g := by
  obtain ⟨node, ⟨input, output⟩, children, span⟩ := s
  cases node with
  | product fields =>
    rcases fields with _ | ⟨⟨label, r⟩, _ | ⟨second, fields⟩⟩
    · exact Site.covered_unit hg hs
    · exact Site.covered_single hg hs
    · exact Site.covered_product hg hs
  | union rs => exact Site.covered_union hg hs
  | vector rs => exact Site.covered_vector hg hs
  | comp rs => exact Site.covered_comp hs
  | ref name => exact Site.covered_ref hg hs hdefs
  | dot label =>
    refine ⟨.refl, ?_, ?_⟩
    · simpa [Demand.Within] using ⟨hs.input, hs.output⟩
    · intro next h _ _ _ hholds
      exact hholds _ List.mem_cons_self
  | filter f =>
    simp only [Site.Covered, Site.constraints, outcome_bind]
    refine (f.filterNode_outcome hg).imp ?_ fun _ _ h => h
    rintro id g' ⟨hid, hev, vars, hdraws⟩
    have hle := (Evolves.extends hg hev).size_le
    refine .of_same hev ?_ fun next h _ hext hh hjoined => ?_
    · have hin := hs.input.trans_le hle
      simpa using ⟨⟨hin, hs.output.trans_le hle⟩, hin, hid⟩
    · have hmet := hjoined [input, id] (by simp) input (by simp) id (by simp)
      refine ⟨hjoined _ List.mem_cons_self input (by simp) output (by simp), vars, ?_⟩
      exact (hdraws.describes (Evolves.formed hev hg) hext hh).congr hmet
  | code name =>
    simp only [Site.Covered, Site.constraints, outcome_bind]
    refine (boundNode_outcome hg).imp (fun id g' hb => ?_) fun _ _ h => h
    refine .of_binds hb (by simp [hs.input, hs.output]) fun next h _ hext hh hjoined => ?_
    have hsame := hjoined [input, output] (by simp) input (by simp) output (by simp)
    have hcode := hjoined [input, id] (by simp) input (by simp) id (by simp)
    exact ⟨hsame, kind_of_binds hb hext hh.formed hcode⟩
  | identity =>
    refine .of_same .refl ?_ fun next h _ _ _ hjoined => ?_
    · simpa using ⟨hs.input, hs.output⟩
    · exact hjoined _ List.mem_cons_self input (by simp) output (by simp)
  | literal l =>
    simp only [Site.Covered, Site.constraints, outcome_bind]
    refine (boundNode_outcome hg).imp (fun id g' hb => ?_) fun _ _ h => h
    refine .of_binds hb (by simp [hs.output]) fun next h _ hext hh hjoined => ?_
    have hknown : repo.Known l.builtin := .inl l.isBuiltin_builtin
    exact kind_of_binds_known hknown.canonical hb hext hh.formed
      (hjoined _ List.mem_cons_self output (by simp) id (by simp))

/-- The constraints of several sites bring about the rules of all of them. -/
theorem siteConstraints_outcome {sites : List Site} (hg : g.Formed)
    (hsites : ∀ s ∈ sites, s.Within g.size)
    (hdefs : ∀ name p, definitions.get? name = some p → p.input < g.size ∧ p.output < g.size) :
    Outcome (siteConstraints repo definitions sites) g
      (fun constraints g' => Evolves repo g g' ∧ (∀ c ∈ constraints, c.demand.Within g'.size) ∧
        ∀ next h, repo.Consistent → g'.Extends h → h.Settled next [] →
          (∀ c ∈ constraints, c.demand.Holds next h) →
          ∀ s ∈ sites, s.Holds next h repo definitions)
      fun e _ => e ≠ .exhausted := by
  induction sites generalizing g with
  | nil => exact ⟨.refl, by simp, by simp⟩
  | cons s sites ih =>
    rw [List.forall_mem_cons] at hsites
    rw [siteConstraints, outcome_bind]
    refine (s.constraints_outcome hg hsites.1 hdefs).imp (fun own g₁ hown => ?_) fun _ _ h => h
    have hg₁ := Evolves.formed hown.evolves hg
    have hle := (Evolves.extends hg hown.evolves).size_le
    rw [outcome_bind]
    refine (ih hg₁ (fun s hs => (hsites.2 s hs).mono hle) fun name p hp =>
      (hdefs name p hp).imp (·.trans_le hle) (·.trans_le hle)).imp ?_ fun _ _ h => h
    rintro rest g₂ ⟨hevolves, hwithin, hsound⟩
    have hext := Evolves.extends hg₁ hevolves
    refine ⟨hown.evolves.trans hevolves, ?_, fun next h hrepo hh hset hholds => ?_⟩
    · refine List.forall_mem_append.2 ⟨fun c hc => ?_, hwithin⟩
      exact (hown.within c hc).mono hext.size_le
    · rw [List.forall_mem_append] at hholds
      refine List.forall_mem_cons.2 ⟨?_, hsound next h hrepo hh hset hholds.2⟩
      exact hown.sound next h hrepo (hext.trans hh) hset hholds.1

end Generation

end StructuralTyping
