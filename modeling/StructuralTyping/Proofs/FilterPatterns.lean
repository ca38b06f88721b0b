import StructuralTyping.Pattern.Filtering
import StructuralTyping.Proofs.GraphEvolution

/-!
# Patterns of filters

The pattern of a filter is a tree of new nodes, one for each part of the filter, except that all
occurrences of a variable share a node and a code has the node that is recorded for it. Neither
binding codes nor merging classes changes what these nodes themselves say, and what they say is said
by their classes ever after: the class of the pattern is one that the filter describes, in every
later graph.
-/
namespace StructuralTyping

open PatternGraph Build

namespace PatternGraph
variable {g g₁ g' : PatternGraph} {repo : Repository}

/-- Nothing is taken back, and the nodes that were there keep their edges. -/
structure Preserves (g g' : PatternGraph) : Prop where
  extension : g.Extends g'
  ownEdges : ∀ n < g.size, g'.ownEdges n = g.ownEdges n

theorem Preserves.refl (g : PatternGraph) : g.Preserves g := ⟨.refl g, fun _ _ => rfl⟩

theorem Preserves.trans (h : g.Preserves g₁) (h' : g₁.Preserves g') : g.Preserves g' where
  extension := h.extension.trans h'.extension
  ownEdges n hn := by
    rw [h'.ownEdges n (hn.trans_le h.extension.size_le), h.ownEdges n hn]

variable (hg : g.Formed)
include hg

theorem Formed.preserves_pushNode (kind : PatternKind) (edges : NameMap Nat) :
    g.Preserves (g.pushNode kind edges).2 where
  extension := hg.extends_pushNode kind edges
  ownEdges n hn := by rw [ownEdges_pushNode hg.edges_size, if_neg hn.ne]

theorem Formed.preserves_of_binds {name : String} {id : Nat} (hb : Binds repo name g id g') :
    g.Preserves g' := ⟨hg.extends_of_binds hb, hb.grows.ownEdges⟩

theorem Formed.preserves_of_merges {rule : String} {ids : List Nat} {changed : Bool}
    (hids : ∀ id ∈ ids, id < g.size) (hm : Merges repo rule ids g changed g') :
    g.Preserves g' where
  extension := hg.extends_of_merges hids hm
  ownEdges _ hn := MergeRun.ownEdges_eq (hm.run []) (ready_singleton hg hids) hn

end PatternGraph

namespace Filter
variable {before repo : Repository} {vars vars' vars₁ : NameMap Nat} {g g' : PatternGraph}
  {f : Filter} {fs : List (String × Filter)} {kind : FieldsKind} {isOpen : Bool} {id i : Nat}

theorem memberLabel_pattern (kind : FieldsKind) (isOpen : Bool) (l : String) :
    (kind.pattern isOpen).memberLabel repo l = l := by
  cases kind <;> cases isOpen <;> rfl

theorem bound?_pattern (kind : FieldsKind) (isOpen : Bool) :
    (kind.pattern isOpen).bound? = none := by
  cases kind <;> cases isOpen <;> rfl

/-- No two fields of a filter have one label, at any depth. -/
inductive Distinct : Filter → Prop
  | var (name : String) : Distinct (.var name)
  | code (name : String) : Distinct (.code name)
  | fields {kind : FieldsKind} {fs : List (String × Filter)} {isOpen : Bool}
      (hlabels : (fs.map (·.1)).Nodup) (hfields : ∀ e ∈ fs, Distinct e.2) :
      Distinct (.fields kind fs isOpen)
  | vector {f : Filter} (h : Distinct f) : Distinct (.vector f)

/-- A node is the pattern of a filter whose variables have the given nodes. Of several fields with
one label the last one counts. -/
inductive Draws (repo : Repository) (vars : NameMap Nat) (g : PatternGraph) : Filter → Nat → Prop
  | var {name : String} {id : Nat} (h : vars.get? name = some id) : Draws repo vars g (.var name) id
  | code {name c : String} {id : Nat} (hname : repo.canonical name = some c)
      (hid : g.bound.get? c = some id) : Draws repo vars g (.code name) id
  | fields {kind : FieldsKind} {fs : List (String × Filter)} {isOpen : Bool} {id : Nat}
      (hlt : id < g.size) (hkind : (g.node id).kind = kind.pattern isOpen)
      (hlabels : ∀ l, (g.ownEdges id).contains l ↔ l ∈ fs.map (·.1))
      (hfields : ∀ l f d, (NameMap.ofList fs).get? l = some f → (g.ownEdges id).get? l = some d →
        Draws repo vars g f d) :
      Draws repo vars g (.fields kind fs isOpen) id
  | vector {f : Filter} {id d : Nat} (hkind : (g.node id).kind = .vector)
      (hd : (g.ownEdges id).get? Text.vectorMember = some d) (h : Draws repo vars g f d) :
      Draws repo vars g (.vector f) id

section Drawing

theorem Draws.preserved (h : Draws repo vars g f id) (hg : g.Formed) (hkept : g.Preserves g')
    (hvars : ∀ name i, vars.get? name = some i → vars'.get? name = some i) :
    Draws repo vars' g' f id := by
  induction h with
  | var h => exact .var (hvars _ _ h)
  | code hname hid => exact .code hname (hkept.extension.bound _ _ hid)
  | fields hlt hkind hlabels hfields ih =>
    have hown := hkept.ownEdges _ hlt
    refine .fields (hlt.trans_le hkept.extension.size_le) ?_ ?_ ?_
    · rw [hkept.extension.node _ hlt, hkind]
    · rwa [hown]
    · rwa [hown]
  | vector hkind hd h ih =>
    have hlt := lt_size_of_get? hg hd
    refine .vector ?_ ?_ ih
    · rw [hkept.extension.node _ hlt, hkind]
    · rw [hkept.ownEdges _ hlt, hd]

/-- If no two fields have one label, each of them has its pattern. -/
theorem Draws.field {e : String × Filter} {d : Nat}
    (h : Draws repo vars g (.fields kind fs isOpen) id) (hlabels : (fs.map (·.1)).Nodup)
    (he : e ∈ fs) (hd : (g.ownEdges id).get? e.1 = some d) : Draws repo vars g e.2 d := by
  cases h with
  | fields _ _ _ hfields =>
    refine hfields e.1 e.2 d ?_ hd
    rw [NameMap.get?_ofList hlabels, NameMap.lookup_eq_some_iff hlabels]
    exact he

/-- The pattern of a filter is added by operations, none of which changes the edges of a node that
was there. Its variables stand for patterns, and those that had one before for the same. -/
structure Builds (repo : Repository) (g : PatternGraph) (vars : NameMap Nat) (g' : PatternGraph)
    (vars' : NameMap Nat) : Prop where
  evolves : Evolves repo g g'
  preserves : g.Preserves g'
  vars_lt : ∀ name id, vars'.get? name = some id → id < g'.size
  vars_kept : ∀ name id, vars.get? name = some id → vars'.get? name = some id

theorem Builds.refl (hvars : ∀ name id, vars.get? name = some id → id < g.size) :
    Builds repo g vars g vars := ⟨.refl, .refl g, hvars, fun _ _ h => h⟩

theorem Builds.trans {g₁ : PatternGraph} (h : Builds repo g vars g₁ vars₁)
    (h' : Builds repo g₁ vars₁ g' vars') : Builds repo g vars g' vars' where
  evolves := h.evolves.trans h'.evolves
  preserves := h.preserves.trans h'.preserves
  vars_lt := h'.vars_lt
  vars_kept name id hid := h'.vars_kept name id (h.vars_kept name id hid)

section Additions
variable (hg : g.Formed) (hvars : ∀ name id, vars.get? name = some id → id < g.size)
include hg hvars

/-- A new pattern above patterns that are there. -/
theorem Builds.node {kind : PatternKind} {edges : NameMap Nat} (hkind : kind.bound? = none)
    (hedges : ∀ l d, edges.get? l = some d → d < g.size)
    (hnormal : ∀ l, edges.contains l → kind.memberLabel repo l = l) :
    Builds repo g vars (g.pushNode kind edges).2 vars where
  evolves := .single (.node hkind hedges hnormal)
  preserves := hg.preserves_pushNode kind edges
  vars_lt name id hid := by
    rw [size_pushNode]
    exact Nat.lt_succ_of_lt (hvars name id hid)
  vars_kept _ _ hid := hid

/-- A variable that is met for the first time gets a pattern of its own. -/
theorem Builds.var {name : String} (hname : vars.get? name = none) :
    Builds repo g vars (g.pushNode .unconstrained ∅).2 (vars.insert name g.size) where
  evolves := .single (.node rfl (by simp) (by simp [NameMap.contains]))
  preserves := hg.preserves_pushNode _ _
  vars_lt x id hx := by
    rw [NameMap.get?_insert] at hx
    rw [size_pushNode]
    split_ifs at hx
    · obtain rfl := Option.some.inj hx
      exact Nat.lt_succ_self _
    · exact Nat.lt_succ_of_lt (hvars x id hx)
  vars_kept x id hx := by
    rw [NameMap.get?_insert, if_neg, hx]
    rintro rfl
    cases hname.symm.trans hx

theorem Builds.code {name : String} (hb : Binds repo name g id g') :
    Builds repo g vars g' vars where
  evolves := .single (.code hb)
  preserves := hg.preserves_of_binds hb
  vars_lt x i hx := (hvars x i hx).trans_le hb.grows.size_le
  vars_kept _ _ hx := hx

end Additions

/-- The pattern of a filter on fields is drawn once the patterns of the fields are. -/
theorem Draws.fields_pushNode {edges : List (String × Nat)} (hg : g.Formed)
    (hedges : List.Forall₂ (fun e p => e.1 = p.1 ∧ Draws repo vars g e.2 p.2) fs edges) :
    Draws repo vars (g.pushNode (kind.pattern isOpen) (.ofList edges)).2 (.fields kind fs isOpen)
      g.size := by
  have hpush := hg.preserves_pushNode (kind.pattern isOpen) (.ofList edges)
  have halike := NameMap.alike_ofList hedges
  refine .fields ?_ ?_ (fun l => ?_) fun l f d hf hd => ?_
  · rw [size_pushNode]
    exact Nat.lt_succ_self _
  · rw [node_pushNode, if_pos rfl]
  · rw [ownEdges_pushNode hg.edges_size, if_pos rfl, ← NameMap.mem_keys_iff, ← halike.keys_eq,
      NameMap.mem_keys_iff, NameMap.contains_ofList]
  · rw [ownEdges_pushNode hg.edges_size, if_pos rfl] at hd
    exact (halike.rel_of_get? hf hd).preserved hg hpush fun _ _ h => h

/-- The pattern of a filter on vectors is drawn once the pattern of the elements is. -/
theorem Draws.vector_pushNode {member : Nat} (hg : g.Formed) (h : Draws repo vars g f member) :
    Draws repo vars (g.pushNode .vector (.ofList [(Text.vectorMember, member)])).2 (.vector f)
      g.size := by
  have hpush := hg.preserves_pushNode .vector (.ofList [(Text.vectorMember, member)])
  refine .vector ?_ ?_ (h.preserved hg hpush fun _ _ h => h)
  · rw [node_pushNode, if_pos rfl]
  · rw [ownEdges_pushNode hg.edges_size, if_pos rfl]
    exact NameMap.get?_ofList_singleton.2 ⟨rfl, rfl⟩

mutual

theorem buildFrom_outcome (f : Filter) {g : PatternGraph} {vars : NameMap Nat} (hg : g.Formed)
    (hvars : ∀ name id, vars.get? name = some id → id < g.size) :
    Outcome (f.buildFrom repo vars) g
      (fun r g' => r.1 < g'.size ∧ Builds repo g vars g' r.2 ∧ Draws repo r.2 g' f r.1)
      fun e _ => e ≠ .exhausted := by
  cases f with
  | var name =>
    rw [buildFrom]
    cases hid : vars.get? name with
    | some id => exact ⟨hvars name id hid, .refl hvars, .var hid⟩
    | none =>
      rw [outcome_bind, outcome_addNode, outcome_pure, pushNode_fst, size_pushNode]
      exact ⟨Nat.lt_succ_self _, .var hg hvars hid, .var (by simp [NameMap.get?_insert])⟩
  | code name =>
    rw [buildFrom, outcome_bind]
    refine (boundNode_outcome hg).imp (fun id g' hb => ?_) fun _ _ h => h
    obtain ⟨c, hc, hid⟩ := hb.recorded
    exact ⟨hb.id_lt, .code hg hvars hb, .code hc hid⟩
  | fields kind fs isOpen =>
    rw [buildFrom, outcome_bind]
    refine (buildFieldsFrom_outcome fs hg hvars).imp ?_ fun _ _ h => h
    rintro ⟨edges, vars'⟩ g' ⟨hlt, hb, hdraws⟩
    have hg' := Evolves.formed hb.evolves hg
    rw [outcome_bind, outcome_addNode, outcome_pure, pushNode_fst, size_pushNode]
    refine ⟨Nat.lt_succ_self _, hb.trans (.node hg' hb.vars_lt (bound?_pattern _ _) ?_ ?_),
      .fields_pushNode hg' hdraws⟩
    · exact fun l d hd => hlt (l, d) (NameMap.mem_of_get?_ofList hd)
    · exact fun l _ => memberLabel_pattern kind isOpen l
  | vector element =>
    rw [buildFrom, outcome_bind]
    refine (buildFrom_outcome element hg hvars).imp ?_ fun _ _ h => h
    rintro ⟨member, vars'⟩ g' ⟨hmember, hb, hdraws⟩
    have hg' := Evolves.formed hb.evolves hg
    rw [outcome_bind, outcome_addNode, outcome_pure, pushNode_fst, size_pushNode]
    refine ⟨Nat.lt_succ_self _, hb.trans (.node hg' hb.vars_lt rfl ?_ fun l hl => ?_),
      .vector_pushNode hg' hdraws⟩
    · intro l d hd
      obtain ⟨rfl, rfl⟩ := NameMap.get?_ofList_singleton.1 hd
      exact hmember
    · rw [NameMap.contains_ofList_singleton.1 hl]
      rfl

/-- The patterns of fields are drawn one after the other, each in the graph that the last one left.
-/
theorem buildFieldsFrom_outcome (fs : List (String × Filter)) {g : PatternGraph}
    {vars : NameMap Nat} (hg : g.Formed)
    (hvars : ∀ name id, vars.get? name = some id → id < g.size) :
    Outcome (buildFieldsFrom repo fs vars) g
      (fun r g' => (∀ e ∈ r.1, e.2 < g'.size) ∧ Builds repo g vars g' r.2 ∧
        List.Forall₂ (fun e p => e.1 = p.1 ∧ Draws repo r.2 g' e.2 p.2) fs r.1)
      fun e _ => e ≠ .exhausted := by
  cases fs with
  | nil => exact ⟨by simp, .refl hvars, .nil⟩
  | cons e fs =>
    obtain ⟨label, f⟩ := e
    rw [buildFieldsFrom, outcome_bind]
    refine (buildFrom_outcome f hg hvars).imp ?_ fun _ _ h => h
    rintro ⟨id, vars'⟩ g₁ ⟨hid, hb, hdraws⟩
    have hg₁ := Evolves.formed hb.evolves hg
    rw [outcome_bind]
    refine (buildFieldsFrom_outcome fs hg₁ hb.vars_lt).imp ?_ fun _ _ h => h
    rintro ⟨edges, vars''⟩ g₂ ⟨hlt, hb', hrest⟩
    refine ⟨List.forall_mem_cons.2 ⟨?_, hlt⟩, hb.trans hb', .cons ⟨rfl, ?_⟩ hrest⟩
    · exact Nat.lt_of_lt_of_le hid hb'.preserves.extension.size_le
    · exact hdraws.preserved hg₁ hb'.preserves hb'.vars_kept

end

end Drawing

/-- The pattern of a filter is drawn by operations. -/
theorem filterNode_outcome (f : Filter) (hg : g.Formed) :
    Outcome (filterNode repo f) g
      (fun root g' => root < g'.size ∧ Evolves repo g g' ∧ ∃ vars, Draws repo vars g' f root)
      fun e _ => e ≠ .exhausted := by
  rw [filterNode, outcome_map]
  refine (f.buildFrom_outcome hg (by simp)).imp (fun r g' h => ?_) fun _ _ h => h
  exact ⟨h.1, h.2.1.evolves, r.2, h.2.2⟩

section Describing

/-- The class of a node is one that a filter describes, where its variables have the classes of the
given nodes: its shape says all that the pattern of the filter says, so that it has an edge for each
label, and the edge leads to what the field describes. Names of codes are understood as in the
repository before. -/
inductive Describes (before repo : Repository) (g : PatternGraph) (vars : NameMap Nat) :
    Filter → Nat → Prop
  | var {name : String} {n id : Nat} (hn : vars.get? name = some n) (h : g.find id = g.find n) :
      Describes before repo g vars (.var name) id
  | code {name c : String} {id : Nat} (hname : before.canonical name = some c)
      (hkind : g.kind id = .bound c) : Describes before repo g vars (.code name) id
  | fields {kind : FieldsKind} {fs : List (String × Filter)} {isOpen : Bool} {id : Nat}
      (hshape : (⟨kind.pattern isOpen, .ofList (fs.map (·.1))⟩ : Shape).Below repo (g.shape id))
      (hfields : ∀ l f d, (NameMap.ofList fs).get? l = some f →
        g.target? id ((g.kind id).memberLabel repo l) = some d → Describes before repo g vars f d) :
      Describes before repo g vars (.fields kind fs isOpen) id
  | vector {f : Filter} {id d : Nat} (hkind : (g.kind id).isVector repo)
      (hd : g.target? id Text.vectorMember = some d) (h : Describes before repo g vars f d) :
      Describes before repo g vars (.vector f) id

theorem Describes.congr (h : Describes before repo g vars f id) (hi : g.find i = g.find id) :
    Describes before repo g vars f i := by
  cases h with
  | var hn h => exact .var hn (hi.trans h)
  | code hname hkind => exact .code hname (by rwa [kind_congr hi])
  | fields hshape hfields =>
    refine .fields ?_ fun l f d hf hd => hfields l f d hf ?_
    · rwa [shape, kind_congr hi, edgesOf_congr hi, ← shape]
    · rwa [kind_congr hi, target?_congr hi] at hd
  | vector hkind hd h => exact .vector (by rwa [kind_congr hi]) (by rwa [target?_congr hi]) h

/-- What is drawn describes its class in every later graph. -/
theorem Draws.describes (h : Draws before vars g f id) (hg : g.Formed) (hext : g.Extends g')
    (hg' : g'.Settled repo []) : Describes before repo g' vars f id := by
  have hfind (n : Nat) : g'.find (g'.find n) = g'.find n := hg'.formed.find_find n
  have htarget {n d : Nat} {l : String} (hd : (g.ownEdges n).get? l = some d) :
      g'.target? n ((g'.kind n).memberLabel repo l) = some (g'.find d) :=
    hg'.target?_of_get? (hext.edges n l d hd)
  induction h with
  | var h => exact .var h rfl
  | code hname hid => exact .code hname (hext.kind_of_recorded hg'.formed hid)
  | @fields kind fs isOpen id hlt hkind hlabels hfields ih =>
    have hown : g.ownShape id = ⟨kind.pattern isOpen, .ofList (fs.map (·.1))⟩ := by
      rw [ownShape, hkind, Shape.mk.injEq]
      refine ⟨rfl, NameSet.eq_of_contains_iff fun l => ?_⟩
      rw [NameMap.contains_map, hlabels, NameSet.contains_ofList]
    refine .fields ?_ fun l f t hf ht => ?_
    · rw [← hown]
      refine hext.below_shape hg' hlt fun l _ => ?_
      rw [hown]
      exact memberLabel_pattern kind isOpen l
    · have hl := NameMap.contains_ofList.1 (NameMap.contains_of_get? hf)
      obtain ⟨d, hd⟩ := NameMap.contains_iff.1 ((hlabels l).2 hl)
      obtain rfl := Option.some.inj ((htarget hd).symm.trans ht)
      exact (ih l f d hf hd).congr (hfind d)
  | @vector f id d hkind hd h ih =>
    have hlt := lt_size_of_get? hg hd
    have hvector : (g'.kind id).isVector repo := by
      apply (hg'.above id).isVector
      rw [ownShape, hext.node id hlt, hkind]
      rfl
    refine .vector hvector ?_ (ih.congr (hfind d))
    rw [← htarget hd, PatternKind.memberLabel_of_isVector hvector
      PatternKind.isMemberLabel_vectorMember]

end Describing

end Filter

end StructuralTyping
