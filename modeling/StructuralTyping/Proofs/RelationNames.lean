import StructuralTyping.Proofs.DependencyOrder
import StructuralTyping.Proofs.Exploration
import StructuralTyping.Proofs.RelationRenaming

/-!
# What a canonical name depends on

Groups are named one after the other, each when all that it refers to has its name. So the name of a
relation is a function of its group, of the definitions in the group, and of the final names of what
these refer to outside of it: the order in which groups are named leaves no trace. Main statements:
`contains_canonicalNames`, `get?_canonicalNames` and `mem_hashedTexts`.
-/
namespace StructuralTyping.Relations
open Text
variable {rels rels' : Relations} {names names' : NameMap String} {group group' : List String}
  {f : String → String} {n m t : String} {r : Relation}

section Graph

theorem mem_edges_referenceGraph : (n, t) ∈ rels.referenceGraph.edges ↔
    ∃ r, rels.get? n = some r ∧ t ∈ r.occurrences ∧ rels.contains t := by
  simp only [referenceGraph, Digraph.ofLists, List.mem_flatMap, List.mem_map, List.mem_filter,
    NameSet.mem_toList, Relation.references, NameSet.contains_ofList, Prod.exists, Prod.mk.injEq,
    exists_eq_right_right, NameMap.get?_eq_some_iff]
  constructor
  · rintro ⟨k, r, hmem, ht, rfl⟩
    exact ⟨r, hmem, ht⟩
  · rintro ⟨r, hmem, ht⟩
    exact ⟨n, r, hmem, ht, rfl⟩

theorem mem_vertices_referenceGraph : n ∈ rels.referenceGraph.vertices ↔ rels.contains n := by
  have hvertices : n ∈ rels.referenceGraph.vertices ↔ n ∈ rels.keys ∨
      ∃ e ∈ rels.referenceGraph.edges, n = e.1 ∨ n = e.2 := Digraph.mem_vertices_ofLists
  rw [hvertices, NameMap.mem_keys_iff]
  refine or_iff_left_of_imp ?_
  rintro ⟨⟨a, b⟩, he, hn⟩
  obtain ⟨r, hr, -, hb⟩ := mem_edges_referenceGraph.1 he
  rcases hn with rfl | rfl
  · exact NameMap.contains_of_get? hr
  · exact hb

theorem contains_simplify (rels : Relations) (t : String) :
    NameMap.contains (rels.map Relation.simplify) t = rels.contains t := by
  simp [NameMap.contains, NameMap.get?_map]

/-- Simplification does not change what refers to what. -/
theorem referenceGraph_simplify (rels : Relations) :
    referenceGraph (rels.map Relation.simplify) = rels.referenceGraph := by
  have hcontains : NameMap.contains (rels.map Relation.simplify) = rels.contains :=
    funext (contains_simplify rels)
  have hkeys : NameMap.keys (rels.map Relation.simplify) = rels.keys := by
    simp [NameMap.keys, NameMap.map]
  have hedges : ((NameMap.map Relation.simplify rels).entries.flatMap fun e =>
      (e.2.references.toList.filter rels.contains).map (e.1, ·)) =
      rels.entries.flatMap fun e => (e.2.references.toList.filter rels.contains).map (e.1, ·) := by
    simp only [NameMap.map, List.flatMap_map, Relation.references, Relation.occurrences_simplify]
  change Digraph.ofLists (NameMap.keys (rels.map Relation.simplify))
    ((NameMap.map Relation.simplify rels).entries.flatMap fun e => (e.2.references.toList.filter
      (NameMap.contains (rels.map Relation.simplify))).map (e.1, ·)) =
    Digraph.ofLists rels.keys (rels.entries.flatMap fun e =>
      (e.2.references.toList.filter rels.contains).map (e.1, ·))
  rw [hkeys, hcontains, hedges]

end Graph

section Group

/-- The members of a group in ascending order. -/
def sorted (group : List String) : List String := (NameSet.ofList group).toList

theorem mem_sorted : n ∈ sorted group ↔ n ∈ group := by
  rw [sorted, NameSet.mem_toList, NameSet.contains_ofList]

theorem nodup_sorted (group : List String) : (sorted group).Nodup :=
  (NameSet.ofList group).nodup_keys

theorem mem_metMembers : t ∈ metMembers group names n r ↔
    t = n ∨ t ∈ r.occurrences ∧ names.get? t = none ∧ t ∈ group := by
  simp [metMembers, List.mem_eraseDups, NameMap.contains]

/-- The text that shows a member from its own point of view. -/
def memberText (group : List String) (names : NameMap String) (n : String) (r : Relation) :
    String :=
  (r.mapRefs (rename names (metMembers group names n r))).text

theorem memberHash_eq : memberHash group names n r = contentHash (memberText group names n r) := rfl

/-- The hashes of the members of a group. -/
def memberHashes (rels : Relations) (group : List String) (names : NameMap String) : List String :=
  group.filterMap fun n => (rels.get? n).map (memberHash group names n)

/-- The part of a name that all members of a group share. -/
def groupText (rels : Relations) (group : List String) (names : NameMap String) : String :=
  ":".intercalate (NameSet.ofList (rels.memberHashes group names)).toList

/-- The text whose hash is the canonical name of a member of a group. -/
def nameText (rels : Relations) (group : List String) (names : NameMap String) (n : String)
    (r : Relation) : String :=
  memberHash group names n r ++ ":" ++ rels.groupText group names

theorem groupNames_eq (rels : Relations) (group : List String) (names : NameMap String) :
    rels.groupNames group names = group.filterMap fun n =>
      (rels.get? n).map fun r => (n, contentHash (rels.nameText group names n r)) := by
  have hhashes : (group.filterMap fun n =>
      (rels.get? n).map fun r => (n, memberHash group names n r)).map (·.2) =
      rels.memberHashes group names := by
    simp [memberHashes, List.map_filterMap, Option.map_map, Function.comp_def]
  simp only [groupNames, hhashes, List.map_filterMap, Option.map_map, Function.comp_def]
  rfl

theorem lookup_groupNames : NameMap.lookup n (rels.groupNames group names) =
    if n ∈ group then (rels.get? n).map fun r => contentHash (rels.nameText group names n r)
    else none := by
  have hpair : rels.groupNames group names = group.filterMap fun m =>
      ((rels.get? m).map fun r => contentHash (rels.nameText group names m r)).map (m, ·) := by
    simp only [groupNames_eq, Option.map_map]
    rfl
  rw [hpair, NameMap.lookup_filterMap_mk]

theorem nodup_keys_groupNames (hgroup : group.Nodup) :
    ((rels.groupNames group names).map (·.1)).Nodup := by
  have hkeys : (rels.groupNames group names).map (·.1) = group.filter rels.contains := by
    rw [groupNames_eq, List.map_filterMap, ← List.filterMap_eq_filter]
    refine List.filterMap_congr fun m _ => ?_
    cases hm : rels.get? m <;> simp [NameMap.contains, Option.guard, hm]
  rw [hkeys]
  exact hgroup.filter _

/-- The text of a member shows the names of what its definition refers to. -/
theorem memberText_congr (hnames : ∀ t ∈ r.occurrences, names.get? t = names'.get? t) :
    memberText group names n r = memberText group names' n r := by
  have hmet : metMembers group names n r = metMembers group names' n r := by
    unfold metMembers
    congr 2
    refine List.filter_congr fun t ht => ?_
    rw [NameMap.contains, NameMap.contains, hnames t ht]
  unfold memberText
  rw [hmet, Relation.mapRefs_congr fun t ht => ?_]
  rw [rename, rename, hnames t ht]

/-- The name of a member tells the names of what the definitions in its group refer to. -/
theorem nameText_congr (hnames : ∀ m ∈ group, ∀ r, rels.get? m = some r →
      ∀ t ∈ r.occurrences, names.get? t = names'.get? t)
    (hn : n ∈ group) (hr : rels.get? n = some r) :
    rels.nameText group names n r = rels.nameText group names' n r := by
  have hmember : ∀ m ∈ group, ∀ r, rels.get? m = some r →
      memberHash group names m r = memberHash group names' m r := by
    intro m hm r hr
    rw [memberHash_eq, memberHash_eq, memberText_congr (hnames m hm r hr)]
  have hhashes : rels.memberHashes group names = rels.memberHashes group names' := by
    refine List.filterMap_congr fun m hm => ?_
    cases hr : rels.get? m with
    | none => rw [Option.map_none, Option.map_none]
    | some r => rw [Option.map_some, Option.map_some, hmember m hm r hr]
  rw [nameText, nameText, groupText, groupText, hhashes, hmember n hn r hr]

/-- Add the names of a group. -/
def nameGroup (rels : Relations) (names : NameMap String) (group : List String) : NameMap String :=
  (rels.groupNames (sorted group) names).foldl (fun names n => names.insert n.1 n.2) names

theorem get?_nameGroup : (rels.nameGroup names group).get? n =
    if n ∈ group then
      ((rels.get? n).map fun r => contentHash (rels.nameText (sorted group) names n r)).or
        (names.get? n)
    else names.get? n := by
  rw [nameGroup, NameMap.get?_foldl_insert (nodup_keys_groupNames (nodup_sorted group)),
    lookup_groupNames]
  simp only [mem_sorted]
  split_ifs <;> simp

/-- The texts that are hashed to name a group. -/
def groupTexts (rels : Relations) (names : NameMap String) (group : List String) : List String :=
  group.flatMap fun n => (rels.get? n).toList.flatMap fun r =>
    [memberText group names n r, rels.nameText group names n r]

/-- Name a group, and note the texts that are hashed for it. -/
def noteGroup (rels : Relations) (run : NameMap String × List String) (group : List String) :
    NameMap String × List String :=
  (rels.nameGroup run.1 group, run.2 ++ rels.groupTexts run.1 (sorted group))

/-- The names of relations that are simplified already, and all texts that are hashed for them. -/
def namingRun (rels : Relations) : NameMap String × List String :=
  rels.referenceGraph.condensation.leavesFirst.foldl rels.noteGroup (∅, [])

/-- The texts that are hashed to give all relations their names. -/
def hashedTexts (rels : Relations) : List String := (namingRun (rels.map Relation.simplify)).2

theorem canonicalNames_eq (rels : Relations) :
    rels.canonicalNames = (namingRun (rels.map Relation.simplify)).1 := by
  have hfst (rels : Relations) (run : NameMap String × List String) (groups : List (List String)) :
      (groups.foldl rels.noteGroup run).1 = groups.foldl rels.nameGroup run.1 := by
    induction groups generalizing run with
    | nil => rfl
    | cons group groups ih => exact ih _
  exact (hfst (rels.map Relation.simplify) (∅, []) _).symm

end Group

section Order

/-- The names without those of a group. -/
def outside (names : NameMap String) (group : List String) : NameMap String :=
  names.filter fun m _ => m ∉ group

theorem get?_outside :
    (outside names group).get? n = if n ∈ group then none else names.get? n := by
  rw [outside, NameMap.get?_filter]
  split_ifs with hn <;> cases names.get? n <;> simp [hn]

/-- What holds when the components at the positions in `order` are named. -/
structure Named (rels : Relations) (order : List Nat) (run : NameMap String × List String) :
    Prop where
  contains_iff : ∀ m, run.1.contains m ↔
    ∃ i ∈ order, ∃ c, rels.referenceGraph.components[i]? = some c ∧ m ∈ c
  get?_eq : ∀ i ∈ order, ∀ c, rels.referenceGraph.components[i]? = some c → ∀ m ∈ c, ∀ r,
    rels.get? m = some r →
      run.1.get? m = some (contentHash (rels.nameText (sorted c) (outside run.1 c) m r))
  noted : ∀ i ∈ order, ∀ c, rels.referenceGraph.components[i]? = some c → ∀ m ∈ c, ∀ r,
    rels.get? m = some r → memberText (sorted c) (outside run.1 c) m r ∈ run.2 ∧
      rels.nameText (sorted c) (outside run.1 c) m r ∈ run.2

variable {order : List Nat} {i j : Nat} {c d : List String} {run : NameMap String × List String}

theorem contains_of_mem_component (hc : c ∈ rels.referenceGraph.components) (hm : m ∈ c) :
    rels.contains m :=
  mem_vertices_referenceGraph.1 (Digraph.mem_vertices_of_component hc hm)

theorem exists_get?_of_mem_component (hc : c ∈ rels.referenceGraph.components) (hm : m ∈ c) :
    ∃ r, rels.get? m = some r := NameMap.contains_iff.1 (contains_of_mem_component hc hm)

theorem Named.nil (rels : Relations) : Named rels [] (∅, []) where
  contains_iff m := by simp [NameMap.contains]
  get?_eq i hi := absurd hi List.not_mem_nil
  noted i hi := absurd hi List.not_mem_nil

section Step
variable (h : Named rels order run) (hi : i ∉ order)
  (hc : rels.referenceGraph.components[i]? = some c)
include h hi hc

theorem Named.get?_fresh (hm : m ∈ c) : run.1.get? m = none := by
  refine NameMap.get?_eq_none_iff.2 fun hin => ?_
  obtain ⟨j, hj, d, hd, hmd⟩ := (h.contains_iff m).1 hin
  exact hi (Digraph.components_disjoint hd hc hmd hm ▸ hj)

/-- The names that a component was named with are those outside of it. -/
theorem Named.outside_nameGroup : outside (rels.nameGroup run.1 c) c = run.1 := by
  apply NameMap.ext
  intro m
  rw [get?_outside, get?_nameGroup]
  split_ifs with hm
  · exact (h.get?_fresh hi hc hm).symm
  · rfl

omit h in
/-- No definition in an earlier component refers to the new one. -/
theorem get?_outside_nameGroup
    (hclosed : ∀ j ∈ order, ∀ k, (j, k) ∈ rels.referenceGraph.condensation.graph.edges →
      k ∈ order)
    (hj : j ∈ order) (hd : rels.referenceGraph.components[j]? = some d) (hm : m ∈ d)
    (hr : rels.get? m = some r) (ht : t ∈ r.occurrences) :
    (outside (rels.nameGroup run.1 c) d).get? t = (outside run.1 d).get? t := by
  have hfree : t ∉ c := by
    intro htc
    obtain ⟨u, hu⟩ := exists_get?_of_mem_component (List.mem_of_getElem? hc) htc
    have hedge : (j, i) ∈ rels.referenceGraph.condensation.graph.edges :=
      Digraph.mem_edges_condensation.2 ⟨fun hji => hi (hji ▸ hj), m, t,
        mem_edges_referenceGraph.2 ⟨r, hr, ht, NameMap.contains_of_get? hu⟩,
        Digraph.componentIndex_eq hd hm, Digraph.componentIndex_eq hc htc⟩
    exact hi (hclosed j hj i hedge)
  rw [get?_outside, get?_outside, get?_nameGroup, if_neg hfree]

/-- Naming one more component, all that it refers to being named. -/
theorem Named.snoc
    (hclosed : ∀ j ∈ order, ∀ k, (j, k) ∈ rels.referenceGraph.condensation.graph.edges →
      k ∈ order) :
    Named rels (order ++ [i]) (rels.noteGroup run c) := by
  have hnew : ∀ m ∈ c, ∀ r, rels.get? m = some r → (rels.nameGroup run.1 c).get? m =
      some (contentHash (rels.nameText (sorted c) run.1 m r)) := by
    intro m hm r hr
    simp [get?_nameGroup, hm, hr]
  have hold : ∀ m, m ∉ c → (rels.nameGroup run.1 c).get? m = run.1.get? m := by
    intro m hm
    simp [get?_nameGroup, hm]
  unfold noteGroup
  constructor
  case contains_iff =>
    intro m
    simp only [List.mem_append, List.mem_singleton]
    by_cases hm : m ∈ c
    · obtain ⟨r, hr⟩ := exists_get?_of_mem_component (List.mem_of_getElem? hc) hm
      exact iff_of_true (NameMap.contains_of_get? (hnew m hm r hr)) ⟨i, .inr rfl, c, hc, hm⟩
    · rw [NameMap.contains, hold m hm, ← NameMap.contains, h.contains_iff]
      constructor
      · rintro ⟨j, hj, hmd⟩
        exact ⟨j, .inl hj, hmd⟩
      · rintro ⟨j, hj | rfl, d, hd, hmd⟩
        · exact ⟨j, hj, d, hd, hmd⟩
        · exact absurd (Option.some.inj (hd.symm.trans hc) ▸ hmd) hm
  case get?_eq =>
    intro j hj d hd m hm r hr
    rcases List.mem_append.1 hj with hj | hj
    · have hne : m ∉ c := fun hmc => hi (Digraph.components_disjoint hd hc hm hmc ▸ hj)
      rw [hold m hne, h.get?_eq j hj d hd m hm r hr]
      refine congrArg (fun text => some (contentHash text))
        (nameText_congr (fun x hx s hs t ht => ?_) (mem_sorted.2 hm) hr)
      exact (get?_outside_nameGroup hi hc hclosed hj hd (mem_sorted.1 hx) hs ht).symm
    · obtain rfl := List.mem_singleton.1 hj
      obtain rfl : c = d := Option.some.inj (hc.symm.trans hd)
      rw [h.outside_nameGroup hi hc]
      exact hnew m hm r hr
  case noted =>
    intro j hj d hd m hm r hr
    rcases List.mem_append.1 hj with hj | hj
    · obtain ⟨hmember, hname⟩ := h.noted j hj d hd m hm r hr
      rw [memberText_congr fun t ht => get?_outside_nameGroup hi hc hclosed hj hd hm hr ht,
        nameText_congr (fun x hx s hs t ht =>
          get?_outside_nameGroup hi hc hclosed hj hd (mem_sorted.1 hx) hs ht) (mem_sorted.2 hm) hr]
      exact ⟨List.mem_append_left _ hmember, List.mem_append_left _ hname⟩
    · obtain rfl := List.mem_singleton.1 hj
      obtain rfl : c = d := Option.some.inj (hc.symm.trans hd)
      rw [h.outside_nameGroup hi hc]
      have htexts : ∀ text ∈ [memberText (sorted c) run.1 m r, rels.nameText (sorted c) run.1 m r],
          text ∈ run.2 ++ rels.groupTexts run.1 (sorted c) := by
        intro text htext
        refine List.mem_append_right _ (List.mem_flatMap.2 ⟨m, mem_sorted.2 hm, ?_⟩)
        simpa [hr] using htext
      exact ⟨htexts _ (by simp), htexts _ (by simp)⟩

end Step

/-- Naming components in dependency order. -/
theorem Named.of_dependencyFirst (hnodup : order.Nodup)
    (hbound : ∀ i ∈ order, i < rels.referenceGraph.components.length)
    (horder : rels.referenceGraph.condensation.graph.DependencyFirst order) :
    (∀ j ∈ order, ∀ k, (j, k) ∈ rels.referenceGraph.condensation.graph.edges → k ∈ order) ∧
    Named rels order ((order.filterMap (rels.referenceGraph.components[·]?)).foldl
      rels.noteGroup (∅, [])) := by
  induction horder with
  | nil => exact ⟨by simp, Named.nil rels⟩
  | @snoc order i _ hsuccessors ih =>
    obtain ⟨hnodup', -, hdisjoint⟩ := List.nodup_append.1 hnodup
    obtain ⟨hclosed, hnamed⟩ := ih hnodup' fun j hj => hbound j (List.mem_append_left _ hj)
    have hi : i ∉ order := fun hin => hdisjoint i hin i (List.mem_singleton.2 rfl) rfl
    refine ⟨fun j hj k hk => ?_, ?_⟩
    · rcases List.mem_append.1 hj with hj | hj
      · exact List.mem_append_left _ (hclosed j hj k hk)
      · obtain rfl := List.mem_singleton.1 hj
        exact List.mem_append_left _ (hsuccessors k hk)
    · have hc := List.getElem?_eq_getElem (hbound i (by simp))
      rw [List.filterMap_append, List.foldl_append]
      simpa [hc] using hnamed.snoc hi hc hclosed

theorem named_namingRun (rels : Relations) :
    Named rels rels.referenceGraph.condensation.graph.topological rels.namingRun := by
  obtain ⟨horder, hnodup, -⟩ := Digraph.topological_spec rels.referenceGraph.condensation.graph
  exact (Named.of_dependencyFirst hnodup
    (fun i hi => Digraph.mem_topological_condensation.1 hi) horder).2

theorem contains_canonicalNames (rels : Relations) (m : String) :
    rels.canonicalNames.contains m ↔ rels.contains m := by
  rw [canonicalNames_eq, (named_namingRun _).contains_iff, referenceGraph_simplify,
    ← mem_vertices_referenceGraph]
  constructor
  · rintro ⟨i, -, c, hc, hm⟩
    exact Digraph.mem_vertices_of_component (List.mem_of_getElem? hc) hm
  · intro hm
    obtain ⟨c, hc, hmc⟩ := Digraph.getElem?_componentIndex hm
    exact ⟨_, Digraph.mem_topological_condensation.2 (List.getElem?_eq_some_iff.1 hc).1, c, hc, hmc⟩

variable (hc : c ∈ rels.referenceGraph.components) (hn : n ∈ c) (hr : rels.get? n = some r)
include hc hn hr

/-- A name is that of a member of its group, given the names of all that is outside of it. -/
theorem get?_canonicalNames : rels.canonicalNames.get? n =
    some (contentHash (nameText (rels.map Relation.simplify) (sorted c)
      (outside rels.canonicalNames c) n r.simplify)) := by
  rw [← referenceGraph_simplify] at hc
  obtain ⟨i, hi, rfl⟩ := List.getElem_of_mem hc
  rw [canonicalNames_eq]
  exact (named_namingRun _).get?_eq i (Digraph.mem_topological_condensation.2 hi) _
    (List.getElem?_eq_getElem hi) n hn _ (by rw [NameMap.get?_map, hr, Option.map_some])

theorem mem_hashedTexts :
    memberText (sorted c) (outside rels.canonicalNames c) n r.simplify ∈ rels.hashedTexts ∧
    nameText (rels.map Relation.simplify) (sorted c) (outside rels.canonicalNames c) n
      r.simplify ∈ rels.hashedTexts := by
  rw [← referenceGraph_simplify] at hc
  obtain ⟨i, hi, rfl⟩ := List.getElem_of_mem hc
  rw [canonicalNames_eq]
  exact (named_namingRun _).noted i (Digraph.mem_topological_condensation.2 hi) _
    (List.getElem?_eq_getElem hi) n hn _ (by rw [NameMap.get?_map, hr, Option.map_some])

end Order

end StructuralTyping.Relations
