import Mathlib.Data.Set.Function
import StructuralTyping.Proofs.RelationNames

/-!
# Names depend on reachable definitions up to renaming

A bijection between what can be reached from two relations that carries definitions to definitions
carries groups to groups. Inside a group it keeps the order in which members are met, so it keeps
the placeholders; outside of it what is referred to has the same name by induction along the order
of the components. So the hashed texts are the same.
-/
namespace StructuralTyping.Relations
open Text
open List (Forall₂)
variable {rels rels' : Relations} {names names' : NameMap String} {group group' : List String}
  {f : String → String} {n m t : String} {r : Relation}

section Group

/-- A renaming of a group, under which the names of all that is outside of it stay the same. -/
structure GroupRenaming (rels rels' : Relations) (group group' : List String)
    (names names' : NameMap String) (f : String → String) : Prop where
  image : ∀ m', m' ∈ group' ↔ ∃ m ∈ group, f m = m'
  injective : ∀ a ∈ group, ∀ b ∈ group, f a = f b → a = b
  definition : ∀ m ∈ group, ∃ r, rels.get? m = some r ∧ rels'.get? (f m) = some (r.mapRefs f)
  unnamed : ∀ m ∈ group, names.get? m = none ∧ names'.get? (f m) = none
  others : ∀ m ∈ group, ∀ r, rels.get? m = some r → ∀ t ∈ r.occurrences, t ∉ group →
    f t ∉ group' ∧ names'.get? (f t) = names.get? t ∧ (names.get? t = none → f t = t)

variable (h : GroupRenaming rels rels' group group' names names' f)
include h

theorem GroupRenaming.biUnique : Relator.BiUnique fun a b => a ∈ group ∧ b = f a := by
  constructor
  · rintro a b c ⟨ha, rfl⟩ ⟨hb, hab⟩
    exact h.injective a ha b hb hab
  · rintro a b c ⟨-, rfl⟩ ⟨-, rfl⟩
    rfl

theorem GroupRenaming.mem (hm : m ∈ group) : f m ∈ group' := (h.image _).2 ⟨m, hm, rfl⟩

/-- Members are met in the same order. -/
theorem GroupRenaming.metMembers (hm : m ∈ group) (hr : rels.get? m = some r) :
    Forall₂ (fun a b => a ∈ group ∧ b = f a) (metMembers group names m r)
      (metMembers group' names' (f m) (r.mapRefs f)) := by
  have hkeep : ∀ t ∈ r.occurrences, (!names'.contains (f t) && decide (f t ∈ group')) =
      (!names.contains t && decide (t ∈ group)) := by
    intro t ht
    by_cases htg : t ∈ group
    · obtain ⟨hnone, hnone'⟩ := h.unnamed t htg
      simp [NameMap.contains, hnone, hnone', htg, h.mem htg]
    · simp [htg, (h.others m hm r hr t ht htg).1]
  unfold Relations.metMembers
  refine Codes.forall₂_eraseDups h.biUnique (.cons ⟨hm, rfl⟩ ?_)
  rw [Relation.occurrences_mapRefs, List.filter_map, List.forall₂_map_right_iff, Function.comp_def,
    List.filter_congr hkeep]
  refine List.forall₂_same.2 fun t ht => ⟨?_, rfl⟩
  simpa using (Bool.and_eq_true_iff.1 (List.mem_filter.1 ht).2).2

theorem GroupRenaming.rename_eq (hm : m ∈ group) (hr : rels.get? m = some r)
    (ht : t ∈ r.occurrences) :
    rename names' (Relations.metMembers group' names' (f m) (r.mapRefs f)) (f t) =
      rename names (Relations.metMembers group names m r) t := by
  unfold rename
  by_cases htg : t ∈ group
  · obtain ⟨hnone, hnone'⟩ := h.unnamed t htg
    have hmet : t ∈ Relations.metMembers group names m r :=
      mem_metMembers.2 (.inr ⟨ht, hnone, htg⟩)
    have hmet' := (List.rel_mem h.biUnique ⟨htg, rfl⟩ (h.metMembers hm hr)).1 hmet
    simp only [hnone, hnone', hmet, hmet', if_true,
      Codes.idxOf_eq_of_forall₂ h.biUnique (h.metMembers hm hr) ⟨htg, rfl⟩]
  · obtain ⟨hnot, hname, hself⟩ := h.others m hm r hr t ht htg
    rw [hname]
    cases hget : names.get? t with
    | some canonical => rfl
    | none =>
      have hmet : t ∉ Relations.metMembers group names m r := by
        rw [mem_metMembers]
        rintro (rfl | ⟨-, -, htg'⟩)
        · exact htg hm
        · exact htg htg'
      have hmet' : f t ∉ Relations.metMembers group' names' (f m) (r.mapRefs f) := by
        rw [mem_metMembers]
        rintro (heq | ⟨-, -, htg'⟩)
        · exact hnot (heq ▸ h.mem hm)
        · exact hnot htg'
      rw [hself hget] at hmet' ⊢
      simp only [if_neg hmet, if_neg hmet']

theorem GroupRenaming.memberHash_eq (hm : m ∈ group) (hr : rels.get? m = some r) :
    memberHash group' names' (f m) (r.mapRefs f) = memberHash group names m r := by
  unfold memberHash
  rw [Relation.mapRefs_mapRefs, Relation.mapRefs_congr fun t ht => h.rename_eq hm hr ht]

/-- A renaming of a group keeps the texts that name its members. -/
theorem GroupRenaming.nameText_eq (hm : m ∈ group) (hr : rels.get? m = some r) :
    rels'.nameText group' names' (f m) (r.mapRefs f) = rels.nameText group names m r := by
  have hhashes : NameSet.ofList (rels'.memberHashes group' names') =
      NameSet.ofList (rels.memberHashes group names) := by
    apply NameSet.eq_of_contains_iff
    intro x
    simp only [NameSet.contains_ofList, memberHashes, List.mem_filterMap, Option.map_eq_some_iff]
    constructor
    · rintro ⟨m', hm', r', hr', rfl⟩
      obtain ⟨m, hm, rfl⟩ := (h.image m').1 hm'
      obtain ⟨r, hr, hr''⟩ := h.definition m hm
      obtain rfl := Option.some.inj (hr''.symm.trans hr')
      exact ⟨m, hm, r, hr, (h.memberHash_eq hm hr).symm⟩
    · rintro ⟨m, hm, r, hr, rfl⟩
      obtain ⟨s, hs, hs'⟩ := h.definition m hm
      obtain rfl := Option.some.inj (hr.symm.trans hs)
      exact ⟨f m, h.mem hm, _, hs', h.memberHash_eq hm hr⟩
  rw [nameText, nameText, groupText, groupText, hhashes, h.memberHash_eq hm hr]

end Group

section Reachable

/-- `f` is a bijection between the definitions that can be reached from `n` and from `n'`, and
simplified definitions that correspond are equal after renaming the defined references. -/
structure Renames (rels rels' : Relations) (n n' : String) (f : String → String) : Prop where
  root : f n = n'
  defined : rels.contains n
  bijective : Set.BijOn f {m | rels.referenceGraph.Reaches n m}
    {m | rels'.referenceGraph.Reaches n' m}
  definition : ∀ m, rels.referenceGraph.Reaches n m → ∀ r, rels.get? m = some r →
    ∃ r', rels'.get? (f m) = some r' ∧
      r'.simplify = r.simplify.mapRefs fun t => if rels.contains t then f t else t
  undefined : ∀ m, rels.referenceGraph.Reaches n m → ∀ r, rels.get? m = some r →
    ∀ t ∈ r.occurrences, ¬rels.contains t → ¬rels'.contains t

variable {n' : String} (h : Renames rels rels' n n' f)
include h

theorem Renames.contains (hm : rels.referenceGraph.Reaches n m) : rels.contains m :=
  mem_vertices_referenceGraph.1
    (Digraph.mem_vertices_of_reaches (mem_vertices_referenceGraph.2 h.defined) hm)

theorem Renames.contains_image (hm : rels.referenceGraph.Reaches n m) : rels'.contains (f m) := by
  obtain ⟨r, hr⟩ := NameMap.contains_iff.1 (h.contains hm)
  obtain ⟨r', hr', -⟩ := h.definition m hm r hr
  exact NameMap.contains_of_get? hr'

/-- References go to references. -/
theorem Renames.mem_edges_iff (hm : rels.referenceGraph.Reaches n m) {t' : String} :
    (f m, t') ∈ rels'.referenceGraph.edges ↔
      ∃ t, (m, t) ∈ rels.referenceGraph.edges ∧ f t = t' := by
  obtain ⟨r, hr⟩ := NameMap.contains_iff.1 (h.contains hm)
  obtain ⟨r', hr', hsimplify⟩ := h.definition m hm r hr
  have hoccurrences : r'.occurrences =
      r.occurrences.map fun t => if rels.contains t then f t else t := by
    rw [← Relation.occurrences_simplify, hsimplify, Relation.occurrences_mapRefs,
      Relation.occurrences_simplify]
  simp only [mem_edges_referenceGraph, hr, hr', Option.some.injEq, exists_eq_left', hoccurrences,
    List.mem_map]
  constructor
  · rintro ⟨⟨t, ht, rfl⟩, hdefined⟩
    by_cases htd : rels.contains t
    · exact ⟨t, ⟨ht, htd⟩, by simp [htd]⟩
    · rw [if_neg htd] at hdefined
      exact absurd hdefined (h.undefined m hm r hr t ht htd)
  · rintro ⟨t, ⟨ht, htd⟩, rfl⟩
    have hedge := mem_edges_referenceGraph.2 ⟨r, hr, ht, htd⟩
    exact ⟨⟨t, ht, by simp [htd]⟩, h.contains_image (hm.trans (.single hedge))⟩

theorem Renames.reaches_iff (hm : rels.referenceGraph.Reaches n m) {t' : String} :
    rels'.referenceGraph.Reaches (f m) t' ↔ ∃ t, rels.referenceGraph.Reaches m t ∧ f t = t' := by
  constructor
  · intro hpath
    generalize hstart : f m = m' at hpath
    induction hpath generalizing m with
    | refl => exact ⟨m, .refl m, hstart⟩
    | step hedge _ ih =>
      obtain ⟨t, ht, hft⟩ := (h.mem_edges_iff hm).1 (hstart ▸ hedge)
      obtain ⟨x, hx, hfx⟩ := ih (hm.trans (.single ht)) hft
      exact ⟨x, .step ht hx, hfx⟩
  · rintro ⟨t, hpath, rfl⟩
    induction hpath with
    | refl => exact .refl _
    | step hedge _ ih =>
      exact .step ((h.mem_edges_iff hm).2 ⟨_, hedge, rfl⟩) (ih (hm.trans (.single hedge)))

theorem Renames.injective (hm : rels.referenceGraph.Reaches n m)
    (ht : rels.referenceGraph.Reaches n t) (heq : f m = f t) : m = t :=
  h.bijective.injOn hm ht heq

/-- Groups go to groups. -/
theorem Renames.mem_component_iff {c c' : List String} (hm : rels.referenceGraph.Reaches n m)
    (hc : c ∈ rels.referenceGraph.components) (hmc : m ∈ c)
    (hc' : c' ∈ rels'.referenceGraph.components) (hmc' : f m ∈ c') {t' : String} :
    t' ∈ c' ↔ ∃ t ∈ c, f t = t' := by
  rw [Digraph.mem_component_iff hc' hmc', h.reaches_iff hm]
  constructor
  · rintro ⟨⟨t, hmt, rfl⟩, hback⟩
    obtain ⟨x, htx, hfx⟩ := (h.reaches_iff (hm.trans hmt)).1 hback
    obtain rfl := h.injective (hm.trans (hmt.trans htx)) hm hfx
    exact ⟨t, (Digraph.mem_component_iff hc hmc).2 ⟨hmt, htx⟩, rfl⟩
  · rintro ⟨t, ht, rfl⟩
    obtain ⟨hmt, htm⟩ := (Digraph.mem_component_iff hc hmc).1 ht
    exact ⟨⟨t, hmt, rfl⟩, (h.reaches_iff (hm.trans hmt)).2 ⟨m, htm, rfl⟩⟩

theorem Renames.groupRenaming {c c' : List String} (hm : rels.referenceGraph.Reaches n m)
    (hc : c ∈ rels.referenceGraph.components) (hmc : m ∈ c)
    (hc' : c' ∈ rels'.referenceGraph.components) (hmc' : f m ∈ c')
    (hnames : ∀ t, rels.referenceGraph.Reaches m t → t ∉ c →
      rels'.canonicalNames.get? (f t) = rels.canonicalNames.get? t) :
    GroupRenaming (rels.map Relation.simplify) (rels'.map Relation.simplify) (sorted c) (sorted c')
      (outside rels.canonicalNames c) (outside rels'.canonicalNames c')
      (fun t => if rels.contains t then f t else t) := by
  have hreaches : ∀ t ∈ c, rels.referenceGraph.Reaches n t := fun t ht =>
    hm.trans (Digraph.reaches_of_mem_component hc hmc ht)
  have hdefined : ∀ t ∈ c, rels.contains t := fun t ht => h.contains (hreaches t ht)
  have hiff (t' : String) : t' ∈ c' ↔ ∃ t ∈ c, f t = t' :=
    h.mem_component_iff hm hc hmc hc' hmc'
  constructor
  case image =>
    intro m'
    simp only [mem_sorted, hiff]
    exact exists_congr fun t => and_congr_right fun ht => by rw [if_pos (hdefined t ht)]
  case injective =>
    intro a ha b hb
    rw [mem_sorted] at ha hb
    rw [if_pos (hdefined a ha), if_pos (hdefined b hb)]
    exact h.injective (hreaches a ha) (hreaches b hb)
  case definition =>
    intro t ht
    rw [mem_sorted] at ht
    obtain ⟨r, hr⟩ := NameMap.contains_iff.1 (hdefined t ht)
    obtain ⟨r', hr', hsimplify⟩ := h.definition t (hreaches t ht) r hr
    refine ⟨r.simplify, by simp [NameMap.get?_map, hr], ?_⟩
    simp [NameMap.get?_map, hdefined t ht, hr', hsimplify]
  case unnamed =>
    intro t ht
    rw [mem_sorted] at ht
    have ht' : f t ∈ c' := (hiff _).2 ⟨t, ht, rfl⟩
    simp [get?_outside, ht, ht', hdefined t ht]
  case others =>
    intro x hx s hs t ht htc
    rw [mem_sorted] at hx htc
    obtain ⟨r, hr⟩ := NameMap.contains_iff.1 (hdefined x hx)
    obtain rfl : r.simplify = s := by simpa [NameMap.get?_map, hr] using hs
    rw [Relation.occurrences_simplify] at ht
    rw [mem_sorted, get?_outside, get?_outside, if_neg htc]
    by_cases htd : rels.contains t
    · have hxt := Digraph.Reaches.single (mem_edges_referenceGraph.2 ⟨r, hr, ht, htd⟩)
      have hnot : f t ∉ c' := by
        rw [hiff]
        rintro ⟨u, hu, huf⟩
        exact htc (h.injective (hreaches u hu) ((hreaches x hx).trans hxt) huf ▸ hu)
      have hmt := (Digraph.reaches_of_mem_component hc hmc hx).trans hxt
      obtain ⟨name, hname⟩ :=
        NameMap.contains_iff.1 ((contains_canonicalNames rels t).2 htd)
      simp [htd, hnot, hnames t hmt htc, hname]
    · have htd' := h.undefined x (hreaches x hx) r hr t ht htd
      have hnot : t ∉ c' := fun htc' =>
        htd' (mem_vertices_referenceGraph.1 (Digraph.mem_vertices_of_component hc' htc'))
      have hnone := htd
      rw [← contains_canonicalNames, ← NameMap.get?_eq_none_iff] at hnone htd'
      simp [htd, hnot, hnone, htd']

/-- Along the order of the components, all that can be reached has the name of its image. -/
theorem Renames.get?_eq (hm : rels.referenceGraph.Reaches n m) :
    rels'.canonicalNames.get? (f m) = rels.canonicalNames.get? m := by
  induction hindex : rels.referenceGraph.componentIndex m using Nat.strong_induction_on
    generalizing m with
  | _ i ih =>
    have hdefined := h.contains hm
    obtain ⟨r, hr⟩ := NameMap.contains_iff.1 hdefined
    obtain ⟨r', hr', hsimplify⟩ := h.definition m hm r hr
    obtain ⟨c, hc, hmc⟩ := Digraph.getElem?_componentIndex (mem_vertices_referenceGraph.2 hdefined)
    have hc_mem := List.mem_of_getElem? hc
    obtain ⟨c', hc', hmc'⟩ := Digraph.exists_component
      (mem_vertices_referenceGraph.2 (h.contains_image hm))
    have hnames : ∀ t, rels.referenceGraph.Reaches m t → t ∉ c →
        rels'.canonicalNames.get? (f t) = rels.canonicalNames.get? t := by
      intro t hmt htc
      have htd := h.contains (hm.trans hmt)
      obtain ⟨d, hd, htd⟩ := Digraph.getElem?_componentIndex (mem_vertices_referenceGraph.2 htd)
      refine ih _ ?_ (hm.trans hmt) rfl
      rw [← hindex]
      refine Digraph.lt_of_reaches hc hd (fun heq => htc ?_) hmc htd hmt
      rw [heq] at hc
      exact Option.some.inj (hd.symm.trans hc) ▸ htd
    have hgroup := h.groupRenaming hm hc_mem hmc hc' hmc' hnames
    have hmember := hgroup.nameText_eq (r := r.simplify) (mem_sorted.2 hmc)
      (by rw [NameMap.get?_map, hr, Option.map_some])
    simp only [if_pos hdefined] at hmember
    rw [get?_canonicalNames hc_mem hmc hr, get?_canonicalNames hc' hmc' hr', hsimplify, hmember]

end Reachable

section Same

theorem reaches_of_same
    (hsame : ∀ m, rels.referenceGraph.Reaches n m → rels.get? m = rels'.get? m)
    (h : rels.referenceGraph.Reaches n m) : rels'.referenceGraph.Reaches n m := by
  refine (h.mem_of_closed (p := fun u => rels.referenceGraph.Reaches n u ∧
    rels'.referenceGraph.Reaches n u) ?_ ⟨.refl n, .refl n⟩).2
  rintro u ⟨hu, hu'⟩ v huv
  have hv := hu.trans (.single huv)
  obtain ⟨r, hr, ht, hdefined⟩ := mem_edges_referenceGraph.1 huv
  rw [NameMap.contains, hsame v hv] at hdefined
  rw [hsame u hu] at hr
  exact ⟨hv, hu'.trans (.single (mem_edges_referenceGraph.2 ⟨r, hr, ht, hdefined⟩))⟩

theorem Renames.of_same (hn : rels.contains n)
    (hsame : ∀ m, rels.referenceGraph.Reaches n m ∨ rels'.referenceGraph.Reaches n m →
      rels.get? m = rels'.get? m) : Renames rels rels' n n id := by
  have hreaches : {m | rels.referenceGraph.Reaches n m} =
      {m | rels'.referenceGraph.Reaches n m} := by
    ext m
    exact ⟨reaches_of_same fun m hm => hsame m (.inl hm),
      reaches_of_same fun m hm => (hsame m (.inr hm)).symm⟩
  refine ⟨rfl, hn, hreaches ▸ Set.bijOn_id _, fun m hm r hr => ?_,
    fun m hm r hr t ht htd htd' => ?_⟩
  · refine ⟨r, (hsame m (.inl hm)).symm.trans hr, ?_⟩
    simp only [id_eq, ite_self, Relation.mapRefs_id]
  · -- A definition for an undefined reference would be reachable.
    have hm' := reaches_of_same (fun m hm => hsame m (.inl hm)) hm
    have hr' := (hsame m (.inl hm)).symm.trans hr
    have ht' := hm'.trans (.single (mem_edges_referenceGraph.2 ⟨r, hr', ht, htd'⟩))
    rw [NameMap.contains, ← hsame t (.inr ht'), ← NameMap.contains] at htd'
    exact htd htd'

end Same

/-- Every defined relation has a name; relations whose reachable definitions are the same up to
renaming have the same name, and so have relations whose reachable definitions are the same. -/
theorem canonicalNames_of_reachable :
    (∀ (rels : Relations) (m : String), rels.canonicalNames.contains m ↔ rels.contains m) ∧
    (∀ (rels rels' : Relations) (n n' : String) (f : String → String), Renames rels rels' n n' f →
      ∃ name, rels.canonicalNames.get? n = some name ∧ rels'.canonicalNames.get? n' = some name) ∧
    ∀ (rels rels' : Relations) (n : String), rels.contains n →
      (∀ m, rels.referenceGraph.Reaches n m ∨ rels'.referenceGraph.Reaches n m →
        rels.get? m = rels'.get? m) →
      ∃ name, rels.canonicalNames.get? n = some name ∧ rels'.canonicalNames.get? n = some name := by
  have hrenamed (rels rels' : Relations) (n n' : String) (f : String → String)
      (h : Renames rels rels' n n' f) :
      ∃ name, rels.canonicalNames.get? n = some name ∧
        rels'.canonicalNames.get? n' = some name := by
    obtain ⟨name, hname⟩ := NameMap.contains_iff.1 ((contains_canonicalNames rels n).2 h.defined)
    refine ⟨name, hname, ?_⟩
    rw [← h.root, h.get?_eq (.refl n), hname]
  refine ⟨contains_canonicalNames, hrenamed, fun rels rels' n hn hsame => ?_⟩
  exact hrenamed rels rels' n n id (.of_same hn hsame)


/-- Even and odd numbers, by their predecessors. -/
def parity : Relations := .ofList [
  ("even", .union [.dot "zero", .comp [.dot "pred", .ref "odd"]]),
  ("odd", .comp [.dot "pred", .ref "even"])]

/-- The same under other names, beside a relation that cannot be reached. -/
def renamedParity : Relations := .ofList [
  ("e", .union [.dot "zero", .comp [.dot "pred", .ref "o"]]),
  ("o", .comp [.dot "pred", .ref "e"]),
  ("odd", .comp [.ref "e", .ref "o"])]

theorem reaches_parity :
    parity.referenceGraph.Reaches "even" m ↔ m = "even" ∨ m = "odd" := by
  have hedges : parity.referenceGraph.edges = [("even", "odd"), ("odd", "even")] := rfl
  constructor
  · intro h
    exact h.mem_of_closed (p := fun u => u = "even" ∨ u = "odd") (by simp [hedges]) (.inl rfl)
  · rintro (rfl | rfl)
    · exact .refl _
    · exact .single (by simp [hedges])

theorem reaches_renamedParity :
    renamedParity.referenceGraph.Reaches "e" m ↔ m = "e" ∨ m = "o" := by
  have hedges : renamedParity.referenceGraph.edges =
      [("e", "o"), ("o", "e"), ("odd", "e"), ("odd", "o")] := rfl
  constructor
  · intro h
    exact h.mem_of_closed (p := fun u => u = "e" ∨ u = "o") (by simp [hedges]) (.inl rfl)
  · rintro (rfl | rfl)
    · exact .refl _
    · exact .single (by simp [hedges])

theorem parity_renames :
    Renames parity renamedParity "even" "e" fun t => if t = "even" then "e" else "o" where
  root := rfl
  defined := by decide +kernel
  bijective := by
    simp only [reaches_parity, reaches_renamedParity]
    refine ⟨?_, ?_, ?_⟩
    · rintro m (rfl | rfl) <;> simp
    · rintro a (rfl | rfl) b (rfl | rfl) <;> simp
    · rintro m (rfl | rfl)
      · exact ⟨"even", by simp⟩
      · exact ⟨"odd", by simp⟩
  definition m hm r hr := by
    rcases reaches_parity.1 hm with rfl | rfl
    · obtain rfl := Option.some.inj hr
      exact ⟨_, rfl, rfl⟩
    · obtain rfl := Option.some.inj hr
      exact ⟨_, rfl, rfl⟩
  undefined m hm r hr t ht htd := by
    rcases reaches_parity.1 hm with rfl | rfl
    · obtain rfl := Option.some.inj hr
      obtain rfl : t = "odd" := List.mem_singleton.1 ht
      exact absurd (by decide +kernel) htd
    · obtain rfl := Option.some.inj hr
      obtain rfl : t = "even" := List.mem_singleton.1 ht
      exact absurd (by decide +kernel) htd

theorem canonicalNames_of_reachable_parity : ∃ name,
    parity.canonicalNames.get? "even" = some name ∧
    renamedParity.canonicalNames.get? "e" = some name :=
  canonicalNames_of_reachable.2.1 parity renamedParity "even" "e" _ parity_renames

end StructuralTyping.Relations
