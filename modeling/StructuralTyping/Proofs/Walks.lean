import StructuralTyping.Inference.Site
import StructuralTyping.Proofs.ShapeOrder

/-!
# Sites and walks

The sites of a relation are its nodes: the relation itself is one, and for each child of a site
there is a site whose ends are those listed at the parent. The numbers of all ends lie in the
stretch of the walk, so they are among the patterns that are set up for the relations.
-/
namespace StructuralTyping

/-- The ends of a site and of its children are among the first so many patterns. -/
structure Site.Within (s : Site) (size : Nat) : Prop where
  arity : s.children.length = s.node.children.length
  input : s.ends.input < size
  output : s.ends.output < size
  children : ∀ p ∈ s.children, p.input < size ∧ p.output < size

theorem Site.Within.mono {s : Site} {m n : Nat} (h : s.Within m) (hle : m ≤ n) : s.Within n where
  arity := h.arity
  input := Nat.lt_of_lt_of_le h.input hle
  output := Nat.lt_of_lt_of_le h.output hle
  children p hp := (h.children p hp).imp (Nat.lt_of_lt_of_le · hle) (Nat.lt_of_lt_of_le · hle)

/-- Each child of a site has a site. -/
def Site.ChildrenIn (sites : List Site) (s : Site) : Prop :=
  List.Forall₂ (fun child ends => ∃ t ∈ sites, t.node = child ∧ t.ends = ends)
    s.node.children s.children

theorem Site.ChildrenIn.mono {s : Site} {sites sites' : List Site} (h : s.ChildrenIn sites)
    (hsub : sites ⊆ sites') : s.ChildrenIn sites' :=
  h.imp fun _ _ ⟨t, ht, hnode⟩ => ⟨t, hsub ht, hnode⟩

namespace Relation
variable {r c : Relation} {rs : List Relation} {start : Nat} {s : Site}

/-- Relations that are walked one after the other, each with the number at which its walk starts. -/
def offsets (start : Nat) : List Relation → List (Nat × Relation)
  | [] => []
  | r :: rs => (start, r) :: offsets (start + 2 * r.size) rs

theorem sitesList_eq_flatMap (start : Nat) (rs : List Relation) :
    sitesList start rs = (offsets start rs).flatMap fun p => p.2.sites p.1 := by
  induction rs generalizing start with
  | nil => rfl
  | cons r rs ih => rw [sitesList, offsets, List.flatMap_cons, ih]

theorem endsFrom_eq_map (start : Nat) (rs : List Relation) :
    endsFrom start rs = (offsets start rs).map fun p => p.2.endsAt p.1 := by
  induction rs generalizing start with
  | nil => rfl
  | cons r rs ih => rw [endsFrom, offsets, List.map_cons, ih]

theorem map_snd_offsets (start : Nat) (rs : List Relation) :
    (offsets start rs).map (·.2) = rs := by
  induction rs generalizing start with
  | nil => rfl
  | cons r rs ih => rw [offsets, List.map_cons, ih]

theorem offset_bounds {p : Nat × Relation} (h : p ∈ offsets start rs) :
    start ≤ p.1 ∧ p.1 + 2 * p.2.size ≤ start + 2 * sizeList rs := by
  induction rs generalizing start with
  | nil => cases h
  | cons r rs ih =>
    rw [sizeList]
    rcases List.mem_cons.1 h with rfl | h
    · dsimp only
      omega
    · have := ih h
      omega

theorem sitesFields_eq (start : Nat) (fields : List (String × Relation)) :
    sitesFields start fields = sitesList start (fields.map (·.2)) := by
  induction fields generalizing start with
  | nil => rfl
  | cons e fields ih => rw [sitesFields, List.map_cons, sitesList, ih]

theorem sizeFields_eq (fields : List (String × Relation)) :
    sizeFields fields = sizeList (fields.map (·.2)) := by
  induction fields with
  | nil => rfl
  | cons e fields ih => rw [sizeFields, List.map_cons, sizeList, ih]

/-- The sites of a relation are the relation itself and the sites of its children. -/
theorem sites_eq_cons (start : Nat) (r : Relation) :
    r.sites start = siteAt start r :: sitesList (start + 1) r.children := by
  cases r with
  | product fields => rw [sites, sitesFields_eq, children]
  | _ => rfl

theorem size_eq_succ (r : Relation) : r.size = 1 + sizeList r.children := by
  cases r with
  | product fields => rw [size, sizeFields_eq, children]
  | _ => rfl

theorem size_le_sizeList (h : c ∈ rs) : c.size ≤ sizeList rs := by
  induction rs with
  | nil => cases h
  | cons r rs ih =>
    rw [sizeList]
    rcases List.mem_cons.1 h with rfl | h
    · omega
    · have := ih h
      omega

/-- What holds of a relation if it does of its children holds of every relation. -/
theorem induction_children {motive : Relation → Prop}
    (step : ∀ r, (∀ c ∈ r.children, motive c) → motive r) (r : Relation) : motive r := by
  generalize hn : r.size = n
  induction n using Nat.strongRecOn generalizing r with
  | ind n ih =>
    apply step
    intro c hc
    have hle := size_le_sizeList hc
    have hsize := size_eq_succ r
    exact ih c.size (by omega) c rfl

theorem mem_children_of_mem_offsets {p : Nat × Relation} (h : p ∈ offsets start rs) : p.2 ∈ rs := by
  rw [← map_snd_offsets start rs]
  exact List.mem_map_of_mem h

theorem siteAt_within (start : Nat) (r : Relation) :
    (siteAt start r).Within (start + 2 * r.size) := by
  have hsize := size_eq_succ r
  constructor
  case arity =>
    calc (endsFrom (start + 1) r.children).length = (offsets (start + 1) r.children).length := by
          rw [endsFrom_eq_map, List.length_map]
      _ = ((offsets (start + 1) r.children).map (·.2)).length := by rw [List.length_map]
      _ = r.children.length := by rw [map_snd_offsets]
  case input =>
    change start < _
    omega
  case output =>
    change start + 2 * r.size - 1 < _
    omega
  case children =>
    intro p hp
    change p ∈ endsFrom (start + 1) r.children at hp
    rw [endsFrom_eq_map] at hp
    obtain ⟨⟨st, c⟩, hc, rfl⟩ := List.mem_map.1 hp
    have hbounds := offset_bounds hc
    have hc' := size_eq_succ c
    simp only [endsAt] at hbounds ⊢
    omega

theorem sites_within (r : Relation) :
    ∀ start, ∀ s ∈ r.sites start, s.Within (start + 2 * r.size) := by
  induction r using induction_children with
  | step r ih =>
    intro start s hs
    rw [sites_eq_cons, List.mem_cons] at hs
    rcases hs with rfl | hs
    · exact siteAt_within start r
    · rw [sitesList_eq_flatMap] at hs
      obtain ⟨⟨st, c⟩, hc, hs⟩ := List.mem_flatMap.1 hs
      have hbounds := offset_bounds hc
      have hsize := size_eq_succ r
      refine (ih c (mem_children_of_mem_offsets hc) st s hs).mono ?_
      dsimp only at hbounds
      omega

theorem siteAt_mem_sites (start : Nat) (r : Relation) : siteAt start r ∈ r.sites start := by
  rw [sites_eq_cons]
  exact List.mem_cons_self

theorem sites_childrenIn (r : Relation) :
    ∀ start, ∀ s ∈ r.sites start, s.ChildrenIn (r.sites start) := by
  induction r using induction_children with
  | step r ih =>
    intro start s hs
    have hsub (p : Nat × Relation) (hp : p ∈ offsets (start + 1) r.children) :
        p.2.sites p.1 ⊆ r.sites start := by
      intro t ht
      rw [sites_eq_cons, sitesList_eq_flatMap]
      exact List.mem_cons_of_mem _ (List.mem_flatMap.2 ⟨p, hp, ht⟩)
    rw [sites_eq_cons, List.mem_cons] at hs
    rcases hs with rfl | hs
    · change List.Forall₂ _ r.children (endsFrom (start + 1) r.children)
      rw [endsFrom_eq_map]
      nth_rewrite 1 [← map_snd_offsets (start + 1) r.children]
      rw [List.forall₂_map_left_iff, List.forall₂_map_right_iff, List.forall₂_same]
      exact fun p hp => ⟨_, hsub p hp (siteAt_mem_sites p.1 p.2), rfl, rfl⟩
    · rw [sitesList_eq_flatMap] at hs
      obtain ⟨p, hp, hs⟩ := List.mem_flatMap.1 hs
      exact (ih p.2 (mem_children_of_mem_offsets hp) p.1 s hs).mono (hsub p hp)

end Relation

namespace Relations
variable {rels : Relations} {spans : SpanTable} {name : String} {r : Relation} {start n : Nat}
  {s : Site}

/-- The sites of all relations. -/
def allSites (rels : Relations) (spans : SpanTable) : List Site :=
  (rels.sites spans).flatMap (·.2)

theorem mem_startsFrom_bounds {entries : List (String × Relation)}
    (h : (name, start, r) ∈ startsFrom n entries) :
    start + 2 * r.size ≤ n + (entries.map (·.2)).foldr (fun r n => 2 * r.size + n) 0 := by
  induction entries generalizing n with
  | nil => cases h
  | cons e entries ih =>
    rw [List.map_cons, List.foldr_cons]
    rcases List.mem_cons.1 h with heq | h
    · simp only [Prod.mk.injEq] at heq
      obtain ⟨-, rfl, rfl⟩ := heq
      omega
    · have := ih h
      omega

theorem startsFrom_bound (h : (name, start, r) ∈ startsFrom 0 rels.entries) :
    start + 2 * r.size ≤ rels.endCount := by
  have := mem_startsFrom_bounds h
  rwa [Nat.zero_add] at this

/-- A site is the site of a node of some relation, but for the place in the source. -/
theorem exists_of_mem_allSites (h : s ∈ rels.allSites spans) : ∃ name start r span,
    (name, start, r) ∈ startsFrom 0 rels.entries ∧ ∃ t ∈ r.sites start, s = { t with span } := by
  obtain ⟨_, hsites, hs⟩ := List.mem_flatMap.1 h
  obtain ⟨⟨name, start, r⟩, hr, rfl⟩ := List.mem_map.1 hsites
  obtain ⟨i, hi, rfl⟩ := List.mem_mapIdx.1 hs
  exact ⟨name, start, r, _, hr, _, List.getElem_mem hi, rfl⟩

theorem mem_allSites {t : Site} (h : (name, start, r) ∈ startsFrom 0 rels.entries)
    (ht : t ∈ r.sites start) : ∃ span, { t with span } ∈ rels.allSites spans := by
  obtain ⟨i, hi, rfl⟩ := List.mem_iff_getElem.1 ht
  refine ⟨_, List.mem_flatMap.2 ⟨_, List.mem_map_of_mem h, List.mem_mapIdx.2 ⟨i, hi, rfl⟩⟩⟩

theorem allSites_within (h : s ∈ rels.allSites spans) : s.Within rels.endCount := by
  obtain ⟨name, start, r, span, hr, t, ht, rfl⟩ := exists_of_mem_allSites h
  have hwithin := (r.sites_within start t ht).mono (startsFrom_bound hr)
  exact ⟨hwithin.arity, hwithin.input, hwithin.output, hwithin.children⟩

theorem ends_lt {p : Ends} (h : rels.ends.get? name = some p) :
    p.input < rels.endCount ∧ p.output < rels.endCount := by
  obtain ⟨⟨_, start, r⟩, hr, heq⟩ := List.mem_map.1 (NameMap.mem_of_get?_ofList h)
  obtain ⟨-, rfl⟩ := Prod.mk.inj heq
  have hwithin := (r.siteAt_within start).mono (startsFrom_bound hr)
  exact ⟨hwithin.input, hwithin.output⟩

theorem map_startsFrom (n : Nat) (entries : List (String × Relation)) :
    (startsFrom n entries).map (fun e => (e.1, e.2.2)) = entries := by
  induction entries generalizing n with
  | nil => rfl
  | cons e entries ih => rw [startsFrom, List.map_cons, ih]

/-- The definition of a relation has a site, whose ends are those of the definition. -/
theorem exists_site_of_get? (h : rels.get? name = some r) :
    ∃ s ∈ rels.allSites spans, s.node = r ∧ rels.ends.get? name = some s.ends := by
  have hentry := NameMap.get?_eq_some_iff.1 h
  rw [← map_startsFrom 0 rels.entries] at hentry
  obtain ⟨⟨_, start, _⟩, hr, heq⟩ := List.mem_map.1 hentry
  obtain ⟨rfl, rfl⟩ := Prod.mk.inj heq
  obtain ⟨span, hsite⟩ := mem_allSites hr (Relation.siteAt_mem_sites start _)
  refine ⟨_, hsite, rfl, ?_⟩
  have hkeys : (((startsFrom 0 rels.entries).map fun e => (e.1, e.2.2.endsAt e.2.1)).map
      (·.1)).Nodup := by
    have hnodup := NameMap.nodup_keys rels
    rw [← map_startsFrom 0 rels.entries, List.map_map] at hnodup
    rw [List.map_map]
    exact hnodup
  refine (NameMap.get?_ofList hkeys).trans ((NameMap.lookup_eq_some_iff hkeys).2 ?_)
  exact List.mem_map_of_mem hr

theorem allSites_childrenIn (h : s ∈ rels.allSites spans) : s.ChildrenIn (rels.allSites spans) := by
  obtain ⟨name, start, r, span, hr, t, ht, rfl⟩ := exists_of_mem_allSites h
  refine (r.sites_childrenIn start t ht).imp ?_
  rintro child ends ⟨u, hu, rfl, rfl⟩
  obtain ⟨span', hu'⟩ := mem_allSites hr hu
  exact ⟨_, hu', rfl, rfl⟩

end Relations

end StructuralTyping
