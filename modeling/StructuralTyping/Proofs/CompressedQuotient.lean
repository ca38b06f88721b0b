import StructuralTyping.Pattern.Compression
import StructuralTyping.Proofs.CoarsestPartition
import StructuralTyping.Proofs.FormedGraph
import StructuralTyping.Proofs.TreeEquality

/-!
# Compression is the quotient by bisimilarity

Two roots of a graph are bisimilar if some relation pairs them that pairs an open root with itself
only, and any other root only with one of the same kind and the same labels, with paired targets.
Compressing numbers the roots and refines the partition of the numbers, whose classes turn out to be
the classes of bisimilar roots. The compressed graph has one node for each of these classes, and
presenting a pattern by the node of its class preserves kinds and edges.
-/
namespace StructuralTyping

namespace System
variable {σ : Type} {s : System σ}

theorem splitAll_of_split_eq {classes : Array Nat} (h : s.split classes = classes) (fuel : Nat) :
    s.splitAll fuel classes = classes := by
  cases fuel with
  | zero => rfl
  | succ fuel => rw [splitAll, if_pos h]

theorem splitAll_add (fuel more : Nat) (classes : Array Nat) :
    s.splitAll (fuel + more) classes = s.splitAll more (s.splitAll fuel classes) := by
  induction fuel generalizing classes with
  | zero => rw [Nat.zero_add, splitAll]
  | succ fuel ih =>
    rw [Nat.succ_add, splitAll, splitAll]
    split_ifs with hstable
    · rw [splitAll_of_split_eq hstable]
    · rw [ih]

variable [DecidableEq σ]

theorem split_coarsest_eq (s : System σ) : s.split s.coarsest = s.coarsest := by
  by_cases hsize : 0 < s.size
  · exact s.split_coarsest hsize
  · have hempty (classes : Array Nat) (h : IsNumbering s.size classes) : classes = #[] :=
      Array.eq_empty_of_size_eq_zero (by rw [h.size]; omega)
    rw [hempty _ s.coarsest_isNumbering, hempty _ (s.split_isNumbering _)]

/-- The rounds come to an end by themselves: a larger bound makes no difference. -/
theorem splitAll_of_size_le (s : System σ) {fuel : Nat} (h : s.size ≤ fuel) :
    s.splitAll fuel s.initial = s.coarsest := by
  obtain ⟨more, rfl⟩ := Nat.exists_eq_add_of_le h
  rw [splitAll_add]
  exact splitAll_of_split_eq s.split_coarsest_eq more

end System

namespace PatternGraph
variable {g : PatternGraph} {a b i j t : Nat} {l : String}

/-- The roots are the same open root, or agree in kind and labels and lead to related roots. -/
def Matches (g : PatternGraph) (r : Nat → Nat → Prop) (a b : Nat) : Prop :=
  if (g.kind a).isOpen ∨ (g.kind b).isOpen then a = b
  else g.kind a = g.kind b ∧ ∀ l, Option.Rel r (g.target? a l) (g.target? b l)

/-- A relation on roots that only pairs roots which match in it. -/
def IsBisimulation (g : PatternGraph) (r : Nat → Nat → Prop) : Prop :=
  ∀ a b, r a b → a ∈ g.roots ∧ b ∈ g.roots ∧ g.Matches r a b

/-- Roots that some bisimulation relates. -/
def Bisimilar (g : PatternGraph) (a b : Nat) : Prop := ∃ r, g.IsBisimulation r ∧ r a b

section Bisimilarity

theorem rel_imp {r s : Nat → Nat → Prop} {x y : Option Nat} (h : Option.Rel r x y)
    (hrs : ∀ a b, x = some a → y = some b → r a b → s a b) : Option.Rel s x y := by
  cases h with
  | none => exact .none
  | some hab => exact .some (hrs _ _ rfl rfl hab)

theorem rel_map_iff {r : Nat → Nat → Prop} {f : Nat → Nat} {x y : Option Nat} :
    Option.Rel r (x.map f) (y.map f) ↔ Option.Rel (fun a b => r (f a) (f b)) x y := by
  cases x <;> cases y <;> simp

theorem Matches.imp {r s : Nat → Nat → Prop} (h : g.Matches r a b) (hrs : ∀ a b, r a b → s a b) :
    g.Matches s a b := by
  unfold Matches at h ⊢
  split_ifs at h ⊢
  · exact h
  · exact ⟨h.1, fun l => rel_imp (h.2 l) fun a b _ _ => hrs a b⟩

/-- Bisimilarity is the largest bisimulation. -/
theorem bisimilar_isBisimulation (g : PatternGraph) : g.IsBisimulation g.Bisimilar := by
  rintro a b ⟨r, hr, hab⟩
  obtain ⟨ha, hb, hmatch⟩ := hr a b hab
  exact ⟨ha, hb, hmatch.imp fun _ _ h => ⟨r, hr, h⟩⟩

theorem Grounded.bisimilar_refl (hg : g.Grounded) (ha : a ∈ g.roots) : g.Bisimilar a a := by
  refine ⟨fun a b => a = b ∧ a ∈ g.roots, ?_, rfl, ha⟩
  rintro a b ⟨rfl, ha⟩
  refine ⟨ha, ha, ?_⟩
  unfold Matches
  split_ifs
  · rfl
  · refine ⟨rfl, fun l => ?_⟩
    cases ht : g.target? a l with
    | none => exact .none
    | some t => exact .some ⟨rfl, hg.target_mem_roots ht⟩

theorem Bisimilar.kind_eq (h : g.Bisimilar a b) : g.kind a = g.kind b := by
  obtain ⟨-, -, hmatch⟩ := g.bisimilar_isBisimulation a b h
  unfold Matches at hmatch
  split_ifs at hmatch
  · rw [hmatch]
  · exact hmatch.1

theorem Bisimilar.target (hg : g.Grounded) (h : g.Bisimilar a b) (l : String) :
    Option.Rel g.Bisimilar (g.target? a l) (g.target? b l) := by
  obtain ⟨-, -, hmatch⟩ := g.bisimilar_isBisimulation a b h
  unfold Matches at hmatch
  split_ifs at hmatch
  · subst hmatch
    cases ht : g.target? a l with
    | none => exact .none
    | some t => exact .some (hg.bisimilar_refl (hg.target_mem_roots ht))
  · exact hmatch.2 l

end Bisimilarity

section Numbering

theorem getElem?_idxOf (ha : a ∈ g.roots) : g.roots[g.roots.idxOf a]? = some a := by
  have hlt := List.idxOf_lt_length_of_mem ha
  rw [List.getElem?_eq_getElem hlt, List.getElem_idxOf hlt]

theorem idxOf_of_getElem? (hi : g.roots[i]? = some a) : g.roots.idxOf a = i := by
  obtain ⟨hlt, rfl⟩ := List.getElem?_eq_some_iff.1 hi
  exact g.nodup_roots.idxOf_getElem i hlt

theorem system_size (g : PatternGraph) : g.system.size = g.roots.length := by simp [system]

theorem system_head (hi : g.roots[i]? = some a) : g.system.head i = g.face a := by
  simp [system, hi]

theorem system_next (hi : g.roots[i]? = some a) :
    g.system.next i = (g.edgesOf a).values.map fun id => g.roots.idxOf (g.find id) := by
  simp [system, hi]

theorem Grounded.system_isClosed (hg : g.Grounded) : g.system.IsClosed := by
  intro i hi j hj
  rw [system_size] at hi ⊢
  rw [system_next (List.getElem?_eq_getElem hi), List.mem_map] at hj
  obtain ⟨id, hid, rfl⟩ := hj
  obtain ⟨⟨l, _⟩, he, rfl⟩ := List.mem_map.1 hid
  have hlt := hg.targets_lt _ l _ (NameMap.get?_eq_some_iff.2 he)
  exact List.idxOf_lt_length_of_mem (hg.find_mem_roots hlt)

/-- Roots that show the same are the same open root, or agree in kind and labels. -/
theorem face_eq_iff : g.face a = g.face b ↔
    if (g.kind a).isOpen ∨ (g.kind b).isOpen then a = b else g.shape a = g.shape b := by
  simp only [face, shape, Prod.mk.injEq, Shape.mk.injEq]
  split_ifs <;> grind

theorem Bisimilar.edges_alike (hg : g.Grounded) (h : g.Bisimilar a b) :
    (g.edgesOf a).Alike (fun s t => g.Bisimilar (g.find s) (g.find t)) (g.edgesOf b) := by
  intro l
  exact rel_map_iff.1 (h.target hg l)

/-- A bisimulation of the numbers is one of the roots. -/
theorem Grounded.isBisimulation_of_system (hg : g.Grounded) {r : Nat → Nat → Prop}
    (hr : g.system.IsBisimulation r) :
    g.IsBisimulation fun a b =>
      (a ∈ g.roots ∧ b ∈ g.roots) ∧ r (g.roots.idxOf a) (g.roots.idxOf b) := by
  rintro a b ⟨⟨ha, hb⟩, hab⟩
  refine ⟨ha, hb, ?_⟩
  obtain ⟨hhead, hlen, hnext⟩ := hr _ _ hab
  rw [system_head (getElem?_idxOf ha), system_head (getElem?_idxOf hb), face_eq_iff] at hhead
  unfold Matches
  split_ifs at hhead ⊢
  · exact hhead
  · rw [shape, shape, Shape.mk.injEq] at hhead
    refine ⟨hhead.1, fun l => ?_⟩
    have hvalues : List.Forall₂ r (g.system.next (g.roots.idxOf a))
        (g.system.next (g.roots.idxOf b)) :=
      List.forall₂_iff_zip.2 ⟨hlen, fun h => hnext _ h⟩
    rw [system_next (getElem?_idxOf ha), system_next (getElem?_idxOf hb),
      List.forall₂_map_left_iff, List.forall₂_map_right_iff] at hvalues
    have hl : Option.Rel (fun s t => r (g.roots.idxOf s) (g.roots.idxOf t)) (g.target? a l)
        (g.target? b l) := rel_map_iff.2 (Code.fields_alike_iff.2 ⟨hhead.2, hvalues⟩ l)
    exact rel_imp hl fun s t hs ht hst => ⟨⟨hg.target_mem_roots hs, hg.target_mem_roots ht⟩, hst⟩

theorem Grounded.bisimilar_isBisimulation_system (hg : g.Grounded) :
    g.system.IsBisimulation fun i j => ∃ a b, g.roots[i]? = some a ∧ g.roots[j]? = some b ∧
      g.Bisimilar a b := by
  rintro i j ⟨a, b, hi, hj, hab⟩
  obtain ⟨hlabels, hvalues⟩ := Code.fields_alike_iff.1 (hab.edges_alike hg)
  have hnext : List.Forall₂ (fun i j => ∃ a b, g.roots[i]? = some a ∧ g.roots[j]? = some b ∧
      g.Bisimilar a b) (g.system.next i) (g.system.next j) := by
    rw [system_next hi, system_next hj, List.forall₂_map_left_iff, List.forall₂_map_right_iff]
    refine hvalues.imp fun s t hst => ?_
    obtain ⟨hs, ht, -⟩ := g.bisimilar_isBisimulation _ _ hst
    exact ⟨_, _, getElem?_idxOf hs, getElem?_idxOf ht, hst⟩
  obtain ⟨hlen, hzip⟩ := List.forall₂_iff_zip.1 hnext
  refine ⟨?_, hlen, fun p hp => hzip hp⟩
  rw [system_head hi, system_head hj, face_eq_iff]
  split_ifs with hopen
  · obtain ⟨-, -, hmatch⟩ := g.bisimilar_isBisimulation a b hab
    rwa [Matches, if_pos hopen] at hmatch
  · rw [shape, shape, Shape.mk.injEq]
    exact ⟨hab.kind_eq, hlabels⟩

/-- Roots are bisimilar exactly if their numbers are. -/
theorem Grounded.system_bisimilar_iff (hg : g.Grounded) (ha : a ∈ g.roots) (hb : b ∈ g.roots) :
    g.system.Bisimilar (g.roots.idxOf a) (g.roots.idxOf b) ↔ g.Bisimilar a b := by
  constructor
  · rintro ⟨r, hr, hab⟩
    exact ⟨_, hg.isBisimulation_of_system hr, ⟨ha, hb⟩, hab⟩
  · intro h
    exact ⟨_, hg.bisimilar_isBisimulation_system, a, b, getElem?_idxOf ha, getElem?_idxOf hb, h⟩

end Numbering

section Classes

/-- The number of the class of a pattern, which is that of its first root. -/
def classNumber (g : PatternGraph) (id : Nat) : Nat :=
  System.classOf g.system.coarsest (g.roots.idxOf (g.find id))

/-- The numbers of the classes, in ascending order. -/
def classNumbers (g : PatternGraph) : List Nat :=
  (List.range g.roots.length).filter fun i => System.classOf g.system.coarsest i = i

/-- The node that presents a pattern. -/
def position (g : PatternGraph) (id : Nat) : Nat := g.classNumbers.idxOf (g.classNumber id)

/-- The first root of each class. -/
def shownRoots (g : PatternGraph) : List Nat := g.classNumbers.filterMap (g.roots[·]?)

theorem compressed_eq (g : PatternGraph) : g.compressed =
    { nodes := g.shownRoots.map g.node
      edges := g.shownRoots.map fun root => (g.edgesOf root).map g.position
      index := (List.range g.size).map g.position } := rfl

theorem nodup_classNumbers (g : PatternGraph) : g.classNumbers.Nodup := List.nodup_range.filter _

theorem lt_of_mem_classNumbers (hi : i ∈ g.classNumbers) : i < g.roots.length :=
  List.mem_range.1 (List.mem_of_mem_filter hi)

theorem getElem?_shownRoots (p : Nat) :
    g.shownRoots[p]? = g.classNumbers[p]?.bind (g.roots[·]?) := by
  have hmap : g.shownRoots = g.classNumbers.map fun i => g.roots[i]?.getD 0 := by
    apply List.filterMap_eq_map_iff_forall_eq_some.2
    intro i hi
    simp [lt_of_mem_classNumbers hi]
  rw [hmap, List.getElem?_map]
  cases hi : g.classNumbers[p]? with
  | none => rfl
  | some i =>
    have hlt := lt_of_mem_classNumbers (List.mem_of_getElem? hi)
    simp [hlt]

variable (hg : g.Grounded)
include hg

theorem Grounded.classNumber_mem (hi : i < g.size) : g.classNumber i ∈ g.classNumbers := by
  have hnum := g.system.coarsest_isNumbering
  rw [system_size] at hnum
  have hlt := List.idxOf_lt_length_of_mem (hg.find_mem_roots hi)
  refine List.mem_filter.2 ⟨List.mem_range.2 (hnum.class_lt hlt), ?_⟩
  exact decide_eq_true (hnum.idem _ hlt)

/-- Patterns are in one class exactly if their roots are bisimilar. -/
theorem Grounded.classNumber_eq_iff (hi : i < g.size) (hj : j < g.size) :
    g.classNumber i = g.classNumber j ↔ g.Bisimilar (g.find i) (g.find j) := by
  have ha := hg.find_mem_roots hi
  have hb := hg.find_mem_roots hj
  rw [← hg.system_bisimilar_iff ha hb]
  have hlt (a : Nat) (ha : a ∈ g.roots) : g.roots.idxOf a < g.system.size := by
    rw [system_size]
    exact List.idxOf_lt_length_of_mem ha
  exact System.coarsest_eq_iff hg.system_isClosed (hlt _ ha) (hlt _ hb)

theorem Grounded.position_eq_iff (hi : i < g.size) (hj : j < g.size) :
    g.position i = g.position j ↔ g.Bisimilar (g.find i) (g.find j) := by
  rw [← hg.classNumber_eq_iff hi hj]
  exact List.idxOf_inj (hg.classNumber_mem hi)

/-- The node that presents a pattern is made from a root that is bisimilar to its root. -/
theorem Grounded.exists_shownRoot (hi : i < g.size) :
    ∃ a, g.shownRoots[g.position i]? = some a ∧ g.Bisimilar (g.find i) a := by
  have hmem := hg.classNumber_mem hi
  have hlt := lt_of_mem_classNumbers hmem
  have hroot : g.roots[g.classNumber i] ∈ g.roots := List.getElem_mem hlt
  refine ⟨g.roots[g.classNumber i], ?_, ?_⟩
  · have hpos : g.classNumbers[g.position i]? = some (g.classNumber i) := by
      have hlt' := List.idxOf_lt_length_of_mem hmem
      exact List.getElem?_eq_some_iff.2 ⟨hlt', List.getElem_idxOf hlt'⟩
    rw [getElem?_shownRoots, hpos, Option.bind_some, List.getElem?_eq_getElem hlt]
  · have hfind := find_of_mem_roots hroot
    have hself : g.classNumber g.roots[g.classNumber i] = g.classNumber i := by
      have hidx := idxOf_of_getElem? (List.getElem?_eq_getElem hlt)
      rw [classNumber, hfind, hidx]
      exact of_decide_eq_true (List.mem_filter.1 hmem).2
    have hbis := (hg.classNumber_eq_iff hi (mem_roots_iff.1 hroot).1).1 hself.symm
    rwa [hfind] at hbis

end Classes

section Compressed

theorem get?_compressed (hi : i < g.size) : g.compressed.get? i = some (g.position i) := by
  simp [compressed_eq, CompressedGraph.get?, hi]

/-- Every node presents a root. -/
theorem exists_root_of_lt_compressed {p : Nat} (hp : p < g.compressed.size) :
    ∃ root ∈ g.roots, g.compressed.get? root = some p := by
  have hlt : p < g.shownRoots.length := by simpa [compressed_eq, CompressedGraph.size] using hp
  have hshown := List.getElem?_eq_getElem hlt
  rw [getElem?_shownRoots] at hshown
  obtain ⟨k, hk, hroot⟩ := Option.bind_eq_some_iff.1 hshown
  have hmem : g.shownRoots[p] ∈ g.roots := List.mem_of_getElem? hroot
  refine ⟨g.shownRoots[p], hmem, ?_⟩
  rw [get?_compressed (mem_roots_iff.1 hmem).1, Option.some.injEq]
  obtain ⟨hplt, rfl⟩ := List.getElem?_eq_some_iff.1 hk
  have hclass : g.classNumber g.shownRoots[p] = g.classNumbers[p] := by
    rw [classNumber, find_of_mem_roots hmem, idxOf_of_getElem? hroot]
    exact of_decide_eq_true (List.mem_filter.1 (List.getElem_mem hplt)).2
  rw [position, hclass]
  exact g.nodup_classNumbers.idxOf_getElem p hplt

variable (hg : g.Grounded)
include hg

/-- The node that presents a pattern has its kind. -/
theorem Grounded.kind?_compressed (hi : i < g.size) :
    g.compressed.kind? (g.position i) = some (g.kind i) := by
  obtain ⟨a, ha, hbis⟩ := hg.exists_shownRoot hi
  obtain ⟨-, hroot, -⟩ := g.bisimilar_isBisimulation _ _ hbis
  have hkind : g.kind a = g.kind i := by
    rw [← hbis.kind_eq]
    exact kind_congr (hg.ordered.find_find i)
  rw [kind_of_root (mem_roots_iff.1 hroot).2] at hkind
  simp [compressed_eq, CompressedGraph.kind?, ha, hkind]

/-- The node that presents a pattern leads to the nodes that present its targets. -/
theorem Grounded.target?_compressed (hi : i < g.size) (l : String) :
    Option.Rel (fun p t => g.compressed.get? t = some p)
      (g.compressed.target? (g.position i) l) (g.target? i l) := by
  obtain ⟨a, ha, hbis⟩ := hg.exists_shownRoot hi
  have htarget : g.compressed.target? (g.position i) l =
      ((g.edgesOf a).get? l).map g.position := by
    simp [compressed_eq, CompressedGraph.target?, ha, NameMap.get?_map]
  have hedge := hbis.edges_alike hg l
  have hfind : g.find (g.find i) = g.find i := hg.ordered.find_find i
  rw [edgesOf_congr hfind] at hedge
  rw [htarget, target?]
  cases hs : (g.edgesOf i).get? l with
  | none =>
    cases ht : (g.edgesOf a).get? l with
    | none => exact .none
    | some t => simp [hs, ht] at hedge
  | some s =>
    cases ht : (g.edgesOf a).get? l with
    | none => simp [hs, ht] at hedge
    | some t =>
      rw [hs, ht, Option.rel_some_some] at hedge
      have hslt : g.find s < g.size := (hg.ordered.find_lt_iff s).2 (hg.targets_lt _ l s hs)
      apply Option.Rel.some
      rw [get?_compressed hslt, Option.some.injEq,
        hg.position_eq_iff hslt (hg.targets_lt _ l t ht)]
      rwa [find_of_mem_roots (hg.find_mem_roots (hg.targets_lt _ l s hs))]

end Compressed

/-- Compressing a graph comes to an end by itself, identifies exactly the patterns whose roots are
bisimilar, and gives the image of the graph: kinds and edges are preserved, and there is nothing
else. -/
theorem compressed_isQuotient (hg : g.Grounded) :
    (∀ fuel, g.roots.length ≤ fuel → g.system.splitAll fuel g.system.initial = g.system.coarsest) ∧
    (g.IsBisimulation g.Bisimilar ∧ ∀ i < g.size, ∀ j < g.size,
      (g.compressed.get? i = g.compressed.get? j ↔ g.Bisimilar (g.find i) (g.find j))) ∧
    (∀ i < g.size, ∃ p, g.compressed.get? i = some p ∧
      g.compressed.kind? p = some (g.kind i) ∧
      ∀ l, Option.Rel (fun q t => g.compressed.get? t = some q)
        (g.compressed.target? p l) (g.target? i l)) ∧
    g.compressed.nodes.length = g.compressed.edges.length ∧
    ∀ p < g.compressed.size, ∃ root ∈ g.roots, g.compressed.get? root = some p := by
  refine ⟨fun fuel hfuel => ?_, ⟨g.bisimilar_isBisimulation, fun i hi j hj => ?_⟩, fun i hi => ?_,
    ?_, fun p hp => exists_root_of_lt_compressed hp⟩
  · exact g.system.splitAll_of_size_le (g.system_size ▸ hfuel)
  · rw [get?_compressed hi, get?_compressed hj, Option.some.injEq]
    exact hg.position_eq_iff hi hj
  · exact ⟨g.position i, get?_compressed hi, hg.kind?_compressed hi, hg.target?_compressed hi⟩
  · simp [compressed_eq]

/-- Two copies of a recursive union, the first of which was closed by merging, and two patterns that
nothing is known of. -/
def unrolledLists : PatternGraph where
  forest :=
    { nodes := #[⟨.bound "DBO", none⟩, ⟨.unconstrained, none⟩, ⟨.closedUnion, none⟩,
        ⟨.closedUnion, some "merge"⟩, ⟨.closedUnion, none⟩, ⟨.unconstrained, none⟩,
        ⟨.unconstrained, none⟩]
      parents := #[none, some 3, some 3, none, none, none, none] }
  edges := #[∅, ∅, .ofList [("next", 1), ("nil", 0)], .ofList [("next", 1), ("nil", 0)],
    .ofList [("next", 1), ("nil", 0)], ∅, ∅]
  bound := .ofList [("DBO", 0)]

theorem compressed_isQuotient_unrolledLists : unrolledLists.Grounded ∧
    unrolledLists.Bisimilar 3 4 ∧ ¬unrolledLists.Bisimilar 5 6 := by
  have hg : unrolledLists.Grounded := by decide
  obtain ⟨-, ⟨-, hiff⟩, -⟩ := compressed_isQuotient hg
  refine ⟨hg, ?_, ?_⟩
  · exact (hiff 3 (by decide) 4 (by decide)).1 (by decide +kernel)
  · exact fun h => absurd ((hiff 5 (by decide) 6 (by decide)).2 h) (by decide +kernel)

end PatternGraph

end StructuralTyping
