import StructuralTyping.Proofs.RelationText

/-!
# Unfolded relations

Putting definitions in the place of references, for ever, makes a tree out of a relation. The tree
is given by its nodes: a path from the root determines at most one, and none if the references on
its way lead to each other only. Relations of two maps have the same tree if there is a link between
names under which linked names have definitions of the same text, up to linked references.
-/
namespace StructuralTyping

namespace Relation
variable {f g : String → String} {x y : Relation} {s : String}

/-- A node without what is below it; the references `true` and `false` are Boolean literals. -/
def head : Relation → Relation
  | product fields => product (fields.map fun e => (e.1, identity))
  | union rs => union (rs.map fun _ => identity)
  | vector rs => vector (rs.map fun _ => identity)
  | comp rs => comp (rs.map fun _ => identity)
  | leaf => leaf.asRead

theorem head_asRead_ref (s : String) : (ref s).asRead.head = (ref s).asRead := by
  simp only [asRead]
  split_ifs <;> simp_all [head, asRead]

theorem children_asRead_mapRefs (f : String → String) (x : Relation) :
    (x.mapRefs f).asRead.children = x.children.map fun c => (c.mapRefs f).asRead := by
  cases x with
  | product fields =>
    simp [mapRefs, mapRefsFields_eq, asRead, asReadFields_eq, children, Function.comp_def]
  | union rs | vector rs | comp rs =>
    simp [mapRefs, mapRefsList_eq, asRead, asReadList_eq, children, Function.comp_def]
  | ref t =>
    simp only [mapRefs, asRead, children, List.map_nil]
    split_ifs <;> rfl
  | _ => simp [mapRefs, asRead, children]

theorem head_asRead_mapRefs (h : ∀ t, x = ref t → f t = t) :
    (x.mapRefs f).asRead.head = x.head := by
  cases x with
  | product fields =>
    simp [mapRefs, mapRefsFields_eq, asRead, asReadFields_eq, head, Function.comp_def]
  | union rs | vector rs | comp rs =>
    simp [mapRefs, mapRefsList_eq, asRead, asReadList_eq, head, Function.comp_def]
  | ref t =>
    rw [mapRefs, h t rfl, head_asRead_ref]
    rfl
  | _ => rfl

/-- Only a reference is read as one. -/
theorem eq_ref_of_asRead (h : (x.mapRefs f).asRead = ref s) : ∃ t, x = ref t ∧ f t = s := by
  cases x with
  | ref t =>
    refine ⟨t, rfl, ?_⟩
    simp only [mapRefs, asRead] at h
    split_ifs at h
    exact Relation.ref.inj h
  | _ => simp [mapRefs, asRead] at h

theorem asRead_ref (h : ¬(s = "true" ∨ s = "false")) : (ref s).asRead = ref s := by
  rw [not_or] at h
  simp [asRead, h.1, h.2]

end Relation

namespace Relations
open StructuralTyping.Relation
variable {rels rels' : Relations} {link : String → String → Prop} {f g : String → String}
  {x y c node : Relation} {path : List Nat}

/-- The node at the end of a path in the tree of a relation. -/
inductive NodeAt (rels : Relations) : Relation → List Nat → Relation → Prop
  | here {r : Relation} (leaf : ∀ t, r = ref t → ¬rels.contains t) : NodeAt rels r [] r.head
  | child {r c : Relation} {i : Nat} {path : List Nat} {node : Relation}
      (at_child : r.children[i]? = some c) (below : NodeAt rels c path node) :
      NodeAt rels r (i :: path) node
  | unfold {t : String} {d : Relation} {path : List Nat} {node : Relation}
      (defined : rels.get? t = some d) (below : NodeAt rels d path node) :
      NodeAt rels (ref t) path node

theorem NodeAt.unique {node' : Relation} (h : NodeAt rels x path node)
    (h' : NodeAt rels x path node') : node = node' := by
  induction h with
  | here leaf =>
    cases h' with
    | here => rfl
    | unfold defined _ => exact absurd (NameMap.contains_of_get? defined) (leaf _ rfl)
  | child at_child _ ih =>
    cases h' with
    | child at_child' below' =>
      obtain rfl := Option.some.inj (at_child.symm.trans at_child')
      exact ih below'
    | unfold => simp [children] at at_child
  | unfold defined _ ih =>
    cases h' with
    | here leaf => exact absurd (NameMap.contains_of_get? defined) (leaf _ rfl)
    | child at_child' _ => simp [children] at at_child'
    | unfold defined' below' =>
      obtain rfl := Option.some.inj (defined.symm.trans defined')
      exact ih below'

/-- The definitions of the two names have the same tree, codes and filters apart. -/
def SameTree (rels rels' : Relations) (n m : String) : Prop :=
  ∀ path node, NodeAt (rels.map simplify) (ref n) path node ↔
    NodeAt (rels'.map simplify) (ref m) path node

section Links

/-- The names are linked definitions, or the same undefined name. -/
def Linked (rels rels' : Relations) (link : String → String → Prop) (t u : String) : Prop :=
  rels.contains t ∧ rels'.contains u ∧ link t u ∨ ¬rels.contains t ∧ ¬rels'.contains u ∧ t = u

/-- What a renaming keeps of the references of a relation. -/
structure Shows (rels : Relations) (f : String → String) (x : Relation) : Prop where
  undefined : ∀ t ∈ x.occurrences, ¬rels.contains t → f t = t
  boolean : ∀ t ∈ x.occurrences, f t = "true" ∨ f t = "false" → ¬rels.contains t

/-- The relations read the same when their references are renamed, and references that read the same
are linked. -/
structure Matched (rels rels' : Relations) (link : String → String → Prop) (f g : String → String)
    (x y : Relation) : Prop where
  text : (x.mapRefs f).asRead = (y.mapRefs g).asRead
  links : ∀ t ∈ x.occurrences, ∀ u ∈ y.occurrences, f t = g u → Linked rels rels' link t u
  left : Shows rels f x
  right : Shows rels' g y

theorem Shows.child (h : Shows rels f x) (hc : c ∈ x.children) : Shows rels f c where
  undefined t ht := h.undefined t (mem_occurrences_of_child hc ht)
  boolean t ht := h.boolean t (mem_occurrences_of_child hc ht)

theorem Matched.symm (h : Matched rels rels' link f g x y) :
    Matched rels' rels (fun t u => link u t) g f y x where
  text := h.text.symm
  links u hu t ht heq := by
    rcases h.links t ht u hu heq.symm with ⟨hu, ht, hlink⟩ | ⟨hu, ht, heq⟩
    · exact .inl ⟨ht, hu, hlink⟩
    · exact .inr ⟨ht, hu, heq.symm⟩
  left := h.right
  right := h.left

theorem Matched.child (h : Matched rels rels' link f g x y) {i : Nat}
    (hc : x.children[i]? = some c) :
    ∃ d, y.children[i]? = some d ∧ Matched rels rels' link f g c d := by
  have hchildren : x.children.map (fun c => (c.mapRefs f).asRead) =
      y.children.map fun c => (c.mapRefs g).asRead := by
    rw [← children_asRead_mapRefs, ← children_asRead_mapRefs, h.text]
  have hat := congrArg (fun l => l[i]?) hchildren
  simp only [List.getElem?_map, hc, Option.map_some] at hat
  obtain ⟨d, hd, htext⟩ := Option.map_eq_some_iff.1 hat.symm
  have hcx := List.mem_of_getElem? hc
  have hdy := List.mem_of_getElem? hd
  exact ⟨d, hd, htext.symm, fun t ht u hu => h.links t (mem_occurrences_of_child hcx ht) u
    (mem_occurrences_of_child hdy hu), h.left.child hcx, h.right.child hdy⟩

/-- What matches a reference to a definition is a linked reference. -/
theorem Matched.eq_ref {t : String} (h : Matched rels rels' link f g (ref t) y)
    (ht : rels.contains t) : ∃ u, y = ref u ∧ rels'.contains u ∧ link t u := by
  have hmem : t ∈ (ref t).occurrences := by simp [occurrences]
  have hread : (ref (f t)).asRead = ref (f t) := asRead_ref fun hb => h.left.boolean t hmem hb ht
  obtain ⟨u, rfl, hu⟩ := eq_ref_of_asRead (h.text.symm.trans hread)
  rcases h.links t hmem u (by simp [occurrences]) hu.symm with ⟨-, hu, hlink⟩ | ⟨hnot, -, -⟩
  · exact ⟨u, rfl, hu, hlink⟩
  · exact absurd ht hnot

/-- What matches no definition is none. -/
theorem Matched.leaf (h : Matched rels rels' link f g x y)
    (hx : ∀ t, x = ref t → ¬rels.contains t) : ∀ u, y = ref u → ¬rels'.contains u := by
  rintro u rfl hu
  obtain ⟨t, rfl, ht, -⟩ := h.symm.eq_ref hu
  exact hx t rfl ht

theorem Matched.head_eq (h : Matched rels rels' link f g x y)
    (hx : ∀ t, x = ref t → ¬rels.contains t) : x.head = y.head := by
  have hleft : ∀ t, x = ref t → f t = t := by
    rintro t rfl
    exact h.left.undefined t (by simp [occurrences]) (hx t rfl)
  have hright : ∀ u, y = ref u → g u = u := by
    rintro u rfl
    exact h.right.undefined u (by simp [occurrences]) (h.leaf hx u rfl)
  rw [← head_asRead_mapRefs hleft, ← head_asRead_mapRefs hright, h.text]

/-- Matched relations have the same nodes if the definitions of linked names are matched. -/
theorem NodeAt.of_matched
    (hlink : ∀ a b, link a b → ∃ d e f g, rels.get? a = some d ∧ rels'.get? b = some e ∧
      Matched rels rels' link f g d e)
    (h : NodeAt rels x path node) (hxy : Matched rels rels' link f g x y) :
    NodeAt rels' y path node := by
  induction h generalizing f g y with
  | here leaf =>
    rw [hxy.head_eq leaf]
    exact .here (hxy.leaf leaf)
  | child at_child _ ih =>
    obtain ⟨d, hd, hmatched⟩ := hxy.child at_child
    exact .child hd (ih hmatched)
  | unfold defined _ ih =>
    obtain ⟨u, rfl, -, hu⟩ := hxy.eq_ref (NameMap.contains_of_get? defined)
    obtain ⟨d, e, f', g', hd, he, hmatched⟩ := hlink _ _ hu
    obtain rfl := Option.some.inj (defined.symm.trans hd)
    exact .unfold he (ih hmatched)

theorem nodeAt_iff_of_matched
    (hlink : ∀ a b, link a b → ∃ d e f g, rels.get? a = some d ∧ rels'.get? b = some e ∧
      Matched rels rels' link f g d e)
    (hxy : Matched rels rels' link f g x y) :
    NodeAt rels x path node ↔ NodeAt rels' y path node := by
  refine ⟨fun h => h.of_matched hlink hxy, fun h => h.of_matched (fun b a hab => ?_) hxy.symm⟩
  obtain ⟨d, e, f, g, hd, he, hmatched⟩ := hlink a b hab
  exact ⟨e, d, g, f, he, hd, hmatched.symm⟩

end Links

end Relations

end StructuralTyping
