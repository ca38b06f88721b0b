import StructuralTyping.Relation.Naming
import StructuralTyping.Proofs.Walks

/-!
# Renaming references

A renaming acts on a relation through the names that it refers to: renamings that agree on these
names have the same effect. Simplification drops nothing that refers to a relation, so a relation
and its simplification refer to the same names, in the same order.
-/
namespace StructuralTyping.Relation
variable {f g : String → String} {r : Relation} {rs : List Relation}
  {fields : List (String × Relation)}

section Lists

theorem mapRefsList_eq (f : String → String) (rs : List Relation) :
    mapRefsList f rs = rs.map (mapRefs f) := by
  induction rs with
  | nil => rfl
  | cons r rs ih => rw [mapRefsList, List.map_cons, ih]

theorem mapRefsFields_eq (f : String → String) (fields : List (String × Relation)) :
    mapRefsFields f fields = fields.map fun e => (e.1, e.2.mapRefs f) := by
  induction fields with
  | nil => rfl
  | cons e fields ih => rw [mapRefsFields, List.map_cons, ih]

theorem occurrencesList_eq (rs : List Relation) :
    occurrencesList rs = rs.flatMap occurrences := by
  induction rs with
  | nil => rfl
  | cons r rs ih => rw [occurrencesList, List.flatMap_cons, ih]

theorem occurrencesFields_eq (fields : List (String × Relation)) :
    occurrencesFields fields = fields.flatMap fun e => e.2.occurrences := by
  induction fields with
  | nil => rfl
  | cons e fields ih => rw [occurrencesFields, List.flatMap_cons, ih]

theorem simplifyList_eq (rs : List Relation) : simplifyList rs = rs.map simplify := by
  induction rs with
  | nil => rfl
  | cons r rs ih => rw [simplifyList, List.map_cons, ih]

theorem simplifyFields_eq (fields : List (String × Relation)) :
    simplifyFields fields = fields.map fun e => (e.1, e.2.simplify) := by
  induction fields with
  | nil => rfl
  | cons e fields ih => rw [simplifyFields, List.map_cons, ih]

theorem children_mapRefs (f : String → String) (r : Relation) :
    (r.mapRefs f).children = r.children.map (mapRefs f) := by
  cases r with
  | product fields => simp [mapRefs, mapRefsFields_eq, children, Function.comp_def]
  | union rs | vector rs | comp rs => simp [mapRefs, mapRefsList_eq, children]
  | _ => rfl

/-- The names that the children refer to are those of the relation, unless it is a reference. -/
theorem mem_occurrences_of_child {c : Relation} {t : String} (hc : c ∈ r.children)
    (ht : t ∈ c.occurrences) : t ∈ r.occurrences := by
  cases r with
  | product fields =>
    rw [children, List.mem_map] at hc
    obtain ⟨e, he, rfl⟩ := hc
    rw [occurrences, occurrencesFields_eq]
    exact List.mem_flatMap.2 ⟨e, he, ht⟩
  | union rs | vector rs | comp rs =>
    rw [occurrences, occurrencesList_eq]
    exact List.mem_flatMap.2 ⟨c, hc, ht⟩
  | _ => exact absurd hc List.not_mem_nil

end Lists

/-- Renamings that agree on the names referred to have the same effect. -/
theorem mapRefs_congr (h : ∀ t ∈ r.occurrences, f t = g t) : r.mapRefs f = r.mapRefs g := by
  induction r using induction_children with
  | step r ih =>
    have hchild : ∀ c ∈ r.children, c.mapRefs f = c.mapRefs g := fun c hc =>
      ih c hc fun t ht => h t (mem_occurrences_of_child hc ht)
    cases r with
    | product fields =>
      rw [mapRefs, mapRefs, mapRefsFields_eq, mapRefsFields_eq]
      refine congrArg product (List.map_congr_left fun e he => ?_)
      rw [hchild e.2 (List.mem_map_of_mem he)]
    | union rs | vector rs | comp rs =>
      rw [mapRefs, mapRefs, mapRefsList_eq, mapRefsList_eq]
      exact congrArg _ (List.map_congr_left hchild)
    | ref name => exact congrArg ref (h name (by simp [occurrences]))
    | _ => rfl

theorem mapRefs_mapRefs (f g : String → String) (r : Relation) :
    (r.mapRefs f).mapRefs g = r.mapRefs fun t => g (f t) := by
  induction r using induction_children with
  | step r ih =>
    cases r with
    | product fields =>
      simp only [mapRefs, mapRefsFields_eq, List.map_map]
      refine congrArg product (List.map_congr_left fun e he => ?_)
      exact congrArg (e.1, ·) (ih e.2 (List.mem_map_of_mem he))
    | union rs | vector rs | comp rs =>
      simp only [mapRefs, mapRefsList_eq, List.map_map]
      exact congrArg _ (List.map_congr_left ih)
    | _ => rfl

theorem mapRefs_id (r : Relation) : (r.mapRefs fun t => t) = r := by
  induction r using induction_children with
  | step r ih =>
    cases r with
    | product fields =>
      rw [mapRefs, mapRefsFields_eq]
      refine congrArg product ((List.map_congr_left fun e he => ?_).trans (List.map_id fields))
      rw [ih e.2 (List.mem_map_of_mem he)]
      rfl
    | union rs | vector rs | comp rs =>
      rw [mapRefs, mapRefsList_eq]
      exact congrArg _ ((List.map_congr_left ih).trans (List.map_id rs))
    | _ => rfl

theorem occurrences_compose (rs : List Relation) :
    (compose rs).occurrences = rs.flatMap occurrences := by
  match rs with
  | [] => rfl
  | [r] => simp [compose]
  | r :: s :: rs => simp [compose, occurrences, occurrencesList_eq]

/-- Simplification keeps all references. -/
theorem occurrences_simplify (r : Relation) : r.simplify.occurrences = r.occurrences := by
  induction r using induction_children with
  | step r ih =>
    cases r with
    | product fields =>
      simp only [simplify, occurrences, simplifyFields_eq, occurrencesFields_eq, List.flatMap_map]
      exact List.flatMap_congr fun e he => ih e.2 (List.mem_map_of_mem he)
    | union rs | vector rs =>
      simp only [simplify, occurrences, simplifyList_eq, occurrencesList_eq, List.flatMap_map]
      exact List.flatMap_congr ih
    | comp rs =>
      rw [simplify, occurrences_compose, simplifyList_eq, occurrences, occurrencesList_eq]
      have hdropped : ∀ s : Relation, s.isIdentity → s.occurrences = [] := by
        intro s hs
        cases s <;> simp_all [isIdentity, occurrences]
      have hfilter (ss : List Relation) :
          (ss.filter (!isIdentity ·)).flatMap occurrences = ss.flatMap occurrences := by
        induction ss with
        | nil => rfl
        | cons s ss ihss =>
          by_cases hs : s.isIdentity
          · simp [hs, ihss, hdropped s hs]
          · simp [hs, ihss]
      rw [hfilter, List.flatMap_map]
      exact List.flatMap_congr ih
    | _ => rfl

end StructuralTyping.Relation
