import StructuralTyping.Proofs.RelationRenaming

/-!
# Simplified relations

What simplification drops is without meaning wherever codes and filters mean what the identity does
and the identity is a unit of composition, whatever the other nodes mean. What it leaves is a normal
form, which it does not change. Main statement: `simplify_sound_and_normal`.
-/
namespace StructuralTyping.Relation
universe u
variable {β : Type u} {r c s : Relation} {rs : List Relation} {fields : List (String × Relation)}

section Walks

theorem walkList_eq (rs : List Relation) : walkList rs = rs.flatMap walk := by
  induction rs with
  | nil => rfl
  | cons r rs ih => rw [walkList, List.flatMap_cons, ih]

theorem walkFields_eq (fields : List (String × Relation)) :
    walkFields fields = (fields.map (·.2)).flatMap walk := by
  induction fields with
  | nil => rfl
  | cons e fields ih => rw [walkFields, List.map_cons, List.flatMap_cons, ih]

theorem walk_eq (r : Relation) : r.walk = .enter r :: r.children.flatMap walk ++ [.leave r] := by
  cases r with
  | product fields => rw [walk, walkFields_eq, children]
  | union rs | vector rs | comp rs => rw [walk, walkList_eq, children]
  | _ => rfl

/-- The nodes of a relation are the relation itself and the nodes of its children. -/
theorem enter_mem_walk_iff :
    Visit.enter s ∈ r.walk ↔ s = r ∨ ∃ c ∈ r.children, Visit.enter s ∈ c.walk := by
  rw [walk_eq]
  simp

end Walks

section Interpretations

/-- What the nodes of a relation mean, given what their children do. Codes, filters and the identity
mean the unit; composition need not be associative. -/
structure Interpretation (β : Type u) where
  unit : β
  op : β → β → β
  product : List (String × β) → β
  union : List β → β
  vector : List β → β
  ref : String → β
  dot : String → β
  literal : Literal → β
  unit_op : ∀ x, op unit x = x
  op_unit : ∀ x, op x unit = x

namespace Interpretation

mutual

def eval (i : Interpretation β) : Relation → β
  | .product fields => i.product (evalFields i fields)
  | .union rs => i.union (evalList i rs)
  | .vector rs => i.vector (evalList i rs)
  | .comp rs => (evalList i rs).foldr i.op i.unit
  | .ref name => i.ref name
  | .dot label => i.dot label
  | .literal value => i.literal value
  | .identity | .code _ | .filter _ => i.unit

def evalList (i : Interpretation β) : List Relation → List β
  | [] => []
  | r :: rs => eval i r :: evalList i rs

def evalFields (i : Interpretation β) : List (String × Relation) → List (String × β)
  | [] => []
  | (label, r) :: fields => (label, eval i r) :: evalFields i fields

end

variable (i : Interpretation β)

theorem evalList_eq (rs : List Relation) : i.evalList rs = rs.map i.eval := by
  induction rs with
  | nil => rfl
  | cons r rs ih => rw [evalList, List.map_cons, ih]

theorem evalFields_eq (fields : List (String × Relation)) :
    i.evalFields fields = fields.map fun e => (e.1, i.eval e.2) := by
  induction fields with
  | nil => rfl
  | cons e fields ih => rw [evalFields, List.map_cons, ih]

/-- What a composition of the relations means. -/
def chain (rs : List Relation) : β := (rs.map i.eval).foldr i.op i.unit

theorem chain_cons (r : Relation) (rs : List Relation) :
    i.chain (r :: rs) = i.op (i.eval r) (i.chain rs) := rfl

theorem eval_comp (rs : List Relation) : i.eval (.comp rs) = i.chain rs := by
  rw [eval, evalList_eq, chain]

theorem eval_compose (rs : List Relation) : i.eval (compose rs) = i.chain rs := by
  match rs with
  | [] => rfl
  | [r] => exact (i.op_unit (i.eval r)).symm
  | r :: s :: rs => exact i.eval_comp (r :: s :: rs)

theorem eval_of_isIdentity (h : r.isIdentity) : i.eval r = i.unit := by
  cases r with
  | identity => rfl
  | _ => exact absurd h Bool.false_ne_true

/-- Without the identities a composition means the same. -/
theorem chain_filter (rs : List Relation) : i.chain (rs.filter (!isIdentity ·)) = i.chain rs := by
  induction rs with
  | nil => rfl
  | cons r rs ih =>
    by_cases hr : r.isIdentity
    · rw [List.filter_cons_of_neg (by simp [hr]), ih, chain_cons, i.eval_of_isIdentity hr,
        i.unit_op]
    · rw [List.filter_cons_of_pos (by simp [hr]), chain_cons, chain_cons, ih]

theorem eval_simplify (r : Relation) : i.eval r.simplify = i.eval r := by
  induction r using induction_children with
  | step r ih =>
    cases r with
    | product fields =>
      simp only [simplify, simplifyFields_eq, eval, evalFields_eq, List.map_map]
      refine congrArg i.product (List.map_congr_left fun e he => ?_)
      exact congrArg (e.1, ·) (ih e.2 (List.mem_map_of_mem he))
    | union rs | vector rs =>
      simp only [simplify, simplifyList_eq, eval, evalList_eq, List.map_map]
      exact congrArg _ (List.map_congr_left ih)
    | comp rs =>
      rw [simplify, simplifyList_eq, eval_compose, chain_filter, eval_comp, chain, List.map_map]
      exact congrArg (List.foldr i.op i.unit) (List.map_congr_left ih)
    | _ => rfl

end Interpretation

end Interpretations

section NormalForms

/-- What a node of a simplified relation can be. -/
def NormalNode : Relation → Prop
  | code _ | filter _ => False
  | comp rs => 2 ≤ rs.length ∧ identity ∉ rs
  | _ => True

/-- All nodes are such as simplification leaves them. -/
def Normal (r : Relation) : Prop := ∀ s, Visit.enter s ∈ r.walk → NormalNode s

theorem normal_iff : r.Normal ↔ NormalNode r ∧ ∀ c ∈ r.children, c.Normal := by
  constructor
  · intro h
    exact ⟨h r (enter_mem_walk_iff.2 (.inl rfl)),
      fun c hc s hs => h s (enter_mem_walk_iff.2 (.inr ⟨c, hc, hs⟩))⟩
  · rintro ⟨hnode, hchildren⟩ s hs
    rcases enter_mem_walk_iff.1 hs with rfl | ⟨c, hc, hs⟩
    · exact hnode
    · exact hchildren c hc s hs

theorem isIdentity_iff : r.isIdentity ↔ r = identity := by
  cases r <;> simp [isIdentity]

theorem compose_of_two_le (h : 2 ≤ rs.length) : compose rs = comp rs := by
  match rs with
  | _ :: _ :: _ => rfl

theorem normal_compose (hitems : ∀ s ∈ rs, s.Normal) (hid : identity ∉ rs) :
    (compose rs).Normal := by
  match rs with
  | [] => exact normal_iff.2 ⟨trivial, fun _ h => absurd h List.not_mem_nil⟩
  | [r] => exact hitems r (List.mem_singleton.2 rfl)
  | r :: s :: rs => exact normal_iff.2 ⟨⟨by simp, hid⟩, hitems⟩

theorem identity_notMem_filter (rs : List Relation) :
    identity ∉ rs.filter (!isIdentity ·) := by
  simp [isIdentity]

theorem normal_simplify (r : Relation) : r.simplify.Normal := by
  induction r using induction_children with
  | step r ih =>
    cases r with
    | product fields =>
      refine normal_iff.2 ⟨trivial, fun c hc => ?_⟩
      simp only [simplify, simplifyFields_eq, children, List.map_map, List.mem_map,
        Function.comp_apply] at hc
      obtain ⟨e, he, rfl⟩ := hc
      exact ih e.2 (List.mem_map_of_mem he)
    | union rs | vector rs =>
      refine normal_iff.2 ⟨trivial, fun c hc => ?_⟩
      simp only [simplify, simplifyList_eq, children, List.mem_map] at hc
      obtain ⟨e, he, rfl⟩ := hc
      exact ih e he
    | comp rs =>
      rw [simplify, simplifyList_eq]
      refine normal_compose (fun s hs => ?_) (identity_notMem_filter _)
      obtain ⟨e, he, rfl⟩ := List.mem_map.1 (List.mem_of_mem_filter hs)
      exact ih e he
    | _ => exact normal_iff.2 ⟨trivial, fun _ h => absurd h List.not_mem_nil⟩

/-- Simplification leaves normal forms as they are. -/
theorem Normal.simplify_eq (h : r.Normal) : r.simplify = r := by
  induction r using induction_children with
  | step r ih =>
    obtain ⟨hnode, hchildren⟩ := normal_iff.1 h
    have hsame : ∀ c ∈ r.children, c.simplify = c := fun c hc => ih c hc (hchildren c hc)
    cases r with
    | product fields =>
      rw [simplify, simplifyFields_eq]
      refine congrArg product ((List.map_congr_left fun e he => ?_).trans (List.map_id fields))
      exact congrArg (e.1, ·) (hsame e.2 (List.mem_map_of_mem he))
    | union rs | vector rs =>
      rw [simplify, simplifyList_eq]
      exact congrArg _ ((List.map_congr_left hsame).trans (List.map_id rs))
    | comp rs =>
      have hitems : rs.map simplify = rs := (List.map_congr_left hsame).trans (List.map_id rs)
      have hkeep : rs.filter (!isIdentity ·) = rs := by
        refine List.filter_eq_self.2 fun s hs => ?_
        have hne : s ≠ identity := fun heq => hnode.2 (heq ▸ hs)
        simpa [← isIdentity_iff] using hne
      rw [simplify, simplifyList_eq, hitems, hkeep, compose_of_two_le hnode.1]
    | code name | filter f => exact hnode.elim
    | _ => rfl

end NormalForms

/-- Simplification keeps what a relation means and the names that it refers to, and it leaves normal
forms. -/
theorem simplify_sound_and_normal (r : Relation) :
    (∀ {β : Type u} (i : Interpretation β), i.eval r.simplify = i.eval r) ∧ r.simplify.Normal ∧
      r.simplify.references = r.references ∧ r.simplify.simplify = r.simplify := by
  refine ⟨fun i => i.eval_simplify r, r.normal_simplify, ?_, r.normal_simplify.simplify_eq⟩
  rw [references, occurrences_simplify, references]

-- An item of a composition that simplifies to nothing leaves a single item.
example (f : Filter) : (comp [code "nat", dot "succ", comp [filter f]]).simplify = dot "succ" := rfl

end StructuralTyping.Relation
