import StructuralTyping.Proofs.Lookup

/-!
# Names that unfold to the same tree

A name of a map of codes unfolds to a possibly infinite tree: its code, with the tree of each
reference in the place of that reference. A name without a code, such as a builtin, is a leaf. Two
names, possibly of different maps, are bisimilar if some relation pairs them that only pairs codes
alike in it. Main statement: names are bisimilar exactly if they unfold to the same tree.
-/
namespace StructuralTyping

namespace Code
variable {ρ ρ' τ τ' υ : Type}

/-- The constructor and the labels. -/
def shape (code : Code ρ) : Code Unit := code.map fun _ => ()

/-- The codes have the same constructor and the same labels, and their references are related. -/
def Alike (r : ρ → τ → Prop) : Code ρ → Code τ → Prop
  | product f, product g => f.Alike r g
  | union f, union g => f.Alike r g
  | vector a, vector b => r a b
  | _, _ => False

theorem forall₂_entries_iff {r : ρ → τ → Prop} {es : List (String × ρ)} {fs : List (String × τ)} :
    List.Forall₂ (fun a b => a.1 = b.1 ∧ r a.2 b.2) es fs ↔
      es.map (fun e => (e.1, ())) = fs.map (fun e => (e.1, ())) ∧
        List.Forall₂ r (es.map (·.2)) (fs.map (·.2)) := by
  induction es generalizing fs with
  | nil => cases fs <;> simp
  | cons e es ih =>
    cases fs with
    | nil => simp
    | cons f fs =>
      simp only [List.forall₂_cons, ih, List.map_cons, List.cons.injEq, Prod.mk.injEq, and_true]
      tauto

theorem fields_alike_iff {r : ρ → τ → Prop} {f : NameMap ρ} {g : NameMap τ} :
    f.Alike r g ↔
      f.map (fun _ => ()) = g.map (fun _ => ()) ∧ List.Forall₂ r f.values g.values := by
  rw [NameMap.alike_iff_forall₂, forall₂_entries_iff]
  simp only [NameMap.map, NameMap.mk.injEq, NameMap.values]

/-- Codes are alike if they have the same shape and the references are related in label order. -/
theorem alike_iff {r : ρ → τ → Prop} {x : Code ρ} {y : Code τ} :
    x.Alike r y ↔ x.shape = y.shape ∧ List.Forall₂ r x.refs y.refs := by
  cases x <;> cases y <;> simp [Alike, shape, map, refs, fields_alike_iff]

instance {r : ρ → τ → Prop} [∀ a b, Decidable (r a b)] (x : Code ρ) (y : Code τ) :
    Decidable (x.Alike r y) :=
  decidable_of_iff _ alike_iff.symm

theorem Alike.imp {r s : ρ → τ → Prop} {x : Code ρ} {y : Code τ} (h : x.Alike r y)
    (hrs : ∀ a ∈ x.refs, ∀ b ∈ y.refs, r a b → s a b) : x.Alike s y := by
  rw [alike_iff] at h ⊢
  refine ⟨h.1, ?_⟩
  rw [List.forall₂_iff_get] at h ⊢
  exact ⟨h.2.1, fun i hi hj =>
    hrs _ (List.get_mem _ _) _ (List.get_mem _ _) (h.2.2 i hi hj)⟩

theorem Alike.flip {r : ρ → τ → Prop} {x : Code ρ} {y : Code τ} (h : x.Alike r y) :
    y.Alike (fun b a => r a b) x := by
  rw [alike_iff] at h ⊢
  exact ⟨h.1.symm, h.2.flip⟩

theorem Alike.comp {r : ρ → τ → Prop} {s : τ → υ → Prop} {x : Code ρ} {y : Code τ}
    {z : Code υ} (hxy : x.Alike r y) (hyz : y.Alike s z) :
    x.Alike (fun a c => ∃ b, r a b ∧ s b c) z := by
  rw [alike_iff] at hxy hyz ⊢
  refine ⟨hxy.1.trans hyz.1, ?_⟩
  have hs := hyz.2
  simp only [List.forall₂_iff_get] at hxy hs ⊢
  exact ⟨hxy.2.1.trans hs.1, fun i hi hk =>
    ⟨_, hxy.2.2 i hi (hxy.2.1 ▸ hi), hs.2 i (hxy.2.1 ▸ hi) hk⟩⟩

@[simp] theorem refs_map (f : ρ → τ) (x : Code ρ) : (x.map f).refs = x.refs.map f := by
  cases x <;> simp [map, refs, NameMap.map, NameMap.values]

@[simp] theorem shape_map (f : ρ → τ) (x : Code ρ) : (x.map f).shape = x.shape := by
  cases x <;> simp [map, shape, NameMap.map]

theorem map_map (f : ρ → τ) (g : τ → υ) (x : Code ρ) :
    (x.map f).map g = x.map fun a => g (f a) := by
  cases x <;> simp [map, NameMap.map]

theorem alike_map_left_iff {r : ρ' → τ → Prop} {f : ρ → ρ'} {x : Code ρ} {y : Code τ} :
    (x.map f).Alike r y ↔ x.Alike (fun a b => r (f a) b) y := by
  simp [alike_iff, List.forall₂_map_left_iff]

theorem alike_map_right_iff {r : ρ → τ' → Prop} {g : τ → τ'} {x : Code ρ} {y : Code τ} :
    x.Alike r (y.map g) ↔ x.Alike (fun a b => r a (g b)) y := by
  simp [alike_iff, List.forall₂_map_right_iff]

theorem alike_eq_iff {x y : Code ρ} : x.Alike (· = ·) y ↔ x = y := by
  constructor
  · intro h
    cases x <;> cases y <;> simp only [Alike] at h
    case product.product f g => exact congrArg product h.eq
    case union.union f g => exact congrArg union h.eq
    case vector.vector a b => exact congrArg vector h
  · rintro rfl
    rw [alike_iff]
    exact ⟨rfl, List.forall₂_refl _⟩

theorem map_eq_map_iff {f : ρ → υ} {g : τ → υ} {x : Code ρ} {y : Code τ} :
    x.map f = y.map g ↔ x.Alike (fun a b => f a = g b) y := by
  rw [← alike_eq_iff, alike_map_left_iff, alike_map_right_iff]

theorem alike_of_traverse {ε : Type} {f : ρ → Except ε τ} {x : Code ρ} {y : Code τ}
    (h : x.traverse f = .ok y) : x.Alike (fun a b => f a = .ok b) y := by
  cases x <;> simp only [traverse] at h
  case vector a =>
    cases hb : f a with
    | error e => simp [hb, Except.map] at h
    | ok b =>
      simp only [hb, Except.map, Except.ok.injEq] at h
      subst h
      exact hb
  all_goals
    rename_i m
    cases hn : m.traverse f with
    | error e => simp [hn, Except.map] at h
    | ok n =>
      simp only [hn, Except.map, Except.ok.injEq] at h
      subst h
      exact NameMap.alike_of_traverse hn

theorem Alike.exists_ref {r : ρ → τ → Prop} {x : Code ρ} {y : Code τ} (h : x.Alike r y) {b : τ}
    (hb : b ∈ y.refs) : ∃ a ∈ x.refs, r a b := by
  have hrefs := (alike_iff.1 h).2
  rw [List.forall₂_iff_get] at hrefs
  obtain ⟨i, hi, rfl⟩ := List.mem_iff_getElem.1 hb
  exact ⟨_, List.get_mem _ ⟨i, hrefs.1 ▸ hi⟩, hrefs.2 i _ hi⟩

/-- What a step leads to: a label leads to its field, the step without a label to the element of a
vector. -/
def child? : Code ρ → Option String → Option ρ
  | product f, some label => f.get? label
  | union f, some label => f.get? label
  | vector element, none => some element
  | _, _ => none

theorem Alike.child? {r : ρ → τ → Prop} {x : Code ρ} {y : Code τ} (h : x.Alike r y)
    (step : Option String) : Option.Rel r (x.child? step) (y.child? step) := by
  cases x <;> cases y <;> cases step <;> simp_all [Alike, Code.child?, NameMap.Alike]

theorem alike_of_child? {r : ρ → τ → Prop} {x : Code ρ} {y : Code τ} (hshape : x.shape = y.shape)
    (h : ∀ step a b, x.child? step = some a → y.child? step = some b → r a b) : x.Alike r y := by
  have hshapes : x.Alike (fun _ _ => True) y := by
    rw [shape, shape, map_eq_map_iff] at hshape
    exact hshape.imp fun _ _ _ _ _ => trivial
  cases x <;> cases y <;> simp only [Alike] at hshapes ⊢
  case vector.vector a b => exact h none a b rfl rfl
  all_goals
    intro label
    have hlabel := hshapes label
    have hrel := h (some label)
    simp only [Code.child?] at hrel
    revert hlabel hrel
    cases NameMap.get? _ label <;> cases NameMap.get? _ label <;> simp

end Code

/-- A possibly infinite tree: what stands at the end of a path from the root, if there is such a
path. That is the name of a leaf, or the shape of a code. -/
abbrev Tree := List (Option String) → Option (String ⊕ Code Unit)

namespace Codes

/-- What a name shows of itself. -/
def face (codes : Codes) (name : String) : String ⊕ Code Unit :=
  match codes.get? name with
  | some code => .inr code.shape
  | none => .inl name

/-- The tree that a name unfolds to. -/
def tree (codes : Codes) : String → Tree
  | name, [] => some (codes.face name)
  | name, step :: path =>
    ((codes.get? name).bind (·.child? step)).bind fun r => tree codes r path

/-- One round of comparison: the names have alike codes, or neither has one and they are equal. -/
def Matches (c d : Codes) (r : String → String → Prop) (a b : String) : Prop :=
  match c.get? a, d.get? b with
  | some x, some y => x.Alike r y
  | none, none => a = b
  | _, _ => False

instance (c d : Codes) (r : String → String → Prop) [∀ a b, Decidable (r a b)] (a b : String) :
    Decidable (c.Matches d r a b) :=
  match hx : c.get? a, hy : d.get? b with
  | some x, some y => decidable_of_iff (x.Alike r y) (by simp [Matches, hx, hy])
  | none, none => decidable_of_iff (a = b) (by simp [Matches, hx, hy])
  | some _, none | none, some _ => isFalse (by simp [Matches, hx, hy])

def IsBisimulation (c d : Codes) (r : String → String → Prop) : Prop :=
  ∀ a b, r a b → c.Matches d r a b

/-- Bisimilarity is the greatest bisimulation. -/
def Bisimilar (c d : Codes) (a b : String) : Prop := ∃ r, c.IsBisimulation d r ∧ r a b

variable {c d e : Codes} {r s : String → String → Prop} {a b n : String}

theorem Matches.of_some {x y : Code String} (hx : c.get? a = some x) (hy : d.get? b = some y)
    (h : x.Alike r y) : c.Matches d r a b := by simpa [Matches, hx, hy] using h

theorem Matches.of_none (hx : c.get? a = none) (hy : d.get? a = none) : c.Matches d r a a := by
  simp [Matches, hx, hy]

theorem Matches.imp (h : c.Matches d r a b) (hrs : ∀ a b, r a b → s a b) : c.Matches d s a b := by
  unfold Matches at h ⊢
  split at h
  · exact h.imp fun a _ b _ => hrs a b
  · exact h
  · exact h

theorem Bisimilar.matches (h : c.Bisimilar d a b) : c.Matches d (c.Bisimilar d) a b := by
  obtain ⟨r, hr, hab⟩ := h
  exact (hr a b hab).imp fun a b hab => ⟨r, hr, hab⟩

theorem Bisimilar.of_matches (h : c.Matches d (c.Bisimilar d) a b) : c.Bisimilar d a b :=
  ⟨c.Matches d (c.Bisimilar d), fun _ _ h => h.imp fun _ _ => Bisimilar.matches, h⟩

/-- A finite list of pairs can be checked to be a bisimulation. -/
theorem Bisimilar.of_pairs {pairs : List (String × String)}
    (h : ∀ p ∈ pairs, c.Matches d (fun a b => (a, b) ∈ pairs) p.1 p.2) (hab : (a, b) ∈ pairs) :
    c.Bisimilar d a b :=
  ⟨fun a b => (a, b) ∈ pairs, fun a b hab => h (a, b) hab, hab⟩

theorem Bisimilar.exists_code {x : Code String} (h : c.Bisimilar d a b) (hx : c.get? a = some x) :
    ∃ y, d.get? b = some y ∧ x.Alike (c.Bisimilar d) y := by
  have hm := h.matches
  unfold Matches at hm
  rw [hx] at hm
  cases hy : d.get? b with
  | none => simp [hy] at hm
  | some y => exact ⟨y, rfl, by simpa [hy] using hm⟩

theorem Bisimilar.eq_of_get?_none (h : c.Bisimilar d a b) (hx : c.get? a = none) :
    a = b ∧ d.get? b = none := by
  have hm := h.matches
  unfold Matches at hm
  rw [hx] at hm
  cases hy : d.get? b with
  | none => exact ⟨by simpa [hy] using hm, rfl⟩
  | some y => simp [hy] at hm

theorem Bisimilar.refl (c : Codes) (a : String) : c.Bisimilar c a a := by
  refine ⟨(· = ·), ?_, rfl⟩
  rintro a b rfl
  cases hx : c.get? a with
  | none => exact .of_none hx hx
  | some x => exact .of_some hx hx (Code.alike_eq_iff.2 rfl)

theorem Bisimilar.symm (h : c.Bisimilar d a b) : d.Bisimilar c b a := by
  refine ⟨fun b a => c.Bisimilar d a b, ?_, h⟩
  intro b a hab
  cases hx : c.get? a with
  | none =>
    obtain ⟨rfl, hy⟩ := hab.eq_of_get?_none hx
    exact .of_none hy hx
  | some x =>
    obtain ⟨y, hy, hxy⟩ := hab.exists_code hx
    exact .of_some hy hx hxy.flip

theorem Bisimilar.trans (h : c.Bisimilar d a b) (h' : d.Bisimilar e b n) : c.Bisimilar e a n := by
  refine ⟨fun a n => ∃ b, c.Bisimilar d a b ∧ d.Bisimilar e b n, ?_, b, h, h'⟩
  rintro a n ⟨b, hab, hbn⟩
  cases hx : c.get? a with
  | none =>
    obtain ⟨rfl, hy⟩ := hab.eq_of_get?_none hx
    obtain ⟨rfl, hz⟩ := hbn.eq_of_get?_none hy
    exact .of_none hx hz
  | some x =>
    obtain ⟨y, hy, hxy⟩ := hab.exists_code hx
    obtain ⟨z, hz, hyz⟩ := hbn.exists_code hy
    exact .of_some hx hz (hxy.comp hyz)

theorem Bisimilar.contains_iff (h : c.Bisimilar d a b) : c.contains a ↔ d.contains b := by
  constructor
  · intro ha
    obtain ⟨x, hx⟩ := NameMap.contains_iff.1 ha
    obtain ⟨y, hy, -⟩ := h.exists_code hx
    exact NameMap.contains_of_get? hy
  · intro hb
    obtain ⟨y, hy⟩ := NameMap.contains_iff.1 hb
    obtain ⟨x, hx, -⟩ := h.symm.exists_code hy
    exact NameMap.contains_of_get? hx

theorem Bisimilar.face_eq (h : c.Bisimilar d a b) : c.face a = d.face b := by
  cases hx : c.get? a with
  | none =>
    obtain ⟨rfl, hy⟩ := h.eq_of_get?_none hx
    simp [face, hx, hy]
  | some x =>
    obtain ⟨y, hy, hxy⟩ := h.exists_code hx
    simp [face, hx, hy, (Code.alike_iff.1 hxy).1]

theorem Bisimilar.tree_eq (h : c.Bisimilar d a b) : c.tree a = d.tree b := by
  funext path
  induction path generalizing a b with
  | nil => exact congrArg some h.face_eq
  | cons step path ih =>
    simp only [tree]
    cases hx : c.get? a with
    | none => simp [(h.eq_of_get?_none hx).2]
    | some x =>
      obtain ⟨y, hy, hxy⟩ := h.exists_code hx
      rw [hy, Option.bind_some, Option.bind_some]
      have hchild := hxy.child? step
      cases hu : x.child? step <;> cases hv : y.child? step <;> simp only [hu, hv] at hchild
      case none.none => rfl
      case some.some u v => exact ih (Option.rel_some_some.1 hchild)
      all_goals simp at hchild

theorem tree_isBisimulation (c d : Codes) :
    c.IsBisimulation d fun a b => c.tree a = d.tree b := by
  intro a b h
  have hface : c.face a = d.face b := by simpa [tree] using congrFun h []
  unfold Matches
  cases hx : c.get? a <;> cases hy : d.get? b <;> simp_all only [face, reduceCtorEq]
  case none.none => exact Sum.inl.inj hface
  case some.some x y =>
    refine Code.alike_of_child? (Sum.inr.inj hface) fun step u v hu hv => ?_
    funext path
    simpa [tree, hx, hy, hu, hv] using congrFun h (step :: path)

/-- Names are bisimilar exactly if they unfold to the same tree. -/
theorem bisimilar_iff_tree_eq : c.Bisimilar d a b ↔ c.tree a = d.tree b :=
  ⟨Bisimilar.tree_eq, fun h => ⟨_, tree_isBisimulation c d, h⟩⟩

end Codes

end StructuralTyping
