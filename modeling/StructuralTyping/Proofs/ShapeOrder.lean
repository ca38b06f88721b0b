import StructuralTyping.Proofs.Lookup
import StructuralTyping.Pattern.Graph

/-!
# The order of shapes

A shape is below another if the other says all that it says: what its kind tells about the code is
kept, and its labels are there, as labels of members if the other is a vector. Merging two shapes
gives a shape above both. Its kind is one of theirs, or closes an open kind, so it is a code or a
vector only if one of the two is, and the labels it has are labels of the code.
-/
namespace StructuralTyping

namespace NameSet
variable {s t : NameSet} {names : List String} {l : String}

theorem mem_toList : l ∈ s.toList ↔ s.contains l := NameMap.mem_keys_iff

theorem eq_of_contains_iff (h : ∀ l, s.contains l ↔ t.contains l) : s = t := by
  apply NameMap.ext
  intro l
  have hl := h l
  simp only [NameMap.contains_iff] at hl
  cases hs : s.get? l <;> cases ht : t.get? l <;> simp_all

theorem contains_foldl_insert (m : NameSet) :
    ((names.map (·, ())).foldl (fun m e => NameMap.insert m e.1 e.2) m).contains l ↔
      m.contains l ∨ l ∈ names := by
  induction names generalizing m with
  | nil => simp
  | cons n rest ih =>
    rw [List.map_cons, List.foldl_cons, ih, NameMap.contains_insert, List.mem_cons]
    tauto

theorem contains_ofList : (NameSet.ofList names).contains l ↔ l ∈ names := by
  rw [ofList, NameMap.ofList, contains_foldl_insert]
  simp [NameMap.contains]

theorem subset_iff : s.subset t ↔ ∀ l, s.contains l → t.contains l := by
  simp [subset, NameMap.mem_keys_iff]

end NameSet

namespace PatternKind
variable {repo : Repository} {kind other : PatternKind} {l k : String}

theorem isMemberLabel_vectorMember : Text.isMemberLabel Text.vectorMember := by decide

theorem memberLabel_of_isVector (h : kind.isVector repo) (hl : Text.isMemberLabel l) :
    kind.memberLabel repo l = Text.vectorMember := by
  simp [memberLabel, h, hl]

theorem memberLabel_of_not_isVector (h : ¬kind.isVector repo) : kind.memberLabel repo l = l := by
  simp [memberLabel, h]

theorem memberLabel_of_not_isMemberLabel (h : ¬Text.isMemberLabel l) :
    kind.memberLabel repo l = l := by
  simp [memberLabel, h]

theorem isMemberLabel_memberLabel :
    Text.isMemberLabel (kind.memberLabel repo l) = Text.isMemberLabel l := by
  by_cases h : kind.isVector repo ∧ Text.isMemberLabel l
  · simp [memberLabel, h.1, h.2, isMemberLabel_vectorMember]
  · simp [memberLabel, h]

/-- A label is renamed once, no matter through which kinds a class has gone before. -/
theorem memberLabel_memberLabel (h : kind.isVector repo → other.isVector repo) :
    other.memberLabel repo (kind.memberLabel repo l) = other.memberLabel repo l := by
  by_cases hk : kind.isVector repo
  · by_cases hl : Text.isMemberLabel l
    · rw [memberLabel_of_isVector hk hl, memberLabel_of_isVector (h hk) hl,
        memberLabel_of_isVector (h hk) isMemberLabel_vectorMember]
    · rw [memberLabel_of_not_isMemberLabel hl]
  · rw [memberLabel_of_not_isVector hk]

theorem memberLabel_idem : kind.memberLabel repo (kind.memberLabel repo l) =
    kind.memberLabel repo l := memberLabel_memberLabel fun h => h

/-- Labels are renamed alike exactly if they are equal or both are labels of members. -/
theorem memberLabel_eq_iff : kind.memberLabel repo l = kind.memberLabel repo k ↔
    l = k ∨ kind.isVector repo ∧ Text.isMemberLabel l ∧ Text.isMemberLabel k := by
  constructor
  · intro h
    have hsame : Text.isMemberLabel l = Text.isMemberLabel k := by
      calc Text.isMemberLabel l = Text.isMemberLabel (kind.memberLabel repo l) :=
            isMemberLabel_memberLabel.symm
        _ = Text.isMemberLabel (kind.memberLabel repo k) := by rw [h]
        _ = Text.isMemberLabel k := isMemberLabel_memberLabel
    by_cases hv : kind.isVector repo
    · by_cases hl : Text.isMemberLabel l
      · exact .inr ⟨hv, hl, hsame ▸ hl⟩
      · rw [memberLabel_of_not_isMemberLabel hl,
          memberLabel_of_not_isMemberLabel (hsame ▸ hl)] at h
        exact .inl h
    · rw [memberLabel_of_not_isVector hv, memberLabel_of_not_isVector hv] at h
      exact .inl h
  · rintro (rfl | ⟨hv, hl, hk⟩)
    · rfl
    · rw [memberLabel_of_isVector hv hl, memberLabel_of_isVector hv hk]

theorem isVector_bound_iff {c : String} : (bound c).isVector repo ↔
    ∃ element, repo.find c = .code (.vector element) := by
  unfold isVector
  cases hc : repo.find c with
  | code code => cases code <;> simp [hc]
  | builtin b => simp [hc]
  | undefined => simp [hc]

/-- Whether every code of the kind is a product. -/
def isProduct (repo : Repository) : PatternKind → Bool
  | openProduct | closedProduct => true
  | bound code => match repo.find code with
    | .code (.product _) => true
    | _ => false
  | _ => false

/-- Whether every code of the kind is a union. -/
def isUnion (repo : Repository) : PatternKind → Bool
  | openUnion | closedUnion => true
  | bound code => match repo.find code with
    | .code (.union _) => true
    | _ => false
  | _ => false

theorem not_isVector_of_isProduct (h : kind.isProduct repo) : ¬kind.isVector repo := by
  intro hv
  cases kind with
  | vector => cases h
  | bound c =>
    obtain ⟨element, hc⟩ := isVector_bound_iff.1 hv
    simp [isProduct, hc] at h
  | _ => cases hv

theorem not_isVector_of_isUnion (h : kind.isUnion repo) : ¬kind.isVector repo := by
  intro hv
  cases kind with
  | vector => cases h
  | bound c =>
    obtain ⟨element, hc⟩ := isVector_bound_iff.1 hv
    simp [isUnion, hc] at h
  | _ => cases hv

end PatternKind

/-- What a code refers to under a label. -/
def Repository.reference? (repo : Repository) (c label : String) : Option String :=
  match repo.find c with
  | .code (.product fields) | .code (.union fields) => fields.get? label
  | .code (.vector element) => if label = Text.vectorMember then some element else none
  | .builtin _ | .undefined => none

namespace Shape
variable {repo : Repository} {s t u l r m : Shape} {k : PatternKind} {c x : String}

/-- What the kind of a shape tells is kept by another shape. -/
def Keeps (repo : Repository) (s t : Shape) : Prop :=
  match s.kind with
  | .unconstrained => True
  | .closedUntyped => t.kind.isVector repo ∨
      t.kind ∈ [.closedUntyped, .closedProduct, .closedUnion] ∧ t.labels = s.labels ∨
      ∃ c, t.kind = .bound c ∧
        ∀ fields, repo.find c = .code (.product fields) → s.labelsEqual fields
  | .openProduct => t.kind.isProduct repo
  | .openUnion => t.kind.isUnion repo
  | .vector => t.kind.isVector repo
  | .closedProduct => t.kind = .closedProduct ∧ t.labels = s.labels ∨
      ∃ c fields, t.kind = .bound c ∧ repo.find c = .code (.product fields) ∧ s.labelsEqual fields
  | .closedUnion => t.kind = .closedUnion ∧ t.labels = s.labels ∨
      ∃ c fields, t.kind = .bound c ∧ repo.find c = .code (.union fields) ∧ s.labelsWithin fields
  | .bound c => t.kind = .bound c

/-- All that the first shape says is said by the second. -/
structure Below (repo : Repository) (s t : Shape) : Prop where
  rank : s.kind.rank ≤ t.kind.rank
  labels : ∀ x, s.labels.contains x → t.labels.contains (t.kind.memberLabel repo x)
  keeps : s.Keeps repo t

/-- The labels are those that a pattern of the kind keeps its edges under. -/
def Normal (repo : Repository) (s : Shape) : Prop :=
  ∀ x, s.labels.contains x → s.kind.memberLabel repo x = x

/-- The labels of a shape that is a code are labels of the code. -/
def Fits (repo : Repository) (s : Shape) : Prop :=
  ∀ c, s.kind = .bound c → ∀ x, s.labels.contains x → (repo.reference? c x).isSome

/-- A vector has no other label than that of its members. -/
def PlainVector (s : Shape) : Prop :=
  s.kind = .vector → ∀ x, s.labels.contains x → x = Text.vectorMember

section Order

theorem Below.refl (h : s.Normal repo) : s.Below repo s where
  rank := Nat.le_refl _
  labels x hx := by rwa [h x hx]
  keeps := by
    unfold Keeps
    cases hs : s.kind <;> simp [PatternKind.isProduct, PatternKind.isUnion, PatternKind.isVector]

theorem Keeps.isVector (h : s.Keeps repo t) (hs : s.kind.isVector repo) : t.kind.isVector repo := by
  unfold Keeps at h
  cases hk : s.kind with
  | vector => simpa [hk] using h
  | bound c =>
    rw [hk] at h hs
    rw [h]
    exact hs
  | _ => simp [hk, PatternKind.isVector] at hs

theorem Below.isVector (h : s.Below repo t) (hs : s.kind.isVector repo) : t.kind.isVector repo :=
  h.keeps.isVector hs

theorem Keeps.isProduct (h : s.Keeps repo t) (hs : s.kind.isProduct repo) :
    t.kind.isProduct repo := by
  unfold Keeps at h
  cases hk : s.kind with
  | openProduct => simpa [hk] using h
  | closedProduct =>
    rw [hk] at h
    rcases h with ⟨ht, -⟩ | ⟨c, fields, ht, hc, -⟩
    · simp [ht, PatternKind.isProduct]
    · simp [ht, PatternKind.isProduct, hc]
  | bound c =>
    rw [hk] at h hs
    rw [h]
    exact hs
  | _ => simp [hk, PatternKind.isProduct] at hs

theorem Keeps.isUnion (h : s.Keeps repo t) (hs : s.kind.isUnion repo) : t.kind.isUnion repo := by
  unfold Keeps at h
  cases hk : s.kind with
  | openUnion => simpa [hk] using h
  | closedUnion =>
    rw [hk] at h
    rcases h with ⟨ht, -⟩ | ⟨c, fields, ht, hc, -⟩
    · simp [ht, PatternKind.isUnion]
    · simp [ht, PatternKind.isUnion, hc]
  | bound c =>
    rw [hk] at h hs
    rw [h]
    exact hs
  | _ => simp [hk, PatternKind.isUnion] at hs

/-- A closed shape of unknown constructor is a vector in the end, or has the labels it had. -/
theorem Keeps.trans_closedUntyped (hs : s.kind = .closedUntyped) (h : s.Keeps repo t)
    (h' : t.Keeps repo u) : s.Keeps repo u := by
  unfold Keeps at h ⊢
  simp only [hs] at h ⊢
  rcases h with hv | ⟨ht, hlabels⟩ | ⟨c, ht, hc⟩
  · exact .inl (h'.isVector hv)
  · unfold Keeps at h'
    simp only [List.mem_cons, List.not_mem_nil, or_false] at ht ⊢
    rcases ht with ht | ht | ht
    · simp only [ht, List.mem_cons, List.not_mem_nil, or_false, hlabels, labelsEqual] at h'
      exact h'
    · simp only [ht] at h'
      rcases h' with ⟨hu, hlabels'⟩ | ⟨c, fields, hu, hc, heq⟩
      · exact .inr (.inl ⟨.inr (.inl hu), hlabels'.trans hlabels⟩)
      · refine .inr (.inr ⟨c, hu, fun fields' hc' => ?_⟩)
        obtain rfl : fields = fields' := by simpa using hc.symm.trans hc'
        simpa only [hlabels, labelsEqual] using heq
    · simp only [ht] at h'
      rcases h' with ⟨hu, hlabels'⟩ | ⟨c, fields, hu, hc, -⟩
      · exact .inr (.inl ⟨.inr (.inr hu), hlabels'.trans hlabels⟩)
      · exact .inr (.inr ⟨c, hu, fun fields' hc' => by simp [hc] at hc'⟩)
  · unfold Keeps at h'
    simp only [ht] at h'
    exact .inr (.inr ⟨c, h', hc⟩)

theorem Keeps.trans (h : s.Keeps repo t) (h' : t.Keeps repo u) : s.Keeps repo u := by
  cases hk : s.kind with
  | unconstrained => simp [Keeps, hk]
  | closedUntyped => exact h.trans_closedUntyped hk h'
  | openProduct =>
    simp only [Keeps, hk] at h ⊢
    exact h'.isProduct h
  | openUnion =>
    simp only [Keeps, hk] at h ⊢
    exact h'.isUnion h
  | vector =>
    simp only [Keeps, hk] at h ⊢
    exact h'.isVector h
  | closedProduct =>
    simp only [Keeps, hk] at h ⊢
    unfold Keeps at h'
    rcases h with ⟨ht, hlabels⟩ | ⟨c, fields, ht, hc, hlabels⟩
    · simp only [ht, labelsEqual] at h'
      simpa only [hlabels, labelsEqual] using h'
    · simp only [ht] at h'
      exact .inr ⟨c, fields, h', hc, hlabels⟩
  | closedUnion =>
    simp only [Keeps, hk] at h ⊢
    unfold Keeps at h'
    rcases h with ⟨ht, hlabels⟩ | ⟨c, fields, ht, hc, hlabels⟩
    · simp only [ht, labelsWithin] at h'
      simpa only [hlabels, labelsWithin] using h'
    · simp only [ht] at h'
      exact .inr ⟨c, fields, h', hc, hlabels⟩
  | bound c =>
    simp only [Keeps, hk] at h ⊢
    unfold Keeps at h'
    simpa only [h] using h'

theorem Below.trans (h : s.Below repo t) (h' : t.Below repo u) : s.Below repo u where
  rank := Nat.le_trans h.rank h'.rank
  labels x hx := by
    have hu := h'.labels _ (h.labels x hx)
    rwa [PatternKind.memberLabel_memberLabel h'.isVector] at hu
  keeps := h.keeps.trans h'.keeps

/-- The labels of a closed product stay as they are when it is found to be a code. -/
theorem Below.labels_eq (h : s.Below repo t) (ht : t.Fits repo) (hkind : s.kind = .closedProduct) :
    t.labels = s.labels := by
  have hkeeps := h.keeps
  rw [Keeps, hkind] at hkeeps
  rcases hkeeps with ⟨-, hlabels⟩ | ⟨c, fields, hc, hfind, hequal⟩
  · exact hlabels
  have hfields : s.labels = fields.map fun _ => () := of_decide_eq_true hequal
  have hvector : ¬t.kind.isVector repo := by simp [hc, PatternKind.isVector, hfind]
  apply NameSet.eq_of_contains_iff
  intro x
  constructor
  · intro hx
    have href := ht c hc x hx
    simp only [Repository.reference?, hfind] at href
    rw [hfields, NameMap.contains_map]
    exact href
  · intro hx
    have hx' := h.labels x hx
    rwa [PatternKind.memberLabel_of_not_isVector hvector] at hx'

/-- A shape is below one of its kind with more labels, unless the kind says that there are no more.
-/
theorem below_of_subset (hs : s.Normal repo) (hkind : s.kind.isOpen ∨ s.kind = .vector)
    (ht : t.kind = s.kind) (hlabels : ∀ x, s.labels.contains x → t.labels.contains x) :
    s.Below repo t where
  rank := ht ▸ Nat.le_refl _
  labels x hx := by
    rw [ht, hs x hx]
    exact hlabels x hx
  keeps := by
    unfold Keeps
    cases hk : s.kind <;>
      simp_all [PatternKind.isOpen, PatternKind.isProduct, PatternKind.isUnion,
        PatternKind.isVector]

theorem below_insert (hs : s.Normal repo) (hkind : s.kind.isOpen ∨ s.kind = .vector) (y : String) :
    s.Below repo ⟨s.kind, s.labels.insert y⟩ :=
  below_of_subset hs hkind rfl fun _ hx => (NameMap.contains_insert _ _ _).2 (.inr hx)

end Order

section Joins

/-- The labels of a merged shape are those of both parts, as its kind keeps them. -/
def Collects (repo : Repository) (l r m : Shape) : Prop :=
  ∀ x, m.labels.contains x ↔
    ∃ y, (l.labels.contains y ∨ r.labels.contains y) ∧ m.kind.memberLabel repo y = x

theorem Collects.symm (h : l.Collects repo r m) : r.Collects repo l m := by
  intro x
  rw [h x]
  simp only [or_comm]

theorem labels_eq_of_subset (hm : l.Collects repo r m) (hv : ¬m.kind.isVector repo)
    (hsub : l.labels.subset r.labels) : m.labels = r.labels := by
  apply NameSet.eq_of_contains_iff
  intro x
  rw [hm x]
  simp only [PatternKind.memberLabel_of_not_isVector hv, exists_eq_right]
  exact ⟨fun h => h.elim (NameSet.subset_iff.1 hsub x) id, .inr⟩

/-- How a shape joins one of no lower rank. -/
inductive Joins (repo : Repository) (l r : Shape) : PatternKind → Prop
  | code {c : String} (hl : l.kind = .bound c) (hr : r.kind = .bound c) : Joins repo l r (.bound c)
  | fits {c : String} (hl : l.kind.bound? = none) (hr : r.kind = .bound c)
      (hfits : l.fits repo c) : Joins repo l r (.bound c)
  | members (hl : l.kind = .unconstrained ∨ l.kind = .closedUntyped ∨ l.kind = .vector)
      (hr : r.kind = .vector) (hmembers : l.kind = .vector ∨ l.allMembers) : Joins repo l r .vector
  | open (hl : l.kind = .unconstrained ∨ l.kind = r.kind) (hr : r.kind.isOpen) :
      Joins repo l r r.kind
  | untyped (hl : l.kind = .unconstrained ∨ l.kind = .closedUntyped)
      (hr : r.kind = .closedUntyped) (hlabels : l.labels.subset r.labels)
      (hequal : l.kind = .closedUntyped → l.labels = r.labels) : Joins repo l r .closedUntyped
  | product (hl : l.kind ∈ [.unconstrained, .openProduct, .closedUntyped, .closedProduct])
      (hr : r.kind = .closedProduct ∨ l.kind = .openProduct ∧ r.kind = .closedUntyped)
      (hlabels : l.labels.subset r.labels)
      (hequal : l.kind = .closedUntyped ∨ l.kind = .closedProduct → l.labels = r.labels) :
      Joins repo l r .closedProduct
  | union (hl : l.kind ∈ [.unconstrained, .openUnion, .closedUntyped, .closedUnion])
      (hr : r.kind = .closedUnion ∨ l.kind = .openUnion ∧ r.kind = .closedUntyped)
      (hlabels : l.labels.subset r.labels)
      (hequal : l.kind = .closedUntyped ∨ l.kind = .closedUnion → l.labels = r.labels) :
      Joins repo l r .closedUnion

theorem joins_of_joinRanked (h : joinRanked repo l r = some k) : Joins repo l r k := by
  have hsub (heq : l.labels = r.labels) : l.labels.subset r.labels :=
    NameSet.subset_iff.2 fun x hx => heq ▸ hx
  cases hl : l.kind <;> cases hr : r.kind <;> simp only [joinRanked, hl, hr] at h
  all_goals try split_ifs at h with hcond
  all_goals cases h
  all_goals try have hequal := of_decide_eq_true hcond
  all_goals first
    | exact .code hl (hcond ▸ hr)
    | exact .code (hcond ▸ hl) hr
    | exact .fits (by rw [hl]; rfl) hr hcond
    | exact .members (by simp [hl]) hr (.inr hcond)
    | exact .members (by simp [hl]) hr (.inl hl)
    | exact hr ▸ .open (by simp [hl, hr]) (by rw [hr]; rfl)
    | exact .untyped (by simp [hl]) hr (hsub hequal) fun _ => hequal
    | exact .untyped (by simp [hl]) hr hcond fun h => by simp [hl] at h
    | exact .product (by simp [hl]) (by simp [hl, hr]) (hsub hequal) fun _ => hequal
    | exact .product (by simp [hl]) (by simp [hl, hr]) hcond fun h => by simp [hl] at h
    | exact .union (by simp [hl]) (by simp [hl, hr]) (hsub hequal) fun _ => hequal
    | exact .union (by simp [hl]) (by simp [hl, hr]) hcond fun h => by simp [hl] at h

theorem Joins.rank_le (h : Joins repo l r k) :
    l.kind.rank ≤ k.rank ∧ r.kind.rank ≤ k.rank := by
  cases h with
  | code hl hr => simp [hl, hr]
  | fits hl hr =>
    rw [hr]
    cases hk : l.kind <;> simp [PatternKind.rank]
  | members hl hr => rcases hl with hl | hl | hl <;> simp [hl, hr, PatternKind.rank]
  | «open» hl => rcases hl with hl | hl <;> simp [hl, PatternKind.rank]
  | untyped hl hr => rcases hl with hl | hl <;> simp [hl, hr, PatternKind.rank]
  | product hl hr =>
    refine ⟨?_, ?_⟩
    · simp only [List.mem_cons, List.not_mem_nil, or_false] at hl
      rcases hl with hl | hl | hl | hl <;> simp [hl, PatternKind.rank]
    · rcases hr with hr | ⟨-, hr⟩ <;> simp [hr, PatternKind.rank]
  | union hl hr =>
    refine ⟨?_, ?_⟩
    · simp only [List.mem_cons, List.not_mem_nil, or_false] at hl
      rcases hl with hl | hl | hl | hl <;> simp [hl, PatternKind.rank]
    · rcases hr with hr | ⟨-, hr⟩ <;> simp [hr, PatternKind.rank]

theorem keeps_of_fits (hl : l.fits repo c) (hm : m.kind = .bound c) : l.Keeps repo m := by
  unfold fits at hl
  cases hc : repo.find c with
  | undefined => simp [hc] at hl
  | builtin b => cases hk : l.kind <;> simp [hc, hk, hm, Keeps] at hl ⊢
  | code code =>
    cases code <;> cases hk : l.kind <;>
      simp_all [Keeps, PatternKind.isProduct, PatternKind.isUnion, PatternKind.isVector]

theorem Joins.keeps (h : Joins repo l r m.kind) (hm : l.Collects repo r m) :
    l.Keeps repo m ∧ r.Keeps repo m := by
  generalize hk : m.kind = k at h
  cases h with
  | code hl hr => simp [Keeps, hl, hr, hk]
  | fits hl hr hfits => exact ⟨keeps_of_fits hfits hk, by simp [Keeps, hr, hk]⟩
  | members hl hr =>
    rcases hl with hl | hl | hl <;> simp [Keeps, hl, hr, hk, PatternKind.isVector]
  | «open» hl hr =>
    cases hr' : r.kind <;> rcases hl with hl | hl <;>
      simp_all [Keeps, PatternKind.isOpen, PatternKind.isProduct, PatternKind.isUnion]
  | untyped hl hr hlabels =>
    have heq := labels_eq_of_subset hm (by simp [hk, PatternKind.isVector]) hlabels
    rcases hl with hl | hl <;> simp_all [Keeps]
  | product hl hr hlabels hequal =>
    have heq := labels_eq_of_subset hm (by simp [hk, PatternKind.isVector]) hlabels
    refine ⟨?_, ?_⟩
    · simp only [List.mem_cons, List.not_mem_nil, or_false] at hl
      rcases hl with hl | hl | hl | hl <;> simp_all [Keeps, PatternKind.isProduct]
    · rcases hr with hr | ⟨-, hr⟩ <;> simp [Keeps, hr, hk, heq]
  | union hl hr hlabels hequal =>
    have heq := labels_eq_of_subset hm (by simp [hk, PatternKind.isVector]) hlabels
    refine ⟨?_, ?_⟩
    · simp only [List.mem_cons, List.not_mem_nil, or_false] at hl
      rcases hl with hl | hl | hl | hl <;> simp_all [Keeps, PatternKind.isUnion]
    · rcases hr with hr | ⟨-, hr⟩ <;> simp [Keeps, hr, hk, heq]

theorem memberLabel_of_reference (h : (repo.reference? c x).isSome) :
    (PatternKind.bound c).memberLabel repo x = x := by
  by_cases hv : (PatternKind.bound c).isVector repo
  · obtain ⟨element, hc⟩ := PatternKind.isVector_bound_iff.1 hv
    have hx : x = Text.vectorMember := by
      by_contra hne
      simp [Repository.reference?, hc, hne] at h
    rw [hx, PatternKind.memberLabel_of_isVector hv PatternKind.isMemberLabel_vectorMember]
  · exact PatternKind.memberLabel_of_not_isVector hv

theorem reference_of_fits (h : l.fits repo c) (hx : l.labels.contains x) :
    (repo.reference? c ((PatternKind.bound c).memberLabel repo x)).isSome := by
  have hwithin (fields : NameMap String) (h : l.labelsWithin fields) : (fields.get? x).isSome :=
    List.all_eq_true.1 h x (NameSet.mem_toList.2 hx)
  have hequal (fields : NameMap String) (h : l.labelsEqual fields) : (fields.get? x).isSome := by
    have hlabels : l.labels = fields.map fun _ => () := of_decide_eq_true h
    exact NameMap.contains_map.1 (hlabels ▸ hx)
  unfold fits at h
  cases hc : repo.find c with
  | undefined => simp [hc] at h
  | builtin b =>
    have hempty : ¬l.labels.isEmpty := fun hempty => by
      have hnil : l.labels.entries = [] := List.isEmpty_iff.1 hempty
      simp [NameMap.contains_iff, NameMap.get?_eq_some_iff, hnil] at hx
    cases hk : l.kind <;> simp_all
  | code code =>
    cases code with
    | product fields =>
      have hv : ¬(PatternKind.bound c).isVector repo := by simp [PatternKind.isVector, hc]
      rw [PatternKind.memberLabel_of_not_isVector hv]
      cases hk : l.kind <;> simp_all [Repository.reference?]
    | union fields =>
      have hv : ¬(PatternKind.bound c).isVector repo := by simp [PatternKind.isVector, hc]
      rw [PatternKind.memberLabel_of_not_isVector hv]
      cases hk : l.kind <;> simp_all [Repository.reference?]
    | vector element =>
      have hv : (PatternKind.bound c).isVector repo := by simp [PatternKind.isVector, hc]
      have hall : l.allMembers := by
        cases hk : l.kind <;> simp_all
      have hmember := List.all_eq_true.1 hall x (NameSet.mem_toList.2 hx)
      rw [PatternKind.memberLabel_of_isVector hv hmember]
      simp [Repository.reference?, hc]

/-- The labels of shapes that make a code are labels of the code. -/
theorem Joins.reference (h : Joins repo l r (.bound c)) (hl : l.Fits repo) (hr : r.Fits repo)
    (hx : l.labels.contains x ∨ r.labels.contains x) :
    (repo.reference? c ((PatternKind.bound c).memberLabel repo x)).isSome := by
  generalize hk : PatternKind.bound c = k at h
  have hcode {s : Shape} (hs : s.Fits repo) (hkind : s.kind = .bound c) (hx : s.labels.contains x) :
      (repo.reference? c ((PatternKind.bound c).memberLabel repo x)).isSome := by
    rw [memberLabel_of_reference (hs c hkind x hx)]
    exact hs c hkind x hx
  cases h with
  | code hl' hr' =>
    obtain rfl := PatternKind.bound.inj hk
    exact hx.elim (hcode hl hl') (hcode hr hr')
  | fits _ hr' hfits =>
    obtain rfl := PatternKind.bound.inj hk
    exact hx.elim (reference_of_fits hfits) (hcode hr hr')
  | «open» hl' hr' => simp [← hk, PatternKind.isOpen] at hr'
  | _ => cases hk

theorem Joins.kind (h : Joins repo l r k) : k = r.kind ∨ r.kind = .closedUntyped ∧
    (l.kind = .openProduct ∧ k = .closedProduct ∨ l.kind = .openUnion ∧ k = .closedUnion) := by
  cases h with
  | code hl hr => simp [hr]
  | fits hl hr => simp [hr]
  | members hl hr => simp [hr]
  | «open» => simp
  | untyped hl hr => simp [hr]
  | product _ hr => exact hr.imp Eq.symm fun ⟨hl, hr⟩ => ⟨hr, .inl ⟨hl, rfl⟩⟩
  | union _ hr => exact hr.imp Eq.symm fun ⟨hl, hr⟩ => ⟨hr, .inr ⟨hl, rfl⟩⟩

/-- The labels of shapes that make a vector are labels of members. -/
theorem Joins.memberLabel_eq (h : Joins repo l r .vector) (hl : l.PlainVector)
    (hr : r.PlainVector) (hx : l.labels.contains x ∨ r.labels.contains x) :
    PatternKind.vector.memberLabel repo x = Text.vectorMember := by
  have hplain {s : Shape} (hs : s.PlainVector) (hkind : s.kind = .vector)
      (hx : s.labels.contains x) : Text.isMemberLabel x := by
    rw [hs hkind x hx]
    exact PatternKind.isMemberLabel_vectorMember
  apply PatternKind.memberLabel_of_isVector rfl
  generalize hk : PatternKind.vector = k at h
  cases h with
  | members hl' hr' hmembers =>
    rcases hx with hx | hx
    · rcases hmembers with hkind | hall
      · exact hplain hl hkind hx
      · exact List.all_eq_true.1 hall x (NameSet.mem_toList.2 hx)
    · exact hplain hr hr' hx
  | «open» hl' hr' => simp [← hk, PatternKind.isOpen] at hr'
  | _ => cases hk

theorem join_self (repo : Repository) (s : Shape) : join repo s s = some s.kind := by
  rw [join, if_pos (Nat.le_refl _)]
  cases hk : s.kind <;> simp [joinRanked, hk]

theorem joins_of_merge (h : l.merge repo r = some m) :
    (Joins repo l r m.kind ∨ Joins repo r l m.kind) ∧ l.Collects repo r m := by
  obtain ⟨k, hk, rfl⟩ := Option.map_eq_some_iff.1 h
  refine ⟨?_, fun x => ?_⟩
  · unfold join at hk
    split_ifs at hk
    · exact .inl (joins_of_joinRanked hk)
    · exact .inr (joins_of_joinRanked hk)
  · simp only [NameSet.contains_ofList, List.mem_map, List.mem_append, NameSet.mem_toList]

/-- A shape is the join of several: it says what they say, and no more than that the constructor of
a closed shape is known. -/
structure IsJoin (repo : Repository) (parts : List Shape) (m : Shape) : Prop where
  below : ∀ s ∈ parts, s.Below repo m
  origin : (∃ s ∈ parts, m.kind = s.kind) ∨ (∃ s ∈ parts, s.kind = .closedUntyped) ∧
    ((∃ s ∈ parts, s.kind = .openProduct) ∧ m.kind = .closedProduct ∨
      (∃ s ∈ parts, s.kind = .openUnion) ∧ m.kind = .closedUnion)
  labels : ∀ x, m.labels.contains x ↔
    ∃ s ∈ parts, ∃ y, s.labels.contains y ∧ m.kind.memberLabel repo y = x
  fits : (∀ s ∈ parts, s.Fits repo) → m.Fits repo
  plain : (∀ s ∈ parts, s.PlainVector) → m.PlainVector

theorem IsJoin.kind {parts : List Shape} (h : IsJoin repo parts m) :
    (∃ s ∈ parts, m.kind = s.kind) ∨ m.kind = .closedProduct ∨ m.kind = .closedUnion :=
  h.origin.imp_right fun h => h.2.imp And.right And.right

theorem IsJoin.normal {parts : List Shape} (h : IsJoin repo parts m) : m.Normal repo := by
  intro x hx
  obtain ⟨s, -, y, -, rfl⟩ := (h.labels x).1 hx
  exact PatternKind.memberLabel_idem

theorem isJoin_of_merge (h : l.merge repo r = some m) : IsJoin repo [l, r] m := by
  obtain ⟨hjoins, hm⟩ := joins_of_merge h
  have hrank : l.kind.rank ≤ m.kind.rank ∧ r.kind.rank ≤ m.kind.rank := by
    rcases hjoins with h | h
    · exact h.rank_le
    · exact h.rank_le.symm
  have hkeeps : l.Keeps repo m ∧ r.Keeps repo m := by
    rcases hjoins with h | h
    · exact h.keeps hm
    · exact (h.keeps hm.symm).symm
  constructor
  case below =>
    have hl : l.Below repo m := ⟨hrank.1, fun x hx => (hm _).2 ⟨x, .inl hx, rfl⟩, hkeeps.1⟩
    have hr : r.Below repo m := ⟨hrank.2, fun x hx => (hm _).2 ⟨x, .inr hx, rfl⟩, hkeeps.2⟩
    simp [hl, hr]
  case origin =>
    rcases hjoins with h | h
    · rcases h.kind with hk | ⟨hr, hk⟩
      · exact .inl ⟨r, by simp, hk⟩
      · exact .inr ⟨⟨r, by simp, hr⟩, hk.imp (.imp_left fun hl => ⟨l, by simp, hl⟩)
          (.imp_left fun hl => ⟨l, by simp, hl⟩)⟩
    · rcases h.kind with hk | ⟨hl, hk⟩
      · exact .inl ⟨l, by simp, hk⟩
      · exact .inr ⟨⟨l, by simp, hl⟩, hk.imp (.imp_left fun hr => ⟨r, by simp, hr⟩)
          (.imp_left fun hr => ⟨r, by simp, hr⟩)⟩
  case labels =>
    intro x
    rw [hm x]
    simp only [List.mem_cons, List.not_mem_nil, or_false, exists_eq_left, or_and_right, exists_or]
  case fits =>
    intro hfits c hc x hx
    obtain ⟨y, hy, rfl⟩ := (hm x).1 hx
    rw [hc] at hjoins ⊢
    rcases hjoins with h | h
    · exact h.reference (hfits l (by simp)) (hfits r (by simp)) hy
    · exact h.reference (hfits r (by simp)) (hfits l (by simp)) hy.symm
  case plain =>
    intro hplain hk x hx
    obtain ⟨y, hy, rfl⟩ := (hm x).1 hx
    rw [hk] at hjoins ⊢
    rcases hjoins with h | h
    · exact h.memberLabel_eq (hplain l (by simp)) (hplain r (by simp)) hy
    · exact h.memberLabel_eq (hplain r (by simp)) (hplain l (by simp)) hy.symm

theorem IsJoin.merge {parts : List Shape} (h : IsJoin repo parts m) (hs : m.merge repo s = some t) :
    IsJoin repo (parts ++ [s]) t := by
  have ht := isJoin_of_merge hs
  have hm : m.Below repo t := ht.below m (by simp)
  have hold {k : PatternKind} : (∃ p ∈ parts, p.kind = k) → ∃ p ∈ parts ++ [s], p.kind = k :=
    fun ⟨p, hp, hk⟩ => ⟨p, List.mem_append_left _ hp, hk⟩
  -- A kind that no join makes of others is that of a part already.
  have hpart {k : PatternKind} (hproduct : k ≠ .closedProduct) (hunion : k ≠ .closedUnion) :
      (∃ p ∈ [m, s], p.kind = k) → ∃ p ∈ parts ++ [s], p.kind = k := by
    rintro ⟨p, hp, rfl⟩
    simp only [List.mem_cons, List.not_mem_nil, or_false] at hp
    rcases hp with rfl | rfl
    · obtain ⟨q, hq, hk⟩ := h.kind.resolve_right (not_or.2 ⟨hproduct, hunion⟩)
      exact hold ⟨q, hq, hk.symm⟩
    · exact ⟨p, by simp, rfl⟩
  constructor
  case below =>
    intro p hp
    rcases List.mem_append.1 hp with hp | hp
    · exact (h.below p hp).trans hm
    · exact ht.below p (by simp_all)
  case origin =>
    rcases ht.origin with ⟨p, hp, hk⟩ | ⟨huntyped, hopen⟩
    · simp only [List.mem_cons, List.not_mem_nil, or_false] at hp
      rcases hp with rfl | rfl
      · rw [hk]
        rcases h.origin with ⟨q, hq, hk⟩ | ⟨huntyped, hopen⟩
        · exact .inl ⟨q, List.mem_append_left _ hq, hk⟩
        · exact .inr ⟨hold huntyped, hopen.imp (.imp_left hold) (.imp_left hold)⟩
      · exact .inl ⟨p, by simp, hk⟩
    · refine .inr ⟨hpart (by simp) (by simp) huntyped, ?_⟩
      exact hopen.imp (.imp_left (hpart (by simp) (by simp)))
        (.imp_left (hpart (by simp) (by simp)))
  case labels =>
    intro x
    rw [ht.labels x]
    constructor
    · rintro ⟨p, hp, y, hy, rfl⟩
      simp only [List.mem_cons, List.not_mem_nil, or_false] at hp
      rcases hp with rfl | rfl
      · obtain ⟨p, hp, z, hz, rfl⟩ := (h.labels y).1 hy
        exact ⟨p, List.mem_append_left _ hp, z, hz,
          (PatternKind.memberLabel_memberLabel hm.isVector).symm⟩
      · exact ⟨p, by simp, y, hy, rfl⟩
    · rintro ⟨p, hp, y, hy, rfl⟩
      rcases List.mem_append.1 hp with hp | hp
      · exact ⟨m, by simp, _, (h.labels _).2 ⟨p, hp, y, hy, rfl⟩,
          PatternKind.memberLabel_memberLabel hm.isVector⟩
      · exact ⟨p, by simp_all, y, hy, rfl⟩
  case fits =>
    intro hfits
    apply ht.fits
    simp only [List.mem_cons, List.not_mem_nil, or_false, forall_eq_or_imp, forall_eq]
    exact ⟨h.fits fun p hp => hfits p (List.mem_append_left _ hp), hfits s (by simp)⟩
  case plain =>
    intro hplain
    apply ht.plain
    simp only [List.mem_cons, List.not_mem_nil, or_false, forall_eq_or_imp, forall_eq]
    exact ⟨h.plain fun p hp => hplain p (List.mem_append_left _ hp), hplain s (by simp)⟩

/-- Merge shapes one after the other. -/
def mergeAll (repo : Repository) : List Shape → Option Shape
  | [] => none
  | s :: rest => rest.foldlM (merge repo) s

theorem isJoin_append_of_foldlM {parts rest : List Shape} (h : IsJoin repo parts s)
    (hok : rest.foldlM (merge repo) s = some m) : IsJoin repo (parts ++ rest) m := by
  induction rest generalizing s parts with
  | nil =>
    obtain rfl := Option.some.inj hok
    simpa using h
  | cons t rest ih =>
    obtain ⟨u, hu, hok⟩ := Option.bind_eq_some_iff.1 hok
    simpa using ih (h.merge hu) hok

/-- What several shapes are merged to is their join. -/
theorem isJoin_of_mergeAll {parts : List Shape} (hseveral : 2 ≤ parts.length)
    (hok : mergeAll repo parts = some m) : IsJoin repo parts m := by
  match parts with
  | [] | [_] => simp at hseveral
  | l :: r :: rest =>
    obtain ⟨u, hu, hok⟩ := Option.bind_eq_some_iff.1 hok
    exact isJoin_append_of_foldlM (isJoin_of_merge hu) hok

end Joins

end Shape

namespace PatternGraph
variable {g : PatternGraph} {repo : Repository} {start joined : Shape} {first : Nat}
  {rest : List Nat}

/-- Classes are merged as their shapes are. -/
theorem mergeShapes_eq_ok_iff : g.mergeShapes repo start rest = .ok joined ↔
    (rest.map g.shape).foldlM (Shape.merge repo) start = some joined := by
  induction rest generalizing start with
  | nil => simp [mergeShapes]
  | cons root rest ih =>
    rw [mergeShapes, List.map_cons, List.foldlM_cons]
    cases hmerge : start.merge repo (g.shape root) with
    | none => simp
    | some merged => exact ih

/-- What several classes are merged to is the join of their shapes. -/
theorem isJoin_of_mergeShapes {second : Nat}
    (hok : g.mergeShapes repo (g.shape first) (second :: rest) = .ok joined) :
    Shape.IsJoin repo ((first :: second :: rest).map g.shape) joined :=
  Shape.isJoin_of_mergeAll (by simp) (mergeShapes_eq_ok_iff.1 hok)

end PatternGraph

end StructuralTyping
