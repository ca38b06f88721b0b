import StructuralTyping.Proofs.BoundClasses

/-!
# Merging in another order

Shapes are merged in the order of their classes. In each order that succeeds the result is the same,
since it is the join of all shapes. Whether an order succeeds is another matter: a closed shape of
unknown constructor asks for its very labels when it meets an open one, while later, as part of a
closed shape of known constructor, it has room for fewer. If any two shapes have a join, no order
fails, and if none of these exceptions is among the shapes, one order that succeeds is enough.
-/
namespace StructuralTyping

theorem PatternKind.bound?_eq_none_or (kind : PatternKind) :
    kind.bound? = none ∨ ∃ c, kind = .bound c := by
  cases kind with
  | bound c => exact .inr ⟨c, rfl⟩
  | _ => exact .inl rfl

namespace Shape
variable {repo : Repository} {l r s t m n : Shape} {shapes parts parts' rest : List Shape}
  {c : String}

/-- Two shapes have a join. -/
def Joinable (repo : Repository) (s t : Shape) : Prop := (join repo s t).isSome

section Pairs

theorem joinRanked_comm (h : l.kind.rank = r.kind.rank) :
    joinRanked repo l r = joinRanked repo r l := by
  cases hl : l.kind <;> cases hr : r.kind <;> simp only [hl, hr, PatternKind.rank] at h <;>
    simp only [joinRanked, hl, hr, eq_comm (a := l.labels)]
  case bound.bound c d =>
    split_ifs with h₁ h₂ h₃
    · rw [h₁]
    · exact absurd h₁.symm h₂
    · exact absurd h₃.symm h₁
    · rfl
  all_goals omega

theorem join_comm : join repo l r = join repo r l := by
  unfold join
  rcases Nat.lt_trichotomy l.kind.rank r.kind.rank with h | h | h
  · rw [if_pos (Nat.le_of_lt h), if_neg (Nat.not_le_of_lt h)]
  · rw [if_pos (Nat.le_of_eq h), if_pos (Nat.le_of_eq h.symm), joinRanked_comm h]
  · rw [if_neg (Nat.not_le_of_lt h), if_pos (Nat.le_of_lt h)]

theorem merge_comm : l.merge repo r = r.merge repo l := by
  unfold merge
  rw [join_comm]
  congr 1
  funext k
  congr 1
  apply NameSet.eq_of_contains_iff
  intro x
  simp only [NameSet.contains_ofList, List.map_append, List.mem_append, or_comm]

theorem joinable_comm : Joinable repo l r ↔ Joinable repo r l := by
  rw [Joinable, Joinable, join_comm]

theorem joinable_iff_merge : Joinable repo l r ↔ ∃ m, l.merge repo r = some m := by
  rw [← Option.isSome_iff_exists, merge, Option.isSome_map, Joinable]

theorem allMembers_iff : s.allMembers ↔ ∀ x, s.labels.contains x → Text.isMemberLabel x := by
  simp [allMembers, NameSet.mem_toList]

theorem labelsWithin_iff {fields : NameMap String} :
    s.labelsWithin fields ↔ ∀ x, s.labels.contains x → fields.contains x := by
  simp [labelsWithin, NameSet.mem_toList]

theorem isEmpty_iff {labels : NameSet} : labels.isEmpty ↔ ∀ x, ¬labels.contains x := by
  simp [NameMap.isEmpty, NameMap.contains_iff, NameMap.get?_eq_some_iff,
    List.eq_nil_iff_forall_not_mem]

/-- With a code go the same code and what the code can have. -/
theorem joinable_iff_of_bound (ht : t.kind = .bound c) :
    Joinable repo s t ↔ s.kind = .bound c ∨ s.fits repo c := by
  unfold Joinable join
  cases hk : s.kind with
  | bound d =>
    have hfits : ¬s.fits repo c := by
      unfold fits
      cases repo.find c with
      | code code => cases code <;> simp [hk]
      | _ => simp [hk]
    simp [ht, hk, joinRanked, hfits, PatternKind.rank]
  | _ => simp [ht, hk, joinRanked, PatternKind.rank]

theorem joinable_iff_fits (hs : s.kind.bound? = none) (ht : t.kind = .bound c) :
    Joinable repo s t ↔ s.fits repo c := by
  rw [joinable_iff_of_bound ht, or_iff_right]
  rintro hk
  simp [hk, PatternKind.bound?] at hs

/-- Of a code only the name counts. -/
theorem joinable_congr_of_bound (hr : r.kind = .bound c) (hm : m.kind = .bound c) :
    Joinable repo m t ↔ Joinable repo r t := by
  rw [joinable_comm, joinable_comm (l := r), joinable_iff_of_bound hm, joinable_iff_of_bound hr]

/-- Of a vector the labels count only when it meets a code. -/
theorem joinable_congr_of_vector (hr : r.kind = .vector) (hm : m.kind = .vector)
    (ht : t.kind.bound? = none) : Joinable repo m t ↔ Joinable repo r t := by
  unfold Joinable join
  cases hk : t.kind <;> simp_all [PatternKind.rank, joinRanked, PatternKind.bound?]

end Pairs

section Merged

theorem Collects.allMembers_iff (hm : l.Collects repo r m) :
    m.allMembers ↔ l.allMembers ∧ r.allMembers := by
  simp only [Shape.allMembers_iff]
  constructor
  · intro hall
    have hin (y : String) (hy : l.labels.contains y ∨ r.labels.contains y) :
        Text.isMemberLabel y := by
      rw [← PatternKind.isMemberLabel_memberLabel]
      exact hall _ ((hm _).2 ⟨y, hy, rfl⟩)
    exact ⟨fun y hy => hin y (.inl hy), fun y hy => hin y (.inr hy)⟩
  · rintro ⟨hl, hr⟩ x hx
    obtain ⟨y, hy, rfl⟩ := (hm x).1 hx
    rw [PatternKind.isMemberLabel_memberLabel]
    exact hy.elim (hl y) (hr y)

theorem Collects.contains_iff (hm : l.Collects repo r m) (hv : ¬m.kind.isVector repo) (x : String) :
    m.labels.contains x ↔ l.labels.contains x ∨ r.labels.contains x := by
  rw [hm x]
  simp only [PatternKind.memberLabel_of_not_isVector hv, exists_eq_right]

theorem Collects.eq_of_subset (hm : l.Collects repo r m) (hv : ¬m.kind.isVector repo)
    (hkind : m.kind = r.kind) (hsub : l.labels.subset r.labels) : m = r := by
  have hlabels := labels_eq_of_subset hm hv hsub
  cases m
  cases r
  simp_all

theorem Collects.fits_iff_of_vector (hm : l.Collects repo r m)
    (hl : l.kind = .unconstrained ∨ l.kind = .closedUntyped ∨ l.kind = .vector)
    (hr : r.kind = .vector) (hk : m.kind = .vector) :
    m.fits repo c ↔ l.fits repo c ∧ r.fits repo c := by
  have hall := hm.allMembers_iff
  unfold fits
  cases repo.find c with
  | code code => cases code <;> rcases hl with hl | hl | hl <;> simp [hl, hr, hk, hall]
  | _ => simp [hr, hk]

/-- A vector has a join with a shape if both shapes that make it have. -/
theorem joinable_of_vector
    (hl : l.kind = .unconstrained ∨ l.kind = .closedUntyped ∨ l.kind = .vector)
    (hr : r.kind = .vector) (hk : m.kind = .vector) (hm : l.Collects repo r m)
    (hlt : Joinable repo l t) (hrt : Joinable repo r t) : Joinable repo m t := by
  rcases t.kind.bound?_eq_none_or with ht | ⟨c, hc⟩
  · exact (joinable_congr_of_vector hr hk ht).2 hrt
  · have hunbound : l.kind.bound? = none := by
      rcases hl with hl | hl | hl <;> simp [hl, PatternKind.bound?]
    rw [joinable_iff_fits hunbound hc] at hlt
    rw [joinable_iff_fits (by rw [hr]; rfl) hc] at hrt
    rw [joinable_iff_fits (by rw [hk]; rfl) hc]
    exact (hm.fits_iff_of_vector hl hr hk).2 ⟨hlt, hrt⟩

theorem fits_of_closed (hl : l.kind = .openProduct ∧ m.kind = .closedProduct ∨
      l.kind = .openUnion ∧ m.kind = .closedUnion) (hr : r.kind = .closedUntyped)
    (hm : m.labels = r.labels) (hlc : l.fits repo c) (hrc : r.fits repo c) : m.fits repo c := by
  unfold fits at hlc hrc ⊢
  cases hc : repo.find c with
  | code code =>
    cases code <;> rcases hl with ⟨hl, hk⟩ | ⟨hl, hk⟩ <;>
      simp_all [labelsEqual, labelsWithin_iff, NameMap.contains_map]
  | _ => rcases hl with ⟨hl, hk⟩ | ⟨hl, hk⟩ <;> simp_all

/-- The constructor of a closed shape is known from an open one that has the same labels. -/
theorem joinable_of_closed (hl : l.kind = .openProduct ∧ m.kind = .closedProduct ∨
      l.kind = .openUnion ∧ m.kind = .closedUnion) (hr : r.kind = .closedUntyped)
    (hlabels : l.labels = r.labels) (hm : m.labels = r.labels) (hlt : Joinable repo l t)
    (hrt : Joinable repo r t) : Joinable repo m t := by
  rcases t.kind.bound?_eq_none_or with hb | ⟨c, hc⟩
  · unfold Joinable join at hlt hrt ⊢
    rw [hr] at hrt
    rcases hl with ⟨hl, hk⟩ | ⟨hl, hk⟩ <;> rw [hl] at hlt <;> rw [hk] <;> cases ht : t.kind <;>
      simp_all [PatternKind.rank, joinRanked, PatternKind.bound?, NameSet.subset_iff]
  · have hunbound : l.kind.bound? = none ∧ m.kind.bound? = none := by
      rcases hl with ⟨hl, hk⟩ | ⟨hl, hk⟩ <;> simp [hl, hk, PatternKind.bound?]
    rw [joinable_iff_fits hunbound.1 hc] at hlt
    rw [joinable_iff_fits (by rw [hr]; rfl) hc] at hrt
    rw [joinable_iff_fits hunbound.2 hc]
    exact fits_of_closed hl hr hm hlt hrt

section Open
variable (hl : l.kind = .unconstrained ∨ l.kind = m.kind) (hr : r.kind = m.kind)
  (hopen : m.kind.isOpen)
  (hm : ∀ x, m.labels.contains x ↔ l.labels.contains x ∨ r.labels.contains x)
include hl hr hopen hm

theorem fits_iff_of_open : m.fits repo c ↔ l.fits repo c ∧ r.fits repo c := by
  unfold fits
  rw [hr]
  cases repo.find c with
  | undefined => simp
  | builtin b =>
    cases hk : m.kind <;> rcases hl with hl | hl <;>
      simp_all [isEmpty_iff, PatternKind.isOpen, forall_and]
  | code code =>
    cases code <;> cases hk : m.kind <;> rcases hl with hl | hl <;>
      simp_all [labelsWithin_iff, allMembers_iff, PatternKind.isOpen, or_imp, forall_and]

theorem joinable_iff_of_open (ht : t.kind ≠ .closedUntyped) :
    Joinable repo m t ↔ Joinable repo l t ∧ Joinable repo r t := by
  have hunbound : m.kind.bound? = none := by
    cases hk : m.kind <;> simp_all [PatternKind.isOpen, PatternKind.bound?]
  rcases t.kind.bound?_eq_none_or with hb | ⟨c, hc⟩
  · unfold Joinable join
    rw [hr]
    cases htk : t.kind <;> cases hk : m.kind <;> rcases hl with hl | hl <;>
      simp_all [PatternKind.rank, joinRanked, PatternKind.isOpen, PatternKind.bound?,
        NameSet.subset_iff, allMembers_iff, or_imp, forall_and]
  · have hunbound' : l.kind.bound? = none := by
      rcases hl with hl | hl
      · simp [hl, PatternKind.bound?]
      · exact hl ▸ hunbound
    rw [joinable_iff_fits hunbound hc, joinable_iff_fits hunbound' hc,
      joinable_iff_fits (hr ▸ hunbound) hc]
    exact fits_iff_of_open hl hr hopen hm

/-- Open shapes collect labels, each of which is in place already. -/
theorem joinable_of_open (hlt : Joinable repo l t) (hrt : Joinable repo r t) :
    Joinable repo m t := by
  by_cases ht : t.kind = .closedUntyped
  · have hequal (hsub : ∀ x, l.labels.contains x → t.labels.contains x)
        (heq : r.labels = t.labels) : m.labels = t.labels := by
      refine NameSet.eq_of_contains_iff fun x => (hm x).trans ?_
      rw [heq]
      exact or_iff_right_of_imp (hsub x)
    unfold Joinable join at hlt hrt ⊢
    rw [hr] at hrt
    cases hk : m.kind <;> rcases hl with hl | hl <;>
      simp_all [PatternKind.rank, joinRanked, PatternKind.isOpen, NameSet.subset_iff, or_imp]
  · exact (joinable_iff_of_open hl hr hopen hm ht).2 ⟨hlt, hrt⟩

end Open

theorem Joins.joinable (h : Joins repo l r m.kind) (hm : l.Collects repo r m)
    (hlr : Joinable repo l r) (hlt : Joinable repo l t) (hrt : Joinable repo r t) :
    Joinable repo m t := by
  generalize hk : m.kind = k at h
  have hclosed (hv : ¬m.kind.isVector repo) (hr : m.kind = r.kind)
      (hlabels : l.labels.subset r.labels) : Joinable repo m t :=
    hm.eq_of_subset hv hr hlabels ▸ hrt
  -- An open and a closed shape of unknown constructor have a join only if their labels are equal.
  have huntyped (hl : l.kind = .openProduct ∧ m.kind = .closedProduct ∨
      l.kind = .openUnion ∧ m.kind = .closedUnion) (hr : r.kind = .closedUntyped)
      (hv : ¬m.kind.isVector repo) (hlabels : l.labels.subset r.labels) : Joinable repo m t := by
    refine joinable_of_closed hl hr ?_ (labels_eq_of_subset hm hv hlabels) hlt hrt
    rcases hl with ⟨hl, -⟩ | ⟨hl, -⟩ <;>
      simpa [Joinable, join, joinRanked, hl, hr, PatternKind.rank] using hlr
  cases h with
  | code hl hr => exact (joinable_congr_of_bound hr hk).2 hrt
  | fits hl hr hfits => exact (joinable_congr_of_bound hr hk).2 hrt
  | members hl hr => exact joinable_of_vector hl hr hk hm hlt hrt
  | «open» hl hr =>
    have hv : ¬m.kind.isVector repo := by
      rw [hk]
      cases hr' : r.kind <;> simp_all [PatternKind.isOpen, PatternKind.isVector]
    exact joinable_of_open (hk ▸ hl) hk.symm (hk ▸ hr) (hm.contains_iff hv) hlt hrt
  | untyped hl hr hlabels =>
    exact hclosed (by simp [hk, PatternKind.isVector]) (hk.trans hr.symm) hlabels
  | product hl hr hlabels =>
    have hv : ¬m.kind.isVector repo := by simp [hk, PatternKind.isVector]
    rcases hr with hr | ⟨hl, hr⟩
    · exact hclosed hv (hk.trans hr.symm) hlabels
    · exact huntyped (.inl ⟨hl, hk⟩) hr hv hlabels
  | union hl hr hlabels =>
    have hv : ¬m.kind.isVector repo := by simp [hk, PatternKind.isVector]
    rcases hr with hr | ⟨hl, hr⟩
    · exact hclosed hv (hk.trans hr.symm) hlabels
    · exact huntyped (.inr ⟨hl, hk⟩) hr hv hlabels

/-- If any two of three shapes have a join, so have two of them merged and the third. -/
theorem Joinable.merged (hm : l.merge repo r = some m) (hlt : Joinable repo l t)
    (hrt : Joinable repo r t) : Joinable repo m t := by
  have hlr : Joinable repo l r := joinable_iff_merge.2 ⟨m, hm⟩
  obtain ⟨h | h, hcollects⟩ := joins_of_merge hm
  · exact h.joinable hcollects hlr hlt hrt
  · exact h.joinable hcollects.symm (joinable_comm.1 hlr) hrt hlt

end Merged

section Split

/-- No shape is closed without its constructor being known, and no closed union meets a code. -/
def Tolerant (shapes : List Shape) : Prop :=
  ∀ s ∈ shapes, s.kind ≠ .closedUntyped ∧
    (s.kind = .closedUnion → ∀ t ∈ shapes, t.kind.bound? = none)

theorem Tolerant.of_kinds (h : Tolerant shapes)
    (hkinds : ∀ s ∈ parts, ∃ t ∈ shapes, s.kind = t.kind) : Tolerant parts := by
  intro s hs
  obtain ⟨t, ht, hk⟩ := hkinds s hs
  rw [hk]
  refine ⟨(h t ht).1, fun hunion x hx => ?_⟩
  obtain ⟨y, hy, hk⟩ := hkinds x hx
  rw [hk]
  exact (h t ht).2 hunion y hy

theorem Tolerant.of_subset (h : Tolerant shapes) (hsub : ∀ s ∈ parts, s ∈ shapes) :
    Tolerant parts := h.of_kinds fun s hs => ⟨s, hsub s hs, rfl⟩

/-- Two shapes of one code have a join. -/
theorem joinable_of_fits (hs : s.kind ≠ .closedUntyped ∧ s.kind ≠ .closedUnion)
    (ht : t.kind ≠ .closedUntyped ∧ t.kind ≠ .closedUnion) (hsc : s.fits repo c)
    (htc : t.fits repo c) : Joinable repo s t := by
  unfold fits at hsc htc
  cases hc : repo.find c with
  | code code =>
    cases code <;> cases hk : s.kind <;> cases hk' : t.kind <;>
      simp_all [Joinable, join, joinRanked, PatternKind.rank, NameSet.subset_iff,
        labelsWithin_iff, labelsEqual, NameMap.contains_map]
  | builtin b =>
    cases hk : s.kind <;> cases hk' : t.kind <;>
      simp_all [Joinable, join, joinRanked, PatternKind.rank]
  | undefined => simp [hc] at hsc

theorem split_of_vector (hl : l.kind = .unconstrained ∨ l.kind = .vector)
    (hmembers : l.kind = .vector ∨ l.allMembers) (hr : r.kind = .vector) (hk : m.kind = .vector)
    (hm : l.Collects repo r m) (ht : t.kind ≠ .closedUntyped) (hmt : Joinable repo m t) :
    Joinable repo l t ∧ Joinable repo r t := by
  rcases t.kind.bound?_eq_none_or with hb | ⟨c, hc⟩
  · have hrt := (joinable_congr_of_vector hr hk hb).1 hmt
    refine ⟨?_, hrt⟩
    rcases hl with hl | hl
    · unfold Joinable join at hrt ⊢
      cases htk : t.kind <;> simp_all [PatternKind.rank, joinRanked, PatternKind.bound?]
    · exact (joinable_congr_of_vector hr hl hb).2 hrt
  · have hunbound : l.kind.bound? = none := by
      rcases hl with hl | hl <;> simp [hl, PatternKind.bound?]
    rw [joinable_iff_fits (by rw [hk]; rfl) hc] at hmt
    rw [joinable_iff_fits hunbound hc, joinable_iff_fits (by rw [hr]; rfl) hc]
    exact (hm.fits_iff_of_vector (hl.imp_right .inr) hr hk).1 hmt

theorem fits_of_closedProduct (hl : l.kind = .unconstrained ∨ l.kind = .openProduct ∨
      l.kind = .closedProduct ∧ l.labels = r.labels) (hr : r.kind = .closedProduct)
    (hlabels : l.labels.subset r.labels) (hrc : r.fits repo c) : l.fits repo c := by
  rw [NameSet.subset_iff] at hlabels
  unfold fits at hrc ⊢
  cases hc : repo.find c with
  | code code =>
    cases code <;> rcases hl with hl | hl | ⟨hl, hl'⟩ <;>
      simp_all [labelsEqual, labelsWithin_iff, NameMap.contains_map]
  | _ => simp_all

theorem split_of_closed (hl : l.kind = .unconstrained ∨ l.kind = r.kind ∧ l.labels = r.labels ∨
      l.kind = .openProduct ∧ r.kind = .closedProduct ∨ l.kind = .openUnion ∧ r.kind = .closedUnion)
    (hr : r.kind = .closedProduct ∨ r.kind = .closedUnion ∧ t.kind.bound? = none)
    (hlabels : l.labels.subset r.labels) (ht : t.kind ≠ .closedUntyped)
    (hrt : Joinable repo r t) : Joinable repo l t := by
  rcases t.kind.bound?_eq_none_or with hb | ⟨c, hc⟩
  · have hsub := NameSet.subset_iff.1 hlabels
    unfold Joinable join at hrt ⊢
    rcases hr with hr | ⟨hr, -⟩ <;> rw [hr] at hrt <;> cases htk : t.kind <;>
      rcases hl with hl | ⟨hl, hl'⟩ | ⟨hl, hl'⟩ | ⟨hl, hl'⟩ <;>
      simp_all [PatternKind.rank, joinRanked, PatternKind.bound?, NameSet.subset_iff]
  · have hr := hr.resolve_right fun h => by simp [hc, PatternKind.bound?] at h
    rw [joinable_iff_fits (by rw [hr]; rfl) hc] at hrt
    have hl : l.kind = .unconstrained ∨ l.kind = .openProduct ∨
        l.kind = .closedProduct ∧ l.labels = r.labels := by
      simpa [hr, or_comm] using hl
    rw [joinable_iff_fits (by rcases hl with hl | hl | ⟨hl, -⟩ <;> rw [hl] <;> rfl) hc]
    exact fits_of_closedProduct hl hr hlabels hrt

theorem Joins.split (h : Joins repo l r m.kind) (hm : l.Collects repo r m)
    (htolerant : Tolerant [l, r, t]) (hmt : Joinable repo m t) :
    Joinable repo l t ∧ Joinable repo r t := by
  simp only [Tolerant, List.mem_cons, List.not_mem_nil, or_false, forall_eq_or_imp,
    forall_eq] at htolerant
  obtain ⟨⟨hlu, hlb⟩, ⟨hru, hrb⟩, htu, htb⟩ := htolerant
  generalize hk : m.kind = k at h
  -- Into a closed shape nothing comes that it does not have, so that it is the merged one.
  have hclosed (hkind : m.kind = r.kind) (hlabels : l.labels.subset r.labels)
      (hr : r.kind = .closedProduct ∨ r.kind = .closedUnion ∧ t.kind.bound? = none)
      (hl : l.kind = .unconstrained ∨ l.kind = r.kind ∧ l.labels = r.labels ∨
        l.kind = .openProduct ∧ r.kind = .closedProduct ∨
        l.kind = .openUnion ∧ r.kind = .closedUnion) :
      Joinable repo l t ∧ Joinable repo r t := by
    have hv : ¬m.kind.isVector repo := by
      rcases hr with hr | ⟨hr, -⟩ <;> simp [hkind, hr, PatternKind.isVector]
    have hrt : Joinable repo r t := hm.eq_of_subset hv hkind hlabels ▸ hmt
    exact ⟨split_of_closed hl hr hlabels htu hrt, hrt⟩
  cases h with
  | code hl hr =>
    exact ⟨(joinable_congr_of_bound hl hk).1 hmt, (joinable_congr_of_bound hr hk).1 hmt⟩
  | @fits c hl hr hfits =>
    have hrt := (joinable_congr_of_bound hr hk).1 hmt
    refine ⟨?_, hrt⟩
    rcases (joinable_iff_of_bound hr).1 (joinable_comm.1 hrt) with ht | htc
    · exact (joinable_iff_fits hl ht).2 hfits
    · have hcode : r.kind.bound? ≠ none := by simp [hr, PatternKind.bound?]
      exact joinable_of_fits ⟨hlu, fun hl => hcode (hlb hl).2.1⟩
        ⟨htu, fun ht => hcode (htb ht).2.1⟩ hfits htc
  | members hl hr hmembers =>
    exact split_of_vector (hl.imp_right fun h => h.resolve_left hlu) hmembers hr hk hm htu hmt
  | «open» hl hr =>
    have hv : ¬m.kind.isVector repo := by
      rw [hk]
      cases hr' : r.kind <;> simp_all [PatternKind.isOpen, PatternKind.isVector]
    exact (joinable_iff_of_open (hk ▸ hl) hk.symm (hk ▸ hr) (hm.contains_iff hv) htu).1 hmt
  | untyped hl hr => exact absurd hr hru
  | product hl hr hlabels hequal =>
    have hr := hr.resolve_right fun h => hru h.2
    refine hclosed (hk.trans hr.symm) hlabels (.inl hr) ?_
    simp only [List.mem_cons, List.not_mem_nil, or_false] at hl
    rcases hl with hl | hl | hl | hl
    · exact .inl hl
    · exact .inr (.inr (.inl ⟨hl, hr⟩))
    · exact absurd hl hlu
    · exact .inr (.inl ⟨hl.trans hr.symm, hequal (.inr hl)⟩)
  | union hl hr hlabels hequal =>
    have hr := hr.resolve_right fun h => hru h.2
    refine hclosed (hk.trans hr.symm) hlabels (.inr ⟨hr, (hrb hr).2.2⟩) ?_
    simp only [List.mem_cons, List.not_mem_nil, or_false] at hl
    rcases hl with hl | hl | hl | hl
    · exact .inl hl
    · exact .inr (.inr (.inr ⟨hl, hr⟩))
    · exact absurd hl hlu
    · exact .inr (.inl ⟨hl.trans hr.symm, hequal (.inr hl)⟩)

/-- What has a join with two shapes merged has one with each of them, if they are tolerant. -/
theorem Joinable.split (hm : l.merge repo r = some m) (htolerant : Tolerant [l, r, t])
    (hmt : Joinable repo m t) : Joinable repo l t ∧ Joinable repo r t := by
  obtain ⟨h | h, hcollects⟩ := joins_of_merge hm
  · exact h.split hcollects htolerant hmt
  · exact (h.split hcollects.symm (htolerant.of_subset (by simp)) hmt).symm

end Split

section Orders

theorem IsJoin.rank_le (h : IsJoin repo parts m) (h' : IsJoin repo parts' n)
    (hsub : ∀ s ∈ parts, s ∈ parts') : m.kind.rank ≤ n.kind.rank := by
  rcases h.origin with ⟨s, hs, hk⟩ | ⟨⟨s, hs, huntyped⟩, hconstructor⟩
  · exact hk ▸ (h'.below s (hsub s hs)).rank
  -- What is closed and has a constructor is a closed shape of this constructor, or a code.
  · have hkeeps := (h'.below s (hsub s hs)).keeps
    unfold Keeps at hkeeps
    simp only [huntyped, List.mem_cons, List.not_mem_nil, or_false] at hkeeps
    rcases hconstructor with ⟨⟨t, ht, hopen⟩, hk⟩ | ⟨⟨t, ht, hopen⟩, hk⟩
    · have hproduct : n.kind.isProduct repo :=
        (h'.below t (hsub t ht)).keeps.isProduct (by simp [hopen, PatternKind.isProduct])
      have hv := PatternKind.not_isVector_of_isProduct hproduct
      rw [hk]
      cases hn : n.kind <;> simp_all [PatternKind.isProduct, PatternKind.rank]
    · have hunion : n.kind.isUnion repo :=
        (h'.below t (hsub t ht)).keeps.isUnion (by simp [hopen, PatternKind.isUnion])
      have hv := PatternKind.not_isVector_of_isUnion hunion
      rw [hk]
      cases hn : n.kind <;> simp_all [PatternKind.isUnion, PatternKind.rank]

theorem IsJoin.kind_of_bound (h : IsJoin repo parts m) (h' : IsJoin repo parts' n)
    (hsub : ∀ s ∈ parts, s ∈ parts') (hm : m.kind = .bound c) : n.kind = .bound c := by
  have hpart : ∃ s ∈ parts, m.kind = s.kind := h.kind.resolve_right (by simp [hm])
  obtain ⟨s, hs, hk⟩ := hpart
  have hkeeps := (h'.below s (hsub s hs)).keeps
  simpa [Keeps, ← hk, hm] using hkeeps

/-- Shapes have one join, in whatever order they are given. -/
theorem IsJoin.unique (h : IsJoin repo parts m) (h' : IsJoin repo parts' n)
    (hsame : ∀ s, s ∈ parts ↔ s ∈ parts') : m = n := by
  have hsub : ∀ s ∈ parts, s ∈ parts' := fun s => (hsame s).1
  have hsub' : ∀ s ∈ parts', s ∈ parts := fun s => (hsame s).2
  have hrank := Nat.le_antisymm (h.rank_le h' hsub) (h'.rank_le h hsub')
  have hbound (c : String) : m.kind = .bound c → n.kind = .bound c := h.kind_of_bound h' hsub
  have hkind : m.kind = n.kind := by
    cases hm : m.kind <;> cases hn : n.kind <;> simp_all [PatternKind.rank]
  have hlabels : m.labels = n.labels := by
    apply NameSet.eq_of_contains_iff
    intro x
    rw [h.labels, h'.labels, hkind]
    simp only [hsame]
  cases m
  cases n
  simp_all

theorem mergeAll_unique (hperm : parts.Perm parts') (h : mergeAll repo parts = some m)
    (h' : mergeAll repo parts' = some n) : m = n := by
  match parts with
  | [] => cases h
  | [s] =>
    obtain rfl := List.perm_singleton.1 hperm.symm
    exact Option.some.inj (h.symm.trans h')
  | l :: r :: rest =>
    have hlength := hperm.length_eq
    exact (isJoin_of_mergeAll (by simp) h).unique
      (isJoin_of_mergeAll (by simp [← hlength]) h') fun s => hperm.mem_iff

/-- Shapes of which any two have a join are merged one after the other. -/
theorem exists_foldlM_merge (h : (s :: rest).Pairwise (Joinable repo)) :
    ∃ m, rest.foldlM (merge repo) s = some m := by
  induction rest generalizing s with
  | nil => exact ⟨s, rfl⟩
  | cons t rest ih =>
    rw [List.pairwise_cons, List.forall_mem_cons, List.pairwise_cons] at h
    obtain ⟨⟨hst, hs⟩, ht, hrest⟩ := h
    obtain ⟨u, hu⟩ := joinable_iff_merge.1 hst
    obtain ⟨m, hm⟩ := ih (List.pairwise_cons.2
      ⟨fun x hx => (hs x hx).merged hu (ht x hx), hrest⟩)
    exact ⟨m, by rw [List.foldlM_cons, hu]; exact hm⟩

theorem pairwise_of_foldlM_merge (htolerant : Tolerant (s :: rest))
    (h : rest.foldlM (merge repo) s = some m) : (s :: rest).Pairwise (Joinable repo) := by
  induction rest generalizing s with
  | nil => exact List.pairwise_singleton _ _
  | cons t rest ih =>
    obtain ⟨u, hu, h⟩ := Option.bind_eq_some_iff.1 h
    have hkind : ∃ p ∈ [s, t] ++ rest, u.kind = p.kind := by
      rcases (isJoin_of_merge hu).origin with ⟨p, hp, hk⟩ | ⟨⟨p, hp, hk⟩, -⟩
      · exact ⟨p, List.mem_append_left rest hp, hk⟩
      · exact absurd hk (htolerant p (List.mem_append_left rest hp)).1
    have hmerged : Tolerant (u :: rest) := htolerant.of_kinds (List.forall_mem_cons.2
      ⟨hkind, fun p hp => ⟨p, by simp [hp], rfl⟩⟩)
    have hpairs := List.pairwise_cons.1 (ih hmerged h)
    have hsplit (x : Shape) (hx : x ∈ rest) : Joinable repo s x ∧ Joinable repo t x :=
      (hpairs.1 x hx).split hu (htolerant.of_subset (by simp [hx]))
    refine List.pairwise_cons.2 ⟨List.forall_mem_cons.2 ⟨joinable_iff_merge.2 ⟨u, hu⟩, ?_⟩, ?_⟩
    · exact fun x hx => (hsplit x hx).1
    · exact List.pairwise_cons.2 ⟨fun x hx => (hsplit x hx).2, hpairs.2⟩

/-- Two shapes that come first in some order are merged first. -/
theorem joinable_of_mergeAll (h : (mergeAll repo (l :: r :: rest)).isSome) : Joinable repo l r := by
  obtain ⟨m, hm⟩ := Option.isSome_iff_exists.1 h
  obtain ⟨u, hu, -⟩ := Option.bind_eq_some_iff.1 hm
  exact joinable_iff_merge.2 ⟨u, hu⟩

theorem pairwise_of_mergeAll
    (h : ∀ order : List Shape, order.Perm shapes → (mergeAll repo order).isSome) :
    shapes.Pairwise (Joinable repo) := by
  have hfirst (l r : Shape) (rest : List Shape) (hperm : (l :: r :: rest).Perm shapes) :
      Joinable repo l r := joinable_of_mergeAll (h _ hperm)
  clear h
  induction shapes with
  | nil => exact .nil
  | cons s shapes ih =>
    refine List.pairwise_cons.2 ⟨fun t ht => ?_, ih fun l r rest hperm => ?_⟩
    · exact hfirst s t (shapes.erase t) ((List.perm_cons_erase ht).symm.cons s)
    · refine hfirst l r (rest ++ [s]) ?_
      exact (hperm.append_right [s]).trans (List.perm_append_singleton s shapes)

/-- The orders of some shapes that succeed have one result. No order fails exactly if any two of
the shapes have a join; that one order succeeds says as much if the shapes are tolerant. -/
theorem mergeAll_orders (repo : Repository) (shapes : List Shape) :
    (∀ order order' m n, order.Perm shapes → order'.Perm shapes →
      mergeAll repo order = some m → mergeAll repo order' = some n → m = n) ∧
    ((∀ order : List Shape, order.Perm shapes → (mergeAll repo order).isSome) ↔
      shapes ≠ [] ∧ shapes.Pairwise (Joinable repo)) ∧
    (Tolerant shapes → (∃ order, order.Perm shapes ∧ (mergeAll repo order).isSome) →
      ∀ order : List Shape, order.Perm shapes → (mergeAll repo order).isSome) := by
  have hsucceeds (hpairs : shapes.Pairwise (Joinable repo)) (order : List Shape)
      (hperm : order.Perm shapes) (hne : shapes ≠ []) : (mergeAll repo order).isSome := by
    match order with
    | [] => exact absurd (List.nil_perm.1 hperm) hne
    | s :: rest =>
      have hpairs' := (hperm.pairwise_iff joinable_comm.1).2 hpairs
      obtain ⟨m, hm⟩ := exists_foldlM_merge hpairs'
      exact Option.isSome_iff_exists.2 ⟨m, hm⟩
  refine ⟨fun order order' m n hperm hperm' => mergeAll_unique (hperm.trans hperm'.symm),
    ⟨fun h => ⟨?_, pairwise_of_mergeAll h⟩, fun ⟨hne, hpairs⟩ order hperm => ?_⟩, ?_⟩
  · rintro rfl
    exact absurd (h [] .nil) (by simp [mergeAll])
  · exact hsucceeds hpairs order hperm hne
  · rintro htolerant ⟨order, hperm, h⟩ order' hperm'
    match order with
    | [] => exact absurd h (by simp [mergeAll])
    | s :: rest =>
      obtain ⟨m, hm⟩ := Option.isSome_iff_exists.1 h
      have hpairs := pairwise_of_foldlM_merge (htolerant.of_subset fun t => hperm.mem_iff.1) hm
      refine hsucceeds ((hperm.pairwise_iff joinable_comm.1).1 hpairs) order' hperm' ?_
      rintro rfl
      exact absurd hperm.length_eq (by simp)

/-- A closed union goes with a code of more alternatives, and the code with what names another of
them: then it matters which of the two is met first. -/
theorem mergeAll_closedUnion_bound {fields : NameMap String} {x y : String}
    (hc : repo.find c = .code (.union fields)) (hx : fields.contains x) (hy : fields.contains y)
    (hne : y ≠ x) :
    (mergeAll repo [⟨.closedUnion, .ofList [x]⟩, ⟨.bound c, ∅⟩, ⟨.openUnion, .ofList [y]⟩]).isSome ∧
    mergeAll repo [⟨.closedUnion, .ofList [x]⟩, ⟨.openUnion, .ofList [y]⟩, ⟨.bound c, ∅⟩] =
      none := by
  have hclosed : fits repo ⟨.closedUnion, .ofList [x]⟩ c := by
    simp only [fits, hc, labelsWithin_iff, NameSet.contains_ofList, List.mem_singleton]
    rintro _ rfl
    exact hx
  have hopen : fits repo ⟨.openUnion, .ofList [y]⟩ c := by
    simp only [fits, hc, labelsWithin_iff, NameSet.contains_ofList, List.mem_singleton]
    rintro _ rfl
    exact hy
  have hapart : ¬(NameSet.ofList [y]).subset (.ofList [x]) := fun hsub => by
    simpa [NameSet.contains_ofList, hne] using NameSet.subset_iff.1 hsub y
  constructor
  · simp [mergeAll, merge, join, joinRanked, PatternKind.rank, hclosed, hopen]
  · simp [mergeAll, merge, join, joinRanked, PatternKind.rank, hapart]

/-- Products with a head. -/
def headed : Shape := ⟨.openProduct, .ofList ["head"]⟩

/-- Shapes with a head, a tail and nothing else. -/
def headAndTail : Shape := ⟨.closedUntyped, .ofList ["head", "tail"]⟩

/-- Products with a head, a tail and nothing else. -/
def cell : Shape := ⟨.closedProduct, .ofList ["head", "tail"]⟩

/-- Products with a tail go together with streams in any order. -/
theorem mergeAll_orders_stream :
    Tolerant [headed, ⟨.unconstrained, .ofList ["tail"]⟩, ⟨.bound "rArHSMQzZK", ∅⟩] ∧
    ∀ order : List Shape,
      order.Perm [headed, ⟨.unconstrained, .ofList ["tail"]⟩, ⟨.bound "rArHSMQzZK", ∅⟩] →
      (mergeAll .ofStream order).isSome := by
  have htolerant : Tolerant
      [headed, ⟨.unconstrained, .ofList ["tail"]⟩, ⟨.bound "rArHSMQzZK", ∅⟩] := by
    unfold Tolerant
    decide
  exact ⟨htolerant, (mergeAll_orders .ofStream _).2.2 htolerant ⟨_, .refl _, by decide +kernel⟩⟩

/-- A head alone is too little for a shape that has a tail as well, unless it is known to be a
product before. -/
theorem mergeAll_depends_on_order : Repository.initial.Reachable ∧
    [headed, headAndTail, cell].Perm [cell, headAndTail, headed] ∧
    mergeAll .initial [headed, headAndTail, cell] = none ∧
    mergeAll .initial [cell, headAndTail, headed] = some cell :=
  ⟨⟨[], by simp, rfl⟩, by decide, by decide +kernel, by decide +kernel⟩

end Orders

end Shape

end StructuralTyping
