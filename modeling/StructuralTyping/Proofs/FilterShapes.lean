import StructuralTyping.Proofs.TypedClasses

/-!
# Shapes of filters that match

If a filter matches a code, the patterns of its parts suit the codes that the parts match: their
labels are labels of the code, all of them if the pattern is closed, and the constructor, if it is
known, is that of the code. Shapes that suit one code go together, with one exception: a closed
pattern of any kind does not admit labels to be added, so an open product or union has to have all
labels already if it meets one. Codes at which this is taken care of are called strict.
-/
namespace StructuralTyping

variable {repo : Repository} {strict untyped : String → Prop} {s t m : Shape} {c d x : String}

/-- A code has one constructor. -/
theorem PatternKind.not_isUnion_of_isProduct (h : (bound c).isProduct repo) :
    ¬(bound c).isUnion repo := by
  unfold isProduct at h
  unfold isUnion
  rcases hc : repo.find c with (_ | _ | _) | _ | _ <;> simp_all

/-- A pattern of the kind suits a code, given whether it has all labels of the code. -/
def PatternKind.Suits (repo : Repository) (strict untyped : String → Prop) (c : String)
    (all : Prop) : PatternKind → Prop
  | unconstrained => True
  | openProduct => (bound c).isProduct repo ∧ (strict c → untyped c → all)
  | openUnion => (bound c).isUnion repo ∧ (strict c → untyped c → all)
  | closedUntyped => ((bound c).isProduct repo ∨ (bound c).isUnion repo) ∧ all ∧
      (strict c → untyped c)
  | vector => (bound c).isVector repo
  | closedProduct => (bound c).isProduct repo ∧ all
  | closedUnion => (bound c).isUnion repo ∧ all
  | bound d => d = c ∧ all

theorem PatternKind.Suits.mono {kind : PatternKind} {all all' : Prop}
    (h : kind.Suits repo strict untyped c all) (hle : all → all') :
    kind.Suits repo strict untyped c all' := by
  cases kind with
  | unconstrained => trivial
  | openProduct => exact ⟨h.1, fun hs hu => hle (h.2 hs hu)⟩
  | openUnion => exact ⟨h.1, fun hs hu => hle (h.2 hs hu)⟩
  | closedUntyped => exact ⟨h.1, hle h.2.1, h.2.2⟩
  | vector => exact h
  | closedProduct => exact ⟨h.1, hle h.2⟩
  | closedUnion => exact ⟨h.1, hle h.2⟩
  | bound d => exact ⟨h.1, hle h.2⟩

theorem PatternKind.Suits.memberLabel_eq {kind : PatternKind} {all : Prop}
    (h : kind.Suits repo strict untyped c all) (hx : (repo.reference? c x).isSome) :
    kind.memberLabel repo x = x := by
  by_cases hv : kind.isVector repo
  · have hc : (bound c).isVector repo := by
      cases kind with
      | vector => exact h
      | bound d => exact h.1 ▸ hv
      | _ => cases hv
    have hmember := Shape.memberLabel_of_reference hx
    rw [memberLabel, hc] at hmember
    rwa [memberLabel, hv]
  · exact memberLabel_of_not_isVector hv

namespace Shape

/-- A pattern suits a code. -/
structure Suits (repo : Repository) (strict untyped : String → Prop) (s : Shape) (c : String) :
    Prop where
  labels : ∀ x, s.labels.contains x → (repo.reference? c x).isSome
  kind : s.kind.Suits repo strict untyped c
    (∀ x, (repo.reference? c x).isSome → s.labels.contains x)

section Suiting
variable (hs : s.Suits repo strict untyped c) (ht : t.Suits repo strict untyped c)
include hs

/-- The labels of a pattern that suits a vector are labels of members. -/
theorem Suits.allMembers (hv : (PatternKind.bound c).isVector repo) : s.allMembers := by
  obtain ⟨e, hc⟩ := PatternKind.isVector_bound_iff.1 hv
  refine List.all_eq_true.2 fun x hx => ?_
  have hin := hs.labels x (NameSet.mem_toList.1 hx)
  simp only [Repository.reference?, hc] at hin
  split_ifs at hin with hmember
  · exact hmember ▸ PatternKind.isMemberLabel_vectorMember
  · cases hin

/-- A code can have any shape that suits it. -/
theorem Suits.fits (hunbound : s.kind.bound? = none) (hc : repo.find c ≠ .undefined) :
    s.fits repo c := by
  have hlabels (x : String) (hx : x ∈ s.labels.toList) : (repo.reference? c x).isSome :=
    hs.labels x (NameSet.mem_toList.1 hx)
  have hwithin {fields : NameMap String}
      (href : ∀ x, (repo.reference? c x).isSome = fields.contains x) : s.labelsWithin fields :=
    List.all_eq_true.2 fun x hx => href x ▸ hlabels x hx
  have hequal {fields : NameMap String}
      (href : ∀ x, (repo.reference? c x).isSome = fields.contains x)
      (hall : ∀ x, (repo.reference? c x).isSome → s.labels.contains x) : s.labelsEqual fields := by
    refine decide_eq_true (NameSet.eq_of_contains_iff fun x => ?_)
    rw [NameMap.contains_map, ← href]
    exact ⟨hs.labels x, hall x⟩
  have hkind := hs.kind
  unfold Shape.fits
  rcases hfind : repo.find c with (fields | fields | e) | b | _
  · have href (x : String) : (repo.reference? c x).isSome = fields.contains x := by
      simp [Repository.reference?, hfind, NameMap.contains]
    replace hwithin := hwithin href
    replace hequal := hequal href
    clear href
    cases hk : s.kind <;>
      simp_all [PatternKind.Suits, PatternKind.isProduct, PatternKind.isUnion,
        PatternKind.isVector, PatternKind.bound?]
  · have href (x : String) : (repo.reference? c x).isSome = fields.contains x := by
      simp [Repository.reference?, hfind, NameMap.contains]
    replace hwithin := hwithin href
    replace hequal := hequal href
    clear href
    cases hk : s.kind <;>
      simp_all [PatternKind.Suits, PatternKind.isProduct, PatternKind.isUnion,
        PatternKind.isVector, PatternKind.bound?]
  · have hmembers := hs.allMembers (PatternKind.isVector_bound_iff.2 ⟨e, hfind⟩)
    clear hwithin hequal
    cases hk : s.kind <;>
      simp_all [PatternKind.Suits, PatternKind.isProduct, PatternKind.isUnion,
        PatternKind.isVector, PatternKind.bound?]
  · have hempty : s.labels.isEmpty := by
      unfold NameMap.isEmpty
      cases hentries : s.labels.entries with
      | nil => rfl
      | cons e rest =>
        have he := hlabels e.1 (by simp [NameSet.toList, NameMap.keys, hentries])
        simp [Repository.reference?, hfind] at he
    clear hwithin hequal
    cases hk : s.kind <;>
      simp_all [PatternKind.Suits, PatternKind.isProduct, PatternKind.isUnion,
        PatternKind.isVector, PatternKind.bound?]
  · exact absurd hfind hc

include ht

/-- Shapes that suit one code go together, the one of lower rank first. -/
theorem Suits.exists_joinRanked (hc : repo.find c ≠ .undefined)
    (hstrict : strict c ∨ s.kind = .bound c ∨ t.kind = .bound c)
    (hrank : s.kind.rank ≤ t.kind.rank) : ∃ k, joinRanked repo s t = some k := by
  have hsub (hall : ∀ x, (repo.reference? c x).isSome → t.labels.contains x) :
      s.labels.subset t.labels := NameSet.subset_iff.2 fun x hx => hall x (hs.labels x hx)
  have hequal (hall : ∀ x, (repo.reference? c x).isSome → s.labels.contains x)
      (hall' : ∀ x, (repo.reference? c x).isSome → t.labels.contains x) : s.labels = t.labels :=
    NameSet.eq_of_contains_iff fun x =>
      ⟨fun hx => hall' x (hs.labels x hx), fun hx => hall x (ht.labels x hx)⟩
  have hfits (hunbound : s.kind.bound? = none) := hs.fits hunbound hc
  have hmembers := hs.allMembers
  have hunion (h : (PatternKind.bound c).isProduct repo) := PatternKind.not_isUnion_of_isProduct h
  have hvector (h : (PatternKind.bound c).isProduct repo) :=
    PatternKind.not_isVector_of_isProduct h
  have hvector' (h : (PatternKind.bound c).isUnion repo) := PatternKind.not_isVector_of_isUnion h
  have hskind := hs.kind
  have htkind := ht.kind
  clear hs ht
  generalize (∀ x, (repo.reference? c x).isSome → s.labels.contains x) = alls at *
  generalize (∀ x, (repo.reference? c x).isSome → t.labels.contains x) = allt at *
  unfold joinRanked
  cases hs : s.kind <;> cases ht : t.kind <;>
    simp_all [PatternKind.Suits, PatternKind.rank, PatternKind.bound?]

/-- Shapes that suit one code go together, if the code is strict or one of them is bound to it. -/
theorem Suits.exists_merge (hc : repo.find c ≠ .undefined)
    (hstrict : strict c ∨ s.kind = .bound c ∨ t.kind = .bound c) :
    ∃ m, s.merge repo t = some m := by
  have hjoin : ∃ k, join repo s t = some k := by
    unfold join
    split_ifs with hrank
    · exact hs.exists_joinRanked ht hc hstrict hrank
    · exact ht.exists_joinRanked hs hc (hstrict.imp_right Or.symm) (Nat.le_of_not_le hrank)
  obtain ⟨k, hk⟩ := hjoin
  exact ⟨_, by rw [merge, hk]; rfl⟩

end Suiting

/-- The join of shapes that suit one code suits it, too. -/
theorem IsJoin.suits {parts : List Shape} (h : IsJoin repo parts m)
    (hparts : ∀ s ∈ parts, s.Suits repo strict untyped c) : m.Suits repo strict untyped c := by
  have hkind : m.kind.Suits repo strict untyped c True := by
    rcases h.origin with ⟨s, hs, hk⟩ | ⟨-, ⟨⟨s, hs, hk⟩, hm⟩ | ⟨⟨s, hs, hk⟩, hm⟩⟩
    · exact hk ▸ (hparts s hs).kind.mono fun _ => trivial
    · have hs := (hparts s hs).kind
      rw [hk] at hs
      exact hm ▸ ⟨hs.1, trivial⟩
    · have hs := (hparts s hs).kind
      rw [hk] at hs
      exact hm ▸ ⟨hs.1, trivial⟩
  have hall {s : Shape} (hs : s ∈ parts)
      (hall : ∀ x, (repo.reference? c x).isSome → s.labels.contains x) (x : String)
      (hx : (repo.reference? c x).isSome) : m.labels.contains x :=
    (h.labels x).2 ⟨s, hs, x, hall x hx, hkind.memberLabel_eq hx⟩
  constructor
  · intro x hx
    obtain ⟨s, hs, y, hy, rfl⟩ := (h.labels x).1 hx
    have hin := (hparts s hs).labels y hy
    rwa [hkind.memberLabel_eq hin]
  · rcases h.origin with ⟨s, hs, hk⟩ | ⟨⟨s, hs, hk⟩, ⟨-, hm⟩ | ⟨-, hm⟩⟩
    · exact hk ▸ (hparts s hs).kind.mono (hall hs)
    · have hclosed := (hparts s hs).kind
      rw [hk] at hclosed
      rw [hm] at hkind ⊢
      exact ⟨hkind.1, hall hs hclosed.2.1⟩
    · have hclosed := (hparts s hs).kind
      rw [hk] at hclosed
      rw [hm] at hkind ⊢
      exact ⟨hkind.1, hall hs hclosed.2.1⟩

/-- Merging keeps to shapes that suit their codes. -/
theorem discipline_suits (repo : Repository) (strict untyped : String → Prop) :
    Discipline repo (Suits repo strict untyped) where
  reference _ _ x h hx := h.labels x hx
  memberLabel _ _ _ h hx := h.kind.memberLabel_eq hx
  eq_of_bound s c d h hk := by
    have hkind := h.kind
    rw [hk] at hkind
    exact hkind.1
  join _ _ _ _ hjoin _ hparts := hjoin.suits hparts
  code s c h hk := by
    refine ⟨fun x hx => (h.labels x).1 hx, ?_⟩
    rw [hk]
    exact ⟨rfl, fun x hx => (h.labels x).2 hx⟩
  full s c x h hk hx := by
    have hkind := h.kind
    rw [hk] at hkind
    exact hkind.2 x hx

end Shape

end StructuralTyping
