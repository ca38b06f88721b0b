import StructuralTyping.Proofs.MergeOrder

/-!
# Merging again

A merged shape is the join of its parts, and the join of some shapes does not change when a part is
named twice. That merging a part again does not fail is a matter of pairs: a shape goes together
with itself and with what it was merged with, so it goes together with the merged shape. Main
statement: `join_comm_idem_absorbing`.
-/
namespace StructuralTyping.Shape
variable {repo : Repository} {l r s m : Shape} {again : List Shape}

theorem joinable_self : Joinable repo s s := by
  rw [Joinable, join_self]
  rfl

theorem join_of_merge (h : l.merge repo r = some m) : join repo l r = some m.kind := by
  obtain ⟨k, hk, rfl⟩ := Option.map_eq_some_iff.1 h
  exact hk

/-- Labels that are kept as they are do not change when a shape is merged with itself. -/
theorem Normal.merge_self (h : s.Normal repo) : s.merge repo s = some s := by
  have hself : Joinable repo s s := joinable_self
  obtain ⟨m, hm⟩ := joinable_iff_merge.1 hself
  have hkind : m.kind = s.kind := Option.some.inj ((join_of_merge hm).symm.trans (join_self repo s))
  have hlabels : m.labels = s.labels := by
    refine NameSet.eq_of_contains_iff fun x => ?_
    rw [(joins_of_merge hm).2 x, hkind]
    constructor
    · rintro ⟨y, hy, rfl⟩
      have hin := or_self_iff.1 hy
      rwa [h y hin]
    · exact fun hx => ⟨x, .inl hx, h x hx⟩
  have hms : m = s := congrArg₂ mk hkind hlabels
  rw [hm, hms]

/-- The merged shape says already what a part of it says. -/
theorem merge_absorbs_left (hm : l.merge repo r = some m) : m.merge repo l = some m := by
  have hlr : Joinable repo l r := joinable_iff_merge.2 ⟨m, hm⟩
  have hml : Joinable repo m l := joinable_self.merged hm (joinable_comm.1 hlr)
  obtain ⟨n, hn⟩ := joinable_iff_merge.1 hml
  have hjoin := isJoin_of_merge hm
  -- `n` is the join of `l`, `r` and `l`, which are the same shapes as `l` and `r`.
  have hmn : m = n := hjoin.unique (hjoin.merge hn) fun s => by
    simp only [List.mem_append, List.mem_cons, List.not_mem_nil, or_false]
    tauto
  rw [hn, hmn]

theorem merge_absorbs_right (hm : l.merge repo r = some m) : m.merge repo r = some m :=
  merge_absorbs_left (merge_comm.trans hm)

theorem foldlM_merge_of_absorbed (h : ∀ s ∈ again, m.merge repo s = some m) :
    again.foldlM (merge repo) m = some m := by
  induction again with
  | nil => rfl
  | cons s again ih =>
    rw [List.forall_mem_cons] at h
    rw [List.foldlM_cons, h.1]
    exact ih h.2

/-- The join is symmetric and idempotent, and the merged shape absorbs both parts: its kind says no
less than theirs, and merging them with it again, however often, neither fails nor changes it. -/
theorem join_comm_idem_absorbing (repo : Repository) (l r : Shape) :
    join repo l r = join repo r l ∧ join repo l l = some l.kind ∧
    ∀ k, join repo l r = some k → ∃ m, l.merge repo r = some m ∧ m.kind = k ∧
      (∀ x, m.labels.contains x ↔
        ∃ y, (l.labels.contains y ∨ r.labels.contains y) ∧ k.memberLabel repo y = x) ∧
      (join repo m l = some k ∧ m.merge repo l = some m) ∧
      (join repo m r = some k ∧ m.merge repo r = some m) ∧
      (l.kind.rank ≤ k.rank ∧ r.kind.rank ≤ k.rank) ∧
      ∀ again : List Shape, (∀ s ∈ again, s ∈ [l, r, m]) →
        again.foldlM (merge repo) m = some m := by
  refine ⟨join_comm, join_self repo l, fun k hk => ?_⟩
  obtain ⟨m, hm⟩ := joinable_iff_merge.1 (Option.isSome_of_eq_some hk)
  obtain rfl : m.kind = k := Option.some.inj ((join_of_merge hm).symm.trans hk)
  have hjoin := isJoin_of_merge hm
  have hl := merge_absorbs_left hm
  have hr := merge_absorbs_right hm
  refine ⟨m, hm, rfl, (joins_of_merge hm).2, ⟨join_of_merge hl, hl⟩, ⟨join_of_merge hr, hr⟩,
    ⟨(hjoin.below l (by simp)).rank, (hjoin.below r (by simp)).rank⟩, fun again hagain => ?_⟩
  refine foldlM_merge_of_absorbed fun s hs => ?_
  have hpart := hagain s hs
  simp only [List.mem_cons, List.not_mem_nil, or_false] at hpart
  rcases hpart with rfl | rfl | rfl
  · exact hl
  · exact hr
  · exact hjoin.normal.merge_self

/-- What has a first and a second component and nothing else. -/
def numbered : Shape := ⟨.closedUntyped, .ofList ["0", "1"]⟩

def vectorOfSome : Shape := ⟨.vector, .ofList ["vector-member"]⟩

/-- The components of a vector are its members. -/
theorem join_comm_idem_absorbing_numbered : join .initial numbered vectorOfSome = some .vector ∧
    numbered.merge .initial vectorOfSome = some vectorOfSome ∧
    join .initial vectorOfSome numbered = some .vector ∧
    [numbered, vectorOfSome, numbered].foldlM (merge .initial) vectorOfSome =
      some vectorOfSome := by
  have hjoin : join .initial numbered vectorOfSome = some .vector := by decide +kernel
  have hmerge : numbered.merge .initial vectorOfSome = some vectorOfSome := by decide +kernel
  obtain ⟨m, hm, -, -, ⟨hagain, -⟩, -, -, hoften⟩ :=
    (join_comm_idem_absorbing .initial numbered vectorOfSome).2.2 .vector hjoin
  obtain rfl : m = vectorOfSome := Option.some.inj (hm.symm.trans hmerge)
  exact ⟨hjoin, hmerge, hagain, hoften _ (by simp)⟩

end StructuralTyping.Shape
