import StructuralTyping.Proofs.PromotedCodes

/-!
# Promotion is exhaustive

Once the codes of the singletons are registered, each singleton is merged with the pattern of its
code. By the typing of the classes this never fails, although merging one singleton may bind others,
and only classes that are to be codes are touched. In the end all of these are bound. What is left
can still reach the ambiguous roots it could reach before, so no singleton remains.
-/
namespace StructuralTyping
open PatternGraph

section Binding
variable {repo : Repository} {g : PatternGraph} {names : NameMap String} {ids : List Nat}
  {τ : Nat → Option String}

/-- Singletons are bound to the codes that the typing gives them. -/
theorem Build.bindPromoted_outcome_of_typed (hrepo : repo.Consistent)
    (h : Typed repo (Shape.Depicts repo) τ g [])
    (hnames : ∀ id ∈ ids, ∃ c, names.get? (localName id) = some c ∧ τ id = some c) :
    Outcome (bindPromoted repo names ids) g
      (fun promoted g' => promoted.map (·.pattern) = ids ∧
        (∀ p ∈ promoted, names.get? (localName p.pattern) = some p.code ∧
          g'.kind p.pattern = .bound p.code) ∧
        ∃ τ', Typed repo (Shape.Depicts repo) τ' g' [] ∧ Retypes g τ g' τ')
      fun _ _ => False := by
  induction ids generalizing g τ with
  | nil => exact ⟨rfl, by simp, τ, h, .refl g τ⟩
  | cons id ids ih =>
    rw [List.forall_mem_cons] at hnames
    obtain ⟨⟨code, hcode, hid⟩, hrest⟩ := hnames
    have hknown := h.known id code hid
    rw [bindPromoted, hcode]
    dsimp only
    rw [outcome_bind]
    refine (boundNode_outcome_of_known hrepo hknown h.formed).imp (fun node g₁ hb => ?_)
      fun _ _ h => h
    have hτ₁ := h.typed_of_binds hb hrepo (Shape.discipline_depicts repo)
    have hretypes₁ := h.retypes_of_binds hb
    have hnode : g₁.kind node = .bound code := by
      obtain ⟨c, hc, hrecorded⟩ := hb.recorded
      obtain rfl : code = c := Option.some.inj (hknown.canonical.symm.trans hc)
      exact hb.formed.kind_of_bound (hb.formed.codes code node hrecorded)
    have hpair : ∀ i ∈ [id, node], extendTyping τ g g₁ i = some code := by
      simp [hretypes₁.typing id (h.lt_size id code hid), hid, hτ₁.bound node code hnode]
    rw [outcome_bind]
    refine (hτ₁.unify_outcome hpair).imp (fun changed g₂ hm => ?_) fun _ _ h => h
    obtain ⟨⟨τ₂, hτ₂, hretypes₂⟩, hmerged⟩ := hm
    have hretypes := hretypes₁.trans hretypes₂ hτ₁.formed hτ₂.formed
    have hbound : g₂.kind id = .bound code := by
      rw [kind_congr (hmerged id (by simp) node (by simp))]
      exact hretypes₂.extension.kind_bound hτ₁.formed hτ₂.formed hnode
    rw [outcome_bind]
    refine (ih hτ₂ fun j hj => ?_).imp (fun promoted g₃ hdone => ?_) fun _ _ h => h
    · obtain ⟨c, hc, hj⟩ := hrest j hj
      exact ⟨c, hc, by rw [hretypes.typing j (h.lt_size j c hj), hj]⟩
    · obtain ⟨hpatterns, hcodes, τ₃, hτ₃, hretypes₃⟩ := hdone
      refine ⟨congrArg (id :: ·) hpatterns, List.forall_mem_cons.2 ⟨⟨hcode, ?_⟩, hcodes⟩, τ₃, hτ₃,
        hretypes.trans hretypes₃ hτ₂.formed hτ₃.formed⟩
      exact hretypes₃.extension.kind_bound hτ₂.formed hτ₃.formed hbound

end Binding

namespace PatternGraph
variable {repo next : Repository} {g g' : PatternGraph} {codes merged : Codes}
  {names : NameMap String} {promoted : List Promotion} {τ' : Nat → Option String} {i n t : Nat}
  {c l : String}

section Remaining

/-- No ambiguous root is reached from a class that is a code. -/
theorem Settled.not_undecided_of_bound (hrepo : repo.Consistent) (hg : g.Settled repo [])
    (hkind : g.kind n = .bound c) : ¬g.Undecided n := by
  rintro ⟨m, hreach, hm⟩
  induction hreach using Relation.ReflTransGen.head_induction_on generalizing c with
  | refl => simp [isAmbiguous, hkind] at hm
  | head hlead _ ih =>
    obtain ⟨l, hl⟩ := hlead
    obtain ⟨d, hd, rfl⟩ := Option.map_eq_some_iff.1 hl
    obtain ⟨r, -, hkd⟩ := hg.reference_of_bound hrepo hkind hd
    exact ih (by rw [hg.formed.kind_find, hkd])

variable (hrepo : repo.Consistent) (hg : g.Settled repo []) (hg' : g'.Formed)
  (hr : Retypes g (g.promotedCode merged) g' τ')
  (hbound : ∀ id ∈ g.singletons, ∃ c, g'.kind id = .bound c)

theorem promotedCode_eq_none_iff : g.promotedCode merged n = none ↔
    g.find n ∉ g.singletons ∧ ∀ c, g.kind n ≠ .bound c := by
  unfold promotedCode
  cases hkind : g.kind n <;> simp [PatternKind.bound?]

include hg hg' hr

omit hg in
/-- A root that is not to be a code stays as it is. -/
theorem Retypes.root_eq (hn : n ∈ g.roots) (hnone : g.promotedCode merged n = none) :
    n ∈ g'.roots ∧ g'.shape n = g.shape n ∧ g'.edgesOf n = g.edgesOf n := by
  have hlt := (mem_roots_iff.1 hn).1
  have hfind : g'.find n = n := by rw [hr.untyped n hlt hnone, find_of_mem_roots hn]
  have hlt' := hlt.trans_le hr.extension.size_le
  have hedges : g'.edgesOf n = g.edgesOf n := by
    rw [edgesOf, edgesOf, hfind, find_of_mem_roots hn, hr.ownEdges n hlt]
  refine ⟨?_, ?_, hedges⟩
  · have hroot := hg'.grounded.find_mem_roots hlt'
    rwa [hfind] at hroot
  · rw [shape, shape, hedges, PatternGraph.kind, PatternGraph.kind, hfind, find_of_mem_roots hn,
      hr.extension.node n hlt]

include hrepo

/-- What reached an ambiguous root still does: no class on the way is to be a code. -/
theorem Retypes.undecided (hn : n ∈ g.roots) (h : g.Undecided n) : g'.Undecided n := by
  have hgrounded := hg.formed.grounded
  have hnone {n : Nat} (hn : n ∈ g.roots) (h : g.Undecided n) :
      g.promotedCode merged n = none := by
    refine promotedCode_eq_none_iff.2 ⟨fun hin => ?_, fun c hkind =>
      hg.not_undecided_of_bound hrepo hkind h⟩
    rw [find_of_mem_roots hn] at hin
    exact (hgrounded.mem_singletons_iff.1 hin).2.2 h
  obtain ⟨m, hreach, hm⟩ := h
  induction hreach using Relation.ReflTransGen.head_induction_on with
  | refl =>
    obtain ⟨-, hshape, hedges⟩ := hr.root_eq hg' hn (hnone hn ⟨m, .refl, hm⟩)
    have hkind : g'.kind m = g.kind m := congrArg Shape.kind hshape
    refine ⟨m, .refl, ?_⟩
    rw [isAmbiguous, target?, Option.isNone_map] at hm ⊢
    rwa [hkind, hedges]
  | @head n k hlead hrest ih =>
    have hk := hgrounded.mem_roots_of_leads hlead
    have hkm : g.Undecided k := ⟨m, hrest, hm⟩
    refine (ih hk).head ?_
    obtain ⟨l, hl⟩ := hlead
    obtain ⟨d, hd, rfl⟩ := Option.map_eq_some_iff.1 hl
    obtain ⟨-, -, hedges⟩ := hr.root_eq hg' hn (hnone hn (hkm.head ⟨l, hl⟩))
    refine ⟨l, ?_⟩
    have hkd := hnone hk hkm
    rw [target?, hedges, hd, Option.map_some, hr.untyped d (hg.formed.targets_lt _ l d hd)]
    rw [promotedCode_eq_none_iff] at hkd ⊢
    rwa [hg.formed.find_find, hg.formed.kind_find] at hkd

include hbound

omit hrepo in
/-- All classes that were to be codes are. -/
theorem Retypes.bound_of_typed (hi : g.promotedCode merged i ≠ none) :
    ∃ c, g'.kind i = .bound c := by
  rw [ne_eq, promotedCode_eq_none_iff, not_and_or, not_not] at hi
  rcases hi with hin | hkind
  · obtain ⟨c, hc⟩ := hbound _ hin
    exact ⟨c, by rw [← hc, kind_congr (hr.extension.find _ _ (hg.formed.find_find i))]⟩
  · push Not at hkind
    obtain ⟨c, hc⟩ := hkind
    exact ⟨c, hr.extension.kind_bound hg.formed hg' hc⟩

/-- No singleton is left. -/
theorem Retypes.singletons_eq_nil : g'.singletons = [] := by
  refine List.eq_nil_iff_forall_not_mem.2 fun n hn => ?_
  obtain ⟨hroot, hkind, hdecided⟩ := hg'.grounded.mem_singletons_iff.1 hn
  have hfind' := find_of_mem_roots hroot
  have hclosed {i : Nat} (hi : g'.find i = n) : g.promotedCode merged i = none := by
    by_contra hne
    obtain ⟨c, hc⟩ := hr.bound_of_typed hg hg' hbound hne
    rw [kind_congr (hi.trans hfind'.symm)] at hc
    simp [hc] at hkind
  by_cases hlt : n < g.size
  · have hnone := hclosed hfind'
    -- No old root is below another one, so the old root of the class is this one.
    have hfind : g.find n = n := by
      refine Nat.le_antisymm ?_ (hg.formed.ordered.le_find n)
      calc g.find n ≤ g'.find (g.find n) := hg'.ordered.le_find _
        _ = g'.find n := hr.extension.find _ _ (hg.formed.find_find n)
        _ = n := hfind'
    have hroot' := hg.formed.grounded.find_mem_roots hlt
    rw [hfind] at hroot'
    have hsame : g'.kind n = g.kind n := congrArg Shape.kind (hr.root_eq hg' hroot' hnone).2.1
    refine hdecided (hr.undecided hrepo hg hg' hroot' ?_)
    by_contra hdecided'
    refine (promotedCode_eq_none_iff.1 hnone).1 ?_
    rw [hfind]
    exact hg.formed.grounded.mem_singletons_iff.2 ⟨hroot', hsame ▸ hkind, hdecided'⟩
  · rcases hr.cover n (Nat.le_of_not_lt hlt) (mem_roots_iff.1 hroot).1 with ⟨c, hc⟩ | ⟨i, hi, hin⟩
    · simp [hc] at hkind
    · rw [hfind'] at hin
      have hold := hr.untyped i hi (hclosed hin)
      have := hg.formed.find_lt hi
      omega

end Remaining

/-- All singletons are promoted to codes that say what they say, and nothing else is changed. -/
structure Promotes (g : PatternGraph) (promoted : List Promotion) (g' : PatternGraph)
    (next : Repository) : Prop where
  patterns : promoted.map (·.pattern) = g.singletons
  exhaustive : g'.singletons = []
  bound : ∀ p ∈ promoted, g'.kind p.pattern = .bound p.code
  constructor : ∀ p ∈ promoted, (next.find p.code).closedKind? = some (g.kind p.pattern)
  labels : ∀ p ∈ promoted, ∀ l,
    (g.edgesOf p.pattern).contains l ↔ (next.reference? p.code l).isSome
  references : ∀ p ∈ promoted, ∀ l t, g.target? p.pattern l = some t →
    ∃ r, next.reference? p.code l = some r ∧ g'.kind t = .bound r
  unchanged : ∀ n ∈ g.roots, n ∉ g.singletons → (∀ c, g.kind n ≠ .bound c) →
    n ∈ g'.roots ∧ g'.shape n = g.shape n

theorem promotes_of_singletons_eq_nil (h : g.singletons = []) : Promotes g [] g repo where
  patterns := h.symm
  exhaustive := h
  bound := by simp
  constructor := by simp
  labels := by simp
  references := by simp
  unchanged _ hn _ _ := ⟨hn, rfl⟩

section Promoting
variable (hrepo : repo.Consistent) (hg : g.Settled repo [])

section Merged
variable (htyped : Typed next (Shape.Depicts next) (g.promotedCode merged) g [])
  (hτ' : Typed next (Shape.Depicts next) τ' g' [])
  (hr : Retypes g (g.promotedCode merged) g' τ')
  (hbound : ∀ id ∈ g.singletons, ∃ c, g'.kind id = .bound c)
include hg htyped hτ' hr hbound

/-- The classes that a class leads to are bound to what its code refers to. -/
theorem Retypes.exists_reference (hn : g.promotedCode merged n = some c)
    (ht : g.target? n l = some t) : ∃ r, next.reference? c l = some r ∧ g'.kind t = .bound r := by
  obtain ⟨d, hd, rfl⟩ := Option.map_eq_some_iff.1 ht
  have hin : (next.reference? c l).isSome :=
    ((htyped.shapes n c hn).labels l).1 (NameMap.contains_map.2 (NameMap.contains_of_get? hd))
  obtain ⟨r, hr'⟩ := Option.isSome_iff_exists.1 hin
  have hcode : g.promotedCode merged d = some r := (htyped.edges n c l d hn hd).trans hr'
  obtain ⟨b, hb⟩ := hr.bound_of_typed (i := d) hg hτ'.formed hbound (by simp [hcode])
  have hbr : some b = some r := by
    rw [← hτ'.bound d b hb, hr.typing d (hg.formed.targets_lt _ l d hd), hcode]
  refine ⟨r, hr', ?_⟩
  rw [kind_congr (hr.extension.find _ _ (hg.formed.find_find d)), hb, Option.some.inj hbr]

omit hbound
include hrepo

/-- Singletons that are bound to the codes of the typing are promoted. -/
theorem Retypes.promotes (hpatterns : promoted.map (·.pattern) = g.singletons)
    (hcodes : ∀ p ∈ promoted, g.promotedCode merged p.pattern = some p.code ∧
      g'.kind p.pattern = .bound p.code) : Promotes g promoted g' next := by
  have hmem (id : Nat) : id ∈ g.singletons ↔ ∃ p ∈ promoted, p.pattern = id := by
    rw [← hpatterns, List.mem_map]
  have hbound (id : Nat) (hid : id ∈ g.singletons) : ∃ c, g'.kind id = .bound c := by
    obtain ⟨p, hp, rfl⟩ := (hmem id).1 hid
    exact ⟨p.code, (hcodes p hp).2⟩
  have hdepicts (p : Promotion) (hp : p ∈ promoted) :=
    htyped.shapes p.pattern p.code (hcodes p hp).1
  constructor
  · exact hpatterns
  · exact hr.singletons_eq_nil hrepo hg hτ'.formed hbound
  · exact fun p hp => (hcodes p hp).2
  · intro p hp
    refine (hdepicts p hp).kind.resolve_left fun hkind => ?_
    have hin := hg.formed.grounded.mem_singletons_iff.1 ((hmem _).2 ⟨p, hp, rfl⟩)
    have hkind' : g.kind p.pattern = .bound p.code := hkind
    simp [hkind'] at hin
  · exact fun p hp l => NameMap.contains_map.symm.trans ((hdepicts p hp).labels l)
  · exact fun p hp l t ht => hr.exists_reference hg htyped hτ' hbound (hcodes p hp).1 ht
  · intro n hn hnot hkind
    have hnone : g.promotedCode merged n = none :=
      promotedCode_eq_none_iff.2 ⟨by rwa [find_of_mem_roots hn], hkind⟩
    have hsame := hr.root_eq hτ'.formed hn hnone
    exact ⟨hsame.1, hsame.2.1⟩

end Merged

variable (h : g.Described codes) (hreg : repo.Registered codes ∅ merged names next)
  (hmerged : ∀ n x, codes.get? n = some x → merged.get? n = some x)

include hg h hreg in
/-- The registration answers the codes of the typing. -/
theorem Described.name_eq (hn : n ∈ g.singletons) :
    names.get? (localName n) = g.promotedCode merged n := by
  have hgrounded := hg.formed.grounded
  obtain ⟨x, hx, -⟩ := h.entry n hn
  have hfind := find_of_mem_roots (hgrounded.mem_singletons_iff.1 hn).1
  rw [← hfind] at hn
  rw [hreg.answer, if_pos (NameMap.contains_of_get? hx), promotedCode_eq (.inl hn),
    hgrounded.codeReference_of_singleton hn, hfind]

include hrepo hg h hreg hmerged

/-- Once their codes are registered, the singletons are bound to them without fail. -/
theorem Described.exists_promotes : ∃ promoted g',
    Build.bindPromoted next names g.singletons g = .ok promoted g' ∧
      Promotes g promoted g' next := by
  have htyped := h.typed hrepo hg hreg hmerged
  have hname (id : Nat) (hid : id ∈ g.singletons) : ∃ c,
      names.get? (localName id) = some c ∧ g.promotedCode merged id = some c := by
    have hfind : g.find id ∈ g.singletons := by
      rwa [find_of_mem_roots (hg.formed.grounded.mem_singletons_iff.1 hid).1]
    exact ⟨_, (h.name_eq hg hreg hid).trans (promotedCode_eq (.inl hfind)),
      promotedCode_eq (.inl hfind)⟩
  have hrun := Build.bindPromoted_outcome_of_typed (h.settled hrepo hg hreg).1 htyped hname
  cases hresult : Build.bindPromoted next names g.singletons g with
  | error e g' => exact (hrun.of_error hresult).elim
  | ok promoted g' =>
    obtain ⟨hpatterns, hcodes, τ', hτ', hr⟩ := hrun.of_ok hresult
    refine ⟨promoted, g', rfl, hr.promotes hrepo hg htyped hτ' hpatterns fun p hp => ?_⟩
    have hin : p.pattern ∈ g.singletons := hpatterns ▸ List.mem_map_of_mem hp
    exact ⟨by rw [← h.name_eq hg hreg hin, (hcodes p hp).1], (hcodes p hp).2⟩

end Promoting

/-- Promotion fails only with the report of two different trees with the same hash, and then leaves
graph and repository as they were. Otherwise it turns each singleton into the code that it
describes, and there is no singleton left. -/
theorem Built.promote_exhaustive (hrepo : repo.Reachable) (hg : Built repo g) :
    (∃ codes merged reason, g.describedCodes g.singletons = .ok codes ∧
      repo.merge codes ∅ = .ok merged ∧ merged.finalize = .error (.impossible reason) ∧
      merged.ReportsCollision reason ∧
      g.promote repo = (.error (.code (.impossible reason)), g, repo)) ∨
    ∃ promoted g' next, g.promote repo = (.ok promoted, g', next) ∧
      Promotes g promoted g' next := by
  have hconsistent := hrepo.consistent
  have hsettled := hg.settled hconsistent
  unfold promote turnIntoCodes
  split_ifs with hnone
  · exact .inr ⟨[], g, repo, rfl, promotes_of_singletons_eq_nil (List.isEmpty_iff.1 hnone)⟩
  · obtain ⟨codes, hcodes, h⟩ :=
      hsettled.formed.grounded.exists_describedCodes (hg.plain hconsistent)
    obtain ⟨merged, hmerge, hmerged, hcases⟩ := h.registerCodes_cases hconsistent hsettled
    rcases hcases with ⟨reason, hfinalize, hreports, hfail⟩ | ⟨names, next, hok, hreg⟩
    · exact .inl ⟨codes, merged, reason, hcodes, hmerge, hfinalize, hreports,
        by simp only [hcodes, hfail]⟩
    · obtain ⟨promoted, g', hrun, hpromotes⟩ :=
        h.exists_promotes hconsistent hsettled hreg hmerged
      exact .inr ⟨promoted, g', next, by simp only [hcodes, hok, hrun], hpromotes⟩

/-- The pattern of a stream, two closed patterns that are each the tail of the other once the third
and the fifth pattern are one class, a vector of them and a pattern that may still gain fields. -/
def looseStreams : PatternGraph :=
  (((((stream.pushNode .unconstrained ∅).2.pushNode .closedProduct
    (.ofList [("head", 1), ("tail", 2)])).2.pushNode .closedProduct
    (.ofList [("head", 1), ("tail", 3)])).2.pushNode .vector
    (.ofList [(Text.vectorMember, 3)])).2.pushNode .openProduct (.ofList [("all", 5)])).2

def knottedStreams : PatternGraph where
  forest :=
    { nodes := looseStreams.forest.nodes.push ⟨.closedProduct, some "merge"⟩
      parents := #[none, none, some 7, none, some 7, none, none, none] }
  edges := looseStreams.edges.push (.ofList [("head", 1), ("tail", 3)])
  bound := looseStreams.bound

theorem looseStreams_built : Built .ofStream looseStreams :=
  ((((stream_built.pushNode rfl (by decide) (by decide)).pushNode rfl (by decide)
    (by decide)).pushNode rfl (by decide) (by decide)).pushNode rfl (by decide)
    (by decide)).pushNode rfl (by decide) (by decide)

theorem knottedStreams_built : Built .ofStream knottedStreams :=
  looseStreams_built.unify (by decide)
    (show Build.unify .ofStream "merge" [2, 4] looseStreams = .ok true knottedStreams by
      decide +kernel)

/-- The two closed patterns turn out to be the stream, and the vector is a code of its own. -/
theorem Built.promote_exhaustive_knottedStreams : Repository.ofStream.Reachable ∧
    Built .ofStream knottedStreams ∧ ∃ g' next,
      knottedStreams.promote .ofStream =
        (.ok [⟨3, "rArHSMQzZK"⟩, ⟨5, "BNNIGyAQRHz"⟩, ⟨7, "rArHSMQzZK"⟩], g', next) ∧
      Promotes knottedStreams [⟨3, "rArHSMQzZK"⟩, ⟨5, "BNNIGyAQRHz"⟩, ⟨7, "rArHSMQzZK"⟩] g'
        next := by
  have hresult : (knottedStreams.promote .ofStream).1 =
      .ok [⟨3, "rArHSMQzZK"⟩, ⟨5, "BNNIGyAQRHz"⟩, ⟨7, "rArHSMQzZK"⟩] := by decide +kernel
  refine ⟨Repository.ofStream_reachable, knottedStreams_built, ?_⟩
  rcases Built.promote_exhaustive Repository.ofStream_reachable knottedStreams_built with
    ⟨_, _, reason, -, -, -, -, hfail⟩ | ⟨promoted, g', next, hok, hpromotes⟩
  · rw [hfail] at hresult
    cases hresult
  · rw [hok] at hresult
    obtain rfl := Except.ok.inj hresult
    exact ⟨g', next, hok, hpromotes⟩

end PatternGraph

end StructuralTyping
