import StructuralTyping.Proofs.FilterShapes

/-!
# Merging in good order

Merging the pattern of a filter with that of a code goes on from the first classes to those that
meet, and so on. A code is calm if no code on the way to it refers back to itself. Then, whenever
classes that are to be the code are merged, one of them is bound to it already, and at most one
other is not. For an edge of a bound class that leads to a class that is not bound is one that still
waits to be merged, and until then only codes are visited that come after the code of the class.
-/
open Relation (ReflTransGen TransGen)

namespace StructuralTyping

namespace Repository
variable {repo : Repository} {c₀ c d e : String}

/-- A code refers to another. -/
def Refers (repo : Repository) (c d : String) : Prop := ∃ l, repo.reference? c l = some d

/-- No code on the way from one code to another refers back to itself. -/
def Calm (repo : Repository) (c d : String) : Prop :=
  ∀ e, ReflTransGen repo.Refers c e → TransGen repo.Refers e d → ¬TransGen repo.Refers e e

theorem Calm.of_refers (h : repo.Calm c₀ d) (hd : repo.Refers c d) : repo.Calm c₀ c :=
  fun e he hc => h e he (hc.tail hd)

end Repository

namespace PatternGraph
variable {g g' : PatternGraph} {repo : Repository} {rule : String} {ids roots : List Nat}
  {pending pending' rest : List (List Nat)} {joined : Shape} {P : Shape → String → Prop}
  {τ τ' : Nat → Option String} {a b n : Nat} {c₀ c d t l : String}

/-- The classes that are to be a calm code are merged in good order. -/
structure Orderly (repo : Repository) (c₀ : String) (τ : Nat → Option String) (g : PatternGraph)
    (pending : List (List Nat)) : Prop where
  reached : ∀ ids ∈ pending, ∀ a ∈ ids, ∀ t, τ a = some t → ReflTransGen repo.Refers c₀ t
  /-- One of the classes is bound already. -/
  anchored : ∀ ids ∈ pending, ∀ a ∈ ids, ∀ t, τ a = some t → repo.Calm c₀ t →
    ∃ b ∈ ids, g.kind b = .bound t
  /-- At most one of the classes is not bound. -/
  single : ∀ ids ∈ pending, ∀ a ∈ ids, ∀ b ∈ ids, ∀ t, τ a = some t → repo.Calm c₀ t →
    g.kind a ≠ .bound t → g.kind b ≠ .bound t → g.find a = g.find b
  /-- What a bound class leads to is bound, or is so before a class that comes before it. -/
  waiting : ∀ n e l d t, ReflTransGen repo.Refers c₀ e → g.kind n = .bound e →
    (g.edgesOf n).get? l = some d → τ d = some t → repo.Calm c₀ t → g.kind d = .bound t ∨
      ∃ pre ids post, pending = pre ++ ids :: post ∧ d ∈ ids ∧
        ∀ ids' ∈ pre, ∀ a ∈ ids', ∀ t', τ a = some t' → TransGen repo.Refers e t'

/-- Nodes that are of one class already are done with. -/
theorem Orderly.same (ho : Orderly repo c₀ τ g (ids :: rest))
    (hsame : (ascending (ids.map g.find)).length ≤ 1) : Orderly repo c₀ τ g rest where
  reached ids' hids' := ho.reached ids' (List.mem_cons_of_mem _ hids')
  anchored ids' hids' := ho.anchored ids' (List.mem_cons_of_mem _ hids')
  single ids' hids' := ho.single ids' (List.mem_cons_of_mem _ hids')
  waiting n e l d t he hkind hd ht hcalm := by
    refine (ho.waiting n e l d t he hkind hd ht hcalm).elim .inl ?_
    rintro ⟨pre, ids', post, hsplit, hin, hpre⟩
    cases pre with
    | nil =>
      obtain ⟨rfl, rfl⟩ := List.cons.inj hsplit
      obtain ⟨b, hb, hbound⟩ := ho.anchored ids List.mem_cons_self d hin t ht hcalm
      exact .inl ((kind_congr (find_eq_of_length_le_one hsame hin hb)).trans hbound)
    | cons first pre =>
      rw [List.forall_mem_cons] at hpre
      exact .inr ⟨pre, ids', post, (List.cons.inj hsplit).2, hin, hpre.2⟩

section Joining
variable (hP : Shape.Discipline repo P) (h : Typed repo P τ g (ids :: rest))
  (ho : Orderly repo c₀ τ g (ids :: rest)) (hc : ∀ id ∈ ids, τ id = some c)
  (hroots : roots = ascending (ids.map g.find)) (hseveral : 2 ≤ roots.length)
  (hjoin : Shape.IsJoin repo (roots.map g.shape) joined)
include h ho hc hroots hseveral

omit ho h hc in
theorem exists_mem_of_several : ∃ a, a ∈ ids := by
  obtain ⟨r, hr⟩ := List.exists_mem_of_length_pos (Nat.zero_lt_of_lt hseveral)
  rw [hroots, mem_ascending] at hr
  obtain ⟨a, ha, -⟩ := List.mem_map.1 hr
  exact ⟨a, ha⟩

/-- One of the joined classes is bound to the code if it is calm. -/
theorem Orderly.exists_root (hcalm : repo.Calm c₀ c) : ∃ r ∈ roots, g.kind r = .bound c := by
  obtain ⟨a, ha⟩ := exists_mem_of_several hroots hseveral
  obtain ⟨b, hb, hbound⟩ := ho.anchored ids List.mem_cons_self a ha c (hc a ha) hcalm
  refine ⟨g.find b, hroots ▸ mem_ascending.2 (List.mem_map_of_mem hb), ?_⟩
  rw [h.formed.kind_find, hbound]

omit h in
/-- A class that is bound leads to bound classes when its turn comes. -/
theorem Orderly.kind_of_edge (hn : g.kind n = .bound c) (hd : (g.edgesOf n).get? l = some a)
    (ha : τ a = some t) (hrefers : repo.Refers c t) (hcalm : repo.Calm c₀ t) :
    g.kind a = .bound t := by
  obtain ⟨x, hx⟩ := exists_mem_of_several hroots hseveral
  have hreach := ho.reached ids List.mem_cons_self x hx c (hc x hx)
  have hnone := hcalm c hreach (.single hrefers)
  refine (ho.waiting n c l a t hreach hn hd ha hcalm).resolve_right ?_
  rintro ⟨pre, ids', post, hsplit, hin, hpre⟩
  cases pre with
  | nil =>
    obtain ⟨rfl, rfl⟩ := List.cons.inj hsplit
    obtain rfl : t = c := Option.some.inj (ha.symm.trans (hc a hin))
    exact hnone (.single hrefers)
  | cons first pre =>
    obtain ⟨rfl, -⟩ := List.cons.inj hsplit
    exact hnone (hpre ids List.mem_cons_self x hx c (hc x hx))

include hP hjoin

/-- Of what meets, and is to be a calm code, only one node is not bound to it. -/
theorem Orderly.eq_of_arrivals (ha : a ∈ g.arrivals repo joined.kind roots l)
    (hb : b ∈ g.arrivals repo joined.kind roots l) (ht : τ a = some t) (hcalm : repo.Calm c₀ t)
    (hna : g.kind a ≠ .bound t) (hnb : g.kind b ≠ .bound t) : a = b := by
  have hta := (h.arrival_eq hc hP hroots hseveral hjoin ha).1
  have htb := (h.arrival_eq hc hP hroots hseveral hjoin hb).1
  have hrefers : repo.Refers c t := ⟨l, hta ▸ ht⟩
  have hunbound {i : Nat} (hi : i ∈ g.arrivals repo joined.kind roots l) (hti : τ i = some t)
      (hni : g.kind i ≠ .bound t) :
      ∃ x ∈ ids, g.kind x ≠ .bound c ∧ (g.edgesOf x).get? l = some i := by
    obtain ⟨-, r, hr, hedge⟩ := h.exists_edge hc hP hroots hseveral hjoin hi
    rw [hroots, mem_ascending] at hr
    obtain ⟨x, hx, rfl⟩ := List.mem_map.1 hr
    rw [h.formed.edgesOf_find] at hedge
    exact ⟨x, hx, fun hbound => hni
      (ho.kind_of_edge hc hroots hseveral hbound hedge hti hrefers hcalm), hedge⟩
  obtain ⟨x, hx, hnx, hxa⟩ := hunbound ha ht hna
  obtain ⟨y, hy, hny, hyb⟩ := hunbound hb (htb.trans (hta ▸ ht)) hnb
  have hsame := ho.single ids List.mem_cons_self x hx y hy c (hc x hx) (hcalm.of_refers hrefers)
    hnx hny
  rw [edgesOf_congr hsame, hyb] at hxa
  exact (Option.some.inj hxa).symm

/-- Of what meets, and is to be a calm code, one node is bound to it. -/
theorem Orderly.exists_arrival (hr : repo.reference? c l = some t) (hcalm : repo.Calm c₀ t) :
    ∃ b ∈ g.arrivals repo joined.kind roots l, g.kind b = .bound t := by
  have hrefers : repo.Refers c t := ⟨l, hr⟩
  obtain ⟨r, hroot, hbound⟩ := ho.exists_root h hc hroots hseveral (hcalm.of_refers hrefers)
  have hτ := h.root_eq hc hroots r hroot
  have hlabel := hP.full _ c l (h.shapes r c hτ) hbound (by simp [hr])
  obtain ⟨b, hb⟩ := NameMap.contains_iff.1 (NameMap.contains_map.1 hlabel)
  refine ⟨b, mem_arrivals.2 ⟨r, hroot, l, ?_, ?_⟩, ?_⟩
  · rwa [← edgesOf_of_root (h.areRoots hroots r hroot).2]
  · exact hP.memberLabel _ _ _ (h.shape_join hc hP hroots hseveral hjoin) (by simp [hr])
  · have hτb := (h.edges r c l b hτ hb).trans hr
    exact ho.kind_of_edge hc hroots hseveral hbound hb hτb hrefers hcalm

variable (hg' : (g.joinRoots repo joined.kind rule roots).Formed)
include hg'

/-- What the joined class leads to is bound, or meets what is. -/
theorem Orderly.waiting_joined
    (hd : ((g.targets repo joined.kind roots).map (·.1)).get? l = some a)
    (ht : joinTyping τ g c a = some t) (hcalm : repo.Calm c₀ t) :
    (g.joinRoots repo joined.kind rule roots).kind a = .bound t ∨
      ∃ pre ids post, meetings (g.targets repo joined.kind roots) ++ rest = pre ++ ids :: post ∧
        a ∈ ids ∧ ∀ ids' ∈ pre, ∀ i ∈ ids', ∀ t', joinTyping τ g c i = some t' →
          TransGen repo.Refers c t' := by
  have harrives := mem_arrivals_of_get?_targets hd
  obtain ⟨root, -, k, hk, -⟩ := mem_arrivals.1 harrives
  rw [joinTyping_of_ne (h.formed.targets_lt root k a hk).ne,
    (h.arrival_eq hc hP hroots hseveral hjoin harrives).1] at ht
  obtain ⟨b, hb, hbound⟩ := ho.exists_arrival hP h hc hroots hseveral hjoin ht hcalm
  obtain ⟨first, hfirst, hmeet⟩ := exists_first_of_mem_arrivals hb
  obtain rfl : a = first := Option.some.inj (hd.symm.trans hfirst)
  rcases hmeet with rfl | ⟨ids', hids', hin, -⟩
  · exact .inl (h.kind_joinRoots_of_bound hc hroots hseveral hg' hbound)
  · obtain ⟨pre, post, hsplit⟩ := List.append_of_mem hids'
    refine .inr ⟨pre, ids', post ++ rest, by simp [hsplit], hin, fun met hmet i hi t' ht' => ?_⟩
    obtain ⟨l', -, hτ⟩ := h.exists_label_of_meeting hc hP hroots hseveral hjoin
      (hsplit ▸ List.mem_append_left _ hmet)
    exact .single ⟨l', by rw [← (hτ i hi).2, ← (hτ i hi).1, ht']⟩

/-- What another class leads to is bound, or waits as it did before. What was to be joined first is
done with, and what meets there comes after the code of the joined class. -/
theorem Orderly.waiting_other (he : ReflTransGen repo.Refers c₀ e) (hn : g.kind n = .bound e)
    (hd : (g.edgesOf n).get? l = some a) (ht : τ a = some t) (hcalm : repo.Calm c₀ t) :
    (g.joinRoots repo joined.kind rule roots).kind a = .bound t ∨
      ∃ pre ids post, meetings (g.targets repo joined.kind roots) ++ rest = pre ++ ids :: post ∧
        a ∈ ids ∧ ∀ ids' ∈ pre, ∀ i ∈ ids', ∀ t', joinTyping τ g c i = some t' →
          TransGen repo.Refers e t' := by
  have hare := h.areRoots hroots
  have hkind {i : Nat} {d : String} (hi : g.kind i = .bound d) :=
    h.kind_joinRoots_of_bound hc hroots hseveral hg' hi
  rcases ho.waiting n e l a t he hn hd ht hcalm with hbound | ⟨pre, ids', post, hsplit, ha, hpre⟩
  · exact .inl (hkind hbound)
  cases pre with
  | nil =>
    obtain ⟨rfl, rfl⟩ := List.cons.inj hsplit
    obtain rfl : c = t := Option.some.inj ((hc a ha).symm.trans ht)
    obtain ⟨r, hr, hbound⟩ := ho.exists_root h hc hroots hseveral hcalm
    have hmem : g.find a ∈ roots := hroots ▸ mem_ascending.2 (List.mem_map_of_mem ha)
    left
    rw [h.formed.kind_joinRoots_of_mem hare hmem, ← hkind hbound,
      h.formed.kind_joinRoots_of_mem hare ((hare.find_eq hr).symm ▸ hr)]
  | cons first pre =>
    obtain ⟨rfl, hrest⟩ := List.cons.inj hsplit
    rw [List.forall_mem_cons] at hpre
    refine .inr ⟨meetings (g.targets repo joined.kind roots) ++ pre, ids', post,
      by simp [hrest], ha, fun met hmet i hi t' ht' => ?_⟩
    rcases List.mem_append.1 hmet with hmeet | hwaits
    · obtain ⟨l', -, hτ⟩ := h.exists_label_of_meeting hc hP hroots hseveral hjoin hmeet
      obtain ⟨x, hx⟩ := exists_mem_of_several hroots hseveral
      exact (hpre.1 x hx c (hc x hx)).tail ⟨l', by rw [← (hτ i hi).2, ← (hτ i hi).1, ht']⟩
    · rw [h.joinTyping_of_pending (hrest ▸ List.mem_append_left _ hwaits) i hi] at ht'
      exact hpre.2 met hwaits i hi t' ht'

omit hg' in
/-- Joining classes in good order leaves the others in good order. -/
theorem Orderly.joinRoots (h' : Typed repo P (joinTyping τ g c)
      (g.joinRoots repo joined.kind rule roots)
      (meetings (g.targets repo joined.kind roots) ++ rest)) :
    Orderly repo c₀ (joinTyping τ g c) (g.joinRoots repo joined.kind rule roots)
      (meetings (g.targets repo joined.kind roots) ++ rest) where
  reached ids' hids' i hi t ht := by
    rcases List.mem_append.1 hids' with hmeet | hin
    · obtain ⟨l, -, hτ⟩ := h.exists_label_of_meeting hc hP hroots hseveral hjoin hmeet
      obtain ⟨x, hx⟩ := exists_mem_of_several hroots hseveral
      have hreach := ho.reached ids List.mem_cons_self x hx c (hc x hx)
      exact hreach.tail ⟨l, by rw [← (hτ i hi).2, ← (hτ i hi).1, ht]⟩
    · rw [h.joinTyping_of_pending hin i hi] at ht
      exact ho.reached ids' (List.mem_cons_of_mem _ hin) i hi t ht
  anchored ids' hids' i hi t ht hcalm := by
    obtain ⟨b, hb, hbound⟩ : ∃ b ∈ ids', g.kind b = .bound t := by
      rcases List.mem_append.1 hids' with hmeet | hin
      · obtain ⟨l, rfl, hτ⟩ := h.exists_label_of_meeting hc hP hroots hseveral hjoin hmeet
        rw [(hτ i hi).1, (hτ i hi).2] at ht
        exact ho.exists_arrival hP h hc hroots hseveral hjoin ht hcalm
      · rw [h.joinTyping_of_pending hin i hi] at ht
        exact ho.anchored ids' (List.mem_cons_of_mem _ hin) i hi t ht hcalm
    exact ⟨b, hb, h.kind_joinRoots_of_bound hc hroots hseveral h'.formed hbound⟩
  single ids' hids' i hi j hj t ht hcalm hni hnj := by
    replace hni := mt (h.kind_joinRoots_of_bound hc hroots hseveral h'.formed) hni
    replace hnj := mt (h.kind_joinRoots_of_bound hc hroots hseveral h'.formed) hnj
    rcases List.mem_append.1 hids' with hmeet | hin
    · obtain ⟨l, rfl, hτ⟩ := h.exists_label_of_meeting hc hP hroots hseveral hjoin hmeet
      rw [(hτ i hi).1] at ht
      rw [ho.eq_of_arrivals hP h hc hroots hseveral hjoin hi hj ht hcalm hni hnj]
    · rw [h.joinTyping_of_pending hin i hi] at ht
      exact (h.retypes_joinRoots hc hroots hseveral).extension.find i j
        (ho.single ids' (List.mem_cons_of_mem _ hin) i hi j hj t ht hcalm hni hnj)
  waiting n e l d t he hn hd ht hcalm := by
    rcases h.joinTyping_cases hc hroots (h'.bound n e hn) with ⟨hjoined, rfl⟩ | ⟨hother, hτn⟩
    · rw [h.edgesOf_joinRoots hroots hjoined] at hd
      exact ho.waiting_joined hP h hc hroots hseveral hjoin h'.formed hd ht hcalm
    · have hare := h.areRoots hroots
      have hlt := h.lt_size n e hτn
      have hnot : g.find n ∉ roots := fun hmem => hother (.inl hmem)
      rw [h.formed.edgesOf_joinRoots_of_notMem hare hlt hnot] at hd
      rw [h.formed.kind_joinRoots_of_notMem hare hlt hnot] at hn
      rw [joinTyping_of_ne (h.formed.targets_lt _ l d hd).ne] at ht
      exact ho.waiting_other hP h hc hroots hseveral hjoin h'.formed he hn hd ht hcalm

end Joining

section Merging
variable {strict untyped : String → Prop} {s : Shape} {others : List Nat}

/-- The order is kept by each step. -/
theorem Orderly.mergeStep (hP : Shape.Discipline repo P) (h : Typed repo P τ g pending)
    (ho : Orderly repo c₀ τ g pending)
    (hstep : MergeStep repo rule (g, pending) (g', pending')) :
    ∃ τ', Typed repo P τ' g' pending' ∧ Orderly repo c₀ τ' g' pending' := by
  have hready := hstep.ready h.ready
  cases hstep with
  | same hsame => exact ⟨τ, h.tail, ho.same hsame⟩
  | join hroots hseveral hjoin hconflict =>
    obtain ⟨c, hc⟩ := h.pending _ List.mem_cons_self
    have h' := h.joinRoots hc hP hroots hseveral hjoin hready
    exact ⟨_, h', ho.joinRoots hP h hc hroots hseveral hjoin h'⟩

theorem Orderly.mergeRun (hP : Shape.Discipline repo P) (h : Typed repo P τ g pending)
    (ho : Orderly repo c₀ τ g pending)
    (hrun : MergeRun repo rule (g, pending) (g', pending')) :
    ∃ τ', Typed repo P τ' g' pending' ∧ Orderly repo c₀ τ' g' pending' := by
  generalize ht : (g', pending') = t at hrun
  induction hrun generalizing g' pending' with
  | refl =>
    obtain ⟨rfl, rfl⟩ := Prod.mk.inj ht
    exact ⟨τ, h, ho⟩
  | tail hrun hstep ih =>
    subst ht
    obtain ⟨σ, hσ, hoσ⟩ := ih rfl
    exact hoσ.mergeStep hP hσ hstep

/-- The shapes of classes that suit one code are merged without fail if the code is strict, or all
but one are bound to it. -/
theorem exists_mergeShapes_of_suits (hs : s.Suits repo strict untyped c)
    (hrest : ∀ r ∈ others, (g.shape r).Suits repo strict untyped c) (hc : repo.find c ≠ .undefined)
    (hstrict : strict c ∨ s.kind = .bound c ∨ ∀ r ∈ others, g.kind r = .bound c) :
    ∃ joined, g.mergeShapes repo s others = .ok joined := by
  induction others generalizing s with
  | nil => exact ⟨s, rfl⟩
  | cons root rest ih =>
    rw [List.forall_mem_cons] at hrest
    obtain ⟨m, hm⟩ := hs.exists_merge hrest.1 hc
      (hstrict.imp_right (.imp_right fun hall => hall root List.mem_cons_self))
    have hjoin := Shape.isJoin_of_merge hm
    have hbound (t : Shape) (ht : t ∈ [s, g.shape root]) (hk : t.kind = .bound c) :
        m.kind = .bound c := by
      have hkeeps := (hjoin.below t ht).keeps
      simpa only [Shape.Keeps, hk] using hkeeps
    obtain ⟨joined, hjoined⟩ := ih (hjoin.suits (by simp [hs, hrest.1])) hrest.2
      (hstrict.imp_right fun h => .inl (h.elim (hbound s (by simp))
        fun hall => hbound (g.shape root) (by simp) (hall root List.mem_cons_self)))
    exact ⟨joined, by rw [mergeShapes, hm]; exact hjoined⟩

/-- Classes can be merged in good order if all codes are strict or calm. -/
theorem Orderly.mergeable (hrepo : repo.Consistent)
    (h : Typed repo (Shape.Suits repo strict untyped) τ g (ids :: rest))
    (ho : Orderly repo c₀ τ g (ids :: rest)) (hcalm : ∀ d, strict d ∨ repo.Calm c₀ d) :
    Mergeable repo g ids := by
  obtain ⟨c, hc⟩ := h.pending ids List.mem_cons_self
  refine h.mergeable_of_merged (Shape.discipline_suits repo strict untyped)
    fun first second others hroots => ?_
  have hτ (r : Nat) (hr : r ∈ first :: second :: others) : τ r = some c :=
    h.root_eq hc hroots.symm r hr
  have hfind : repo.find c ≠ .undefined := by
    obtain ⟨references, hrefs⟩ :=
      (h.known first c (hτ first List.mem_cons_self)).exists_references hrepo
    intro hundefined
    simp [Repository.references?, hundefined] at hrefs
  refine exists_mergeShapes_of_suits (h.shapes first c (hτ first List.mem_cons_self))
    (fun r hr => h.shapes r c (hτ r (List.mem_cons_of_mem _ hr))) hfind ?_
  refine (hcalm c).imp_right fun hcalm => or_iff_not_imp_left.2 fun hfirst r hr => ?_
  by_contra hnr
  have hmem {i : Nat} (hi : i ∈ first :: second :: others) : ∃ x ∈ ids, g.find x = i :=
    List.mem_map.1 (mem_ascending.1 (hroots ▸ hi))
  obtain ⟨x, hx, rfl⟩ := hmem List.mem_cons_self
  obtain ⟨y, hy, rfl⟩ := hmem (List.mem_cons_of_mem _ hr)
  have hsame := ho.single ids List.mem_cons_self x hx y hy c (hc x hx) hcalm
    (fun hbound => hfirst ((h.formed.kind_find x).trans hbound))
    fun hbound => hnr ((h.formed.kind_find y).trans hbound)
  have hnodup := hroots ▸ nodup_ascending (ids.map g.find)
  exact (List.nodup_cons.1 hnodup).1 (hsame ▸ hr)

theorem Orderly.not_getsStuck (hrepo : repo.Consistent)
    (h : Typed repo (Shape.Suits repo strict untyped) τ g pending)
    (ho : Orderly repo c₀ τ g pending) (hcalm : ∀ d, strict d ∨ repo.Calm c₀ d) :
    ¬GetsStuck repo rule (g, pending) := by
  rintro ⟨g', ids, rest, hrun, hstuck⟩
  obtain ⟨τ', hτ', ho'⟩ := ho.mergeRun (Shape.discipline_suits repo strict untyped) h hrun
  exact hstuck (ho'.mergeable hrepo hτ' hcalm)

end Merging

end PatternGraph

end StructuralTyping
