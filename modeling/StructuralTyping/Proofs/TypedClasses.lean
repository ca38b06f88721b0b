import StructuralTyping.Proofs.GraphEvolution

/-!
# Classes that are to be codes

A typing says of some classes which codes they are to be bound to. It is faithful if the shape of
such a class leaves no choice but its code, and its edges lead to classes that are to be what the
code refers to. Merging classes that are to be one code never fails, as nothing speaks against it:
their shapes go together, and the classes that meet are to be one code in turn. So a typing is kept
by all steps, and classes without code are not touched by any of them.
-/
namespace StructuralTyping

/-- The kind of the closed patterns that describe the code. -/
def Code.closedKind {ρ : Type} : Code ρ → PatternKind
  | product _ => .closedProduct
  | union _ => .closedUnion
  | vector _ => .vector

def Lookup.closedKind? : Lookup → Option PatternKind
  | .code x => some x.closedKind
  | .builtin _ | .undefined => none

/-- The kind is the code itself or that of the constructor of the code. -/
def PatternKind.Depicts (repo : Repository) (kind : PatternKind) (c : String) : Prop :=
  kind = .bound c ∨ (repo.find c).closedKind? = some kind

/-- The shape leaves no choice but the code. -/
structure Shape.Depicts (repo : Repository) (s : Shape) (c : String) : Prop where
  labels : ∀ x, s.labels.contains x ↔ (repo.reference? c x).isSome
  kind : s.kind.Depicts repo c

section Depicting
variable {repo : Repository} {look : Lookup} {kind : PatternKind} {s t m : Shape} {c d x : String}

theorem Lookup.cases_of_closedKind? (h : look.closedKind? = some kind) :
    (kind = .closedProduct ∧ ∃ fields, look = .code (.product fields)) ∨
    (kind = .closedUnion ∧ ∃ fields, look = .code (.union fields)) ∨
    (kind = .vector ∧ ∃ element, look = .code (.vector element)) := by
  cases look with
  | code x => cases x <;> simp_all [closedKind?, Code.closedKind]
  | _ => cases h

theorem Lookup.bound?_of_closedKind? (h : look.closedKind? = some kind) : kind.bound? = none := by
  rcases cases_of_closedKind? h with ⟨rfl, -⟩ | ⟨rfl, -⟩ | ⟨rfl, -⟩ <;> rfl

theorem PatternKind.Depicts.eq_of_bound (h : kind.Depicts repo c) (hkind : kind = .bound d) :
    d = c := by
  rcases h with h | h
  · exact PatternKind.bound.inj (hkind.symm.trans h)
  · have hnone := Lookup.bound?_of_closedKind? h
    rw [hkind] at hnone
    cases hnone

/-- The labels of a code are kept as they are. -/
theorem PatternKind.Depicts.memberLabel_eq (h : kind.Depicts repo c)
    (hx : (repo.reference? c x).isSome) : kind.memberLabel repo x = x := by
  rcases h with rfl | h
  · exact Shape.memberLabel_of_reference hx
  · rcases Lookup.cases_of_closedKind? h with ⟨rfl, -⟩ | ⟨rfl, -⟩ | ⟨rfl, element, hc⟩
    · exact PatternKind.memberLabel_of_not_isVector (by simp [PatternKind.isVector])
    · exact PatternKind.memberLabel_of_not_isVector (by simp [PatternKind.isVector])
    · have hmember : x = Text.vectorMember := by
        by_contra hne
        simp [Repository.reference?, hc, hne] at hx
      rw [hmember, PatternKind.memberLabel_of_isVector rfl PatternKind.isMemberLabel_vectorMember]

namespace Shape

theorem Depicts.eq (hs : s.Depicts repo c) (ht : t.Depicts repo c) (hkind : s.kind = t.kind) :
    s = t := by
  have hlabels : s.labels = t.labels :=
    NameSet.eq_of_contains_iff fun x => (hs.labels x).trans (ht.labels x).symm
  cases s
  cases t
  simp_all

/-- A code can have the closed shape that depicts it. -/
theorem Depicts.fits (h : s.Depicts repo c) (hkind : (repo.find c).closedKind? = some s.kind) :
    s.fits repo c := by
  have hreference (x : String) (hx : x ∈ s.labels.toList) : (repo.reference? c x).isSome :=
    (h.labels x).1 (NameSet.mem_toList.1 hx)
  unfold Shape.fits
  rcases Lookup.cases_of_closedKind? hkind with ⟨hk, fields, hc⟩ | ⟨hk, fields, hc⟩ | ⟨hk, e, hc⟩
  · have hlabels : s.labels = fields.map fun _ => () := by
      apply NameSet.eq_of_contains_iff
      intro x
      rw [h.labels, NameMap.contains_map, Repository.reference?, hc]
      rfl
    simp [hc, hk, labelsEqual, hlabels]
  · simp only [hc, hk, labelsWithin, List.all_eq_true]
    intro x hx
    have hin := hreference x hx
    rwa [Repository.reference?, hc] at hin
  · simp only [hc, hk, allMembers, List.all_eq_true]
    intro x hx
    have hin := hreference x hx
    simp only [Repository.reference?, hc] at hin
    obtain rfl : x = Text.vectorMember := by
      by_contra hne
      simp [hne] at hin
    exact PatternKind.isMemberLabel_vectorMember

theorem join_bound (hs : s.kind.bound? = none) (ht : t.kind = .bound c) (hfits : s.fits repo c) :
    join repo s t = some (.bound c) ∧ join repo t s = some (.bound c) := by
  unfold join joinRanked
  cases hk : s.kind <;> simp_all [PatternKind.rank, PatternKind.bound?]

/-- Shapes that depict one code go together. -/
theorem Depicts.exists_merge (hs : s.Depicts repo c) (ht : t.Depicts repo c) :
    ∃ m, s.merge repo t = some m := by
  have hjoin : ∃ k, join repo s t = some k := by
    rcases hs.kind with hsk | hsk <;> rcases ht.kind with htk | htk
    · obtain rfl := hs.eq ht (hsk.trans htk.symm)
      exact ⟨_, join_self repo s⟩
    · exact ⟨_, (join_bound (Lookup.bound?_of_closedKind? htk) hsk (ht.fits htk)).2⟩
    · exact ⟨_, (join_bound (Lookup.bound?_of_closedKind? hsk) htk (hs.fits hsk)).1⟩
    · obtain rfl := hs.eq ht (Option.some.inj (hsk.symm.trans htk))
      exact ⟨_, join_self repo s⟩
  obtain ⟨k, hk⟩ := hjoin
  exact ⟨_, by rw [merge, hk]; rfl⟩

/-- The join of shapes that depict one code depicts it, too. -/
theorem IsJoin.depicts {parts : List Shape} (h : IsJoin repo parts m) (hs : s ∈ parts)
    (hparts : ∀ s ∈ parts, s.Depicts repo c) : m.Depicts repo c := by
  have hkind : m.kind.Depicts repo c := by
    have hkeeps := (h.below s hs).keeps
    rcases h.kind with ⟨t, ht, hk⟩ | hclosed
    · rw [hk]
      exact (hparts t ht).kind
    -- Of the shapes of codes, a closed one is only above its own kind.
    have hunbound : ∀ d, m.kind ≠ .bound d := by
      rcases hclosed with hk | hk <;> simp [hk]
    have hnovector : ¬m.kind.isVector repo := by
      rcases hclosed with hk | hk <;> simp [hk, PatternKind.isVector]
    unfold Keeps at hkeeps
    rcases (hparts s hs).kind with hk | hk
    · simp [hk, hunbound] at hkeeps
    · refine .inr (hk.trans ?_)
      rcases Lookup.cases_of_closedKind? hk with ⟨hk, -⟩ | ⟨hk, -⟩ | ⟨hk, -⟩
      · simp only [hk, hunbound, false_and, exists_false, or_false] at hkeeps
        rw [hk, hkeeps.1]
      · simp only [hk, hunbound, false_and, exists_false, or_false] at hkeeps
        rw [hk, hkeeps.1]
      · simp only [hk] at hkeeps
        exact (hnovector hkeeps).elim
  refine ⟨fun x => ?_, hkind⟩
  rw [h.labels x]
  constructor
  · rintro ⟨t, ht, y, hy, rfl⟩
    have hin := ((hparts t ht).labels y).1 hy
    rwa [hkind.memberLabel_eq hin]
  · intro hx
    exact ⟨s, hs, x, ((hparts s hs).labels x).2 hx, hkind.memberLabel_eq hx⟩

/-- What relates shapes to codes such that merging keeps to it: labels are labels of the code, the
join of several shapes goes with the code that they go with, and so does the code itself. -/
structure Discipline (repo : Repository) (P : Shape → String → Prop) : Prop where
  reference : ∀ s c x, P s c → s.labels.contains x → (repo.reference? c x).isSome
  memberLabel : ∀ s c x, P s c → (repo.reference? c x).isSome → s.kind.memberLabel repo x = x
  eq_of_bound : ∀ s c d, P s c → s.kind = .bound d → d = c
  join : ∀ parts m s c, IsJoin repo parts m → s ∈ parts → (∀ s ∈ parts, P s c) → P m c
  code : ∀ s c, s.Depicts repo c → s.kind = .bound c → P s c
  full : ∀ s c x, P s c → s.kind = .bound c → (repo.reference? c x).isSome → s.labels.contains x

theorem discipline_depicts (repo : Repository) : Discipline repo (Depicts repo) where
  reference _ _ x h hx := (h.labels x).1 hx
  memberLabel _ _ _ h hx := h.kind.memberLabel_eq hx
  eq_of_bound _ _ _ h hkind := h.kind.eq_of_bound hkind
  join _ _ _ _ hjoin hs hparts := hjoin.depicts hs hparts
  code _ _ h _ := h
  full _ _ x h _ hx := (h.labels x).2 hx

end Shape

/-- The shapes of classes that depict one code are merged without fail. -/
theorem PatternGraph.exists_mergeShapes {g : PatternGraph} {rest : List Nat}
    (hs : s.Depicts repo c) (hrest : ∀ r ∈ rest, (g.shape r).Depicts repo c) :
    ∃ joined, g.mergeShapes repo s rest = .ok joined := by
  induction rest generalizing s with
  | nil => exact ⟨s, rfl⟩
  | cons root rest ih =>
    rw [List.forall_mem_cons] at hrest
    obtain ⟨m, hm⟩ := hs.exists_merge hrest.1
    have hd : m.Depicts repo c := by
      refine (Shape.isJoin_of_merge hm).depicts List.mem_cons_self ?_
      simp [hs, hrest.1]
    obtain ⟨joined, hjoined⟩ := ih hd hrest.2
    exact ⟨joined, by rw [mergeShapes, hm]; exact hjoined⟩

end Depicting

namespace PatternGraph
variable {g g₁ g' : PatternGraph} {repo : Repository} {kind : PatternKind} {rule : String}
  {ids roots : List Nat} {pending pending' rest : List (List Nat)} {joined : Shape}
  {P : Shape → String → Prop} {τ τ' σ : Nat → Option String} {i n : Nat} {c l : String}

/-- A faithful typing: the shapes of classes with a code go with it, the classes lead to what the
code refers to, and nodes that are to become one class have one code. -/
structure Typed (repo : Repository) (P : Shape → String → Prop) (τ : Nat → Option String)
    (g : PatternGraph) (pending : List (List Nat)) : Prop where
  ready : Ready (g, pending)
  classes : ∀ n, τ (g.find n) = τ n
  pending : ∀ ids ∈ pending, ∃ c, ∀ id ∈ ids, τ id = some c
  lt_size : ∀ n c, τ n = some c → n < g.size
  known : ∀ n c, τ n = some c → repo.Known c
  bound : ∀ n c, g.kind n = .bound c → τ n = some c
  shapes : ∀ n c, τ n = some c → P (g.shape n) c
  edges : ∀ n c l d, τ n = some c → (g.edgesOf n).get? l = some d → τ d = repo.reference? c l

/-- Nothing is taken back, nodes keep their edges and codes, classes without code get no new nodes,
and each new node is in the class of an old one or in the class of a code. -/
structure Retypes (g : PatternGraph) (τ : Nat → Option String) (g' : PatternGraph)
    (τ' : Nat → Option String) : Prop where
  extension : g.Extends g'
  ownEdges : ∀ n < g.size, g'.ownEdges n = g.ownEdges n
  typing : ∀ n < g.size, τ' n = τ n
  untyped : ∀ n < g.size, τ n = none → g'.find n = g.find n
  cover : ∀ n, g.size ≤ n → n < g'.size →
    (∃ c, g'.kind n = .bound c) ∨ ∃ i < g.size, g'.find i = g'.find n

theorem Typed.formed (h : Typed repo P τ g pending) : g.Formed := h.ready.formed

theorem kind_of_size_le (hg : g.Formed) (hn : g.size ≤ n) : g.kind n = .unconstrained := by
  rw [PatternGraph.kind, hg.find_of_size_le hn, node, PatternForest.node_of_size_le hn]

theorem kind_lt_size (hg : g.Formed) (hkind : g.kind n = .bound c) : n < g.size := by
  by_contra hn
  rw [kind_of_size_le hg (Nat.le_of_not_lt hn)] at hkind
  cases hkind

/-- A class that is bound to a code stays so. -/
theorem Extends.kind_bound (hext : g.Extends g') (hg : g.Formed) (hg' : g'.Formed)
    (hc : g.kind n = .bound c) : g'.kind n = .bound c := by
  have hnode : (g'.node (g.find n)).kind = .bound c := by
    rw [hext.node _ (lt_size_of_kind hc)]
    exact hc
  rw [kind_congr (hext.find n (g.find n) (hg.find_find n).symm)]
  exact hg'.kind_of_bound hnode

theorem Retypes.refl (g : PatternGraph) (τ : Nat → Option String) : Retypes g τ g τ where
  extension := .refl g
  ownEdges _ _ := rfl
  typing _ _ := rfl
  untyped _ _ _ := rfl
  cover _ hn hlt := absurd hlt (Nat.not_lt.2 hn)

theorem Retypes.trans (hg : Retypes g τ g₁ σ) (hh : Retypes g₁ σ g' τ') (hg₁ : g₁.Formed)
    (hg' : g'.Formed) : Retypes g τ g' τ' where
  extension := hg.extension.trans hh.extension
  ownEdges n hn := by
    rw [hh.ownEdges n (hn.trans_le hg.extension.size_le), hg.ownEdges n hn]
  typing n hn := by rw [hh.typing n (hn.trans_le hg.extension.size_le), hg.typing n hn]
  untyped n hn hτ := by
    rw [hh.untyped n (hn.trans_le hg.extension.size_le) ((hg.typing n hn).trans hτ),
      hg.untyped n hn hτ]
  cover n hn hlt := by
    have hmiddle (m : Nat) (hm : m < g₁.size) :
        (∃ c, g'.kind m = .bound c) ∨ ∃ i < g.size, g'.find i = g'.find m := by
      by_cases hold : m < g.size
      · exact .inr ⟨m, hold, rfl⟩
      · rcases hg.cover m (Nat.le_of_not_lt hold) hm with ⟨c, hc⟩ | ⟨i, hi, him⟩
        · exact .inl ⟨c, hh.extension.kind_bound hg₁ hg' hc⟩
        · exact .inr ⟨i, hi, hh.extension.find i m him⟩
    by_cases hm : n < g₁.size
    · exact hmiddle n hm
    · rcases hh.cover n (Nat.le_of_not_lt hm) hlt with hbound | ⟨i, hi, hin⟩
      · exact .inl hbound
      · rcases hmiddle i hi with ⟨c, hc⟩ | ⟨j, hj, hji⟩
        · exact .inl ⟨c, (kind_congr hin).symm.trans hc⟩
        · exact .inr ⟨j, hj, hji.trans hin⟩

section Joining

/-- The typing once classes are joined: the new root is to be their code. -/
def joinTyping (τ : Nat → Option String) (g : PatternGraph) (c : String) (n : Nat) :
    Option String := if n = g.size then some c else τ n

theorem joinTyping_of_ne (hn : n ≠ g.size) : joinTyping τ g c n = τ n := if_neg hn

theorem joinTyping_eq_some_iff {d : String} : joinTyping τ g c n = some d ↔
    n = g.size ∧ d = c ∨ n ≠ g.size ∧ τ n = some d := by
  unfold joinTyping
  split_ifs with hn <;> simp [hn, eq_comm]

variable (h : Typed repo P τ g (ids :: rest)) (hc : ∀ id ∈ ids, τ id = some c)
include h hc

theorem Typed.root_eq (hroots : roots = ascending (ids.map g.find)) :
    ∀ r ∈ roots, τ r = some c := by
  intro r hr
  rw [hroots, mem_ascending] at hr
  obtain ⟨id, hid, rfl⟩ := List.mem_map.1 hr
  rw [h.classes, hc id hid]

variable (hP : Shape.Discipline repo P) (hroots : roots = ascending (ids.map g.find))
  (hseveral : 2 ≤ roots.length) (hjoin : Shape.IsJoin repo (roots.map g.shape) joined)
include hroots

omit hc in
theorem Typed.areRoots : g.AreRoots roots := h.formed.areRoots_of_eq h.ready.head_lt hroots

/-- The code of a node of the joined classes. -/
theorem Typed.eq_of_find_mem (hn : g.find n ∈ roots) : τ n = some c := by
  rw [← h.classes n]
  exact h.root_eq hc hroots _ hn

include hP hseveral hjoin

/-- The join of classes that are to be one code goes with the code. -/
theorem Typed.shape_join : P joined c := by
  obtain ⟨r, hr⟩ := List.exists_mem_of_length_pos (Nat.zero_lt_of_lt hseveral)
  refine hP.join _ _ _ _ hjoin (List.mem_map_of_mem hr) fun s hs => ?_
  obtain ⟨r', hr', rfl⟩ := List.mem_map.1 hs
  exact h.shapes r' c (h.root_eq hc hroots r' hr')

/-- What comes under a label of joined classes is where one of them leads to under the label. -/
theorem Typed.exists_edge {d : Nat} (hd : d ∈ g.arrivals repo joined.kind roots l) :
    (repo.reference? c l).isSome ∧ ∃ r ∈ roots, (g.edgesOf r).get? l = some d := by
  obtain ⟨root, hroot, k, hk, rfl⟩ := mem_arrivals.1 hd
  have hτ := h.root_eq hc hroots root hroot
  rw [← edgesOf_of_root (h.areRoots hroots root hroot).2] at hk
  have hin : (repo.reference? c k).isSome :=
    hP.reference _ _ _ (h.shapes root c hτ) (NameMap.contains_map.2 (NameMap.contains_of_get? hk))
  rw [hP.memberLabel _ _ _ (h.shape_join hc hP hroots hseveral hjoin) hin]
  exact ⟨hin, root, hroot, hk⟩

/-- What edges under one label of joined classes lead to is to be one code. -/
theorem Typed.arrival_eq {d : Nat} (hd : d ∈ g.arrivals repo joined.kind roots l) :
    τ d = repo.reference? c l ∧ (repo.reference? c l).isSome := by
  obtain ⟨hin, root, hroot, hk⟩ := h.exists_edge hc hP hroots hseveral hjoin hd
  exact ⟨h.edges root c l d (h.root_eq hc hroots root hroot) hk, hin⟩

omit hc hP hseveral in
theorem Typed.shape_joinRoots (n : Nat) : (g.joinRoots repo joined.kind rule roots).shape n =
    if g.find n ∈ roots ∨ n = g.size then joined else g.shape n := by
  have hare := h.areRoots hroots
  rw [shape_eq_ownShape, ownShape_joinRoots h.formed hare hjoin, h.formed.find_joinRoots hare]
  by_cases hin : g.find n ∈ roots
  · simp [hin]
  · by_cases hn : n = g.size
    · simp [hn, h.formed.find_of_size_le]
    · rw [if_neg hin, if_neg (h.formed.find_ne_size hn), if_neg (by simp [hin, hn]),
        ← shape_eq_ownShape]

omit hc hP hseveral hjoin in
theorem Typed.edgesOf_joinRoots (hn : g.find n ∈ roots ∨ n = g.size) :
    (g.joinRoots repo joined.kind rule roots).edgesOf n =
      (g.targets repo joined.kind roots).map (·.1) := by
  have hare := h.areRoots hroots
  rcases hn with hin | rfl
  · exact h.formed.edgesOf_joinRoots_of_mem hare hin
  · exact h.formed.edgesOf_joinRoots_size hare

omit hP hseveral hjoin in
/-- The joined classes and their new root are to be the code. -/
theorem Typed.joinTyping_of_joined (hn : g.find n ∈ roots ∨ n = g.size) :
    joinTyping τ g c n = some c := by
  unfold joinTyping
  split_ifs with hsize
  · rfl
  · exact h.eq_of_find_mem hc hroots (hn.resolve_right hsize)

omit hP hseveral hjoin in
theorem Typed.joinTyping_cases {d : String} (hn : joinTyping τ g c n = some d) :
    (g.find n ∈ roots ∨ n = g.size) ∧ d = c ∨
      ¬(g.find n ∈ roots ∨ n = g.size) ∧ τ n = some d := by
  by_cases hin : g.find n ∈ roots ∨ n = g.size
  · rw [h.joinTyping_of_joined hc hroots hin, Option.some.injEq] at hn
    exact .inl ⟨hin, hn.symm⟩
  · rw [joinTyping_of_ne fun hsize => hin (.inr hsize)] at hn
    exact .inr ⟨hin, hn⟩

omit hc hP hroots hseveral hjoin in
/-- What is still to become one class keeps its code. -/
theorem Typed.joinTyping_of_pending {met : List Nat} (hmet : met ∈ rest) :
    ∀ i ∈ met, joinTyping τ g c i = τ i := fun i hi =>
  joinTyping_of_ne (h.ready.tail.pending_lt met hmet i hi).ne

/-- What meets at the new root is to be what the joined code refers to by one label. -/
theorem Typed.exists_label_of_meeting {met : List Nat}
    (hmet : met ∈ meetings (g.targets repo joined.kind roots)) :
    ∃ l, met = g.arrivals repo joined.kind roots l ∧
      ∀ i ∈ met, joinTyping τ g c i = τ i ∧ τ i = repo.reference? c l := by
  have hlt := h.formed.lt_size_of_mem_meetings hmet
  obtain ⟨l, rfl⟩ := exists_label_of_mem_meetings hmet
  exact ⟨l, rfl, fun i hi =>
    ⟨joinTyping_of_ne (hlt i hi).ne, (h.arrival_eq hc hP hroots hseveral hjoin hi).1⟩⟩

/-- What meets at the new root is to be one code, and so is what was to become one class before. -/
theorem Typed.pending_joinRoots :
    ∀ ids' ∈ meetings (g.targets repo joined.kind roots) ++ rest,
      ∃ d, ∀ id ∈ ids', joinTyping τ g c id = some d := by
  intro ids' hids'
  rcases List.mem_append.1 hids' with hmeet | hrest
  · obtain ⟨l, rfl, hτ⟩ := h.exists_label_of_meeting hc hP hroots hseveral hjoin hmeet
    cases hr : repo.reference? c l with
    | none =>
      refine ⟨c, fun id hid => ?_⟩
      have hin := (h.arrival_eq hc hP hroots hseveral hjoin hid).2
      simp [hr] at hin
    | some r => exact ⟨r, fun id hid => by rw [(hτ id hid).1, (hτ id hid).2, hr]⟩
  · obtain ⟨d, hd⟩ := h.pending ids' (List.mem_cons_of_mem _ hrest)
    exact ⟨d, fun id hid => (h.joinTyping_of_pending hrest id hid).trans (hd id hid)⟩

/-- Joining classes that are to be one code keeps the typing faithful. -/
theorem Typed.joinRoots (hready : Ready (g.joinRoots repo joined.kind rule roots,
    meetings (g.targets repo joined.kind roots) ++ rest)) :
    Typed repo P (joinTyping τ g c) (g.joinRoots repo joined.kind rule roots)
      (meetings (g.targets repo joined.kind roots) ++ rest) := by
  have hg := h.formed
  have hare := h.areRoots hroots
  have hshape (n : Nat) : (g.joinRoots repo joined.kind rule roots).shape n = _ :=
    h.shape_joinRoots hroots hjoin n
  constructor
  case ready => exact hready
  case classes =>
    intro n
    rw [hg.find_joinRoots hare]
    split_ifs with hin
    · rw [h.joinTyping_of_joined hc hroots (.inl hin), h.joinTyping_of_joined hc hroots (.inr rfl)]
    · by_cases hn : n = g.size
      · rw [hn, hg.find_of_size_le le_rfl]
      · rw [joinTyping_of_ne hn, joinTyping_of_ne (hg.find_ne_size hn), h.classes]
  case pending => exact h.pending_joinRoots hc hP hroots hseveral hjoin
  case lt_size =>
    intro n d hn
    rw [size_joinRoots]
    rcases joinTyping_eq_some_iff.1 hn with ⟨rfl, -⟩ | ⟨-, hn⟩
    · exact Nat.lt_succ_self _
    · exact Nat.lt_succ_of_lt (h.lt_size n d hn)
  case known =>
    intro n d hn
    rcases h.joinTyping_cases hc hroots hn with ⟨-, rfl⟩ | ⟨-, hn⟩
    · obtain ⟨r, hr⟩ := List.exists_mem_of_length_pos (Nat.zero_lt_of_lt hseveral)
      exact h.known r d (h.root_eq hc hroots r hr)
    · exact h.known n d hn
  case bound =>
    intro n d hn
    change ((g.joinRoots repo joined.kind rule roots).shape n).kind = .bound d at hn
    rw [hshape] at hn
    split_ifs at hn with hin
    · have hjoined := h.shape_join hc hP hroots hseveral hjoin
      rw [h.joinTyping_of_joined hc hroots hin, hP.eq_of_bound _ _ _ hjoined hn]
    · rw [joinTyping_of_ne fun hsize => hin (.inr hsize)]
      exact h.bound n d hn
  case shapes =>
    intro n d hn
    rw [hshape]
    rcases h.joinTyping_cases hc hroots hn with ⟨hin, rfl⟩ | ⟨hin, hn⟩
    · rw [if_pos hin]
      exact h.shape_join hc hP hroots hseveral hjoin
    · rw [if_neg hin]
      exact h.shapes n d hn
  case edges =>
    intro n d l t hn ht
    rcases h.joinTyping_cases hc hroots hn with ⟨hin, rfl⟩ | ⟨hin, hn⟩
    · rw [h.edgesOf_joinRoots hroots hin] at ht
      have harrives := mem_arrivals_of_get?_targets ht
      obtain ⟨root, -, k, hk, -⟩ := mem_arrivals.1 harrives
      rw [joinTyping_of_ne (hg.targets_lt root k t hk).ne]
      exact (h.arrival_eq hc hP hroots hseveral hjoin harrives).1
    · rw [hg.edgesOf_joinRoots_of_notMem hare (h.lt_size n d hn) fun hfind => hin (.inl hfind)]
        at ht
      rw [joinTyping_of_ne (hg.targets_lt _ l t ht).ne]
      exact h.edges n d l t hn ht

omit hP hjoin in
theorem Typed.retypes_joinRoots :
    Retypes g τ (g.joinRoots repo joined.kind rule roots) (joinTyping τ g c) where
  extension := by
    have hg := h.formed
    apply Extends.of_ownEdges_eq hg
    · rw [size_joinRoots]
      omega
    · exact fun n hn => by rw [node_joinRoots, if_neg hn.ne]
    · exact fun n hn => by rw [ownEdges_joinRoots hg.edges_size, if_neg hn.ne]
    · exact fun i j hij => hg.find_joinRoots_eq (h.areRoots hroots) hij
    · exact fun _ _ hid => hid
  ownEdges n hn := by rw [ownEdges_joinRoots h.formed.edges_size, if_neg hn.ne]
  typing n hn := joinTyping_of_ne hn.ne
  untyped n _ hτ := by
    refine h.formed.find_joinRoots_of_notMem (h.areRoots hroots) fun hin => ?_
    cases hτ.symm.trans (h.eq_of_find_mem hc hroots hin)
  cover n hn hlt := by
    rw [size_joinRoots] at hlt
    obtain rfl : n = g.size := by omega
    obtain ⟨r, hr⟩ := List.exists_mem_of_length_pos (Nat.zero_lt_of_lt hseveral)
    have hare := h.areRoots hroots
    refine .inr ⟨r, (hare r hr).1, ?_⟩
    rw [h.formed.find_joinRoots_size hare, h.formed.find_joinRoots_of_mem hare]
    rwa [hare.find_eq hr]

omit hP hjoin in
/-- A class that is bound stays so when classes are joined. -/
theorem Typed.kind_joinRoots_of_bound {d : String}
    (hg' : (g.joinRoots repo joined.kind rule roots).Formed) (hn : g.kind n = .bound d) :
    (g.joinRoots repo joined.kind rule roots).kind n = .bound d :=
  (h.retypes_joinRoots hc hroots hseveral).extension.kind_bound h.formed hg' hn

end Joining

section Merging

/-- Nodes that are of one class already need not be merged. -/
theorem Typed.tail (h : Typed repo P τ g (ids :: rest)) : Typed repo P τ g rest where
  ready := h.ready.tail
  classes := h.classes
  pending ids' hids' := h.pending ids' (List.mem_cons_of_mem _ hids')
  lt_size := h.lt_size
  known := h.known
  bound := h.bound
  shapes := h.shapes
  edges := h.edges

theorem Typed.mergeStep (hP : Shape.Discipline repo P) (h : Typed repo P τ g pending)
    (hstep : MergeStep repo rule (g, pending) (g', pending')) :
    ∃ τ', Typed repo P τ' g' pending' ∧ Retypes g τ g' τ' := by
  have hready := hstep.ready h.ready
  cases hstep with
  | same hsame => exact ⟨τ, h.tail, .refl g τ⟩
  | join hroots hseveral hjoin hconflict =>
    obtain ⟨c, hc⟩ := h.pending _ List.mem_cons_self
    exact ⟨_, h.joinRoots hc hP hroots hseveral hjoin hready,
      h.retypes_joinRoots hc hroots hseveral⟩

theorem Typed.mergeRun (hP : Shape.Discipline repo P) (h : Typed repo P τ g pending)
    (hrun : MergeRun repo rule (g, pending) (g', pending')) :
    ∃ τ', Typed repo P τ' g' pending' ∧ Retypes g τ g' τ' := by
  generalize ht : (g', pending') = t at hrun
  induction hrun generalizing g' pending' with
  | refl =>
    obtain ⟨rfl, rfl⟩ := Prod.mk.inj ht
    exact ⟨τ, h, .refl g' τ⟩
  | tail hrun hstep ih =>
    subst ht
    obtain ⟨σ, hσ, hretypes⟩ := ih rfl
    obtain ⟨τ', hτ', hretypes'⟩ := hσ.mergeStep hP hstep
    exact ⟨τ', hτ', hretypes.trans hretypes' hσ.formed hτ'.formed⟩

theorem Typed.cons (h : Typed repo P τ g []) (hc : ∀ id ∈ ids, τ id = some c) :
    Typed repo P τ g [ids] where
  ready := ready_singleton h.formed fun id hid => h.lt_size id c (hc id hid)
  classes := h.classes
  pending ids' hids' := by
    obtain rfl := List.mem_singleton.1 hids'
    exact ⟨c, hc⟩
  lt_size := h.lt_size
  known := h.known
  bound := h.bound
  shapes := h.shapes
  edges := h.edges

/-- Classes that are to be one code can be merged if their shapes go together. -/
theorem Typed.mergeable_of_merged (hP : Shape.Discipline repo P)
    (h : Typed repo P τ g (ids :: rest))
    (hshapes : ∀ first second others, ascending (ids.map g.find) = first :: second :: others →
      ∃ joined, g.mergeShapes repo (g.shape first) (second :: others) = .ok joined) :
    Mergeable repo g ids := by
  intro first second others hroots
  obtain ⟨joined, hjoined⟩ := hshapes first second others hroots
  obtain ⟨c, hc⟩ := h.pending ids List.mem_cons_self
  have hjoin := isJoin_of_mergeShapes hjoined
  have hare := h.formed.areRoots_of_eq h.ready.head_lt hroots.symm
  refine ⟨joined, hjoined, conflict_eq_none_of_isJoin hare hjoin, fun d hkind => ?_⟩
  have hd := h.shape_join hc hP hroots.symm (by simp) hjoin
  obtain rfl := hP.eq_of_bound _ _ _ hd hkind
  exact (h.known first d (h.root_eq hc hroots.symm first List.mem_cons_self)).canonical

/-- Classes that depict one code can be merged. -/
theorem Typed.mergeable (h : Typed repo (Shape.Depicts repo) τ g (ids :: rest)) :
    Mergeable repo g ids := by
  obtain ⟨c, hc⟩ := h.pending ids List.mem_cons_self
  refine h.mergeable_of_merged (Shape.discipline_depicts repo) fun first second others hroots => ?_
  have hshape (r : Nat) (hr : r ∈ first :: second :: others) : (g.shape r).Depicts repo c :=
    h.shapes r c (h.root_eq hc hroots.symm r hr)
  exact exists_mergeShapes (hshape first List.mem_cons_self)
    fun r hr => hshape r (List.mem_cons_of_mem _ hr)

/-- No steps lead to classes that cannot be merged. -/
theorem Typed.not_getsStuck (h : Typed repo (Shape.Depicts repo) τ g pending) :
    ¬GetsStuck repo rule (g, pending) := by
  rintro ⟨g', ids, rest, hrun, hstuck⟩
  obtain ⟨τ', hτ', -⟩ := h.mergeRun (Shape.discipline_depicts repo) hrun
  exact hstuck hτ'.mergeable

/-- Nodes that are to be one code are merged without fail unless steps lead to classes that cannot
be merged. -/
theorem Typed.unify_outcome_of_not_getsStuck (hP : Shape.Discipline repo P)
    (h : Typed repo P τ g []) (hc : ∀ id ∈ ids, τ id = some c)
    (hfree : ¬GetsStuck repo rule (g, [ids])) :
    Build.Outcome (Build.unify repo rule ids) g
      (fun _ g' => (∃ τ', Typed repo P τ' g' [] ∧ Retypes g τ g' τ') ∧
        ∀ i ∈ ids, ∀ j ∈ ids, g'.find i = g'.find j)
      fun _ _ => False := by
  have hids := (h.cons hc).ready.head_lt
  refine (Build.unify_total h.formed hids hfree).imp
    (fun _ g' hm => ⟨(h.cons hc).mergeRun hP (hm.run []), fun i hi j hj => ?_⟩) fun _ _ h => h
  exact hm.find_eq h.formed hids hi hj

/-- Nodes that are to depict one code are merged without fail. -/
theorem Typed.unify_outcome (h : Typed repo (Shape.Depicts repo) τ g [])
    (hc : ∀ id ∈ ids, τ id = some c) :
    Build.Outcome (Build.unify repo rule ids) g
      (fun _ g' => (∃ τ', Typed repo (Shape.Depicts repo) τ' g' [] ∧ Retypes g τ g' τ') ∧
        ∀ i ∈ ids, ∀ j ∈ ids, g'.find i = g'.find j)
      fun _ _ => False :=
  h.unify_outcome_of_not_getsStuck (Shape.discipline_depicts repo) hc (h.cons hc).not_getsStuck

end Merging

section Pushing

/-- A new pattern that goes with a code is to be the code. -/
theorem Typed.pushNode (hP : Shape.Discipline repo P) (h : Typed repo P τ g [])
    {edges : NameMap Nat} (hkind : kind.bound? = none) (hc : repo.Known c)
    (hshape : P ⟨kind, edges.map fun _ => ()⟩ c)
    (hedges : ∀ l d, edges.get? l = some d → τ d = repo.reference? c l) :
    Typed repo P (joinTyping τ g c) (g.pushNode kind edges).2 [] := by
  have hg := h.formed
  have hlt (l : String) (d : Nat) (hd : edges.get? l = some d) : d < g.size := by
    have hin := hP.reference _ _ l hshape (NameMap.contains_map.2 (NameMap.contains_of_get? hd))
    obtain ⟨r, hr⟩ := Option.isSome_iff_exists.1 hin
    exact h.lt_size d r ((hedges l d hd).trans hr)
  constructor
  case ready => exact ready_nil_iff.2 (hg.pushNode hlt hkind)
  case classes =>
    intro n
    rw [hg.find_pushNode]
    by_cases hn : n = g.size
    · rw [hn, hg.find_of_size_le le_rfl]
    · rw [joinTyping_of_ne hn, joinTyping_of_ne (hg.find_ne_size hn), h.classes]
  case pending => simp
  case lt_size =>
    intro n d hn
    rw [size_pushNode]
    rcases joinTyping_eq_some_iff.1 hn with ⟨rfl, -⟩ | ⟨-, hn⟩
    · exact Nat.lt_succ_self _
    · exact Nat.lt_succ_of_lt (h.lt_size n d hn)
  case known =>
    intro n d hn
    rcases joinTyping_eq_some_iff.1 hn with ⟨-, rfl⟩ | ⟨-, hn⟩
    · exact hc
    · exact h.known n d hn
  case bound =>
    intro n d hn
    rw [hg.kind_pushNode] at hn
    split_ifs at hn with hsize
    · rw [hn] at hkind
      cases hkind
    · rw [joinTyping_of_ne hsize, h.bound n d hn]
  case shapes =>
    intro n d hn
    rw [hg.shape_pushNode]
    rcases joinTyping_eq_some_iff.1 hn with ⟨rfl, rfl⟩ | ⟨hne, hn⟩
    · rwa [if_pos rfl]
    · rw [if_neg hne]
      exact h.shapes n d hn
  case edges =>
    intro n d l t hn ht
    rw [hg.edgesOf_pushNode] at ht
    rcases joinTyping_eq_some_iff.1 hn with ⟨rfl, rfl⟩ | ⟨hne, hn⟩
    · rw [if_pos rfl] at ht
      rw [joinTyping_of_ne (hlt l t ht).ne, hedges l t ht]
    · rw [if_neg hne] at ht
      rw [joinTyping_of_ne (hg.targets_lt _ l t ht).ne, h.edges n d l t hn ht]

end Pushing

section Binding
variable {d id : Nat} {name : String}

theorem Seeded.contains_iff (hs : g.Seeded repo c n) :
    (g.ownEdges n).contains l ↔ (repo.reference? c l).isSome := by
  obtain ⟨references, hrefs, hedges, hlabels⟩ := hs
  constructor
  · exact fun hl => (Repository.mem_labels_iff hrefs).1 (hlabels l hl)
  · intro hl
    obtain ⟨r, hr⟩ := Option.isSome_iff_exists.1 hl
    obtain ⟨-, d, -, -, hd⟩ := hedges (l, r) ((Repository.mem_references_iff hrefs).2 hr)
    exact NameMap.contains_of_get? hd

/-- The edges of the pattern of a code lead to the patterns of what the code refers to. -/
theorem Seeded.exists_recorded (hs : g.Seeded repo c n) (hrepo : repo.Consistent)
    (hc : repo.Known c) (hd : (g.ownEdges n).get? l = some d) :
    ∃ r, repo.reference? c l = some r ∧ g.bound.get? r = some d := by
  obtain ⟨r, hr⟩ := Option.isSome_iff_exists.1 (hs.contains_iff.1 (NameMap.contains_of_get? hd))
  obtain ⟨references, hrefs, hedges, -⟩ := hs
  obtain ⟨r', d', hr', hd', hget⟩ := hedges (l, r) ((Repository.mem_references_iff hrefs).2 hr)
  obtain rfl : r = r' := Option.some.inj ((hrepo.reference_known hc hr).canonical.symm.trans hr')
  obtain rfl : d = d' := Option.some.inj (hd.symm.trans hget)
  exact ⟨r, hr, hd'⟩

/-- The typing once codes are bound: new nodes are to be what they are bound to. -/
def extendTyping (τ : Nat → Option String) (g g' : PatternGraph) (n : Nat) : Option String :=
  if n < g.size then τ n else (g'.node n).kind.bound?

theorem extendTyping_of_lt (hn : n < g.size) : extendTyping τ g g' n = τ n := if_pos hn

variable (hb : Build.Binds repo name g id g')
include hb

theorem extendTyping_cases (hn : extendTyping τ g g' n = some c) :
    n < g.size ∧ τ n = some c ∨ g.size ≤ n ∧ g'.bound.get? c = some n := by
  unfold extendTyping at hn
  split_ifs at hn with hlt
  · exact .inl ⟨hlt, hn⟩
  · have hkind : (g'.node n).kind = .bound c := by
      cases hk : (g'.node n).kind <;> simp_all [PatternKind.bound?]
    obtain ⟨d, hd⟩ := hb.grows.fresh n (Nat.le_of_not_lt hlt) (lt_size_of_kind hkind)
    obtain rfl : d = c := PatternKind.bound.inj ((hb.formed.codes d n hd).symm.trans hkind)
    exact .inr ⟨Nat.le_of_not_lt hlt, hd⟩

/-- An old class says what it said. -/
theorem Formed.shape_of_binds (hg : g.Formed) (hn : n < g.size) : g'.shape n = g.shape n := by
  have hlt := hg.find_lt hn
  rw [shape_eq_ownShape, shape_eq_ownShape, hb.grows.find hg hb.formed, ownShape, ownShape,
    hb.grows.node _ hlt, hb.grows.ownEdges _ hlt]

/-- A new pattern is its own class. -/
theorem Formed.find_of_binds (hg : g.Formed) (hn : g.size ≤ n) : g'.find n = n := by
  rw [hb.grows.find hg hb.formed, hg.find_of_size_le hn]

/-- A new pattern has the edges of its code. -/
theorem Formed.seeded_of_binds (hg : g.Formed) (hn : g.size ≤ n)
    (hc : g'.bound.get? c = some n) : g'.Seeded repo c n := by
  refine (hb.seeded c n hc).resolve_left fun hold => ?_
  exact Nat.not_lt.2 hn (lt_size_of_kind (hg.codes c n hold))

variable (h : Typed repo P τ g [])
include h

theorem Typed.extendTyping_of_recorded (hc : g'.bound.get? c = some n) :
    extendTyping τ g g' n = some c := by
  have hkind := hb.formed.codes c n hc
  unfold extendTyping
  split_ifs with hlt
  · rw [hb.grows.node n hlt] at hkind
    exact h.bound n c (h.formed.kind_of_bound hkind)
  · rw [hkind]
    rfl

variable (hrepo : repo.Consistent)
include hrepo

theorem Typed.known_of_extendTyping (hn : extendTyping τ g g' n = some c) : repo.Known c := by
  rcases extendTyping_cases hb hn with ⟨-, hn⟩ | ⟨-, hc⟩
  · exact h.known n c hn
  · rcases hb.grows.known c (NameMap.contains_of_get? hc) with hin | ⟨name, hname⟩
    · obtain ⟨m, hm⟩ := NameMap.contains_iff.1 hin
      exact h.known m c (h.bound m c (h.formed.kind_of_bound (h.formed.codes c m hm)))
    · exact hrepo.canonical_known hname

/-- New patterns of codes are to be their codes, and the other nodes what they were. -/
theorem Typed.typed_of_binds (hP : Shape.Discipline repo P) :
    Typed repo P (extendTyping τ g g') g' [] := by
  have hg := h.formed
  have hfind := hb.grows.find hg hb.formed
  have hnew {n : Nat} (hn : ¬n < g.size) : g'.find n = n :=
    hg.find_of_binds hb (Nat.le_of_not_lt hn)
  refine ⟨ready_nil_iff.2 hb.formed, fun n => ?_, by simp, fun n c hn => ?_,
    fun n c hn => h.known_of_extendTyping hb hrepo hn, fun n c hkind => ?_, fun n c hn => ?_,
    fun n c l d hn hd => ?_⟩
  · by_cases hn : n < g.size
    · rw [hfind, extendTyping_of_lt hn, extendTyping_of_lt (hg.find_lt hn), h.classes]
    · rw [hnew hn]
  · rcases extendTyping_cases hb hn with ⟨hlt, -⟩ | ⟨-, hc⟩
    · exact hlt.trans_le hb.grows.size_le
    · exact lt_size_of_kind (hb.formed.codes c n hc)
  · by_cases hn : n < g.size
    · rw [extendTyping_of_lt hn]
      refine h.bound n c (hkind ▸ ?_)
      exact congrArg Shape.kind (hg.shape_of_binds hb hn).symm
    · rw [PatternGraph.kind, hnew hn] at hkind
      rw [extendTyping, if_neg hn, hkind]
      rfl
  · rcases extendTyping_cases hb hn with ⟨hlt, hn⟩ | ⟨hle, hc⟩
    · rw [hg.shape_of_binds hb hlt]
      exact h.shapes n c hn
    · have hkind := hb.formed.codes c n hc
      rw [shape_eq_ownShape, hg.find_of_binds hb hle]
      refine hP.code _ _ ⟨fun x => ?_, .inl hkind⟩ hkind
      rw [contains_ownShape, (hg.seeded_of_binds hb hle hc).contains_iff]
  · have hknown := h.known_of_extendTyping hb hrepo hn
    rcases extendTyping_cases hb hn with ⟨hlt, hn⟩ | ⟨hle, hc⟩
    · rw [edgesOf, hfind, hb.grows.ownEdges _ (hg.find_lt hlt)] at hd
      rw [extendTyping_of_lt (hg.targets_lt _ l d hd)]
      exact h.edges n c l d hn hd
    · rw [edgesOf, hg.find_of_binds hb hle] at hd
      obtain ⟨r, hr, hrd⟩ := (hg.seeded_of_binds hb hle hc).exists_recorded hrepo hknown hd
      rw [h.extendTyping_of_recorded hb hrd, hr]

omit hrepo in
theorem Typed.retypes_of_binds : Retypes g τ g' (extendTyping τ g g') where
  extension := h.formed.extends_of_binds hb
  ownEdges := hb.grows.ownEdges
  typing _ hn := extendTyping_of_lt hn
  untyped n _ _ := hb.grows.find h.formed hb.formed n
  cover n hn hlt := by
    obtain ⟨c, hc⟩ := hb.grows.fresh n hn hlt
    exact .inl ⟨c, hb.formed.kind_of_bound (hb.formed.codes c n hc)⟩

end Binding

end PatternGraph

section Knowing
variable {g : PatternGraph} {repo : Repository} {name : String}

theorem Repository.Known.exists_references (hrepo : repo.Consistent) (hname : repo.Known name) :
    ∃ references, repo.references? name = some references := by
  rcases hname with hbuiltin | hin
  · exact ⟨[], references?_of_isBuiltin hbuiltin⟩
  · obtain ⟨code, hcode⟩ := NameMap.contains_iff.1 hin
    rw [references?, hrepo.find_of_get? hcode]
    cases code <;> exact ⟨_, rfl⟩

namespace Build

/-- Nothing but the bound on the steps can keep a known code from being bound. -/
theorem bindCode_outcome_of_known (hrepo : repo.Consistent) (hname : repo.Known name)
    (fuel : Nat) :
    Outcome (bindCode repo fuel name) g (fun _ _ => True) fun e _ => e = .exhausted := by
  induction fuel generalizing g name with
  | zero => rfl
  | succ fuel ih =>
    rw [bindCode, hname.canonical]
    dsimp only
    rw [outcome_bind, outcome_get]
    cases g.bound.get? name with
    | some id => trivial
    | none =>
      obtain ⟨references, hrefs⟩ := hname.exists_references hrepo
      simp only [outcome_bind, outcome_addNode, outcome_modify, hrefs]
      refine outcome_forM (I := fun todo _ => ∀ e ∈ todo, repo.Known e.2) ?_ ?_ fun _ _ => trivial
      · rintro ⟨label, code⟩ todo g' hknown
        rw [List.forall_mem_cons] at hknown
        rw [outcome_bind]
        exact (ih hknown.1).imp (fun _ _ _ => hknown.2) fun _ _ h => h
      · rintro ⟨label, code⟩ he
        exact hrepo.reference_known hname ((Repository.mem_references_iff hrefs).1 he)

/-- Known codes are bound without fail. -/
theorem boundNode_outcome_of_known (hrepo : repo.Consistent) (hname : repo.Known name)
    (hg : g.Formed) : Outcome (boundNode repo name) g (Binds repo name g) fun _ _ => False :=
  ((boundNode_outcome hg).and (bindCode_outcome_of_known hrepo hname _)).imp
    (fun _ _ h => h.1) fun _ _ h => h.1 h.2

/-- A name is bound like the code it stands for. -/
theorem boundNode_of_canonical {c : String} (hc : repo.Known c)
    (hname : repo.canonical name = some c) :
    boundNode repo name = boundNode repo c := by
  rw [boundNode, boundNode, bindCode, bindCode, hname, hc.canonical]

end Build

end Knowing

end StructuralTyping
