import StructuralTyping.Proofs.FormedGraph
import StructuralTyping.Proofs.Outcome

/-!
# Patterns of codes

Asking for the pattern of a code adds roots for the code and for the codes it refers to, as far as
they have none yet, and leaves all else in the graph as it is. Every root that is added has an edge
for each reference of its code, to the pattern of what is referred to. Each code is taken apart at
most once, which bounds the depth of the recursion.
-/
namespace StructuralTyping

namespace Repository
variable {repo : Repository} {name c : String} {references : List (String × String)}

/-- The names that codes are registered under, and those that other names stand for. -/
def names (repo : Repository) : Finset String := (repo.codes.keys ++ repo.aliases.values).toFinset

theorem card_names_le (repo : Repository) :
    repo.names.card ≤ repo.size + repo.aliases.size := by
  calc repo.names.card ≤ (repo.codes.keys ++ repo.aliases.values).length := List.toFinset_card_le _
    _ = repo.size + repo.aliases.size := by
      simp [size, NameMap.keys, NameMap.values, NameMap.size]

theorem references?_of_isBuiltin (h : Text.isBuiltin c) : repo.references? c = some [] := by
  simp [references?, find, canonical, h]

/-- A code that refers to others has one of these names. -/
theorem mem_names_of_references? (h : repo.canonical name = some c)
    (hrefs : repo.references? c = some references) (hne : references ≠ []) : c ∈ repo.names := by
  have hbuiltin : ¬Text.isBuiltin c := fun hc => by
    rw [references?_of_isBuiltin hc, Option.some.injEq] at hrefs
    exact hne hrefs.symm
  rw [names, List.mem_toFinset, List.mem_append]
  unfold canonical at h
  split_ifs at h with hname
  · obtain rfl := Option.some.inj h
    simp only [hbuiltin, Bool.false_or] at hname
    exact .inl (NameMap.mem_keys_iff.2 hname)
  · exact .inr (List.mem_map.2 ⟨(name, c), NameMap.get?_eq_some_iff.1 h, rfl⟩)

theorem nodup_references (hrefs : repo.references? c = some references) :
    (references.map (·.1)).Nodup := by
  unfold references? at hrefs
  split at hrefs
  all_goals cases hrefs
  · exact NameMap.nodup_keys _
  · exact NameMap.nodup_keys _
  · simp
  · simp

end Repository

namespace PatternGraph
variable {g g' h : PatternGraph} {repo : Repository} {name c : String} {id n : Nat}

/-- The names of codes that have no pattern yet. -/
def unbound (g : PatternGraph) (repo : Repository) : Finset String :=
  repo.names.filter (¬g.bound.contains ·)

/-- Nothing in the graph changes, and what is new are roots recorded for codes. -/
structure Grows (repo : Repository) (g g' : PatternGraph) : Prop where
  size_le : g.size ≤ g'.size
  node : ∀ n < g.size, g'.node n = g.node n
  parent? : ∀ n, g'.forest.parent? n = g.forest.parent? n
  ownEdges : ∀ n < g.size, g'.ownEdges n = g.ownEdges n
  bound : ∀ c id, g.bound.get? c = some id → g'.bound.get? c = some id
  fresh : ∀ n, g.size ≤ n → n < g'.size → ∃ c, g'.bound.get? c = some n
  known : ∀ c, g'.bound.contains c → g.bound.contains c ∨ ∃ name, repo.canonical name = some c

/-- The pattern of a code has exactly the edges of the code, to the patterns of other codes. -/
def Seeded (g : PatternGraph) (repo : Repository) (c : String) (id : Nat) : Prop :=
  ∃ references, repo.references? c = some references ∧
    (∀ e ∈ references, ∃ r d, repo.canonical e.2 = some r ∧ g.bound.get? r = some d ∧
      (g.ownEdges id).get? e.1 = some d) ∧
    ∀ l, (g.ownEdges id).contains l → l ∈ references.map (·.1)

section Growing

theorem Grows.refl (g : PatternGraph) : g.Grows repo g where
  size_le := Nat.le_refl _
  node _ _ := rfl
  parent? _ := rfl
  ownEdges _ _ := rfl
  bound _ _ hid := hid
  fresh n hn hlt := by omega
  known _ hc := .inl hc

theorem Grows.trans (hg : g.Grows repo h) (hh : h.Grows repo g') : g.Grows repo g' where
  size_le := hg.size_le.trans hh.size_le
  node n hn := by rw [hh.node n (hn.trans_le hg.size_le), hg.node n hn]
  parent? n := by rw [hh.parent?, hg.parent?]
  ownEdges n hn := by rw [hh.ownEdges n (hn.trans_le hg.size_le), hg.ownEdges n hn]
  bound c id hid := hh.bound c id (hg.bound c id hid)
  fresh n hn hlt := by
    by_cases hn' : n < h.size
    · exact (hg.fresh n hn hn').imp fun c hc => hh.bound c n hc
    · exact hh.fresh n (Nat.le_of_not_lt hn') hlt
  known c hc := by
    rcases hh.known c hc with hc | hc
    · exact hg.known c hc
    · exact .inr hc

theorem Grows.find (hg : g.Formed) (hg' : g'.Formed) (hgrows : g.Grows repo g') (n : Nat) :
    g'.find n = g.find n := hg.ordered.find_congr hg'.ordered hgrows.parent? n

theorem Grows.contains (hgrows : g.Grows repo g') (hc : g.bound.contains c) :
    g'.bound.contains c := by
  obtain ⟨id, hid⟩ := NameMap.contains_iff.1 hc
  exact NameMap.contains_of_get? (hgrows.bound c id hid)

theorem Grows.unbound_subset (hgrows : g.Grows repo g') : g'.unbound repo ⊆ g.unbound repo := by
  intro c hc
  simp only [unbound, Finset.mem_filter] at hc ⊢
  exact ⟨hc.1, fun hc' => hc.2 (hgrows.contains hc')⟩

theorem Seeded.of_ownEdges_eq (hs : g.Seeded repo c id)
    (hbound : ∀ c id, g.bound.get? c = some id → g'.bound.get? c = some id)
    (hown : g'.ownEdges id = g.ownEdges id) : g'.Seeded repo c id := by
  obtain ⟨references, hrefs, hedges, hlabels⟩ := hs
  refine ⟨references, hrefs, fun e he => ?_, fun l hl => hlabels l (hown ▸ hl)⟩
  obtain ⟨r, d, hr, hd, hget⟩ := hedges e he
  exact ⟨r, d, hr, hbound r d hd, by rw [hown, hget]⟩

theorem Seeded.grows (hs : g.Seeded repo c id) (hid : id < g.size) (hgrows : g.Grows repo g') :
    g'.Seeded repo c id := hs.of_ownEdges_eq hgrows.bound (hgrows.ownEdges id hid)

end Growing

section NewCode

/-- The graph with a root for a code, which has no edges yet. -/
def pushCode (g : PatternGraph) (c : String) : PatternGraph :=
  (g.pushNode (.bound c) ∅).2.withCode c g.size

theorem get?_bound_pushCode (r : String) :
    (g.pushCode c).bound.get? r = if r = c then some g.size else g.bound.get? r :=
  NameMap.get?_insert g.bound c r g.size

theorem node_pushCode (n : Nat) :
    (g.pushCode c).node n = if n = g.size then ⟨.bound c, none⟩ else g.node n :=
  @node_pushNode g (.bound c) ∅ n

theorem ownEdges_pushCode (hg : g.Formed) (n : Nat) :
    (g.pushCode c).ownEdges n = if n = g.size then ∅ else g.ownEdges n :=
  @ownEdges_pushNode g (.bound c) ∅ hg.edges_size n

variable (hg : g.Formed) (hc : ¬g.bound.contains c)
include hg hc

theorem Formed.pushCode : (g.pushCode c).Formed := by
  have hnode (n : Nat) (r : String) (h : ((g.pushCode c).node n).kind = .bound r) :
      n = g.size ∧ r = c ∨ n ≠ g.size ∧ (g.node n).kind = .bound r := by
    rw [node_pushCode] at h
    split_ifs at h with hn
    · simp only [PatternKind.bound.injEq] at h
      exact .inl ⟨hn, h.symm⟩
    · exact .inr ⟨hn, h⟩
  have hold (n : Nat) (r : String) (h : (g.node n).kind = .bound r) :
      ((g.pushCode c).node n).kind = .bound r := by
    rw [node_pushCode, if_neg (lt_size_of_kind h).ne, h]
  -- No node was bound to the code before, so its new root is the only one.
  have hnew (n : Nat) (h : (g.node n).kind = .bound c) : False := hc (hg.recorded n c h)
  constructor
  case ordered => exact hg.ordered.add none
  case edges_size =>
    change (g.edges.push ∅).size = (g.pushNode (.bound c) ∅).2.size
    rw [size_pushNode, Array.size_push, hg.edges_size]
  case targets_lt =>
    intro n l d h
    change d < (g.pushNode (.bound c) ∅).2.size
    rw [size_pushNode]
    exact @Formed.pushNode_targets_lt g (.bound c) ∅ hg (by simp) n l d h
  case codes =>
    intro r id hid
    rw [get?_bound_pushCode] at hid
    split_ifs at hid with hr
    · obtain rfl := Option.some.inj hid
      rw [node_pushCode, if_pos rfl, hr]
    · exact hold id r (hg.codes r id hid)
  case recorded =>
    intro n r h
    rw [NameMap.contains_iff]
    simp only [get?_bound_pushCode]
    rcases hnode n r h with ⟨-, rfl⟩ | ⟨-, h⟩
    · exact ⟨g.size, if_pos rfl⟩
    · obtain ⟨id, hid⟩ := NameMap.contains_iff.1 (hg.recorded n r h)
      have hr : r ≠ c := fun hr => hnew n (hr ▸ h)
      exact ⟨id, by rw [if_neg hr, hid]⟩
  case absorbed =>
    intro n p r hp h
    change (g.pushNode (.bound c) ∅).2.forest.parent? n = some p at hp
    rw [parent?_pushNode] at hp
    rcases hnode n r h with ⟨rfl, -⟩ | ⟨-, h⟩
    · exact absurd hp (by simp [hg.ordered.parent?_of_size_le (Nat.le_refl g.size)])
    · exact hold p r (hg.absorbed n p r hp h)
  case unique =>
    intro n m r hn hm h h'
    change (g.pushNode (.bound c) ∅).2.forest.parent? _ = none at hn hm
    rw [parent?_pushNode] at hn hm
    rcases hnode n r h with ⟨rfl, rfl⟩ | ⟨-, h⟩ <;> rcases hnode m r h' with ⟨rfl, hr⟩ | ⟨-, h'⟩
    · rfl
    · exact (hnew m h').elim
    · exact (hnew n (hr ▸ h)).elim
    · exact hg.unique n m r hn hm h h'

theorem Formed.grows_pushCode (hname : repo.canonical name = some c) :
    g.Grows repo (g.pushCode c) where
  size_le := by
    change g.size ≤ (g.pushNode (.bound c) ∅).2.size
    rw [size_pushNode]
    omega
  node n hn := by rw [node_pushCode, if_neg hn.ne]
  parent? n := @parent?_pushNode g (.bound c) ∅ n
  ownEdges n hn := by rw [ownEdges_pushCode hg, if_neg hn.ne]
  bound r id hid := by
    have hr : r ≠ c := fun hr => hc (hr ▸ NameMap.contains_of_get? hid)
    rw [get?_bound_pushCode, if_neg hr, hid]
  fresh n hn hlt := by
    change n < (g.pushNode (.bound c) ∅).2.size at hlt
    rw [size_pushNode] at hlt
    obtain rfl : n = g.size := by omega
    exact ⟨c, by rw [get?_bound_pushCode, if_pos rfl]⟩
  known r hr := by
    obtain ⟨id, hid⟩ := NameMap.contains_iff.1 hr
    rw [get?_bound_pushCode] at hid
    split_ifs at hid with hrc
    · exact .inr ⟨name, hrc ▸ hname⟩
    · exact .inl (NameMap.contains_of_get? hid)

omit hg in
theorem card_unbound_pushCode (hin : c ∈ repo.names) :
    ((g.pushCode c).unbound repo).card < (g.unbound repo).card := by
  apply Finset.card_lt_card
  rw [Finset.ssubset_iff_of_subset]
  · refine ⟨c, by simp [unbound, hin, hc], ?_⟩
    simp [unbound, NameMap.contains, get?_bound_pushCode]
  · intro r hr
    simp only [unbound, Finset.mem_filter] at hr ⊢
    refine ⟨hr.1, fun hr' => hr.2 ?_⟩
    rw [NameMap.contains_iff] at hr' ⊢
    obtain ⟨id, hid⟩ := hr'
    by_cases hrc : r = c
    · exact ⟨g.size, by rw [get?_bound_pushCode, if_pos hrc]⟩
    · exact ⟨id, by rw [get?_bound_pushCode, if_neg hrc, hid]⟩

end NewCode

section Binding

/-- What holds while the edges of a code that was new in `g` are made, and some references are still
to be followed. -/
structure Binding (repo : Repository) (g : PatternGraph) (c : String)
    (references todo : List (String × String)) (h : PatternGraph) : Prop where
  formed : h.Formed
  grows : g.Grows repo h
  recorded : h.bound.get? c = some g.size
  unbound : h.unbound repo ⊆ (g.pushCode c).unbound repo
  suffix : ∃ done, references = done ++ todo ∧
    (∀ e ∈ done, ∃ r d, repo.canonical e.2 = some r ∧ h.bound.get? r = some d ∧
      (h.ownEdges g.size).get? e.1 = some d) ∧
    ∀ l, (h.ownEdges g.size).contains l → l ∈ done.map (·.1)
  seeded : ∀ r id, h.bound.get? r = some id →
    g.bound.get? r = some id ∨ r = c ∨ h.Seeded repo r id

variable {references todo : List (String × String)}

theorem Binding.start (hg : g.Formed) (hc : ¬g.bound.contains c)
    (hname : repo.canonical name = some c) :
    Binding repo g c references references (g.pushCode c) where
  formed := hg.pushCode hc
  grows := hg.grows_pushCode hc hname
  recorded := by rw [get?_bound_pushCode, if_pos rfl]
  unbound := Finset.Subset.refl _
  suffix := by
    refine ⟨[], rfl, by simp, fun l hl => ?_⟩
    rw [ownEdges_pushCode hg, if_pos rfl] at hl
    simp [NameMap.contains] at hl
  seeded r id hid := by
    rw [get?_bound_pushCode] at hid
    split_ifs at hid with hr
    · exact .inr (.inl hr)
    · exact .inl hid

theorem Binding.size_lt (hb : Binding repo g c references todo h) : g.size < h.size :=
  lt_size_of_kind (hb.formed.codes c g.size hb.recorded)

/-- Following a reference may bind further codes; the edge to its pattern is then made. -/
theorem Binding.step {e : String × String} {r : String} {d : Nat}
    (hnodup : (references.map (·.1)).Nodup) (hb : Binding repo g c references (e :: todo) h)
    (hg' : g'.Formed) (hgrows : h.Grows repo g') (hr : repo.canonical e.2 = some r)
    (hd : g'.bound.get? r = some d)
    (hseeded : ∀ r id, g'.bound.get? r = some id →
      h.bound.get? r = some id ∨ g'.Seeded repo r id) :
    Binding repo g c references todo (g'.withEdge g.size e.1 d) := by
  have hlt : g.size < g'.size := hb.size_lt.trans_le hgrows.size_le
  have hlt' : g.size < g'.edges.size := hg'.edges_size ▸ hlt
  have hd' : d < g'.size := lt_size_of_kind (hg'.codes r d hd)
  -- The new edge is one of the root of the code itself, so other patterns keep theirs.
  have hother (n : Nat) (hn : n ≠ g.size) :
      (g'.withEdge g.size e.1 d).ownEdges n = g'.ownEdges n := by
    rw [ownEdges_withEdge hlt', if_neg hn]
  constructor
  case formed => exact hg'.withEdge hlt hd'
  case grows =>
    have hall := hb.grows.trans hgrows
    exact ⟨hall.size_le, hall.node, hall.parent?,
      fun n hn => by rw [hother n hn.ne, hall.ownEdges n hn], hall.bound, hall.fresh, hall.known⟩
  case recorded => exact hgrows.bound c _ hb.recorded
  case unbound => exact hgrows.unbound_subset.trans hb.unbound
  case suffix =>
    obtain ⟨done, hall, hedges, hlabels⟩ := hb.suffix
    refine ⟨done ++ [e], by rw [hall, List.append_assoc]; rfl, fun e' he' => ?_, fun l hl => ?_⟩
    · rcases List.mem_append.1 he' with he' | he'
      · obtain ⟨r', d', hr', hd', hget⟩ := hedges e' he'
        refine ⟨r', d', hr', hgrows.bound r' d' hd', ?_⟩
        have hne : e'.1 ≠ e.1 := by
          rw [hall, List.map_append, List.map_cons] at hnodup
          intro heq
          exact (List.nodup_append.1 hnodup).2.2 e'.1 (List.mem_map_of_mem he') e.1
            List.mem_cons_self heq
        rw [get?_withEdge hlt', if_neg fun h => hne h.2, hgrows.ownEdges _ hb.size_lt, hget]
      · obtain rfl := List.mem_singleton.1 he'
        exact ⟨r, d, hr, hd, by rw [get?_withEdge hlt', if_pos ⟨rfl, rfl⟩]⟩
    · rw [ownEdges_withEdge hlt', if_pos rfl, NameMap.contains_insert] at hl
      rw [List.map_append, List.mem_append]
      rcases hl with rfl | hl
      · exact .inr List.mem_cons_self
      · rw [hgrows.ownEdges _ hb.size_lt] at hl
        exact .inl (hlabels l hl)
  case seeded =>
    intro r' id hid
    by_cases hrc : r' = c
    · exact .inr (.inl hrc)
    have hne : id ≠ g.size := by
      rintro rfl
      have hkind := hg'.codes r' _ hid
      rw [hg'.codes c _ (hgrows.bound c _ hb.recorded), PatternKind.bound.injEq] at hkind
      exact hrc hkind.symm
    have hkept (hs : g'.Seeded repo r' id) : (g'.withEdge g.size e.1 d).Seeded repo r' id :=
      hs.of_ownEdges_eq (fun _ _ h => h) (hother id hne)
    rcases hseeded r' id hid with hid' | hs
    · rcases hb.seeded r' id hid' with hold | hrc' | hs
      · exact .inl hold
      · exact absurd hrc' hrc
      · have hlt := lt_size_of_kind (hb.formed.codes r' id hid')
        exact .inr (.inr (hkept (hs.grows hlt hgrows)))
    · exact .inr (.inr (hkept hs))

end Binding

end PatternGraph

namespace Build
variable {g g' : PatternGraph} {repo : Repository} {name : String} {id fuel : Nat}

/-- What binding a code does: the graph grows by complete patterns of codes, and the answer is the
node recorded for the code. -/
structure Binds (repo : Repository) (name : String) (g : PatternGraph) (id : Nat)
    (g' : PatternGraph) : Prop where
  formed : g'.Formed
  grows : g.Grows repo g'
  recorded : ∃ c, repo.canonical name = some c ∧ g'.bound.get? c = some id
  seeded : ∀ c id, g'.bound.get? c = some id → g.bound.get? c = some id ∨ g'.Seeded repo c id

theorem Binds.id_lt (h : Binds repo name g id g') : id < g'.size := by
  obtain ⟨c, -, hid⟩ := h.recorded
  exact PatternGraph.lt_size_of_kind (h.formed.codes c id hid)

theorem bindCode_of_recorded {c : String} (hname : repo.canonical name = some c)
    (hid : g.bound.get? c = some id) : bindCode repo (fuel + 1) name g = .ok id g := by
  simp only [bindCode, hname]
  rw [get_bind, hid]
  rfl

/-- Binding a code succeeds as described, or fails for want of a code. -/
theorem bindCode_outcome (hg : g.Formed) (hfuel : (g.unbound repo).card < fuel) :
    Outcome (bindCode repo fuel name) g (Binds repo name g) fun e _ => e ≠ .exhausted := by
  induction fuel generalizing g name with
  | zero => omega
  | succ fuel ih =>
    rw [bindCode]
    cases hname : repo.canonical name with
    | none => simp
    | some c =>
      rw [outcome_bind, outcome_get]
      cases hid : g.bound.get? c with
      | some id => exact ⟨hg, .refl g, ⟨c, hname, hid⟩, fun _ _ h => .inl h⟩
      | none =>
        have hc := NameMap.get?_eq_none_iff.1 hid
        simp only [outcome_bind, outcome_addNode, outcome_modify]
        change Outcome _ (g.pushCode c) _ _
        cases hrefs : repo.references? c with
        | none => simp
        | some references =>
          rw [outcome_bind]
          refine outcome_forM (I := PatternGraph.Binding repo g c references) ?_
            (.start hg hc hname) ?_
          · rintro ⟨label, code⟩ todo h hb
            obtain ⟨done, hall, -⟩ := hb.suffix
            have hne : references ≠ [] := by simp [hall]
            have hin := Repository.mem_names_of_references? hname hrefs hne
            have hless := PatternGraph.card_unbound_pushCode hc hin
            have hle := Finset.card_le_card hb.unbound
            rw [outcome_bind]
            refine (ih hb.formed (by omega)).imp (fun d g' hd => ?_) fun _ _ h => h
            obtain ⟨r, hr, hget⟩ := hd.recorded
            exact hb.step (Repository.nodup_references hrefs) hd.formed hd.grows hr hget
              hd.seeded
          · intro h hb
            refine ⟨hb.formed, hb.grows, ⟨c, hname, hb.recorded⟩, fun r id hr => ?_⟩
            rcases hb.seeded r id hr with hold | rfl | hs
            · exact .inl hold
            · obtain ⟨done, hall, hedges, hlabels⟩ := hb.suffix
              rw [List.append_nil] at hall
              obtain rfl : g.size = id := Option.some.inj (hb.recorded.symm.trans hr)
              exact .inr ⟨references, hrefs, hall ▸ hedges, hall ▸ hlabels⟩
            · exact .inr hs

theorem boundNode_outcome (hg : g.Formed) :
    Outcome (boundNode repo name) g (Binds repo name g) fun e _ => e ≠ .exhausted := by
  apply bindCode_outcome hg
  calc (g.unbound repo).card ≤ repo.names.card := Finset.card_filter_le _ _
    _ ≤ repo.size + repo.aliases.size := repo.card_names_le
    _ < repo.size + repo.aliases.size + 1 := Nat.lt_succ_self _

theorem bindCode_approximates (repo : Repository) (name : String) (fuel : Nat) :
    Approximates (bindCode repo fuel name) (bindCode repo (fuel + 1) name) := by
  induction fuel generalizing name with
  | zero => exact fun g => .inr ⟨g, rfl⟩
  | succ fuel ih =>
    rw [bindCode, bindCode]
    cases repo.canonical name with
    | none => exact .refl _
    | some c =>
      refine (Approximates.refl _).bind fun g => ?_
      cases g.bound.get? c with
      | some id => exact .refl _
      | none =>
        refine (Approximates.refl _).bind fun id => (Approximates.refl _).bind fun _ => ?_
        cases repo.references? c with
        | none => exact .refl _
        | some references =>
          refine (Approximates.forM ?_ references).bind fun _ => .refl _
          rintro ⟨label, code⟩
          exact (ih code).bind fun _ => .refl _

end Build

end StructuralTyping
