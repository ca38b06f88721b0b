import StructuralTyping.Proofs.InferenceRun
import StructuralTyping.Proofs.PromotedCodes

/-!
# What is inferred satisfies all rules

When inference succeeds, the classes of the graph it returns satisfy the rule of every node of every
relation. Solving ends only when all constraints hold. Promotion then registers codes and binds
patterns to them, which takes nothing back: classes stay together, edges stay where they lead, and
the names in use keep their meaning. So the constraints still hold, and with them the rules.
-/
namespace StructuralTyping

open PatternGraph Build

section Persistence
variable {repo next : Repository} {g h : PatternGraph} {d : Demand}

theorem Demand.Holds.keptBy (hd : d.Holds repo g) (hg : g.Settled repo [])
    (hkept : repo.KeptBy next) : d.Holds next g := by
  cases d with
  | same patterns => exact hd
  | edge source label target =>
    rw [Demand.Holds, hg.memberLabel_eq hkept]
    exact hd

theorem PatternGraph.Extends.isVector {i : Nat} (hext : g.Extends h) (hi : g.find i < g.size)
    (hg : g.Formed) (hh : h.Settled repo []) (hv : (g.kind i).isVector repo) :
    (h.kind i).isVector repo := by
  have hfind : h.find (g.find i) = h.find i := hext.find _ _ (hg.find_find i)
  rw [← kind_congr hfind]
  apply (hh.above (g.find i)).isVector
  change (h.node (g.find i)).kind.isVector repo
  rw [hext.node _ hi]
  exact hv

/-- What is demanded goes on to hold, since no edge is lost. -/
theorem Demand.Holds.extends (hd : d.Holds repo g) (hext : g.Extends h) (hg : g.Formed)
    (hh : h.Settled repo []) : d.Holds repo h := by
  cases d with
  | same patterns => exact fun a ha b hb => hext.find a b (hd a ha b hb)
  | edge source label target =>
    obtain ⟨d, hget, hfind⟩ := Option.map_eq_some_iff.1 hd
    have hlt : g.find source < g.size := lt_size_of_get? hg hget
    have hsource : h.find (g.find source) = h.find source := hext.find _ _ (hg.find_find source)
    have htarget := hh.target?_of_get? (hext.edges _ _ _ hget)
    rw [target?_congr hsource, kind_congr hsource,
      PatternKind.memberLabel_memberLabel (hext.isVector hlt hg hh), hext.find _ _ hfind] at htarget
    exact htarget

end Persistence

namespace PatternGraph
variable {repo next : Repository} {g g' : PatternGraph} {ids : List Nat} {codes : Codes}

/-- Promotion keeps what the names in use mean, and takes back nothing of the graph. -/
theorem promote_keeps {promoted : List Promotion} (hrepo : repo.Consistent)
    (hg : g.Settled repo []) (h : g.promote repo = (.ok promoted, g', next)) :
    repo.KeptBy next ∧ g.Extends g' ∧ g'.Settled next [] := by
  rcases promote_ok hg.formed h with ⟨rfl, rfl⟩ | ⟨codes, names, hcodes, hreg, hevolves⟩
  · exact ⟨fun c hc => ⟨hc, rfl⟩, .refl g', hg⟩
  · have hnames := describedCodes_not_isBuiltin hcodes
    have hnone (n b : String) (hb : (∅ : NameMap String).get? n = some b) : Text.isBuiltin b := by
      cases hb
    rcases Repository.registerWith_cases hrepo hnames hnone with
      ⟨e, he⟩ | ⟨merged, names', next', -, hok, hregistered⟩
    · exact absurd (hreg.symm.trans he) (by simp)
    · obtain ⟨-, rfl⟩ := Prod.mk.inj (hreg.symm.trans hok)
      have hnext := hregistered.consistent hrepo hnames hnone
      have hkept := hrepo.keptBy hnext (hregistered.kept hrepo hnames)
      refine ⟨hkept, Evolves.extends hg.formed hevolves, ?_⟩
      exact Evolves.settled hevolves hnext.aliasesKnown (hg.keptBy hrepo hkept)

end PatternGraph

namespace Relations
variable {repo next : Repository} {rels : Relations} {spans : SpanTable}
  {options : InferenceOptions} {inference : Inference}

theorem infer_ok (h : rels.infer repo spans options = (.ok inference, next)) :
    ∃ g, rels.solved repo (rels.sites spans) = .ok g ∧
      (inference = ⟨g, []⟩ ∧ next = repo ∨
        g.promote repo = (.ok inference.promoted, inference.graph, next)) := by
  unfold infer at h
  dsimp only at h
  split at h
  · simp at h
  case h_2 g hsolved =>
    refine ⟨g, hsolved, ?_⟩
    split at h
    · simp at h
    case h_2 promoted g' next' hpromoted =>
      split at h
      · simp at h
      · obtain ⟨hinference, rfl⟩ := Prod.mk.inj h
        obtain rfl := Except.ok.inj hinference
        split_ifs at hpromoted with hoption
        · exact .inr hpromoted
        · simp only [Prod.mk.injEq, Except.ok.injEq] at hpromoted
          obtain ⟨rfl, rfl, rfl⟩ := hpromoted
          exact .inl ⟨rfl, rfl⟩

/-- If inference succeeds, every node of every relation satisfies its rule: each definition has a
site, each child of a site has one, and at each site the rule of its node holds. -/
theorem infer_sound (hrepo : repo.Reachable)
    (h : rels.infer repo spans options = (.ok inference, next)) :
    (∀ name r, rels.get? name = some r →
      ∃ s ∈ rels.allSites spans, s.node = r ∧ rels.ends.get? name = some s.ends) ∧
    ∀ s ∈ rels.allSites spans, s.ChildrenIn (rels.allSites spans) ∧
      s.Holds next inference.graph repo rels.ends := by
  have hconsistent := hrepo.consistent
  obtain ⟨g, hsolved, hpromoted⟩ := infer_ok h
  obtain ⟨constraints, hsolves⟩ := exists_solves hsolved
  have hg := Evolves.settled hsolves.evolves hconsistent.aliasesKnown settled_empty
  have hend : repo.KeptBy next ∧ g.Extends inference.graph ∧ inference.graph.Settled next [] := by
    rcases hpromoted with ⟨hgraph, rfl⟩ | hpromoted
    · rw [hgraph]
      exact ⟨fun c hc => ⟨hc, rfl⟩, .refl g, hg⟩
    · exact promote_keeps hconsistent hg hpromoted
  obtain ⟨hkept, hext, hsettled⟩ := hend
  refine ⟨fun name r hr => exists_site_of_get? hr, fun s hs => ⟨allSites_childrenIn hs, ?_⟩⟩
  refine hsolves.sound next inference.graph hconsistent hext hsettled (fun c hc => ?_) s hs
  exact ((hsolves.holds c hc).keptBy hg hkept).extends hext hg.formed hsettled

/-- The first element and the rest of a stream as a product, which is promoted to a code. -/
def splitStream : Relations := .ofList [("split",
  .comp [.code "S", .product [("first", .dot "head"), ("rest", .dot "tail")]])]

theorem infer_splitStream : (splitStream.infer .ofStream ∅ {}).1.toOption.map (·.promoted) =
    some [⟨20, "SzULTBzwKG"⟩] := by
  decide +kernel

theorem infer_sound_splitStream : Repository.ofStream.Reachable ∧ ∃ inference next,
    splitStream.infer .ofStream ∅ {} = (.ok inference, next) ∧
    inference.promoted = [⟨20, "SzULTBzwKG"⟩] ∧
    ∀ s ∈ splitStream.allSites ∅, s.Holds next inference.graph .ofStream splitStream.ends := by
  refine ⟨Repository.ofStream_reachable, ?_⟩
  have hpromoted := infer_splitStream
  cases hinfer : splitStream.infer .ofStream ∅ {} with
  | mk result next =>
    cases result with
    | error e => simp [hinfer, Except.toOption] at hpromoted
    | ok inference =>
      simp only [hinfer, Except.toOption, Option.map_some, Option.some.injEq] at hpromoted
      have hsound := infer_sound Repository.ofStream_reachable hinfer
      exact ⟨inference, next, rfl, hpromoted, fun s hs => (hsound.2 s hs).2⟩

end Relations

end StructuralTyping
