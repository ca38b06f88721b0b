import StructuralTyping.Proofs.GraphEvolution
import StructuralTyping.Proofs.Registration

/-!
# Graphs in a growing repository

What a graph says depends on a repository only through the codes that its patterns are bound to.
A registration keeps what these names mean, so a settled graph remains settled in the repository
after it.
-/
namespace StructuralTyping

variable {repo next : Repository}

/-- The names of a repository mean in another what they mean in it. -/
def Repository.KeptBy (repo next : Repository) : Prop :=
  ∀ c, repo.Known c → next.Known c ∧ next.find c = repo.find c

/-- Whatever a name means in one repository it means in another. -/
def Repository.KeepsName (repo next : Repository) (n : String) : Prop :=
  ∀ c, repo.canonical n = some c → next.canonical n = some c

theorem Repository.KeptBy.keepsName {c : String} (hkept : repo.KeptBy next) (hc : repo.Known c) :
    repo.KeepsName next c := by
  intro d hd
  obtain rfl : c = d := Option.some.inj (hc.canonical.symm.trans hd)
  exact (hkept c hc).1.canonical

theorem Repository.Consistent.keptBy (hrepo : repo.Consistent) (hnext : next.Consistent)
    (hkept : ∀ k x, repo.codes.get? k = some x → next.codes.get? k = some x) :
    repo.KeptBy next := by
  rintro c (hc | hc)
  · exact ⟨.inl hc, by rw [find_of_isBuiltin hc, find_of_isBuiltin hc]⟩
  · obtain ⟨x, hx⟩ := NameMap.contains_iff.1 hc
    have hx' := hkept c x hx
    refine ⟨.inr (NameMap.contains_of_get? hx'), ?_⟩
    rw [hrepo.find_of_get? hx, hnext.find_of_get? hx']

namespace PatternKind
variable {kind : PatternKind} {l : String} (h : ∀ c, kind = .bound c → next.find c = repo.find c)
include h

theorem isVector_congr : kind.isVector next = kind.isVector repo := by
  cases kind with
  | bound c => rw [isVector, isVector, h c rfl]
  | _ => rfl

theorem isProduct_congr : kind.isProduct next = kind.isProduct repo := by
  cases kind with
  | bound c => rw [isProduct, isProduct, h c rfl]
  | _ => rfl

theorem isUnion_congr : kind.isUnion next = kind.isUnion repo := by
  cases kind with
  | bound c => rw [isUnion, isUnion, h c rfl]
  | _ => rfl

theorem memberLabel_congr : kind.memberLabel next l = kind.memberLabel repo l := by
  rw [memberLabel, memberLabel, isVector_congr h]

end PatternKind

namespace Shape
variable {s t : Shape} (h : ∀ c, t.kind = .bound c → next.find c = repo.find c)
include h

theorem Normal.congr (ht : t.Normal repo) : t.Normal next := by
  intro x hx
  rw [PatternKind.memberLabel_congr h]
  exact ht x hx

theorem Fits.congr (ht : t.Fits repo) : t.Fits next := by
  intro c hc x hx
  rw [Repository.reference?, h c hc]
  exact ht c hc x hx

theorem Keeps.congr (hs : s.Keeps repo t) : s.Keeps next t := by
  unfold Keeps at hs ⊢
  cases hk : s.kind with
  | openProduct =>
    simp only [hk] at hs ⊢
    rwa [PatternKind.isProduct_congr h]
  | openUnion =>
    simp only [hk] at hs ⊢
    rwa [PatternKind.isUnion_congr h]
  | vector =>
    simp only [hk] at hs ⊢
    rwa [PatternKind.isVector_congr h]
  | closedProduct =>
    simp only [hk] at hs ⊢
    refine hs.imp_right ?_
    rintro ⟨c, fields, hc, hfind, hlabels⟩
    exact ⟨c, fields, hc, (h c hc).trans hfind, hlabels⟩
  | closedUnion =>
    simp only [hk] at hs ⊢
    refine hs.imp_right ?_
    rintro ⟨c, fields, hc, hfind, hlabels⟩
    exact ⟨c, fields, hc, (h c hc).trans hfind, hlabels⟩
  | bound c => simpa only [hk] using hs
  | unconstrained => trivial
  | closedUntyped =>
    simp only [hk] at hs ⊢
    rw [PatternKind.isVector_congr h]
    refine hs.imp_right (.imp_right ?_)
    rintro ⟨c, hc, hfields⟩
    exact ⟨c, hc, by rwa [h c hc]⟩

theorem Below.congr (hs : s.Below repo t) : s.Below next t where
  rank := hs.rank
  labels x hx := by
    rw [PatternKind.memberLabel_congr h]
    exact hs.labels x hx
  keeps := hs.keeps.congr h

end Shape

namespace PatternGraph
variable {g : PatternGraph} {c : String} {id n : Nat}

/-- The codes of a settled graph are known. -/
theorem Settled.find_eq (hg : g.Settled repo []) (hkept : repo.KeptBy next)
    (hc : (g.node n).kind = .bound c) : next.find c = repo.find c :=
  (hkept c (hg.known c (hg.formed.recorded n c hc))).2

theorem Settled.memberLabel_eq {l : String} (hg : g.Settled repo []) (hkept : repo.KeptBy next) :
    (g.kind n).memberLabel next l = (g.kind n).memberLabel repo l :=
  PatternKind.memberLabel_congr fun _ hc => hg.find_eq hkept hc

theorem Seeded.keptBy (hs : g.Seeded repo c id) (hrepo : repo.Consistent) (hc : repo.Known c)
    (hkept : repo.KeptBy next) : g.Seeded next c id := by
  obtain ⟨references, hrefs, hedges, hlabels⟩ := hs
  refine ⟨references, ?_, fun e he => ?_, hlabels⟩
  · rw [Repository.references?, (hkept c hc).2]
    exact hrefs
  · obtain ⟨r, d, hr, hd, hget⟩ := hedges e he
    have hknown := hrepo.reference_known hc ((Repository.mem_references_iff hrefs).1 he)
    rw [hknown.canonical] at hr
    exact ⟨r, d, (hkept e.2 hknown).1.canonical.trans hr, hd, hget⟩

theorem Settled.keptBy (hg : g.Settled repo []) (hrepo : repo.Consistent)
    (hkept : repo.KeptBy next) : g.Settled next [] where
  ready := hg.ready
  known c hc := (hkept c (hg.known c hc)).1
  seeded c id hid :=
    (hg.seeded c id hid).keptBy hrepo (hg.known c (NameMap.contains_of_get? hid)) hkept
  normal n := (hg.normal n).congr fun _ hc => hg.find_eq hkept hc
  fits n := (hg.fits n).congr fun _ hc => hg.find_eq hkept hc
  above n := (hg.above n).congr fun _ hc => hg.find_eq hkept hc
  kept n l d hd := by
    rw [hg.memberLabel_eq hkept]
    exact hg.kept n l d hd

end PatternGraph

end StructuralTyping
