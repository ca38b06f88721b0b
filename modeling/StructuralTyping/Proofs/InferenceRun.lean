import StructuralTyping.Proofs.Solving

/-!
# The course of inference

Inference starts from patterns about which nothing is known, generates constraints, solves them and
promotes patterns to codes. All of this is done by operations on graphs, so the graph that is
returned has evolved from the empty one, and whatever fails, it is not for want of steps.
-/
namespace StructuralTyping

open PatternGraph Build

namespace PatternGraph
variable {repo next : Repository} {g g' : PatternGraph} {ids : List Nat}

theorem blank_succ (count : Nat) :
    blank (count + 1) = ((blank count).pushNode .unconstrained ∅).2 := by
  simp only [blank, pushNode, PatternForest.add, Array.replicate_succ]

theorem size_blank (count : Nat) : (blank count).size = count := Array.size_replicate

/-- Patterns about which nothing is known are added one after the other. -/
theorem blank_evolves (repo : Repository) (count : Nat) : Evolves repo {} (blank count) := by
  induction count with
  | zero => exact .refl
  | succ count ih =>
    rw [blank_succ]
    exact ih.tail (.node rfl (by simp) (by simp [NameMap.contains]))

theorem Evolves.formed_of_empty (h : Evolves repo {} g) : g.Formed := by
  have hempty : ({} : PatternGraph).Settled repo [] := settled_empty
  exact Evolves.formed h hempty.formed

end PatternGraph

namespace Relations
variable {repo : Repository} {rels : Relations} {spans : SpanTable} {g : PatternGraph}
  {e : PatternError}

/-- Constraints that bring about the rules of all sites hold in a graph that has evolved from the
empty one. -/
structure Solves (repo : Repository) (rels : Relations) (spans : SpanTable)
    (constraints : List Constraint) (g : PatternGraph) : Prop where
  evolves : Evolves repo {} g
  holds : ∀ c ∈ constraints, c.demand.Holds repo g
  sound : ∀ next h, repo.Consistent → g.Extends h → h.Settled next [] →
    (∀ c ∈ constraints, c.demand.Holds next h) →
    ∀ s ∈ rels.allSites spans, s.Holds next h repo rels.ends

theorem allSites_constraints_outcome (repo : Repository) (rels : Relations) (spans : SpanTable) :
    Outcome (siteConstraints repo rels.ends (rels.allSites spans)) (.blank rels.endCount)
      (fun constraints g => Evolves repo {} g ∧ (∀ c ∈ constraints, c.demand.Within g.size) ∧
        ∀ next h, repo.Consistent → g.Extends h → h.Settled next [] →
          (∀ c ∈ constraints, c.demand.Holds next h) →
          ∀ s ∈ rels.allSites spans, s.Holds next h repo rels.ends)
      fun e _ => e ≠ .exhausted := by
  have hblank := blank_evolves repo rels.endCount
  refine (siteConstraints_outcome (Evolves.formed_of_empty hblank) (fun s hs => ?_)
    fun name p hp => ?_).imp (fun constraints g h => ⟨hblank.trans h.1, h.2⟩) fun _ _ h => h
  · rw [size_blank]
    exact allSites_within hs
  · rw [size_blank]
    exact ends_lt hp

/-- Generating and solving the constraints. -/
theorem generateAndSolve_outcome (repo : Repository) (rels : Relations) (spans : SpanTable) :
    Outcome (do solve repo (← siteConstraints repo rels.ends (rels.allSites spans)))
      (.blank rels.endCount) (fun _ g => ∃ constraints, rels.Solves repo spans constraints g)
      fun e _ => e ≠ .exhausted := by
  rw [outcome_bind]
  refine (allSites_constraints_outcome repo rels spans).imp ?_ fun _ _ h => h
  rintro constraints g₁ ⟨hevolves, hwithin, hsound⟩
  have hg₁ := Evolves.formed_of_empty hevolves
  refine (solve_outcome hg₁ hwithin).imp (fun _ g₂ h => ⟨constraints, ?_⟩) fun _ _ h => h
  refine ⟨hevolves.trans h.1, h.2, fun next h' hrepo hext => ?_⟩
  exact hsound next h' hrepo ((Evolves.extends hg₁ h.1).trans hext)

theorem solved_eq_ok_iff : rels.solved repo (rels.sites spans) = .ok g ↔
    (do solve repo (← siteConstraints repo rels.ends (rels.allSites spans)) : Build Unit)
      (.blank rels.endCount) = .ok () g := by
  unfold solved
  dsimp only
  split
  case h_1 e g' hrun => exact iff_of_false (by simp) fun h => by cases hrun.symm.trans h
  case h_2 g' hrun =>
    constructor
    · rintro ⟨⟩
      exact hrun
    · intro h
      rw [(EStateM.Result.ok.inj (hrun.symm.trans h)).2]

theorem solved_eq_error_iff : rels.solved repo (rels.sites spans) = .error e ↔
    ∃ g, (do solve repo (← siteConstraints repo rels.ends (rels.allSites spans)) : Build Unit)
      (.blank rels.endCount) = .error e g := by
  unfold solved
  dsimp only
  split
  case h_1 e' g' hrun =>
    constructor
    · rintro ⟨⟩
      exact ⟨g', hrun⟩
    · rintro ⟨g, h⟩
      rw [(EStateM.Result.error.inj (hrun.symm.trans h)).1]
  case h_2 g' hrun => exact iff_of_false (by simp) fun ⟨_, h⟩ => by cases hrun.symm.trans h

theorem exists_solves (h : rels.solved repo (rels.sites spans) = .ok g) :
    ∃ constraints, rels.Solves repo spans constraints g :=
  (rels.generateAndSolve_outcome repo spans).of_ok (solved_eq_ok_iff.1 h)

theorem solved_ne_exhausted : rels.solved repo (rels.sites spans) ≠ .error .exhausted := by
  intro h
  obtain ⟨g, hrun⟩ := solved_eq_error_iff.1 h
  exact (rels.generateAndSolve_outcome repo spans).of_error hrun rfl

end Relations

section Promotion
variable {repo next : Repository} {g g' : PatternGraph} {ids : List Nat}

theorem Build.bindPromoted_outcome {names : NameMap String} (hg : g.Formed)
    (hids : ∀ id ∈ ids, id < g.size) :
    Outcome (bindPromoted repo names ids) g (fun _ g' => Evolves repo g g')
      fun e _ => e ≠ .exhausted := by
  induction ids generalizing g with
  | nil => exact .refl
  | cons id ids ih =>
    rw [List.forall_mem_cons] at hids
    rw [bindPromoted]
    cases names.get? (localName id) with
    | none => simp
    | some code =>
      dsimp only
      rw [outcome_bind]
      refine (boundNode_outcome hg).imp (fun node g₁ hb => ?_) fun _ _ h => h
      have hle₁ := hb.grows.size_le
      have hpair : ∀ i ∈ [id, node], i < g₁.size := by
        simpa using ⟨hids.1.trans_le hle₁, hb.id_lt⟩
      rw [outcome_bind]
      refine (unify_outcome hb.formed hpair).imp (fun changed g₂ hm => ?_) fun _ _ h => h
      have hle₂ := (hb.formed.extends_of_merges hpair hm).size_le
      rw [outcome_bind]
      refine (ih (hm.formed hb.formed hpair) fun i hi =>
        (hids.2 i hi).trans_le (hle₁.trans hle₂)).imp (fun _ g₃ h => ?_) fun _ _ h => h
      exact .head (.code hb) (.head (.merge hpair hm) h)

namespace PatternGraph

theorem lt_size_of_mem_singletons : ∀ id ∈ g.singletons, id < g.size :=
  fun _ hid => (mem_roots_iff.1 (List.mem_of_mem_filter hid)).1

/-- What a promotion can do, whatever the graph and the repository. -/
inductive Promoting (repo : Repository) (g : PatternGraph) :
    Except PatternError (List Promotion) → PatternGraph → Repository → Prop
  | idle (hnone : g.singletons.isEmpty) : Promoting repo g (.ok []) g repo
  | undescribed {e : CodeError} (hcodes : g.describedCodes g.singletons = .error e) :
      Promoting repo g (.error (.code e)) g repo
  | unregistered {codes : Codes} {e : CodeError} {next : Repository}
      (hcodes : g.describedCodes g.singletons = .ok codes)
      (hregister : repo.registerCodes codes = (.error e, next)) :
      Promoting repo g (.error (.code e)) g next
  | unbound {codes : Codes} {names : NameMap String} {e : PatternError} {g' : PatternGraph}
      {next : Repository} (hcodes : g.describedCodes g.singletons = .ok codes)
      (hregister : repo.registerCodes codes = (.ok names, next))
      (hbind : Build.bindPromoted next names g.singletons g = .error e g') :
      Promoting repo g (.error e) g' next
  | bound {codes : Codes} {names : NameMap String} {promoted : List Promotion}
      {g' : PatternGraph} {next : Repository} (hsome : ¬g.singletons.isEmpty)
      (hcodes : g.describedCodes g.singletons = .ok codes)
      (hregister : repo.registerCodes codes = (.ok names, next))
      (hbind : Build.bindPromoted next names g.singletons g = .ok promoted g') :
      Promoting repo g (.ok promoted) g' next

theorem promote_promoting (g : PatternGraph) (repo : Repository) :
    Promoting repo g (g.promote repo).1 (g.promote repo).2.1 (g.promote repo).2.2 := by
  unfold promote turnIntoCodes
  by_cases hnone : g.singletons.isEmpty
  · rw [if_pos hnone]
    exact .idle hnone
  rw [if_neg hnone]
  cases hcodes : g.describedCodes g.singletons with
  | error e => exact .undescribed hcodes
  | ok codes =>
    cases hregister : repo.registerCodes codes with
    | mk answer next =>
      cases answer with
      | error e => simpa only [hregister] using .unregistered hcodes hregister
      | ok names =>
        simp only [hregister]
        cases hbind : Build.bindPromoted next names g.singletons g with
        | error e g' => exact .unbound hcodes hregister hbind
        | ok promoted g' => exact .bound hnone hcodes hregister hbind

theorem promoting_of_eq {result : Except PatternError (List Promotion)}
    (h : g.promote repo = (result, g', next)) : Promoting repo g result g' next := by
  have hpromoting := promote_promoting g repo
  rwa [h] at hpromoting

/-- Promotion changes nothing, or registers the codes that patterns describe and goes on with
operations. -/
theorem promote_ok {promoted : List Promotion} (hg : g.Formed)
    (h : g.promote repo = (.ok promoted, g', next)) : g' = g ∧ next = repo ∨
      ∃ codes names, g.describedCodes g.singletons = .ok codes ∧
        repo.registerCodes codes = (.ok names, next) ∧ Evolves next g g' := by
  cases promoting_of_eq h with
  | idle hnone => exact .inl ⟨rfl, rfl⟩
  | bound hsome hcodes hregister hbind =>
    refine .inr ⟨_, _, hcodes, hregister, ?_⟩
    exact (bindPromoted_outcome hg lt_size_of_mem_singletons).of_ok hbind

theorem promote_ne_exhausted (hg : g.Formed) : (g.promote repo).1 ≠ .error .exhausted := by
  cases hpromote : g.promote repo with
  | mk result rest =>
    cases promoting_of_eq hpromote with
    | unbound hcodes hregister hbind =>
      have hne := (bindPromoted_outcome hg lt_size_of_mem_singletons).of_error hbind
      simpa using hne
    | _ => simp

end PatternGraph

end Promotion

end StructuralTyping
