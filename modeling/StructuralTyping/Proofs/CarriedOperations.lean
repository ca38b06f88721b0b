import StructuralTyping.Proofs.RepositoryGrowth
import StructuralTyping.Proofs.Termination
import StructuralTyping.Proofs.TypedClasses

/-!
# Operations in a growing repository

What an operation does to a graph depends on a repository only through the names it asks for. So
where an operation succeeds, it does the same in a repository that keeps what these names mean: the
codes of a graph are known, a code refers to known codes only, and what is bound besides are names
that are asked for directly. An operation that fails may do so for want of a name, and then it may
succeed in the other repository.
-/
namespace StructuralTyping

open PatternGraph

variable {repo next : Repository}

section Shapes
variable {l r s : Shape} {name : String}

namespace Shape

theorem fits_congr (h : next.find name = repo.find name) : s.fits next name = s.fits repo name := by
  rw [fits, fits, h]

theorem joinRanked_congr (h : ∀ c, r.kind = .bound c → next.find c = repo.find c) :
    joinRanked next l r = joinRanked repo l r := by
  unfold joinRanked
  cases hr : r.kind with
  | bound c => cases l.kind <;> simp only [fits_congr (h c hr)]
  | _ => cases l.kind <;> rfl

variable (hl : ∀ c, l.kind = .bound c → next.find c = repo.find c)
  (hr : ∀ c, r.kind = .bound c → next.find c = repo.find c)
include hl hr

theorem join_congr : join next l r = join repo l r := by
  rw [join, join, joinRanked_congr hr, joinRanked_congr hl]

theorem merge_congr : merge next l r = merge repo l r := by
  cases hjoin : join repo l r with
  | none => rw [merge, merge, join_congr hl hr, hjoin, Option.map_none, Option.map_none]
  | some kind =>
    obtain ⟨m, hmerge, rfl⟩ : ∃ m, merge repo l r = some m ∧ m.kind = kind := by
      rw [merge, hjoin]
      exact ⟨_, rfl, rfl⟩
    have hkind (c : String) (hc : m.kind = .bound c) : next.find c = repo.find c := by
      rcases (isJoin_of_merge hmerge).kind with ⟨s, hs, hk⟩ | hk | hk
      · simp only [List.mem_cons, List.not_mem_nil, or_false] at hs
        rcases hs with rfl | rfl
        · exact hl c (hk.symm.trans hc)
        · exact hr c (hk.symm.trans hc)
      all_goals cases hk.symm.trans hc
    have hlabels : m.kind.memberLabel next = m.kind.memberLabel repo :=
      funext fun _ => PatternKind.memberLabel_congr hkind
    rw [merge, merge, join_congr hl hr, hjoin, Option.map_some, Option.map_some, hlabels]

end Shape

theorem PatternGraph.mergeShapes_congr {g : PatternGraph} {roots : List Nat}
    (hs : ∀ c, s.kind = .bound c → next.find c = repo.find c)
    (hroots : ∀ r ∈ roots, ∀ c, g.kind r = .bound c → next.find c = repo.find c) :
    g.mergeShapes next s roots = g.mergeShapes repo s roots := by
  induction roots generalizing s with
  | nil => rfl
  | cons root rest ih =>
    rw [List.forall_mem_cons] at hroots
    rw [mergeShapes, mergeShapes, Shape.merge_congr hs hroots.1]
    cases hmerge : s.merge repo (g.shape root) with
    | none => rfl
    | some merged =>
      refine ih (fun c hc => ?_) hroots.2
      rcases (Shape.isJoin_of_merge hmerge).kind with ⟨t, ht, hk⟩ | hk | hk
      · simp only [List.mem_cons, List.not_mem_nil, or_false] at ht
        rcases ht with rfl | rfl
        · exact hs c (hk.symm.trans hc)
        · exact hroots.1 c (hk.symm.trans hc)
      all_goals cases hk.symm.trans hc

end Shapes

namespace Build
variable {α β : Type} {m m' : Build α} {f f' : α → Build β} {g : PatternGraph} {e : PatternError}

/-- Where an operation succeeds, another one does the same. -/
def CarriesOver (m m' : Build α) (g : PatternGraph) : Prop :=
  ∀ a g', m g = .ok a g' → m' g = .ok a g'

theorem CarriesOver.refl (m : Build α) (g : PatternGraph) : CarriesOver m m g := fun _ _ h => h

theorem CarriesOver.of_eq (h : m' g = m g) : CarriesOver m m' g := fun _ _ hm => h.trans hm

theorem carriesOver_throw : CarriesOver (throw e) m' g := by
  intro a g' h
  cases h

theorem carriesOver_get_bind {f f' : PatternGraph → Build β} :
    CarriesOver (get >>= f) (get >>= f') g ↔ CarriesOver (f g) (f' g) g := Iff.rfl

theorem CarriesOver.bind {ok : α → PatternGraph → Prop} {fail : PatternError → PatternGraph → Prop}
    (hm : CarriesOver m m' g) (h : Outcome m g ok fail)
    (hf : ∀ a g', ok a g' → CarriesOver (f a) (f' a) g') : CarriesOver (m >>= f) (m' >>= f') g := by
  intro b g'' hrun
  simp only [Bind.bind, EStateM.bind] at hrun ⊢
  cases hfirst : m g with
  | error e g' => simp [hfirst] at hrun
  | ok a g' =>
    rw [hfirst] at hrun
    rw [hm a g' hfirst]
    exact hf a g' (h.of_ok hfirst) b g'' hrun

theorem carriesOver_forM {body body' : α → Build PUnit} {I : List α → PatternGraph → Prop}
    {todo : List α} (hbody : ∀ a rest g, I (a :: rest) g → CarriesOver (body a) (body' a) g)
    (hstep : ∀ a rest g, I (a :: rest) g → Outcome (body a) g (fun _ => I rest) fun _ _ => True)
    (h : I todo g) : CarriesOver (todo.forM body) (todo.forM body') g := by
  induction todo generalizing g with
  | nil => exact .refl _ g
  | cons a rest ih =>
    change CarriesOver (body a >>= fun _ => rest.forM body) (body' a >>= fun _ => rest.forM body') g
    exact (hbody a rest g h).bind (hstep a rest g h) fun _ _ h => ih h

theorem carriesOver_located {span : Option Text.Span} (h : CarriesOver m m' g) :
    CarriesOver (tryCatchThe PatternError m fun e => throw (e.located span))
      (tryCatchThe PatternError m' fun e => throw (e.located span)) g := by
  intro a g' hrun
  simp only [tryCatchThe, MonadExceptOf.tryCatch, EStateM.tryCatch] at hrun ⊢
  cases hm : m g with
  | error e g'' =>
    rw [hm] at hrun
    cases hrun
  | ok b g'' =>
    rw [hm] at hrun
    rw [h b g'' hm]
    exact hrun

theorem forM_congr {todo : List α} {body body' : α → Build PUnit}
    (h : ∀ a ∈ todo, body' a = body a) : todo.forM body' = todo.forM body := by
  induction todo with
  | nil => rfl
  | cons a rest ih =>
    rw [List.forall_mem_cons] at h
    change (body' a >>= fun _ => rest.forM body') = body a >>= fun _ => rest.forM body
    rw [h.1, ih h.2]

section Codes
variable (hrepo : repo.Consistent) (hkept : repo.KeptBy next)
include hrepo hkept

/-- A code that is known is bound in the same way. -/
theorem bindCode_keptBy {c : String} (hc : repo.Known c) (fuel : Nat) :
    bindCode next fuel c = bindCode repo fuel c := by
  induction fuel generalizing c with
  | zero => rfl
  | succ fuel ih =>
    obtain ⟨hc', hfind⟩ := hkept c hc
    have hrefs : next.references? c = repo.references? c := by
      rw [Repository.references?, Repository.references?, hfind]
    rw [bindCode, bindCode, hc.canonical, hc'.canonical]
    refine bind_congr fun g => ?_
    cases g.bound.get? c with
    | some id => rfl
    | none =>
      refine bind_congr fun id => bind_congr fun _ => ?_
      rw [hrefs]
      cases hreferences : repo.references? c with
      | none => rfl
      | some references =>
        refine congrArg (· >>= fun _ => pure id) (forM_congr fun e he => ?_)
        have hknown := hrepo.reference_known hc ((Repository.mem_references_iff hreferences).1 he)
        exact congrArg (· >>= fun d => setEdge id e.1 d) (ih hknown)

theorem boundNode_keptBy (hg : g.Formed) {c : String} (hc : repo.Known c) :
    boundNode next c g = boundNode repo c g := by
  have hend (r : Repository) : EndsWithin (bindCode r · c) (r.size + r.aliases.size + 1) g :=
    bindCode_endsWithin hg c
  have hnext := (hend next).stable _ (Nat.le_add_right _ (repo.size + repo.aliases.size + 1))
  have hold := (hend repo).stable _ (Nat.le_add_left _ (next.size + next.aliases.size + 1))
  rw [boundNode, boundNode, ← hnext, ← hold]
  exact congrFun (bindCode_keptBy hrepo hkept hc _) g

theorem boundNode_carriesOver (hg : g.Formed) {name : String} (hname : repo.KeepsName next name) :
    CarriesOver (boundNode repo name) (boundNode next name) g := by
  intro id g' hrun
  obtain ⟨c, hc, -⟩ := ((boundNode_outcome hg).of_ok hrun).recorded
  have hknown : repo.Known c := hrepo.canonical_known hc
  rw [boundNode_of_canonical hknown hc] at hrun
  rw [boundNode_of_canonical (hkept c hknown).1 (hname c hc),
    boundNode_keptBy hrepo hkept hg hknown]
  exact hrun

end Codes

section Merging
variable {kind : PatternKind} {rule : String} {ids roots : List Nat} {pending : List (List Nat)}
  (hrepo : repo.Consistent) (hkept : repo.KeptBy next)

theorem linkRoots_congr (h : ∀ c, kind = .bound c → next.find c = repo.find c) :
    linkRoots next kind rule roots = linkRoots repo kind rule roots := by
  have htargets (g : PatternGraph) : g.targets next kind roots = g.targets repo kind roots := by
    have hlabels : kind.memberLabel next = kind.memberLabel repo :=
      funext fun _ => PatternKind.memberLabel_congr h
    rw [targets, targets, hlabels]
  rw [linkRoots, linkRoots]
  exact bind_congr fun g => by rw [htargets g]

include hrepo hkept

theorem codeRoots_carriesOver (hg : g.Formed) (h : ∀ c, kind = .bound c → repo.Known c) :
    CarriesOver (codeRoots repo kind) (codeRoots next kind) g := by
  cases kind with
  | bound c =>
    refine .bind (boundNode_carriesOver hrepo hkept hg (hkept.keepsName (h c rfl)))
      (outcome_true _ g) fun id g' _ => .refl _ g'
  | _ => exact .refl _ g

/-- What is merged is merged in the same way, since the codes of a settled graph are known. -/
theorem mergeClasses_carriesOver {fuel : Nat} (hg : g.Settled repo (ids :: pending))
    (hfuel : g.forest.classes.card < fuel) :
    CarriesOver (mergeClasses repo rule fuel ids) (mergeClasses next rule fuel ids) g := by
  induction fuel generalizing g ids pending with
  | zero => omega
  | succ fuel ih =>
    have hformed := hg.formed
    have hids := hg.ready.head_lt
    have hare := hformed.areRoots hids
    have hfind (n : Nat) (c : String) (hn : g.kind n = .bound c) : next.find c = repo.find c :=
      (hkept c (hg.known c (hformed.recorded _ c hn))).2
    rw [mergeClasses, mergeClasses, carriesOver_get_bind]
    cases hroots : ascending (ids.map g.find) with
    | nil => exact .refl _ g
    | cons first others =>
      cases others with
      | nil => exact .refl _ g
      | cons second others =>
        rw [hroots] at hare
        dsimp only
        rw [mergeShapes_congr (hfind first) fun r _ => hfind r]
        cases hjoined : g.mergeShapes repo (g.shape first) (second :: others) with
        | error conflict => exact carriesOver_throw
        | ok joined =>
          have hjoin := isJoin_of_mergeShapes hjoined
          have hbound (c : String) (hc : joined.kind = .bound c) :
              ∃ r ∈ first :: second :: others, (g.node r).kind = .bound c :=
            exists_bound_of_isJoin hjoin hare hc
          have hknown (c : String) (hc : joined.kind = .bound c) : repo.Known c := by
            obtain ⟨r, -, hr⟩ := hbound c hc
            exact hg.known c (hformed.recorded r c hr)
          have hjoins := join_outcome repo rule hformed hare hbound
          rw [outcome_bind] at hjoins
          refine .bind (codeRoots_carriesOver hrepo hkept hformed hknown) hjoins
            fun more g₁ hlinks => ?_
          refine .bind (.of_eq (by rw [linkRoots_congr fun c hc => (hkept c (hknown c hc)).2]))
            hlinks fun met g₂ hlink => ?_
          obtain ⟨hconflict, rfl, rfl⟩ := hlink
          have hless : (g.joinRoots repo joined.kind rule
              (first :: second :: others)).forest.classes.card < g.forest.classes.card :=
            hformed.card_classes_joinRoots_lt hids hroots.symm (by simp)
          have hstep : MergeStep repo rule (g, ids :: pending) _ :=
            .join hroots.symm (by simp) hjoin hconflict
          -- The lists that are left are merged one after the other.
          refine .bind (carriesOver_forM (I := fun todo g' =>
            g'.Settled repo (todo ++ pending) ∧ g'.forest.classes.card < fuel) ?_ ?_
            ⟨hg.mergeStep hstep, by omega⟩) (outcome_true _ _) fun _ g' _ => .refl _ g'
          · rintro ids' todo g' ⟨hg', hcard⟩
            exact .bind (ih hg' hcard) (outcome_true _ g') fun _ g'' _ => .refl _ g''
          · rintro ids' todo g' ⟨hg', hcard⟩
            rw [outcome_bind]
            refine (mergeClasses_outcome hg'.formed hg'.ready.head_lt hcard).imp
              (fun _ g'' hm => ⟨hg'.mergeRun (hm.run _), ?_⟩) fun _ _ _ => trivial
            exact ((hm.run _).card_classes_le hg'.ready).trans_lt hcard

theorem unify_carriesOver (hg : g.Settled repo []) (hids : ∀ id ∈ ids, id < g.size) :
    CarriesOver (unify repo rule ids) (unify next rule ids) g := by
  rw [unify, unify, carriesOver_get_bind]
  exact mergeClasses_carriesOver hrepo hkept (hg.cons hids)
    (Nat.lt_succ_of_le PatternForest.card_classes_le)

theorem addEdge_carriesOver (hg : g.Settled repo []) {source target : Nat} {label : String}
    (htarget : target < g.size) : CarriesOver (addEdge repo rule source label target)
      (addEdge next rule source label target) g := by
  have hlabel : (g.shape source).kind.memberLabel next label =
      (g.shape source).kind.memberLabel repo label := hg.memberLabel_eq hkept
  rw [addEdge, addEdge, carriesOver_get_bind]
  dsimp only
  rw [hlabel]
  split
  case h_1 present hpresent =>
    have hlt := hg.formed.targets_lt _ _ _ hpresent
    exact unify_carriesOver hrepo hkept hg (by simp [hlt, htarget])
  case h_2 => exact .refl _ g

end Merging

section Solving
variable {constraints : List Constraint} {id : Nat} {ids : List Nat}
  (hrepo : repo.Consistent) (hkept : repo.KeptBy next) (hg : g.Settled repo [])
include hrepo hkept hg

theorem apply_carriesOver {c : Constraint} (hc : c.demand.Within g.size) :
    CarriesOver (c.apply repo) (c.apply next) g := by
  obtain ⟨rule, demand, span⟩ := c
  cases demand with
  | same patterns => exact unify_carriesOver hrepo hkept hg hc
  | edge source label target => exact addEdge_carriesOver hrepo hkept hg hc.2

theorem enforce_carriesOver (hwithin : ∀ c ∈ constraints, c.demand.Within g.size) :
    CarriesOver (enforce repo constraints) (enforce next constraints) g := by
  induction constraints generalizing g with
  | nil => exact .refl _ g
  | cons c rest ih =>
    rw [List.forall_mem_cons] at hwithin
    rw [enforce, enforce]
    have happly : Outcome (tryCatchThe PatternError (c.apply repo) fun e =>
        throw (e.located c.span)) g (fun _ => Evolves repo g) fun _ _ => True :=
      outcome_located.2 ((apply_outcome 0 hg.formed (List.mem_cons_self (l := rest))
        hwithin.1).imp (fun _ _ h => h.1.evolves) fun _ _ _ => trivial)
    refine .bind (carriesOver_located (apply_carriesOver hrepo hkept hg hwithin.1)) happly
      fun changed g₁ hevolves => ?_
    have hle := (Evolves.extends hg.formed hevolves).size_le
    refine .bind (ih (Evolves.settled hevolves hrepo.aliasesKnown hg) fun c hc =>
      (hwithin.2 c hc).mono hle) (outcome_true _ g₁) fun _ g₂ _ => .refl _ g₂

theorem closeLoop_carriesOver (hid : id < g.size) :
    CarriesOver (closeLoop repo id) (closeLoop next id) g := by
  have hunion : CarriesOver (unify repo "loop" [g.find id, g.size])
      (unify next "loop" [g.find id, g.size]) (g.withUnion id) :=
    unify_carriesOver hrepo hkept ((hg.formed.operation_withUnion repo).settled
      hrepo.aliasesKnown hg) (hg.formed.lt_size_withUnion hid)
  rw [closeLoop, closeLoop, carriesOver_get_bind]
  dsimp only
  split
  · exact .refl _ g
  · exact .refl _ g
  · exact hunion
  · exact hunion
  · exact .refl _ g

theorem closeLoopsAt_carriesOver (hids : ∀ id ∈ ids, id < g.size) :
    CarriesOver (closeLoopsAt repo ids) (closeLoopsAt next ids) g := by
  induction ids generalizing g with
  | nil => exact .refl _ g
  | cons id ids ih =>
    rw [List.forall_mem_cons] at hids
    rw [closeLoopsAt, closeLoopsAt]
    refine .bind (closeLoop_carriesOver hrepo hkept hg hids.1)
      (closeLoop_outcome [] 0 hg.formed hids.1) fun changed g₁ hadv => ?_
    have hle := (Evolves.extends hg.formed hadv.evolves).size_le
    refine .bind (ih (Evolves.settled hadv.evolves hrepo.aliasesKnown hg) fun id hid =>
      (hids.2 id hid).trans_le hle) (outcome_true _ g₁) fun _ g₂ _ => .refl _ g₂

theorem closeLoops_carriesOver : CarriesOver (closeLoops repo) (closeLoops next) g := by
  rw [closeLoops, closeLoops, carriesOver_get_bind]
  refine closeLoopsAt_carriesOver hrepo hkept hg fun id hid => ?_
  exact (mem_roots_iff.1 (List.mem_of_mem_filter hid)).1

theorem round_carriesOver (hwithin : ∀ c ∈ constraints, c.demand.Within g.size) :
    CarriesOver (round repo constraints) (round next constraints) g := by
  rw [round, round]
  refine .bind (enforce_carriesOver hrepo hkept hg hwithin)
    (enforce_outcome 0 hg.formed (List.Subset.refl _) hwithin) fun changed g₁ hadv => ?_
  cases changed with
  | true =>
    rw [if_pos rfl, if_pos rfl]
    exact .refl _ g₁
  | false =>
    rw [if_neg Bool.false_ne_true, if_neg Bool.false_ne_true]
    exact closeLoops_carriesOver hrepo hkept
      (Evolves.settled hadv.1.evolves hrepo.aliasesKnown hg)

theorem rounds_carriesOver {fuel : Nat} (hwithin : ∀ c ∈ constraints, c.demand.Within g.size) :
    CarriesOver (rounds repo constraints fuel) (rounds next constraints fuel) g := by
  induction fuel generalizing g with
  | zero => exact .refl _ g
  | succ fuel ih =>
    rw [rounds, rounds]
    refine .bind (round_carriesOver hrepo hkept hg hwithin) (round_outcome 0 hg.formed hwithin)
      fun changed g₁ hadv => ?_
    have hle := (Evolves.extends hg.formed hadv.1.evolves).size_le
    cases changed with
    | false =>
      rw [if_neg Bool.false_ne_true, if_neg Bool.false_ne_true]
      exact .refl _ g₁
    | true =>
      rw [if_pos rfl, if_pos rfl]
      exact ih (Evolves.settled hadv.1.evolves hrepo.aliasesKnown hg) fun c hc =>
        (hwithin c hc).mono hle

theorem solve_carriesOver (hwithin : ∀ c ∈ constraints, c.demand.Within g.size) :
    CarriesOver (solve repo constraints) (solve next constraints) g := by
  rw [solve, solve, carriesOver_get_bind]
  exact rounds_carriesOver hrepo hkept hg hwithin

end Solving

end Build

/-- Somewhere in the filter the name of a code stands. -/
inductive Filter.NamesCode (n : String) : Filter → Prop
  | code : NamesCode n (.code n)
  | field {kind : FieldsKind} {fs : List (String × Filter)} {isOpen : Bool} {e : String × Filter}
      (he : e ∈ fs) (h : NamesCode n e.2) : NamesCode n (.fields kind fs isOpen)
  | element {f : Filter} (h : NamesCode n f) : NamesCode n (.vector f)

/-- Somewhere in the relation the name of a code stands, maybe in a filter. -/
inductive Relation.NamesCode (n : String) : Relation → Prop
  | code : NamesCode n (.code n)
  | filter {f : Filter} (h : f.NamesCode n) : NamesCode n (.filter f)
  | child {r c : Relation} (hc : c ∈ r.children) (h : NamesCode n c) : NamesCode n r

section Generating
variable {g : PatternGraph} {vars : NameMap Nat}

open Build

mutual

theorem Filter.buildFrom_carriesOver (hrepo : repo.Consistent) (hkept : repo.KeptBy next)
    (f : Filter) {g : PatternGraph} {vars : NameMap Nat}
    (hnames : ∀ n, f.NamesCode n → repo.KeepsName next n) (hg : g.Formed)
    (hvars : ∀ name id, vars.get? name = some id → id < g.size) :
    CarriesOver (f.buildFrom repo vars) (f.buildFrom next vars) g := by
  cases f with
  | var name =>
    rw [buildFrom, buildFrom]
    exact .refl _ g
  | code name =>
    rw [buildFrom, buildFrom]
    exact .bind (boundNode_carriesOver hrepo hkept hg (hnames name .code)) (outcome_true _ g)
      fun _ g' _ => .refl _ g'
  | fields kind fs isOpen =>
    rw [buildFrom, buildFrom]
    exact .bind (buildFieldsFrom_carriesOver hrepo hkept fs
      (fun n e he h => hnames n (.field he h)) hg hvars) (outcome_true _ g) fun _ g' _ => .refl _ g'
  | vector element =>
    rw [buildFrom, buildFrom]
    exact .bind (buildFrom_carriesOver hrepo hkept element (fun n h => hnames n (.element h)) hg
      hvars) (outcome_true _ g) fun _ g' _ => .refl _ g'

theorem Filter.buildFieldsFrom_carriesOver (hrepo : repo.Consistent) (hkept : repo.KeptBy next)
    (fs : List (String × Filter)) {g : PatternGraph} {vars : NameMap Nat}
    (hnames : ∀ n, ∀ e ∈ fs, e.2.NamesCode n → repo.KeepsName next n) (hg : g.Formed)
    (hvars : ∀ name id, vars.get? name = some id → id < g.size) :
    CarriesOver (buildFieldsFrom repo fs vars) (buildFieldsFrom next fs vars) g := by
  cases fs with
  | nil =>
    rw [buildFieldsFrom, buildFieldsFrom]
    exact .refl _ g
  | cons e fs =>
    obtain ⟨label, f⟩ := e
    rw [buildFieldsFrom, buildFieldsFrom]
    refine .bind (buildFrom_carriesOver hrepo hkept f
      (fun n h => hnames n _ List.mem_cons_self h) hg hvars) (f.buildFrom_outcome hg hvars) ?_
    rintro ⟨id, vars'⟩ g₁ ⟨-, hbuilds, -⟩
    exact .bind (buildFieldsFrom_carriesOver hrepo hkept fs
      (fun n e he h => hnames n e (List.mem_cons_of_mem _ he) h)
      (Evolves.formed hbuilds.evolves hg) hbuilds.vars_lt) (outcome_true _ g₁)
      fun _ g₂ _ => .refl _ g₂

end

variable {definitions : NameMap Ends} {s : Site} {sites : List Site}
  (hrepo : repo.Consistent) (hkept : repo.KeptBy next)
include hrepo hkept

theorem Build.filterNode_carriesOver (f : Filter)
    (hnames : ∀ n, f.NamesCode n → repo.KeepsName next n) (hg : g.Formed) :
    CarriesOver (filterNode repo f) (filterNode next f) g := by
  rw [filterNode, filterNode, map_eq_pure_bind, map_eq_pure_bind]
  exact .bind (f.buildFrom_carriesOver hrepo hkept hnames hg (by simp)) (outcome_true _ g)
    fun _ g' _ => .refl _ g'

theorem Site.constraints_carriesOver (hg : g.Formed)
    (hnames : ∀ n, s.node.NamesCode n → repo.KeepsName next n) :
    CarriesOver (s.constraints repo definitions) (s.constraints next definitions) g := by
  obtain ⟨node, ⟨input, output⟩, children, span⟩ := s
  have hbound {name : String} (h : repo.KeepsName next name) {f : Nat → Build (List Constraint)} :
      CarriesOver (boundNode repo name >>= f) (boundNode next name >>= f) g :=
    .bind (boundNode_carriesOver hrepo hkept hg h) (outcome_true _ g) fun _ g' _ => .refl _ g'
  cases node with
  | product fields =>
    rcases fields with _ | ⟨first, _ | ⟨second, fields⟩⟩
    · exact hbound (hkept.keepsName (.inr (NameMap.contains_of_get? hrepo.unit)))
    · exact .refl _ g
    · exact .refl _ g
  | ref name =>
    simp only [Site.constraints]
    cases definitions.get? name with
    | some p => exact .refl _ g
    | none =>
      dsimp only
      split_ifs
      · exact hbound (hkept.keepsName (.inl (by decide)))
      · exact carriesOver_throw
  | filter f =>
    exact .bind (filterNode_carriesOver hrepo hkept f (fun n h => hnames n (.filter h)) hg)
      (outcome_true _ g) fun _ g' _ => .refl _ g'
  | code name => exact hbound (hnames name .code)
  | literal l => exact hbound (hkept.keepsName (.inl l.isBuiltin_builtin))
  | union rs => cases rs <;> exact .refl _ g
  | vector rs => cases rs <;> exact .refl _ g
  | comp rs => cases rs <;> exact .refl _ g
  | dot label => exact .refl _ g
  | identity => exact .refl _ g

theorem siteConstraints_carriesOver (hg : g.Formed)
    (hnames : ∀ s ∈ sites, ∀ n, s.node.NamesCode n → repo.KeepsName next n)
    (hsites : ∀ s ∈ sites, s.Within g.size)
    (hdefs : ∀ name p, definitions.get? name = some p → p.input < g.size ∧ p.output < g.size) :
    CarriesOver (siteConstraints repo definitions sites)
      (siteConstraints next definitions sites) g := by
  induction sites generalizing g with
  | nil => exact .refl _ g
  | cons s sites ih =>
    rw [List.forall_mem_cons] at hnames hsites
    rw [siteConstraints, siteConstraints]
    refine .bind (s.constraints_carriesOver hrepo hkept hg hnames.1)
      (s.constraints_outcome hg hsites.1 hdefs) fun own g₁ hown => ?_
    have hle := (Evolves.extends hg hown.evolves).size_le
    exact .bind (ih (Evolves.formed hown.evolves hg) hnames.2
      (fun s hs => (hsites.2 s hs).mono hle) fun name p hp =>
        (hdefs name p hp).imp (·.trans_le hle) (·.trans_le hle)) (outcome_true _ g₁)
      fun _ g₂ _ => .refl _ g₂

end Generating

namespace Relation

/-- The nodes of a relation name no codes that the relation does not name. -/
theorem NamesCode.of_site {n : String} {r : Relation} {start : Nat} {s : Site}
    (hs : s ∈ r.sites start) (h : s.node.NamesCode n) : r.NamesCode n := by
  induction r using induction_children generalizing start with
  | step r ih =>
    rw [sites_eq_cons, List.mem_cons] at hs
    rcases hs with rfl | hs
    · exact h
    · rw [sitesList_eq_flatMap] at hs
      obtain ⟨p, hp, hs⟩ := List.mem_flatMap.1 hs
      have hchild := mem_children_of_mem_offsets hp
      exact .child hchild (ih p.2 hchild hs)

end Relation

namespace Relations

open Build

variable {rels : Relations} {spans : SpanTable} {g : PatternGraph}

/-- Somewhere in one of the relations the name of a code stands. -/
def NamesCode (rels : Relations) (n : String) : Prop :=
  ∃ name r, rels.get? name = some r ∧ r.NamesCode n

/-- What is solved is solved in the same way in a repository that keeps what names mean. -/
theorem solved_keptBy (hrepo : repo.Consistent) (hkept : repo.KeptBy next)
    (hnames : ∀ n, rels.NamesCode n → repo.KeepsName next n)
    (h : rels.solved repo (rels.sites spans) = .ok g) :
    rels.solved next (rels.sites spans) = .ok g := by
  have hcarries : CarriesOver
      (do solve repo (← siteConstraints repo rels.ends (rels.allSites spans)))
      (do solve next (← siteConstraints next rels.ends (rels.allSites spans)))
      (.blank rels.endCount) := by
    have hblank := Evolves.formed_of_empty (blank_evolves repo rels.endCount)
    refine .bind (siteConstraints_carriesOver hrepo hkept hblank (fun s hs n hn => ?_)
      (fun s hs => ?_) fun name p hp => ?_) (allSites_constraints_outcome repo rels spans) ?_
    · obtain ⟨name, start, r, span, hr, t, ht, rfl⟩ := exists_of_mem_allSites hs
      refine hnames n ⟨name, r, ?_, .of_site ht hn⟩
      rw [← NameMap.get?_eq_some_iff.symm, ← map_startsFrom 0 rels.entries]
      exact List.mem_map_of_mem hr
    · rw [size_blank]
      exact allSites_within hs
    · rw [size_blank]
      exact ends_lt hp
    · rintro constraints g₁ ⟨hevolves, hwithin, -⟩
      exact solve_carriesOver hrepo hkept
        (Evolves.settled hevolves hrepo.aliasesKnown settled_empty) hwithin
  unfold solved at h ⊢
  dsimp only at h ⊢
  split at h
  · cases h
  case h_2 a g' hrun =>
    have hnext := hcarries a g' hrun
    unfold allSites at hnext
    rw [hnext]
    exact h

end Relations

end StructuralTyping
