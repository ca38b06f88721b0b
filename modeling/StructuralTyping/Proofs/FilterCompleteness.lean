import StructuralTyping.Proofs.FilterMatching
import StructuralTyping.Proofs.OrderlyMerges
import StructuralTyping.Proofs.PromotedCodes

/-!
# What matches also merges

If a filter matches a code, its pattern can be added, each part typed with the code that it accepts,
and merged with the pattern of the code. What may be in the way is that a closed pattern of any kind
and an open product or union meet before either meets the code. Unless the filter has such parts for
one code, and the code is reached through one that refers back to itself, they do not.
-/
namespace StructuralTyping

open PatternGraph Build

namespace Filter
variable {repo : Repository} {f f' f₀ : Filter} {fs : List (String × Filter)} {kind : FieldsKind}
  {isOpen : Bool} {name subject c d e c₀ v : String} {present b b' : NameMap String}

/-- A filter accepts a code, given by its canonical name, under bindings of its variables. -/
inductive Accepts (repo : Repository) (b : NameMap String) : Filter → String → Prop
  | var {name c : String} (h : b.get? name = some c) : Accepts repo b (.var name) c
  | code {name c : String} (h : repo.canonical name = some c) : Accepts repo b (.code name) c
  | fields {kind : FieldsKind} {fs : List (String × Filter)} {isOpen : Bool} {c : String}
      {present : NameMap String} (hof : kind.fieldsOf? (repo.find c) = some present)
      (hclosed : isOpen = false → present.size = fs.length)
      (hlabels : ∀ e ∈ fs, ∃ r d, repo.reference? c e.1 = some r ∧ repo.canonical r = some d)
      (hfields : ∀ e ∈ fs, ∀ r d, repo.reference? c e.1 = some r → repo.canonical r = some d →
        Accepts repo b e.2 d) : Accepts repo b (.fields kind fs isOpen) c
  | vector {f : Filter} {c r d : String} (hc : repo.find c = .code (.vector r))
      (hd : repo.canonical r = some d) (h : Accepts repo b f d) : Accepts repo b (.vector f) c

/-- What satisfies a filter is a name of a code that the filter accepts. -/
theorem Satisfies.accepts (h : Satisfies repo b f subject) (hf : f.Distinct) :
    ∃ c, repo.canonical subject = some c ∧ Accepts repo b f c := by
  induction h with
  | var hc hv => exact ⟨_, hc, .var hv⟩
  | code hc hname => exact ⟨_, hc, .code hname⟩
  | @fields kind fs isOpen subject c present hc hkind hlisted hclosed _ ih =>
    cases hf with
    | fields hnodup hfs =>
      have hof := FieldsKind.fieldsOf?_eq_some_iff.2 hkind
      have hreference := reference?_of_fieldsOf? hof
      have hsize := NameMap.size_eq_length_iff hnodup (List.forall_mem_map.2 hlisted)
      rw [List.length_map] at hsize
      refine ⟨c, hc, .fields hof (fun hopen => hsize.2 (hclosed hopen)) (fun e he => ?_)
        fun e he r d hr hd => ?_⟩
      · obtain ⟨r, hr⟩ := NameMap.contains_iff.1 (hlisted e he)
        obtain ⟨d, hd, -⟩ := ih e he r hr (hfs e he)
        exact ⟨r, d, (hreference e.1).trans hr, hd⟩
      · obtain ⟨d', hd', haccepts⟩ := ih e he r ((hreference e.1).symm.trans hr) (hfs e he)
        obtain rfl : d = d' := Option.some.inj (hd.symm.trans hd')
        exact haccepts
  | vector hc hvector _ ih =>
    cases hf with
    | vector hf =>
      obtain ⟨d, hd, haccepts⟩ := ih hf
      exact ⟨_, hc, .vector hvector hd haccepts⟩

/-- What is answered for a filter that matches binds its variables such that it accepts the code. -/
def Matched (repo : Repository) (f : Filter) : Prop :=
  ∀ subject b b', f.matchFrom repo subject b = some b' →
    (∀ v c, b.get? v = some c → b'.get? v = some c) ∧
      ∃ c, repo.canonical subject = some c ∧ Accepts repo b' f c

theorem Distinct.matched (hf : f.Distinct) : Matched repo f := fun _ _ _ h =>
  have hfound := hf.found h
  ⟨hfound.kept, hfound.satisfies.accepts hf⟩

/-- All variables of a filter are bound. -/
theorem Accepts.contains (h : Accepts repo b f c) (hv : Mentions v f) : b.contains v := by
  induction hv generalizing c with
  | var =>
    cases h with
    | var h => exact NameMap.contains_of_get? h
  | field hf _ ih =>
    cases h with
    | fields _ _ hlabels hfields =>
      obtain ⟨r, d, hr, hd⟩ := hlabels _ hf
      exact ih (hfields _ hf r d hr hd)
  | element _ ih =>
    cases h with
    | vector _ _ h => exact ih h

theorem Meets.trans (h : Meets repo f₀ c₀ f c) (h' : Meets repo f c f' d) :
    Meets repo f₀ c₀ f' d := by
  induction h with
  | here => exact h'
  | field hf hr hd _ ih => exact .field hf hr hd (ih h')
  | element hr hd _ ih => exact .element hr hd (ih h')

/-- A closed filter on fields of any kind and an open one on products or unions that leaves out a
field of the code. -/
inductive Clash (repo : Repository) (c : String) : Filter → Filter → Prop
  | mk {fs gs : List (String × Filter)} {kind : FieldsKind} {l : String} (hkind : kind ≠ .any)
      (hl : (repo.reference? c l).isSome) (hout : l ∉ gs.map (·.1)) :
      Clash repo c (.fields .any fs false) (.fields kind gs true)

/-- No two parts of a filter that meet the code clash there. -/
def Strict (repo : Repository) (f : Filter) (c d : String) : Prop :=
  ∀ f₁ f₂, Meets repo f c f₁ d → Meets repo f c f₂ d → ¬Clash repo d f₁ f₂

/-- A part of a filter that meets the code is closed and on fields of any kind. -/
def Untyped (repo : Repository) (f : Filter) (c d : String) : Prop :=
  ∃ fs, Meets repo f c (.fields .any fs false) d

/-- The pattern of a filter on fields suits the code that the filter accepts. -/
theorem Meets.suits {edges : NameMap Nat} (h : Meets repo f₀ c₀ (.fields kind fs isOpen) c)
    (haccepts : Accepts repo b (.fields kind fs isOpen) c) (hnodup : (fs.map (·.1)).Nodup)
    (hedges : ∀ l, edges.contains l ↔ l ∈ fs.map (·.1)) :
    Shape.Suits repo (Strict repo f₀ c₀) (Untyped repo f₀ c₀)
      ⟨kind.pattern isOpen, edges.map fun _ => ()⟩ c := by
  cases haccepts with
  | @fields _ _ _ _ present hof hclosed hlabels _ =>
    have hreference := reference?_of_fieldsOf? hof
    have hin (l : String) (hl : l ∈ fs.map (·.1)) : (repo.reference? c l).isSome := by
      obtain ⟨e, he, rfl⟩ := List.mem_map.1 hl
      obtain ⟨r, d, hr, -⟩ := hlabels e he
      simp [hr]
    have hpresent (l : String) : present.contains l = (repo.reference? c l).isSome := by
      rw [hreference, NameMap.contains]
    have hcontains (l : String) : (edges.map fun _ => ()).contains l ↔ l ∈ fs.map (·.1) :=
      NameMap.contains_map.trans (hedges l)
    have hall (hopen : isOpen = false) (l : String) (hl : (repo.reference? c l).isSome) :
        (edges.map fun _ => ()).contains l := by
      have hsize := NameMap.size_eq_length_iff hnodup fun l hl => hpresent l ▸ hin l hl
      rw [List.length_map] at hsize
      exact (hcontains l).2 (hsize.1 (hclosed hopen) l (hpresent l ▸ hl))
    have hopen (hkind : kind ≠ .any) (hopen : isOpen = true) (hstrict : Strict repo f₀ c₀ c)
        (huntyped : Untyped repo f₀ c₀ c) (l : String) (hl : (repo.reference? c l).isSome) :
        (edges.map fun _ => ()).contains l := by
      obtain ⟨gs, hgs⟩ := huntyped
      by_contra hout
      subst hopen
      exact hstrict _ _ hgs h (.mk hkind hl fun hl => hout ((hcontains l).2 hl))
    have hconstructor : kind ≠ .union ∧ (PatternKind.bound c).isProduct repo ∨
        kind ≠ .product ∧ (PatternKind.bound c).isUnion repo := by
      rcases FieldsKind.fieldsOf?_eq_some_iff.1 hof with ⟨hkind, hc⟩ | ⟨hkind, hc⟩
      · exact .inl ⟨hkind, by simp [PatternKind.isProduct, hc]⟩
      · exact .inr ⟨hkind, by simp [PatternKind.isUnion, hc]⟩
    refine ⟨fun l hl => hin l ((hcontains l).1 hl), ?_⟩
    cases kind with
    | any =>
      cases isOpen with
      | true => trivial
      | false => exact ⟨hconstructor.imp And.right And.right, hall rfl, fun _ => ⟨fs, h⟩⟩
    | product =>
      have hproduct : (PatternKind.bound c).isProduct repo := by simpa using hconstructor
      cases isOpen with
      | true => exact ⟨hproduct, hopen (by simp) rfl⟩
      | false => exact ⟨hproduct, hall rfl⟩
    | union =>
      have hunion : (PatternKind.bound c).isUnion repo := by simpa using hconstructor
      cases isOpen with
      | true => exact ⟨hunion, hopen (by simp) rfl⟩
      | false => exact ⟨hunion, hall rfl⟩

section Building
variable {g g' : PatternGraph} {τ τ' : Nat → Option String} {vars vars' : NameMap Nat}

/-- The predicate that says which patterns suit the codes that the parts of a filter meet. -/
abbrev SuitsPart (repo : Repository) (f₀ : Filter) (c₀ : String) : Shape → String → Prop :=
  Shape.Suits repo (Strict repo f₀ c₀) (Untyped repo f₀ c₀)

/-- Patterns are added that are to be codes, the variables among them those they are bound to. -/
structure Adds (repo : Repository) (P : Shape → String → Prop) (b : NameMap String)
    (τ : Nat → Option String) (g : PatternGraph) (vars : NameMap Nat) (τ' : Nat → Option String)
    (g' : PatternGraph) : Prop where
  typed : Typed repo P τ' g' []
  size_le : g.size ≤ g'.size
  typing : ∀ n < g.size, τ' n = τ n
  vars : ∀ v n, vars.get? v = some n → ∃ c, b.get? v = some c ∧ τ' n = some c

/-- The pattern of a filter that accepts a code is added without fail, and is to be the code. -/
def Typable (repo : Repository) (P : Shape → String → Prop) (b : NameMap String) (f : Filter)
    (c : String) : Prop :=
  ∀ g τ vars, Adds repo P b τ g vars τ g → Outcome (f.buildFrom repo vars) g
    (fun r g' => ∃ τ', Adds repo P b τ g r.2 τ' g' ∧ τ' r.1 = some c) fun _ _ => False

theorem Adds.trans {P : Shape → String → Prop} {σ : Nat → Option String} {g₁ : PatternGraph}
    (h : Adds repo P b τ g vars σ g₁) (h' : Adds repo P b σ g₁ vars' τ' g') :
    Adds repo P b τ g vars' τ' g' where
  typed := h'.typed
  size_le := h.size_le.trans h'.size_le
  typing n hn := by rw [h'.typing n (hn.trans_le h.size_le), h.typing n hn]
  vars := h'.vars

theorem buildFieldsFrom_typed {P : Shape → String → Prop}
    (hfs : ∀ e ∈ fs, ∃ r, repo.reference? c e.1 = some r ∧ Typable repo P b e.2 r)
    (h : Adds repo P b τ g vars τ g) :
    Outcome (buildFieldsFrom repo fs vars) g
      (fun r g' => r.1.map (·.1) = fs.map (·.1) ∧ ∃ τ', Adds repo P b τ g r.2 τ' g' ∧
        ∀ e ∈ r.1, τ' e.2 = repo.reference? c e.1)
      fun _ _ => False := by
  induction fs generalizing g τ vars with
  | nil => exact ⟨rfl, τ, h, by simp⟩
  | cons e fs ih =>
    obtain ⟨label, f⟩ := e
    rw [List.forall_mem_cons] at hfs
    obtain ⟨⟨d, hd, htypable⟩, hrest⟩ := hfs
    rw [buildFieldsFrom, outcome_bind]
    refine (htypable g τ vars h).imp ?_ fun _ _ h => h
    rintro ⟨id, vars₁⟩ g₁ ⟨τ₁, hadds, hid⟩
    rw [outcome_bind]
    have hself : Adds repo P b τ₁ g₁ vars₁ τ₁ g₁ :=
      ⟨hadds.typed, le_rfl, fun _ _ => rfl, hadds.vars⟩
    refine (ih hrest hself).imp ?_ fun _ _ h => h
    rintro ⟨edges, vars₂⟩ g₂ ⟨hkeys, τ₂, hadds', hall⟩
    refine ⟨congrArg (label :: ·) hkeys, τ₂, hadds.trans hadds', List.forall_mem_cons.2 ⟨?_, hall⟩⟩
    rw [hadds'.typing id (hadds.typed.lt_size id d hid), hid, hd]

/-- One more pattern on top of those that were added. -/
theorem Adds.pushNode {P : Shape → String → Prop} {kind : PatternKind} {edges : NameMap Nat}
    (h : Adds repo P b τ g vars τ' g') (hP : Shape.Discipline repo P) (hkind : kind.bound? = none)
    (hc : repo.Known c) (hshape : P ⟨kind, edges.map fun _ => ()⟩ c)
    (hedges : ∀ l d, edges.get? l = some d → τ' d = repo.reference? c l) :
    Adds repo P b τ g vars (joinTyping τ' g' c) (g'.pushNode kind edges).2 where
  typed := h.typed.pushNode hP hkind hc hshape hedges
  size_le := by
    rw [size_pushNode]
    exact Nat.le_succ_of_le h.size_le
  typing n hn := by rw [joinTyping_of_ne (hn.trans_le h.size_le).ne, h.typing n hn]
  vars v n hn := by
    obtain ⟨d, hd, hτ⟩ := h.vars v n hn
    exact ⟨d, hd, by rw [joinTyping_of_ne (h.typed.lt_size n d hτ).ne, hτ]⟩

section Parts
variable {P : Shape → String → Prop} (hP : Shape.Discipline repo P) (hc : repo.Known c)
include hP hc

/-- A variable is looked up, or a new pattern is added that nothing is known about. -/
theorem typable_var (hempty : P ⟨.unconstrained, (∅ : NameMap Nat).map fun _ => ()⟩ c)
    (hb : b.get? v = some c) : Typable repo P b (.var v) c := by
  intro g τ vars h
  rw [buildFrom]
  cases hid : vars.get? v with
  | some id =>
    obtain ⟨d, hd, hτ⟩ := h.vars v id hid
    obtain rfl : c = d := Option.some.inj (hb.symm.trans hd)
    exact ⟨τ, h, hτ⟩
  | none =>
    have hpush : Adds repo P b τ g vars (joinTyping τ g c) (g.pushNode .unconstrained ∅).2 :=
      h.pushNode hP rfl hc hempty (by simp)
    rw [outcome_bind, outcome_addNode, outcome_pure, pushNode_fst]
    refine ⟨_, ⟨hpush.typed, hpush.size_le, hpush.typing, fun w n hn => ?_⟩, by simp [joinTyping]⟩
    rw [NameMap.get?_insert] at hn
    split_ifs at hn with hw
    · obtain rfl := Option.some.inj hn
      exact ⟨c, hw ▸ hb, by simp [joinTyping]⟩
    · exact hpush.vars w n hn

/-- The pattern of a code has the code at its root, and old nodes are to be what they were to be. -/
theorem typable_code (hrepo : repo.Consistent) (hname : repo.canonical name = some c) :
    Typable repo P b (.code name) c := by
  intro g τ vars h
  rw [buildFrom, outcome_bind, boundNode_of_canonical hc hname]
  refine (boundNode_outcome_of_known hrepo hc h.typed.formed).imp (fun id g' hbinds => ?_)
    fun _ _ h => h
  obtain ⟨d, hd, hrecorded⟩ := hbinds.recorded
  obtain rfl : c = d := Option.some.inj (hc.canonical.symm.trans hd)
  refine ⟨_, ⟨h.typed.typed_of_binds hbinds hrepo hP, hbinds.grows.size_le,
    fun n hn => extendTyping_of_lt hn, fun v n hn => ?_⟩,
    h.typed.extendTyping_of_recorded hbinds hrecorded⟩
  obtain ⟨e, he, hτ⟩ := h.vars v n hn
  exact ⟨e, he, by rw [extendTyping_of_lt (h.typed.lt_size n e hτ), hτ]⟩

/-- The patterns of the fields are added one after the other, and then one on top of them. -/
theorem typable_fields (hfs : ∀ e ∈ fs, ∃ r, repo.reference? c e.1 = some r ∧
      Typable repo P b e.2 r)
    (hshape : ∀ edges : NameMap Nat, (∀ l, edges.contains l ↔ l ∈ fs.map (·.1)) →
      P ⟨kind.pattern isOpen, edges.map fun _ => ()⟩ c) :
    Typable repo P b (.fields kind fs isOpen) c := by
  intro g τ vars h
  rw [buildFrom, outcome_bind]
  refine (buildFieldsFrom_typed hfs h).imp ?_ fun _ _ h => h
  rintro ⟨edges, vars₁⟩ g₁ ⟨hkeys, τ₁, hadds, hedges⟩
  have hlabels (l : String) : (NameMap.ofList edges).contains l ↔ l ∈ fs.map (·.1) := by
    rw [NameMap.contains_ofList]
    exact hkeys ▸ Iff.rfl
  rw [outcome_bind, outcome_addNode, outcome_pure, pushNode_fst]
  exact ⟨_, hadds.pushNode hP (bound?_pattern kind isOpen) hc (hshape _ hlabels)
    fun l d hd => hedges (l, d) (NameMap.mem_of_get?_ofList hd), by simp [joinTyping]⟩

/-- The pattern of the elements is added, and then a vector on top of it. -/
theorem typable_vector (hr : repo.reference? c Text.vectorMember = some d)
    (hmember : Typable repo P b f d)
    (hshape : ∀ edges : NameMap Nat, (∀ l, edges.contains l ↔ l = Text.vectorMember) →
      P ⟨.vector, edges.map fun _ => ()⟩ c) : Typable repo P b (.vector f) c := by
  intro g τ vars h
  rw [buildFrom, outcome_bind]
  refine (hmember g τ vars h).imp ?_ fun _ _ h => h
  rintro ⟨member, vars₁⟩ g₁ ⟨τ₁, hadds, hτ⟩
  have hlabels (l : String) :
      (NameMap.ofList [(Text.vectorMember, member)]).contains l ↔ l = Text.vectorMember := by
    simp [NameMap.contains_ofList]
  rw [outcome_bind, outcome_addNode, outcome_pure, pushNode_fst]
  refine ⟨_, hadds.pushNode hP rfl hc (hshape _ hlabels) fun l n hn => ?_, by simp [joinTyping]⟩
  obtain ⟨rfl, rfl⟩ := NameMap.get?_ofList_singleton.1 hn
  exact hτ.trans hr.symm

end Parts

/-- The pattern of a filter can be added where the filter accepts the code. -/
theorem Distinct.typable (hf : f.Distinct) (hrepo : repo.Consistent) (hc : repo.Known c)
    (hmeets : Meets repo f₀ c₀ f c) (haccepts : Accepts repo b f c) :
    Typable repo (SuitsPart repo f₀ c₀) b f c := by
  have hP := Shape.discipline_suits repo (Strict repo f₀ c₀) (Untyped repo f₀ c₀)
  induction hf generalizing c with
  | var name =>
    cases haccepts with
    | var hb =>
      refine typable_var hP hc ⟨fun x hx => ?_, trivial⟩ hb
      exact absurd (NameMap.contains_map.1 hx) (by simp [NameMap.contains])
  | code name =>
    cases haccepts with
    | code hname => exact typable_code hP hc hrepo hname
  | @fields kind fs isOpen hnodup hfields ih =>
    refine typable_fields hP hc (fun e he => ?_) fun edges hedges =>
      hmeets.suits haccepts hnodup hedges
    cases haccepts with
    | fields _ _ hlabels hfields =>
      obtain ⟨r, d, hr, hd⟩ := hlabels e he
      have hknown := hrepo.reference_known hc hr
      have hself := hknown.canonical
      exact ⟨r, hr, ih e he hknown (hmeets.trans (.field he hr hself .here))
        (hfields e he r r hr hself)⟩
  | @vector f hf ih =>
    cases haccepts with
    | @vector _ _ r d hfind hd haccepts =>
      have hr : repo.reference? c Text.vectorMember = some r := by
        simp [Repository.reference?, hfind]
      have hknown := hrepo.reference_known hc hr
      obtain rfl : r = d := Option.some.inj (hknown.canonical.symm.trans hd)
      refine typable_vector hP hc hr (ih hknown (hmeets.trans (.element hr hd .here)) haccepts)
        fun edges hedges => ⟨fun l hl => ?_, PatternKind.isVector_bound_iff.2 ⟨r, hfind⟩⟩
      obtain rfl := (hedges l).1 (NameMap.contains_map.1 hl)
      rw [hr]
      rfl

/-- Next to the patterns that are to be codes, that of a code can be merged in good order. -/
theorem orderly_pair {P : Shape → String → Prop} {root id : Nat} (hrepo : repo.Consistent)
    (hg : g.Settled repo []) (h : Typed repo P τ g []) (hroot : τ root = some c)
    (hcode : g.kind id = .bound c) : Orderly repo c τ g [[root, id]] := by
  have hid := h.bound id c hcode
  have hpair {ids : List Nat} (hids : ids ∈ [[root, id]]) {a : Nat} (ha : a ∈ ids) :
      (a = root ∨ a = id) ∧ τ a = some c := by
    obtain rfl := List.mem_singleton.1 hids
    simp only [List.mem_cons, List.not_mem_nil, or_false] at ha
    rcases ha with rfl | rfl
    · exact ⟨.inl rfl, hroot⟩
    · exact ⟨.inr rfl, hid⟩
  constructor
  case reached =>
    intro ids hids a ha t ht
    obtain rfl : c = t := Option.some.inj ((hpair hids ha).2.symm.trans ht)
    exact .refl
  case anchored =>
    intro ids hids a ha t ht _
    obtain rfl : c = t := Option.some.inj ((hpair hids ha).2.symm.trans ht)
    obtain rfl := List.mem_singleton.1 hids
    exact ⟨id, by simp, hcode⟩
  case single =>
    intro ids hids a ha b hb t ht _ hna hnb
    obtain rfl : c = t := Option.some.inj ((hpair hids ha).2.symm.trans ht)
    rcases (hpair hids ha).1 with rfl | rfl
    · rcases (hpair hids hb).1 with rfl | rfl
      · rfl
      · exact (hnb hcode).elim
    · exact (hna hcode).elim
  case waiting =>
    intro n e l d t _ hn hd ht _
    obtain ⟨r, -, hbound⟩ := hg.reference_of_bound hrepo hn hd
    obtain rfl : r = t := Option.some.inj ((h.bound d r hbound).symm.trans ht)
    exact .inl hbound

/-- What is to be a code is merged with the pattern of the code without fail. -/
theorem exists_unify_of_typed {root : Nat} (hrepo : repo.Consistent)
    (hname : repo.canonical name = some c) (hcalm : ∀ d, Strict repo f c d ∨ repo.Calm c d)
    (hg : g.Settled repo []) (h : Typed repo (SuitsPart repo f c) τ g []) (hroot : τ root = some c)
    (rule : String) : ∃ id changed g₁ g₂, boundNode repo name g = .ok id g₁ ∧
      unify repo rule [root, id] g₁ = .ok changed g₂ := by
  have hP := Shape.discipline_suits repo (Strict repo f c) (Untyped repo f c)
  have hknown : repo.Known c := hrepo.canonical_known hname
  have hbinds := boundNode_outcome_of_known hrepo hknown h.formed
  rw [← boundNode_of_canonical hknown hname] at hbinds
  cases hcode : boundNode repo name g with
  | error e g₁ => exact (hbinds.of_error hcode).elim
  | ok id g₁ =>
    have hb := (boundNode_outcome hg.formed).of_ok hcode
    have hτ := h.typed_of_binds hb hrepo hP
    obtain ⟨c', hc', hrecorded⟩ := hb.recorded
    obtain rfl : c = c' := Option.some.inj (hname.symm.trans hc')
    have hid := hb.formed.kind_of_bound (hb.formed.codes c id hrecorded)
    have hroot' : extendTyping τ g g₁ root = some c := by
      rw [extendTyping_of_lt (h.lt_size root c hroot), hroot]
    have hpair : ∀ i ∈ [root, id], extendTyping τ g g₁ i = some c := by
      simp [hroot', hτ.bound id c hid]
    have horder := orderly_pair hrepo (hg.binds hrepo.aliasesKnown hb) hτ hroot' hid
    have hfree : ¬GetsStuck repo rule (g₁, [[root, id]]) :=
      horder.not_getsStuck hrepo (hτ.cons hpair) hcalm
    have hmerges := hτ.unify_outcome_of_not_getsStuck hP hpair hfree
    cases hunify : unify repo rule [root, id] g₁ with
    | error e g₂ => exact (hmerges.of_error hunify).elim
    | ok changed g₂ => exact ⟨id, changed, g₁, g₂, rfl, hunify⟩

theorem typed_empty (repo : Repository) (P : Shape → String → Prop) :
    Typed repo P (fun _ => none) {} [] where
  ready := ready_nil_iff.2 (@settled_empty repo).formed
  classes _ := rfl
  pending := by simp
  lt_size := by simp
  known := by simp
  bound n c hn := by
    cases hn
  shapes := by simp
  edges := by simp

/-- The pattern of a filter that accepts a code is drawn, and its root is to be the code. -/
theorem Distinct.exists_filterNode_of_accepts (hf : f.Distinct) (hrepo : repo.Consistent)
    (hc : repo.Known c) (haccepts : Accepts repo b f c) :
    ∃ root vars τ g, filterNode repo f {} = .ok root g ∧ Draws repo vars g f root ∧
      g.Settled repo [] ∧ Typed repo (SuitsPart repo f c) τ g [] ∧ τ root = some c := by
  have hstart : ({} : PatternGraph).Settled repo [] := settled_empty
  have hempty : Adds repo (SuitsPart repo f c) b (fun _ => none) {} ∅ (fun _ => none) {} :=
    ⟨typed_empty repo _, le_rfl, fun _ _ => rfl, by simp⟩
  have hbuilds := hf.typable hrepo hc .here haccepts {} _ ∅ hempty
  have hfresh (v : String) (i : Nat) (hi : (∅ : NameMap Nat).get? v = some i) :
      i < ({} : PatternGraph).size := by simp at hi
  have hdrawn : Outcome (f.buildFrom repo ∅) {} _ _ := f.buildFrom_outcome hstart.formed hfresh
  cases hbuild : f.buildFrom repo ∅ {} with
  | error e g => exact (hbuilds.of_error hbuild).elim
  | ok r g =>
    obtain ⟨root, vars⟩ := r
    obtain ⟨τ, hadds, hroot⟩ := hbuilds.of_ok hbuild
    obtain ⟨-, hbuilt, hdraws⟩ := hdrawn.of_ok hbuild
    have hfilter : filterNode repo f {} = .ok root g := by
      rw [filterNode]
      change EStateM.map _ _ _ = _
      rw [EStateM.map, hbuild]
    have hg := hbuilt.evolves.settled hrepo.aliasesKnown hstart
    exact ⟨root, vars, τ, g, hfilter, hdraws, hg, hadds.typed, hroot⟩

/-- If a filter matches a code, its pattern is merged with that of the code without fail, and the
class of each variable is the code it is bound to, unless parts of the filter clash at a code that
is reached through a recursive one. -/
theorem exists_unify_of_matchCode? (hrepo : repo.Reachable) (hf : f.Distinct)
    (hname : repo.canonical name = some c) (hmatch : f.matchCode? repo name = some b)
    (hclash : ∀ d f₁ f₂, Meets repo f c f₁ d → Meets repo f c f₂ d → Clash repo d f₁ f₂ →
      repo.Calm c d) (rule : String) :
    ∃ root id changed g₁ g₂ g₃ vars, filterNode repo f {} = .ok root g₁ ∧
      boundNode repo name g₁ = .ok id g₂ ∧ unify repo rule [root, id] g₂ = .ok changed g₃ ∧
      Draws repo vars g₁ f root ∧ ∀ v, Mentions v f → ∃ n d, vars.get? v = some n ∧
        b.get? v = some d ∧ g₃.kind n = .bound d := by
  have hconsistent := hrepo.consistent
  obtain ⟨-, c', hc', haccepts⟩ := hf.matched name ∅ b hmatch
  obtain rfl : c = c' := Option.some.inj (hname.symm.trans hc')
  have hcalm (d : String) : Strict repo f c d ∨ repo.Calm c d := by
    refine or_iff_not_imp_left.2 fun hnot => ?_
    simp only [Strict, not_forall, not_not] at hnot
    obtain ⟨f₁, f₂, h₁, h₂, hboth⟩ := hnot
    exact hclash d f₁ f₂ h₁ h₂ hboth
  obtain ⟨root, vars, τ, g₁, hfilter, hdraws, hg₁, htyped, hroot⟩ :=
    hf.exists_filterNode_of_accepts hconsistent (hconsistent.canonical_known hname) haccepts
  obtain ⟨id, changed, g₂, g₃, hcode, hunify⟩ :=
    exists_unify_of_typed hconsistent hname hcalm hg₁ htyped hroot rule
  have hlt := htyped.lt_size root c hroot
  have hanswers := hf.answers_of_unify hconsistent.aliasesKnown hname hg₁ hlt hdraws hcode hunify
  rw [hmatch] at hanswers
  refine ⟨root, id, changed, g₁, g₂, g₃, vars, hfilter, hcode, hunify, hdraws, fun v hv => ?_⟩
  obtain ⟨d, hd⟩ := NameMap.contains_iff.1 (haccepts.contains hv)
  obtain ⟨n, hn, hkind⟩ := hanswers.1 v d hd
  exact ⟨n, d, hn, hd, hkind⟩

end Building

section Examples

theorem exists_unify_of_matchCode?_tailOf : Repository.ofStream.Reachable ∧ tailOf.Distinct ∧
    Repository.ofStream.canonical "S" = some "rArHSMQzZK" ∧
    tailOf.matchCode? .ofStream "S" = some (.ofList [("rest", "rArHSMQzZK")]) ∧
    (∀ d f₁ f₂, Meets .ofStream tailOf "rArHSMQzZK" f₁ d →
      Meets .ofStream tailOf "rArHSMQzZK" f₂ d → Clash .ofStream d f₁ f₂ →
      Repository.ofStream.Calm "rArHSMQzZK" d) ∧
    ∃ root id changed g₁ g₂ g₃ vars, filterNode .ofStream tailOf {} = .ok root g₁ ∧
      boundNode .ofStream "S" g₁ = .ok id g₂ ∧
      unify .ofStream "filter" [root, id] g₂ = .ok changed g₃ ∧
      Draws .ofStream vars g₁ tailOf root ∧ ∀ v, Mentions v tailOf → ∃ n d, vars.get? v = some n ∧
        (NameMap.ofList [("rest", "rArHSMQzZK")]).get? v = some d ∧ g₃.kind n = .bound d := by
  have hdistinct : tailOf.Distinct := .fields (by decide) (by simp [Distinct.var])
  have hname : Repository.ofStream.canonical "S" = some "rArHSMQzZK" := by decide +kernel
  have hmatch : tailOf.matchCode? .ofStream "S" = some (.ofList [("rest", "rArHSMQzZK")]) := by
    decide +kernel
  -- No part of the filter is closed.
  have hclash (d : String) (f₁ f₂ : Filter) (h₁ : Meets .ofStream tailOf "rArHSMQzZK" f₁ d)
      (_ : Meets .ofStream tailOf "rArHSMQzZK" f₂ d) (hboth : Clash .ofStream d f₁ f₂) :
      Repository.ofStream.Calm "rArHSMQzZK" d := by
    cases hboth
    cases h₁ with
    | field hf _ _ h =>
      obtain ⟨-, rfl⟩ := Prod.mk.inj (List.mem_singleton.1 hf)
      cases h
  exact ⟨Repository.ofStream_reachable, hdistinct, hname, hmatch, hclash,
    exists_unify_of_matchCode? Repository.ofStream_reachable hdistinct hname hmatch hclash "filter"⟩

/-- A product of two parts that are like itself. -/
def twoOfAKind : List Repository.Call :=
  [.registerCodes (.ofList [("c", .product (.ofList [("a", "c"), ("b", "c")]))])]

/-- Under `b` there is a closed pattern of any kind, under `a` and `b` an open product. -/
def twoSided : Filter := .fields .product
  [("a", .fields .product [("b", .fields .product [] true)] true),
    ("b", .fields .any [("a", .var "p"), ("b", .var "q")] false)] true

/-- The pattern of the filter, and next to it that of the product. -/
def twoSidedPattern : PatternGraph :=
  ((((((({} : PatternGraph).pushNode .openProduct ∅).2.pushNode .openProduct
    (.ofList [("b", 0)])).2.pushNode .unconstrained ∅).2.pushNode .unconstrained ∅).2.pushNode
      .closedUntyped (.ofList [("a", 2), ("b", 3)])).2.pushNode .openProduct
        (.ofList [("a", 1), ("b", 4)])).2

/-- A filter that matches a recursive code cannot always be merged with its pattern. -/
theorem matches_without_unify : ∃ (repo : Repository) (b : NameMap String) (g : PatternGraph),
    repo.Reachable ∧ twoSided.matchCode? repo "c" = some b ∧
    filterNode repo twoSided {} = .ok 5 twoSidedPattern ∧
    boundNode repo "c" twoSidedPattern = .ok 6 g ∧
    ¬∃ changed g', unify repo "filter" [5, 6] g = .ok changed g' := by
  let repo := twoOfAKind.foldl Repository.after .initial
  let g := ((twoSidedPattern.pushCode "BRCsHFUuGTY").withEdge 6 "a" 6).withEdge 6 "b" 6
  have hreachable : repo.Reachable := by
    refine ⟨twoOfAKind, ?_, rfl⟩
    rintro _ hcall
    obtain rfl := List.mem_singleton.1 hcall
    exact Codes.WellFormed.names (by decide)
  have hfails : (match unify repo "filter" [5, 6] g with
      | .ok _ _ => false
      | .error _ _ => true) = true := by decide +kernel
  refine ⟨repo, .ofList [("p", "BRCsHFUuGTY"), ("q", "BRCsHFUuGTY")], g, hreachable,
    by decide +kernel, by decide +kernel, by decide +kernel, ?_⟩
  rintro ⟨changed, g', hok⟩
  rw [hok] at hfails
  cases hfails

end Examples

end Filter

end StructuralTyping
