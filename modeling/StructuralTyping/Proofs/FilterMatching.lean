import StructuralTyping.Proofs.FilterSoundness

/-!
# Matching solves a filter

Under bindings of its variables a filter says which codes satisfy it, without an order in which its
parts are looked at. Matching reads the parts one after the other and binds a variable where it
meets it first. Nothing is lost by this: what it binds is bound alike by every solution, so that
the answer is the solution, if there is one.
-/
namespace StructuralTyping

namespace NameMap
variable {α : Type} {m n p : NameMap α}

/-- What a map holds is held by another map under the same name. -/
def Within (m n : NameMap α) : Prop := ∀ k a, m.get? k = some a → n.get? k = some a

theorem Within.refl (m : NameMap α) : m.Within m := fun _ _ h => h

theorem Within.trans (h : m.Within n) (h' : n.Within p) : m.Within p :=
  fun k a hk => h' k a (h k a hk)

theorem empty_within (m : NameMap α) : (∅ : NameMap α).Within m := by
  simp [Within]

theorem within_insert {k : String} (hk : m.get? k = none) (a : α) :
    m.Within (m.insert k a) := by
  intro l b hl
  rw [get?_insert, if_neg, hl]
  rintro rfl
  cases hk.symm.trans hl

theorem insert_within {k : String} {a : α} (h : m.Within n) (hk : n.get? k = some a) :
    (m.insert k a).Within n := by
  intro l b hl
  rw [get?_insert] at hl
  split_ifs at hl with heq
  · obtain rfl := Option.some.inj hl
    rw [heq, hk]
  · exact h l b hl

/-- A map that holds no more names than one within it is this map. -/
theorem Within.eq (h : m.Within n) (hkeys : ∀ k, n.contains k → m.contains k) : m = n := by
  apply NameMap.ext
  intro k
  cases hm : m.get? k with
  | some a => exact (h k a hm).symm
  | none => exact (get?_eq_none_iff.2 fun hn => get?_eq_none_iff.1 hm (hkeys k hn)).symm

end NameMap

namespace Filter
variable {repo : Repository} {f : Filter} {fs : List (String × Filter)} {subject : String}
  {present b b' b₀ : NameMap String}

/-- The variables of a filter. -/
inductive Mentions (v : String) : Filter → Prop
  | var : Mentions v (.var v)
  | field {kind : FieldsKind} {fs : List (String × Filter)} {isOpen : Bool} {l : String}
      {f : Filter} (hf : (l, f) ∈ fs) (h : Mentions v f) : Mentions v (.fields kind fs isOpen)
  | element {f : Filter} (h : Mentions v f) : Mentions v (.vector f)

theorem mentions_var_iff {v name : String} : Mentions v (.var name) ↔ v = name :=
  ⟨fun h => by cases h; rfl, fun h => h ▸ .var⟩

theorem mentions_fields_iff {v : String} {kind : FieldsKind} {isOpen : Bool} :
    Mentions v (.fields kind fs isOpen) ↔ ∃ e ∈ fs, Mentions v e.2 :=
  ⟨fun h => by cases h with | field hf h => exact ⟨_, hf, h⟩, fun ⟨_, he, h⟩ => .field he h⟩

theorem mentions_vector_iff {v : String} : Mentions v (.vector f) ↔ Mentions v f :=
  ⟨fun h => by cases h; assumption, .element⟩

/-- The code with a name satisfies a filter whose variables stand for the given codes. -/
inductive Satisfies (repo : Repository) (b : NameMap String) : Filter → String → Prop
  | var {v subject c : String} (hc : repo.canonical subject = some c) (hv : b.get? v = some c) :
      Satisfies repo b (.var v) subject
  | code {name subject c : String} (hc : repo.canonical subject = some c)
      (hname : repo.canonical name = some c) : Satisfies repo b (.code name) subject
  | fields {kind : FieldsKind} {fs : List (String × Filter)} {isOpen : Bool} {subject c : String}
      {present : NameMap String} (hc : repo.canonical subject = some c)
      (hkind : kind ≠ .union ∧ repo.find c = .code (.product present) ∨
        kind ≠ .product ∧ repo.find c = .code (.union present))
      (hlisted : ∀ e ∈ fs, present.contains e.1)
      (hclosed : isOpen = false → ∀ l, present.contains l → l ∈ fs.map (·.1))
      (hfields : ∀ e ∈ fs, ∀ r, present.get? e.1 = some r → Satisfies repo b e.2 r) :
      Satisfies repo b (.fields kind fs isOpen) subject
  | vector {f : Filter} {subject c r : String} (hc : repo.canonical subject = some c)
      (hvector : repo.find c = .code (.vector r)) (h : Satisfies repo b f r) :
      Satisfies repo b (.vector f) subject

theorem Satisfies.mono (h : Satisfies repo b f subject) (hle : b.Within b') :
    Satisfies repo b' f subject := by
  induction h with
  | var hc hv => exact .var hc (hle _ _ hv)
  | code hc hname => exact .code hc hname
  | fields hc hkind hlisted hclosed _ ih => exact .fields hc hkind hlisted hclosed ih
  | vector hc hvector _ ih => exact .vector hc hvector ih

/-- A filter is matched by bindings of its variables that are added to those there were. -/
structure Found (repo : Repository) (f : Filter) (subject : String) (b₀ b : NameMap String) :
    Prop where
  kept : b₀.Within b
  domain : ∀ v, b.contains v ↔ b₀.contains v ∨ Mentions v f
  satisfies : Satisfies repo b f subject

/-- Fields are matched one after the other, each under the bindings found before it. -/
theorem found_of_matchFieldsFrom
    (hfs : ∀ e ∈ fs, ∀ subject b₀ b, e.2.matchFrom repo subject b₀ = some b →
      Found repo e.2 subject b₀ b)
    (h : matchFieldsFrom repo fs present b₀ = some b) :
    b₀.Within b ∧ (∀ v, b.contains v ↔ b₀.contains v ∨ ∃ e ∈ fs, Mentions v e.2) ∧
      ∀ e ∈ fs, ∃ r, present.get? e.1 = some r ∧ Satisfies repo b e.2 r := by
  induction fs generalizing b₀ with
  | nil =>
    obtain rfl := Option.some.inj h
    exact ⟨.refl b₀, by simp, by simp⟩
  | cons e fs ih =>
    obtain ⟨label, f⟩ := e
    rw [List.forall_mem_cons] at hfs
    simp only [matchFieldsFrom, Option.bind_eq_bind, Option.bind_eq_some_iff] at h
    obtain ⟨r, hr, b₁, hmatch, hrest⟩ := h
    have hfirst := hfs.1 r b₀ b₁ hmatch
    obtain ⟨hkept, hdomain, hall⟩ := ih hfs.2 hrest
    refine ⟨hfirst.kept.trans hkept, fun v => ?_,
      List.forall_mem_cons.2 ⟨⟨r, hr, hfirst.satisfies.mono hkept⟩, hall⟩⟩
    simp [hdomain, hfirst.domain, or_assoc]

/-- What is answered binds the variables of the filter such that the code satisfies it. -/
theorem Distinct.found (hf : f.Distinct) (h : f.matchFrom repo subject b₀ = some b) :
    Found repo f subject b₀ b := by
  induction hf generalizing subject b₀ b with
  | var name =>
    simp only [matchFrom, Option.bind_eq_bind, Option.bind_eq_some_iff] at h
    obtain ⟨c, hc, h⟩ := h
    cases hbound : b₀.get? name with
    | some d =>
      simp only [hbound, Option.ite_none_right_eq_some, Option.some.injEq] at h
      obtain ⟨rfl, rfl⟩ := h
      refine ⟨.refl b₀, fun v => ?_, .var hc hbound⟩
      rw [mentions_var_iff, or_iff_left_of_imp]
      rintro rfl
      exact NameMap.contains_of_get? hbound
    | none =>
      simp only [hbound, Option.some.injEq] at h
      subst h
      refine ⟨NameMap.within_insert hbound c, fun v => ?_, .var hc (by simp [NameMap.get?_insert])⟩
      rw [NameMap.contains_insert, mentions_var_iff, or_comm]
  | code name =>
    simp only [matchFrom, Option.bind_eq_bind, Option.bind_eq_some_iff,
      Option.ite_none_right_eq_some, Option.some.injEq] at h
    obtain ⟨c, hc, hname, rfl⟩ := h
    exact ⟨.refl b₀, fun v => (or_iff_left (by rintro ⟨⟩)).symm, .code hc hname⟩
  | @fields kind fs isOpen hnodup _ ih =>
    simp only [matchFrom, Option.bind_eq_bind, Option.bind_eq_some_iff] at h
    obtain ⟨c, hc, present, hof, h⟩ := h
    split_ifs at h with hcount
    obtain ⟨hkept, hdomain, hall⟩ := found_of_matchFieldsFrom (fun e he _ _ _ => ih e he) h
    have hlisted (e : String × Filter) (he : e ∈ fs) : present.contains e.1 := by
      obtain ⟨r, hr, -⟩ := hall e he
      exact NameMap.contains_of_get? hr
    have hsize := NameMap.size_eq_length_iff hnodup (List.forall_mem_map.2 hlisted)
    rw [List.length_map] at hsize
    refine ⟨hkept, fun v => by rw [hdomain, mentions_fields_iff], .fields hc
      (FieldsKind.fieldsOf?_eq_some_iff.1 hof) hlisted (fun hclosed => hsize.1 ?_)
      fun e he r hr => ?_⟩
    · simpa [hclosed] using hcount
    · obtain ⟨r', hr', hsatisfies⟩ := hall e he
      obtain rfl : r = r' := Option.some.inj (hr.symm.trans hr')
      exact hsatisfies
  | @vector f _ ih =>
    simp only [matchFrom, Option.bind_eq_bind, Option.bind_eq_some_iff] at h
    obtain ⟨c, hc, h⟩ := h
    split at h
    case h_1 r hvector =>
      have hfound := ih h
      refine ⟨hfound.kept, fun v => ?_, .vector hc hvector hfound.satisfies⟩
      rw [hfound.domain, mentions_vector_iff]
    case h_2 => cases h

/-- No field excludes bindings under which all fields are satisfied. -/
theorem exists_matchFieldsFrom (hlisted : ∀ e ∈ fs, present.contains e.1)
    (hfs : ∀ e ∈ fs, ∀ r, present.get? e.1 = some r → ∀ b₀ : NameMap String, b₀.Within b →
      ∃ b₁, e.2.matchFrom repo r b₀ = some b₁ ∧ b₁.Within b) (hle : b₀.Within b) :
    ∃ b₁, matchFieldsFrom repo fs present b₀ = some b₁ ∧ b₁.Within b := by
  induction fs generalizing b₀ with
  | nil => exact ⟨b₀, rfl, hle⟩
  | cons e fs ih =>
    obtain ⟨label, f⟩ := e
    rw [List.forall_mem_cons] at hlisted hfs
    obtain ⟨r, hr⟩ := NameMap.contains_iff.1 hlisted.1
    obtain ⟨b₁, hfirst, hle₁⟩ := hfs.1 r hr b₀ hle
    obtain ⟨b₂, hrest, hle₂⟩ := ih hlisted.2 hfs.2 hle₁
    exact ⟨b₂, by simp [matchFieldsFrom, hr, hfirst, hrest], hle₂⟩

/-- If bindings satisfy a filter, matching succeeds from any part of them and stays within them. -/
theorem Satisfies.exists_matchFrom (h : Satisfies repo b f subject) (hf : f.Distinct)
    (hle : b₀.Within b) : ∃ b₁, f.matchFrom repo subject b₀ = some b₁ ∧ b₁.Within b := by
  induction h generalizing b₀ with
  | @var v subject c hc hv =>
    simp only [matchFrom, hc, Option.bind_eq_bind, Option.bind_some]
    cases hbound : b₀.get? v with
    | some d =>
      obtain rfl : c = d := Option.some.inj (hv.symm.trans (hle v d hbound))
      exact ⟨b₀, by simp, hle⟩
    | none => exact ⟨_, rfl, NameMap.insert_within hle hv⟩
  | code hc hname => exact ⟨b₀, by simp [matchFrom, hc, hname], hle⟩
  | @fields kind fs isOpen subject c present hc hkind hlisted hclosed _ ih =>
    cases hf with
    | fields hnodup hfs =>
      have hsize := NameMap.size_eq_length_iff hnodup (List.forall_mem_map.2 hlisted)
      rw [List.length_map] at hsize
      have hall : ∃ b₁, matchFieldsFrom repo fs present b₀ = some b₁ ∧ b₁.Within b :=
        exists_matchFieldsFrom hlisted (fun e he r hr _ => ih e he r hr (hfs e he)) hle
      obtain ⟨b₁, hmatch, hle₁⟩ := hall
      refine ⟨b₁, ?_, hle₁⟩
      simp only [matchFrom, hc, FieldsKind.fieldsOf?_eq_some_iff.2 hkind, Option.bind_eq_bind,
        Option.bind_some]
      cases isOpen with
      | true => simpa using hmatch
      | false => simpa [hsize.2 (hclosed rfl)] using hmatch
  | vector hc hvector _ ih =>
    cases hf with
    | vector hf =>
      obtain ⟨b₁, hmatch, hle₁⟩ := ih hf hle
      exact ⟨b₁, by simp [matchFrom, hc, hvector, hmatch], hle₁⟩

/-- Bindings of the variables of a filter, and of no others, such that the code satisfies it. -/
structure Solves (repo : Repository) (f : Filter) (subject : String) (b : NameMap String) :
    Prop where
  domain : ∀ v, b.contains v ↔ Mentions v f
  satisfies : Satisfies repo b f subject

/-- What is matched is what solves the filter. There is at most one solution, and none exactly if
there is no answer. -/
theorem Distinct.matchCode?_solves (hf : f.Distinct) :
    (∀ b, f.matchCode? repo subject = some b ↔ Solves repo f subject b) ∧
    (∀ b b', Solves repo f subject b → Solves repo f subject b' → b = b') ∧
    (f.matchCode? repo subject = none ↔ ∀ b, ¬Solves repo f subject b) := by
  have hanswers (b : NameMap String) :
      f.matchCode? repo subject = some b ↔ Solves repo f subject b := by
    constructor
    · intro h
      have hfound := hf.found h
      exact ⟨fun v => (hfound.domain v).trans (or_iff_right (by simp [NameMap.contains])),
        hfound.satisfies⟩
    · rintro ⟨hdomain, hsatisfies⟩
      obtain ⟨b₁, hmatch, hle⟩ := hsatisfies.exists_matchFrom hf (NameMap.empty_within b)
      have hfound := hf.found hmatch
      have hequal : b₁ = b := hle.eq fun v hv => (hfound.domain v).2 (.inr ((hdomain v).1 hv))
      exact hequal ▸ hmatch
  refine ⟨hanswers, fun b b' h h' => ?_, ?_⟩
  · exact Option.some.inj (((hanswers b).2 h).symm.trans ((hanswers b').2 h'))
  · simp only [Option.eq_none_iff_forall_ne_some, ne_eq, hanswers]

section Examples

/-- Products with a head and a tail, and nothing else. -/
def headAndTail : Filter := .fields .product [("head", .var "item"), ("tail", .var "rest")] false

/-- A product whose fields hold one code. -/
def sameHeadAndTail : Filter :=
  .fields .product [("head", .var "item"), ("tail", .var "item")] true

/-- The tail of a stream of integers is this stream, which is not an integer. -/
theorem headAndTail_solves_stream : headAndTail.Distinct ∧ sameHeadAndTail.Distinct ∧
    Solves .ofStream headAndTail "S" (.ofList [("item", "@int"), ("rest", "rArHSMQzZK")]) ∧
    (∀ b, Solves .ofStream headAndTail "S" b →
      b = .ofList [("item", "@int"), ("rest", "rArHSMQzZK")]) ∧
    ∀ b, ¬Solves .ofStream sameHeadAndTail "S" b := by
  have hdistinct : headAndTail.Distinct := .fields (by decide) (by simp [Distinct.var])
  have hsame : sameHeadAndTail.Distinct := .fields (by decide) (by simp [Distinct.var])
  obtain ⟨hanswers, hunique, -⟩ := @Distinct.matchCode?_solves .ofStream _ "S" hdistinct
  obtain ⟨-, -, hnone⟩ := @Distinct.matchCode?_solves .ofStream _ "S" hsame
  have hsolves := (hanswers (.ofList [("item", "@int"), ("rest", "rArHSMQzZK")])).1
    (by decide +kernel)
  exact ⟨hdistinct, hsame, hsolves, fun b h => hunique b _ h hsolves,
    hnone.1 (by decide +kernel)⟩

end Examples

end Filter

end StructuralTyping
