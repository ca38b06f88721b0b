import StructuralTyping.Proofs.BoundClasses
import StructuralTyping.Proofs.FilterPatterns
import StructuralTyping.Proofs.KnownNames

/-!
# What merges also matches

If the pattern of a filter is merged with the pattern of a code, the classes of the parts of the
filter are the codes that these parts meet when the filter is followed along the code. Matching then
fails in two cases only, in which joining shapes asks for less: a filter on fields of any kind goes
together with a code that has no fields, and a closed filter with a union that has further
alternatives.
-/
namespace StructuralTyping

open PatternGraph Build

namespace NameMap
variable {α : Type} {m : NameMap α} {labels : List String}

/-- A map that has all of some distinct keys has as many keys exactly if it has no others. -/
theorem size_eq_length_iff (hnodup : labels.Nodup) (hin : ∀ l ∈ labels, m.contains l) :
    m.size = labels.length ↔ ∀ l, m.contains l → l ∈ labels := by
  have hkeys : m.keys.Nodup := m.nodup_keys
  have hsize : m.size = m.keys.length := (List.length_map _).symm
  have hsub : labels ⊆ m.keys := fun l hl => mem_keys_iff.2 (hin l hl)
  rw [hsize]
  constructor
  · intro hlength l hl
    have hperm := (hnodup.subperm hsub).perm_of_length_le hlength.le
    exact hperm.mem_iff.2 (mem_keys_iff.2 hl)
  · intro hall
    have hsub' : m.keys ⊆ labels := fun l hl => hall l (mem_keys_iff.1 hl)
    exact le_antisymm (hkeys.subperm hsub').length_le (hnodup.subperm hsub).length_le

end NameMap

namespace PatternGraph

/-- A node of the class of a code leads to the code that the reference under the label stands for.
-/
theorem Settled.exists_kind_of_reference? {g : PatternGraph} {repo : Repository} {c l r : String}
    {n d : Nat} (h : g.Settled repo []) (hkind : g.kind n = .bound c)
    (hd : (g.ownEdges n).get? l = some d) (hr : repo.reference? c l = some r) :
    ∃ r', repo.canonical r = some r' ∧ g.kind d = .bound r' := by
  have hg := h.formed
  have hroot := hg.grounded.find_mem_roots (lt_size_of_get? hg hd)
  obtain ⟨r', hr', t, ht, -, hbound⟩ :=
    h.exists_target? hroot (by rw [hg.kind_find, hkind]) hr
  have htarget := h.target?_of_get? hd
  rw [hkind, Shape.memberLabel_of_reference (by simp [hr]),
    target?_congr (hg.find_find n).symm] at htarget
  obtain rfl : t = g.find d := Option.some.inj (ht.symm.trans htarget)
  exact ⟨r', hr', by rw [← hg.kind_find, hbound]⟩

/-- The labels of a node are labels of the code of its class. -/
theorem Settled.reference?_isSome_of_contains {g : PatternGraph} {repo : Repository}
    {c l : String} {n : Nat} (h : g.Settled repo []) (hkind : g.kind n = .bound c)
    (hl : (g.ownEdges n).contains l) :
    (repo.reference? c ((g.kind n).memberLabel repo l)).isSome := by
  have hlabel := (h.above n).labels l (contains_ownShape.2 hl)
  rw [shape_eq_ownShape] at hlabel
  exact h.fits (g.find n) c hkind _ hlabel

end PatternGraph

theorem FieldsKind.fieldsOf?_eq_some_iff {kind : FieldsKind} {look : Lookup}
    {fields : NameMap String} : kind.fieldsOf? look = some fields ↔
      kind ≠ .union ∧ look = .code (.product fields) ∨
      kind ≠ .product ∧ look = .code (.union fields) := by
  rcases look with (_ | _ | _) | _ | _ <;> cases kind <;> simp [FieldsKind.fieldsOf?]

namespace Filter
variable {repo : Repository} {g : PatternGraph} {vars : NameMap Nat} {f : Filter}
  {fs : List (String × Filter)} {kind : FieldsKind} {isOpen : Bool} {name subject c : String}
  {fields b : NameMap String} {id n : Nat}

/-- Following a filter along a code leads to a part of the filter at a code. -/
inductive Meets (repo : Repository) : Filter → String → Filter → String → Prop
  | here {f : Filter} {c : String} : Meets repo f c f c
  | field {kind : FieldsKind} {fs : List (String × Filter)} {isOpen : Bool} {c r d e l : String}
      {f f' : Filter} (hf : (l, f) ∈ fs) (hr : repo.reference? c l = some r)
      (hd : repo.canonical r = some d) (h : Meets repo f d f' e) :
      Meets repo (.fields kind fs isOpen) c f' e
  | element {c r d e : String} {f f' : Filter} (hr : repo.reference? c Text.vectorMember = some r)
      (hd : repo.canonical r = some d) (h : Meets repo f d f' e) : Meets repo (.vector f) c f' e

/-- A filter on fields that does not match a code although its pattern may go together with it. -/
inductive Lax (repo : Repository) : Filter → String → Prop
  | fieldless {fs : List (String × Filter)} {isOpen : Bool} {c : String}
      (hproduct : ∀ fields, repo.find c ≠ .code (.product fields))
      (hunion : ∀ fields, repo.find c ≠ .code (.union fields)) :
      Lax repo (.fields .any fs isOpen) c
  | alternatives {kind : FieldsKind} {fs : List (String × Filter)} {c l : String}
      {fields : NameMap String} (hkind : kind ≠ .product)
      (hc : repo.find c = .code (.union fields)) (hl : fields.contains l)
      (hout : l ∉ fs.map (·.1)) : Lax repo (.fields kind fs false) c

/-- Some part of the filter is lax at the code that it meets. -/
def Strays (repo : Repository) (f : Filter) (c : String) : Prop :=
  ∃ f' d, Meets repo f c f' d ∧ Lax repo f' d

theorem not_strays_var : ¬Strays repo (.var name) c := by
  rintro ⟨f', d, hmeets, hlax⟩
  cases hmeets
  cases hlax

theorem not_strays_code : ¬Strays repo (.code name) c := by
  rintro ⟨f', d, hmeets, hlax⟩
  cases hmeets
  cases hlax

theorem strays_fields_iff : Strays repo (.fields kind fs isOpen) c ↔
    Lax repo (.fields kind fs isOpen) c ∨ ∃ e ∈ fs, ∃ r d, repo.reference? c e.1 = some r ∧
      repo.canonical r = some d ∧ Strays repo e.2 d := by
  constructor
  · rintro ⟨f', d', hmeets, hlax⟩
    cases hmeets with
    | here => exact .inl hlax
    | field hf hr hd h => exact .inr ⟨_, hf, _, _, hr, hd, f', d', h, hlax⟩
  · rintro (hlax | ⟨e, he, r, d, hr, hd, f', d', h, hlax⟩)
    · exact ⟨_, c, .here, hlax⟩
    · exact ⟨f', d', .field he hr hd h, hlax⟩

theorem strays_vector_iff : Strays repo (.vector f) c ↔
    ∃ r d, repo.reference? c Text.vectorMember = some r ∧ repo.canonical r = some d ∧
      Strays repo f d := by
  constructor
  · rintro ⟨f', d', hmeets, hlax⟩
    cases hmeets with
    | here => cases hlax
    | element hr hd h => exact ⟨_, _, hr, hd, f', d', h, hlax⟩
  · rintro ⟨r, d, hr, hd, f', d', h, hlax⟩
    exact ⟨f', d', .element hr hd h, hlax⟩

/-- Each variable that is bound to a code has a node whose class is the code. -/
def Agrees (g : PatternGraph) (vars : NameMap Nat) (b : NameMap String) : Prop :=
  ∀ name c, b.get? name = some c → ∃ n, vars.get? name = some n ∧ g.kind n = .bound c

/-- The answer of matching: bindings that agree with the graph, or none if the filter strays. -/
def Answers (g : PatternGraph) (vars : NameMap Nat) (strays : Prop) :
    Option (NameMap String) → Prop
  | some b => Agrees g vars b ∧ ¬strays
  | none => strays

theorem Answers.congr {p q : Prop} {answer : Option (NameMap String)} (h : Answers g vars p answer)
    (hpq : p ↔ q) : Answers g vars q answer := by
  cases answer with
  | some b => exact ⟨h.1, fun hq => h.2 (hpq.2 hq)⟩
  | none => exact hpq.1 h

section Fields

theorem reference?_of_fieldsOf? (hfields : kind.fieldsOf? (repo.find c) = some fields)
    (l : String) : repo.reference? c l = fields.get? l := by
  rcases hc : repo.find c with (_ | _ | _) | _ | _ <;> cases kind <;>
    simp_all [FieldsKind.fieldsOf?, Repository.reference?]

theorem not_isVector_of_fieldsOf? (hfields : kind.fieldsOf? (repo.find c) = some fields) :
    ¬(PatternKind.bound c).isVector repo := by
  rcases hc : repo.find c with (_ | _ | _) | _ | _ <;> cases kind <;>
    simp_all [FieldsKind.fieldsOf?, PatternKind.isVector]

variable {s t : Shape} (h : s.Keeps repo t) (hs : s.kind = kind.pattern isOpen)
  (ht : t.kind = .bound c)
include h hs ht

/-- A code that keeps what a pattern of fields says has fields of the kind, unless the kind is any.
-/
theorem eq_any_of_fieldsOf?_eq_none (hnone : kind.fieldsOf? (repo.find c) = none) :
    kind = .any := by
  unfold Shape.Keeps at h
  cases kind with
  | any => rfl
  | product =>
    rcases hc : repo.find c with (_ | _ | _) | _ | _ <;> cases isOpen <;>
      simp_all [FieldsKind.pattern, FieldsKind.fieldsOf?, PatternKind.isProduct]
  | union =>
    rcases hc : repo.find c with (_ | _ | _) | _ | _ <;> cases isOpen <;>
      simp_all [FieldsKind.pattern, FieldsKind.fieldsOf?, PatternKind.isUnion]

/-- A code that keeps what a closed pattern of fields says has no other fields, unless it is a
union. -/
theorem labels_eq_of_fieldsOf? (hfields : kind.fieldsOf? (repo.find c) = some fields)
    (hclosed : isOpen = false) : s.labels = fields.map (fun _ => ()) ∨
      kind ≠ .product ∧ repo.find c = .code (.union fields) := by
  subst hclosed
  unfold Shape.Keeps at h
  rcases hc : repo.find c with (_ | _ | _) | _ | _ <;> cases kind <;>
    simp_all [FieldsKind.pattern, FieldsKind.fieldsOf?, PatternKind.isVector, Shape.labelsEqual]

end Fields

section Matching

/-- The fields of a code are matched one after the other. -/
theorem matchFieldsFrom_answers (hb : Agrees g vars b)
    (hall : ∀ e ∈ fs, ∃ r d, fields.get? e.1 = some r ∧ repo.canonical r = some d ∧
      ∀ b, Agrees g vars b → Answers g vars (Strays repo e.2 d) (e.2.matchFrom repo r b)) :
    Answers g vars (∃ e ∈ fs, ∃ r d, fields.get? e.1 = some r ∧ repo.canonical r = some d ∧
      Strays repo e.2 d) (matchFieldsFrom repo fs fields b) := by
  induction fs generalizing b with
  | nil => exact ⟨hb, by simp⟩
  | cons e fs ih =>
    obtain ⟨label, f⟩ := e
    rw [List.forall_mem_cons] at hall
    obtain ⟨⟨r, d, hr, hd, hanswers⟩, hrest⟩ := hall
    have hhere : (∃ r d, fields.get? label = some r ∧ repo.canonical r = some d ∧
        Strays repo f d) ↔ Strays repo f d := by
      simp [hr, hd]
    simp only [List.mem_cons, or_and_right, exists_or, exists_eq_left, hhere]
    simp only [matchFieldsFrom, hr, Option.bind_eq_bind, Option.bind_some]
    have hfirst := hanswers b hb
    cases hmatch : f.matchFrom repo r b with
    | none => 
      rw [hmatch] at hfirst
      exact .inl hfirst
    | some b' =>
      rw [hmatch] at hfirst
      exact (ih hfirst.1 hrest).congr (by simp [hfirst.2])

/-- The fields of a code that goes together with a filter are matched as the filter asks for. -/
theorem answers_fields (hg : g.Settled repo []) (hnode : (g.node id).kind = kind.pattern isOpen)
    (hnodup : (fs.map (·.1)).Nodup) (hlabels : ∀ l, (g.ownEdges id).contains l ↔ l ∈ fs.map (·.1))
    (hkind : g.kind id = .bound c) (hsubject : repo.canonical subject = some c)
    (hb : Agrees g vars b)
    (hall : ∀ fields, kind.fieldsOf? (repo.find c) = some fields → ∀ e ∈ fs, ∃ r d,
      fields.get? e.1 = some r ∧ repo.canonical r = some d ∧
      ∀ b, Agrees g vars b → Answers g vars (Strays repo e.2 d) (e.2.matchFrom repo r b)) :
    Answers g vars (Strays repo (.fields kind fs isOpen) c)
      ((Filter.fields kind fs isOpen).matchFrom repo subject b) := by
  have hkeeps := (hg.above id).keeps
  simp only [matchFrom, hsubject, Option.bind_eq_bind, Option.bind_some]
  cases hfields : kind.fieldsOf? (repo.find c) with
  | none =>
    obtain rfl := eq_any_of_fieldsOf?_eq_none hkeeps hnode hkind hfields
    refine strays_fields_iff.2 (.inl (.fieldless (fun fields hc => ?_) fun fields hc => ?_))
    · simp [hc, FieldsKind.fieldsOf?] at hfields
    · simp [hc, FieldsKind.fieldsOf?] at hfields
  | some fields =>
    have hreference := reference?_of_fieldsOf? hfields
    have hin (l : String) (hl : l ∈ fs.map (·.1)) : fields.contains l := by
      obtain ⟨e, he, rfl⟩ := List.mem_map.1 hl
      obtain ⟨r, -, hr, -⟩ := hall fields hfields e he
      exact NameMap.contains_of_get? hr
    have hsize := NameMap.size_eq_length_iff hnodup hin
    rw [List.length_map] at hsize
    have hcount : (!isOpen && fields.size ≠ fs.length) ↔
        isOpen = false ∧ ∃ l, fields.contains l ∧ l ∉ fs.map (·.1) := by
      simpa using fun _ => hsize.not
    rw [Option.bind_some]
    split_ifs with hmore
    · obtain ⟨hclosed, l, hl, hout⟩ := hcount.1 hmore
      have hother : (g.ownShape id).labels ≠ fields.map fun _ => () := by
        intro hequal
        refine hout ((hlabels l).1 (contains_ownShape.1 ?_))
        rw [hequal]
        exact NameMap.contains_map.2 hl
      obtain ⟨hproduct, hc⟩ :=
        (labels_eq_of_fieldsOf? hkeeps hnode hkind hfields hclosed).resolve_left hother
      exact strays_fields_iff.2 (.inl (hclosed ▸ .alternatives hproduct hc hl hout))
    · refine (matchFieldsFrom_answers hb (hall fields hfields)).congr ?_
      have hlax : ¬Lax repo (.fields kind fs isOpen) c := by
        rintro (⟨hproduct, hunion⟩ | ⟨hkind, hc, hl, hout⟩)
        · rcases FieldsKind.fieldsOf?_eq_some_iff.1 hfields with ⟨-, hc⟩ | ⟨-, hc⟩
          · exact hproduct _ hc
          · exact hunion _ hc
        · rcases FieldsKind.fieldsOf?_eq_some_iff.1 hfields with ⟨-, hc'⟩ | ⟨-, hc'⟩
          · simp [hc] at hc'
          · obtain ⟨rfl⟩ := Lookup.code.inj (hc.symm.trans hc')
            exact hmore (hcount.2 ⟨rfl, _, hl, hout⟩)
      simp only [strays_fields_iff, hlax, false_or, hreference]

/-- A filter matches the code of the class of its pattern, with bindings that agree with the graph,
unless it strays. -/
theorem Distinct.answers (hf : f.Distinct) (hg : g.Settled repo [])
    (hdraws : Draws repo vars g f id) (hkind : g.kind id = .bound c)
    (hsubject : repo.canonical subject = some c) (hb : Agrees g vars b) :
    Answers g vars (Strays repo f c) (f.matchFrom repo subject b) := by
  induction hf generalizing id c subject b with
  | var name =>
    obtain ⟨hid⟩ := hdraws
    simp only [matchFrom, hsubject, Option.bind_eq_bind, Option.bind_some]
    cases hd : b.get? name with
    | some d =>
      obtain ⟨n, hn, hbound⟩ := hb name d hd
      obtain rfl : id = n := Option.some.inj (hid.symm.trans hn)
      obtain rfl : c = d := PatternKind.bound.inj (hkind.symm.trans hbound)
      simp only [if_true]
      exact ⟨hb, not_strays_var⟩
    | none =>
      refine ⟨fun x d hx => ?_, not_strays_var⟩
      rw [NameMap.get?_insert] at hx
      split_ifs at hx with heq
      · obtain rfl := Option.some.inj hx
        exact ⟨id, heq ▸ hid, hkind⟩
      · exact hb x d hx
  | code name =>
    obtain ⟨⟩ | ⟨hname, hid⟩ := hdraws
    have hbound := hg.formed.kind_of_bound (hg.formed.codes _ id hid)
    obtain rfl := PatternKind.bound.inj (hkind.symm.trans hbound)
    simp only [matchFrom, hsubject, Option.bind_eq_bind, Option.bind_some, hname, if_pos]
    exact ⟨hb, not_strays_code⟩
  | @fields kind fs isOpen hnodup hfields ih =>
    have hfield {e : String × Filter} {d : Nat} (he : e ∈ fs)
        (hd : (g.ownEdges id).get? e.1 = some d) : Draws repo vars g e.2 d :=
      hdraws.field hnodup he hd
    cases hdraws with
    | fields hlt hnode hlabels _ =>
      refine answers_fields hg hnode hnodup hlabels hkind hsubject hb fun fields hof e he => ?_
      have hown := (hlabels e.1).2 (List.mem_map_of_mem he)
      have hsome := hg.reference?_isSome_of_contains hkind hown
      rw [hkind, PatternKind.memberLabel_of_not_isVector (not_isVector_of_fieldsOf? hof)] at hsome
      obtain ⟨r, hr⟩ := Option.isSome_iff_exists.1 hsome
      obtain ⟨n, hn⟩ := NameMap.contains_iff.1 hown
      obtain ⟨d, hd, hbound⟩ := hg.exists_kind_of_reference? hkind hn hr
      rw [reference?_of_fieldsOf? hof] at hr
      exact ⟨r, d, hr, hd, fun b hb => ih e he (hfield he hn) hbound hd hb⟩
  | @vector f hf ih =>
    cases hdraws with
    | vector hnode hn hdraws =>
      have hvector : (PatternKind.bound c).isVector repo := by
        rw [← hkind]
        exact (hg.above id).isVector (by simp [ownShape, hnode, PatternKind.isVector])
      obtain ⟨r, hc⟩ := PatternKind.isVector_bound_iff.1 hvector
      have hr : repo.reference? c Text.vectorMember = some r := by
        simp [Repository.reference?, hc]
      obtain ⟨d, hd, hbound⟩ := hg.exists_kind_of_reference? hkind hn hr
      simp only [matchFrom, hsubject, Option.bind_eq_bind, Option.bind_some, hc]
      refine (ih hdraws hbound hd hb).congr ?_
      simp [strays_vector_iff, hr, hd]

/-- Once the pattern of a filter is merged with that of a code, the filter matches the code, with
bindings that agree with the graph, unless it strays. -/
theorem Distinct.answers_of_unify (hf : f.Distinct) {name c rule : String} {g₁ g₂ g₃ : PatternGraph}
    {root id : Nat} {changed : Bool} (hrepo : repo.AliasesKnown)
    (hname : repo.canonical name = some c) (hg₁ : g₁.Settled repo []) (hroot : root < g₁.size)
    (hdraws : Draws repo vars g₁ f root) (hcode : boundNode repo name g₁ = .ok id g₂)
    (hunify : unify repo rule [root, id] g₂ = .ok changed g₃) :
    Answers g₃ vars (Strays repo f c) (f.matchCode? repo name) := by
  have hbinds := (boundNode_outcome hg₁.formed).of_ok hcode
  have hg₂ := hg₁.binds hrepo hbinds
  have hkept := hg₁.formed.preserves_of_binds hbinds
  have hids : ∀ i ∈ [root, id], i < g₂.size := by
    simp [hroot.trans_le hkept.extension.size_le, hbinds.id_lt]
  have hmerges := (unify_outcome hg₂.formed hids).of_ok hunify
  have hg₃ := hg₂.merges hids hmerges
  have hmerged := hg₂.formed.preserves_of_merges hids hmerges
  -- The pattern of the filter is in the class of the code.
  have hkind : g₃.kind root = .bound c := by
    obtain ⟨c', hc', hid⟩ := hbinds.recorded
    obtain rfl : c = c' := Option.some.inj (hname.symm.trans hc')
    rw [kind_congr (hmerges.find_eq hg₂.formed hids (b := id) (by simp) (by simp))]
    exact hg₃.formed.kind_of_bound (hg₃.formed.codes c id (hmerged.extension.bound c id hid))
  exact hf.answers hg₃ (hdraws.preserved hg₁.formed (hkept.trans hmerged) fun _ _ h => h) hkind
    hname (by simp [Agrees])

/-- If the pattern of a filter is merged with that of a code, the filter matches the code exactly if
no part of it is lax at the code that it meets. -/
theorem exists_matchCode?_iff (calls : List Repository.Call) (hf : f.Distinct)
    {name c rule : String} {g₁ g₂ g₃ : PatternGraph} {root id : Nat} {changed : Bool}
    (hname : (calls.foldl Repository.after .initial).canonical name = some c)
    (hfilter : filterNode (calls.foldl Repository.after .initial) f {} = .ok root g₁)
    (hcode : boundNode (calls.foldl Repository.after .initial) name g₁ = .ok id g₂)
    (hunify : unify (calls.foldl Repository.after .initial) rule [root, id] g₂ = .ok changed g₃) :
    (∃ b, f.matchCode? (calls.foldl Repository.after .initial) name = some b) ↔
      ∀ f' d, Meets (calls.foldl Repository.after .initial) f c f' d →
        ¬Lax (calls.foldl Repository.after .initial) f' d := by
  have hrepo := Repository.aliasesKnown_after_calls calls
  generalize calls.foldl Repository.after .initial = repo at *
  have hstart : ({} : PatternGraph).Settled repo [] := settled_empty
  obtain ⟨hroot, hbuilt, vars, hdraws⟩ := (f.filterNode_outcome hstart.formed).of_ok hfilter
  have hanswers := hf.answers_of_unify hrepo hname (hbuilt.settled hrepo hstart) hroot hdraws hcode
    hunify
  have hnone : (∀ f' d, Meets repo f c f' d → ¬Lax repo f' d) ↔ ¬Strays repo f c := by
    simp [Strays]
  rw [hnone]
  cases hmatch : f.matchCode? repo name with
  | some b =>
    rw [hmatch] at hanswers
    simpa using hanswers.2
  | none =>
    rw [hmatch] at hanswers
    exact iff_of_false (by simp) (not_not.2 hanswers)

end Matching

section Examples

/-- Products with a tail. -/
def tailOf : Filter := .fields .product [("tail", .var "rest")] true

/-- The pattern of a tail, and that of products with this tail. -/
def tailPattern : PatternGraph :=
  ((({} : PatternGraph).pushNode .unconstrained ∅).2.pushNode .openProduct
    (.ofList [("tail", 0)])).2

/-- The pattern of a stream next to that of products with a tail. -/
def tailAndStream : PatternGraph :=
  (((tailPattern.pushCode "rArHSMQzZK").pushCode "@int").withEdge 2 "head" 3).withEdge 2 "tail" 2

/-- The product is the stream, and so is its tail. -/
def tailOfStream : PatternGraph :=
  (tailAndStream.joinRoots .ofStream (.bound "rArHSMQzZK") "filter" [1, 2]).joinRoots .ofStream
    (.bound "rArHSMQzZK") "filter" [0, 4]

theorem exists_matchCode?_iff_tailOf : ∃ calls : List Repository.Call,
    tailOf.Distinct ∧ (calls.foldl Repository.after .initial).canonical "S" = some "rArHSMQzZK" ∧
    filterNode (calls.foldl Repository.after .initial) tailOf {} = .ok 1 tailPattern ∧
    boundNode (calls.foldl Repository.after .initial) "S" tailPattern = .ok 2 tailAndStream ∧
    unify (calls.foldl Repository.after .initial) "filter" [1, 2] tailAndStream =
      .ok true tailOfStream ∧
    ((∃ b, tailOf.matchCode? (calls.foldl Repository.after .initial) "S" = some b) ↔
      ∀ f d, Meets (calls.foldl Repository.after .initial) tailOf "rArHSMQzZK" f d →
        ¬Lax (calls.foldl Repository.after .initial) f d) := by
  have hdistinct : tailOf.Distinct := .fields (by decide) (by simp [Distinct.var])
  have hrepo := Repository.after_loopedStream
  have hname : (Repository.ofStream).canonical "S" = some "rArHSMQzZK" := by decide +kernel
  have hfilter : filterNode .ofStream tailOf {} = .ok 1 tailPattern := by decide +kernel
  have hcode : boundNode .ofStream "S" tailPattern = .ok 2 tailAndStream := by decide +kernel
  have hunify : unify .ofStream "filter" [1, 2] tailAndStream = .ok true tailOfStream := by
    decide +kernel
  rw [← hrepo] at hname hfilter hcode hunify
  exact ⟨_, hdistinct, hname, hfilter, hcode, hunify,
    exists_matchCode?_iff _ hdistinct hname hfilter hcode hunify⟩

/-- Codes with fields, whatever they are. -/
def anyFields : Filter := .fields .any [] true

/-- The pattern of a filter on fields goes together with that of a code that has no fields. -/
theorem unifies_without_match : ∃ (calls : List Repository.Call) (g₁ g₂ g₃ : PatternGraph),
    (calls.foldl Repository.after .initial).canonical "@int" = some "@int" ∧
    filterNode (calls.foldl Repository.after .initial) anyFields {} = .ok 0 g₁ ∧
    boundNode (calls.foldl Repository.after .initial) "@int" g₁ = .ok 1 g₂ ∧
    unify (calls.foldl Repository.after .initial) "filter" [0, 1] g₂ = .ok true g₃ ∧
    anyFields.matchCode? (calls.foldl Repository.after .initial) "@int" = none := by
  let g₁ := (({} : PatternGraph).pushNode .unconstrained ∅).2
  let g₂ := g₁.pushCode "@int"
  let g₃ := g₂.joinRoots .initial (.bound "@int") "filter" [0, 1]
  exact ⟨[], g₁, g₂, g₃, by decide +kernel, by decide +kernel, by decide +kernel, by decide +kernel,
    by decide +kernel⟩

end Examples

end Filter

end StructuralTyping
