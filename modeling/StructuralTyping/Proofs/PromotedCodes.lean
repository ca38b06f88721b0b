import StructuralTyping.Proofs.BoundClasses
import StructuralTyping.Proofs.FailedRegistration
import StructuralTyping.Proofs.RegistrationOrder
import StructuralTyping.Proofs.RepositoryGrowth
import StructuralTyping.Proofs.SingletonSearch
import StructuralTyping.Proofs.Tokens
import StructuralTyping.Proofs.TypedClasses

/-!
# Codes of singletons

A singleton describes a code: no class it leads to may still change, so each of these is a singleton
or a code already. The codes are registered in one batch, under names that nothing else has, with
references to the names of the batch and to codes that are known. Such a batch is refused only if
two different trees have the same hash. Once it is registered, each singleton has the constructor
and the labels of its code and leads to the classes of what the code refers to: the codes are a
faithful typing of the graph.
-/
namespace StructuralTyping

namespace Code
variable {ρ τ : Type} {x : Code ρ} {l : String} {r : ρ}

/-- What a code refers to under a label, where the label of the element is that of members. -/
def at? : Code ρ → String → Option ρ
  | product fields, l => fields.get? l
  | union fields, l => fields.get? l
  | vector element, l => if l = Text.vectorMember then some element else none

theorem at?_map (f : ρ → τ) : (x.map f).at? l = (x.at? l).map f := by
  cases x with
  | product fields => exact NameMap.get?_map f fields l
  | union fields => exact NameMap.get?_map f fields l
  | vector element =>
    rw [map, at?, at?]
    split_ifs <;> rfl

theorem closedKind_map (f : ρ → τ) : (x.map f).closedKind = x.closedKind := by
  cases x <;> rfl

theorem exists_at?_of_mem_refs (hr : r ∈ x.refs) : ∃ l, x.at? l = some r := by
  have hfields (fields : NameMap ρ) (hr : r ∈ fields.values) : ∃ l, fields.get? l = some r := by
    obtain ⟨⟨l, _⟩, he, rfl⟩ := List.mem_map.1 hr
    exact ⟨l, NameMap.get?_eq_some_iff.2 he⟩
  cases x with
  | product fields => exact hfields fields hr
  | union fields => exact hfields fields hr
  | vector element =>
    obtain rfl := List.mem_singleton.1 hr
    exact ⟨Text.vectorMember, by simp [at?]⟩

end Code

namespace Repository
variable {repo : Repository} {codes : Codes} {c : String}

theorem reference?_of_find {x : Code String} (h : repo.find c = .code x) (l : String) :
    repo.reference? c l = x.at? l := by
  cases x <;> simp [reference?, h, Code.at?]

/-- A batch under names that nothing else has, with references that are resolved already, is merged
as it is. -/
theorem exists_merge (hfree : ∀ n, codes.contains n → ¬repo.codes.contains n ∧ n ≠ Text.unitName)
    (hrefs : ∀ n x, codes.get? n = some x → ∀ r ∈ x.refs,
      codes.contains r ∨ repo.canonical r = some r) :
    ∃ merged, repo.merge codes ∅ = .ok merged ∧
      ∀ n x, codes.get? n = some x → merged.get? n = some x := by
  have hresolve (n : String) (x : Code String) (hx : codes.get? n = some x) (r : String)
      (hr : r ∈ x.refs) : repo.resolve codes ∅ n r = .ok r := by
    unfold resolve
    split_ifs with hin
    · rfl
    · simp [(hrefs n x hx r hr).resolve_left hin]
  cases hmerge : repo.merge codes ∅ with
  | error e =>
    obtain ⟨⟨n, x⟩, hentry, merged, herror⟩ := exists_of_foldlM_eq_error hmerge
    have hx : codes.get? n = some x := NameMap.get?_eq_some_iff.2 hentry
    have hn := hfree n (NameMap.contains_of_get? hx)
    unfold mergeEntry at herror
    rw [if_neg (by simpa using hn)] at herror
    cases hy : x.traverse (repo.resolve codes ∅ n) with
    | ok y => simp [hy, bind, Except.bind, pure, Except.pure] at herror
    | error err =>
      obtain ⟨r, hr, hfail⟩ := Code.exists_of_traverse_eq_error hy
      simp [hresolve n x hx r hr] at hfail
  | ok merged =>
    refine ⟨merged, rfl, fun n x hx => ?_⟩
    obtain ⟨y, hy, halike⟩ := exists_resolved hmerge hx
    have hxy : x = y := by
      rw [← Code.alike_eq_iff]
      refine halike.imp fun r hr s _ hrs => ?_
      rw [hresolve n x hx r hr] at hrs
      exact Except.ok.inj hrs
    rw [hy, hxy]

end Repository

namespace PatternGraph
variable {g : PatternGraph} {repo next : Repository} {codes merged : Codes} {names : NameMap String}
  {ids : List Nat} {d i id j n : Nat} {c l : String}

section LocalNames

theorem localName_injective (h : localName i = localName j) : i = j := by
  have hlist := congrArg String.toList h
  rw [toList_localName, toList_localName] at hlist
  exact Text.toDigits_injective (List.cons.inj (List.cons.inj hlist).2).2

theorem localName_not_isBuiltin (id : Nat) : ¬Text.isBuiltin (localName id) := by
  simp [Text.isBuiltin, toList_localName]

theorem localName_ne_unitName (id : Nat) : localName id ≠ Text.unitName := by
  intro h
  have hlist := congrArg String.toList h
  rw [toList_localName, show Text.unitName.toList = ['\x7b', '\x7d'] from rfl] at hlist
  exact absurd (List.cons.inj hlist).1 (by decide)

theorem not_contains_localName (hrepo : repo.Consistent) (id : Nat) :
    ¬repo.codes.contains (localName id) := by
  intro hin
  obtain ⟨text, -, hhash⟩ := hrepo.canonical.named _ hin
  exact Text.not_isHashText_localName id (hhash ▸ Text.isHashText_contentHash text)

end LocalNames

section Describing

theorem Grounded.kind_find (hg : g.Grounded) (i : Nat) : g.kind (g.find i) = g.kind i :=
  kind_congr (hg.ordered.find_find i)

theorem Grounded.codeReference_find (hg : g.Grounded) (i : Nat) :
    g.codeReference (g.find i) = g.codeReference i := by
  have hfind : g.find (g.find i) = g.find i := hg.ordered.find_find i
  rw [codeReference, codeReference, hg.kind_find, hfind]

/-- What a singleton leads to is a singleton or a code. -/
theorem Grounded.singleton_or_code (hg : g.Grounded) (hid : id ∈ g.singletons)
    (hd : (g.edgesOf id).get? l = some d) :
    g.find d ∈ g.singletons ∨ ∃ c, g.kind d = .bound c := by
  have hlead : g.Leads id (g.find d) := ⟨l, by rw [target?, hd]; rfl⟩
  have hdecided : ¬g.Undecided (g.find d) :=
    fun h => (hg.mem_singletons_iff.1 hid).2.2 (h.head hlead)
  have hclear : ¬g.isAmbiguous (g.find d) := fun h => hdecided ⟨_, .refl, h⟩
  have hroot := hg.mem_roots_of_leads hlead
  rw [hg.mem_singletons_iff, hg.kind_find]
  rw [isAmbiguous, hg.kind_find] at hclear
  cases hkind : g.kind d <;> simp_all

/-- A singleton describes a code of its constructor, with its labels, that refers to what its edges
lead to. -/
theorem Grounded.exists_describedCode (hg : g.Grounded) (hplain : g.Plain)
    (hid : id ∈ g.singletons) : ∃ x, g.describedCode id = .ok x ∧ x.closedKind = g.kind id ∧
      ∀ l, x.at? l = ((g.edgesOf id).get? l).map g.codeReference := by
  obtain ⟨-, hkind, hdecided⟩ := hg.mem_singletons_iff.1 hid
  unfold describedCode
  rcases hkind with hkind | hkind | hkind
  · exact ⟨.product ((g.edgesOf id).map g.codeReference), by simp only [hkind], hkind.symm,
      fun l => NameMap.get?_map _ _ l⟩
  · exact ⟨.union ((g.edgesOf id).map g.codeReference), by simp only [hkind], hkind.symm,
      fun l => NameMap.get?_map _ _ l⟩
  · have hclear : ¬g.isAmbiguous id := fun h => hdecided ⟨id, .refl, h⟩
    simp only [isAmbiguous, hkind, Option.isNone_iff_eq_none] at hclear
    obtain ⟨member, hmember⟩ := Option.ne_none_iff_exists'.1 hclear
    obtain ⟨d, hd, hfind⟩ := Option.map_eq_some_iff.1 hmember
    refine ⟨.vector (g.codeReference member), by simp only [hkind, hmember], hkind.symm,
      fun l => ?_⟩
    by_cases hl : l = Text.vectorMember
    · rw [hl, hd, Code.at?, if_pos rfl, Option.map_some, ← hfind, hg.codeReference_find]
    · have habsent : (g.edgesOf id).get? l = none := by
        rw [← NameMap.get?_eq_none_iff.2]
        exact fun hin => hl (hplain (g.find id) hkind l (contains_ownShape.2 hin))
      rw [habsent, Code.at?, if_neg hl, Option.map_none]

theorem foldlM_describedCode (h : ∀ id ∈ ids, ∃ x, g.describedCode id = .ok x) (start : Codes) :
    ∃ codes, ids.foldlM (fun (codes : Codes) id => do
        return codes.insert (localName id) (← g.describedCode id)) start = .ok codes ∧
      (∀ n, codes.contains n → start.contains n ∨ ∃ id ∈ ids, n = localName id) ∧
      (∀ id ∉ ids, codes.get? (localName id) = start.get? (localName id)) ∧
      ∀ id ∈ ids, ∃ x, g.describedCode id = .ok x ∧ codes.get? (localName id) = some x := by
  induction ids generalizing start with
  | nil => exact ⟨start, rfl, fun n hn => .inl hn, fun _ _ => rfl, by simp⟩
  | cons id ids ih =>
    rw [List.forall_mem_cons] at h
    obtain ⟨x, hx⟩ := h.1
    obtain ⟨codes, hcodes, hnames, hother, hentries⟩ := ih h.2 (start.insert (localName id) x)
    refine ⟨codes, ?_, fun n hn => ?_, fun j hj => ?_, fun j hj => ?_⟩
    · rw [List.foldlM_cons, hx]
      exact hcodes
    · rcases hnames n hn with hin | ⟨j, hj, rfl⟩
      · rcases (NameMap.contains_insert _ _ _).1 hin with rfl | hin
        · exact .inr ⟨id, List.mem_cons_self, rfl⟩
        · exact .inl hin
      · exact .inr ⟨j, List.mem_cons_of_mem _ hj, rfl⟩
    · rw [List.mem_cons, not_or] at hj
      rw [hother j hj.2, NameMap.get?_insert, if_neg fun heq => hj.1 (localName_injective heq)]
    · by_cases hin : j ∈ ids
      · exact hentries j hin
      · obtain rfl := (List.mem_cons.1 hj).resolve_right hin
        exact ⟨x, hx, by rw [hother j hin, NameMap.get?_insert, if_pos rfl]⟩

/-- A batch of patterns has the codes that they describe, under their local names. -/
theorem described_of_describedCodes (h : g.describedCodes ids = .ok codes) :
    (∀ n x, codes.get? n = some x → ∃ id ∈ ids, localName id = n ∧ g.describedCode id = .ok x) ∧
    ∀ id ∈ ids, codes.contains (localName id) := by
  let Describing (todo : List Nat) (codes : Codes) : Prop := todo ⊆ ids ∧
    (∀ n x, codes.get? n = some x → ∃ id ∈ ids, localName id = n ∧ g.describedCode id = .ok x) ∧
    ∀ id ∈ ids, id ∈ todo ∨ codes.contains (localName id)
  have hstep (id : Nat) (rest : List Nat) (codes codes' : Codes)
      (hcodes : Describing (id :: rest) codes)
      (hnext : (do return codes.insert (localName id) (← g.describedCode id)) = .ok codes') :
      Describing rest codes' := by
    obtain ⟨htodo, hentries, hdone⟩ := hcodes
    rw [List.cons_subset] at htodo
    cases hcode : g.describedCode id with
    | error e => simp [hcode, bind, Except.bind] at hnext
    | ok code =>
      simp only [hcode, bind, Except.bind, pure, Except.pure, Except.ok.injEq] at hnext
      subst hnext
      refine ⟨htodo.2, fun n x hx => ?_, fun j hj => ?_⟩
      · rw [NameMap.get?_insert] at hx
        split_ifs at hx with hn
        · obtain rfl := Option.some.inj hx
          exact ⟨id, htodo.1, hn.symm, hcode⟩
        · exact hentries n x hx
      · rw [NameMap.contains_insert]
        rcases hdone j hj with hin | hin
        · exact (List.mem_cons.1 hin).elim (fun heq => .inr (.inl (by rw [heq]))) .inl
        · exact .inr (.inr hin)
  have hstart : Describing ids ∅ := ⟨List.Subset.refl _, by simp, fun id hid => .inl hid⟩
  obtain ⟨-, hentries, hdone⟩ := Repository.foldlM_ok (I := Describing) hstep hstart h
  exact ⟨hentries, fun id hid => (hdone id hid).resolve_left List.not_mem_nil⟩

/-- The batch of a promotion has local names of its patterns only. -/
theorem exists_pattern_of_describedCodes {name : String} (h : g.describedCodes ids = .ok codes)
    (hname : codes.contains name) : ∃ id ∈ ids, localName id = name := by
  obtain ⟨x, hx⟩ := NameMap.contains_iff.1 hname
  obtain ⟨id, hid, hlocal, -⟩ := (described_of_describedCodes h).1 name x hx
  exact ⟨id, hid, hlocal⟩

theorem describedCodes_not_isBuiltin (h : g.describedCodes ids = .ok codes) (n : String)
    (hn : codes.contains n) : ¬Text.isBuiltin n := by
  obtain ⟨id, -, rfl⟩ := exists_pattern_of_describedCodes h hn
  exact localName_not_isBuiltin id

/-- What a pattern refers to in its code are the patterns that it leads to. -/
theorem Grounded.exists_edge_of_mem_refs (hg : g.Grounded) {x : Code String} {r : String}
    (h : g.describedCode id = .ok x) (hr : r ∈ x.refs) :
    ∃ l d, (g.edgesOf id).get? l = some d ∧ g.codeReference d = r := by
  have hfields (hin : r ∈ ((g.edgesOf id).map g.codeReference).values) :
      ∃ l d, (g.edgesOf id).get? l = some d ∧ g.codeReference d = r := by
    obtain ⟨⟨l, _⟩, he, rfl⟩ := List.mem_map.1 hin
    have hget := NameMap.get?_eq_some_iff.2 he
    rw [NameMap.get?_map] at hget
    exact ⟨l, Option.map_eq_some_iff.1 hget⟩
  unfold describedCode at h
  dsimp only at h
  split at h
  · obtain rfl := Except.ok.inj h
    exact hfields hr
  · obtain rfl := Except.ok.inj h
    exact hfields hr
  · split at h
    case h_1 member hmember =>
      obtain rfl := Except.ok.inj h
      obtain ⟨d, hd, rfl⟩ := Option.map_eq_some_iff.1 hmember
      exact ⟨_, d, hd, by rw [List.mem_singleton.1 hr, hg.codeReference_find]⟩
    case h_2 => cases h
  · cases h

/-- The codes of a batch are those that its patterns describe, under their local names. -/
structure Described (g : PatternGraph) (codes : Codes) : Prop where
  names : ∀ n, codes.contains n → ∃ id ∈ g.singletons, n = localName id
  entry : ∀ id ∈ g.singletons, ∃ x, codes.get? (localName id) = some x ∧
    x.closedKind = g.kind id ∧ ∀ l, x.at? l = ((g.edgesOf id).get? l).map g.codeReference

theorem Grounded.exists_describedCodes (hg : g.Grounded) (hplain : g.Plain) :
    ∃ codes, g.describedCodes g.singletons = .ok codes ∧ g.Described codes := by
  have hdescribed (id : Nat) (hid : id ∈ g.singletons) := hg.exists_describedCode hplain hid
  obtain ⟨codes, hcodes, hnames, -, hentries⟩ :=
    foldlM_describedCode (fun id hid => (hdescribed id hid).imp fun _ h => h.1) ∅
  refine ⟨codes, hcodes, fun n hn => (hnames n hn).resolve_left (by simp [NameMap.contains]),
    fun id hid => ?_⟩
  obtain ⟨x, hx, hget⟩ := hentries id hid
  obtain ⟨y, hy, hdescribes⟩ := hdescribed id hid
  obtain rfl : x = y := Except.ok.inj (hx.symm.trans hy)
  exact ⟨x, hget, hdescribes⟩

theorem Described.not_isBuiltin {name : String} (h : g.Described codes)
    (hn : codes.contains name) : ¬Text.isBuiltin name := by
  obtain ⟨id, -, rfl⟩ := h.names name hn
  exact localName_not_isBuiltin id

end Describing

section Codes
variable (hrepo : repo.Consistent) (hg : g.Settled repo []) (hkind : g.kind n = .bound c)
include hg hkind

theorem Settled.known_of_bound : repo.Known c := hg.known c (hg.formed.recorded (g.find n) c hkind)

include hrepo

/-- A class that is a code depicts it. -/
theorem Settled.depicts_of_bound : (g.shape n).Depicts repo c where
  labels l := by
    have hroot := hg.formed.grounded.find_mem_roots (kind_lt_size hg.formed hkind)
    have hiff := hg.contains_label_iff (l := l) hroot (by rw [hg.formed.kind_find, hkind]) hrepo
    rw [hg.formed.edgesOf_find] at hiff
    exact NameMap.contains_map.trans hiff
  kind := .inl hkind

/-- The edges of a class that is a code lead to what the code refers to. -/
theorem Settled.reference_of_bound (hd : (g.edgesOf n).get? l = some d) :
    ∃ r, repo.reference? c l = some r ∧ g.kind d = .bound r := by
  have hroot := hg.formed.grounded.find_mem_roots (kind_lt_size hg.formed hkind)
  have hkind' : g.kind (g.find n) = .bound c := by rw [hg.formed.kind_find, hkind]
  have hin := (hg.depicts_of_bound hrepo hkind).labels l
  obtain ⟨r, hr⟩ := Option.isSome_iff_exists.1
    (hin.1 (NameMap.contains_map.2 (NameMap.contains_of_get? hd)))
  obtain ⟨t, ht, -, hkt⟩ := hg.target?_of_reference? hroot hkind' hrepo hr
  rw [target?, hg.formed.edgesOf_find, hd, Option.map_some, Option.some.injEq] at ht
  rw [← ht, hg.formed.kind_find] at hkt
  exact ⟨r, hr, hkt⟩

end Codes

section Registering
variable (hrepo : repo.Consistent) (hg : g.Settled repo []) (h : g.Described codes)

theorem codeReference_of_bound (hkind : g.kind n = .bound c) : g.codeReference n = c := by
  simp [codeReference, hkind, PatternKind.bound?]

theorem Grounded.codeReference_of_singleton (hg : g.Grounded) (hn : g.find n ∈ g.singletons) :
    g.codeReference n = localName (g.find n) := by
  have hkind := (hg.mem_singletons_iff.1 hn).2.1
  rw [hg.kind_find] at hkind
  rcases hkind with hkind | hkind | hkind <;> simp [codeReference, hkind, PatternKind.bound?]

include hrepo hg h

/-- The codes that singletons describe are merged as they are. -/
theorem Described.exists_merge : ∃ merged, repo.merge codes ∅ = .ok merged ∧
    ∀ n x, codes.get? n = some x → merged.get? n = some x := by
  refine Repository.exists_merge (fun n hn => ?_) fun n x hx r hr => ?_
  · obtain ⟨id, -, rfl⟩ := h.names n hn
    exact ⟨not_contains_localName hrepo id, localName_ne_unitName id⟩
  · obtain ⟨id, hid, rfl⟩ := h.names n (NameMap.contains_of_get? hx)
    obtain ⟨y, hy, -, hrefs⟩ := h.entry id hid
    obtain rfl : x = y := Option.some.inj (hx.symm.trans hy)
    obtain ⟨l, hl⟩ := Code.exists_at?_of_mem_refs hr
    rw [hrefs l] at hl
    obtain ⟨d, hd, rfl⟩ := Option.map_eq_some_iff.1 hl
    rcases hg.formed.grounded.singleton_or_code hid hd with hin | ⟨c, hkind⟩
    · rw [hg.formed.grounded.codeReference_of_singleton hin]
      obtain ⟨z, hz, -⟩ := h.entry _ hin
      exact .inl (NameMap.contains_of_get? hz)
    · rw [codeReference_of_bound hkind]
      exact .inr (hg.known_of_bound hkind).canonical

/-- Registering the codes of singletons fails only for want of different hashes. -/
theorem Described.registerCodes_cases : ∃ merged, repo.merge codes ∅ = .ok merged ∧
    (∀ n x, codes.get? n = some x → merged.get? n = some x) ∧
    ((∃ reason, merged.finalize = .error (.impossible reason) ∧ merged.ReportsCollision reason ∧
        repo.registerCodes codes = (.error (.impossible reason), repo)) ∨
      ∃ names next, repo.registerCodes codes = (.ok names, next) ∧
        repo.Registered codes ∅ merged names next) := by
  have hcodes (n : String) (hn : codes.contains n) := h.not_isBuiltin hn
  obtain ⟨merged, hmerge, hmerged⟩ := h.exists_merge hrepo hg
  refine ⟨merged, hmerge, hmerged, ?_⟩
  cases hfinalize : merged.finalize with
  | error e =>
    have hwf := (Repository.merging_of_merge hrepo (by simp) hmerge).wellFormed hrepo hcodes
    obtain ⟨reason, rfl, hreports⟩ := hwf.reportsCollision hfinalize
    refine .inl ⟨reason, rfl, hreports, ?_⟩
    simp [Repository.registerCodes, Repository.registerWith, hmerge, hfinalize, bind, Except.bind]
  | ok f =>
    exact .inr (Repository.registered_of_finalize hrepo hcodes (by simp) hmerge hfinalize)

end Registering

section Typing

/-- The code that the class of a node is to be bound to when the codes of singletons are registered.
-/
def promotedCode (g : PatternGraph) (merged : Codes) (n : Nat) : Option String :=
  if g.find n ∈ g.singletons ∨ (g.kind n).bound?.isSome then
    some (merged.canonicalName (g.codeReference n))
  else none

/-- A class is to be bound to the canonical name of what references to it stand for. -/
theorem promotedCode_eq (h : g.find n ∈ g.singletons ∨ ∃ c, g.kind n = .bound c) :
    g.promotedCode merged n = some (merged.canonicalName (g.codeReference n)) := by
  refine if_pos (h.imp_right ?_)
  rintro ⟨c, hkind⟩
  simp [hkind, PatternKind.bound?]

theorem singleton_or_code_of_promotedCode (h : g.promotedCode merged n = some c) :
    (g.find n ∈ g.singletons ∨ ∃ d, g.kind n = .bound d) ∧
      merged.canonicalName (g.codeReference n) = c := by
  unfold promotedCode at h
  split_ifs at h with hn
  refine ⟨hn.imp_right fun hbound => ?_, Option.some.inj h⟩
  cases hkind : g.kind n <;> simp_all [PatternKind.bound?]

variable (hrepo : repo.Consistent) (hg : g.Settled repo []) (h : g.Described codes)
  (hreg : repo.Registered codes ∅ merged names next)
  (hmerged : ∀ n x, codes.get? n = some x → merged.get? n = some x)
include hrepo h hreg

/-- Codes that are known keep their names. -/
theorem Described.canonicalName_of_known (hc : repo.Known c) : merged.canonicalName c = c := by
  have hcodes (n : String) (hn : codes.contains n) := h.not_isBuiltin hn
  have hwf := hreg.merging.wellFormed hrepo hcodes
  rcases hc with hc | hc
  · exact Codes.canonicalName_of_not_contains fun hin => hwf.closed.names c hin hc
  · exact hreg.merging.canonicalName_entry hrepo hcodes hc

include hg

theorem Described.settled : next.Consistent ∧ g.Settled next [] := by
  have hcodes (n : String) (hn : codes.contains n) := h.not_isBuiltin hn
  have hnext := hreg.consistent hrepo hcodes (by simp)
  exact ⟨hnext, hg.keptBy hrepo (hrepo.keptBy hnext (hreg.kept hrepo hcodes))⟩

theorem Described.promotedCode_of_bound (hkind : g.kind n = .bound c) :
    g.promotedCode merged n = some c := by
  rw [promotedCode_eq (.inr ⟨c, hkind⟩), codeReference_of_bound hkind,
    h.canonicalName_of_known hrepo hreg (hg.known_of_bound hkind)]

include hmerged

/-- The code of a singleton has its constructor and its labels, and refers to what the classes that
it leads to are to be bound to. -/
theorem Described.find_promoted (hn : g.find n ∈ g.singletons) :
    ∃ x, next.find (merged.canonicalName (localName (g.find n))) = .code x ∧
      x.closedKind = g.kind n ∧
        ∀ l, x.at? l = ((g.edgesOf n).get? l).bind (g.promotedCode merged) := by
  have hgrounded := hg.formed.grounded
  obtain ⟨x, hx, hkind, hrefs⟩ := h.entry _ hn
  rw [hg.formed.edgesOf_find] at hrefs
  rw [hg.formed.kind_find] at hkind
  refine ⟨x.map merged.canonicalName, ?_, by rw [Code.closedKind_map, hkind], fun l => ?_⟩
  · obtain ⟨f, hf, hnext⟩ := hreg.finalization
    refine (h.settled hrepo hg hreg).1.find_of_get? ?_
    rw [hnext, hf.codes]
    refine ⟨_, x, ?_, rfl, rfl⟩
    rw [Codes.get?_withUnit merged (localName_ne_unitName _)]
    exact hmerged _ x hx
  · rw [Code.at?_map, hrefs]
    cases hd : (g.edgesOf n).get? l with
    | none => rfl
    | some d =>
      have hd' : (g.edgesOf (g.find n)).get? l = some d := by rw [hg.formed.edgesOf_find, hd]
      rw [Option.map_some, Option.map_some, Option.bind_some,
        promotedCode_eq (hgrounded.singleton_or_code hn hd')]

/-- The registered codes are a faithful typing of the graph. -/
theorem Described.typed : Typed next (Shape.Depicts next) (g.promotedCode merged) g [] := by
  obtain ⟨hnext, hg'⟩ := h.settled hrepo hg hreg
  have hgrounded := hg.formed.grounded
  have hcode (n : Nat) (c : String) (hn : g.promotedCode merged n = some c) :
      g.kind n = .bound c ∨
        g.find n ∈ g.singletons ∧ merged.canonicalName (localName (g.find n)) = c := by
    obtain ⟨hin | ⟨d, hkind⟩, rfl⟩ := singleton_or_code_of_promotedCode hn
    · rw [hgrounded.codeReference_of_singleton hin]
      exact .inr ⟨hin, rfl⟩
    · rw [h.promotedCode_of_bound hrepo hg hreg hkind] at hn
      exact .inl (hkind.trans (congrArg PatternKind.bound (Option.some.inj hn)))
  refine ⟨hg.ready, fun n => ?_, by simp, fun n c hn => ?_, fun n c hn => ?_, fun n c hkind =>
    h.promotedCode_of_bound hrepo hg hreg hkind, fun n c hn => ?_, fun n c l d hn hd => ?_⟩
  · rw [promotedCode, promotedCode, hg.formed.find_find, hg.formed.kind_find,
      hgrounded.codeReference_find]
  · rcases hcode n c hn with hkind | ⟨hin, -⟩
    · exact kind_lt_size hg.formed hkind
    · have hroot := mem_roots_iff.1 (hgrounded.mem_singletons_iff.1 hin).1
      exact (hg.formed.ordered.find_lt_iff n).1 hroot.1
  · rcases hcode n c hn with hkind | ⟨hin, rfl⟩
    · exact hg'.known_of_bound hkind
    · obtain ⟨f, hf, hcodes⟩ := hreg.finalization
      obtain ⟨x, hx, -⟩ := h.entry _ hin
      refine .inr ?_
      rw [hcodes, hf.contains_iff]
      exact ⟨_, Codes.contains_withUnit.2 (.inr (NameMap.contains_of_get? (hmerged _ x hx))), rfl⟩
  · rcases hcode n c hn with hkind | ⟨hin, rfl⟩
    · exact hg'.depicts_of_bound hnext hkind
    · obtain ⟨x, hx, hkind, hrefs⟩ := h.find_promoted hrepo hg hreg hmerged hin
      refine ⟨fun l => ?_, .inr ?_⟩
      · refine NameMap.contains_map.trans ?_
        rw [Repository.reference?_of_find hx, hrefs]
        cases hd : (g.edgesOf n).get? l with
        | none => simp [NameMap.contains, hd]
        | some d =>
          have hd' : (g.edgesOf (g.find n)).get? l = some d := by rw [hg.formed.edgesOf_find, hd]
          simp [NameMap.contains, hd, promotedCode_eq (hgrounded.singleton_or_code hin hd')]
      · rw [hx, Lookup.closedKind?, hkind]
        rfl
  · rcases hcode n c hn with hkind | ⟨hin, rfl⟩
    · obtain ⟨r, hr, hkd⟩ := hg'.reference_of_bound hnext hkind hd
      rw [h.promotedCode_of_bound hrepo hg hreg hkd, hr]
    · obtain ⟨x, hx, -, hrefs⟩ := h.find_promoted hrepo hg hreg hmerged hin
      rw [Repository.reference?_of_find hx, hrefs, hd, Option.bind_some]

end Typing

end PatternGraph

end StructuralTyping
