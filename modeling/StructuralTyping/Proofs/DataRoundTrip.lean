import StructuralTyping.Exchange.Relation
import StructuralTyping.Proofs.Lookup

/-!
# Units survive being written and read

Each form of data is read back as what was written: a member that is left out is read as absent, an
object lists its members in ascending order and is read into the same order, and no alternative form
that is accepted on input catches what is written in the ordinary one. Main statement:
`read_written`, for units whose filters list their fields in order, as those of every unit that was
read do (`arranged_of_ofJson?`).
-/
namespace StructuralTyping

theorem NameMap.entries_ofList {α : Type} {es : List (String × α)}
    (h : es.Pairwise fun a b => a.1 < b.1) : (ofList es).entries = es := by
  have hmap : ofList es = ⟨es, h⟩ :=
    NameMap.ext fun _ => get?_ofList (nodup_keys ⟨es, h⟩)
  rw [hmap]

namespace Json
variable {α : Type} {read : Json → Option α} {write : α → Json}

theorem mapM_entries {es : List (String × α)} (h : ∀ e ∈ es, read (write e.2) = some e.2) :
    (es.map fun e => (e.1, write e.2)).mapM
      (fun m => do return (m.1, ← read m.2) : String × Json → Option (String × α)) = some es := by
  induction es with
  | nil => rfl
  | cons e rest ih =>
    rw [List.map_cons, List.mapM_cons, ih fun d hd => h d (List.mem_cons_of_mem _ hd)]
    simp [h e List.mem_cons_self]

theorem mapOf_ofMap {m : NameMap α} (h : ∀ e ∈ m.entries, read (write e.2) = some e.2) :
    mapOf read (ofMap write m) = some m := by
  simp only [mapOf, ofMap, mapM_entries h]
  exact congrArg some (NameMap.entries_injective (NameMap.entries_ofList m.ascending))

/-- What is held in a map that was read was read itself. -/
theorem exists_read_of_mapOf {j : Json} {m : NameMap α} (h : mapOf read j = some m)
    {e : String × α} (he : e ∈ m.entries) : ∃ v, read v = some e.2 := by
  cases j with
  | obj members =>
    obtain ⟨es, hes, hm⟩ := Option.bind_eq_some_iff.1 h
    obtain rfl := Option.some.inj hm
    have hmem : e ∈ es := NameMap.mem_of_get?_ofList (NameMap.get?_eq_some_iff.2 he)
    clear h hm he
    induction members generalizing es with
    | nil =>
      cases hes
      cases hmem
    | cons d rest ih =>
      simp only [List.mapM_cons, Option.bind_eq_bind, Option.bind_eq_some_iff, Option.pure_def,
        Option.some.injEq] at hes
      obtain ⟨_, ⟨a, ha, rfl⟩, ds, hds, rfl⟩ := hes
      rcases List.mem_cons.1 hmem with rfl | hmem
      · exact ⟨d.2, ha⟩
      · exact ih ds hds hmem
  | null | bool _ | int _ | otherNumber _ | str _ | arr _ => cases h

end Json

namespace Declaration
variable {α β : Type} {key other : String} {read : Json → Option α} {members : List (String × Json)}

theorem member_memberOf_append (hne : key ≠ other) (write : β → Json) (value : Option β) :
    Json.member key (memberOf other write value ++ members) = Json.member key members := by
  cases value with
  | none => rfl
  | some b => simp [memberOf, Json.member, NameMap.lookup, hne]

theorem optionalMember_memberOf_append (hne : key ≠ other) (write : β → Json) (value : Option β) :
    Json.optionalMember read key (memberOf other write value ++ members) =
      Json.optionalMember read key members := by
  simp only [Json.optionalMember, member_memberOf_append hne]

/-- A member that is written if present is read as what it was, or as absent. -/
theorem optionalMember_memberOf {write : α → Json} (hread : ∀ a, read (write a) = some a)
    (hnull : ∀ a, write a ≠ .null) (habsent : Json.member key members = none) (value : Option α) :
    Json.optionalMember read key (memberOf key write value ++ members) = some value := by
  cases value with
  | none => simp [Json.optionalMember, memberOf, habsent]
  | some a => simp [Json.optionalMember, memberOf, Json.member, NameMap.lookup, hnull a, hread a]

theorem mapOf_names (m : NameMap String) :
    Json.mapOf Json.string? (Json.ofMap .str m) = some m := Json.mapOf_ofMap fun _ _ => rfl

theorem ofJson?_obj {tag : String} {product union : Option (NameMap String)}
    {vector : Option String} (hcode : Json.member "code" members = some (.str tag))
    (hproduct : Json.optionalMember (Json.mapOf Json.string?) "product" members = some product)
    (hunion : Json.optionalMember (Json.mapOf Json.string?) "union" members = some union)
    (hvector : Json.optionalMember Json.string? "vector" members = some vector) :
    ofJson? (.obj members) = some (code tag product union vector) := by
  simp [ofJson?, hcode, hproduct, hunion, hvector, Json.string?]

theorem toJson_code (tag : String) (product union : Option (NameMap String))
    (vector : Option String) : toJson (code tag product union vector) =
      .obj (memberOf "code" .str (some tag) ++ (memberOf "product" (Json.ofMap .str) product ++
        (memberOf "union" (Json.ofMap .str) union ++ (memberOf "vector" .str vector ++ [])))) := by
  simp [toJson, memberOf]

/-- A declaration is read back, whichever of its members are present. -/
theorem ofJson?_toJson (d : Declaration) : ofJson? d.toJson = some d := by
  cases d with
  | builtin name => rfl
  | code tag product union vector =>
    have hobj : ∀ m : NameMap String, Json.ofMap .str m ≠ .null := fun _ => Json.noConfusion
    have hstr : ∀ s, Json.string? (.str s) = some s := fun _ => rfl
    rw [toJson_code]
    apply ofJson?_obj
    case hcode => rfl
    case hproduct =>
      rw [optionalMember_memberOf_append (by decide)]
      apply optionalMember_memberOf mapOf_names hobj
      rw [member_memberOf_append (by decide), member_memberOf_append (by decide)]
      rfl
    case hunion =>
      rw [optionalMember_memberOf_append (by decide), optionalMember_memberOf_append (by decide)]
      apply optionalMember_memberOf mapOf_names hobj
      rw [member_memberOf_append (by decide)]
      rfl
    case hvector =>
      rw [optionalMember_memberOf_append (by decide), optionalMember_memberOf_append (by decide),
        optionalMember_memberOf_append (by decide)]
      exact optionalMember_memberOf hstr (fun _ => Json.noConfusion) rfl vector

end Declaration

namespace Filter
variable {f : Filter} {fs : List (String × Filter)} {j : Json}

/-- Fields are listed in ascending order of their labels, at any depth. -/
inductive Arranged : Filter → Prop
  | var (name : String) : Arranged (.var name)
  | code (name : String) : Arranged (.code name)
  | fields {kind : FieldsKind} {fs : List (String × Filter)} {isOpen : Bool}
      (hlabels : fs.Pairwise fun a b => a.1 < b.1) (hfields : ∀ e ∈ fs, Arranged e.2) :
      Arranged (.fields kind fs isOpen)
  | vector {f : Filter} (h : Arranged f) : Arranged (.vector f)

theorem ofJson?_toJson_kind (kind : FieldsKind) : FieldsKind.ofJson? kind.toJson = some kind := by
  cases kind <;> rfl

theorem entriesOfJson?_entriesToJson (h : ∀ e ∈ fs, ofJson? e.2.toJson = some e.2) :
    entriesOfJson? (entriesToJson fs) = some fs := by
  induction fs with
  | nil => rfl
  | cons e rest ih =>
    rw [entriesToJson, entriesOfJson?, h e List.mem_cons_self,
      ih fun d hd => h d (List.mem_cons_of_mem _ hd)]
    rfl

theorem Arranged.ofJson?_toJson (h : f.Arranged) : ofJson? f.toJson = some f := by
  induction h with
  | var name => rfl
  | code name => rfl
  | @fields kind fs isOpen hlabels _ ih =>
    have htable : tableOfJson? (.obj (entriesToJson fs)) = some fs := by
      rw [tableOfJson?, entriesOfJson?_entriesToJson ih]
    have hmember : ∀ rest, tableMember? (("kind", kind.toJson) ::
        ("fields", .obj (entriesToJson fs)) :: rest) = some fs := by
      intro rest
      rw [tableMember?, if_neg (by decide), tableMember?, if_pos rfl, htable]
    have hkind : Json.member "kind" (("kind", kind.toJson) :: ("fields", .obj (entriesToJson fs)) ::
        [("open", .bool isOpen)]) = some kind.toJson := rfl
    have hopen : Json.member "open" (("kind", kind.toJson) :: ("fields", .obj (entriesToJson fs)) ::
        [("open", .bool isOpen)]) = some (.bool isOpen) := rfl
    have harrange : arrange fs = fs := NameMap.entries_ofList hlabels
    rw [toJson, ofJson?]
    simp [fieldsOfJson?, hkind, hopen, hmember, ofJson?_toJson_kind, Json.bool?, harrange]
  | vector _ ih => rw [toJson, ofJson?, ih, Option.map_some]

theorem Arranged.fields_arrange {kind : FieldsKind} {isOpen : Bool} (h : ∀ e ∈ fs, Arranged e.2) :
    Arranged (.fields kind (arrange fs) isOpen) :=
  .fields (NameMap.ofList fs).ascending fun _ he =>
    h _ (NameMap.mem_of_get?_ofList (NameMap.get?_eq_some_iff.2 he))

mutual

theorem arranged_of_ofJson? : ∀ {j : Json} {f : Filter}, ofJson? j = some f → f.Arranged
  | .obj [(tag, body)], f, h => by
    unfold ofJson? at h
    split at h
    · obtain ⟨name, -, rfl⟩ := Option.map_eq_some_iff.1 h
      exact .var name
    · obtain ⟨name, -, rfl⟩ := Option.map_eq_some_iff.1 h
      exact .code name
    · obtain ⟨g, hg, rfl⟩ := Option.map_eq_some_iff.1 h
      exact .vector (arranged_of_ofJson? hg)
    · exact arranged_of_fieldsOfJson? h
    · cases h

theorem arranged_of_fieldsOfJson? : ∀ {j : Json} {f : Filter}, fieldsOfJson? j = some f → f.Arranged
  | .arr [kind, table], f, h => by
    simp only [fieldsOfJson?, Option.bind_eq_bind, Option.bind_eq_some_iff, Option.pure_def,
      Option.some.injEq] at h
    obtain ⟨_, _, fs, hfs, rfl⟩ := h
    exact .fields_arrange (arranged_of_tableOfJson? hfs)
  | .arr [kind, table, isOpen], f, h => by
    simp only [fieldsOfJson?, Option.bind_eq_bind, Option.bind_eq_some_iff, Option.pure_def,
      Option.some.injEq] at h
    obtain ⟨_, _, fs, hfs, _, _, rfl⟩ := h
    exact .fields_arrange (arranged_of_tableOfJson? hfs)
  | .obj members, f, h => by
    simp only [fieldsOfJson?, Option.bind_eq_bind, Option.bind_eq_some_iff, Option.pure_def] at h
    obtain ⟨_, _, _, _, fs, hfs, h⟩ := h
    split at h <;>
      (obtain ⟨_, _, h⟩ := Option.bind_eq_some_iff.1 h
       cases h
       exact .fields_arrange (arranged_of_tableMember? hfs))

theorem arranged_of_tableMember? : ∀ {members : List (String × Json)} {fs : List (String × Filter)},
    tableMember? members = some fs → ∀ e ∈ fs, e.2.Arranged
  | (key, value) :: rest, fs, h => by
    rw [tableMember?] at h
    split_ifs at h
    · exact arranged_of_tableOfJson? h
    · exact arranged_of_tableMember? h

theorem arranged_of_tableOfJson? : ∀ {j : Json} {fs : List (String × Filter)},
    tableOfJson? j = some fs → ∀ e ∈ fs, e.2.Arranged
  | .obj _, _, h => arranged_of_entriesOfJson? h

theorem arranged_of_entriesOfJson? :
    ∀ {members : List (String × Json)} {fs : List (String × Filter)},
      entriesOfJson? members = some fs → ∀ e ∈ fs, e.2.Arranged
  | [], fs, h => by
    cases h
    simp
  | (label, value) :: rest, fs, h => by
    simp only [entriesOfJson?, Option.bind_eq_bind, Option.bind_eq_some_iff, Option.pure_def,
      Option.some.injEq] at h
    obtain ⟨f, hf, gs, hgs, rfl⟩ := h
    intro e he
    rcases List.mem_cons.1 he with rfl | he
    · exact arranged_of_ofJson? hf
    · exact arranged_of_entriesOfJson? hgs e he

end

end Filter

theorem Literal.ofJson?_toJson (l : Literal) : ofJson? l.toJson = some l := by
  cases l with
  | int n =>
    rw [toJson, ofJson?, if_pos ⟨n.minValue_le_toInt, n.toInt_le⟩, Int64.ofInt_toInt]
  | str s => rfl
  | bool b => rfl

namespace Relation
variable {r : Relation} {rs : List Relation} {fields : List (String × Relation)}

/-- All filters in a relation are arranged. -/
inductive Arranged : Relation → Prop
  | node {r : Relation} (hfilter : ∀ f, r = .filter f → f.Arranged)
      (hchildren : ∀ c ∈ r.children, Arranged c) : Arranged r

theorem itemsOfJson?_itemsToJson (h : ∀ r ∈ rs, ofJson? r.toJson = some r) :
    itemsOfJson? (itemsToJson rs) = some rs := by
  induction rs with
  | nil => rfl
  | cons r rs ih =>
    rw [itemsToJson, itemsOfJson?, h r List.mem_cons_self,
      ih fun s hs => h s (List.mem_cons_of_mem _ hs)]
    rfl

theorem fieldOfJson?_obj {label : String} (h : ofJson? r.toJson = some r) :
    fieldOfJson? (.obj [("label", .str label), ("exp", r.toJson)]) = some (label, r) := by
  have hlabel : Json.member "label" [("label", .str label), ("exp", r.toJson)] =
      some (.str label) := rfl
  have hbody : bodyMember? [("label", .str label), ("exp", r.toJson)] = some r := by
    rw [bodyMember?, if_neg (by decide), bodyMember?, if_pos rfl, h]
  simp [fieldOfJson?, hlabel, hbody, Json.string?]

theorem fieldsOfJson?_fieldsToJson (h : ∀ e ∈ fields, ofJson? e.2.toJson = some e.2) :
    fieldsOfJson? (fieldsToJson fields) = some fields := by
  induction fields with
  | nil => rfl
  | cons e rest ih =>
    rw [fieldsToJson, fieldsOfJson?, fieldOfJson?_obj (h e List.mem_cons_self),
      ih fun d hd => h d (List.mem_cons_of_mem _ hd)]
    rfl

/-- Every form of node is read back as itself. -/
theorem Arranged.ofJson?_toJson (h : r.Arranged) : ofJson? r.toJson = some r := by
  induction h with
  | @node r hfilter _ ih =>
    cases r with
    | product fields =>
      have hfields := fieldsOfJson?_fieldsToJson fun e he => ih e.2 (List.mem_map_of_mem he)
      rw [toJson, ofJson?, productOfJson?, hfields, Option.map_some]
    | union rs | vector rs | comp rs =>
      have hitems : itemsOfJson? (itemsToJson rs) = some rs := itemsOfJson?_itemsToJson ih
      rw [toJson, ofJson?, listOfJson?, hitems, Option.map_some]
    | filter f =>
      rw [toJson, ofJson?, (hfilter f rfl).ofJson?_toJson, Option.map_some]
    | literal l => rw [toJson, ofJson?, Literal.ofJson?_toJson, Option.map_some]
    | ref name | dot label | code name | identity => rfl

theorem arranged_iff (hne : ∀ f, r ≠ .filter f) : r.Arranged ↔ ∀ c ∈ r.children, c.Arranged := by
  constructor
  · rintro ⟨-, hchildren⟩
    exact hchildren
  · exact fun hchildren => .node (fun f hf => absurd hf (hne f)) hchildren

theorem Arranged.leaf (hne : ∀ f, r ≠ .filter f) (h : r.children = []) : Arranged r :=
  (arranged_iff hne).2 (by simp [h])

mutual

theorem arranged_of_ofJson? : ∀ {j : Json} {r : Relation}, ofJson? j = some r → r.Arranged
  | .str name, r, h => by
    rw [ofJson?] at h
    split_ifs at h
    cases h
    exact .leaf (by simp) rfl
  | .obj [(tag, body)], r, h => by
    unfold ofJson? at h
    split at h
    · exact arranged_of_productOfJson? h
    iterate 3
      · obtain ⟨rs, hrs, rfl⟩ := Option.map_eq_some_iff.1 h
        exact (arranged_iff (by simp)).2 (arranged_of_listOfJson? hrs)
    iterate 3
      · obtain ⟨name, -, rfl⟩ := Option.map_eq_some_iff.1 h
        exact .leaf (by simp) rfl
    · obtain ⟨f, hf, rfl⟩ := Option.map_eq_some_iff.1 h
      refine .node ?_ (by simp [children])
      rintro g ⟨⟩
      exact Filter.arranged_of_ofJson? hf
    · obtain ⟨l, -, rfl⟩ := Option.map_eq_some_iff.1 h
      exact .leaf (by simp) rfl
    · split at h
      · cases h
        exact .leaf (by simp) rfl
      · cases h
    · cases h

theorem arranged_of_listOfJson? : ∀ {j : Json} {rs : List Relation},
    listOfJson? j = some rs → ∀ r ∈ rs, r.Arranged
  | .arr _, _, h => arranged_of_itemsOfJson? h

theorem arranged_of_itemsOfJson? : ∀ {items : List Json} {rs : List Relation},
    itemsOfJson? items = some rs → ∀ r ∈ rs, r.Arranged
  | [], _, h => by
    cases h
    simp
  | item :: rest, _, h => by
    simp only [itemsOfJson?, Option.bind_eq_bind, Option.bind_eq_some_iff, Option.pure_def,
      Option.some.injEq] at h
    obtain ⟨s, hs, ss, hss, rfl⟩ := h
    intro r hr
    rcases List.mem_cons.1 hr with rfl | hr
    · exact arranged_of_ofJson? hs
    · exact arranged_of_itemsOfJson? hss r hr

theorem arranged_of_productOfJson? : ∀ {j : Json} {r : Relation},
    productOfJson? j = some r → r.Arranged
  | .arr items, r, h => by
    obtain ⟨fields, hfields, rfl⟩ := Option.map_eq_some_iff.1 h
    refine (arranged_iff (by simp)).2 fun c hc => ?_
    obtain ⟨e, he, rfl⟩ := List.mem_map.1 hc
    exact arranged_of_fieldsOfJson? hfields e he

theorem arranged_of_fieldsOfJson? : ∀ {items : List Json} {fields : List (String × Relation)},
    fieldsOfJson? items = some fields → ∀ e ∈ fields, e.2.Arranged
  | [], _, h => by
    cases h
    simp
  | item :: rest, _, h => by
    simp only [fieldsOfJson?, Option.bind_eq_bind, Option.bind_eq_some_iff, Option.pure_def,
      Option.some.injEq] at h
    obtain ⟨d, hd, ds, hds, rfl⟩ := h
    intro e he
    rcases List.mem_cons.1 he with rfl | he
    · exact arranged_of_fieldOfJson? hd
    · exact arranged_of_fieldsOfJson? hds e he

theorem arranged_of_fieldOfJson? : ∀ {j : Json} {e : String × Relation},
    fieldOfJson? j = some e → e.2.Arranged
  | .arr [label, body], _, h => by
    simp only [fieldOfJson?, Option.bind_eq_bind, Option.bind_eq_some_iff, Option.pure_def,
      Option.some.injEq] at h
    obtain ⟨_, _, r, hr, rfl⟩ := h
    exact arranged_of_ofJson? hr
  | .obj members, _, h => by
    simp only [fieldOfJson?, Option.bind_eq_bind, Option.bind_eq_some_iff, Option.pure_def,
      Option.some.injEq] at h
    obtain ⟨_, _, _, _, r, hr, rfl⟩ := h
    exact arranged_of_bodyMember? hr

theorem arranged_of_bodyMember? : ∀ {members : List (String × Json)} {r : Relation},
    bodyMember? members = some r → r.Arranged
  | (key, value) :: rest, _, h => by
    rw [bodyMember?] at h
    split_ifs at h
    · exact arranged_of_ofJson? h
    · exact arranged_of_bodyMember? h

end

end Relation

namespace CompilationUnit
variable {u : CompilationUnit}

/-- All filters in the relations of a unit are arranged. -/
def Arranged (u : CompilationUnit) : Prop := ∀ e ∈ u.relations.entries, e.2.Arranged

theorem arranged_of_readRelations {j : Json} {rels : Relations} (h : readRelations j = some rels)
    (codes : NameMap Declaration) : Arranged ⟨codes, rels⟩ := by
  intro e he
  obtain ⟨v, hv⟩ := Json.exists_read_of_mapOf h he
  exact Relation.arranged_of_ofJson? hv

/-- Whatever form a unit has that is read, it is arranged. -/
theorem arranged_of_ofJson? {j : Json} (h : ofJson? j = some u) : u.Arranged := by
  have hnone : ∀ codes, Arranged { codes } := fun _ _ he => by cases he
  unfold ofJson? at h
  split at h
  · simp only [Option.bind_eq_bind, Option.bind_eq_some_iff, Option.pure_def,
      Option.some.injEq] at h
    obtain ⟨codes, -, rels, hrels, rfl⟩ := h
    unfold memberOr at hrels
    split at hrels
    · cases hrels
      exact hnone codes
    · exact arranged_of_readRelations hrels codes
  · cases h
    exact hnone ∅
  · obtain ⟨codes, -, h⟩ := Option.bind_eq_some_iff.1 h
    cases h
    exact hnone codes
  · simp only [Option.bind_eq_bind, Option.bind_eq_some_iff, Option.pure_def,
      Option.some.injEq] at h
    obtain ⟨codes, -, rels, hrels, rfl⟩ := h
    exact arranged_of_readRelations hrels codes
  · cases h

/-- A unit is read back as what was written. -/
theorem read_written (h : u.Arranged) : ofJson? u.toJson = some u := by
  have hcodes : readCodes (Json.ofMap Declaration.toJson u.codes) = some u.codes :=
    Json.mapOf_ofMap fun e _ => e.2.ofJson?_toJson
  have hrels : readRelations (Json.ofMap Relation.toJson u.relations) = some u.relations :=
    Json.mapOf_ofMap fun e he => (h e he).ofJson?_toJson
  have hmember : memberOr readRelations ∅ "rels" [("codes", Json.ofMap Declaration.toJson u.codes),
      ("rels", Json.ofMap Relation.toJson u.relations)] = some u.relations := hrels
  have hmember' : memberOr readCodes ∅ "codes" [("codes", Json.ofMap Declaration.toJson u.codes),
      ("rels", Json.ofMap Relation.toJson u.relations)] = some u.codes := hcodes
  simp [toJson, ofJson?, hmember, hmember']

/-- Both forms of declarations and all forms of nodes, with filters below filters. -/
def everyForm : CompilationUnit where
  codes := ⟨[("int", .builtin "@int"), ("ints", .code "vector" none none (some "int")),
    ("maybe", .code "union" none (some ⟨[("none", "unit"), ("some", "int")], by decide⟩) none),
    ("unit", .code "product" (some ∅) none none)], by decide⟩
  relations := ⟨[("main", .product [("a", .comp [.dot "x", .ref "test", .identity]),
      ("b", .union [.vector [.literal (.int (-1)), .literal (.str "null"), .literal (.bool true)],
        .code "ints"])]),
    ("test", .filter (.fields .any [("x", .var "t"), ("y", .vector (.code "int"))] true))],
    by decide⟩

theorem read_written_everyForm :
    everyForm.Arranged ∧ ofJson? everyForm.toJson = some everyForm := by
  let test : Filter := .fields .any [("x", .var "t"), ("y", .vector (.code "int"))] true
  have htest : test.Arranged :=
    .fields (by decide) (by simpa using ⟨.var "t", .vector (.code "int")⟩)
  have hfilter : (Relation.filter test).Arranged :=
    .node (by simpa using htest) (by simp [Relation.children])
  have harranged : everyForm.Arranged := by
    simp [everyForm, Arranged, Relation.arranged_iff, Relation.children, hfilter, test]
  exact ⟨harranged, read_written harranged⟩

end CompilationUnit

end StructuralTyping
