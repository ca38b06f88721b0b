import Mathlib.Data.List.Forall2
import StructuralTyping.Code.Basic

/-!
# Look-ups in name maps

A map is known by its look-ups. The operations on maps are restated in terms of them, and two maps
are alike under a relation if they have the same keys and relate what they hold under each key.
Since both list their entries by key, being alike amounts to relating the entries one by one.
-/
namespace StructuralTyping

namespace NameMap
variable {α β : Type} {key : String}

theorem entries_injective {m n : NameMap α} (h : m.entries = n.entries) : m = n := by
  cases m
  cases n
  simpa using h

theorem nodup_keys (m : NameMap α) : (m.entries.map (·.1)).Nodup := by
  refine List.pairwise_map.2 (m.ascending.imp ?_)
  intro a b hlt heq
  exact String.lt_irrefl b.1 (heq ▸ hlt)

theorem lookup_eq_none_of_notMem {es : List (String × α)} (h : key ∉ es.map (·.1)) :
    lookup key es = none := by
  induction es with
  | nil => rfl
  | cons e rest ih =>
    simp only [List.map_cons, List.mem_cons, not_or] at h
    simp [lookup, h.1, ih h.2]

theorem lookup_eq_some_iff {es : List (String × α)} (h : (es.map (·.1)).Nodup) {value : α} :
    lookup key es = some value ↔ (key, value) ∈ es := by
  induction es with
  | nil => simp [lookup]
  | cons e rest ih =>
    obtain ⟨k, v⟩ := e
    rw [List.map_cons, List.nodup_cons] at h
    by_cases hk : key = k
    · subst hk
      have hrest : (key, value) ∉ rest := fun hm =>
        h.1 (List.mem_map.2 ⟨(key, value), hm, rfl⟩)
      simp [lookup, hrest, eq_comm]
    · simp [lookup, hk, ih h.2]

theorem get?_eq_some_iff {m : NameMap α} {value : α} :
    m.get? key = some value ↔ (key, value) ∈ m.entries := lookup_eq_some_iff m.nodup_keys

theorem contains_iff {m : NameMap α} : m.contains key ↔ ∃ value, m.get? key = some value :=
  Option.isSome_iff_exists

theorem contains_of_get? {m : NameMap α} {value : α} (h : m.get? key = some value) :
    m.contains key := contains_iff.2 ⟨value, h⟩

theorem get?_eq_none_iff {m : NameMap α} : m.get? key = none ↔ ¬m.contains key := by
  simp [contains]

theorem mem_keys_iff {m : NameMap α} : key ∈ m.keys ↔ m.contains key := by
  simp [keys, contains_iff, get?_eq_some_iff]

theorem contains_insert (m : NameMap α) (k : String) (value : α) :
    (m.insert k value).contains key ↔ key = k ∨ m.contains key := by
  by_cases h : key = k <;> simp [contains, get?_insert, h]

theorem insert_eq_self {m : NameMap α} {value : α} (h : m.get? key = some value) :
    m.insert key value = m := by
  apply NameMap.ext
  intro k
  rw [get?_insert]
  split_ifs with hk
  · rw [hk, h]
  · rfl

theorem get?_filter (p : String → α → Bool) (m : NameMap α) :
    (m.filter p).get? key = (m.get? key).filter (p key) := by
  ext value
  rw [Option.filter_eq_some_iff, get?_eq_some_iff, get?_eq_some_iff]
  simp [filter]

theorem lookup_map_mk (names : List String) (f : String → α) :
    lookup key (names.map fun n => (n, f n)) = if key ∈ names then some (f key) else none := by
  induction names with
  | nil => rfl
  | cons n rest ih => by_cases h : key = n <;> simp [lookup, h, ih]

theorem lookup_filterMap_mk (names : List String) (f : String → Option α) :
    lookup key (names.filterMap fun n => (f n).map (n, ·)) =
      if key ∈ names then f key else none := by
  induction names with
  | nil => rfl
  | cons n rest ih =>
    cases hn : f n with
    | none =>
      have hkey : key = n → f key = none := fun h => h ▸ hn
      by_cases h : key = n
      · simp [hn, ih, hkey h]
      · simp [h, hn, ih]
    | some value => by_cases h : key = n <;> simp [lookup, h, hn, ih]

theorem get?_foldl_insert {es : List (String × α)} (h : (es.map (·.1)).Nodup) (m : NameMap α) :
    (es.foldl (fun m e => m.insert e.1 e.2) m).get? key = (lookup key es).or (m.get? key) := by
  induction es generalizing m with
  | nil => rfl
  | cons e rest ih =>
    obtain ⟨k, v⟩ := e
    rw [List.map_cons, List.nodup_cons] at h
    rw [List.foldl_cons, ih h.2, get?_insert, lookup]
    by_cases hk : key = k
    · subst hk
      simp [lookup_eq_none_of_notMem h.1]
    · simp [hk]

theorem get?_ofList {es : List (String × α)} (h : (es.map (·.1)).Nodup) :
    (ofList es).get? key = lookup key es := by
  rw [ofList, get?_foldl_insert h, get?_empty, Option.or_none]

theorem get?_union (m n : NameMap α) : (m.union n).get? key = (n.get? key).or (m.get? key) :=
  get?_foldl_insert n.nodup_keys m

theorem contains_map {m : NameMap α} {f : α → β} : (m.map f).contains key ↔ m.contains key := by
  simp [contains, get?_map]

theorem mem_of_get?_foldl_insert {es : List (String × α)} {m : NameMap α} {value : α}
    (h : (es.foldl (fun m e => m.insert e.1 e.2) m).get? key = some value) :
    m.get? key = some value ∨ (key, value) ∈ es := by
  induction es generalizing m with
  | nil => exact .inl h
  | cons e rest ih =>
    rcases ih h with h | h
    · rw [get?_insert] at h
      split_ifs at h with hkey
      · obtain rfl := Option.some.inj h
        exact .inr (by simp [hkey])
      · exact .inl h
    · exact .inr (List.mem_cons_of_mem _ h)

theorem mem_of_get?_ofList {es : List (String × α)} {value : α}
    (h : (ofList es).get? key = some value) : (key, value) ∈ es := by
  rcases mem_of_get?_foldl_insert h with h | h
  · cases h
  · exact h

theorem contains_foldl_insert {es : List (String × α)} (m : NameMap α) :
    (es.foldl (fun m e => m.insert e.1 e.2) m).contains key ↔
      m.contains key ∨ key ∈ es.map (·.1) := by
  induction es generalizing m with
  | nil => simp
  | cons e rest ih =>
    rw [List.foldl_cons, ih, contains_insert, List.map_cons, List.mem_cons]
    tauto

theorem contains_ofList {es : List (String × α)} :
    (ofList es).contains key ↔ key ∈ es.map (·.1) := by
  rw [ofList, contains_foldl_insert]
  simp [contains]

theorem get?_ofList_singleton {k : String} {a b : α} :
    (ofList [(k, a)]).get? key = some b ↔ key = k ∧ a = b := by
  simp [ofList, get?_insert]

theorem contains_ofList_singleton {k : String} {a : α} :
    (ofList [(k, a)]).contains key ↔ key = k := by
  simp [contains_iff, get?_ofList_singleton]

theorem map_insert (m : NameMap α) (f : α → β) (k : String) (a : α) :
    (m.insert k a).map f = (m.map f).insert k (f a) := by
  ext l
  rw [get?_map, get?_insert, get?_insert, get?_map]
  split_ifs <;> rfl

theorem mem_of_lookup {es : List (String × α)} {value : α} (h : lookup key es = some value) :
    (key, value) ∈ es := by
  induction es with
  | nil => cases h
  | cons e rest ih =>
    rw [lookup] at h
    split_ifs at h with hkey
    · obtain rfl := Option.some.inj h
      simp [hkey]
    · exact List.mem_cons_of_mem _ (ih h)

theorem exists_lookup {es : List (String × α)} (h : key ∈ es.map (·.1)) :
    ∃ value, lookup key es = some value := by
  induction es with
  | nil => cases h
  | cons e rest ih =>
    by_cases hkey : key = e.1
    · exact ⟨e.2, by simp [lookup, hkey]⟩
    · obtain ⟨value, hvalue⟩ := ih ((List.mem_cons.1 h).resolve_left hkey)
      exact ⟨value, by simp [lookup, hkey, hvalue]⟩

/-- The maps have the same keys, and what they hold under a key is related. -/
def Alike (r : α → β → Prop) (m : NameMap α) (n : NameMap β) : Prop :=
  ∀ key, Option.Rel r (m.get? key) (n.get? key)

theorem Alike.keys_eq {r : α → β → Prop} {m : NameMap α} {n : NameMap β} (h : m.Alike r n) :
    m.keys = n.keys := by
  have hmap : m.map (fun _ => ()) = n.map (fun _ => ()) := by
    apply NameMap.ext
    intro k
    rw [get?_map, get?_map]
    have hk := h k
    cases hm : m.get? k <;> cases hn : n.get? k <;> simp_all
  have hkeys : (m.map (fun _ => ())).keys = (n.map (fun _ => ())).keys := by rw [hmap]
  simpa [keys, map, Function.comp_def] using hkeys

theorem Alike.eq {m n : NameMap α} (h : m.Alike (· = ·) n) : m = n := by
  apply NameMap.ext
  intro k
  have hk := h k
  cases hm : m.get? k <;> cases hn : n.get? k <;> simp_all

theorem Alike.insert {r : α → β → Prop} {m : NameMap α} {n : NameMap β} {a : α} {b : β}
    (h : m.Alike r n) (k : String) (hab : r a b) : (m.insert k a).Alike r (n.insert k b) := by
  intro l
  rw [get?_insert, get?_insert]
  split_ifs
  · exact .some hab
  · exact h l

/-- Entries that are related one by one, in whatever order and with whatever repetition of keys, make
maps that are alike. -/
theorem alike_ofList {r : α → β → Prop} {es : List (String × α)} {fs : List (String × β)}
    (h : List.Forall₂ (fun a b => a.1 = b.1 ∧ r a.2 b.2) es fs) : (ofList es).Alike r (ofList fs) := by
  suffices hfrom : ∀ (m : NameMap α) (n : NameMap β), m.Alike r n →
      (es.foldl (fun m e => m.insert e.1 e.2) m).Alike r
        (fs.foldl (fun m e => m.insert e.1 e.2) n) from hfrom ∅ ∅ fun _ => .none
  induction h with
  | nil => exact fun m n hmn => hmn
  | cons hab _ ih =>
    intro m n hmn
    obtain ⟨hkey, hr⟩ := hab
    rw [List.foldl_cons, List.foldl_cons, hkey]
    exact ih _ _ (hmn.insert _ hr)

theorem Alike.rel_of_get? {r : α → β → Prop} {m : NameMap α} {n : NameMap β} {a : α} {b : β}
    (h : m.Alike r n) (ha : m.get? key = some a) (hb : n.get? key = some b) : r a b := by
  have hrel := h key
  rwa [ha, hb, Option.rel_some_some] at hrel

theorem alike_iff_forall₂ {r : α → β → Prop} {m : NameMap α} {n : NameMap β} :
    m.Alike r n ↔ List.Forall₂ (fun a b => a.1 = b.1 ∧ r a.2 b.2) m.entries n.entries := by
  constructor
  · intro h
    have hkeys : m.entries.map (·.1) = n.entries.map (·.1) := h.keys_eq
    rw [List.forall₂_iff_get]
    refine ⟨by simpa using congrArg List.length hkeys, fun i hi hj => ?_⟩
    simp only [List.get_eq_getElem]
    have hkey : m.entries[i].1 = n.entries[i].1 := by
      have := congrArg (fun l => l[i]?) hkeys
      simpa [hi, hj] using this
    have hm : m.get? m.entries[i].1 = some m.entries[i].2 :=
      get?_eq_some_iff.2 (List.getElem_mem hi)
    have hn : n.get? n.entries[i].1 = some n.entries[i].2 :=
      get?_eq_some_iff.2 (List.getElem_mem hj)
    have hrel := h m.entries[i].1
    rw [hm, hkey, hn, Option.rel_some_some] at hrel
    exact ⟨hkey, hrel⟩
  · intro h k
    unfold get?
    generalize m.entries = es, n.entries = fs at h
    induction h with
    | nil => exact .none
    | cons hab _ ih =>
      obtain ⟨hkey, hr⟩ := hab
      simp only [lookup, hkey]
      split_ifs
      · exact .some hr
      · exact ih

theorem forall₂_of_traverseEntries {ε : Type} {f : α → Except ε β} {es : List (String × α)}
    {r : { r : List (String × β) // r.map (·.1) = es.map (·.1) }}
    (h : traverseEntries f es = .ok r) :
    List.Forall₂ (fun a b => a.1 = b.1 ∧ f a.2 = .ok b.2) es r.1 := by
  induction es with
  | nil =>
    obtain rfl := Except.ok.inj h
    exact .nil
  | cons e rest ih =>
    obtain ⟨k, v⟩ := e
    rw [traverseEntries] at h
    split at h
    · cases h
    case h_2 w hw =>
      split at h
      · cases h
      case h_2 results same hrest =>
        obtain rfl := Except.ok.inj h
        exact .cons ⟨rfl, hw⟩ (ih hrest)

theorem alike_of_traverse {ε : Type} {f : α → Except ε β} {m : NameMap α} {n : NameMap β}
    (h : m.traverse f = .ok n) : m.Alike (fun a b => f a = .ok b) n := by
  rw [alike_iff_forall₂]
  unfold traverse at h
  cases hr : traverseEntries f m.entries with
  | error e => simp [hr, Except.map] at h
  | ok r =>
    simp only [hr, Except.map, Except.ok.injEq] at h
    rw [← h]
    exact forall₂_of_traverseEntries hr

end NameMap

end StructuralTyping
