/-!
# Finite maps keyed by names

A `NameMap` lists its entries in strictly ascending order of their keys. The order is part of the
type, so two maps are equal as soon as they answer every look-up alike, and listing a map never
depends on how it was built. Main statements: `get?_insert`, `get?_map` and `NameMap.ext`.
-/
namespace StructuralTyping

structure NameMap (α : Type) where
  entries : List (String × α)
  ascending : entries.Pairwise (fun a b => a.1 < b.1)

namespace NameMap
variable {α β : Type}

def empty : NameMap α := ⟨[], .nil⟩

instance : EmptyCollection (NameMap α) := ⟨empty⟩
instance : Inhabited (NameMap α) := ⟨empty⟩

instance [DecidableEq α] : DecidableEq (NameMap α) := fun a b =>
  decidable_of_iff (a.entries = b.entries) (by cases a; cases b; simp)

def lookup (key : String) : List (String × α) → Option α
  | [] => none
  | (k, v) :: rest => if key = k then some v else lookup key rest

def get? (m : NameMap α) (key : String) : Option α := lookup key m.entries

def getD (m : NameMap α) (key : String) (fallback : α) : α := (m.get? key).getD fallback

def contains (m : NameMap α) (key : String) : Bool := (m.get? key).isSome

def keys (m : NameMap α) : List String := m.entries.map (·.1)

def values (m : NameMap α) : List α := m.entries.map (·.2)

def size (m : NameMap α) : Nat := m.entries.length

def isEmpty (m : NameMap α) : Bool := m.entries.isEmpty

/-- Put an entry at its place, in the stead of any entry with the same key. -/
def place (key : String) (value : α) : List (String × α) → List (String × α)
  | [] => [(key, value)]
  | (k, v) :: rest =>
    if key < k then (key, value) :: (k, v) :: rest
    else if key = k then (key, value) :: rest
    else (k, v) :: place key value rest

theorem mem_place {key : String} {value : α} {e : String × α} {es : List (String × α)}
    (h : e ∈ place key value es) : e = (key, value) ∨ e ∈ es := by
  induction es with
  | nil => simpa [place] using h
  | cons d rest ih =>
    rw [place] at h
    split at h
    · simpa using h
    · split at h
      · rcases List.mem_cons.1 h with h | h
        · exact .inl h
        · exact .inr (List.mem_cons_of_mem _ h)
      · rcases List.mem_cons.1 h with h | h
        · exact .inr (h ▸ List.mem_cons_self)
        · exact (ih h).imp id (List.mem_cons_of_mem _)

theorem place_ascending {key : String} {value : α} {es : List (String × α)}
    (h : es.Pairwise (fun a b => a.1 < b.1)) :
    (place key value es).Pairwise (fun a b => a.1 < b.1) := by
  induction es with
  | nil => simp [place]
  | cons d rest ih =>
    have below := (List.pairwise_cons.1 h).1
    rw [place]
    split
    case isTrue lt =>
      refine h.cons fun a ha => ?_
      rcases List.mem_cons.1 ha with rfl | ha
      · exact lt
      · exact String.lt_trans lt (below a ha)
    case isFalse not_lt =>
      split
      case isTrue eq =>
        exact h.of_cons.cons fun a ha => eq ▸ below a ha
      case isFalse ne =>
        refine (ih h.of_cons).cons fun a ha => ?_
        rcases mem_place ha with rfl | ha
        · exact Std.lt_of_le_of_ne (String.not_lt.1 not_lt) (Ne.symm ne)
        · exact below a ha

def insert (m : NameMap α) (key : String) (value : α) : NameMap α :=
  ⟨place key value m.entries, place_ascending m.ascending⟩

/-- Of several entries with one key the last counts. -/
def ofList (entries : List (String × α)) : NameMap α :=
  entries.foldl (fun m e => m.insert e.1 e.2) ∅

def map (f : α → β) (m : NameMap α) : NameMap β :=
  ⟨m.entries.map fun e => (e.1, f e.2), m.ascending.map _ fun _ _ h => h⟩

def filter (p : String → α → Bool) (m : NameMap α) : NameMap α :=
  ⟨m.entries.filter fun e => p e.1 e.2, m.ascending.filter _⟩

/-- The entries of `n` take precedence. -/
def union (m n : NameMap α) : NameMap α :=
  n.entries.foldl (fun m e => m.insert e.1 e.2) m

/-- Apply `f` to the values one after the other; the first failure is the answer. -/
def traverseEntries {ε : Type} (f : α → Except ε β) :
    (entries : List (String × α)) →
      Except ε { results : List (String × β) // results.map (·.1) = entries.map (·.1) }
  | [] => .ok ⟨[], rfl⟩
  | (key, value) :: rest =>
    match f value with
    | .error e => .error e
    | .ok v =>
      match traverseEntries f rest with
      | .error e => .error e
      | .ok ⟨results, same⟩ => .ok ⟨(key, v) :: results, by simp [same]⟩

/-- Apply `f` to the values in ascending order of the keys; the first failure is the answer. -/
def traverse {ε : Type} (f : α → Except ε β) (m : NameMap α) : Except ε (NameMap β) :=
  (traverseEntries f m.entries).map fun r =>
    ⟨r.1, by
      have keys_ascending : (m.entries.map (·.1)).Pairwise (· < ·) :=
        List.pairwise_map.2 m.ascending
      rw [← r.2] at keys_ascending
      exact List.pairwise_map.1 keys_ascending⟩

theorem lookup_place (key k : String) (value : α) (es : List (String × α)) :
    lookup k (place key value es) = if k = key then some value else lookup k es := by
  induction es with
  | nil => simp [place, lookup]
  | cons d rest ih =>
    rw [place]
    split
    · simp [lookup]
    · split
      case isTrue eq => by_cases h : k = key <;> simp [lookup, h, ← eq]
      case isFalse ne =>
        by_cases h : k = d.1
        · have : ¬k = key := fun e => ne (e ▸ h)
          simp [lookup, h, Ne.symm ne]
        · simp [lookup, h, ih]

@[simp] theorem get?_empty (key : String) : (∅ : NameMap α).get? key = none := rfl

theorem get?_insert (m : NameMap α) (key k : String) (value : α) :
    (m.insert key value).get? k = if k = key then some value else m.get? k :=
  lookup_place key k value m.entries

theorem get?_map (f : α → β) (m : NameMap α) (key : String) :
    (m.map f).get? key = (m.get? key).map f := by
  suffices h : ∀ es : List (String × α),
      lookup key (es.map fun e => (e.1, f e.2)) = (lookup key es).map f from h m.entries
  intro es
  induction es with
  | nil => rfl
  | cons d rest ih => by_cases h : key = d.1 <;> simp [lookup, h, ih]

theorem lookup_eq_none_of_lt {key : String} {es : List (String × α)}
    (h : ∀ e ∈ es, key < e.1) : lookup key es = none := by
  induction es with
  | nil => rfl
  | cons d rest ih =>
    have ne : ¬key = d.1 := fun e => String.lt_irrefl _ (e ▸ h d List.mem_cons_self)
    simp [lookup, ne, ih fun e he => h e (List.mem_cons_of_mem _ he)]

private theorem entries_eq_of_lookup_eq {es fs : List (String × α)}
    (hes : es.Pairwise (fun a b => a.1 < b.1)) (hfs : fs.Pairwise (fun a b => a.1 < b.1))
    (h : ∀ k, lookup k es = lookup k fs) : es = fs := by
  induction es generalizing fs with
  | nil =>
    cases fs with
    | nil => rfl
    | cons f fs => simpa [lookup] using h f.1
  | cons e es ih =>
    cases fs with
    | nil => simpa [lookup] using h e.1
    | cons f fs =>
      obtain ⟨ek, ev⟩ := e
      obtain ⟨fk, fv⟩ := f
      have above := (List.pairwise_cons.1 hes).1
      have above' := (List.pairwise_cons.1 hfs).1
      have key_eq : ek = fk := by
        by_cases lt : ek < fk
        · have absent : lookup ek ((fk, fv) :: fs) = none := lookup_eq_none_of_lt fun a ha => by
            rcases List.mem_cons.1 ha with rfl | ha
            · exact lt
            · exact String.lt_trans lt (above' a ha)
          rw [← h ek] at absent
          simp [lookup] at absent
        · by_cases gt : fk < ek
          · have absent : lookup fk ((ek, ev) :: es) = none := lookup_eq_none_of_lt fun a ha => by
              rcases List.mem_cons.1 ha with rfl | ha
              · exact gt
              · exact String.lt_trans gt (above a ha)
            rw [h fk] at absent
            simp [lookup] at absent
          · exact String.le_antisymm (String.not_lt.1 gt) (String.not_lt.1 lt)
      subst key_eq
      have value_eq : ev = fv := by simpa [lookup] using h ek
      subst value_eq
      congr 1
      refine ih hes.of_cons hfs.of_cons fun k => ?_
      by_cases eq : k = ek
      · subst eq
        rw [lookup_eq_none_of_lt above, lookup_eq_none_of_lt above']
      · simpa [lookup, eq] using h k

/-- Maps that answer every look-up alike are equal. -/
@[ext] theorem ext {m n : NameMap α} (h : ∀ key, m.get? key = n.get? key) : m = n := by
  cases m with
  | mk es hes => cases n with
    | mk fs hfs =>
      have := entries_eq_of_lookup_eq hes hfs h
      subst this
      rfl

end NameMap

/-- A finite set of names, listed in ascending order. -/
abbrev NameSet := NameMap Unit

namespace NameSet

def ofList (names : List String) : NameSet := NameMap.ofList (names.map (·, ()))

def insert (s : NameSet) (name : String) : NameSet := NameMap.insert s name ()

def toList (s : NameSet) : List String := s.keys

def subset (s t : NameSet) : Bool := s.keys.all t.contains

end NameSet

end StructuralTyping
