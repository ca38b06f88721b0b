import Mathlib.Data.List.Perm.Subperm
import Mathlib.Data.List.Shortlex
import StructuralTyping.Digraph.Basic
import StructuralTyping.Proofs.Quotient
import StructuralTyping.Proofs.UniqueReadability

/-!
# Breadth-first order

A path through a map of codes is a list of positions, one for each reference that is followed. An
exploration meets every name on the soonest path that leads to it: paths are compared by length, and
paths of one length from left to right. So a map without a code for some name that is led to stops
the exploration at the first such name, and an exploration that ends has met exactly the names that
are led to. Nothing is asked of the map: names of builtins are not followed, whether they are keys
or not.
-/
namespace StructuralTyping

/-- A path comes sooner if it is shorter, or as long and further left. -/
def Sooner : List Nat → List Nat → Prop := List.Shortlex (· < ·)

namespace Sooner
variable {s t u : List Nat}

theorem iff_lex : Sooner s t ↔ s.length < t.length ∨ s.length = t.length ∧ s < t := by
  rw [Sooner, List.shortlex_def]
  rfl

theorem trans (h : Sooner s t) (h' : Sooner t u) : Sooner s u := by
  rw [iff_lex] at h h' ⊢
  rcases h with h | ⟨h, hlt⟩ <;> rcases h' with h' | ⟨h', hlt'⟩
  · exact .inl (h.trans h')
  · exact .inl (h' ▸ h)
  · exact .inl (h ▸ h')
  · exact .inr ⟨h.trans h', lt_trans hlt hlt'⟩

theorem irrefl (s : List Nat) : ¬Sooner s s := by
  rw [iff_lex]
  simp

theorem self_snoc (s : List Nat) (i : Nat) : Sooner s (s ++ [i]) :=
  iff_lex.2 (.inl (by simp))

theorem snoc_lt_snoc (h : s.length = t.length) (hlt : s < t) (i j : Nat) :
    s ++ [i] < t ++ [j] := by
  induction s generalizing t with
  | nil =>
    obtain rfl := List.eq_nil_of_length_eq_zero h.symm
    exact absurd hlt (lt_irrefl _)
  | cons a s ih =>
    cases t with
    | nil => cases h
    | cons b t =>
      rw [List.cons_lt_cons_iff] at hlt
      rw [List.cons_append, List.cons_append, List.cons_lt_cons_iff]
      exact hlt.imp id fun ⟨hab, hlt⟩ => ⟨hab, ih (by simpa using h) hlt⟩

theorem snoc (h : Sooner s t) (i j : Nat) : Sooner (s ++ [i]) (t ++ [j]) := by
  rw [iff_lex] at h ⊢
  refine h.imp (by simp) fun ⟨hlen, hlt⟩ => ⟨by simpa using hlen, snoc_lt_snoc hlen hlt i j⟩

theorem snoc_of_lt (s : List Nat) {i j : Nat} (h : i < j) : Sooner (s ++ [i]) (s ++ [j]) :=
  List.Shortlex.append_left ((List.shortlex_singleton_iff i j).2 h) s

end Sooner

section Positions
variable {α : Type} [DecidableEq α] {a b : α}

theorem idxOf_lt_of_filter (p : α → Bool) {l : List α} (ha : p a) (hb : p b)
    (h : (l.filter p).idxOf a < (l.filter p).idxOf b) : l.idxOf a < l.idxOf b := by
  induction l with
  | nil => simp at h
  | cons c l ih =>
    by_cases hac : c = a
    · subst hac
      have hcb : c ≠ b := by
        rintro rfl
        exact absurd h (Nat.lt_irrefl _)
      simp [hcb]
    · by_cases hcb : c = b
      · subst hcb
        simp [hb] at h
      · have hrest : (l.filter p).idxOf a < (l.filter p).idxOf b := by
          by_cases hc : p c
          · simpa [List.filter_cons, hc, List.idxOf_cons, hac, hcb] using h
          · simpa [List.filter_cons, hc] using h
        simpa [List.idxOf_cons, hac, hcb] using ih hrest

theorem idxOf_le_of_getElem? {l : List α} {j : Nat} (h : l[j]? = some a) : l.idxOf a ≤ j := by
  obtain ⟨hlt, rfl⟩ := List.getElem?_eq_some_iff.1 h
  by_contra hgt
  have hfirst := List.not_of_lt_findIdx (Nat.lt_of_not_le hgt)
  simp at hfirst

/-- Dropping repetitions keeps the order in which elements are met. -/
theorem pairwise_idxOf_eraseDups (l : List α) :
    l.eraseDups.Pairwise fun a b => l.idxOf a < l.idxOf b := by
  induction hlen : l.length using Nat.strong_induction_on generalizing l with
  | _ k ih =>
    cases l with
    | nil => simp
    | cons c l =>
      rw [List.eraseDups_cons, List.pairwise_cons]
      constructor
      · intro b hb
        have hcb : c ≠ b := by
          have hne := (List.mem_filter.1 (List.mem_eraseDups.1 hb)).2
          exact Ne.symm (by simpa using hne)
        simp [hcb]
      · have hshort : (l.filter fun b => !b == c).length < k := by
          have hle := List.length_filter_le (fun b => !b == c) l
          simp only [List.length_cons] at hlen
          omega
        have hrest := ih _ hshort (l.filter fun b => !b == c) rfl
        refine List.Pairwise.imp_of_mem (fun {a b} ha hb hlt => ?_) hrest
        have ha' := (List.mem_filter.1 (List.mem_eraseDups.1 ha)).2
        have hb' := (List.mem_filter.1 (List.mem_eraseDups.1 hb)).2
        refine idxOf_lt_of_filter (fun b => !b == c) (l := c :: l) ha' hb' ?_
        simpa [List.filter_cons] using hlt

end Positions

namespace Codes
variable {c d : Codes} {a b n r root : String} {path : List Nat}

/-- The references of a code that were not met before, in the order in which they are met. -/
def fresh (met : List String) (code : Code String) : List String :=
  (code.refs.filter fun r => !Text.isBuiltin r && r ∉ met).eraseDups

theorem mem_fresh {met : List String} {x : Code String} :
    n ∈ fresh met x ↔ n ∈ x.refs ∧ ¬Text.isBuiltin n ∧ n ∉ met := by
  simp [fresh, List.mem_eraseDups]

theorem explore_cons {fuel : Nat} {done queue : List String} {x : Code String}
    (hx : c.get? n = some x) :
    c.explore (fuel + 1) done (n :: queue) =
      c.explore fuel (done ++ [n]) (queue ++ fresh (done ++ n :: queue) x) := by
  simp only [explore, hx]
  rfl

/-- Following the references at the given positions leads from the root to a name, on names that are
no builtins. -/
inductive Leads (c : Codes) (root : String) : List Nat → String → Prop
  | root : Leads c root [] root
  | step {path : List Nat} {n r : String} {x : Code String} {i : Nat} (h : Leads c root path n)
      (hx : c.get? n = some x) (hi : x.refs[i]? = some r) (hr : ¬Text.isBuiltin r) :
      Leads c root (path ++ [i]) r

def Reached (c : Codes) (root n : String) : Prop := ∃ path, c.Leads root path n

/-- The name without a code that is led to soonest. -/
def FirstMissing (c : Codes) (root n : String) : Prop :=
  ¬c.contains n ∧ ∃ path, c.Leads root path n ∧
    ∀ path' n', c.Leads root path' n' → ¬c.contains n' → path = path' ∨ Sooner path path'

theorem Leads.unique (h : c.Leads root path a) (h' : c.Leads root path b) : a = b := by
  induction h generalizing b with
  | root =>
    generalize hnil : ([] : List Nat) = path at h'
    cases h' with
    | root => rfl
    | step => simp at hnil
  | @step path n r x i _ hx hi _ ih =>
    generalize hsnoc : path ++ [i] = whole at h'
    cases h' with
    | root => simp at hsnoc
    | step h' hx' hi' _ =>
      obtain ⟨rfl, hlast⟩ := List.append_inj' hsnoc rfl
      obtain rfl := List.singleton_inj.1 hlast
      obtain rfl := ih h'
      obtain rfl := Option.some.inj (hx.symm.trans hx')
      exact Option.some.inj (hi.symm.trans hi')

theorem Leads.not_isBuiltin (hroot : ¬Text.isBuiltin root) (h : c.Leads root path n) :
    ¬Text.isBuiltin n := by
  cases h with
  | root => exact hroot
  | step _ _ _ hr => exact hr

/-- The names that a code adds to those met, each with the soonest path to it. -/
def ways (path : List Nat) (met : List String) (x : Code String) : List (List Nat × String) :=
  (fresh met x).map fun r => (path ++ [x.refs.idxOf r], r)

theorem map_snd_ways (path : List Nat) (met : List String) (x : Code String) :
    (ways path met x).map (·.2) = fresh met x := by
  simp [ways, Function.comp_def]

theorem mem_ways {met : List String} {x : Code String} {q : List Nat × String}
    (h : q ∈ ways path met x) : q.1 = path ++ [x.refs.idxOf q.2] ∧ q.2 ∈ fresh met x := by
  obtain ⟨r, hr, rfl⟩ := List.mem_map.1 h
  exact ⟨rfl, hr⟩

theorem pairwise_fresh (met : List String) (x : Code String) :
    (fresh met x).Pairwise fun a b => x.refs.idxOf a < x.refs.idxOf b := by
  refine List.Pairwise.imp_of_mem (fun {a b} ha hb hlt => ?_) (pairwise_idxOf_eraseDups _)
  have ha' := (List.mem_filter.1 (List.mem_eraseDups.1 ha)).2
  have hb' := (List.mem_filter.1 (List.mem_eraseDups.1 hb)).2
  exact idxOf_lt_of_filter _ ha' hb' hlt

/-- What holds at every point of an exploration, where every name that was met comes with the path
it was met on: what follows a name in the queue comes later than all that was met. -/
structure Tour (c : Codes) (root : String) (done queue : List (List Nat × String)) : Prop where
  start : ([], root) ∈ done ++ queue
  leads : ∀ p ∈ done ++ queue, c.Leads root p.1 p.2
  nodup : ((done ++ queue).map (·.2)).Nodup
  sorted : (done ++ queue).Pairwise fun p q => Sooner p.1 q.1
  ahead : ∀ p ∈ done ++ queue, ∀ q ∈ queue, ∀ j, Sooner p.1 (q.1 ++ [j])
  known : ∀ p ∈ done, c.contains p.2
  refs : ∀ p ∈ done, ∀ x, c.get? p.2 = some x → ∀ (j : Nat) (r : String), x.refs[j]? = some r →
    ¬Text.isBuiltin r → ∃ q ∈ done ++ queue, q.2 = r ∧
      (q.1 = p.1 ++ [j] ∨ Sooner q.1 (p.1 ++ [j]))

namespace Tour
variable {done queue : List (List Nat × String)} {p : List Nat × String}

theorem singleton (c : Codes) (root : String) : c.Tour root [] [([], root)] where
  start := by simp
  leads p hp := by
    obtain rfl := List.mem_singleton.1 hp
    exact .root
  nodup := by simp
  sorted := by simp
  ahead p hp q hq j := by
    obtain rfl := List.mem_singleton.1 hp
    obtain rfl := List.mem_singleton.1 hq
    exact .self_snoc [] j
  known p hp := by cases hp
  refs p hp := by cases hp

theorem step (h : c.Tour root done (p :: queue)) {x : Code String} (hx : c.get? p.2 = some x) :
    c.Tour root (done ++ [p])
      (queue ++ ways p.1 ((done ++ p :: queue).map (·.2)) x) := by
  generalize hmet : (done ++ p :: queue).map (·.2) = met
  have hsplit : (done ++ [p]) ++ (queue ++ ways p.1 met x) =
      (done ++ p :: queue) ++ ways p.1 met x := by simp
  have hp : p ∈ done ++ p :: queue := by simp
  have hways : ∀ q ∈ ways p.1 met x, q.1 = p.1 ++ [x.refs.idxOf q.2] ∧ q.2 ∈ x.refs ∧
      ¬Text.isBuiltin q.2 ∧ q.2 ∉ met := fun q hq =>
    ⟨(mem_ways hq).1, mem_fresh.1 (mem_ways hq).2⟩
  constructor
  case start => rw [hsplit]; exact List.mem_append_left _ h.start
  case leads =>
    intro q hq
    rw [hsplit, List.mem_append] at hq
    rcases hq with hq | hq
    · exact h.leads q hq
    · obtain ⟨hpath, href, hbuiltin, -⟩ := hways q hq
      rw [hpath]
      exact .step (h.leads p hp) hx (by simp [List.getElem?_idxOf, href]) hbuiltin
  case nodup =>
    rw [hsplit, List.map_append, map_snd_ways, hmet]
    refine List.nodup_append.2 ⟨hmet ▸ h.nodup, Digraph.nodup_eraseDups _, ?_⟩
    rintro u hu v hv rfl
    exact (mem_fresh.1 hv).2.2 hu
  case sorted =>
    rw [hsplit]
    refine List.pairwise_append.2 ⟨h.sorted, ?_, fun q hq q' hq' => ?_⟩
    · exact List.pairwise_map.2 ((pairwise_fresh met x).imp (Sooner.snoc_of_lt p.1))
    · rw [(hways q' hq').1]
      exact h.ahead q hq p List.mem_cons_self _
  case ahead =>
    intro q hq q' hq' j
    rw [hsplit, List.mem_append] at hq
    have hlater : ∀ q' ∈ queue, Sooner p.1 q'.1 := fun q' hq' =>
      (List.pairwise_cons.1 (List.pairwise_append.1 h.sorted).2.1).1 q' hq'
    rcases hq with hq | hq <;> rcases List.mem_append.1 hq' with hq' | hq'
    · exact h.ahead q hq q' (List.mem_cons_of_mem _ hq') j
    · rw [(hways q' hq').1]
      exact (h.ahead q hq p List.mem_cons_self _).trans (.self_snoc _ j)
    · rw [(hways q hq).1]
      exact (hlater q' hq').snoc _ j
    · rw [(hways q hq).1, (hways q' hq').1]
      exact Sooner.iff_lex.2 (.inl (by simp))
  case known =>
    intro q hq
    rcases List.mem_append.1 hq with hq | hq
    · exact h.known q hq
    · obtain rfl := List.mem_singleton.1 hq
      exact NameMap.contains_of_get? hx
  case refs =>
    intro q hq y hy j r hr hbuiltin
    rw [hsplit]
    rcases List.mem_append.1 hq with hq | hq
    · obtain ⟨q', hq', hname, hsooner⟩ := h.refs q hq y hy j r hr hbuiltin
      exact ⟨q', List.mem_append_left _ hq', hname, hsooner⟩
    · obtain rfl := List.mem_singleton.1 hq
      obtain rfl : x = y := Option.some.inj (hx.symm.trans hy)
      by_cases hold : r ∈ met
      · rw [← hmet] at hold
        obtain ⟨q', hq', rfl⟩ := List.mem_map.1 hold
        exact ⟨q', List.mem_append_left _ hq', rfl, .inr (h.ahead q' hq' q List.mem_cons_self j)⟩
      · have hmem : r ∈ x.refs := List.mem_of_getElem? hr
        refine ⟨(q.1 ++ [x.refs.idxOf r], r), List.mem_append_right _ ?_, rfl, ?_⟩
        · exact List.mem_map.2 ⟨r, mem_fresh.2 ⟨hmem, hbuiltin, hold⟩, rfl⟩
        · rcases Nat.lt_or_eq_of_le (idxOf_le_of_getElem? hr) with hlt | heq
          · exact .inr (.snoc_of_lt q.1 hlt)
          · exact .inl (by rw [heq])

/-- What a path leads to was met no later, or else something in the queue comes no later. -/
theorem met_or_queued (h : c.Tour root done queue) (hn : c.Leads root path n) :
    (∃ q ∈ done, q.2 = n ∧ (q.1 = path ∨ Sooner q.1 path)) ∨
      ∃ q ∈ queue, q.1 = path ∨ Sooner q.1 path := by
  have hsplit : ∀ {path n}, (∃ q ∈ done ++ queue, q.2 = n ∧ (q.1 = path ∨ Sooner q.1 path)) →
      (∃ q ∈ done, q.2 = n ∧ (q.1 = path ∨ Sooner q.1 path)) ∨
        ∃ q ∈ queue, q.1 = path ∨ Sooner q.1 path := by
    rintro path n ⟨q, hq, hname, hsooner⟩
    exact (List.mem_append.1 hq).imp (fun hq => ⟨q, hq, hname, hsooner⟩) fun hq => ⟨q, hq, hsooner⟩
  induction hn with
  | root => exact hsplit ⟨_, h.start, rfl, .inl rfl⟩
  | @step path n r x i _ hx hi hr ih =>
    rcases ih with ⟨q, hq, rfl, hsooner⟩ | ⟨q, hq, hsooner⟩
    · obtain ⟨q', hq', hname, hsooner'⟩ := h.refs q hq x hx i r hi hr
      have hle : q.1 ++ [i] = path ++ [i] ∨ Sooner (q.1 ++ [i]) (path ++ [i]) :=
        hsooner.imp (by rintro rfl; rfl) fun hlt => hlt.snoc i i
      refine hsplit ⟨q', hq', hname, ?_⟩
      rcases hsooner' with heq | hlt
      · exact heq ▸ hle
      · exact .inr (hle.elim (fun heq => heq ▸ hlt) hlt.trans)
    · exact .inr ⟨q, hq, .inr (hsooner.elim (fun heq => heq ▸ .self_snoc _ i)
        fun hlt => hlt.trans (.self_snoc _ i))⟩

/-- A name without a code at the head of the queue is the first one that is missing. -/
theorem firstMissing (h : c.Tour root done (p :: queue)) (hp : c.get? p.2 = none) :
    c.FirstMissing root p.2 := by
  refine ⟨NameMap.get?_eq_none_iff.1 hp, p.1, h.leads p (by simp), fun path n hn hmissing => ?_⟩
  rcases h.met_or_queued hn with ⟨q, hq, rfl, -⟩ | ⟨q, hq, hsooner⟩
  · exact absurd (h.known q hq) hmissing
  · have hfirst := (List.pairwise_cons.1 (List.pairwise_append.1 h.sorted).2.1).1
    rcases List.mem_cons.1 hq with rfl | hq
    · exact hsooner
    · exact .inr (hsooner.elim (fun heq => heq ▸ hfirst q hq) (hfirst q hq).trans)

/-- Nothing is left to be met when the queue is empty. -/
theorem mem_iff_reached (h : c.Tour root done []) : n ∈ done.map (·.2) ↔ c.Reached root n := by
  constructor
  · intro hn
    obtain ⟨q, hq, rfl⟩ := List.mem_map.1 hn
    exact ⟨q.1, h.leads q (by simpa using hq)⟩
  · rintro ⟨path, hpath⟩
    rcases h.met_or_queued hpath with ⟨q, hq, rfl, -⟩ | ⟨q, hq, -⟩
    · exact List.mem_map_of_mem hq
    · cases hq

theorem length_le (h : c.Tour root done queue) : done.length ≤ c.size := by
  have hnodup : (done.map (·.2)).Nodup := by
    have hall := h.nodup
    rw [List.map_append] at hall
    exact (List.nodup_append.1 hall).1
  have hsub : done.map (·.2) ⊆ c.keys := fun n hn => by
    obtain ⟨q, hq, rfl⟩ := List.mem_map.1 hn
    exact NameMap.mem_keys_iff.2 (h.known q hq)
  have hle := (List.subperm_of_subset hnodup hsub).length_le
  simpa [NameMap.keys, NameMap.size] using hle

/-- An exploration stops at the first name that is missing, or ends with nothing left. -/
theorem explore (h : c.Tour root done queue) {fuel : Nat} (hfuel : c.size < fuel + done.length) :
    (∃ n, c.FirstMissing root n ∧ c.explore fuel (done.map (·.2)) (queue.map (·.2)) =
        .error (.unknownCode n none)) ∨
      ∃ done', c.Tour root done' [] ∧
        c.explore fuel (done.map (·.2)) (queue.map (·.2)) = .ok (done'.map (·.2)) := by
  induction fuel generalizing done queue with
  | zero =>
    have hle := h.length_le
    omega
  | succ fuel ih =>
    cases queue with
    | nil => exact .inr ⟨done, h, by simp [Codes.explore]⟩
    | cons p queue =>
      cases hx : c.get? p.2 with
      | none => exact .inl ⟨p.2, h.firstMissing hx, by simp [Codes.explore, hx]⟩
      | some x =>
        have hexplore : c.explore (fuel + 1) (done.map (·.2)) ((p :: queue).map (·.2)) =
            c.explore fuel ((done ++ [p]).map (·.2))
              ((queue ++ ways p.1 ((done ++ p :: queue).map (·.2)) x).map (·.2)) := by
          rw [List.map_cons, explore_cons hx, List.map_append, List.map_append, map_snd_ways]
          simp
        rw [hexplore]
        exact ih (h.step hx) (by simp; omega)

end Tour

/-- A list of all names that are led to from the root, all of which have a code. -/
structure Enumerates (c : Codes) (root : String) (order : List String) : Prop where
  head : order[0]? = some root
  nodup : order.Nodup
  known : ∀ n ∈ order, c.contains n
  mem_iff : ∀ n, n ∈ order ↔ c.Reached root n

theorem Reached.of_ref {x : Code String} (h : c.Reached root n) (hx : c.get? n = some x)
    (hr : r ∈ x.refs) (hbuiltin : ¬Text.isBuiltin r) : c.Reached root r := by
  obtain ⟨path, hpath⟩ := h
  obtain ⟨i, hi⟩ := List.mem_iff_getElem?.1 hr
  exact ⟨path ++ [i], .step hpath hx hi hbuiltin⟩

theorem Reached.not_isBuiltin (h : c.Reached root n) (hroot : ¬Text.isBuiltin root) :
    ¬Text.isBuiltin n := by
  obtain ⟨path, hpath⟩ := h
  exact hpath.not_isBuiltin hroot

theorem Enumerates.refs {order : List String} {x : Code String} (h : c.Enumerates root order)
    (hn : n ∈ order) (hx : c.get? n = some x) (hr : r ∈ x.refs) :
    Text.isBuiltin r ∨ r ∈ order := by
  by_cases hbuiltin : Text.isBuiltin r
  · exact .inl hbuiltin
  · exact .inr ((h.mem_iff r).2 (((h.mem_iff n).1 hn).of_ref hx hr hbuiltin))

theorem Enumerates.not_isBuiltin {order : List String} (h : c.Enumerates root order)
    (hroot : ¬Text.isBuiltin root) (hn : n ∈ order) : ¬Text.isBuiltin n :=
  ((h.mem_iff n).1 hn).not_isBuiltin hroot

theorem Tour.enumerates {done : List (List Nat × String)} (h : c.Tour root done []) :
    c.Enumerates root (done.map (·.2)) where
  head := by
    have hstart := h.start
    have hsorted := h.sorted
    rw [List.append_nil] at hstart hsorted
    cases done with
    | nil => cases hstart
    | cons p done =>
      rcases List.mem_cons.1 hstart with rfl | hin
      · rfl
      · have hsooner := (List.pairwise_cons.1 hsorted).1 _ hin
        simp [Sooner.iff_lex] at hsooner
  nodup := by simpa using h.nodup
  known n hn := by
    obtain ⟨q, hq, rfl⟩ := List.mem_map.1 hn
    exact h.known q hq
  mem_iff _ := h.mem_iff_reached

/-- An exploration fails at the first name that is missing, or lists all names that are led to. -/
theorem explore_cases (c : Codes) (root : String) :
    (∃ n, c.FirstMissing root n ∧
        c.explore (c.size + 1) [] [root] = .error (.unknownCode n none)) ∨
      ∃ order, c.Enumerates root order ∧ c.explore (c.size + 1) [] [root] = .ok order :=
  ((Tour.singleton c root).explore (by simp)).imp id
    fun ⟨_, htour, hok⟩ => ⟨_, htour.enumerates, hok⟩

end Codes

end StructuralTyping
