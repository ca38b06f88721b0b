import Mathlib.Data.Finset.Card
import Mathlib.Data.List.Basic
import StructuralTyping.Digraph.Components

/-!
# Strongly connected components

The components of a graph list every vertex once, two vertices share a component exactly if each
reaches the other, and a component stands after all others that it reaches. The search keeps the
vertices that it has entered but not left on a path, which is part of the stack. Every vertex of the
stack reaches the vertices above it, and leads back to a vertex of the path that is not above it. So
the part of the stack that is cut off when nothing older was seen is one component, and no edge
leads from it back to the rest of the stack.
-/
namespace StructuralTyping.Digraph
variable {α : Type} {g : Digraph α} {u v w : α}

section Layers

/-- Components, each connected and with no edge to any component listed before it. -/
inductive Layered (g : Digraph α) : List (List α) → Prop
  | nil : Layered g []
  | cons {component : List α} {rest : List (List α)} (nonempty : component ≠ [])
      (connected : ∀ u ∈ component, ∀ v ∈ component, g.Reaches u v)
      (leaves : ∀ u ∈ component, ∀ v, (u, v) ∈ g.edges → v ∈ component ∨ v ∈ rest.flatten)
      (layered : Layered g rest) : Layered g (component :: rest)

theorem Reaches.single (h : (u, v) ∈ g.edges) : g.Reaches u v := .step h (.refl v)

/-- A set that no edge leaves holds all that can be reached from it. -/
theorem Reaches.mem_of_closed {p : α → Prop} (hp : ∀ u, p u → ∀ v, (u, v) ∈ g.edges → p v)
    (h : g.Reaches u v) (hu : p u) : p v := by
  induction h with
  | refl => exact hu
  | step he _ ih => exact ih (hp _ hu _ he)

theorem mem_vertices_of_reaches (hu : u ∈ g.vertices) (h : g.Reaches u v) : v ∈ g.vertices :=
  h.mem_of_closed (fun _ _ _ he => (g.closed _ he).2) hu

variable {components : List (List α)}

theorem Layered.edge_mem (h : g.Layered components) (u : α) (hu : u ∈ components.flatten) (v : α)
    (he : (u, v) ∈ g.edges) : v ∈ components.flatten := by
  induction h with
  | nil => simp at hu
  | @cons component rest _ _ hleaves _ ih =>
    rw [List.flatten_cons, List.mem_append] at hu ⊢
    rcases hu with hu | hu
    · exact hleaves u hu v he
    · exact .inr (ih hu)

theorem Layered.reaches_mem (h : g.Layered components) (hu : u ∈ components.flatten)
    (hr : g.Reaches u v) : v ∈ components.flatten :=
  hr.mem_of_closed h.edge_mem hu

/-- In a list of layers without repetition the components are told apart by what they reach. -/
theorem Layered.pairwise (h : g.Layered components) (hnodup : components.flatten.Nodup) :
    components.Pairwise fun c d => ∀ u ∈ c, ∀ v ∈ d, ¬g.Reaches v u := by
  induction h with
  | nil => exact .nil
  | @cons component rest _ _ _ hrest ih =>
    rw [List.flatten_cons, List.nodup_append] at hnodup
    refine List.pairwise_cons.2 ⟨fun d hd u hu v hv hr => ?_, ih hnodup.2.1⟩
    have hmem := hrest.reaches_mem (List.mem_flatten_of_mem hd hv) hr
    exact hnodup.2.2 u hu u hmem rfl

theorem Layered.connected (h : g.Layered components) {c : List α} (hc : c ∈ components)
    (hu : u ∈ c) (hv : v ∈ c) : g.Reaches u v := by
  induction h with
  | nil => simp at hc
  | cons _ hconn _ _ ih =>
    rcases List.mem_cons.1 hc with rfl | hc
    · exact hconn u hu v hv
    · exact ih hc

theorem Layered.ne_nil (h : g.Layered components) {c : List α} (hc : c ∈ components) : c ≠ [] := by
  induction h with
  | nil => simp at hc
  | cons hne _ _ _ ih =>
    rcases List.mem_cons.1 hc with rfl | hc
    · exact hne
    · exact ih hc

end Layers

variable [DecidableEq α] {s t : Search α} {path fresh done : List α} {low fuel : Nat}

namespace Search

def Seen (s : Search α) (v : α) : Prop := (s.number? v).isSome

/-- The discovery number of a vertex that was seen. -/
def num (s : Search α) (v : α) : Nat := (s.number? v).getD 0

/-- What holds at every point of a search that has entered the vertices of `path` and not left
them. -/
structure Sound (g : Digraph α) (path : List α) (s : Search α) : Prop where
  number_lt : ∀ v n, s.number? v = some n → n < s.numbers.length
  seen_iff : ∀ v, s.Seen v ↔ v ∈ s.stack ∨ v ∈ s.closed.flatten
  nodup : (s.stack ++ s.closed.flatten).Nodup
  vertex : ∀ v, s.Seen v → v ∈ g.vertices
  descending : s.stack.Pairwise fun a b => s.num b < s.num a ∧ g.Reaches b a
  path_subset : path ⊆ s.stack
  explored : ∀ u ∈ s.stack, u ∉ path → ∀ v, (u, v) ∈ g.edges → s.Seen v
  returns : ∀ y ∈ s.stack, ∃ x ∈ path, s.num x ≤ s.num y ∧ g.Reaches y x
  layered : g.Layered s.closed

/-- What was found from `v` since the search was at `s`: `fresh` is what was added to the stack, and
`low` the least number of an older vertex of the stack that was seen. -/
structure Found (g : Digraph α) (s : Search α) (v : α) (fresh : List α) (low : Nat)
    (t : Search α) : Prop where
  keeps : ∀ u n, s.number? u = some n → t.number? u = some n
  seen : t.number? v = some s.numbers.length
  stack : t.stack = fresh ++ s.stack
  late : ∀ y ∈ fresh, s.numbers.length ≤ t.num y
  low_le : low ≤ s.numbers.length
  attained : low < s.numbers.length → ∃ x ∈ s.stack, s.num x = low ∧ g.Reaches v x

/-- The number of vertices that are still to be discovered. -/
def remaining (g : Digraph α) (s : Search α) : Nat :=
  (g.vertices.toFinset.filter fun v => s.number? v = none).card

section Numbers

theorem seen_iff_exists : s.Seen v ↔ ∃ n, s.number? v = some n := Option.isSome_iff_exists

theorem number?_eq_none_iff : s.number? v = none ↔ ¬s.Seen v := by simp [Seen]

theorem num_eq {n : Nat} (h : s.number? v = some n) : s.num v = n := by simp [num, h]

theorem number?_discover (s : Search α) (v u : α) :
    (s.discover v).number? u = if u = v then some s.numbers.length else s.number? u := by
  by_cases h : u = v
  · simp [number?, discover, h]
  · have hne : (u == v) = false := by simpa using h
    simp [number?, discover, List.lookup_cons, hne, h]

theorem seen_discover : (s.discover v).Seen u ↔ u = v ∨ s.Seen u := by
  by_cases h : u = v <;> simp [Seen, number?_discover, h]

theorem Seen.num_eq (hkeeps : ∀ u n, s.number? u = some n → t.number? u = some n)
    (h : s.Seen v) : t.num v = s.num v := by
  obtain ⟨n, hn⟩ := seen_iff_exists.1 h
  rw [Search.num_eq hn, Search.num_eq (hkeeps v n hn)]

theorem Seen.mono (hkeeps : ∀ u n, s.number? u = some n → t.number? u = some n)
    (h : s.Seen v) : t.Seen v := by
  obtain ⟨n, hn⟩ := seen_iff_exists.1 h
  exact seen_iff_exists.2 ⟨n, hkeeps v n hn⟩

theorem remaining_lt (hkeeps : ∀ u n, s.number? u = some n → t.number? u = some n)
    (hv : v ∈ g.vertices) (hnew : ¬s.Seen v) (hseen : t.Seen v) :
    remaining g t < remaining g s := by
  refine Finset.card_lt_card ((Finset.ssubset_iff_of_subset ?_).2 ⟨v, ?_, ?_⟩)
  · intro u hu
    simp only [Finset.mem_filter, number?_eq_none_iff] at hu ⊢
    exact ⟨hu.1, fun h => hu.2 (h.mono hkeeps)⟩
  · simp [hv, number?_eq_none_iff, hnew]
  · simp [number?_eq_none_iff, hseen]

theorem remaining_le_length (g : Digraph α) (s : Search α) :
    remaining g s ≤ g.vertices.length :=
  (Finset.card_filter_le _ _).trans g.vertices.toFinset_card_le

end Numbers

namespace Sound

theorem seen_of_mem (h : s.Sound g path) (hv : v ∈ s.stack) : s.Seen v := (h.seen_iff v).2 (.inl hv)

theorem num_lt (h : s.Sound g path) (hv : s.Seen v) : s.num v < s.numbers.length := by
  obtain ⟨n, hn⟩ := seen_iff_exists.1 hv
  rw [num_eq hn]
  exact h.number_lt v n hn

/-- A vertex that all vertices of the path reach can be entered next. -/
theorem discover (h : s.Sound g path) (hv : v ∈ g.vertices) (hnew : ¬s.Seen v)
    (hpath : ∀ x ∈ path, g.Reaches x v) : (s.discover v).Sound g (v :: path) := by
  have hkeeps : ∀ u n, s.number? u = some n → (s.discover v).number? u = some n := by
    intro u n hn
    rw [number?_discover, if_neg, hn]
    rintro rfl
    exact hnew (seen_iff_exists.2 ⟨n, hn⟩)
  have hnum : ∀ u ∈ s.stack, (s.discover v).num u = s.num u :=
    fun u hu => (h.seen_of_mem hu).num_eq hkeeps
  have hself : (s.discover v).num v = s.numbers.length := num_eq (by simp [number?_discover])
  have hfree : v ∉ s.stack ∧ v ∉ s.closed.flatten := by
    rw [← not_or, ← h.seen_iff v]
    exact hnew
  constructor
  case number_lt =>
    intro u n hn
    rw [number?_discover] at hn
    show n < s.numbers.length + 1
    split_ifs at hn
    · simp only [Option.some.injEq] at hn
      omega
    · exact Nat.lt_succ_of_lt (h.number_lt u n hn)
  case seen_iff =>
    intro u
    rw [seen_discover, h.seen_iff]
    show _ ↔ u ∈ v :: s.stack ∨ u ∈ s.closed.flatten
    rw [List.mem_cons, or_assoc]
  case nodup =>
    show (v :: (s.stack ++ s.closed.flatten)).Nodup
    refine List.nodup_cons.2 ⟨?_, h.nodup⟩
    simpa [List.mem_append] using hfree
  case vertex =>
    intro u hu
    rcases seen_discover.1 hu with rfl | hu
    · exact hv
    · exact h.vertex u hu
  case descending =>
    show (v :: s.stack).Pairwise _
    refine List.pairwise_cons.2 ⟨fun y hy => ?_, h.descending.imp_of_mem ?_⟩
    · obtain ⟨x, hx, -, hyx⟩ := h.returns y hy
      rw [hself, hnum y hy]
      exact ⟨h.num_lt (h.seen_of_mem hy), hyx.trans (hpath x hx)⟩
    · intro a b ha hb hab
      rwa [hnum a ha, hnum b hb]
  case path_subset => exact List.cons_subset_cons v h.path_subset
  case explored =>
    intro u hu hout x hx
    rw [List.mem_cons, not_or] at hout
    rw [seen_discover]
    exact .inr (h.explored u ((List.mem_cons.1 hu).resolve_left hout.1) hout.2 x hx)
  case returns =>
    intro y hy
    rcases List.mem_cons.1 hy with rfl | hy
    · exact ⟨y, List.mem_cons_self, le_rfl, .refl y⟩
    · obtain ⟨x, hx, hle, hyx⟩ := h.returns y hy
      refine ⟨x, List.mem_cons_of_mem v hx, ?_, hyx⟩
      rwa [hnum x (h.path_subset hx), hnum y hy]
  case layered => exact h.layered

end Sound

theorem close_eq {rest : List α} (hstack : s.stack = fresh ++ v :: rest) (hv : v ∉ fresh) :
    s.close v = { s with stack := rest, closed := (fresh ++ [v]) :: s.closed } := by
  have hne : ∀ a ∈ fresh, decide (a ≠ v) = true := by
    intro a ha
    simp only [ne_eq, decide_eq_true_eq]
    rintro rfl
    exact hv ha
  have htake : s.stack.takeWhile (· ≠ v) = fresh := by
    rw [hstack, List.takeWhile_append_of_pos hne]
    simp
  have hdrop : s.stack.dropWhile (· ≠ v) = v :: rest := by
    rw [hstack, List.dropWhile_append_of_pos hne]
    simp
  rw [close, htake, hdrop, List.drop_one, List.tail_cons]

end Search

open Search

section Visit

/-- What becomes of a search when it follows an edge to `w`. -/
def explore (g : Digraph α) (fuel : Nat) (seen : Nat × Search α) (w : α) : Nat × Search α :=
  match seen.2.number? w with
  | none => (g.visit fuel w seen.2).map (min seen.1) id
  | some number => (if w ∈ seen.2.stack then min seen.1 number else seen.1, seen.2)

/-- Leave `v` after all its edges were followed. -/
def leave (start : Nat) (v : α) (seen : Nat × Search α) : Nat × Search α :=
  (seen.1, if seen.1 = start then seen.2.close v else seen.2)

theorem visit_succ (g : Digraph α) (fuel : Nat) (v : α) (s : Search α) :
    g.visit (fuel + 1) v s = leave s.numbers.length v
      ((g.successors v).foldl (g.explore fuel) (s.numbers.length, s.discover v)) := rfl

/-- No edge from what was added to the stack leads below `low`. -/
def NoneBelow (g : Digraph α) (s : Search α) (fresh : List α) (low : Nat) : Prop :=
  ∀ y ∈ fresh, ∀ x ∈ s.stack, (y, x) ∈ g.edges → low ≤ s.num x

/-- What holds while the edges of `v` are followed, if those to `done` have been. -/
structure Exploring (g : Digraph α) (path : List α) (s : Search α) (v : α) (done fresh : List α)
    (seen : Nat × Search α) : Prop where
  sound : seen.2.Sound g (v :: path)
  found : Found g s v (fresh ++ [v]) seen.1 seen.2
  lower : NoneBelow g s fresh seen.1
  met : ∀ x ∈ done, seen.2.Seen x ∧ (x ∈ s.stack → seen.1 ≤ s.num x)

/-- The outcome of a visit of `v`. -/
def Visits (g : Digraph α) (path : List α) (s : Search α) (v : α) (seen : Nat × Search α) : Prop :=
  seen.2.Sound g path ∧ ∃ fresh, Found g s v fresh seen.1 seen.2 ∧ NoneBelow g s fresh seen.1

theorem Exploring.start (h : s.Sound g path) (hv : v ∈ g.vertices) (hnew : ¬s.Seen v)
    (hpath : ∀ x ∈ path, g.Reaches x v) :
    Exploring g path s v [] [] (s.numbers.length, s.discover v) where
  sound := h.discover hv hnew hpath
  found := by
    have hself : (s.discover v).number? v = some s.numbers.length := by simp [number?_discover]
    refine ⟨fun u n hn => ?_, hself, rfl, ?_, le_rfl, fun hlt => absurd hlt (lt_irrefl _)⟩
    · rw [number?_discover, if_neg, hn]
      rintro rfl
      exact hnew (seen_iff_exists.2 ⟨n, hn⟩)
    · intro y hy
      obtain rfl : y = v := by simpa using hy
      exact (num_eq hself).ge
  lower y hy := absurd hy List.not_mem_nil
  met x hx := absurd hx List.not_mem_nil

variable {seen : Nat × Search α}

namespace Exploring

/-- A vertex with a number below that of `v` was on the stack before `v`. -/
theorem mem_stack (h : Exploring g path s v done fresh seen) {x : α} (hx : x ∈ seen.2.stack)
    (hlt : seen.2.num x < s.numbers.length) : x ∈ s.stack := by
  rw [h.found.stack, List.mem_append] at hx
  rcases hx with hx | hx
  · exact absurd (h.found.late x hx) (by omega)
  · exact hx

/-- Following an edge to a vertex that was not seen before. -/
theorem visit (h : Exploring g path s v done fresh seen) (hs : s.Sound g path)
    (he : (v, w) ∈ g.edges) (hnew : ¬seen.2.Seen w) {next : Nat × Search α}
    (hnext : Visits g (v :: path) seen.2 w next) :
    ∃ fresh', Exploring g path s v (w :: done) fresh' (min seen.1 next.1, next.2) := by
  obtain ⟨hsound, more, hfound, hlower⟩ := hnext
  have hkeeps : ∀ u n, s.number? u = some n → next.2.number? u = some n :=
    fun u n hn => hfound.keeps u n (h.found.keeps u n hn)
  have hold : ∀ x ∈ s.stack, x ∈ seen.2.stack ∧ seen.2.num x = s.num x := by
    intro x hx
    refine ⟨?_, (hs.seen_of_mem hx).num_eq h.found.keeps⟩
    rw [h.found.stack]
    exact List.mem_append_right _ hx
  have hlater : s.numbers.length < seen.2.numbers.length :=
    h.sound.number_lt v _ h.found.seen
  refine ⟨more ++ fresh, hsound, ⟨hkeeps, hfound.keeps v _ h.found.seen, ?_, ?_, ?_, ?_⟩, ?_, ?_⟩
  · rw [hfound.stack, h.found.stack]
    simp
  · intro y hy
    rw [List.append_assoc, List.mem_append] at hy
    rcases hy with hy | hy
    · exact hlater.le.trans (hfound.late y hy)
    · have hseen : seen.2.Seen y := by
        apply h.sound.seen_of_mem
        rw [h.found.stack]
        exact List.mem_append_left _ hy
      rw [hseen.num_eq hfound.keeps]
      exact h.found.late y hy
  · exact (min_le_left _ _).trans h.found.low_le
  · intro hlt
    rcases min_choice seen.1 next.1 with hmin | hmin
    · rw [hmin] at hlt ⊢
      exact h.found.attained hlt
    · rw [hmin] at hlt ⊢
      obtain ⟨x, hx, hnum, hwx⟩ := hfound.attained (hlt.trans hlater)
      have hin := h.mem_stack hx (hnum ▸ hlt)
      exact ⟨x, hin, (hold x hin).2 ▸ hnum, .step he hwx⟩
  · intro y hy x hx hyx
    rcases List.mem_append.1 hy with hy | hy
    · obtain ⟨hmem, hnum⟩ := hold x hx
      rw [← hnum]
      exact (min_le_right _ _).trans (hlower y hy x hmem hyx)
    · exact (min_le_left _ _).trans (h.lower y hy x hx hyx)
  · intro x hx
    rcases List.mem_cons.1 hx with rfl | hx
    · refine ⟨seen_iff_exists.2 ⟨_, hfound.seen⟩, fun hin => ?_⟩
      exact absurd ((hs.seen_of_mem hin).mono h.found.keeps) hnew
    · obtain ⟨hseen, hle⟩ := h.met x hx
      exact ⟨hseen.mono hfound.keeps, fun hin => (min_le_left _ _).trans (hle hin)⟩

/-- Following an edge to a vertex that was seen before. -/
theorem skip (h : Exploring g path s v done fresh seen) (hs : s.Sound g path)
    (he : (v, w) ∈ g.edges) {number : Nat} (hw : seen.2.number? w = some number) :
    Exploring g path s v (w :: done) fresh
      (if w ∈ seen.2.stack then min seen.1 number else seen.1, seen.2) := by
  have hle : (if w ∈ seen.2.stack then min seen.1 number else seen.1) ≤ seen.1 := by
    split_ifs
    · exact min_le_left _ _
    · exact le_rfl
  refine ⟨h.sound, ⟨h.found.keeps, h.found.seen, h.found.stack, h.found.late,
    hle.trans h.found.low_le, ?_⟩, fun y hy x hx hyx => hle.trans (h.lower y hy x hx hyx), ?_⟩
  · intro hlt
    dsimp only at hlt ⊢
    split_ifs at hlt ⊢ with hin
    · rcases min_choice seen.1 number with hmin | hmin
      · rw [hmin] at hlt ⊢
        exact h.found.attained hlt
      · rw [hmin] at hlt ⊢
        have hold : w ∈ s.stack := h.mem_stack hin (by rwa [num_eq hw])
        refine ⟨w, hold, ?_, .single he⟩
        rw [← (hs.seen_of_mem hold).num_eq h.found.keeps, num_eq hw]
    · exact h.found.attained hlt
  · intro x hx
    rcases List.mem_cons.1 hx with rfl | hx
    · refine ⟨seen_iff_exists.2 ⟨number, hw⟩, fun hold => ?_⟩
      have hin : x ∈ seen.2.stack := by
        rw [h.found.stack]
        exact List.mem_append_right _ hold
      rw [if_pos hin, ← (hs.seen_of_mem hold).num_eq h.found.keeps, num_eq hw]
      exact min_le_right _ _
    · exact ⟨(h.met x hx).1, fun hold => hle.trans ((h.met x hx).2 hold)⟩

theorem stack_eq (h : Exploring g path s v done fresh seen) :
    seen.2.stack = fresh ++ v :: s.stack := by
  rw [h.found.stack]
  simp

theorem notMem_fresh (h : Exploring g path s v done fresh seen) : v ∉ fresh := by
  have hnodup := h.sound.nodup
  rw [h.stack_eq, List.append_assoc] at hnodup
  intro hin
  exact (List.nodup_append.1 hnodup).2.2 v hin v (by simp) rfl

/-- What was added to the stack was not there before. -/
theorem notMem_stack (h : Exploring g path s v done fresh seen) {y : α} (hy : y ∈ fresh ++ [v]) :
    y ∉ s.stack := by
  have hnodup := h.sound.nodup
  rw [h.found.stack, List.append_assoc] at hnodup
  intro hold
  exact (List.nodup_append.1 hnodup).2.2 y hy y (List.mem_append_left _ hold) rfl

variable (h : Exploring g path s v done fresh seen) (hs : s.Sound g path)
  (hdone : ∀ x, (v, x) ∈ g.edges → x ∈ done)
include h hs hdone

/-- When all edges of `v` were followed, all edges of the stack from `v` on were. -/
theorem edge_seen {y x : α} (hy : y ∈ fresh ++ [v]) (he : (y, x) ∈ g.edges) : seen.2.Seen x := by
  by_cases hyv : y = v
  · subst hyv
    exact (h.met x (hdone x he)).1
  · refine h.sound.explored y ?_ ?_ x he
    · rw [h.found.stack]
      exact List.mem_append_left _ hy
    · rw [List.mem_cons, not_or]
      exact ⟨hyv, fun hpath => h.notMem_stack hy (hs.path_subset hpath)⟩

section Close
variable (hlow : seen.1 = s.numbers.length)
include hlow

/-- If nothing older was seen, no edge leads from the stack above and at `v` to what is below. -/
theorem leaves (y : α) (hy : y ∈ fresh ++ [v]) (x : α) (hyx : (y, x) ∈ g.edges) :
    x ∈ fresh ++ [v] ∨ x ∈ seen.2.closed.flatten := by
  rcases (h.sound.seen_iff x).1 (h.edge_seen hs hdone hy hyx) with hx | hx
  · rw [h.found.stack, List.mem_append] at hx
    refine .inl (hx.resolve_right fun hold => ?_)
    have hge : seen.1 ≤ s.num x := by
      rcases List.mem_append.1 hy with hy | hy
      · exact h.lower y hy x hold hyx
      · obtain rfl := List.mem_singleton.1 hy
        exact (h.met x (hdone x hyx)).2 hold
    have hlt := hs.num_lt (hs.seen_of_mem hold)
    omega
  · exact .inr hx

/-- If nothing older was seen, the stack above and at `v` is connected. -/
theorem connected (y : α) (hy : y ∈ fresh ++ [v]) (z : α) (hz : z ∈ fresh ++ [v]) :
    g.Reaches y z := by
  have hto : g.Reaches y v := by
    have hmem : y ∈ seen.2.stack := by
      rw [h.found.stack]
      exact List.mem_append_left _ hy
    obtain ⟨x, hx, -, hyx⟩ := h.sound.returns y hmem
    rcases List.mem_cons.1 hx with rfl | hx
    · exact hyx
    · -- All that `y` reaches is in the component or in those closed before, so `x` is not below.
      exfalso
      have hstays := hyx.mem_of_closed
        (p := fun a => a ∈ fresh ++ [v] ∨ a ∈ seen.2.closed.flatten) ?_ (.inl hy)
      · have hold := hs.path_subset hx
        rcases hstays with hin | hin
        · exact h.notMem_stack hin hold
        · have hnodup := h.sound.nodup
          rw [h.found.stack] at hnodup
          exact (List.nodup_append.1 hnodup).2.2 x (List.mem_append_right _ hold) x hin rfl
      · rintro a (ha | ha) b hab
        · exact h.leaves hs hdone hlow a ha b hab
        · exact .inr (h.sound.layered.edge_mem a ha b hab)
  have hfrom : g.Reaches v z := by
    have hdesc := h.sound.descending
    rw [h.stack_eq, List.pairwise_append] at hdesc
    rcases List.mem_append.1 hz with hz | hz
    · exact (hdesc.2.2 z hz v List.mem_cons_self).2
    · obtain rfl := List.mem_singleton.1 hz
      exact .refl z
  exact hto.trans hfrom

theorem close : Visits g path s v (seen.1, seen.2.close v) := by
  rw [close_eq h.stack_eq h.notMem_fresh]
  have hnum : ∀ x ∈ s.stack, seen.2.num x = s.num x :=
    fun x hx => (hs.seen_of_mem hx).num_eq h.found.keeps
  refine ⟨⟨h.sound.number_lt, ?_, ?_, h.sound.vertex, ?_, hs.path_subset, ?_, ?_, ?_⟩, [],
    ⟨h.found.keeps, h.found.seen, rfl, by simp, h.found.low_le, fun hlt => absurd hlt ?_⟩,
    by simp [NoneBelow]⟩
  · intro x
    refine (h.sound.seen_iff x).trans ?_
    simp only [h.found.stack, List.flatten_cons, List.mem_append]
    tauto
  · have hperm : (s.stack ++ ((fresh ++ [v]) :: seen.2.closed).flatten).Perm
        (seen.2.stack ++ seen.2.closed.flatten) := by
      rw [h.found.stack, List.flatten_cons, ← List.append_assoc]
      exact List.perm_append_comm.append_right _
    exact hperm.nodup_iff.2 h.sound.nodup
  · have hdesc := h.sound.descending
    rw [h.found.stack] at hdesc
    exact (List.pairwise_append.1 hdesc).2.1
  · intro u hu hout x hx
    exact (hs.explored u hu hout x hx).mono h.found.keeps
  · intro y hy
    obtain ⟨x, hx, hle, hyx⟩ := hs.returns y hy
    refine ⟨x, hx, ?_, hyx⟩
    show seen.2.num x ≤ seen.2.num y
    rwa [hnum x (hs.path_subset hx), hnum y hy]
  · exact .cons (by simp) (h.connected hs hdone hlow) (h.leaves hs hdone hlow) h.sound.layered
  · exact hlow.ge.not_gt

end Close

/-- If something older was seen, `v` stays on the stack. -/
theorem keep (hlow : seen.1 ≠ s.numbers.length) : Visits g path s v seen := by
  obtain ⟨z, hz, hnum, hvz⟩ := h.found.attained (lt_of_le_of_ne h.found.low_le hlow)
  have hkept : ∀ x ∈ s.stack, seen.2.num x = s.num x :=
    fun x hx => (hs.seen_of_mem hx).num_eq h.found.keeps
  refine ⟨⟨h.sound.number_lt, h.sound.seen_iff, h.sound.nodup, h.sound.vertex, h.sound.descending,
    ?_, ?_, ?_, h.sound.layered⟩, fresh ++ [v], h.found, ?_⟩
  · exact fun x hx => h.sound.path_subset (List.mem_cons_of_mem v hx)
  · intro u hu hout x hx
    by_cases huv : u = v
    · subst huv
      exact (h.met x (hdone x hx)).1
    · exact h.sound.explored u hu (by simp [huv, hout]) x hx
  · intro y hy
    obtain ⟨x, hx, hle, hyx⟩ := h.sound.returns y hy
    rcases List.mem_cons.1 hx with rfl | hx
    · -- From the older vertex that was seen there is a way back to the path.
      obtain ⟨w, hw, hwz, hzw⟩ := hs.returns z hz
      refine ⟨w, hw, ?_, hyx.trans (hvz.trans hzw)⟩
      rw [num_eq h.found.seen] at hle
      rw [hkept w (hs.path_subset hw)]
      have := h.found.low_le
      omega
    · exact ⟨x, hx, hle, hyx⟩
  · intro y hy x hx hyx
    rcases List.mem_append.1 hy with hy | hy
    · exact h.lower y hy x hx hyx
    · obtain rfl := List.mem_singleton.1 hy
      exact (h.met x (hdone x hyx)).2 hx

end Exploring

/-- Visits of vertices that were not seen before end as described, if at most `fuel` vertices are
still to be discovered. -/
def VisitsWithin (g : Digraph α) (fuel : Nat) : Prop :=
  ∀ ⦃path s v⦄, s.Sound g path → v ∈ g.vertices → ¬s.Seen v → (∀ x ∈ path, g.Reaches x v) →
    remaining g s ≤ fuel → Visits g path s v (g.visit fuel v s)

/-- Following one edge of `v`. -/
theorem Exploring.explore (h : Exploring g path s v done fresh seen) (hs : s.Sound g path)
    (hvisits : VisitsWithin g fuel) (hpath : ∀ x ∈ path, g.Reaches x v)
    (hfuel : remaining g seen.2 ≤ fuel) (he : (v, w) ∈ g.edges) :
    ∃ fresh', Exploring g path s v (w :: done) fresh' (g.explore fuel seen w) := by
  unfold Digraph.explore
  cases hw : seen.2.number? w with
  | none =>
    have hnew := number?_eq_none_iff.1 hw
    have hreach : ∀ x ∈ v :: path, g.Reaches x w := by
      intro x hx
      rcases List.mem_cons.1 hx with rfl | hx
      · exact .single he
      · exact (hpath x hx).trans (.single he)
    exact h.visit hs he hnew (hvisits h.sound (g.closed _ he).2 hnew hreach hfuel)
  | some number => exact ⟨fresh, h.skip hs he hw⟩

/-- Following edges of `v` one after the other. -/
theorem Exploring.foldl {todo : List α} (h : Exploring g path s v done fresh seen)
    (hs : s.Sound g path) (hvisits : VisitsWithin g fuel) (hpath : ∀ x ∈ path, g.Reaches x v)
    (hv : v ∈ g.vertices) (hnew : ¬s.Seen v) (hfuel : remaining g s ≤ fuel + 1)
    (htodo : ∀ w ∈ todo, (v, w) ∈ g.edges) :
    ∃ fresh', Exploring g path s v (todo.reverse ++ done) fresh'
      (todo.foldl (g.explore fuel) seen) := by
  induction todo generalizing done fresh seen with
  | nil => exact ⟨fresh, h⟩
  | cons w todo ih =>
    have hlt := remaining_lt h.found.keeps hv hnew (seen_iff_exists.2 ⟨_, h.found.seen⟩)
    obtain ⟨fresh', h'⟩ := h.explore hs hvisits hpath (by omega) (htodo w List.mem_cons_self)
    obtain ⟨fresh'', h''⟩ := ih h' fun x hx => htodo x (List.mem_cons_of_mem w hx)
    refine ⟨fresh'', ?_⟩
    rw [List.reverse_cons, List.append_assoc]
    exact h''

theorem visitsWithin (g : Digraph α) (fuel : Nat) : VisitsWithin g fuel := by
  induction fuel with
  | zero =>
    intro path s v hs hv hnew hpath hfuel
    have hstart := Exploring.start hs hv hnew hpath
    have hlt := remaining_lt hstart.found.keeps hv hnew (seen_iff_exists.2 ⟨_, hstart.found.seen⟩)
    omega
  | succ fuel ih =>
    intro path s v hs hv hnew hpath hfuel
    obtain ⟨fresh, h⟩ := (Exploring.start hs hv hnew hpath).foldl hs ih hpath hv hnew hfuel
      fun w (hw : w ∈ g.successors v) => mem_successors.1 hw
    have hdone : ∀ x, (v, x) ∈ g.edges → x ∈ (g.successors v).reverse ++ [] := by
      intro x hx
      simpa using mem_successors.2 hx
    rw [visit_succ, leave]
    split_ifs with hlow
    · exact h.close hs hdone hlow
    · exact h.keep hs hdone hlow

end Visit

section Components

/-- Search from a vertex unless it was seen before. -/
def searchFrom (g : Digraph α) (s : Search α) (v : α) : Search α :=
  match s.number? v with
  | none => (g.visit g.vertices.length v s).2
  | some _ => s

theorem components_eq (g : Digraph α) :
    g.components = (g.vertices.foldl g.searchFrom {}).closed.reverse := rfl

theorem initial_sound (g : Digraph α) : Sound g [] ({} : Search α) where
  number_lt v n h := by simp [number?] at h
  seen_iff v := by simp [Seen, number?]
  nodup := by simp
  vertex v h := by simp [Seen, number?] at h
  descending := .nil
  path_subset := by simp
  explored u hu := by simp at hu
  returns y hy := by simp at hy
  layered := .nil

theorem Search.Sound.searchFrom (h : s.Sound g []) (hv : v ∈ g.vertices) :
    (g.searchFrom s v).Sound g [] ∧ (g.searchFrom s v).Seen v ∧
      ∀ u, s.Seen u → (g.searchFrom s v).Seen u := by
  unfold Digraph.searchFrom
  cases hnum : s.number? v with
  | none =>
    obtain ⟨hsound, fresh, hfound, -⟩ := visitsWithin g g.vertices.length h hv
      (number?_eq_none_iff.1 hnum) (by simp) (remaining_le_length g s)
    exact ⟨hsound, seen_iff_exists.2 ⟨_, hfound.seen⟩, fun u hu => hu.mono hfound.keeps⟩
  | some n => exact ⟨h, seen_iff_exists.2 ⟨n, hnum⟩, fun u hu => hu⟩

theorem Search.Sound.foldl_searchFrom {todo : List α} (h : s.Sound g [])
    (htodo : ∀ v ∈ todo, v ∈ g.vertices) :
    (todo.foldl g.searchFrom s).Sound g [] ∧
      ∀ v, v ∈ todo ∨ s.Seen v → (todo.foldl g.searchFrom s).Seen v := by
  induction todo generalizing s with
  | nil => exact ⟨h, by simp⟩
  | cons w todo ih =>
    obtain ⟨hnext, hw, hkept⟩ := h.searchFrom (htodo w List.mem_cons_self)
    obtain ⟨hend, hseen⟩ := ih hnext fun v hv => htodo v (List.mem_cons_of_mem w hv)
    refine ⟨hend, fun v hv => hseen v ?_⟩
    rw [List.mem_cons, or_assoc] at hv
    rcases hv with rfl | hv | hv
    · exact .inr hw
    · exact .inl hv
    · exact .inr (hkept v hv)

/-- The components in the order of closing: the latest first. -/
theorem exists_layered (g : Digraph α) : ∃ closed, g.components = closed.reverse ∧
    g.Layered closed ∧ closed.flatten.Perm g.vertices := by
  obtain ⟨hsound, hseen⟩ := (initial_sound g).foldl_searchFrom fun v (hv : v ∈ g.vertices) => hv
  have hstack : (g.vertices.foldl g.searchFrom {}).stack = [] := by
    rw [List.eq_nil_iff_forall_not_mem]
    intro y hy
    obtain ⟨x, hx, -⟩ := hsound.returns y hy
    exact absurd hx List.not_mem_nil
  refine ⟨_, components_eq g, hsound.layered, ?_⟩
  have hnodup := hsound.nodup
  rw [hstack, List.nil_append] at hnodup
  rw [List.perm_ext_iff_of_nodup hnodup g.distinct]
  intro v
  have hiff := hsound.seen_iff v
  rw [hstack] at hiff
  constructor
  · exact fun hv => hsound.vertex v (hiff.2 (.inr hv))
  · exact fun hv => (hiff.1 (hseen v (.inl hv))).resolve_left List.not_mem_nil

/-- Every vertex is in exactly one component, once. -/
theorem flatten_components_perm (g : Digraph α) : g.components.flatten.Perm g.vertices := by
  obtain ⟨closed, heq, -, hperm⟩ := exists_layered g
  rw [heq]
  exact (List.reverse_perm closed).flatten.trans hperm

theorem nil_notMem_components (g : Digraph α) : [] ∉ g.components := by
  obtain ⟨closed, heq, hlayered, -⟩ := exists_layered g
  rw [heq, List.mem_reverse]
  exact fun hc => hlayered.ne_nil hc rfl

theorem reaches_of_mem_component {c : List α} (hc : c ∈ g.components) (hu : u ∈ c) (hv : v ∈ c) :
    g.Reaches u v := by
  obtain ⟨closed, heq, hlayered, -⟩ := exists_layered g
  rw [heq, List.mem_reverse] at hc
  exact hlayered.connected hc hu hv

/-- No component reaches a component that is listed after it. -/
theorem pairwise_components (g : Digraph α) :
    g.components.Pairwise fun c d => ∀ u ∈ c, ∀ v ∈ d, ¬g.Reaches u v := by
  obtain ⟨closed, heq, hlayered, hperm⟩ := exists_layered g
  rw [heq, List.pairwise_reverse]
  refine (hlayered.pairwise (hperm.nodup_iff.2 g.distinct)).imp ?_
  exact fun h u hu v hv => h v hv u hu

theorem exists_component (hv : v ∈ g.vertices) : ∃ c ∈ g.components, v ∈ c :=
  List.mem_flatten.1 ((flatten_components_perm g).mem_iff.2 hv)

theorem mem_vertices_of_component {c : List α} (hc : c ∈ g.components) (hv : v ∈ c) :
    v ∈ g.vertices :=
  (flatten_components_perm g).mem_iff.1 (List.mem_flatten_of_mem hc hv)

/-- A component that reaches another is listed after it. -/
theorem lt_of_reaches {i j : Nat} {c d : List α} (hi : g.components[i]? = some c)
    (hj : g.components[j]? = some d) (hne : i ≠ j) (hu : u ∈ c) (hv : v ∈ d)
    (h : g.Reaches u v) : j < i := by
  obtain ⟨hilt, rfl⟩ := List.getElem?_eq_some_iff.1 hi
  obtain ⟨hjlt, rfl⟩ := List.getElem?_eq_some_iff.1 hj
  rcases lt_or_gt_of_ne hne with hlt | hlt
  · have hapart := List.pairwise_iff_getElem.1 (pairwise_components g) i j hilt hjlt hlt
    exact absurd h (hapart u hu v hv)
  · exact hlt

/-- Only one component has a given member. -/
theorem components_disjoint {i j : Nat} {c d : List α} (hi : g.components[i]? = some c)
    (hj : g.components[j]? = some d) (hc : v ∈ c) (hd : v ∈ d) : i = j := by
  by_contra hne
  have hlt := lt_of_reaches hi hj hne hc hd (.refl v)
  exact hlt.asymm (lt_of_reaches hj hi (Ne.symm hne) hd hc (.refl v))

/-- The component of a vertex holds all that it reaches and that reach it. -/
theorem mem_component_iff {c : List α} (hc : c ∈ g.components) (hu : u ∈ c) :
    v ∈ c ↔ g.Reaches u v ∧ g.Reaches v u := by
  constructor
  · exact fun hv => ⟨reaches_of_mem_component hc hu hv, reaches_of_mem_component hc hv hu⟩
  · rintro ⟨huv, hvu⟩
    obtain ⟨d, hd, hv⟩ :=
      exists_component (mem_vertices_of_reaches (mem_vertices_of_component hc hu) huv)
    obtain ⟨i, hi⟩ := List.mem_iff_getElem?.1 hc
    obtain ⟨j, hj⟩ := List.mem_iff_getElem?.1 hd
    by_cases hij : i = j
    · subst hij
      obtain rfl : c = d := Option.some.inj (hi.symm.trans hj)
      exact hv
    · have hlt := lt_of_reaches hi hj hij hu hv huv
      exact absurd (lt_of_reaches hj hi (Ne.symm hij) hv hu hvu) hlt.asymm

/-- The components of a graph: every vertex occurs once and nothing else does, two vertices share a
component exactly if each reaches the other, and a component is listed after every other component
that it reaches. -/
theorem components_strong (g : Digraph α) :
    (∀ v, g.components.flatten.count v = if v ∈ g.vertices then 1 else 0) ∧
    (∀ u ∈ g.vertices, ∀ v ∈ g.vertices,
      (∃ c ∈ g.components, u ∈ c ∧ v ∈ c) ↔ g.Reaches u v ∧ g.Reaches v u) ∧
    (∀ (i j : Nat) c d, g.components[i]? = some c → g.components[j]? = some d → i ≠ j →
      (∃ u ∈ c, ∃ v ∈ d, g.Reaches u v) → j < i) ∧
    [] ∉ g.components := by
  refine ⟨fun v => ?_, fun u hu v _ => ?_, ?_, nil_notMem_components g⟩
  · rw [(flatten_components_perm g).count_eq]
    exact g.distinct.count
  · constructor
    · rintro ⟨c, hc, huc, hvc⟩
      exact (mem_component_iff hc huc).1 hvc
    · intro h
      obtain ⟨c, hc, huc⟩ := exists_component hu
      exact ⟨c, hc, huc, (mem_component_iff hc huc).2 h⟩
  · rintro i j c d hi hj hne ⟨u, hu, v, hv, huv⟩
    exact lt_of_reaches hi hj hne hu hv huv

end Components

end StructuralTyping.Digraph
