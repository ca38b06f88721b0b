import StructuralTyping.Digraph.Basic

/-!
# Strongly connected components

A depth-first search numbers the vertices in the order of discovery and keeps the vertices whose
component is still open on a stack. A vertex from which nothing older on the stack can be reached
closes its component: the component is the part of the stack above it and itself. So a component is
listed after every other component that can be reached from it.
-/
namespace StructuralTyping.Digraph
variable {α : Type} [DecidableEq α]

structure Search (α : Type) where
  /-- Discovery numbers, the latest discovery first. -/
  numbers : List (α × Nat) := []
  /-- Discovered vertices of components still open, the latest first. -/
  stack : List α := []
  /-- Closed components, the latest first. -/
  closed : List (List α) := []

namespace Search

def number? (s : Search α) (v : α) : Option Nat := s.numbers.lookup v

def discover (s : Search α) (v : α) : Search α :=
  { s with numbers := (v, s.numbers.length) :: s.numbers, stack := v :: s.stack }

/-- Close the component of `v`, which is the stack down to `v`. -/
def close (s : Search α) (v : α) : Search α :=
  { s with
    stack := (s.stack.dropWhile (· ≠ v)).drop 1
    closed := (s.stack.takeWhile (· ≠ v) ++ [v]) :: s.closed }

end Search

/-- Search from an undiscovered vertex. The answer has the least discovery number on the stack that
was seen from it; `fuel` bounds the number of vertices still to be discovered. -/
def visit (g : Digraph α) : Nat → α → Search α → Nat × Search α
  | 0, _, s => (0, s)
  | fuel + 1, v, s =>
    let start := s.numbers.length
    let explore (seen : Nat × Search α) (w : α) : Nat × Search α :=
      match seen.2.number? w with
      | none => (visit g fuel w seen.2).map (min seen.1) id
      | some number => (if w ∈ seen.2.stack then min seen.1 number else seen.1, seen.2)
    let (low, s) := (g.successors v).foldl explore (start, s.discover v)
    (low, if low = start then s.close v else s)

/-- The strongly connected components, each after all others that can be reached from it. -/
def components (g : Digraph α) : List (List α) :=
  let searchFrom (s : Search α) (v : α) : Search α :=
    match s.number? v with
    | none => (visit g g.vertices.length v s).2
    | some _ => s
  (g.vertices.foldl searchFrom {}).closed.reverse

end StructuralTyping.Digraph
