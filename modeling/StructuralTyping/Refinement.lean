/-!
# Partition refinement

A system has finitely many nodes, each showing a head and leading to a list of nodes. Nodes start in
one class with all that show the same head, and a class is split as long as two of its nodes lead to
different classes. Classes are named by their first node, so the result is determined by the
partition alone.
-/
namespace StructuralTyping

structure System (σ : Type) where
  size : Nat
  head : Nat → σ
  next : Nat → List Nat

namespace System
variable {σ : Type} [DecidableEq σ]

/-- Every entry is replaced by the first position that holds the same. -/
def firstEqual {τ : Type} [DecidableEq τ] (entries : List τ) : List Nat :=
  entries.map fun e => entries.idxOf e

/-- The class of a node; a node outside the system stands for itself. -/
def classOf (classes : Array Nat) (node : Nat) : Nat := classes[node]?.getD node

def initial (s : System σ) : Array Nat :=
  (firstEqual ((List.range s.size).map s.head)).toArray

/-- Separate the nodes of a class that lead to different classes. -/
def split (s : System σ) (classes : Array Nat) : Array Nat :=
  (firstEqual ((List.range s.size).map fun i =>
    (classOf classes i, (s.next i).map (classOf classes)))).toArray

def splitAll (s : System σ) : Nat → Array Nat → Array Nat
  | 0, classes => classes
  | fuel + 1, classes =>
    let finer := s.split classes
    if finer = classes then classes else splitAll s fuel finer

/-- The coarsest partition in which the nodes of a class show the same head and lead to the same
classes. Every round but the last adds a class, so there are no more rounds than nodes. -/
def coarsest (s : System σ) : Array Nat := s.splitAll s.size s.initial

/-- A relation under which related nodes show the same head and lead to related nodes. -/
def IsBisimulation (s : System σ) (r : Nat → Nat → Prop) : Prop :=
  ∀ i j, r i j → s.head i = s.head j ∧ (s.next i).length = (s.next j).length ∧
    ∀ p ∈ (s.next i).zip (s.next j), r p.1 p.2

end System

end StructuralTyping
