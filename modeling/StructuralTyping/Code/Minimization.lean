import StructuralTyping.Code.Basic
import StructuralTyping.Code.Error

/-!
# Minimization

Names whose codes unfold to the same infinite tree form a class. The class of the empty product is
anchored at the unit name, every other class at its least name. All names start out in the class of
the unit name. A class is checked by comparing its members with its anchor, where references count
as their representatives; the members that differ move into a class anchored at the first of them,
and the classes of the names that refer to them are checked again. Normalizing keeps one code for
each class, in which all references are representatives.
-/
namespace StructuralTyping

/-- Whether codes differ when references count as their representatives. -/
def Code.differ (rep : String → String) : Code String → Code String → Bool
  | .product f, .product g | .union f, .union g =>
    f.size != g.size || f.entries.any fun (label, a) => (g.get? label).all (rep a != rep ·)
  | .vector a, .vector b => rep a != rep b
  | _, _ => true

namespace Codes

/-- The code of a name; the unit name stands for the empty product unless it is declared. -/
def codeOf (codes : Codes) (name : String) : Code String := codes.getD name .unit

def isKnown (codes : Codes) (reference : String) : Bool :=
  Text.isBuiltin reference || reference == Text.unitName || codes.contains reference

/-- Every reference has to be a builtin, the unit name or a name of the map. -/
def checkReferences (codes : Codes) : Except CodeError Unit :=
  codes.entries.forM fun (name, code) =>
    match code.refs.find? (!codes.isKnown ·) with
    | some missing => .error (.unknownCode missing (some name))
    | none => .ok ()

/-- The names to be partitioned, the unit name among them, in ascending order. -/
def names (codes : Codes) : List String :=
  ((codes.map fun _ => ()).insert Text.unitName ()).keys

/-- What is referred to, with the names that refer to it, one for each reference. -/
def referrers (codes : Codes) : NameMap (List String) :=
  (codes.names.flatMap fun name => (codes.codeOf name).refs.map (·, name)).foldl
    (fun m (reference, name) => m.insert reference (m.getD reference [] ++ [name])) ∅

structure Partition where
  /-- Every anchor to the members of its class, in ascending order. -/
  classes : NameMap (List String)
  /-- Every name to the anchor of its class. -/
  representatives : NameMap String
deriving DecidableEq

/-- A partition together with the anchors of the classes that are scheduled to be checked. -/
structure Refinement extends Partition where
  worklist : List String

namespace Refinement

def start (names : List String) : Refinement where
  classes := .ofList [(Text.unitName, names)]
  representatives := .ofList (names.map (·, Text.unitName))
  worklist := [Text.unitName]

/-- The representative of a reference; one that leads out of the map stands for itself. -/
def rep (s : Refinement) (reference : String) : String := s.representatives.getD reference reference

def schedule (s : Refinement) (anchor : String) : Refinement :=
  if anchor ∈ s.worklist then s else { s with worklist := s.worklist ++ [anchor] }

/-- Whether a member of a class has to leave it. -/
def differs (s : Refinement) (codes : Codes) (anchor member : String) : Bool :=
  (codes.codeOf anchor).differ s.rep (codes.codeOf member)

/-- Move members of a class into a new class, and schedule what may have to be split for it. -/
def split (referrers : NameMap (List String)) (s : Refinement) (anchor newAnchor : String)
    (same moved : List String) : Refinement :=
  let representatives := moved.foldl (·.insert · newAnchor) s.representatives
  let classes := (s.classes.insert anchor same).insert newAnchor moved
  let affected := moved.flatMap fun member =>
    (referrers.getD member []).map fun name => representatives.getD name name
  (anchor :: newAnchor :: affected).foldl schedule ⟨⟨classes, representatives⟩, s.worklist⟩

/-- Compare the members of a class with its anchor. -/
def check (codes : Codes) (referrers : NameMap (List String)) (s : Refinement) (anchor : String)
    (members : List String) : Refinement :=
  let same := members.filter (!s.differs codes anchor ·)
  match members.filter (s.differs codes anchor) with
  | [] => { s with classes := s.classes.insert anchor same }
  | newAnchor :: moved => s.split referrers anchor newAnchor same (newAnchor :: moved)

/-- Check the scheduled classes until none is left. -/
def run (codes : Codes) (referrers : NameMap (List String)) :
    Nat → Refinement → Except CodeError Partition
  | _, ⟨partition, []⟩ => .ok partition
  | 0, ⟨_, _ :: _⟩ => .error (.impossible "too many rounds")
  | fuel + 1, ⟨partition, anchor :: worklist⟩ =>
    match partition.classes.get? anchor with
    | none => .error (.impossible s!"class {anchor} vanished")
    | some members =>
      run codes referrers fuel (check codes referrers ⟨partition, worklist⟩ anchor members)

end Refinement

/-- Partition the names of a map by the trees their codes unfold to. A split makes a class more, and
no more classes are scheduled than there are, so the rounds are bounded by the square of the number
of names. -/
def minimize (codes : Codes) : Except CodeError Partition := do
  codes.checkReferences
  let names := codes.names
  Refinement.run codes codes.referrers (names.length * names.length) (.start names)

/-- One code for each class, with references to representatives only. -/
def normalize (codes : Codes) (representatives : NameMap String) : Codes :=
  (codes.filter fun name _ => representatives.getD name name = name).map
    (Code.map fun r => representatives.getD r r)

end Codes

end StructuralTyping
