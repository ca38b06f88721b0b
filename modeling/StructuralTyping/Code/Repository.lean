import StructuralTyping.Code.Canonical
import StructuralTyping.Code.Declaration

/-!
# The repository of canonical codes

A repository holds codes under their canonical names, of which no two are structurally equal, and
remembers the canonical name of every local name that was registered. Entries never change.
-/
namespace StructuralTyping

structure Repository where
  codes : Codes
  aliases : NameMap String
deriving DecidableEq

/-- What a name stands for in a repository. -/
inductive Lookup
  | code (code : Code String)
  | builtin (name : String)
  | undefined
deriving DecidableEq

namespace Repository

/-- The canonical name of the empty product. -/
def unit : String := Text.contentHash Text.unitName

/-- Only the empty product. -/
def initial : Repository :=
  { codes := NameMap.empty.insert unit .unit
    aliases := NameMap.empty.insert Text.unitName unit }

instance : Inhabited Repository := ⟨initial⟩

def size (repo : Repository) : Nat := repo.codes.size

/-- The canonical name of a builtin, a canonical name or a registered name. -/
def canonical (repo : Repository) (name : String) : Option String :=
  if Text.isBuiltin name || repo.codes.contains name then some name else repo.aliases.get? name

def find (repo : Repository) (name : String) : Lookup :=
  match repo.canonical name with
  | none => .undefined
  | some c =>
    if Text.isBuiltin c then .builtin c
    else match repo.codes.get? c with
      | some code => .code code
      | none => .undefined

/-- What a reference in the code of `name` means while a batch is registered. -/
def resolve (repo : Repository) (codes : Codes) (builtins : NameMap String)
    (name reference : String) : Except CodeError String :=
  if codes.contains reference then .ok reference
  else match builtins.get? reference with
    | some b => .ok b
    | none => match repo.canonical reference with
      | some c => .ok c
      | none => .error (.unknownCode reference (some name))

/-- Add one code of a batch to the entries, with its references resolved. -/
def mergeEntry (repo : Repository) (codes : Codes) (builtins : NameMap String) (merged : Codes)
    (entry : String × Code String) : Except CodeError Codes := do
  if repo.codes.contains entry.1 || entry.1 == Text.unitName then
    throw (.malformedCode entry.1 "the name is reserved for a canonical code")
  return merged.insert entry.1 (← entry.2.traverse (repo.resolve codes builtins entry.1))

/-- The entries of the repository and the codes of a batch, with the references resolved. -/
def merge (repo : Repository) (codes : Codes) (builtins : NameMap String) :
    Except CodeError Codes :=
  codes.entries.foldlM (repo.mergeEntry codes builtins) repo.codes

/-- Add entries up to the first whose name is taken by another code, and report that name. -/
def absorb (codes : Codes) : List (String × Code String) → Codes × Option String
  | [] => (codes, none)
  | (name, code) :: rest =>
    match codes.get? name with
    | none => absorb (codes.insert name code) rest
    | some present => if present = code then absorb codes rest else (codes, some name)

/-- Enter the canonical name of one code of a batch. -/
def enterName (finalized : Codes.Finalized) (names : NameMap String) (name : String) :
    Except CodeError (NameMap String) :=
  match finalized.representatives.get? name with
  | some c => .ok (names.insert name c)
  | none => .error (.impossible s!"{name} lost its representative")

/-- The canonical names of a batch: builtins as given, codes as finalized. -/
def batchNames (codes : Codes) (builtins : NameMap String) (finalized : Codes.Finalized) :
    Except CodeError (NameMap String) :=
  codes.keys.foldlM (enterName finalized) builtins

/-- Register codes and aliases of builtins. The repository is returned in any case. -/
def registerWith (repo : Repository) (codes : Codes) (builtins : NameMap String) :
    Except CodeError (NameMap String) × Repository :=
  match (do (← repo.merge codes builtins).finalize) with
  | .error e => (.error e, repo)
  | .ok finalized =>
    match absorb repo.codes finalized.codes.entries with
    | (entries, some name) =>
      (.error (.impossible s!"canonical code {name} changed its structure"),
        { repo with codes := entries })
    | (entries, none) =>
      match batchNames codes builtins finalized with
      | .error e => (.error e, { repo with codes := entries })
      | .ok names => (.ok names, { codes := entries, aliases := repo.aliases.union names })

/-- Register codes whose references are builtins, names of the batch or names of the repository. -/
def registerCodes (repo : Repository) (codes : Codes) :
    Except CodeError (NameMap String) × Repository :=
  repo.registerWith codes ∅

/-- Put one declaration, if it is sound, to the codes or to the builtins. -/
def checkEntry (checked : Codes × NameMap String) (entry : String × Declaration) :
    Except CodeError (Codes × NameMap String) :=
  (entry.2.check entry.1).map fun
    | .builtin b => (checked.1, checked.2.insert entry.1 b)
    | .code c => (checked.1.insert entry.1 c, checked.2)

/-- Separate the sound declarations of codes from those of builtins. -/
def checkAll (declarations : NameMap Declaration) : Except CodeError (Codes × NameMap String) :=
  declarations.entries.foldlM checkEntry (∅, ∅)

/-- Register declarations and answer the canonical name of each of them. -/
def register (repo : Repository) (declarations : NameMap Declaration) :
    Except CodeError (NameMap String) × Repository :=
  match checkAll declarations with
  | .error e => (.error e, repo)
  | .ok (codes, builtins) => repo.registerWith codes builtins

end Repository

end StructuralTyping
