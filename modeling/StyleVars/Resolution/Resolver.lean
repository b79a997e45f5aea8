import StyleVars.Cache
import StyleVars.Catalog.Index
import StyleVars.Resolution.Basic

/-!
# Cached resolution

A resolver answers from a cache of resolutions that is dropped whenever the generation of the index
has changed.
-/

namespace StyleVars

/-- Resolutions by name, for one generation of the index. -/
abbrev Resolver := Cache Nat String Resolution

namespace Resolver

/-- A resolver that knows no answers yet. -/
def start (ix : Index) : Resolver := .empty ix.generation

/-- Resolve a name. -/
def resolve (r : Resolver) (ix : Index) (name : String) : Resolver × Resolution :=
  let r := r.sync ix.generation
  match r.find? name with
  | some known => (r, known)
  | none =>
    let found := ix.catalog.resolve name
    (r.note name found, found)

/-- Resolve names one after the other. -/
def resolveEach (r : Resolver) (ix : Index) : List String → Resolver × List Resolution
  | [] => (r, [])
  | name :: names =>
    let (r, found) := r.resolve ix name
    let (r, more) := r.resolveEach ix names
    (r, found :: more)

/-- Put resolved values in place of the references in a value. -/
def resolveValue (r : Resolver) (ix : Index) (value : String) : Resolver × String :=
  let e := Excerpt.ofString value
  let (r, found) := r.resolveEach ix (e.references.map (·.name))
  let values (name : String) : Option String := (found.find? (·.name == name)).bind (·.value?)
  (r, String.ofList (e.substitute values))

/-- All variables of the index, with what their values come to. -/
def allResolved (r : Resolver) (ix : Index) : Resolver × List VariableInfo :=
  let all := ix.catalog.all
  let (r, found) := r.resolveEach ix (all.map (·.entry.name))
  (r, List.zipWith Catalog.resolvedOr all found)

/-- Forget all resolutions. -/
def forgetAll (r : Resolver) (ix : Index) : Resolver := (r.sync ix.generation).clear

/-- How many names are in the cache. -/
def cached (r : Resolver) (ix : Index) : Resolver × Nat :=
  let r := r.sync ix.generation
  (r, r.size)

end Resolver

end StyleVars
