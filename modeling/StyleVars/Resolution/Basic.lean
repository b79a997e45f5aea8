import StyleVars.Catalog.Basic

/-!
# Resolving variables

The value of a variable may refer to other variables. Resolving it follows the first reference in
the value, and so on from there, through at most ten variables. A name without a definition at the
end leaves the value before it as written; coming back to a name, or going on too long, fails.
-/

namespace StyleVars

/-- Why a name does not resolve. -/
inductive ResolutionFailure where
  | undeclared
  | cycle
  | depthExceeded
deriving Repr, DecidableEq

structure Resolution where
  name : String
  /-- The names followed, outermost first. -/
  chain : List String
  /-- The variable with what its value comes to. -/
  outcome : Except ResolutionFailure VariableInfo

/-- What the value of the name comes to. -/
def Resolution.value? (r : Resolution) : Option String :=
  match r.outcome with
  | .ok info => info.resolved
  | .error _ => none

/-- Put `replacement` in place of the first occurrence of `needle`. -/
def replaceFirst (needle replacement : List Char) : List Char → List Char
  | [] => if needle.isEmpty then replacement else []
  | c :: cs =>
    if needle.isPrefixOf (c :: cs) then replacement ++ (c :: cs).drop needle.length
    else c :: replaceFirst needle replacement cs

/-- The text of a plain reference to a variable. -/
def plainReference (name : String) : List Char := "var(".toList ++ name.toList ++ [')']

namespace Catalog

/-- The greatest number of variables that are followed. -/
def depthLimit : Nat := 10

/-- Resolve a name after the names in `chain`, through at most `steps` more variables. -/
def resolveFrom (c : Catalog) : (steps : Nat) → (name : String) → (chain : List String) → Resolution
  | 0, name, chain => ⟨name, chain, .error .depthExceeded⟩
  | steps + 1, name, chain =>
    if chain.contains name then ⟨name, chain, .error .cycle⟩
    else
      match c.get? name with
      | none => ⟨name, chain, .error .undeclared⟩
      | some info =>
        let chain := chain ++ [name]
        let asWritten : Resolution :=
          ⟨name, chain, .ok { info with resolved := some info.entry.value }⟩
        match (Excerpt.ofString info.entry.value).references.head? with
        | none => asWritten
        | some reference =>
          let nested := c.resolveFrom steps reference.name chain
          match nested.outcome with
          | .error .undeclared => asWritten
          | .error failure => ⟨name, nested.chain, .error failure⟩
          | .ok inner =>
            let value := replaceFirst (plainReference reference.name)
              (inner.resolved.getD "").toList info.entry.value.toList
            ⟨name, nested.chain, .ok { info with resolved := some (String.ofList value) }⟩

/-- Resolve a name. -/
def resolve (c : Catalog) (name : String) : Resolution := c.resolveFrom depthLimit name []

/-- The variable that a resolution found, or the variable as it is where it found none. -/
def resolvedOr (info : VariableInfo) (r : Resolution) : VariableInfo :=
  match r.outcome with
  | .ok found => found
  | .error _ => info

/-- All variables ordered by name, with what their values come to where they resolve. -/
def allResolved (c : Catalog) : List VariableInfo :=
  c.all.map fun info => resolvedOr info (c.resolve info.entry.name)

end Catalog

/-- Put values in place of the references in a text, where there is one for the name. -/
def Excerpt.substitute (values : String → Option String) (e : Excerpt) : List Char :=
  match h : Reference.read? e with
  | some (r, rest) =>
    have := Reference.length_read? h
    let replacement := match values r.name with
      | some value => value.toList
      | none => r.source.chars
    replacement ++ rest.substitute values
  | none =>
    match hc : e.chars with
    | [] => []
    | c :: cs =>
      have : cs.length < e.chars.length := by simp [hc]
      c :: (⟨e.start + c.utf8Size, cs⟩ : Excerpt).substitute values
termination_by e.chars.length

/-- Put what the variables of a catalog come to in place of the references in a value. -/
def Catalog.resolveValue (c : Catalog) (value : String) : String :=
  String.ofList ((Excerpt.ofString value).substitute fun name => (c.resolve name).value?)

end StyleVars
