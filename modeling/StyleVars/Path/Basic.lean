import StyleVars.Text.Split

/-!
# Paths

A path is a list of components: a root, a reference to the current or the parent directory, or a
name. Repeated slashes, a slash at the end and current-directory references other than a leading one
leave no trace in it. Two paths are the same when their components are.
-/

namespace StyleVars

inductive PathComponent where
  | root
  | current
  | parent
  | name (s : String)
deriving Repr, DecidableEq

namespace PathComponent

def text : PathComponent → String
  | .root => "/"
  | .current => "."
  | .parent => ".."
  | .name s => s

/-- Rank of the kind of component: the root comes first and names last. -/
def kind : PathComponent → Nat
  | .root => 0
  | .current => 1
  | .parent => 2
  | .name _ => 3

/-- Components are ordered by kind, and names by their text. -/
def le (a b : PathComponent) : Bool :=
  a.kind < b.kind || (a.kind == b.kind && decide (a.text ≤ b.text))

instance : Ord PathComponent := ⟨compareLex (compareOn kind) (compareOn text)⟩

instance : Std.TransOrd PathComponent :=
  inferInstanceAs <| Std.TransCmp (compareLex (compareOn kind) (compareOn text))

instance : Std.LawfulEqOrd PathComponent where
  eq_of_compare {a b} h := by
    obtain ⟨hkind, htext⟩ := compareLex_eq_eq.mp h
    have hk : a.kind = b.kind := Std.LawfulEqCmp.eq_of_compare hkind
    have ht : a.text = b.text := Std.LawfulEqCmp.eq_of_compare htext
    cases a <;> cases b <;> simp_all [kind, text]

end PathComponent

structure Path where
  components : List PathComponent
deriving Repr, DecidableEq

namespace Path

instance : Ord Path := ⟨compareOn components⟩

instance : Std.TransOrd Path := inferInstanceAs <| Std.TransCmp (compareOn components)

instance : Std.LawfulEqOrd Path where
  eq_of_compare {p q} h :=
    have hcomponents : compare p.components q.components = .eq := h
    congrArg Path.mk (Std.LawfulEqCmp.eq_of_compare hcomponents)

/-- The component that a piece between slashes stands for, other than at the start. -/
def piece? (cs : List Char) : Option PathComponent :=
  if cs = [] ∨ cs = ['.'] then none
  else if cs = ['.', '.'] then some .parent
  else some (.name (String.ofList cs))

def ofChars (cs : List Char) : Path :=
  match splitAtEach '/' cs with
  | [] => ⟨[]⟩
  | first :: rest =>
    let later := rest.filterMap piece?
    if cs.head? = some '/' then ⟨.root :: later⟩
    else if first = ['.'] then ⟨.current :: later⟩
    else ⟨(piece? first).toList ++ later⟩

def ofString (s : String) : Path := ofChars s.toList

/-- The text of a path. The root is its own separator. -/
def text (p : Path) : String :=
  match p.components with
  | .root :: rest => "/" ++ String.intercalate "/" (rest.map (·.text))
  | components => String.intercalate "/" (components.map (·.text))

/-- Put a component after those read so far, which are in reverse. A parent reference removes the
last name or parent reference, and is kept where there is nothing to remove. -/
def push (done : List PathComponent) (c : PathComponent) : List PathComponent :=
  match c with
  | .current => done
  | .parent =>
    match done with
    | [] => [.parent]
    | .root :: rest => .parent :: .root :: rest
    | _ :: rest => rest
  | _ => c :: done

/-- Remove references to the current directory, and to parents where there is something to
remove. -/
def normalize (p : Path) : Path := ⟨(p.components.foldl push []).reverse⟩

/-- The components after `base`, when the path starts with them. -/
def stripBase? (base p : Path) : Option Path :=
  if base.components.isPrefixOf p.components then
    some ⟨p.components.drop base.components.length⟩
  else none

/-- Whether the path ends with the components of `tail`. -/
def endsWith (p tail : Path) : Bool := tail.components.isSuffixOf p.components

/-- Order by components, from the first on; a shorter path comes before its extensions. -/
def componentsLe : List PathComponent → List PathComponent → Bool
  | [], _ => true
  | _ :: _, [] => false
  | a :: as, b :: bs => if a = b then componentsLe as bs else a.le b

def le (p q : Path) : Bool := componentsLe p.components q.components

end Path

end StyleVars
