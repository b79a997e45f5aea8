/-!
# Caches

A cache holds answers that were computed for one version of what they depend on. It is brought up to
the current version before each use, which drops all answers when the version is another one.
-/

namespace StyleVars

structure Cache (version key answer : Type) where
  seen : version
  entries : List (key × answer)

namespace Cache

variable {version key answer : Type} [DecidableEq version] [DecidableEq key]

def empty (v : version) : Cache version key answer := ⟨v, []⟩

/-- Bring the cache up to a version. -/
def sync (c : Cache version key answer) (v : version) : Cache version key answer :=
  if c.seen = v then c else ⟨v, []⟩

def find? (c : Cache version key answer) (k : key) : Option answer :=
  (c.entries.find? (·.1 = k)).map (·.2)

/-- Forget the answer for a key. -/
def forget (c : Cache version key answer) (k : key) : Cache version key answer :=
  { c with entries := c.entries.filter (·.1 ≠ k) }

/-- Note the answer for a key. -/
def note (c : Cache version key answer) (k : key) (a : answer) : Cache version key answer :=
  { c with entries := (k, a) :: (c.forget k).entries }

/-- Forget all answers. -/
def clear (c : Cache version key answer) : Cache version key answer := { c with entries := [] }

def size (c : Cache version key answer) : Nat := c.entries.length

end Cache

end StyleVars
