import StyleVars.Glob.Basic

/-!
# Reading globs

A glob is read from left to right. The tokens read so far are held in reverse: those of the branch
that is being read, the finished branches of its group, and the groups around it.

Inside brackets a hyphen extends the range before it, unless it comes first or last; a closing
bracket that comes first is a member. Two stars count as whole directories when they start a branch
and a slash or the end follows, or when they follow a slash and a slash or the end of the branch
follows them; they then take the slashes on both sides with them. Elsewhere they are two single
stars.
-/

namespace StyleVars

namespace Glob

/-- Members of a class read so far, in reverse. -/
structure ClassReader where
  ranges : List (Char × Char)
  /-- No member has been read. -/
  first : Bool
  /-- The last character was a hyphen that may extend the range before it. -/
  extending : Bool

namespace ClassReader

def start : ClassReader := ⟨[], true, false⟩

/-- Let the last range end with `c`. -/
def extend (r : ClassReader) (c : Char) : Except GlobFault ClassReader :=
  match r.ranges with
  | (lo, _) :: rest =>
    if c < lo then .error (.invalidRange lo c) else .ok ⟨(lo, c) :: rest, false, false⟩
  | [] => .ok ⟨[(c, c)], false, false⟩

/-- Read one member. -/
def member (r : ClassReader) (c : Char) : Except GlobFault ClassReader :=
  if r.extending then r.extend c
  else if c = '-' ∧ ¬ r.first then .ok { r with extending := true }
  else .ok ⟨(c, c) :: r.ranges, false, false⟩

/-- The members in order. A hyphen at the end is a member. -/
def finish (r : ClassReader) : List (Char × Char) :=
  (if r.extending then ('-', '-') :: r.ranges else r.ranges).reverse

/-- Read the members up to the closing bracket, and what follows it. -/
def read (r : ClassReader) : List Char → Except GlobFault (List (Char × Char) × List Char)
  | [] => .error .unclosedClass
  | c :: cs =>
    if c = ']' ∧ ¬ r.first then .ok (r.finish, cs)
    else
      match r.member c with
      | .ok r => r.read cs
      | .error e => .error e

theorem length_read {r : ClassReader} {cs rest : List Char} {ranges : List (Char × Char)}
    (h : r.read cs = .ok (ranges, rest)) : rest.length < cs.length := by
  induction cs generalizing r with
  | nil => simp [read] at h
  | cons c cs ih =>
    unfold read at h
    split at h
    · cases h
      simp
    · split at h
      · exact Nat.lt_succ_of_lt (ih h)
      · cases h

end ClassReader

/-- A class after its opening bracket, and what follows it. -/
def readClass (cs : List Char) : Except GlobFault (GlobToken × List Char) :=
  let (negated, members) := match cs with
    | '!' :: rest => (true, rest)
    | '^' :: rest => (true, rest)
    | _ => (false, cs)
  match ClassReader.start.read members with
  | .ok (ranges, rest) => .ok (.oneOf negated ranges, rest)
  | .error e => .error e

theorem length_readClass {cs rest : List Char} {t : GlobToken}
    (h : readClass cs = .ok (t, rest)) : rest.length < cs.length := by
  unfold readClass at h
  split at h
  rename_i negated members hm
  split at h
  · rename_i hread
    cases h
    have hlt := ClassReader.length_read hread
    split at hm
    · cases hm
      exact Nat.lt_succ_of_lt hlt
    · cases hm
      exact Nat.lt_succ_of_lt hlt
    · cases hm
      exact hlt
  · cases h

/-- A group that is being read: its finished branches, and the tokens before it in the branch that
holds it, all in reverse. -/
structure Group where
  branches : List (List GlobToken)
  before : List GlobToken

/-- What has been read of a glob. -/
structure Reader where
  /-- Tokens of the branch that is being read, in reverse. -/
  branch : List GlobToken
  /-- The open groups, innermost first. -/
  groups : List Group

namespace Reader

def start : Reader := ⟨[], []⟩

def push (r : Reader) (t : GlobToken) : Reader := { r with branch := t :: r.branch }

def openGroup (r : Reader) : Reader := ⟨[], ⟨[], r.branch⟩ :: r.groups⟩

/-- A comma ends a branch, or is a literal outside of groups. -/
def comma (r : Reader) : Reader :=
  match r.groups with
  | [] => r.push (.literal ',')
  | g :: outer => ⟨[], ⟨r.branch.reverse :: g.branches, g.before⟩ :: outer⟩

def closeGroup (r : Reader) : Except GlobFault Reader :=
  match r.groups with
  | [] => .error .unopenedGroup
  | g :: outer =>
    .ok ⟨.alternatives (r.branch.reverse :: g.branches).reverse :: g.before, outer⟩

def finish (r : Reader) : Except GlobFault (List GlobToken) :=
  if r.groups.isEmpty then .ok r.branch.reverse else .error .unclosedGroup

/-- Read two stars after the character `previous`, before the text `rest`. Gives back how many
characters of `rest` they take with them. -/
def stars (r : Reader) (previous : Option Char) (rest : List Char) : Reader × Nat :=
  let plain := ((r.push .anyBytes).push .anyBytes, 0)
  match r.branch with
  | [] =>
    match rest with
    | [] => (r.push .leadingDirectories, 0)
    | '/' :: _ => (r.push .leadingDirectories, 1)
    | _ => plain
  | last :: branch =>
    let inGroup := !r.groups.isEmpty
    let bounded := previous == some '/' ||
      (inGroup && (previous == some ',' || previous == some '{'))
    let merged (t : GlobToken) : Reader :=
      match last with
      | .leadingDirectories => r
      | .trailingDirectories => r
      | _ => { r with branch := t :: branch }
    if !bounded then plain
    else
      match rest with
      | [] => (merged .trailingDirectories, 0)
      | '/' :: _ => (merged .innerDirectories, 1)
      | c :: _ =>
        if inGroup && (c == ',' || c == '}') then (merged .trailingDirectories, 0) else plain

/-- Read the rest of a glob, after the character `previous`. -/
def read (r : Reader) (previous : Option Char) (cs : List Char) :
    Except GlobFault (List GlobToken) :=
  match cs with
  | [] => r.finish
  | '?' :: rest => (r.push .anyByte).read (some '?') rest
  | '*' :: '*' :: rest =>
    let (r', taken) := r.stars previous rest
    r'.read (if taken = 0 then some '*' else some '/') (rest.drop taken)
  | '*' :: rest => (r.push .anyBytes).read (some '*') rest
  | '[' :: rest =>
    match h : readClass rest with
    | .error e => .error e
    | .ok (t, after) =>
      have := length_readClass h
      (r.push t).read (some ']') after
  | '{' :: rest => r.openGroup.read (some '{') rest
  | '}' :: rest =>
    match r.closeGroup with
    | .error e => .error e
    | .ok r' => r'.read (some '}') rest
  | ',' :: rest => r.comma.read (some ',') rest
  | '\\' :: rest =>
    match rest with
    | [] => .error .danglingEscape
    | c :: after => (r.push (.literal c)).read (some c) after
  | c :: rest => (r.push (.literal c)).read (some c) rest
termination_by cs.length
decreasing_by
  all_goals simp_wf
  all_goals omega

end Reader

/-- Read a glob. -/
def ofString (s : String) : Except GlobFault Glob := do
  let tokens ← Reader.start.read none s.toList
  return ⟨s, tokens⟩

end Glob

end StyleVars
