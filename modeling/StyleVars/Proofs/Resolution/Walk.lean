import Mathlib.Data.Nat.Find
import StyleVars.Proofs.Resolution.Outcome

/-!
# The names that a resolution follows

From a name one walks to the name that its value refers to first, and so on. The walk is a matter of
the catalog alone: it has no limit, and it may go round for ever. A resolution follows it up to the
first place where it has ten names behind it, comes back to a name, or meets a name without a
variable or a variable without a reference. What is found there, and how many names came before it,
decides the resolution.
-/

namespace StyleVars

/-- The first reference in the value of a variable. -/
def VariableInfo.first? (info : VariableInfo) : Option Reference :=
  (Excerpt.ofString info.entry.value).references.head?

/-- Why the resolution failed, if it did. -/
def Resolution.failure? (r : Resolution) : Option ResolutionFailure :=
  match r.outcome with
  | .ok _ => none
  | .error failure => some failure

theorem Resolution.found_iff (r : Resolution) : r.Found ↔ r.failure? = none := by
  unfold Found failure?
  cases r.outcome <;> simp

theorem Resolution.failure?_eq_some_iff {r : Resolution} {failure : ResolutionFailure} :
    r.failure? = some failure ↔ r.outcome = .error failure := by
  unfold failure?
  cases r.outcome <;> simp

namespace Catalog

variable {c : Catalog} {steps : Nat} {name : String} {chain : List String} {info : VariableInfo}
  {r : Reference}

/-! ## One step of a resolution -/

theorem resolveFrom_of_mem (h : name ∈ chain) :
    c.resolveFrom (steps + 1) name chain = ⟨name, chain, .error .cycle⟩ := by
  simp [resolveFrom, h]

section Step

variable (h : name ∉ chain)

include h

theorem resolveFrom_of_undeclared (hget : c.get? name = none) :
    c.resolveFrom (steps + 1) name chain = ⟨name, chain, .error .undeclared⟩ := by
  simp [resolveFrom, h, hget]

variable (hget : c.get? name = some info)

include hget

theorem resolveFrom_of_literal (hfirst : info.first? = none) :
    c.resolveFrom (steps + 1) name chain =
      ⟨name, chain ++ [name], .ok { info with resolved := some info.entry.value }⟩ := by
  rw [VariableInfo.first?] at hfirst
  simp [resolveFrom, h, hget, hfirst]

variable (hfirst : info.first? = some r)

include hfirst

/-- A reference to a name without a variable leaves the value as written. -/
theorem resolveFrom_of_nested_undeclared
    (hnested : (c.resolveFrom steps r.name (chain ++ [name])).outcome = .error .undeclared) :
    c.resolveFrom (steps + 1) name chain =
      ⟨name, chain ++ [name], .ok { info with resolved := some info.entry.value }⟩ := by
  rw [VariableInfo.first?] at hfirst
  simp [resolveFrom, h, hget, hfirst, hnested]

/-- Any other failure behind a reference is passed on with its chain. -/
theorem resolveFrom_of_nested_error {failure : ResolutionFailure} (hne : failure ≠ .undeclared)
    (hnested : (c.resolveFrom steps r.name (chain ++ [name])).outcome = .error failure) :
    c.resolveFrom (steps + 1) name chain =
      ⟨name, (c.resolveFrom steps r.name (chain ++ [name])).chain, .error failure⟩ := by
  rw [VariableInfo.first?] at hfirst
  cases failure with
  | undeclared => exact absurd rfl hne
  | cycle => simp [resolveFrom, h, hget, hfirst, hnested]
  | depthExceeded => simp [resolveFrom, h, hget, hfirst, hnested]

/-- A value behind a reference takes the place of the plain text of the reference. -/
theorem resolveFrom_of_nested_ok {inner : VariableInfo}
    (hnested : (c.resolveFrom steps r.name (chain ++ [name])).outcome = .ok inner) :
    c.resolveFrom (steps + 1) name chain =
      ⟨name, (c.resolveFrom steps r.name (chain ++ [name])).chain,
        .ok { info with resolved := some (String.ofList (replaceFirst (plainReference r.name)
          (inner.resolved.getD "").toList info.entry.value.toList)) }⟩ := by
  rw [VariableInfo.first?] at hfirst
  simp [resolveFrom, h, hget, hfirst, hnested]

/-- What becomes of a resolution behind a reference: its failure and its chain are passed on, unless
it found no variable for the name. -/
theorem resolveFrom_of_reference (steps : Nat) :
    let nested := c.resolveFrom steps r.name (chain ++ [name])
    let whole := c.resolveFrom (steps + 1) name chain
    (nested.failure? = some .undeclared → whole.failure? = none ∧ whole.chain = chain ++ [name]) ∧
      (nested.failure? ≠ some .undeclared →
        whole.failure? = nested.failure? ∧ whole.chain = nested.chain) := by
  intro nested whole
  constructor
  · intro hundeclared
    have hwhole : whole = _ := resolveFrom_of_nested_undeclared h hget hfirst
      (Resolution.failure?_eq_some_iff.mp hundeclared)
    rw [hwhole]
    exact ⟨rfl, rfl⟩
  · intro hother
    cases houtcome : nested.outcome with
    | error failure =>
      have hfailure : nested.failure? = some failure := Resolution.failure?_eq_some_iff.mpr houtcome
      have hne : failure ≠ .undeclared := by
        rintro rfl
        exact hother hfailure
      have hwhole : whole = _ := resolveFrom_of_nested_error h hget hfirst hne houtcome
      rw [hwhole]
      exact ⟨hfailure.symm, rfl⟩
    | ok inner =>
      have hfailure : nested.failure? = none := by simp [Resolution.failure?, houtcome]
      have hwhole : whole = _ := resolveFrom_of_nested_ok h hget hfirst houtcome
      rw [hwhole]
      exact ⟨hfailure.symm, rfl⟩

end Step

/-! ## Chains -/

/-- The names are all different, and all have variables. -/
structure IsTrail (c : Catalog) (chain : List String) : Prop where
  distinct : chain.Nodup
  declared : ∀ m ∈ chain, (c.get? m).isSome

theorem IsTrail.nil (c : Catalog) : c.IsTrail [] := ⟨List.nodup_nil, by simp⟩

theorem IsTrail.snoc (htrail : c.IsTrail chain) (h : name ∉ chain)
    (hget : c.get? name = some info) : c.IsTrail (chain ++ [name]) := by
  constructor
  · refine List.nodup_append.mpr ⟨htrail.distinct, by simp, ?_⟩
    rintro a ha b hb rfl
    exact h (List.mem_singleton.mp hb ▸ ha)
  · intro m hm
    rcases List.mem_append.mp hm with hold | hnew
    · exact htrail.declared m hold
    · rw [List.mem_singleton.mp hnew, hget]
      rfl

/-- A resolution keeps the chain a trail, and makes it longer by one name a step at most. -/
theorem IsTrail.resolveFrom (htrail : c.IsTrail chain) (steps : Nat) (name : String) :
    c.IsTrail (c.resolveFrom steps name chain).chain ∧
      (c.resolveFrom steps name chain).chain.length ≤ chain.length + steps := by
  induction steps generalizing name chain with
  | zero => exact ⟨htrail, Nat.le_refl _⟩
  | succ steps ih =>
    by_cases hmem : name ∈ chain
    · rw [resolveFrom_of_mem hmem]
      exact ⟨htrail, Nat.le_add_right _ _⟩
    cases hget : c.get? name with
    | none =>
      rw [resolveFrom_of_undeclared hmem hget]
      exact ⟨htrail, Nat.le_add_right _ _⟩
    | some info =>
      have hsnoc := htrail.snoc hmem hget
      have hlength : (chain ++ [name]).length = chain.length + 1 := by simp
      cases hfirst : info.first? with
      | none =>
        rw [resolveFrom_of_literal hmem hget hfirst]
        exact ⟨hsnoc, hlength ▸ by omega⟩
      | some r =>
        obtain ⟨hundeclared, hother⟩ := resolveFrom_of_reference hmem hget hfirst steps
        obtain ⟨hnested, hnestedLength⟩ := ih hsnoc r.name
        by_cases hfailure :
            (c.resolveFrom steps r.name (chain ++ [name])).failure? = some .undeclared
        · rw [(hundeclared hfailure).2]
          exact ⟨hsnoc, by omega⟩
        · rw [(hother hfailure).2]
          exact ⟨hnested, by omega⟩

/-! ## The walk -/

/-- The name that the value of a variable refers to first. -/
def next? (c : Catalog) (name : String) : Option String :=
  (c.get? name).bind fun info => info.first?.map (·.name)

/-- The name after `i` steps of the walk, if it goes that far. -/
def walk (c : Catalog) (start : String) : Nat → Option String
  | 0 => some start
  | i + 1 => (c.walk start i).bind c.next?

/-- The walk comes back to an earlier name. -/
def RepeatsAt (c : Catalog) (start : String) (k : Nat) : Prop :=
  ∃ w, c.walk start k = some w ∧ ∃ j < k, c.walk start j = some w

/-- The walk meets a name without a variable. -/
def UndeclaredAt (c : Catalog) (start : String) (k : Nat) : Prop :=
  ∃ w, c.walk start k = some w ∧ c.get? w = none

/-- The walk meets a variable without a reference in its value. -/
def LiteralAt (c : Catalog) (start : String) (k : Nat) : Prop :=
  ∃ w info, c.walk start k = some w ∧ c.get? w = some info ∧ info.first? = none

def StopsAt (c : Catalog) (start : String) (k : Nat) : Prop :=
  k = 10 ∨ c.RepeatsAt start k ∨ c.UndeclaredAt start k ∨ c.LiteralAt start k

/-- The chain holds the first `k` names of the walk. -/
def Covers (c : Catalog) (start : String) (k : Nat) (chain : List String) : Prop :=
  chain.map some = (List.range k).map (c.walk start)

variable {start : String} {i k : Nat}

theorem Covers.snoc (hchain : c.Covers start i chain) (hname : c.walk start i = some name) :
    c.Covers start (i + 1) (chain ++ [name]) := by
  have hprefix : chain.map some = (List.range i).map (c.walk start) := hchain
  simp [Covers, List.range_succ, hprefix, hname]

theorem Covers.mem_iff (hchain : c.Covers start i chain) :
    name ∈ chain ↔ ∃ j < i, c.walk start j = some name := by
  have hmap : some name ∈ chain.map some ↔ some name ∈ (List.range i).map (c.walk start) := by
    rw [show chain.map some = (List.range i).map (c.walk start) from hchain]
  simpa using hmap

/-- The resolution ends as the walk does at its `k`-th name. A name without a variable means the
failure `missing` there, or none. -/
structure EndsAt (c : Catalog) (start : String) (k : Nat) (missing : Option ResolutionFailure)
    (r : Resolution) : Prop where
  tooDeep : k = 10 → r.failure? = some .depthExceeded ∧ c.Covers start k r.chain
  repeated : k ≠ 10 → c.RepeatsAt start k → r.failure? = some .cycle ∧ c.Covers start k r.chain
  undeclared : k ≠ 10 → ¬c.RepeatsAt start k → c.UndeclaredAt start k →
    r.failure? = missing ∧ c.Covers start k r.chain
  literal : k ≠ 10 → ¬c.RepeatsAt start k → c.LiteralAt start k →
    r.failure? = none ∧ c.Covers start (k + 1) r.chain

/-- A resolution that has come to the `k`-th name of the walk ends there. -/
theorem endsAt_self (hchain : c.Covers start k chain) (hname : c.walk start k = some name)
    (hsteps : k + steps = 10) :
    c.EndsAt start k (some .undeclared) (c.resolveFrom steps name chain) := by
  have hstep (hk : k ≠ 10) : ∃ later, steps = later + 1 :=
    Nat.exists_eq_add_one_of_ne_zero (by omega)
  have hnew (hrepeats : ¬c.RepeatsAt start k) : name ∉ chain :=
    fun hmem => hrepeats ⟨name, hname, hchain.mem_iff.mp hmem⟩
  constructor
  · intro hk
    obtain rfl : steps = 0 := by omega
    exact ⟨rfl, hchain⟩
  · rintro hk ⟨w, hw, hearlier⟩
    obtain ⟨later, rfl⟩ := hstep hk
    obtain rfl : w = name := Option.some.inj (hw.symm.trans hname)
    rw [resolveFrom_of_mem (hchain.mem_iff.mpr hearlier)]
    exact ⟨rfl, hchain⟩
  · rintro hk hrepeats ⟨w, hw, hget⟩
    obtain ⟨later, rfl⟩ := hstep hk
    obtain rfl : w = name := Option.some.inj (hw.symm.trans hname)
    rw [resolveFrom_of_undeclared (hnew hrepeats) hget]
    exact ⟨rfl, hchain⟩
  · rintro hk hrepeats ⟨w, info, hw, hget, hfirst⟩
    obtain ⟨later, rfl⟩ := hstep hk
    obtain rfl : w = name := Option.some.inj (hw.symm.trans hname)
    rw [resolveFrom_of_literal (hnew hrepeats) hget hfirst]
    exact ⟨rfl, hchain.snoc hname⟩

/-- Where the walk does not stop there is a reference to follow. -/
theorem exists_reference_of_not_stopsAt (hchain : c.Covers start i chain)
    (hname : c.walk start i = some name) (hstop : ¬c.StopsAt start i) :
    name ∉ chain ∧ ∃ info r, c.get? name = some info ∧ info.first? = some r ∧
      c.walk start (i + 1) = some r.name := by
  simp only [StopsAt, not_or] at hstop
  obtain ⟨_, hrepeats, hundeclared, hliteral⟩ := hstop
  refine ⟨fun hmem => hrepeats ⟨name, hname, hchain.mem_iff.mp hmem⟩, ?_⟩
  cases hget : c.get? name with
  | none => exact absurd ⟨name, hname, hget⟩ hundeclared
  | some info =>
    cases hfirst : info.first? with
    | none => exact absurd ⟨name, info, hname, hget, hfirst⟩ hliteral
    | some r =>
      refine ⟨info, r, rfl, hfirst, ?_⟩
      simp [walk, hname, next?, hget, hfirst]

/-- A resolution that goes through a reference ends as the one behind the reference does, except
that a missing variable is no failure any more. -/
theorem EndsAt.through {info : VariableInfo} {r : Reference} {missing : Option ResolutionFailure}
    (hchain : c.Covers start i chain) (hname : c.walk start i = some name) (hmem : name ∉ chain)
    (hget : c.get? name = some info) (hfirst : info.first? = some r)
    (hmissing : missing = none ∨ missing = some .undeclared ∧ i + 1 = k)
    (hnested : c.EndsAt start k missing (c.resolveFrom steps r.name (chain ++ [name]))) :
    c.EndsAt start k none (c.resolveFrom (steps + 1) name chain) := by
  obtain ⟨hundeclared, hother⟩ := resolveFrom_of_reference hmem hget hfirst steps
  -- Whatever is not a missing variable is passed on with its chain.
  have hpass {failure : Option ResolutionFailure} {j : Nat} (hne : failure ≠ some .undeclared)
      (hends : (c.resolveFrom steps r.name (chain ++ [name])).failure? = failure ∧
        c.Covers start j (c.resolveFrom steps r.name (chain ++ [name])).chain) :
      (c.resolveFrom (steps + 1) name chain).failure? = failure ∧
        c.Covers start j (c.resolveFrom (steps + 1) name chain).chain := by
    obtain ⟨hfailure, hcovers⟩ := hends
    obtain ⟨hsame, hsameChain⟩ := hother (hfailure ▸ hne)
    exact ⟨hsame.trans hfailure, hsameChain ▸ hcovers⟩
  constructor
  · intro hk
    exact hpass (by simp) (hnested.tooDeep hk)
  · intro hk hrepeats
    exact hpass (by simp) (hnested.repeated hk hrepeats)
  · intro hk hrepeats hat
    have hends := hnested.undeclared hk hrepeats hat
    rcases hmissing with rfl | ⟨rfl, rfl⟩
    · exact hpass (by simp) hends
    · obtain ⟨hfound, hshort⟩ := hundeclared hends.1
      exact ⟨hfound, hshort ▸ hchain.snoc hname⟩
  · intro hk hrepeats hat
    exact hpass (by simp) (hnested.literal hk hrepeats hat)

/-- From any name of the walk before its first stop, the resolution ends as the walk does. -/
theorem endsAt_resolveFrom (hleast : ∀ j < k, ¬c.StopsAt start j) (hk : k ≤ 10) (hi : i ≤ k)
    (hchain : c.Covers start i chain) (hname : c.walk start i = some name)
    (hsteps : i + steps = 10) :
    c.EndsAt start k (if i = k then some .undeclared else none)
      (c.resolveFrom steps name chain) := by
  induction steps generalizing i name chain with
  | zero =>
    obtain rfl : i = k := by omega
    rw [if_pos rfl]
    exact endsAt_self hchain hname hsteps
  | succ steps ih =>
    by_cases heq : i = k
    · subst heq
      rw [if_pos rfl]
      exact endsAt_self hchain hname hsteps
    · rw [if_neg heq]
      obtain ⟨hmem, info, r, hget, hfirst, hnext⟩ :=
        exists_reference_of_not_stopsAt hchain hname (hleast i (by omega))
      refine .through hchain hname hmem hget hfirst ?_
        (ih (by omega) (hchain.snoc hname) hnext (by omega))
      split
      · exact .inr ⟨rfl, by assumption⟩
      · exact .inl rfl

/-- A resolution says that a name has no variable only of the name it was asked for. -/
theorem failure?_eq_undeclared_iff :
    (c.resolveFrom steps name chain).failure? = some .undeclared ↔
      0 < steps ∧ name ∉ chain ∧ c.get? name = none := by
  cases steps with
  | zero => simp [resolveFrom, Resolution.failure?]
  | succ steps =>
    by_cases hmem : name ∈ chain
    · simp [resolveFrom_of_mem hmem, hmem, Resolution.failure?]
    cases hget : c.get? name with
    | none => simp [resolveFrom_of_undeclared hmem hget, hmem, Resolution.failure?]
    | some info =>
      cases hfirst : info.first? with
      | none => simp [resolveFrom_of_literal hmem hget hfirst, Resolution.failure?]
      | some r =>
        obtain ⟨hundeclared, hother⟩ := resolveFrom_of_reference hmem hget hfirst steps
        by_cases hfailure :
            (c.resolveFrom steps r.name (chain ++ [name])).failure? = some .undeclared
        · simp [(hundeclared hfailure).1]
        · simp [(hother hfailure).1, hfailure]

theorem outcome_eq_undeclared_iff :
    (c.resolveFrom steps name chain).outcome = .error .undeclared ↔
      0 < steps ∧ name ∉ chain ∧ c.get? name = none :=
  Resolution.failure?_eq_some_iff.symm.trans failure?_eq_undeclared_iff

theorem exists_first_stop (c : Catalog) (start : String) :
    ∃ k ≤ 10, c.StopsAt start k ∧ ∀ i < k, ¬c.StopsAt start i := by
  classical
  have hstop : ∃ k, c.StopsAt start k := ⟨10, .inl rfl⟩
  exact ⟨Nat.find hstop, Nat.find_min' hstop (.inl rfl), Nat.find_spec hstop,
    fun i hi => Nat.find_min hstop hi⟩

/-- Let the walk from a name stop first at its `k`-th name. With ten names before it the resolution
goes too deep, and at a name that was met before it is caught in a cycle. A name without a variable
is a failure only if it is the name itself; met later it ends a resolution that succeeds, and so
does a variable without references. The chain has the names before the `k`-th, and the `k`-th only
in the last case. In particular it never has more than ten names, nor one twice, nor one without a
variable. -/
theorem resolve_ends_at_first_stop (c : Catalog) (name : String) :
    ∃ k, (c.StopsAt name k ∧ ∀ i < k, ¬c.StopsAt name i) ∧
      (k = 10 →
        (c.resolve name).outcome = .error .depthExceeded ∧ c.Covers name k (c.resolve name).chain) ∧
      (k ≠ 10 → c.RepeatsAt name k →
        (c.resolve name).outcome = .error .cycle ∧ c.Covers name k (c.resolve name).chain) ∧
      (k ≠ 10 → ¬c.RepeatsAt name k → c.UndeclaredAt name k → k = 0 →
        (c.resolve name).outcome = .error .undeclared ∧ (c.resolve name).chain = []) ∧
      (k ≠ 10 → ¬c.RepeatsAt name k → c.UndeclaredAt name k → k ≠ 0 →
        (c.resolve name).Found ∧ c.Covers name k (c.resolve name).chain) ∧
      (k ≠ 10 → ¬c.RepeatsAt name k → c.LiteralAt name k →
        (c.resolve name).Found ∧ c.Covers name (k + 1) (c.resolve name).chain) ∧
      ((c.resolve name).chain.length ≤ 10 ∧ (c.resolve name).chain.Nodup ∧
        ∀ m ∈ (c.resolve name).chain, (c.get? m).isSome) ∧
      ((c.resolve name).outcome = .error .undeclared → c.get? name = none) := by
  obtain ⟨k, hk, hstop, hleast⟩ := c.exists_first_stop name
  have hends : c.EndsAt name k (if 0 = k then some .undeclared else none) (c.resolve name) :=
    endsAt_resolveFrom hleast hk (Nat.zero_le k) rfl rfl rfl
  obtain ⟨htrail, hlength⟩ := (IsTrail.nil c).resolveFrom depthLimit name
  refine ⟨k, ⟨hstop, hleast⟩, ?_, ?_, ?_, ?_, ?_, ⟨?_, htrail.distinct, htrail.declared⟩, ?_⟩
  · intro hdeep
    exact (hends.tooDeep hdeep).imp_left Resolution.failure?_eq_some_iff.mp
  · intro hne hrepeats
    exact (hends.repeated hne hrepeats).imp_left Resolution.failure?_eq_some_iff.mp
  · rintro hne hrepeats hundeclared rfl
    obtain ⟨hfailure, hcovers⟩ := hends.undeclared hne hrepeats hundeclared
    exact ⟨Resolution.failure?_eq_some_iff.mp hfailure, List.map_eq_nil_iff.mp hcovers⟩
  · intro hne hrepeats hundeclared hpos
    obtain ⟨hfailure, hcovers⟩ := hends.undeclared hne hrepeats hundeclared
    rw [if_neg (Ne.symm hpos)] at hfailure
    exact ⟨(Resolution.found_iff _).mpr hfailure, hcovers⟩
  · intro hne hrepeats hliteral
    exact (hends.literal hne hrepeats hliteral).imp_left (Resolution.found_iff _).mpr
  · exact hlength
  · intro houtcome
    exact (outcome_eq_undeclared_iff.mp houtcome).2.2

end Catalog

end StyleVars
