import StyleVars.Proofs.Resolution.Resolver

/-!
# What a resolution says

A name that resolves has a variable, and the resolution gives that variable back with a value and
nothing else changed. So the list of all variables with their resolved values is the list of all
variables, each with the value that its own name resolves to. Resolving the references in a text
asks only for the names that occur in it.

A faithful resolver gives these answers from its cache.
-/

namespace StyleVars

/-- The name resolved to a variable. -/
def Resolution.Found (r : Resolution) : Prop := ∃ info, r.outcome = .ok info

namespace Catalog

variable {c : Catalog} {name : String} {info : VariableInfo}

theorem name_resolveFrom (c : Catalog) (steps : Nat) (name : String) (chain : List String) :
    (c.resolveFrom steps name chain).name = name := by
  cases steps with
  | zero => rfl
  | succ steps =>
    rw [resolveFrom]
    split
    · rfl
    · split
      · rfl
      · dsimp only
        split
        · rfl
        · split <;> rfl

/-- A resolution that succeeds gives the variable of the name, with a value. -/
theorem resolveFrom_ok {steps : Nat} {chain : List String} {found : VariableInfo}
    (h : (c.resolveFrom steps name chain).outcome = .ok found) :
    ∃ info value, c.get? name = some info ∧ found = { info with resolved := some value } := by
  cases steps with
  | zero => cases h
  | succ steps =>
    rw [resolveFrom] at h
    split at h
    · cases h
    · split at h
      · cases h
      · rename_i info hinfo
        dsimp only at h
        -- Either the value is left as written, or a nested value takes the place of a reference.
        split at h
        · cases h
          exact ⟨info, _, hinfo, rfl⟩
        · split at h
          · cases h
            exact ⟨info, _, hinfo, rfl⟩
          · cases h
          · cases h
            exact ⟨info, _, hinfo, rfl⟩

/-- A resolution has a value exactly if it did not fail. -/
theorem isSome_value?_resolve (c : Catalog) (name : String) :
    (c.resolve name).value?.isSome ↔ (c.resolve name).Found := by
  rw [Resolution.value?]
  cases houtcome : (c.resolve name).outcome with
  | error failure => simp [Resolution.Found, houtcome]
  | ok found =>
    obtain ⟨info, value, _, rfl⟩ := resolveFrom_ok houtcome
    simp [Resolution.Found, houtcome]

theorem resolved_of_get? (h : c.get? name = some info) : info.resolved = none := by
  obtain ⟨v, _, rfl⟩ := Option.map_eq_some_iff.mp h
  rfl

theorem Consistent.name_of_get? (hc : c.Consistent) (h : c.get? name = some info) :
    info.entry.name = name := by
  obtain ⟨v, hentry, rfl⟩ := Option.map_eq_some_iff.mp h
  obtain ⟨_, r, _, hfind⟩ := hc.entry_first_of_scanned name v hentry
  exact FileRecord.name_of_find? hfind

theorem Consistent.get?_of_mem_all (hc : c.Consistent) (h : info ∈ c.all) :
    c.get? info.entry.name = some info := by
  obtain ⟨⟨name, _⟩, _, hget⟩ := List.mem_filterMap.mp h
  rwa [hc.name_of_get? hget]

/-- Where a variable resolves it takes the value, and where it does not it stays as it is. -/
theorem resolvedOr_resolve (h : c.get? info.entry.name = some info) :
    resolvedOr info (c.resolve info.entry.name) =
      { info with resolved := (c.resolve info.entry.name).value? } := by
  rw [resolvedOr, Resolution.value?]
  cases houtcome : (c.resolve info.entry.name).outcome with
  | error failure =>
    rw [← resolved_of_get? h]
  | ok found =>
    obtain ⟨info', value, hinfo', rfl⟩ := resolveFrom_ok houtcome
    rw [h] at hinfo'
    cases hinfo'
    rfl

/-- All variables in their order, each with what its own name resolves to. -/
theorem Consistent.allResolved_eq (hc : c.Consistent) :
    c.allResolved = c.all.map fun info =>
      { info with resolved := (c.resolve info.entry.name).value? } :=
  List.map_congr_left fun _ hinfo => resolvedOr_resolve (hc.get?_of_mem_all hinfo)

end Catalog

namespace Excerpt

variable {e rest : Excerpt} {r : Reference} (f : String → Option String)

theorem substitute_reference (h : Reference.read? e = some (r, rest)) :
    e.substitute f =
      (match f r.name with
        | some value => value.toList
        | none => r.source.chars) ++ rest.substitute f := by
  rw [substitute]
  split
  · rename_i hread
    rw [h] at hread
    cases hread
    rfl
  · rename_i hnone
    rw [h] at hnone
    cases hnone

theorem substitute_end (h : Reference.read? e = none) (hchars : e.chars = []) :
    e.substitute f = [] := by
  rw [substitute]
  split
  · rename_i hread
    rw [h] at hread
    cases hread
  · split
    · rfl
    · rename_i hcons
      rw [hchars] at hcons
      cases hcons

theorem substitute_char (h : Reference.read? e = none) {c : Char} {cs : List Char}
    (hchars : e.chars = c :: cs) :
    e.substitute f = c :: (⟨e.start + c.utf8Size, cs⟩ : Excerpt).substitute f := by
  rw [substitute]
  split
  · rename_i hread
    rw [h] at hread
    cases hread
  · split
    · rename_i hnil
      rw [hchars] at hnil
      cases hnil
    · rename_i hcons
      rw [hchars] at hcons
      cases hcons
      rfl

variable {f} in
/-- Putting values in place of references depends only on the names of the references. -/
theorem substitute_congr {g : String → Option String} (e : Excerpt)
    (h : ∀ r ∈ e.references, f r.name = g r.name) : e.substitute f = e.substitute g := by
  fun_induction references e with
  | case1 e r rest hread _ ih =>
    rw [List.forall_mem_cons] at h
    rw [substitute_reference f hread, substitute_reference g hread, h.1, ih h.2]
  | case2 e hread hchars => rw [substitute_end f hread hchars, substitute_end g hread hchars]
  | case3 e hread c cs hchars _ ih =>
    rw [substitute_char f hread hchars, substitute_char g hread hchars, ih h]

end Excerpt

namespace Resolver

variable {r : Resolver} {ix : Index}

theorem find?_resolutions {names : List String} {name : String} (h : name ∈ names) (c : Catalog) :
    (names.map c.resolve).find? (·.name == name) = some (c.resolve name) := by
  have hfirst : names.find? (· == name) = some name := by
    cases hfind : names.find? (· == name) with
    | none => simpa using List.find?_eq_none.mp hfind name h
    | some found =>
      have hfound : found = name := by simpa using List.find?_some hfind
      rw [hfound]
  have hname : ((·.name == name) ∘ c.resolve) = (· == name) := by
    funext other
    exact congrArg (· == name) (c.name_resolveFrom _ other [])
  rw [List.find?_map, hname, hfirst]
  rfl

theorem Faithful.resolveValue (h : r.Faithful ix) (value : String) :
    (r.resolveValue ix value).2 = ix.catalog.resolveValue value := by
  obtain ⟨_, hfound⟩ := h.resolveEach ((Excerpt.ofString value).references.map (·.name))
  rw [Resolver.resolveValue, Catalog.resolveValue]
  dsimp only
  rw [hfound]
  congr 1
  refine Excerpt.substitute_congr _ fun reference hreference => ?_
  rw [find?_resolutions (List.mem_map_of_mem hreference)]
  rfl

end Resolver

end StyleVars
