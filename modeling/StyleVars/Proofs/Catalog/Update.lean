import Mathlib.Algebra.BigOperators.Group.List.Basic
import Mathlib.Algebra.GroupWithZero.Nat
import StyleVars.Catalog.Basic

/-!
# What the operations on a catalog do

A catalog keeps the same files in four forms: their records, the order of their registration, the
entry of each name, and the total of each name's uses. The lemmas below say, one form at a time,
what an operation leaves there. Later proofs use them instead of the folds by which the operations
are defined.
-/

namespace StyleVars

open Std

namespace UsageCounts

variable (u : UsageCounts)

theorem total_empty (name : String) : total ∅ name = 0 := by
  simp [total]

theorem total_add (name other : String) (n : Nat) :
    (u.add name n).total other = u.total other + if name = other then n else 0 := by
  rw [total, total, add, TreeMap.getElem?_alter]
  by_cases h : name = other
  · simp [h]
  · simp [h]

theorem total_subtract (name other : String) (n : Nat) :
    (u.subtract name n).total other = u.total other - if name = other then n else 0 := by
  rw [total, total, subtract, TreeMap.getElem?_alter]
  by_cases h : name = other
  · subst h
    cases hget : u[name]? with
    | none => simp
    | some count =>
      simp only [compare_self, ↓reduceIte, Option.getD_some]
      split
      · simp_all
      · simp
  · simp [h]

/-- The sum of the counts that a list gives for a name. -/
def listed (counts : List (String × Nat)) (name : String) : Nat :=
  (counts.map fun e => if e.1 = name then e.2 else 0).sum

theorem total_foldl_add (counts : List (String × Nat)) (name : String) :
    (counts.foldl (fun u e => u.add e.1 e.2) u).total name = u.total name + listed counts name := by
  induction counts generalizing u with
  | nil => simp [listed]
  | cons e rest ih =>
    simp only [List.foldl_cons, ih, total_add, listed, List.map_cons, List.sum_cons]
    omega

theorem total_foldl_subtract (counts : List (String × Nat)) (name : String) :
    (counts.foldl (fun u e => u.subtract e.1 e.2) u).total name =
      u.total name - listed counts name := by
  induction counts generalizing u with
  | nil => simp [listed]
  | cons e rest ih =>
    simp only [List.foldl_cons, ih, total_subtract, listed, List.map_cons, List.sum_cons]
    omega

/-- A list that names each name once gives for a name the count that stands beside it. -/
theorem listed_eq_of_mem {counts : List (String × Nat)} {name : String} {n : Nat}
    (hdistinct : (counts.map (·.1)).Nodup) (hmem : (name, n) ∈ counts) :
    listed counts name = n := by
  induction counts with
  | nil => cases hmem
  | cons e rest ih =>
    rw [List.map_cons] at hdistinct
    obtain ⟨hfresh, hrest⟩ := List.nodup_cons.mp hdistinct
    rcases List.mem_cons.mp hmem with rfl | hmem
    · have hnone : listed rest name = 0 := by
        apply List.sum_eq_zero
        intro k hk
        obtain ⟨e, he, rfl⟩ := List.mem_map.mp hk
        have hne : e.1 ≠ name := by
          rintro rfl
          exact hfresh (List.mem_map_of_mem (f := (·.1)) he)
        simp [hne]
      simp only [listed] at hnone
      simp [listed, hnone]
    · have hne : e.1 ≠ name := fun h => hfresh (h ▸ List.mem_map_of_mem hmem)
      have hsum := ih hrest hmem
      simp only [listed] at hsum
      simp [listed, hne, hsum]

theorem listed_toList (name : String) : listed u.toList name = u.total name := by
  cases hget : u[name]? with
  | some n =>
    have hmem := TreeMap.mem_toList_iff_getElem?_eq_some.mpr hget
    have hdistinct : (u.toList.map (·.1)).Nodup := by
      rw [TreeMap.map_fst_toList_eq_keys]
      exact TreeMap.nodup_keys
    rw [listed_eq_of_mem hdistinct hmem, total, hget, Option.getD_some]
  | none =>
    rw [total, hget, Option.getD_none]
    apply List.sum_eq_zero
    intro k hk
    obtain ⟨e, he, rfl⟩ := List.mem_map.mp hk
    have hne : e.1 ≠ name := by
      rintro rfl
      have := TreeMap.mem_toList_iff_getElem?_eq_some.mp he
      simp_all
    simp [hne]

theorem total_addAll (more : UsageCounts) (name : String) :
    (u.addAll more).total name = u.total name + more.total name := by
  rw [addAll, TreeMap.foldl_eq_foldl_toList, total_foldl_add, listed_toList]

theorem total_subtractAll (less : UsageCounts) (name : String) :
    (u.subtractAll less).total name = u.total name - less.total name := by
  rw [subtractAll, TreeMap.foldl_eq_foldl_toList, total_foldl_subtract, listed_toList]

/-- No name is kept with a count of zero. -/
def Positive (u : UsageCounts) : Prop := ∀ name : String, u[name]? ≠ some 0

variable {u}

theorem Positive.empty : Positive ∅ := by
  simp [Positive]

theorem Positive.add (h : u.Positive) (name : String) {n : Nat} (hn : 0 < n) :
    (u.add name n).Positive := by
  intro other
  rw [UsageCounts.add, TreeMap.getElem?_alter]
  split
  · simp only [ne_eq, Option.some.injEq]
    omega
  · exact h other

theorem Positive.subtract (h : u.Positive) (name : String) (n : Nat) :
    (u.subtract name n).Positive := by
  intro other
  rw [UsageCounts.subtract, TreeMap.getElem?_alter]
  split
  · cases u[name]? with
    | none => simp
    | some count =>
      dsimp only
      split
      · simp
      · simpa using ‹¬count - n = 0›
  · exact h other

theorem Positive.ofNames (names : List String) : (ofNames names).Positive := by
  suffices ∀ v : UsageCounts, v.Positive →
      (names.foldl (fun u name => u.add name 1) v).Positive from this ∅ .empty
  induction names with
  | nil => exact fun v hv => hv
  | cons name rest ih => exact fun v hv => ih _ (hv.add name Nat.one_pos)

theorem Positive.addAll {more : UsageCounts} (h : u.Positive) (hmore : more.Positive) :
    (u.addAll more).Positive := by
  rw [UsageCounts.addAll, TreeMap.foldl_eq_foldl_toList]
  have hpos : ∀ e ∈ more.toList, 0 < e.2 := by
    intro e he
    have hget := TreeMap.mem_toList_iff_getElem?_eq_some.mp he
    have hne := hmore e.1
    rw [hget] at hne
    exact Nat.pos_of_ne_zero fun hzero => hne (congrArg some hzero)
  generalize more.toList = counts at hpos
  induction counts generalizing u with
  | nil => exact h
  | cons e rest ih =>
    exact ih (h.add e.1 (hpos e List.mem_cons_self))
      fun e he => hpos e (List.mem_cons_of_mem _ he)

theorem Positive.subtractAll (h : u.Positive) (less : UsageCounts) :
    (u.subtractAll less).Positive := by
  rw [UsageCounts.subtractAll, TreeMap.foldl_eq_foldl_toList]
  generalize less.toList = counts
  induction counts generalizing u with
  | nil => exact h
  | cons e rest ih => exact ih (h.subtract e.1 e.2)

/-- Where no count is zero, a name is left out exactly when it is not used. -/
theorem Positive.getElem?_eq_none_iff (h : u.Positive) (name : String) :
    u[name]? = none ↔ u.total name = 0 := by
  have hne := h name
  rw [total]
  cases hget : u[name]? with
  | none => simp
  | some n => simp_all

end UsageCounts

namespace Catalog

/-- The first definition of a name counts, and only where the name had no entry. -/
theorem getElem?_foldl_assign (vs : List Variable) (entries : TreeMap String Variable)
    (name : String) :
    (vs.foldl assign entries)[name]? = entries[name]?.or (vs.find? (·.name == name)) := by
  induction vs generalizing entries with
  | nil => simp
  | cons v rest ih =>
    rw [List.foldl_cons, ih, assign, TreeMap.getElem?_insertIfNew, List.find?_cons]
    by_cases hname : v.name = name
    · subst hname
      by_cases hmem : v.name ∈ entries <;> simp [hmem]
    · have hne : (v.name == name) = false := by simpa using hname
      simp [hname, hne]

/-- Whether a name belongs to the file at `path`. -/
def owns (entries : TreeMap String Variable) (path : Path) (name : String) : Bool :=
  entries[name]?.any (·.file == path)

theorem orphan_eq (path : Path) (state : TreeMap String Variable × List String) (v : Variable) :
    orphan path state v =
      if owns state.1 path v.name then (state.1.erase v.name, state.2 ++ [v.name])
      else state := by
  rw [orphan, owns]
  cases state.1[v.name]? with
  | none => simp
  | some owner => simp

theorem owns_erase (entries : TreeMap String Variable) (path : Path) (erased name : String) :
    owns (entries.erase erased) path name = (erased != name && owns entries path name) := by
  rw [owns, owns, TreeMap.getElem?_erase]
  by_cases h : erased = name
  · simp [h]
  · simp [h]

/-- The names that a list of definitions takes away from a file. A name that is defined twice is
gone when its second definition comes up, which then changes nothing. -/
def takenBy (vs : List Variable) (path : Path) (entries : TreeMap String Variable)
    (name : String) : Bool :=
  vs.any (·.name == name) && owns entries path name

theorem getElem?_foldl_orphan (path : Path) (vs : List Variable)
    (state : TreeMap String Variable × List String) (name : String) :
    (vs.foldl (orphan path) state).1[name]? =
      if takenBy vs path state.1 name then none else state.1[name]? := by
  induction vs generalizing state with
  | nil => simp [takenBy]
  | cons v rest ih =>
    rw [List.foldl_cons, ih, orphan_eq]
    unfold takenBy
    by_cases howned : owns state.1 path v.name
    · by_cases hname : v.name = name
      · subst hname
        simp [howned, owns_erase]
      · simp [howned, owns_erase, TreeMap.getElem?_erase, hname]
    · by_cases hname : v.name = name
      · subst hname
        simp [howned]
      · simp [howned, hname]

theorem mem_foldl_orphan (path : Path) (vs : List Variable)
    (state : TreeMap String Variable × List String) (name : String) :
    name ∈ (vs.foldl (orphan path) state).2 ↔
      name ∈ state.2 ∨ takenBy vs path state.1 name = true := by
  induction vs generalizing state with
  | nil => simp [takenBy]
  | cons v rest ih =>
    rw [List.foldl_cons, ih, orphan_eq]
    unfold takenBy
    by_cases howned : owns state.1 path v.name
    · by_cases hname : v.name = name
      · subst hname
        simp [howned, owns_erase]
      · have hne : name ≠ v.name := fun h => hname h.symm
        simp [howned, owns_erase, hname, hne]
    · by_cases hname : v.name = name
      · subst hname
        simp [howned]
      · simp [howned, hname]

variable (c : Catalog)

/-- How often a file uses a name. -/
def usesIn (name : String) (path : Path) : Nat :=
  (c.records[path]?.map (·.usage.total name)).getD 0

theorem getElem?_records_insert (path p : Path) (r : FileRecord) :
    (c.insert path r).records[p]? = if path = p then some r else c.records[p]? := by
  simp [insert, TreeMap.getElem?_insert]

theorem getElem?_entries_insert (path : Path) (r : FileRecord) (name : String) :
    (c.insert path r).entries[name]? = c.entries[name]?.or (r.find? name) :=
  getElem?_foldl_assign r.defined c.entries name

theorem scanned_insert_of_not_mem {path : Path} (h : path ∉ c.scanned) (r : FileRecord) :
    (c.insert path r).scanned = c.scanned ++ [path] := by
  simp [insert, h]

theorem total_usage_insert (path : Path) (r : FileRecord) (name : String) :
    (c.insert path r).usage.total name = c.usage.total name + r.usage.total name :=
  UsageCounts.total_addAll c.usage r.usage name

theorem definition?_insert (path p : Path) (r : FileRecord) (name : String) :
    (c.insert path r).definition? name p =
      if path = p then r.find? name else c.definition? name p := by
  rw [definition?, definition?, getElem?_records_insert]
  split
  · simp
  · rfl

theorem usesIn_insert (path p : Path) (r : FileRecord) (name : String) :
    (c.insert path r).usesIn name p =
      if path = p then r.usage.total name else c.usesIn name p := by
  rw [usesIn, usesIn, getElem?_records_insert]
  split
  · simp
  · rfl

theorem getElem?_records_erase (path p : Path) :
    (c.erase path).1.records[p]? = if path = p then none else c.records[p]? := by
  rw [erase]
  split
  · rename_i hnone
    split
    · rename_i heq
      rw [← heq, hnone]
    · rfl
  · simp [TreeMap.getElem?_erase]

theorem definition?_erase (path p : Path) (name : String) :
    (c.erase path).1.definition? name p = if path = p then none else c.definition? name p := by
  rw [definition?, definition?, getElem?_records_erase]
  split
  · simp
  · rfl

theorem usesIn_erase (path p : Path) (name : String) :
    (c.erase path).1.usesIn name p = if path = p then 0 else c.usesIn name p := by
  rw [usesIn, usesIn, getElem?_records_erase]
  split
  · simp
  · rfl

section Erase

variable {c} {path : Path} {r : FileRecord} (h : c.records[path]? = some r)

include h

theorem getElem?_entries_erase (name : String) :
    (c.erase path).1.entries[name]? =
      if takenBy r.defined path c.entries name then none else c.entries[name]? := by
  simp only [erase, h]
  exact getElem?_foldl_orphan path r.defined (c.entries, []) name

/-- The names that are given back are those that the file owned. -/
theorem mem_erase_snd (name : String) :
    name ∈ (c.erase path).2 ↔ takenBy r.defined path c.entries name = true := by
  simp only [erase, h]
  simpa using mem_foldl_orphan path r.defined (c.entries, []) name

theorem scanned_erase : (c.erase path).1.scanned = c.scanned.filter (· != path) := by
  simp [erase, h]

theorem usage_erase : (c.erase path).1.usage = c.usage.subtractAll r.usage := by
  simp [erase, h]

end Erase

@[simp] theorem records_adopt (name : String) : (c.adopt name).records = c.records := by
  rw [adopt]
  split
  · rfl
  · split <;> rfl

@[simp] theorem scanned_adopt (name : String) : (c.adopt name).scanned = c.scanned := by
  rw [adopt]
  split
  · rfl
  · split <;> rfl

@[simp] theorem usage_adopt (name : String) : (c.adopt name).usage = c.usage := by
  rw [adopt]
  split
  · rfl
  · split <;> rfl

@[simp] theorem definition?_adopt (adopted name : String) (p : Path) :
    (c.adopt adopted).definition? name p = c.definition? name p := by
  simp [definition?]

@[simp] theorem usesIn_adopt (adopted name : String) (p : Path) :
    (c.adopt adopted).usesIn name p = c.usesIn name p := by
  simp [usesIn]

theorem getElem?_entries_adopt (adopted name : String) :
    (c.adopt adopted).entries[name]? =
      c.entries[name]?.or
        (if adopted = name then c.scanned.findSome? (c.definition? name) else none) := by
  rw [adopt]
  split
  · rename_i hmem
    rw [TreeMap.contains_eq_isSome_getElem?] at hmem
    obtain ⟨owner, howner⟩ := Option.isSome_iff_exists.mp hmem
    by_cases hname : adopted = name
    · subst hname
      rw [howner, Option.some_or]
    · simp [hname]
  · rename_i hnot
    have hnone : c.entries[adopted]? = none :=
      TreeMap.getElem?_eq_none_of_contains_eq_false (Bool.eq_false_iff.mpr hnot)
    by_cases hname : adopted = name
    · subst hname
      split
      · rename_i hfound
        simp [hnone, hfound]
      · rename_i hfound
        simp [hnone, hfound]
    · split
      · simp [TreeMap.getElem?_insert, hname]
      · simp [hname]

theorem records_foldl_adopt (names : List String) :
    (names.foldl adopt c).records = c.records := by
  induction names generalizing c with
  | nil => rfl
  | cons name rest ih => rw [List.foldl_cons, ih, records_adopt]

/-- After a replacement the file has the new record, if there is one, and no other file has
changed. -/
theorem getElem?_records_replace (path p : Path) (record : Option FileRecord) :
    (c.replace path record).records[p]? = if path = p then record else c.records[p]? := by
  rw [replace]
  cases record with
  | none => simp [records_foldl_adopt, getElem?_records_erase]
  | some r =>
    simp only [records_foldl_adopt, getElem?_records_insert, getElem?_records_erase]
    split <;> rfl

end Catalog

end StyleVars
