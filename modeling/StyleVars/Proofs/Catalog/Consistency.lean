import Mathlib.Algebra.Order.Ring.Nat
import Mathlib.Algebra.Order.BigOperators.Group.List
import StyleVars.Proofs.Catalog.Update

/-!
# Consistent catalogs

A catalog is consistent when its four forms describe the same files: the registered paths are those
that have records, each once; a name has an entry exactly when some record defines it, and the entry
is the first definition of the name in the record of its file; and the total of a name's uses is the
sum over all records.

Taking out a file breaks this for a moment, because names that it owned may be defined elsewhere.
`ConsistentUpTo` names the debt: the names that may still lack an entry. Taking out a file incurs
it, registering a file keeps it, and adopting a name pays it off.
-/

namespace StyleVars

open Std

namespace FileRecord

theorem mem_of_find? {r : FileRecord} {name : String} {v : Variable} (h : r.find? name = some v) :
    v ∈ r.defined := List.mem_of_find?_eq_some h

theorem name_of_find? {r : FileRecord} {name : String} {v : Variable} (h : r.find? name = some v) :
    v.name = name := by
  simpa using List.find?_some h

theorem file_of_mem_ofSheet {path : Path} {sheet : Sheet} {v : Variable}
    (h : v ∈ (ofSheet path sheet).defined) : v.file = path := by
  obtain ⟨d, _, rfl⟩ := List.mem_map.mp h
  rfl

end FileRecord

/-- The first definition that is found in some files stands in the first file that has one. -/
theorem file_of_findSome? {find : Path → Option Variable}
    (hfile : ∀ {p : Path} {v : Variable}, find p = some v → v.file = p) (files : List Path) :
    (files.findSome? find).map (·.file) = files.find? fun p => (find p).isSome := by
  induction files with
  | nil => rfl
  | cons p rest ih =>
    cases hfind : find p with
    | none => simpa [hfind] using ih
    | some v => simpa [hfind] using hfile hfind

namespace Catalog

/-- The catalog is consistent, except that names in `pending` may lack an entry. -/
structure ConsistentUpTo (pending : List String) (c : Catalog) : Prop where
  scanned_nodup : c.scanned.Nodup
  mem_scanned (p : Path) : p ∈ c.scanned ↔ p ∈ c.records
  record_read {p : Path} {r : FileRecord} :
    c.records[p]? = some r → ∃ sheet, r = .ofSheet p sheet
  entry_first {name : String} {v : Variable} :
    c.entries[name]? = some v → c.definition? name v.file = some v
  entry_or_pending {name : String} {p : Path} {v : Variable} :
    c.definition? name p = some v → name ∈ c.entries ∨ name ∈ pending
  usage_total (name : String) : c.usage.total name = (c.scanned.map (c.usesIn name)).sum
  usage_positive : c.usage.Positive

/-- All four forms of the catalog agree. -/
def Consistent (c : Catalog) : Prop := ConsistentUpTo [] c

variable {c : Catalog} {pending : List String} {path : Path}

theorem definition?_eq_some {name : String} {p : Path} {v : Variable} :
    c.definition? name p = some v ↔ ∃ r, c.records[p]? = some r ∧ r.find? name = some v :=
  Option.bind_eq_some_iff

theorem mem_records_of_definition? {name : String} {p : Path} {v : Variable}
    (h : c.definition? name p = some v) : p ∈ c.records := by
  obtain ⟨r, hr, _⟩ := definition?_eq_some.mp h
  exact TreeMap.mem_iff_isSome_getElem?.mpr (by simp [hr])

theorem Consistent.empty : Catalog.empty.Consistent where
  scanned_nodup := List.nodup_nil
  mem_scanned p := by simp [Catalog.empty]
  record_read h := by simp [Catalog.empty] at h
  entry_first h := by simp [Catalog.empty] at h
  entry_or_pending h := by simp [Catalog.empty, definition?] at h
  usage_total name := by simp [Catalog.empty, UsageCounts.total_empty]
  usage_positive := .empty

/-- A file that is registered adds its own uses to those of the others. -/
theorem sum_usesIn_insert (h : path ∉ c.scanned) (r : FileRecord) (name : String) :
    ((c.scanned ++ [path]).map ((c.insert path r).usesIn name)).sum =
      (c.scanned.map (c.usesIn name)).sum + r.usage.total name := by
  have hsame : c.scanned.map ((c.insert path r).usesIn name) = c.scanned.map (c.usesIn name) := by
    refine List.map_congr_left fun p hp => ?_
    have hne : path ≠ p := fun heq => h (heq ▸ hp)
    rw [usesIn_insert, if_neg hne]
  have hown : (c.insert path r).usesIn name path = r.usage.total name := by
    rw [usesIn_insert, if_pos rfl]
  rw [List.map_append, List.sum_append, hsame, List.map_singleton, List.sum_singleton, hown]

/-- What a file that is taken out used is missing afterwards. -/
theorem sum_usesIn_erase {r : FileRecord} (h : c.records[path]? = some r)
    (hnodup : c.scanned.Nodup) (hmem : path ∈ c.scanned) (name : String) :
    r.usage.total name +
        ((c.scanned.filter (· != path)).map ((c.erase path).1.usesIn name)).sum =
      (c.scanned.map (c.usesIn name)).sum := by
  have hsame : (c.scanned.filter (· != path)).map ((c.erase path).1.usesIn name) =
      (c.scanned.filter (· != path)).map (c.usesIn name) := by
    refine List.map_congr_left fun p hp => ?_
    have hne : path ≠ p := Ne.symm (by simpa using (List.mem_filter.mp hp).2)
    rw [usesIn_erase, if_neg hne]
  have hown : c.usesIn name path = r.usage.total name := by simp [usesIn, h]
  rw [hsame, ← hown, ← hnodup.erase_eq_filter path]
  exact List.sum_map_erase (c.usesIn name) hmem

/-- An entry at a file is taken away with the file, which defines the name. -/
theorem takenBy_of_definition? {r : FileRecord} {name : String} {v : Variable}
    (hrecord : c.records[path]? = some r) (hentry : c.entries[name]? = some v)
    (hfile : path = v.file) (hdef : c.definition? name path = some v) :
    takenBy r.defined path c.entries name = true := by
  obtain ⟨s, hs, hfind⟩ := definition?_eq_some.mp hdef
  rw [hrecord] at hs
  cases hs
  have hnamed : r.defined.any (·.name == name) = true := by
    refine List.any_eq_true.mpr ⟨v, FileRecord.mem_of_find? hfind, ?_⟩
    simpa using FileRecord.name_of_find? hfind
  rw [takenBy, hnamed, owns, hentry]
  simp [hfile]

namespace ConsistentUpTo

theorem file_of_definition? (h : ConsistentUpTo pending c) {name : String} {p : Path}
    {v : Variable} (hv : c.definition? name p = some v) : v.file = p := by
  obtain ⟨r, hr, hfind⟩ := definition?_eq_some.mp hv
  obtain ⟨sheet, rfl⟩ := h.record_read hr
  exact FileRecord.file_of_mem_ofSheet (FileRecord.mem_of_find? hfind)

theorem insert (h : ConsistentUpTo pending c) (hnew : path ∉ c.records) (sheet : Sheet) :
    ConsistentUpTo pending (c.insert path (.ofSheet path sheet)) := by
  have hfresh : path ∉ c.scanned := fun hmem => hnew ((h.mem_scanned path).mp hmem)
  have hscanned := scanned_insert_of_not_mem c hfresh (.ofSheet path sheet)
  have hentries := getElem?_entries_insert c path (.ofSheet path sheet)
  refine ⟨?_, ?_, ?_, ?_, ?_, ?_, ?_⟩
  · rw [hscanned]
    refine List.nodup_append.mpr ⟨h.scanned_nodup, by simp, ?_⟩
    rintro p hp q hq rfl
    exact hfresh (List.mem_singleton.mp hq ▸ hp)
  · intro p
    rw [hscanned, List.mem_append, List.mem_singleton, h.mem_scanned p]
    simp only [Catalog.insert, TreeMap.mem_insert, Std.compare_eq_iff_eq]
    exact ⟨fun hp => hp.symm.imp_left Eq.symm, fun hp => hp.symm.imp_right Eq.symm⟩
  · intro p r hr
    rw [getElem?_records_insert] at hr
    split at hr
    · rename_i heq
      subst heq
      cases hr
      exact ⟨sheet, rfl⟩
    · exact h.record_read hr
  · intro name v hv
    rw [definition?_insert]
    rcases Option.or_eq_some_iff.mp ((hentries name).symm.trans hv) with hold | ⟨_, hfound⟩
    · -- An old entry stands at an old file, which is not the one registered now.
      have hdef := h.entry_first hold
      have hne : path ≠ v.file := fun heq => hnew (heq ▸ mem_records_of_definition? hdef)
      rw [if_neg hne, hdef]
    · have hfile := FileRecord.file_of_mem_ofSheet (FileRecord.mem_of_find? hfound)
      rw [if_pos hfile.symm]
      exact hfound
  · intro name p v hv
    rw [definition?_insert] at hv
    rw [TreeMap.mem_iff_isSome_getElem?, hentries, Option.isSome_or]
    split at hv
    · exact .inl (by simp [hv])
    · refine (h.entry_or_pending hv).imp_left fun hmem => ?_
      simp [TreeMap.mem_iff_isSome_getElem?.mp hmem]
  · intro name
    rw [hscanned, sum_usesIn_insert hfresh, total_usage_insert, h.usage_total name]
  · exact h.usage_positive.addAll (.ofNames _)

/-- Taking out a file leaves the names that it owned without entries. -/
theorem erase (h : c.Consistent) (path : Path) :
    ConsistentUpTo (c.erase path).2 (c.erase path).1 := by
  cases hrecord : c.records[path]? with
  | none =>
    have herase : c.erase path = (c, []) := by simp [Catalog.erase, hrecord]
    rw [herase]
    exact h
  | some r =>
    have hentries := getElem?_entries_erase hrecord
    have hscanned := scanned_erase hrecord
    refine ⟨?_, ?_, ?_, ?_, ?_, ?_, ?_⟩
    · rw [hscanned]
      exact h.scanned_nodup.filter _
    · intro p
      rw [hscanned, List.mem_filter, h.mem_scanned p, TreeMap.mem_iff_isSome_getElem?,
        TreeMap.mem_iff_isSome_getElem?, getElem?_records_erase]
      by_cases hp : path = p
      · simp [hp]
      · simp [hp, Ne.symm hp]
    · intro p s hs
      rw [getElem?_records_erase] at hs
      split at hs
      · cases hs
      · exact h.record_read hs
    · intro name v hv
      rw [hentries] at hv
      split at hv
      · cases hv
      · rename_i hkept
        have hdef := h.entry_first hv
        have hne : path ≠ v.file := fun heq =>
          hkept (takenBy_of_definition? hrecord hv heq (heq ▸ hdef))
        rw [definition?_erase, if_neg hne, hdef]
    · intro name p v hv
      rw [definition?_erase] at hv
      split at hv
      · cases hv
      · have hold : name ∈ c.entries := by simpa using h.entry_or_pending hv
        by_cases htaken : takenBy r.defined path c.entries name = true
        · exact .inr ((mem_erase_snd hrecord name).mpr htaken)
        · refine .inl (TreeMap.mem_iff_isSome_getElem?.mpr ?_)
          rw [hentries, if_neg htaken]
          exact TreeMap.mem_iff_isSome_getElem?.mp hold
    · intro name
      have hmem : path ∈ c.scanned :=
        (h.mem_scanned path).mpr (TreeMap.mem_iff_isSome_getElem?.mpr (by simp [hrecord]))
      have hsum := sum_usesIn_erase hrecord h.scanned_nodup hmem name
      rw [usage_erase hrecord, UsageCounts.total_subtractAll, hscanned, h.usage_total name]
      omega
    · rw [usage_erase hrecord]
      exact h.usage_positive.subtractAll r.usage

theorem adopt {name : String} (h : ConsistentUpTo (name :: pending) c) :
    ConsistentUpTo pending (c.adopt name) where
  scanned_nodup := by simpa using h.scanned_nodup
  mem_scanned := by simpa using h.mem_scanned
  record_read hr := h.record_read (by simpa using hr)
  entry_first {other v} hv := by
    rw [definition?_adopt]
    rw [getElem?_entries_adopt] at hv
    rcases Option.or_eq_some_iff.mp hv with hold | ⟨_, hnew⟩
    · exact h.entry_first hold
    · split at hnew
      · obtain ⟨p, _, hdef⟩ := List.exists_of_findSome?_eq_some hnew
        rw [h.file_of_definition? hdef, hdef]
      · cases hnew
  entry_or_pending {other p v} hv := by
    rw [definition?_adopt] at hv
    rw [TreeMap.mem_iff_isSome_getElem?, getElem?_entries_adopt, Option.isSome_or]
    rcases h.entry_or_pending hv with hold | hpending
    · exact .inl (by simp [TreeMap.mem_iff_isSome_getElem?.mp hold])
    · rcases List.mem_cons.mp hpending with rfl | hpending
      · -- The file that defines the name is registered, so the search finds one.
        have hp : p ∈ c.scanned := (h.mem_scanned p).mpr (mem_records_of_definition? hv)
        have hfound : (c.scanned.findSome? (c.definition? other)).isSome :=
          List.findSome?_isSome_iff.mpr ⟨p, hp, by simp [hv]⟩
        exact .inl (by simp [hfound])
      · exact .inr hpending
  usage_total other := by
    have hsame : (c.adopt name).usesIn other = c.usesIn other := funext (usesIn_adopt c name other)
    rw [usage_adopt, scanned_adopt, hsame, h.usage_total other]
  usage_positive := by simpa using h.usage_positive

theorem foldl_adopt (h : ConsistentUpTo pending c) :
    (pending.foldl Catalog.adopt c).Consistent := by
  induction pending generalizing c with
  | nil => exact h
  | cons name rest ih => exact ih h.adopt

theorem refreshed (h : ConsistentUpTo pending c) (b : Bool) :
    ConsistentUpTo pending { c with refreshed := b } :=
  ⟨h.scanned_nodup, h.mem_scanned, h.record_read, h.entry_first, h.entry_or_pending,
    h.usage_total, h.usage_positive⟩

end ConsistentUpTo

/-- Reading a file again, or taking it out, keeps a catalog consistent. -/
theorem Consistent.replace (h : c.Consistent) (path : Path) (text : Option String) :
    (c.replace path (text.map (.ofText path))).Consistent := by
  have herased := ConsistentUpTo.erase h path
  have hgone : path ∉ (c.erase path).1.records := by
    rw [TreeMap.mem_iff_isSome_getElem?, getElem?_records_erase]
    simp
  cases text with
  | none => exact herased.foldl_adopt.refreshed true
  | some text => exact (herased.insert hgone (.ofString text)).foldl_adopt.refreshed true

namespace Consistent

theorem mem_entries_iff (h : c.Consistent) (name : String) :
    name ∈ c.entries ↔
      ∃ (p : Path) (r : FileRecord), c.records[p]? = some r ∧ ∃ v ∈ r.defined, v.name = name := by
  constructor
  · intro hmem
    obtain ⟨v, hv⟩ := Option.isSome_iff_exists.mp (TreeMap.mem_iff_isSome_getElem?.mp hmem)
    obtain ⟨r, hr, hfind⟩ := definition?_eq_some.mp (h.entry_first hv)
    exact ⟨v.file, r, hr, v, FileRecord.mem_of_find? hfind, FileRecord.name_of_find? hfind⟩
  · rintro ⟨p, r, hr, v, hv, rfl⟩
    have hsome : (r.find? v.name).isSome := List.find?_isSome.mpr ⟨v, hv, by simp⟩
    obtain ⟨first, hfirst⟩ := Option.isSome_iff_exists.mp hsome
    simpa using h.entry_or_pending (definition?_eq_some.mpr ⟨r, hr, hfirst⟩)

theorem entry_first_of_scanned (h : c.Consistent) (name : String) (v : Variable)
    (hv : c.entries[name]? = some v) :
    v.file ∈ c.scanned ∧
      ∃ r, c.records[v.file]? = some r ∧ r.defined.find? (·.name == name) = some v := by
  have hdef := h.entry_first hv
  exact ⟨(h.mem_scanned v.file).mpr (mem_records_of_definition? hdef), definition?_eq_some.mp hdef⟩

theorem scanned_perm_keys (h : c.Consistent) : c.scanned.Perm c.records.keys :=
  (List.perm_ext_iff_of_nodup h.scanned_nodup TreeMap.nodup_keys).mpr fun p => by
    rw [h.mem_scanned p, TreeMap.mem_keys]

theorem usageOf_eq_sum (h : c.Consistent) (name : String) :
    c.usageOf name = (c.records.toList.map fun e => e.2.usage.total name).sum := by
  have hrecords : c.records.toList.map (fun e => e.2.usage.total name) =
      c.records.keys.map (c.usesIn name) := by
    rw [← TreeMap.map_fst_toList_eq_keys, List.map_map]
    refine List.map_congr_left fun e he => ?_
    have hget := TreeMap.mem_toList_iff_getElem?_eq_some.mp he
    simp [usesIn, hget]
  rw [hrecords, ← (h.scanned_perm_keys.map (c.usesIn name)).sum_eq]
  exact h.usage_total name

theorem not_mem_usage (h : c.Consistent) {name : String} (hzero : c.usageOf name = 0) :
    name ∉ c.usage := by
  have hnone := (h.usage_positive.getElem?_eq_none_iff name).mpr hzero
  rw [TreeMap.mem_iff_isSome_getElem?, hnone]
  simp

theorem usage_le (h : c.Consistent) {p : Path} {r : FileRecord} {name : String}
    (hr : c.records[p]? = some r) : r.usage.total name ≤ c.usageOf name := by
  rw [h.usageOf_eq_sum name]
  exact List.single_le_sum (fun _ _ => Nat.zero_le _) _
    (List.mem_map_of_mem (f := fun e => e.2.usage.total name)
      (TreeMap.mem_toList_iff_getElem?_eq_some.mpr hr))

end Consistent

end Catalog

end StyleVars
