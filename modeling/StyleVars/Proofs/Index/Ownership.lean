import StyleVars.Glob.Compiler
import StyleVars.Proofs.Index.Contents
import StyleVars.Proofs.Index.Site

/-!
# How names change hands

A name belongs to one file. When a file is read again or taken out, the names of other files stay
where they are. A name that was the file's own, or nobody's, goes to the file again if it still
defines the name, else to the first of the remaining files that does, else to nobody. The file comes
last in the order of registration, whatever place it had there.

So reading a file again that has not changed since it was last read again changes nothing.
-/

namespace StyleVars

open Std

namespace Catalog

/-! ## Adopting names -/

section Adopt

variable (c : Catalog) (names : List String)

theorem scanned_foldl_adopt : (names.foldl adopt c).scanned = c.scanned := by
  induction names generalizing c with
  | nil => rfl
  | cons name rest ih => rw [List.foldl_cons, ih, scanned_adopt]

/-- Adopting names gives each of them that has no entry to the first file that defines it. -/
theorem getElem?_entries_foldl_adopt (name : String) :
    (names.foldl adopt c).entries[name]? =
      c.entries[name]?.or
        (if name ∈ names then c.scanned.findSome? (c.definition? name) else none) := by
  induction names generalizing c with
  | nil => simp
  | cons adopted rest ih =>
    have hsame : (c.adopt adopted).definition? name = c.definition? name :=
      funext (definition?_adopt c adopted name)
    rw [List.foldl_cons, ih, getElem?_entries_adopt, scanned_adopt, hsame, Option.or_assoc]
    congr 1
    by_cases hname : adopted = name
    · subst hname
      cases c.scanned.findSome? (c.definition? adopted) <;> simp
    · have hne : name ≠ adopted := fun heq => hname heq.symm
      simp [hname, hne]

end Adopt

variable {c d : Catalog} {path : Path} {record : Option FileRecord} {name : String}

/-! ## Taking out a file -/

theorem owns_iff : owns c.entries path name ↔ ∃ v, c.entries[name]? = some v ∧ v.file = path := by
  simp [owns, Option.any_eq_true]

theorem filter_file_ne (c : Catalog) (path : Path) (name : String) :
    c.entries[name]?.filter (·.file != path) =
      if owns c.entries path name then none else c.entries[name]? := by
  rw [owns]
  cases c.entries[name]? with
  | none => rfl
  | some v =>
    by_cases hfile : v.file = path
    · simp [hfile]
    · simp [hfile]

/-- What is left of the entries when a file is taken out, and which names it leaves behind: those
that it owned. -/
theorem Consistent.erase_spec (h : c.Consistent) (path : Path) :
    (∀ name : String, (c.erase path).1.entries[name]? =
        c.entries[name]?.filter (·.file != path)) ∧
      (∀ name : String, name ∈ (c.erase path).2 ↔ owns c.entries path name) ∧
      (c.erase path).1.scanned = c.scanned.filter (· != path) := by
  -- An owner of a name has a record that defines the name.
  have hdefined {name : String} {v : Variable} (hv : c.entries[name]? = some v)
      (hfile : v.file = path) : c.definition? name path = some v := hfile ▸ h.entry_first hv
  cases hrecord : c.records[path]? with
  | none =>
    have herase : c.erase path = (c, []) := by simp [erase, hrecord]
    have hnone (name : String) : ¬owns c.entries path name := by
      intro howns
      obtain ⟨v, hv, hfile⟩ := owns_iff.mp howns
      have hdef := hdefined hv hfile
      simp [definition?, hrecord] at hdef
    have habsent : path ∉ c.scanned := by
      intro hmem
      have hin := TreeMap.mem_iff_isSome_getElem?.mp ((h.mem_scanned path).mp hmem)
      simp [hrecord] at hin
    rw [herase]
    refine ⟨fun name => ?_, fun name => by simp [hnone], ?_⟩
    · rw [filter_file_ne, if_neg (hnone name)]
    · refine (List.filter_eq_self.mpr fun p hp => ?_).symm
      simpa using ne_of_mem_of_not_mem hp habsent
  | some r =>
    have htaken (name : String) :
        takenBy r.defined path c.entries name = owns c.entries path name := by
      rw [Bool.eq_iff_iff]
      constructor
      · intro h
        exact (Bool.and_eq_true_iff.mp h).2
      · intro howns
        obtain ⟨v, hv, hfile⟩ := owns_iff.mp howns
        exact takenBy_of_definition? hrecord hv hfile.symm (hdefined hv hfile)
    refine ⟨fun name => ?_, fun name => ?_, scanned_erase hrecord⟩
    · rw [getElem?_entries_erase hrecord, htaken, filter_file_ne]
    · rw [mem_erase_snd hrecord, htaken]

/-! ## Putting a file in its place -/

/-- Register what a file contributes, if it contributes anything. -/
def put (c : Catalog) (path : Path) : Option FileRecord → Catalog
  | some r => c.insert path r
  | none => c

theorem replace_eq (c : Catalog) (path : Path) (record : Option FileRecord) :
    c.replace path record =
      { (c.erase path).2.foldl adopt ((c.erase path).1.put path record) with
        refreshed := true } := by
  cases record <;> rfl

theorem getElem?_entries_put (c : Catalog) (path : Path) (record : Option FileRecord)
    (name : String) :
    (c.put path record).entries[name]? = c.entries[name]?.or (record.bind (·.find? name)) := by
  cases record with
  | none => simp [put]
  | some r => exact getElem?_entries_insert c path r name

theorem scanned_put (h : path ∉ c.scanned) (record : Option FileRecord) :
    (c.put path record).scanned = c.scanned ++ if record.isSome then [path] else [] := by
  cases record with
  | none => simp [put]
  | some r => exact scanned_insert_of_not_mem c h r

theorem definition?_put (h : path ∉ c.records) (record : Option FileRecord) (name : String)
    (p : Path) :
    (c.put path record).definition? name p =
      if path = p then record.bind (·.find? name) else c.definition? name p := by
  cases record with
  | none =>
    split
    · rename_i heq
      subst heq
      simp [put, definition?, TreeMap.getElem?_eq_none h]
    · rfl
  | some r => exact definition?_insert c path p r name

/-! ## Replacing a file -/

/-- The files that are registered beside the one at `path`, in their order. -/
def others (c : Catalog) (path : Path) : List Path := c.scanned.filter (· != path)

/-- The catalog `d` is what becomes of `c` when the file at `path` contributes `record`, if
anything, instead of what it contributed before. -/
structure HandsOver (c : Catalog) (path : Path) (record : Option FileRecord) (d : Catalog) :
    Prop where
  /-- The names of other files stay with their definitions there. -/
  kept {name : String} {v : Variable} :
    c.entries[name]? = some v → v.file ≠ path → d.entries[name]? = some v
  /-- A name of the file, or of nobody, goes to the first definition of it that the file has now. -/
  taken {name : String} {v : Variable} :
    (∀ u ∈ c.entries[name]?, u.file = path) → record.bind (·.find? name) = some v →
      d.entries[name]? = some v ∧ v.file = path
  /-- Where the file has none, the name goes to the first of the other files that defines it, and to
  the first definition there. If there is no such file, the name is gone. -/
  passed {name : String} :
    (∀ u ∈ c.entries[name]?, u.file = path) → record.bind (·.find? name) = none →
      d.entries[name]? = (c.others path).findSome? (c.definition? name) ∧
        d.owner? name = (c.others path).find? fun p => (c.definition? name p).isSome
  records (p : Path) : d.records[p]? = if path = p then record else c.records[p]?
  scanned : d.scanned = c.others path ++ if record.isSome then [path] else []

/-- A name that nobody owns is defined nowhere. -/
theorem Consistent.definition?_eq_none (h : c.Consistent) (hnone : c.entries[name]? = none)
    (p : Path) : c.definition? name p = none := by
  cases hdef : c.definition? name p with
  | none => rfl
  | some v =>
    have hmem : name ∈ c.entries := by simpa using h.entry_or_pending hdef
    have hsome := TreeMap.mem_iff_isSome_getElem?.mp hmem
    simp [hnone] at hsome

/-- The entries of a catalog after a file is replaced: an entry of another file stays; else the file
comes first, and after it the others in their order. -/
theorem Consistent.getElem?_entries_replace (h : c.Consistent) (path : Path)
    (record : Option FileRecord) (name : String) :
    (c.replace path record).entries[name]? =
      (c.entries[name]?.filter (·.file != path)).or
        ((record.bind (·.find? name)).or ((c.others path).findSome? (c.definition? name))) := by
  obtain ⟨hentries, horphaned, hscanned⟩ := h.erase_spec path
  have hnotScanned : path ∉ (c.erase path).1.scanned := by
    rw [hscanned]
    simp
  have hnotRecords : path ∉ (c.erase path).1.records := by
    rw [TreeMap.mem_iff_isSome_getElem?, getElem?_records_erase]
    simp
  rw [replace_eq]
  simp only [getElem?_entries_foldl_adopt, getElem?_entries_put, hentries, horphaned]
  cases htaken : record.bind (·.find? name) with
  | some v => simp only [Option.or_assoc, Option.some_or]
  | none =>
    -- The file itself adds nothing to the search, though it is among those searched.
    have hsearch : ((c.erase path).1.put path record).scanned.findSome?
        (((c.erase path).1.put path record).definition? name) =
          (c.others path).findSome? (c.definition? name) := by
      have hdefinition (p : Path) : ((c.erase path).1.put path record).definition? name p =
          if path = p then none else c.definition? name p := by
        rw [definition?_put hnotRecords, htaken, definition?_erase]
        split <;> rfl
      have hown : (if record.isSome then [path] else []).findSome?
          (((c.erase path).1.put path record).definition? name) = none := by
        cases record <;> simp [hdefinition]
      rw [scanned_put hnotScanned, hscanned, List.findSome?_append, hown, Option.or_none]
      rw [← List.head?_filterMap, ← List.head?_filterMap]
      refine congrArg _ (List.filterMap_congr fun p hp => ?_)
      have hne : path ≠ p := Ne.symm (by simpa using (List.mem_filter.mp hp).2)
      rw [hdefinition, if_neg hne]
    rw [hsearch, Option.or_none, Option.none_or]
    split
    · rfl
    · rename_i hnot
      rw [filter_file_ne, if_neg hnot]
      cases hentry : c.entries[name]? with
      | some v => rfl
      | none =>
        -- What nobody owns is defined nowhere.
        have hnowhere : (c.others path).findSome? (c.definition? name) = none :=
          List.findSome?_eq_none_iff.mpr fun p _ => h.definition?_eq_none hentry p
        rw [hnowhere]

theorem Consistent.handsOver_replace (h : c.Consistent) (path : Path) (text : Option String) :
    c.HandsOver path (text.map (.ofText path)) (c.replace path (text.map (.ofText path))) := by
  have hentry (name : String) :=
    h.getElem?_entries_replace path (text.map (.ofText path)) name
  have hfree {name : String} (hown : ∀ u ∈ c.entries[name]?, u.file = path) :
      c.entries[name]?.filter (·.file != path) = none := by
    rw [Option.filter_eq_none_iff]
    intro u hu
    simpa using hown u hu
  refine ⟨?_, ?_, ?_, ?_, ?_⟩
  · intro name v hv hne
    rw [hentry, hv]
    simp [hne]
  · intro name v hown hv
    constructor
    · rw [hentry, hfree hown, hv]
      rfl
    · obtain ⟨r, hr, hfind⟩ := Option.bind_eq_some_iff.mp hv
      obtain ⟨content, -, rfl⟩ := Option.map_eq_some_iff.mp hr
      exact FileRecord.file_of_mem_ofSheet (FileRecord.mem_of_find? hfind)
  · intro name hown hnone
    have hfound := hentry name
    rw [hfree hown, hnone, Option.none_or, Option.none_or] at hfound
    refine ⟨hfound, ?_⟩
    rw [owner?, hfound]
    exact file_of_findSome? h.file_of_definition? (c.others path)
  · intro p
    exact getElem?_records_replace c path p _
  · obtain ⟨-, -, hscanned⟩ := h.erase_spec path
    rw [replace_eq]
    simp only [scanned_foldl_adopt]
    rw [scanned_put (by rw [hscanned]; simp), hscanned, others]

/-! ## Reading a file twice -/

/-- The catalogs agree in everything that can be looked up, and in the order of registration. -/
structure Same (c d : Catalog) : Prop where
  entries : c.entries.Equiv d.entries
  records : c.records.Equiv d.records
  scanned : c.scanned = d.scanned
  usage : c.usage.Equiv d.usage

/-- The counts of a consistent catalog follow from its totals. -/
theorem Consistent.getElem?_usage (h : c.Consistent) (name : String) :
    c.usage[name]? = if c.usageOf name = 0 then none else some (c.usageOf name) := by
  split
  · rename_i hzero
    exact (h.usage_positive.getElem?_eq_none_iff name).mpr hzero
  · rename_i hne
    rw [usageOf, UsageCounts.total] at hne ⊢
    cases hget : c.usage[name]? with
    | none => simp [hget] at hne
    | some n => rfl

theorem Consistent.same_of_records (hc : c.Consistent) (hd : d.Consistent)
    (hentries : ∀ name : String, c.entries[name]? = d.entries[name]?)
    (hrecords : ∀ p : Path, c.records[p]? = d.records[p]?) (hscanned : c.scanned = d.scanned) :
    c.Same d where
  entries := .of_forall_constGet?_eq hentries
  records := .of_forall_constGet?_eq hrecords
  scanned := hscanned
  usage := by
    refine .of_forall_constGet?_eq fun name => ?_
    rw [hc.getElem?_usage, hd.getElem?_usage, (SameContents.of_records hc hd hrecords).usage]

theorem HandsOver.record_self (h : c.HandsOver path record d) : d.records[path]? = record := by
  rw [h.records, if_pos rfl]

/-- A file that was replaced comes last. -/
theorem HandsOver.last (h : c.HandsOver path record d) :
    d.scanned = d.others path ++ if d.records[path]?.isSome then [path] else [] := by
  have hothers : d.others path = c.others path := by
    rw [others, h.scanned, List.filter_append, others, List.filter_filter]
    cases record <;> simp
  rw [h.record_self, hothers, h.scanned]

/-- A file that comes last, or is not there, may be put in its own place. -/
theorem HandsOver.same (hc : c.Consistent) (hd : d.Consistent)
    (h : c.HandsOver path c.records[path]? d)
    (hlast : c.scanned = c.others path ++ if c.records[path]?.isSome then [path] else []) :
    d.Same c := by
  refine hd.same_of_records hc (fun name => ?_) (fun p => ?_) (h.scanned.trans hlast.symm)
  · by_cases hown : ∀ u ∈ c.entries[name]?, u.file = path
    · cases hentry : c.entries[name]? with
      | some v =>
        have hfile : v.file = path := hown v hentry
        have hdef : c.records[path]?.bind (·.find? name) = some v := hfile ▸ hc.entry_first hentry
        exact (h.taken hown hdef).1
      | none =>
        rw [(h.passed hown (hc.definition?_eq_none hentry path)).1]
        exact List.findSome?_eq_none_iff.mpr fun p _ => hc.definition?_eq_none hentry p
    · push Not at hown
      obtain ⟨v, hv, hne⟩ := hown
      rw [h.kept hv hne]
      exact hv.symm
  · rw [h.records]
    split
    · rename_i heq
      rw [heq]
    · rfl

end Catalog

namespace Index

variable {ix : Index}

theorem handsOver_remove (h : ix.catalog.Consistent) (path : Path) :
    ix.catalog.HandsOver path.normalize none (ix.remove path).1.catalog := by
  have hreplaced := h.handsOver_replace path.normalize none
  rw [remove]
  split
  · exact hreplaced
  · rename_i habsent
    -- Replacing a file that is not there by nothing leaves only a mark.
    have hrecord : ix.catalog.records[path.normalize]? = none :=
      TreeMap.getElem?_eq_none_of_contains_eq_false (Bool.eq_false_iff.mpr habsent)
    have hmarked : ix.catalog.replace path.normalize none =
        { ix.catalog with refreshed := true } := by
      simp [Catalog.replace, Catalog.erase, hrecord]
    rw [Option.map_none, hmarked] at hreplaced
    exact ⟨hreplaced.kept, hreplaced.taken, hreplaced.passed, hreplaced.records,
      hreplaced.scanned⟩

theorem handsOver_update (h : ix.catalog.Consistent) (store : FileStore) (path : Path) :
    ix.catalog.HandsOver path.normalize (ix.readRecord? store path.normalize)
      (ix.update store path).catalog := by
  rw [readRecord?, Path.normalize_normalize]
  by_cases hselects : ix.filter.selects path.normalize
  · rw [if_pos ⟨rfl, hselects⟩, update, if_pos hselects]
    exact h.handsOver_replace path.normalize (store.read? path.normalize)
  · have hremoved := handsOver_remove h path.normalize
    rw [Path.normalize_normalize] at hremoved
    rw [if_neg fun hboth => hselects hboth.2, update, if_neg hselects]
    exact hremoved

/-- Reading a file again that has not changed since it was last read again changes nothing, whatever
happened to other files. -/
theorem same_update_update (h : ix.catalog.Consistent) {store later : FileStore} {path : Path}
    (hread : later.read? path.normalize = store.read? path.normalize) :
    ((ix.update store path).update later path).catalog.Same (ix.update store path).catalog := by
  have hfirst := handsOver_update h store path
  have hconsistent := consistent_update h store path
  have hsecond := handsOver_update hconsistent later path
  have hrecord : (ix.update store path).readRecord? later path.normalize =
      (ix.update store path).catalog.records[path.normalize]? := by
    rw [hfirst.record_self, readRecord?, readRecord?, filter_update, FileStore.record?,
      FileStore.record?, hread]
  rw [hrecord] at hsecond
  exact hsecond.same hconsistent (consistent_update hconsistent later path) hfirst.last

end Index

namespace Site

/-- At every moment of every run, let a file be read again, or taken out. Then the names of other
files stay with their definitions. A name that was the file's own, or nobody's, goes to the first
definition of it that the file has now, else to the first of the other files, in the order of their
registration, that defines it, else to nobody. The records of other files stay as they are. If the
file is then read again with the same text, nothing changes. -/
theorem names_change_hands_by_order (filter : PathFilter) (store : FileStore)
    (actions : List Action) (path : Path) :
    let s := (start filter store).run actions
    let p := path.normalize
    let updated := s.index.update s.store path
    (s.index.filter.selects p →
        s.index.catalog.HandsOver p (s.store.record? p) updated.catalog) ∧
      s.index.catalog.HandsOver p none (s.index.remove path).1.catalog ∧
      ∀ later : FileStore, later.read? p = s.store.read? p →
        (updated.update later path).catalog.Same updated.catalog := by
  intro s p updated
  have h : s.index.catalog.Consistent := ((consistent_start filter store).run actions).catalog
  refine ⟨?_, Index.handsOver_remove h path, fun later hread => Index.same_update_update h hread⟩
  intro hselects
  have hupdated := Index.handsOver_update h s.store path
  rwa [Index.readRecord?, if_pos ⟨Path.normalize_normalize path, hselects⟩] at hupdated

/-- Three files define `--x`, two of them twice. When the first one, its owner, defines it no
longer, the name goes to the first definition in the second one. -/
theorem names_change_hands_by_order_of_scan :
    let filter := (PathFilter.compile .standard (.ofString "/project") ["**/*.css"]
      []).toOption.getD (.empty (.ofString "/project"))
    let store := ((FileStore.empty.write "/project/a.css" "a \x7b --x: 1; --x: 2; --y: 3 \x7d").write
      "/project/b.css" "b \x7b --x: 4; --x: 5 \x7d").write "/project/c.css" "c \x7b --x: 6 \x7d"
    let a : Path := .ofString "/project/a.css"
    let b : Path := .ofString "/project/b.css"
    let s := (start filter store).run
      [.scan false, .write "/project/a.css" "a \x7b --z: 7; --y: 8 \x7d"]
    let updated := s.index.update s.store a
    (s.index.filter.selects a.normalize ∧ a.normalize = a ∧ s.index.catalog.owner? "--x" = some a) ∧
      updated.catalog.owner? "--x" = some b ∧
      updated.catalog.entries["--x"]?.map (·.value) = some "4" ∧
      (updated.update s.store a).catalog.Same updated.catalog := by
  intro filter store a b s updated
  obtain ⟨hupdated, -, hsame⟩ := names_change_hands_by_order filter store
    [.scan false, .write "/project/a.css" "a \x7b --z: 7; --y: 8 \x7d"] a
  have hbefore : s.index.filter.selects a.normalize ∧ a.normalize = a ∧
      s.index.catalog.owner? "--x" = some a := by
    decide +kernel
  have hown : ∀ u ∈ s.index.catalog.entries["--x"]?, u.file = a.normalize := by
    intro u hu
    have howner := hbefore.2.2
    rw [Catalog.owner?, Option.mem_def.mp hu] at howner
    rw [hbefore.2.1]
    exact Option.some.inj howner
  have hnone : (s.store.record? a.normalize).bind (·.find? "--x") = none := by decide +kernel
  have hnext : (s.index.catalog.others a.normalize).find?
      (fun p => (s.index.catalog.definition? "--x" p).isSome) = some b ∧
        ((s.index.catalog.others a.normalize).findSome?
          (s.index.catalog.definition? "--x")).map (·.value) = some "4" := by
    decide +kernel
  obtain ⟨hentry, howner⟩ := (hupdated hbefore.1).passed hown hnone
  exact ⟨hbefore, howner.trans hnext.1, (congrArg (Option.map _) hentry).trans hnext.2,
    hsame s.store rfl⟩

end Site

end StyleVars
