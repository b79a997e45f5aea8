import StyleVars.Glob.Compiler
import StyleVars.Proofs.Index.Contents
import StyleVars.Proofs.Sheet.Order
import StyleVars.Proofs.Workspace.Session

/-!
# Undefined variables

The references that are reported as undefined are those to names that no file of the workspace
defines, nor the text itself where that counts. Between the two stand the index, which is kept in
step with the files, and the caches. This holds at every moment at which the index is up to date,
after whatever steps brought it there.
-/

namespace StyleVars

open Std

/-- The name that a finding says is not defined. -/
def Finding.undefined? : Finding → Option String
  | .undefinedVariable name _ => some name
  | _ => none

/-- Where a name stands that is not defined. -/
def Diagnostic.undefined? (d : Diagnostic) : Option (Range × String) :=
  d.finding.undefined?.map (d.range, ·)

/-- Whether a file that the filter selects, and that can be read, defines the name. -/
def FileStore.defines (store : FileStore) (filter : PathFilter) (name : String) : Bool :=
  (store.find filter).any fun path =>
    (store.read? (.ofString path)).any fun text => (Sheet.ofString text).defines name

namespace Sheet

theorem defines_iff {sheet : Sheet} {name : String} (path : Path) :
    sheet.defines name ↔ ∃ v ∈ (FileRecord.ofSheet path sheet).defined, v.name = name := by
  simp [defines, FileRecord.ofSheet]

end Sheet

namespace Index

variable {ix : Index} {store : FileStore}

/-- The names of an index that is up to date are those that the files define. -/
theorem UpToDate.mem_entries_iff (h : ix.UpToDate store) (hc : ix.catalog.Consistent)
    (name : String) : name ∈ ix.catalog.entries ↔ store.defines ix.filter name := by
  rw [hc.mem_entries_iff]
  simp only [FileStore.defines, List.any_eq_true, Option.any_eq_true]
  constructor
  · rintro ⟨p, r, hrecord, hdefined⟩
    rw [h p, scannedRecord?] at hrecord
    split at hrecord
    · rename_i hfile
      obtain ⟨path, hlisted, rfl, hselects⟩ := (ix.mem_filesToScan store).mp hfile
      obtain ⟨text, hread, rfl⟩ := Option.map_eq_some_iff.mp hrecord
      refine ⟨path, List.mem_filter.mpr ⟨hlisted, hselects⟩, text, ?_, ?_⟩
      · rwa [FileStore.key, FileStore.read?_normalize] at hread
      · exact (Sheet.defines_iff _).mpr hdefined
    · cases hrecord
  · rintro ⟨path, hfind, text, hread, hdefines⟩
    obtain ⟨hlisted, hselects⟩ := List.mem_filter.mp hfind
    refine ⟨FileStore.key path, .ofText (FileStore.key path) text, ?_,
      (Sheet.defines_iff _).mp hdefines⟩
    rw [h, scannedRecord?, if_pos ((ix.mem_filesToScan store).mpr ⟨path, hlisted, rfl, hselects⟩),
      FileStore.record?, FileStore.key, FileStore.read?_normalize, hread]
    rfl

end Index

namespace Settings

variable (s : Settings) (catalog : Catalog)

/-- Only the first group of findings is about names that are not defined. -/
theorem filterMap_undefined?_diagnose (text : String) :
    (s.diagnose catalog text).filterMap (·.undefined?) =
      ((Sheet.ofString text).usages.filter fun u =>
        !s.isDefined catalog (.ofString text) u.reference.name).map fun u =>
          (u.range, u.reference.name) := by
  have hliterals (candidates : List Candidate) (ls : List LiteralUse) :
      (ls.map (s.literalDiagnostic candidates)).filterMap (·.undefined?) = [] := by
    rw [List.filterMap_eq_nil_iff]
    intro d hd
    obtain ⟨l, _, rfl⟩ := List.mem_map.mp hd
    rw [Diagnostic.undefined?, literalDiagnostic]
    cases l.isFallback <;> rfl
  have hduplicates : (s.duplicateRules (.ofString text)).filterMap (·.undefined?) = [] := by
    rw [List.filterMap_eq_nil_iff]
    intro d hd
    obtain ⟨name, _, hd⟩ := List.mem_flatMap.mp hd
    obtain ⟨r, _, rfl⟩ := List.mem_map.mp hd
    rfl
  have hproblems : (s.problemDiagnostics (.ofString text)).filterMap (·.undefined?) = [] := by
    rw [List.filterMap_eq_nil_iff]
    intro d hd
    obtain ⟨p, _, rfl⟩ := List.mem_map.mp hd
    rfl
  have husages : (s.undefinedUsages catalog (.ofString text)).filterMap (·.undefined?) =
      ((Sheet.ofString text).usages.filter fun u =>
        !s.isDefined catalog (.ofString text) u.reference.name).map fun u =>
          (u.range, u.reference.name) := by
    rw [undefinedUsages, List.filterMap_map, ← List.filterMap_eq_map]
    rfl
  rw [diagnose, check, List.filterMap_append, List.filterMap_append, List.filterMap_append,
    hliterals, hduplicates, hproblems, husages, List.append_nil, List.append_nil, List.append_nil]

end Settings

namespace Session

/-- The references of a text that should be reported: the name is defined neither by a file that
belongs to the workspace nor, where that counts, by the text. -/
def undefinedUsages (s : Session) (text : String) : List Usage :=
  (Sheet.ofString text).usages.filter fun u =>
    !s.store.defines s.index.filter u.reference.name &&
      !(s.workspace.settings.allowLocalDefinitions &&
        (Sheet.ofString text).defines u.reference.name)

theorem Sound.filterMap_undefined?_analyze {s : Session} (h : s.Sound)
    (hcurrent : s.index.UpToDate s.store) (text : String) (path : Path) :
    (s.workspace.analyze text path).2.filterMap (·.undefined?) =
      (s.undefinedUsages text).map fun u => (u.range, u.reference.name) := by
  rw [(h.workspace.analyze text path).1, Settings.filterMap_undefined?_diagnose, undefinedUsages]
  congr 2
  funext u
  have hnames : s.workspace.index.catalog.entries.contains u.reference.name =
      s.store.defines s.index.filter u.reference.name := by
    rw [Bool.eq_iff_iff]
    exact TreeMap.contains_iff_mem.trans
      (hcurrent.mem_entries_iff h.workspace.consistent u.reference.name)
  rw [Settings.isDefined, hnames, Bool.not_or]

/-- A scan brings the index up to date, and an analysis leaves it as it is. -/
theorem Sound.upToDate_scan_analyze {s : Session} (h : s.Sound) (steps : List Step) {force : Bool}
    (hmay : (s.afterAll steps).index.mayScan force) (text path : String) :
    let last := s.afterAll (steps ++ [.scan force, .analyze text path])
    last.index.UpToDate last.store := by
  intro last
  have hlast : last = ((s.afterAll steps).after (.scan force)).after (.analyze text path) :=
    List.foldl_append
  have hindex := (((h.afterAll steps).after (.scan force)).workspace.analyze text
    (.ofString path)).2.2
  have hscan : last.index = (s.afterAll steps).index.scan (s.afterAll steps).store force := by
    rw [hlast]
    exact hindex
  have hstore : last.store = (s.afterAll steps).store := by rw [hlast]; rfl
  rw [hscan, hstore]
  exact Index.upToDate_scan hmay

/-- Whenever the index is up to date with the files, the references that are reported as undefined
are exactly those to names that nothing defines, each once, at its own place and in the order of the
text. The steps before may have been any, and so may what is cached. -/
theorem analyze_reports_undefined_usages {compiler : GlobCompiler} {root : Path}
    {settings : Settings} {w : Workspace}
    (hcreate : Workspace.create compiler root settings = .ok w) (store : FileStore) (steps : List Step)
    (hcurrent : ((start w store).afterAll steps).index.UpToDate
      ((start w store).afterAll steps).store) (text : String) (path : Path) :
    let s := (start w store).afterAll steps
    let found := (s.workspace.analyze text path).2.filterMap (·.undefined?)
    (found = (s.undefinedUsages text).map fun u =>
        ((LineTable.ofString text).rangeOf u.reference.source, u.reference.name)) ∧
      found.Pairwise fun a b => a.1.stop ≤ b.1.start := by
  intro s found
  have hsound : s.Sound := (sound_start hcreate store).afterAll steps
  have hfound : found = (s.undefinedUsages text).map fun u =>
      ((LineTable.ofString text).rangeOf u.reference.source, u.reference.name) := by
    refine (hsound.filterMap_undefined?_analyze hcurrent text path).trans ?_
    refine List.map_congr_left fun u hu => ?_
    rw [Sheet.range_of_mem_usages (List.mem_of_mem_filter hu)]
    rfl
  refine ⟨hfound, ?_⟩
  have hordered := (Sheet.inOrder_usages text.toList).sublist
    (List.filter_sublist : (s.undefinedUsages text).Sublist _)
  rw [hfound, List.pairwise_map]
  exact hordered.ordered.imp fun hle => LineTable.position_mono _ hle

/-- A definition is edited away between two scans, and the text is analyzed before and after. The
second analysis, from the cache, reports the one reference that is left without a definition. -/
theorem analyze_reports_undefined_usages_after_edit :
    ∃ w, Workspace.create .standard (.ofString "/project") .byDefault = .ok w ∧
      let store := (FileStore.empty.write "/project/a.css" "a \x7b --x: 1 \x7d").write
        "/project/b.css" "b \x7b --y: 2 \x7d"
      let text := "c \x7b color: var(--y); margin: var(--x) \x7d"
      let s := (start w store).afterAll [.scan false, .analyze text "/project/c.css",
        .write "/project/a.css" "a \x7b --z: 1 \x7d", .scan true, .analyze text "/project/c.css"]
      s.index.UpToDate s.store ∧
        (s.workspace.analyze text (.ofString "/project/c.css")).2.filterMap (·.undefined?) =
          [(⟨⟨0, 29⟩, ⟨0, 37⟩⟩, "--x")] := by
  have hrun : (Workspace.create .standard (.ofString "/project") .byDefault).toOption.any (fun w =>
      let store := (FileStore.empty.write "/project/a.css" "a \x7b --x: 1 \x7d").write
        "/project/b.css" "b \x7b --y: 2 \x7d"
      let text := "c \x7b color: var(--y); margin: var(--x) \x7d"
      let before := (start w store).afterAll [.scan false, .analyze text "/project/c.css",
        .write "/project/a.css" "a \x7b --z: 1 \x7d"]
      let s := (start w store).afterAll [.scan false, .analyze text "/project/c.css",
        .write "/project/a.css" "a \x7b --z: 1 \x7d", .scan true,
        .analyze text "/project/c.css"]
      before.index.mayScan true && decide ((s.undefinedUsages text).map (fun u =>
        ((LineTable.ofString text).rangeOf u.reference.source, u.reference.name)) =
          [(⟨⟨0, 29⟩, ⟨0, 37⟩⟩, "--x")])) = true := by
    decide +kernel
  obtain ⟨w, hcreate, hchecked⟩ := Workspace.exists_create_of_any hrun
  simp only [Bool.and_eq_true, decide_eq_true_eq] at hchecked
  obtain ⟨hmay, hfound⟩ := hchecked
  have hcurrent := (sound_start hcreate _).upToDate_scan_analyze _ hmay
    "c \x7b color: var(--y); margin: var(--x) \x7d" "/project/c.css"
  have hreported := (analyze_reports_undefined_usages hcreate _ _ hcurrent _
    (.ofString "/project/c.css")).1.trans hfound
  exact ⟨w, hcreate, hcurrent, hreported⟩

end Session

end StyleVars
