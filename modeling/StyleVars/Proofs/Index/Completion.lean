import StyleVars.Glob.Compiler
import StyleVars.Proofs.Index.Contents
import StyleVars.Proofs.Index.Site

/-!
# The order in which reads complete

A scan asks for all its files at once and registers each when its read completes, so the order of
registration is up to chance. What a file contributes does not depend on that order. The order
decides only to which file a name belongs: the first one read that defines it.

Two runs of one scan are compared here, with the same files and with the reads in any two orders.
-/

namespace StyleVars

open Std

namespace FileStore

/-- The first definition of a name in a file as it is now. -/
def definition? (store : FileStore) (name : String) (path : Path) : Option Variable :=
  (store.record? path).bind (·.find? name)

variable {store : FileStore} {name : String} {path : Path} {v : Variable}

theorem file_of_definition? (h : store.definition? name path = some v) : v.file = path := by
  obtain ⟨r, hr, hfind⟩ := Option.bind_eq_some_iff.mp h
  obtain ⟨text, _, rfl⟩ := Option.map_eq_some_iff.mp hr
  exact FileRecord.file_of_mem_ofSheet (FileRecord.mem_of_find? hfind)

end FileStore

namespace Catalog

/-- Every name belongs to the first of the files that defines it, and to the first definition
there. -/
structure FirstCome (c : Catalog) (store : FileStore) (order : List Path) : Prop where
  entry (name : String) : c.entries[name]? = order.findSome? (store.definition? name)
  owner (name : String) :
    c.owner? name = order.find? fun path => (store.definition? name path).isSome

theorem FirstCome.of_entries {c : Catalog} {store : FileStore} {order : List Path}
    (h : ∀ name : String, c.entries[name]? = order.findSome? (store.definition? name)) :
    c.FirstCome store order := by
  refine ⟨h, fun name => ?_⟩
  rw [owner?, h name]
  exact file_of_findSome? FileStore.file_of_definition? order

end Catalog

namespace Scan

variable {s : Scan} {store : FileStore}

/-- A read gives a name to the file only if no file read before defines it. -/
theorem getElem?_entries_read (path : Path) (name : String) :
    (s.read store path).found.entries[name]? =
      s.found.entries[name]?.or (store.definition? name path) := by
  unfold read FileStore.definition? FileStore.record?
  cases store.read? path with
  | none => simp
  | some text => exact Catalog.getElem?_entries_insert s.found path (.ofText path text) name

theorem getElem?_entries_readEach (order : List Path) (name : String) :
    (s.readEach store order).found.entries[name]? =
      s.found.entries[name]?.or (order.findSome? (store.definition? name)) := by
  induction order generalizing s with
  | nil => simp [readEach]
  | cons path rest ih =>
    have hrest := ih (s := s.read store path)
    rw [getElem?_entries_read, Option.or_assoc] at hrest
    refine hrest.trans ?_
    rw [List.findSome?_cons]
    cases store.definition? name path <;> rfl

end Scan

namespace Site

variable {s : Site} {n : Nat} {scan : Scan}

theorem read_of_mem {path : Path} (hscan : s.scans[n]? = some scan) (hpath : path ∈ scan.pending) :
    (s.read n path).scans[n]? = some (scan.read s.store path) ∧ (s.read n path).store = s.store := by
  obtain ⟨hlt, rfl⟩ := List.getElem?_eq_some_iff.mp hscan
  simp [read, hlt, hpath]

/-- When the reads of a scan complete one after the other, the scan has read its files in that
order. -/
theorem run_reads {order : List Path} (hscan : s.scans[n]? = some scan)
    (horder : order.Perm scan.pending) :
    (s.run (order.map (.read n))).scans[n]? = some (scan.readEach s.store order) := by
  induction order generalizing s scan with
  | nil => exact hscan
  | cons path rest ih =>
    obtain ⟨hpath, hrest⟩ := List.cons_perm_iff_perm_erase.mp horder
    obtain ⟨hread, hstore⟩ := read_of_mem hscan hpath
    have hlater := ih hread hrest
    rw [hstore] at hlater
    exact hlater

/-- The reads of the scan with this number complete in this order, and the scan finishes. -/
def completeScan (s : Site) (n : Nat) (order : List Path) : Site :=
  s.run (order.map (.read n) ++ [.finishScan n])

theorem catalog_completeScan {order : List Path} (hscan : s.scans[n]? = some scan)
    (hconsistent : scan.Consistent) (horder : order.Perm scan.pending) :
    (s.completeScan n order).index.catalog =
      { (scan.readEach s.store order).found with refreshed := true } := by
  have hreads := run_reads hscan horder
  obtain ⟨_, hpending, _⟩ := hconsistent.readEach s.store horder
  rw [completeScan, run, List.foldl_append]
  change (finishScan (s.run (order.map (.read n))) n).index.catalog = _
  simp [finishScan, hreads, hpending, Index.finishScan]

variable {files : List Path}

/-- What a scan installs that began with these files: the record of each as it is now, and for each
name the first definition that was read. -/
theorem completeScan_spec {order : List Path} (hscan : s.scans[n]? = some ⟨files, .empty⟩)
    (hdistinct : files.Nodup) (horder : order.Perm files) :
    let c := (s.completeScan n order).index.catalog
    c.Consistent ∧
      (∀ p : Path, c.records[p]? = if p ∈ files then s.store.record? p else none) ∧
      c.FirstCome s.store order := by
  intro c
  have hbegun : (⟨files, .empty⟩ : Scan).Consistent :=
    ⟨.empty, hdistinct, fun _ => by simp [Catalog.empty]⟩
  have hc : c = { ((⟨files, .empty⟩ : Scan).readEach s.store order).found with refreshed := true } :=
    catalog_completeScan hscan hbegun horder
  obtain ⟨hconsistent, _, hrecords⟩ := hbegun.readEach s.store horder
  rw [hc]
  refine ⟨hconsistent.found.refreshed true, fun p => (hrecords p).trans ?_, .of_entries ?_⟩
  · simp [horder.mem_iff, Catalog.empty]
  · intro name
    refine (Scan.getElem?_entries_readEach order name).trans ?_
    simp [Catalog.empty]

/-- Let a scan have begun with some files, none of them twice, and let their reads complete in two
orders. The two indexes have the same names, the same record of each file, the same number of uses
of each name and the same files. In each of them a name belongs to the first file in the order of
completion that defines it, and to the first definition there. -/
theorem completion_order_decides_only_owners {first second : List Path}
    (hscan : s.scans[n]? = some ⟨files, .empty⟩) (hdistinct : files.Nodup)
    (hfirst : first.Perm files) (hsecond : second.Perm files) :
    let c := (s.completeScan n first).index.catalog
    let d := (s.completeScan n second).index.catalog
    c.SameContents d ∧ c.FirstCome s.store first ∧ d.FirstCome s.store second := by
  intro c d
  obtain ⟨hc, hrecords, hcome⟩ := completeScan_spec hscan hdistinct hfirst
  obtain ⟨hd, hrecords', hcome'⟩ := completeScan_spec hscan hdistinct hsecond
  refine ⟨.of_records hc hd fun p => ?_, hcome, hcome'⟩
  exact (hrecords p).trans (hrecords' p).symm

/-- Two files define a name, one of them twice, and one file cannot be read. The name belongs to the
file that is read first. -/
theorem completion_order_decides_owner_of_shared_name :
    let filter := (PathFilter.compile .standard (.ofString "/project") ["**/*.css"]
      []).toOption.getD (.empty (.ofString "/project"))
    let store := (((FileStore.empty.write "/project/a.css" "a \x7b --x: 1; --x: 2 \x7d").write
      "/project/b.css" "b \x7b --x: 3; color: var(--x) \x7d").write
      "/project/c.css" "c \x7b --x: 4 \x7d").setUnreadable "/project/c.css" true
    let a : Path := .ofString "/project/a.css"
    let b : Path := .ofString "/project/b.css"
    let c : Path := .ofString "/project/c.css"
    let s := (start filter store).beginScan false
    let first := (s.completeScan 0 [a, b, c]).index.catalog
    let second := (s.completeScan 0 [c, b, a]).index.catalog
    first.SameContents second ∧
      (first.owner? "--x" = some a ∧ first.entries["--x"]?.map (·.value) = some "1") ∧
      second.owner? "--x" = some b ∧ second.entries["--x"]?.map (·.value) = some "3" := by
  intro filter store a b c s first second
  have hfiles : (Index.empty filter).filesToScan store = [a, b, c] := by decide +kernel
  have hscan : s.scans[0]? = some ⟨[a, b, c], .empty⟩ := by
    rw [← hfiles]
    rfl
  have hdistinct : [a, b, c].Nodup := by decide +kernel
  have horder : [c, b, a].Perm [a, b, c] := by decide +kernel
  obtain ⟨hsame, hfirst, hsecond⟩ :=
    completion_order_decides_only_owners hscan hdistinct (.refl [a, b, c]) horder
  refine ⟨hsame, ?_, ?_⟩
  · rw [hfirst.owner, hfirst.entry]
    decide +kernel
  · rw [hsecond.owner, hsecond.entry]
    decide +kernel

end Site

end StyleVars
