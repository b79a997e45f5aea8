import StyleVars.Proofs.Path.Location
import StyleVars.Proofs.Workspace.Settings

/-!
# Paths as keys

The index knows each file by the normal form of its path. A path in normal form is left as it is, so
it does not matter how often a path is normalized before it is used. A scan reads files at normal
paths, and an update or a removal touches the record at the normal form of its path only; hence
every key is normal after any steps of a session.
-/

namespace StyleVars

open Std

/-! ## Normal paths -/

namespace Path

theorem foldl_push_names (done : List PathComponent) (names : List String) :
    (names.map PathComponent.name).foldl push done =
      (names.map PathComponent.name).reverse ++ done := by
  induction names generalizing done with
  | nil => rfl
  | cons n names ih =>
    rw [List.map_cons, List.foldl_cons, ih, List.reverse_cons, List.append_assoc]
    rfl

theorem IsNormal.normalize_eq {p : Path} (h : p.IsNormal) : p.normalize = p := by
  obtain ⟨components⟩ := p
  obtain ⟨top, htop, names, rfl, -⟩ := h
  have hpushed : top.foldl push [] = top.reverse := by
    simp only [tops, List.mem_cons, List.not_mem_nil, or_false] at htop
    rcases htop with rfl | rfl | rfl | rfl <;> rfl
  rw [normalize, List.foldl_append, hpushed, foldl_push_names, List.reverse_append,
    List.reverse_reverse, List.reverse_reverse]

/-- The normal paths are those that normalization leaves as they are. -/
theorem normalize_eq_iff (s : String) :
    (ofString s).normalize = ofString s ↔ (ofString s).IsNormal := by
  constructor
  · intro h
    rw [← h]
    exact isNormal_normalize s.toList
  · exact IsNormal.normalize_eq

namespace IsNormal

variable {p : Path}

theorem current_not_mem (h : p.IsNormal) : .current ∉ p.components := by
  obtain ⟨top, htop, names, hcomponents, -⟩ := h
  have htops : tops.all (.current ∉ ·) = true := by decide
  have hnames : PathComponent.current ∉ names.map .name := by simp
  rw [hcomponents, List.mem_append, not_or]
  exact ⟨of_decide_eq_true (List.all_eq_true.mp htops top htop), hnames⟩

theorem count_parent_le_one (h : p.IsNormal) : p.components.count .parent ≤ 1 := by
  obtain ⟨top, htop, names, hcomponents, -⟩ := h
  have htops : tops.all (·.count .parent ≤ 1) = true := by decide
  have hnames : (names.map PathComponent.name).count .parent = 0 :=
    List.count_eq_zero.mpr (by simp)
  rw [hcomponents, List.count_append, hnames, Nat.add_zero]
  exact of_decide_eq_true (List.all_eq_true.mp htops top htop)

/-- A reference to a parent stands at the start or right after the root. -/
theorem before_parent (h : p.IsNormal) {before after : List PathComponent}
    (hparent : p.components = before ++ .parent :: after) : before = [] ∨ before = [.root] := by
  obtain ⟨top, htop, names, hcomponents, -⟩ := h
  have hnames : PathComponent.parent ∉ names.map .name := by simp
  have hsplit : ∃ rest, top = before ++ .parent :: rest := by
    rw [hparent] at hcomponents
    obtain ⟨between, rfl, hrest⟩ | ⟨between, -, hrest⟩ := List.append_eq_append_iff.mp hcomponents
    · cases between with
      | nil =>
        rw [List.nil_append] at hrest
        exact absurd (hrest ▸ List.mem_cons_self) hnames
      | cons c rest =>
        cases hrest
        exact ⟨rest, rfl⟩
    · exact absurd (hrest ▸ List.mem_append_right _ List.mem_cons_self) hnames
  obtain ⟨rest, rfl⟩ := hsplit
  rcases before with _ | ⟨a, _ | ⟨b, before⟩⟩ <;> simp_all [tops]

end IsNormal

end Path

/-! ## Operations on a path -/

namespace Index

variable (ix : Index) (store : FileStore) (p : Path)

theorem update_normalize : ix.update store p.normalize = ix.update store p := by
  simp [update]

theorem remove_normalize : ix.remove p.normalize = ix.remove p := by
  simp [remove]

end Index

theorem Catalog.definedIn_normalize (c : Catalog) (p : Path) :
    c.definedIn p.normalize = c.definedIn p := by
  simp [definedIn]

/-! ## Keys of the index -/

/-- Every file is known by a normal path. -/
def Catalog.KeysNormal (c : Catalog) : Prop :=
  ∀ (p : Path) (r : FileRecord), c.records[p]? = some r → p.IsNormal

/-- The scan reads files at normal paths. -/
structure Scan.KeysNormal (s : Scan) : Prop where
  found : s.found.KeysNormal
  pending {p : Path} : p ∈ s.pending → p.IsNormal

namespace Catalog.KeysNormal

variable {c : Catalog}

theorem empty : Catalog.empty.KeysNormal := by
  intro p r h
  simp [Catalog.empty] at h

/-- Only a normal path may get a record. -/
theorem of_getElem? {d : Catalog} {path : Path} (h : c.KeysNormal) (hpath : path.IsNormal)
    (hother : ∀ p : Path, path ≠ p → d.records[p]? = c.records[p]?) : d.KeysNormal := by
  intro p r hr
  by_cases hp : path = p
  · exact hp ▸ hpath
  · exact h p r (hother p hp ▸ hr)

end Catalog.KeysNormal

namespace Scan.KeysNormal

variable {s : Scan}

theorem read (h : s.KeysNormal) {path : Path} (hpath : path.IsNormal) (store : FileStore) :
    (s.read store path).KeysNormal where
  found := h.found.of_getElem? hpath fun p hp => by rw [getElem?_records_read, if_neg hp]
  pending hp := h.pending (List.mem_of_mem_erase hp)

theorem readAll (h : s.KeysNormal) (store : FileStore) : (s.readAll store).KeysNormal := by
  have hpaths : ∀ p ∈ s.pending, p.IsNormal := fun p => h.pending
  rw [Scan.readAll]
  generalize s.pending = paths at hpaths
  induction paths generalizing s with
  | nil => exact h
  | cons path rest ih =>
    obtain ⟨hpath, hrest⟩ := List.forall_mem_cons.mp hpaths
    exact ih (h.read hpath store) hrest

end Scan.KeysNormal

namespace Index

variable {ix : Index}

theorem isNormal_of_mem_filesToScan {store : FileStore} {p : Path} (h : p ∈ ix.filesToScan store) :
    p.IsNormal := by
  obtain ⟨path, -, rfl, -⟩ := (ix.mem_filesToScan store).mp h
  exact Path.isNormal_normalize path.toList

theorem keysNormal_beginScan (ix : Index) (store : FileStore) :
    (ix.beginScan store).2.KeysNormal where
  found := .empty
  pending := isNormal_of_mem_filesToScan

theorem keysNormal_scan (h : ix.catalog.KeysNormal) (store : FileStore) (force : Bool) :
    (ix.scan store force).catalog.KeysNormal := by
  rw [scan]
  split
  · exact ((ix.keysNormal_beginScan store).readAll store).found
  · exact h

theorem keysNormal_remove (h : ix.catalog.KeysNormal) (path : String) :
    (ix.remove (.ofString path)).1.catalog.KeysNormal :=
  h.of_getElem? (Path.isNormal_normalize path.toList) fun p hp => by
    rw [getElem?_records_remove]
    exact if_neg hp

theorem keysNormal_update (h : ix.catalog.KeysNormal) (store : FileStore) (path : String) :
    (ix.update store (.ofString path)).catalog.KeysNormal :=
  h.of_getElem? (Path.isNormal_normalize path.toList) fun p hp => by
    rw [getElem?_records_reread]
    exact if_neg hp

end Index

namespace Workspace

variable {w : Workspace}

theorem keysNormal_handleEvent (h : w.index.catalog.KeysNormal) (store : FileStore)
    (e : FileEvent) : (w.handleEvent store e).index.catalog.KeysNormal := by
  cases e with
  | created path => exact Index.keysNormal_update h store path
  | changed path => exact Index.keysNormal_update h store path
  | deleted path => exact Index.keysNormal_remove h path
  | headMoved =>
    rw [handleEvent, Index.catalog_invalidate]
    exact h

theorem keysNormal_handleEvents (h : w.index.catalog.KeysNormal) (store : FileStore)
    (events : List FileEvent) : (w.handleEvents store events).index.catalog.KeysNormal := by
  have hfold : (events.foldl (handleEvent store) w).index.catalog.KeysNormal := by
    induction events generalizing w with
    | nil => exact h
    | cons e rest ih => exact ih (keysNormal_handleEvent h store e)
  rw [handleEvents]
  split
  · exact Index.keysNormal_scan hfold store false
  · exact hfold

end Workspace

namespace Session

/-- All files are known by normal paths, also those of a scan that is held. -/
structure KeysNormal (s : Session) : Prop where
  index : s.index.catalog.KeysNormal
  held {scan : Scan} : s.held = some (.running scan) → scan.KeysNormal

variable {s : Session}

/-- The catalog gets no new keys. -/
theorem KeysNormal.of_catalog_eq {next : Session} (h : s.KeysNormal) (hheld : next.held = s.held)
    (hcatalog : next.index.catalog = s.index.catalog) : next.KeysNormal where
  index := hcatalog ▸ h.index
  held hrunning := h.held (hheld ▸ hrunning)

theorem KeysNormal.setGlobs (h : s.KeysNormal) (included excluded : List String) :
    (s.setGlobs included excluded).1.KeysNormal := by
  rw [Session.setGlobs]
  split
  · exact h.of_catalog_eq rfl (Index.catalog_setFilter _)
  · exact h

theorem KeysNormal.beginScan (h : s.KeysNormal) (force : Bool) :
    (s.beginScan force).KeysNormal := by
  have hscan := s.index.keysNormal_beginScan s.store
  rw [Session.beginScan]
  split
  · dsimp only
    split
    · exact ⟨hscan.found, fun hrunning => by cases hrunning⟩
    · exact ⟨h.index, fun hrunning => by cases hrunning; exact hscan⟩
  · exact ⟨h.index, fun hrunning => by cases hrunning⟩

theorem KeysNormal.release (h : s.KeysNormal) (path : Path) : (s.release path).1.KeysNormal := by
  rw [Session.release]
  split
  · rename_i scan hheld
    split
    · -- Only a file that is pending is read.
      rename_i hpath
      have hscan := h.held hheld
      have hread := hscan.read (hscan.pending (List.contains_iff_mem.mp hpath)) s.store
      dsimp only
      split
      · exact ⟨hread.found, fun hrunning => by cases hrunning⟩
      · exact ⟨h.index, fun hrunning => by cases hrunning; exact hread⟩
    · exact h
  · exact h

theorem KeysNormal.finishScan (h : s.KeysNormal) {held : HeldScan} (hheld : s.held = some held) :
    (s.finishScan held).1.KeysNormal := by
  cases held with
  | running scan =>
    exact ⟨((h.held hheld).readAll s.store).found, fun hrunning => by cases hrunning⟩
  | _ => exact ⟨h.index, fun hrunning => by cases hrunning⟩

theorem KeysNormal.after (h : s.KeysNormal) (step : Step) : (s.after step).KeysNormal := by
  cases step with
  | scan force => exact ⟨Index.keysNormal_scan h.index s.store force, h.held⟩
  | beginScan force =>
    cases hheld : s.held with
    | none => simpa [Session.after, run, hheld] using h.beginScan force
    | some held => simpa [Session.after, run, hheld] using h
  | release path => exact h.release _
  | finishScan =>
    cases hheld : s.held with
    | none => simpa [Session.after, run, hheld] using h
    | some held => simpa [Session.after, run, hheld] using h.finishScan hheld
  | update path => exact ⟨Index.keysNormal_update h.index s.store path, h.held⟩
  | remove path => exact ⟨Index.keysNormal_remove h.index path, h.held⟩
  | events events => exact ⟨Workspace.keysNormal_handleEvents h.index s.store events, h.held⟩
  | dispose => exact ⟨.empty, h.held⟩
  | invalidate => exact h.of_catalog_eq rfl Index.catalog_invalidate
  | selectNothing => exact h.of_catalog_eq rfl (Index.catalog_setFilter _)
  | setGlobs included excluded => exact h.setGlobs included excluded
  | applySettings settings =>
    rcases s.run_applySettings_cases settings with ⟨_, _, hrun⟩ | ⟨filter, _, hrun⟩
    · rw [Session.after, hrun]
      exact h
    · rw [Session.after, hrun]
      exact h.of_catalog_eq rfl (Index.catalog_setFilter filter)
  | analyze text path =>
    obtain ⟨_, _, hanalyze⟩ := s.workspace.exists_analyze_eq text (.ofString path)
    exact h.of_catalog_eq rfl (congrArg (·.index.catalog) hanalyze)
  | analyzeProject =>
    have hcatalog := congrArg Index.catalog (s.workspace.index_analyzeProject s.store)
    exact h.of_catalog_eq rfl hcatalog
  | _ =>
    -- The other steps leave the catalog and a held scan alone.
    exact ⟨h.index, h.held⟩

theorem keysNormal_start {compiler : GlobCompiler} {root : Path} {settings : Settings}
    {w : Workspace} (h : Workspace.create compiler root settings = .ok w) (store : FileStore) :
    (start w store).KeysNormal where
  index := by
    obtain ⟨filter, -, rfl⟩ := Workspace.exists_create_eq h
    exact .empty
  held hrunning := by cases hrunning

theorem KeysNormal.afterAll (h : s.KeysNormal) (steps : List Step) :
    (s.afterAll steps).KeysNormal := by
  induction steps generalizing s with
  | nil => exact h
  | cons step rest ih => exact ih (h.after step)

/-- Every file is known by the normal form of its path, whichever spelling of the path is used.
Normalizing a second time changes nothing, the normal form is read back from its text, and the paths
in normal form are those that normalization leaves as they are. A normal form has no reference to
the current directory and at most one to a parent, at the start or right after the root. Filters,
updates, removals and look-ups do the same for a path and for its normal form, and an update or a
removal touches the record of no other key. After any steps of a session, all keys are normal. -/
theorem files_known_by_normal_form {compiler : GlobCompiler} {root : Path} {settings : Settings}
    {w : Workspace} (hcreate : Workspace.create compiler root settings = .ok w) (store : FileStore)
    (steps : List Step) (s : String) :
    let p := Path.ofString s
    let key := p.normalize
    let ix := ((start w store).afterAll steps).index
    (key.normalize = key ∧ Path.ofString key.text = key ∧ (key = p ↔ p.IsNormal)) ∧
      (.current ∉ key.components ∧ key.components.count .parent ≤ 1 ∧
        ∀ before after, key.components = before ++ .parent :: after →
          before = [] ∨ before = [.root]) ∧
      (∀ filter : PathFilter, filter.selects key = filter.selects p) ∧
      (∀ files, ix.update files key = ix.update files p) ∧
      ix.remove key = ix.remove p ∧ ix.catalog.definedIn key = ix.catalog.definedIn p ∧
      (∀ q, key ≠ q → (ix.remove p).1.catalog.records[q]? = ix.catalog.records[q]? ∧
        ∀ files, (ix.update files p).catalog.records[q]? = ix.catalog.records[q]?) ∧
      ∀ (q : Path) (r : FileRecord), ix.catalog.records[q]? = some r →
        q.IsNormal ∧ q.normalize = q := by
  intro p key ix
  have hkey : key.IsNormal := Path.isNormal_normalize s.toList
  have hkeys : ix.catalog.KeysNormal := ((keysNormal_start hcreate store).afterAll steps).index
  refine ⟨⟨p.normalize_normalize, hkey.ofString_text, Path.normalize_eq_iff s⟩,
    ⟨hkey.current_not_mem, hkey.count_parent_le_one, fun _ _ => hkey.before_parent⟩,
    fun filter => filter.selects_normalize p, fun files => ix.update_normalize files p,
    ix.remove_normalize p, ix.catalog.definedIn_normalize p, ?_, ?_⟩
  · intro q hq
    refine ⟨?_, fun files => ?_⟩
    · rw [Index.getElem?_records_remove, if_neg hq]
    · rw [Index.getElem?_records_reread, if_neg hq]
  · intro q r hr
    exact ⟨hkeys q r hr, (hkeys q r hr).normalize_eq⟩

/-- A file is read again under another spelling of its path. The record that its normal path had is
replaced, and a third spelling takes it out. -/
theorem files_known_by_normal_form_other_spelling :
    ∃ w, Workspace.create .standard (.ofString "/project") .byDefault = .ok w ∧
      let store := FileStore.empty.write "/project/a.css" "a \x7b --x: 1px \x7d"
      let s := (start w store).afterAll [.scan false,
        .write "/project/a.css" "a \x7b --y: 2px \x7d", .update "/project/./b/..//a.css"]
      let p := Path.ofString "/project/c/../a.css"
      let key := Path.ofString "/project/a.css"
      p ≠ key ∧ p.normalize = key ∧ s.index.catalog.records.keys = [key] ∧
        (s.index.catalog.definedIn p).map (·.name) = ["--y"] ∧
        s.index.remove key = s.index.remove p ∧ (s.index.remove p).1.catalog.records.isEmpty := by
  have hrun : (Workspace.create .standard (.ofString "/project") .byDefault).toOption.any (fun w =>
      let store := FileStore.empty.write "/project/a.css" "a \x7b --x: 1px \x7d"
      let s := (start w store).afterAll [.scan false,
        .write "/project/a.css" "a \x7b --y: 2px \x7d", .update "/project/./b/..//a.css"]
      let p := Path.ofString "/project/c/../a.css"
      let key := Path.ofString "/project/a.css"
      decide (s.index.catalog.records.keys = [key]) &&
        decide ((s.index.catalog.definedIn p).map (·.name) = ["--y"]) &&
        (s.index.remove p).1.catalog.records.isEmpty) = true := by
    decide +kernel
  obtain ⟨w, hcreate, hchecked⟩ := Workspace.exists_create_of_any hrun
  simp only [Bool.and_eq_true, decide_eq_true_eq] at hchecked
  obtain ⟨⟨hkeys, hdefined⟩, hempty⟩ := hchecked
  refine ⟨w, hcreate, by decide +kernel, by decide +kernel, hkeys, hdefined, ?_, hempty⟩
  exact (files_known_by_normal_form hcreate _ _ "/project/c/../a.css").2.2.2.2.1

end Session

end StyleVars
