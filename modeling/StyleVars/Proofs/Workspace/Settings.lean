import StyleVars.Proofs.Diagnostic.Undefined
import StyleVars.Proofs.Workspace.Event
import StyleVars.Proofs.Workspace.Uncached

/-!
# Replacing the settings

New settings are refused as a whole or taken as a whole. They are refused when their globs cannot be
compiled, either because one of them fails the check or because no set can be built from them, and
the first failure is reported; everything later is then answered as if nothing had been asked.
Settings that are taken leave the catalog as it is but make a valid index invalid, and whenever a
scan is made after that, it finds the files that the new globs match and no others. All of this
holds for any way to compile globs.
-/

namespace StyleVars

/-! ## Compiling globs -/

/-- Either every element passes, or the first one that fails is reported. -/
theorem forM_except_spec {α ε : Type} (f : α → Except ε Unit) (xs : List α) :
    match xs.forM f with
    | .ok _ => ∀ x ∈ xs, f x = .ok ()
    | .error e => ∃ before x after, xs = before ++ x :: after ∧
        (∀ y ∈ before, f y = .ok ()) ∧ f x = .error e := by
  induction xs with
  | nil => exact List.forall_mem_nil _
  | cons x xs ih =>
    rw [show (x :: xs).forM f = (f x >>= fun _ => xs.forM f) from rfl]
    cases hx : f x with
    | error e => exact ⟨[], x, xs, rfl, List.forall_mem_nil _, hx⟩
    | ok _ =>
      cases hxs : xs.forM f with
      | ok _ =>
        rw [hxs] at ih
        change ∀ y ∈ x :: xs, f y = .ok ()
        exact List.forall_mem_cons.mpr ⟨hx, ih⟩
      | error e =>
        rw [hxs] at ih
        obtain ⟨before, z, after, hsplit, hbefore, hz⟩ := ih
        refine ⟨x :: before, z, after, by rw [hsplit, List.cons_append], ?_, hz⟩
        exact List.forall_mem_cons.mpr ⟨hx, hbefore⟩

theorem mapError_eq_ok_iff {α ε ε' : Type} {x : Except ε α} {f : ε → ε'} {a : α} :
    x.mapError f = .ok a ↔ x = .ok a := by
  cases x <;> simp [Except.mapError]

theorem mapError_eq_error_iff {α ε ε' : Type} {x : Except ε α} {f : ε → ε'} {e : ε'} :
    x.mapError f = .error e ↔ ∃ reason, x = .error reason ∧ f reason = e := by
  cases x <;> simp [Except.mapError]

namespace GlobCompiler

variable {c : GlobCompiler} {globs : List String} {e : GlobError}

/-- The glob passes the check. -/
def Accepts (c : GlobCompiler) (glob : String) : Prop := c.check glob = .ok ()

/-- Each glob passes the check, and a set can be built from them. -/
def Compiles (c : GlobCompiler) (globs : List String) : Prop :=
  (∀ glob ∈ globs, c.Accepts glob) ∧ ∃ set, c.build globs = .ok set

/-- Why globs do not compile. -/
inductive Refuses (c : GlobCompiler) (globs : List String) : GlobError → Prop
  /-- A glob fails the check, and none before it does. -/
  | glob (before : List String) (glob : String) (after : List String) (reason : String)
      (split : globs = before ++ glob :: after) (passed : ∀ other ∈ before, c.Accepts other)
      (failed : c.check glob = .error reason) : c.Refuses globs ⟨glob, reason⟩
  /-- All globs pass, but no set can be built from them. All of them are named. -/
  | set (reason : String) (passed : ∀ glob ∈ globs, c.Accepts glob)
      (failed : c.build globs = .error reason) :
      c.Refuses globs ⟨", ".intercalate globs, reason⟩

/-- A set can be built from any globs that pass the check. -/
def BuildsAccepted (c : GlobCompiler) : Prop :=
  ∀ globs, (∀ glob ∈ globs, c.Accepts glob) → ∃ set, c.build globs = .ok set

theorem buildsAccepted_standard : standard.BuildsAccepted := by
  intro globs haccepts
  have hread : ∃ set, globs.mapM Glob.read = .ok set := by
    induction globs with
    | nil => exact ⟨[], rfl⟩
    | cons glob rest ih =>
      obtain ⟨hglob, hrest⟩ := List.forall_mem_cons.mp haccepts
      obtain ⟨set, hset⟩ := ih hrest
      change (Glob.read glob).map (fun _ => ()) = .ok () at hglob
      rw [List.mapM_cons, hset]
      cases hread : Glob.read glob with
      | error reason =>
        rw [hread] at hglob
        cases hglob
      | ok first => exact ⟨first :: set, rfl⟩
  obtain ⟨set, hset⟩ := hread
  refine ⟨⟨fun text => set.any (·.isMatch text)⟩, ?_⟩
  change GlobSet.read globs = _
  rw [GlobSet.read, hset]
  rfl

theorem Refuses.not_compiles (h : c.Refuses globs e) : ¬c.Compiles globs := by
  rintro ⟨haccepts, set, hset⟩
  cases h with
  | glob before glob after reason split passed failed =>
    have hglob : c.check glob = .ok () := haccepts glob (split ▸ List.mem_append_cons_self)
    rw [hglob] at failed
    cases failed
  | set reason passed failed =>
    rw [hset] at failed
    cases failed

theorem compile_spec (c : GlobCompiler) (globs : List String) :
    match c.compile globs with
    | .ok set => c.Compiles globs ∧ c.build globs = .ok set
    | .error e => c.Refuses globs e := by
  have hchecks := forM_except_spec (fun glob => (c.check glob).mapError (⟨glob, ·⟩ : _ → GlobError))
    globs
  rw [compile]
  cases hforM : globs.forM fun glob => (c.check glob).mapError (⟨glob, ·⟩ : _ → GlobError) with
  | error e =>
    rw [hforM] at hchecks
    obtain ⟨before, glob, after, hsplit, hbefore, hglob⟩ := hchecks
    obtain ⟨reason, hreason, rfl⟩ := mapError_eq_error_iff.mp hglob
    exact .glob before glob after reason hsplit
      (fun other h => mapError_eq_ok_iff.mp (hbefore other h)) hreason
  | ok _ =>
    rw [hforM] at hchecks
    have haccepts : ∀ glob ∈ globs, c.Accepts glob :=
      fun glob h => mapError_eq_ok_iff.mp (hchecks glob h)
    cases hbuild : c.build globs with
    | error reason => exact .set reason haccepts hbuild
    | ok set => exact ⟨⟨haccepts, set, hbuild⟩, rfl⟩

example :
    let c : GlobCompiler := ⟨fun _ => .ok (), fun _ => .error "too large"⟩
    c.compile ["a", "b"] = .error ⟨"a, b", "too large"⟩ := rfl

/-- Where sets can always be built, globs compile if they pass the check. -/
theorem BuildsAccepted.compiles_iff (h : c.BuildsAccepted) :
    c.Compiles globs ↔ ∀ glob ∈ globs, c.Accepts glob :=
  ⟨And.left, fun haccepts => ⟨haccepts, h globs haccepts⟩⟩

/-- Where sets can always be built, a glob is to blame. -/
theorem BuildsAccepted.exists_of_refuses (h : c.BuildsAccepted) (hrefuses : c.Refuses globs e) :
    ∃ before after, globs = before ++ e.globs :: after ∧ (∀ glob ∈ before, c.Accepts glob) ∧
      c.check e.globs = .error e.reason := by
  cases hrefuses with
  | glob before glob after reason split passed failed =>
    exact ⟨before, after, split, passed, failed⟩
  | set reason passed failed =>
    obtain ⟨set, hset⟩ := h globs passed
    rw [hset] at failed
    cases failed

end GlobCompiler

namespace Settings

/-- The globs do not compile, includes before excludes. -/
def RefusedBy (s : Settings) (c : GlobCompiler) (e : GlobError) : Prop :=
  c.Refuses s.included e ∨ c.Compiles s.included ∧ c.Refuses s.effectiveExcluded e

variable {s : Settings} {c : GlobCompiler} {e : GlobError}

theorem RefusedBy.not_compiles (h : s.RefusedBy c e) :
    ¬(c.Compiles s.included ∧ c.Compiles s.effectiveExcluded) := by
  rintro ⟨hincluded, hexcluded⟩
  rcases h with h | ⟨_, h⟩
  · exact h.not_compiles hincluded
  · exact h.not_compiles hexcluded

/-- Where sets can always be built, settings are refused for their first glob that fails the
check. -/
theorem RefusedBy.exists_glob (h : s.RefusedBy c e) (hbuilds : c.BuildsAccepted) :
    ∃ before after, s.included ++ s.effectiveExcluded = before ++ e.globs :: after ∧
      (∀ glob ∈ before, c.Accepts glob) ∧ c.check e.globs = .error e.reason := by
  rcases h with h | ⟨⟨haccepts, _⟩, h⟩
  · obtain ⟨before, after, hsplit, hbefore, hfailed⟩ := hbuilds.exists_of_refuses h
    refine ⟨before, after ++ s.effectiveExcluded, ?_, hbefore, hfailed⟩
    rw [hsplit, List.append_assoc, List.cons_append]
  · obtain ⟨before, after, hsplit, hbefore, hfailed⟩ := hbuilds.exists_of_refuses h
    refine ⟨s.included ++ before, after, ?_, ?_, hfailed⟩
    · rw [hsplit, List.append_assoc]
    · exact List.forall_mem_append.mpr ⟨haccepts, hbefore⟩

theorem exists_not_accepts_iff (s : Settings) (hbuilds : c.BuildsAccepted) :
    ¬(c.Compiles s.included ∧ c.Compiles s.effectiveExcluded) ↔
      (∃ glob ∈ s.included, ¬c.Accepts glob) ∨
        s.scanAllFiles = false ∧ ∃ glob ∈ s.excluded, ¬c.Accepts glob := by
  rw [hbuilds.compiles_iff, hbuilds.compiles_iff, not_and_or, not_forall₂, not_forall₂,
    effectiveExcluded]
  cases s.scanAllFiles <;> simp

/-- The filter holds the sets that the globs are built into. -/
structure FilteredBy (s : Settings) (c : GlobCompiler) (root : Path) (f : PathFilter) : Prop where
  compiles : c.Compiles s.included ∧ c.Compiles s.effectiveExcluded
  root : f.root = root.normalize
  included : c.build s.included = .ok f.included
  excluded : c.build s.effectiveExcluded = .ok f.excluded

/-- Settings have a filter or are refused. -/
theorem filter_spec (s : Settings) (c : GlobCompiler) (root : Path) :
    match s.filter c root with
    | .ok f => s.FilteredBy c root f
    | .error e => s.RefusedBy c e := by
  have hincluded := c.compile_spec s.included
  have hexcluded := c.compile_spec s.effectiveExcluded
  rw [filter, PathFilter.compile]
  cases hin : c.compile s.included with
  | error e =>
    rw [hin] at hincluded
    exact .inl hincluded
  | ok included =>
    rw [hin] at hincluded
    cases hex : c.compile s.effectiveExcluded with
    | error e =>
      rw [hex] at hexcluded
      exact .inr ⟨hincluded.1, hexcluded⟩
    | ok excluded =>
      rw [hex] at hexcluded
      exact ⟨⟨hincluded.1, hexcluded.1⟩, rfl, hincluded.2, hexcluded.2⟩

end Settings

/-! ## What a scan finds -/

/-- The catalog holds the readable files that belong to it, as they are in the store, and nothing
else. -/
structure Catalog.HoldsExactly (c : Catalog) (store : FileStore) (Belongs : Path → Prop) :
    Prop where
  files (p : Path) : p ∈ c.scanned ↔ Belongs p ∧ ∃ text, store.read? p = some text
  records (p : Path) (r : FileRecord) : c.records[p]? = some r ↔
    Belongs p ∧ ∃ text, store.read? p = some text ∧ r = .ofText p text
  names (name : String) : name ∈ c.entries ↔
    ∃ p text, Belongs p ∧ store.read? p = some text ∧ (Sheet.ofString text).defines name

namespace Index

variable {ix : Index}

theorem holdsExactly_scan (ix : Index) (store : FileStore) {force : Bool} (h : ix.mayScan force) :
    (ix.scan store force).catalog.HoldsExactly store fun p =>
      p ∈ store.listing.map FileStore.key ∧ ix.filter.selects p := by
  obtain ⟨_, hconsistent, _, hscanned⟩ := ix.scan_eq store h
  have hrecords (p : Path) (r : FileRecord) :
      (ix.scan store force).catalog.records[p]? = some r ↔
        (p ∈ store.listing.map FileStore.key ∧ ix.filter.selects p) ∧
          ∃ text, store.read? p = some text ∧ r = .ofText p text := by
    rw [hscanned, scannedRecord?, ← mem_filesToScan_iff]
    by_cases hfile : p ∈ ix.filesToScan store
    · rw [if_pos hfile, FileStore.record?, Option.map_eq_some_iff]
      simp only [hfile, true_and, eq_comm]
    · simp [hfile]
  refine ⟨fun p => ?_, hrecords, fun name => ?_⟩
  · rw [hconsistent.mem_scanned, Std.TreeMap.mem_iff_isSome_getElem?, Option.isSome_iff_exists]
    simp only [hrecords]
    constructor
    · rintro ⟨_, hbelongs, text, hread, _⟩
      exact ⟨hbelongs, text, hread⟩
    · rintro ⟨hbelongs, text, hread⟩
      exact ⟨_, hbelongs, text, hread, rfl⟩
  · rw [hconsistent.mem_entries_iff]
    simp only [hrecords]
    constructor
    · rintro ⟨p, _, ⟨hbelongs, text, hread, rfl⟩, hdefined⟩
      exact ⟨p, text, hbelongs, hread, (Sheet.defines_iff p).mpr hdefined⟩
    · rintro ⟨p, text, hbelongs, hread, hdefines⟩
      exact ⟨p, _, ⟨hbelongs, text, hread, rfl⟩, (Sheet.defines_iff p).mp hdefines⟩

theorem status_setFilter (ix : Index) (filter : PathFilter) :
    (ix.setFilter filter).status = if ix.status = .valid then .invalid else ix.status := by
  rw [setFilter, invalidate]
  cases ix.status <;> simp

theorem generation_setFilter (ix : Index) (filter : PathFilter) :
    (ix.setFilter filter).generation = ix.generation := by
  rw [setFilter, invalidate]
  split <;> rfl

theorem filter_setFilter (ix : Index) (filter : PathFilter) :
    (ix.setFilter filter).filter = filter := by
  rw [setFilter, filter_invalidate]

theorem stale_setFilter (h : ix.status = .scanning) (filter : PathFilter) :
    (ix.setFilter filter).stale = true := by
  rw [setFilter, invalidate]
  simp only [h]

theorem mayScan_setFilter (h : ix.status ≠ .scanning) (filter : PathFilter) (force : Bool) :
    (ix.setFilter filter).mayScan force := by
  rw [mayScan, status_setFilter]
  cases hstatus : ix.status with
  | scanning => exact absurd hstatus h
  | empty | valid | invalid => rfl

theorem filter_scan (ix : Index) (store : FileStore) (force : Bool) :
    (ix.scan store force).filter = ix.filter := by
  rw [scan]
  split <;> rfl

end Index

/-! ## Runs that keep the filter -/

/-- Whether the step may replace the filter. -/
def Step.setsFilter : Step → Bool
  | .setGlobs _ _ => true
  | .selectNothing => true
  | .applySettings _ => true
  | _ => false

namespace Workspace

variable (w : Workspace) (store : FileStore)

theorem filter_handleEvents (events : List FileEvent) :
    (w.handleEvents store events).index.filter = w.index.filter := by
  rw [handleEvents]
  split
  · exact (Index.filter_scan _ _ _).trans (filter_foldl_handleEvent store w events)
  · exact filter_foldl_handleEvent store w events

end Workspace

namespace Session

variable {s : Session}

theorem filter_beginScan (s : Session) (force : Bool) :
    (s.beginScan force).index.filter = s.index.filter := by
  rw [beginScan]
  split
  · dsimp only
    split <;> rfl
  · rfl

theorem filter_release (s : Session) (path : Path) :
    (s.release path).1.index.filter = s.index.filter := by
  rw [release]
  split
  · split
    · dsimp only
      split <;> rfl
    · rfl
  · rfl

theorem filter_finishScan (s : Session) (held : HeldScan) :
    (s.finishScan held).1.index.filter = s.index.filter := by
  cases held with
  | running scan => rfl
  | _ => rfl

theorem filter_after {step : Step} (h : step.setsFilter = false) :
    (s.after step).index.filter = s.index.filter := by
  cases step with
  | scan force => exact Index.filter_scan _ _ _
  | beginScan force =>
    cases hheld : s.held with
    | none => simpa [after, run, hheld] using s.filter_beginScan force
    | some held => simp [after, run, hheld]
  | release path => exact s.filter_release _
  | finishScan =>
    cases hheld : s.held with
    | none => simp [after, run, hheld]
    | some held => simpa [after, run, hheld] using s.filter_finishScan held
  | update path => exact Index.filter_update _ _
  | remove path => exact Index.filter_remove _
  | invalidate => exact Index.filter_invalidate
  | events events => exact s.workspace.filter_handleEvents s.store events
  | analyze text path =>
    obtain ⟨_, _, hanalyze⟩ := s.workspace.exists_analyze_eq text (.ofString path)
    exact congrArg (·.index.filter) hanalyze
  | analyzeProject =>
    have hfilter := congrArg Index.filter (s.workspace.index_analyzeProject s.store)
    exact hfilter
  | setGlobs included excluded => cases h
  | selectNothing => cases h
  | applySettings settings => cases h
  | _ => rfl

theorem filter_afterAll {steps : List Step} (h : ∀ step ∈ steps, step.setsFilter = false) :
    (s.afterAll steps).index.filter = s.index.filter := by
  induction steps generalizing s with
  | nil => rfl
  | cons step rest ih =>
    obtain ⟨hstep, hrest⟩ := List.forall_mem_cons.mp h
    exact (ih hrest).trans (filter_after hstep)

/-! ## The settings -/

/-- What a list of steps gives back, step by step. -/
def answers (s : Session) : List Step → List (Except StepError Reply)
  | [] => []
  | step :: rest => s.answer step :: (s.after step).answers rest

/-- The session `next` has taken new settings over from `s`. Files, held scan and catalog are the
same. A valid index has become invalid, a running scan has become stale, and any other index is due
for a scan as it was. Whatever is done before a scan, as long as the filter is not replaced again,
the scan finds the files that the sets of the new globs select below the root: those that the first
set matches and the second does not. -/
structure Takes (s : Session) (settings : Settings) (included excluded : GlobSet)
    (next : Session) : Prop where
  replaced : next.workspace.settings = settings
  same : next.store = s.store ∧ next.held = s.held ∧ next.index.catalog = s.index.catalog ∧
    next.index.generation = s.index.generation
  status : next.index.status = if s.index.status = .valid then .invalid else s.index.status
  due : s.index.status ≠ .scanning → ∀ force, next.index.mayScan force
  stale : s.index.status = .scanning → next.index.stale = true
  scan : ∀ steps : List Step, (∀ step ∈ steps, step.setsFilter = false) → ∀ force,
    let later := next.afterAll steps
    let scanned := later.after (.scan force)
    later.index.mayScan force → scanned.index.status = .valid ∧
      scanned.index.catalog.HoldsExactly later.store fun p =>
        let root := s.workspace.root.normalize
        let text := ((root.stripBase? p.normalize).getD p.normalize).text
        p ∈ later.store.listing.map FileStore.key ∧ included.isMatch text ∧
          excluded.isMatch text = false

/-- The session with other settings and the filter that goes with them. -/
def configured (s : Session) (settings : Settings) (filter : PathFilter) : Session :=
  { s with workspace := (s.workspace.replaceSettings settings).setFilter filter }

theorem takes_of_filter {settings : Settings} {filter : PathFilter}
    (hroot : filter.root = s.workspace.root.normalize) :
    s.Takes settings filter.included filter.excluded (s.configured settings filter) where
  replaced := rfl
  same := ⟨rfl, rfl, Index.catalog_setFilter filter, s.index.generation_setFilter filter⟩
  status := s.index.status_setFilter filter
  due hscanning force := Index.mayScan_setFilter hscanning filter force
  stale hscanning := Index.stale_setFilter hscanning filter
  scan := by
    intro steps hsteps force later scanned hmay
    have hfilter : later.index.filter = filter :=
      (filter_afterAll hsteps).trans (s.index.filter_setFilter filter)
    have hholds := later.index.holdsExactly_scan later.store hmay
    refine ⟨(later.index.scan_eq later.store hmay).1, ?_⟩
    simp only [hfilter, PathFilter.selects, hroot, Bool.and_eq_true, Bool.not_eq_true'] at hholds
    exact hholds

/-- Offering new settings has two outcomes. Either the globs do not compile and the session stays as
it is, or they do and the session is configured with the filter that they make. -/
theorem run_applySettings_cases (s : Session) (settings : Settings) :
    (∃ bad, settings.RefusedBy s.workspace.compiler bad ∧
      s.run (.applySettings settings) = (s, .error (.badGlob bad))) ∨
    ∃ filter : PathFilter, settings.FilteredBy s.workspace.compiler s.workspace.root filter ∧
      s.run (.applySettings settings) =
        (s.configured settings filter, .ok (.settings settings)) := by
  have hspec := settings.filter_spec s.workspace.compiler s.workspace.root
  rw [run, ask, Workspace.serve, Workspace.run_applySettings]
  cases hfilter : settings.filter s.workspace.compiler s.workspace.root with
  | error bad =>
    rw [hfilter] at hspec
    exact .inl ⟨bad, hspec, rfl⟩
  | ok filter =>
    rw [hfilter] at hspec
    exact .inr ⟨filter, hspec, rfl⟩

/-- New settings are refused exactly if their globs do not compile, exclude globs not applying when
all files are scanned. The reason is then the first one, includes before excludes, the session stays
as it is, and whatever is asked afterwards is answered as if the settings had not been offered.
Settings that are not refused are taken, with the sets that their globs are built into. Where a set
can be built from any globs that pass the check, it is the first glob to fail it that settings are
refused for. -/
theorem settings_are_refused_or_taken_as_a_whole (s : Session) (settings : Settings) :
    let c := s.workspace.compiler
    let included := settings.included
    let excluded := if settings.scanAllFiles then [] else settings.excluded
    let reply := s.answer (.applySettings settings)
    let next := s.after (.applySettings settings)
    ((∃ e, reply = .error e) ↔ ¬(c.Compiles included ∧ c.Compiles excluded)) ∧
    (∀ e, reply = .error e →
      (∃ bad, e = .badGlob bad ∧
        (c.Refuses included bad ∨ c.Compiles included ∧ c.Refuses excluded bad)) ∧
      next = s ∧
      ∀ steps, s.answers (.applySettings settings :: steps) = .error e :: s.answers steps) ∧
    (∀ result, reply = .ok result → result = .settings settings ∧
      ∃ matched ignored, c.build included = .ok matched ∧ c.build excluded = .ok ignored ∧
        s.Takes settings matched ignored next) ∧
    (c.BuildsAccepted →
      ((∃ e, reply = .error e) ↔ (∃ glob ∈ settings.included, ¬c.Accepts glob) ∨
        settings.scanAllFiles = false ∧ ∃ glob ∈ settings.excluded, ¬c.Accepts glob) ∧
      ∀ bad, reply = .error (.badGlob bad) → ∃ before after,
        included ++ excluded = before ++ bad.globs :: after ∧
          (∀ glob ∈ before, c.Accepts glob) ∧ c.check bad.globs = .error bad.reason) := by
  intro c included excluded reply next
  rcases s.run_applySettings_cases settings with ⟨bad, hrefused, hrun⟩ | ⟨filter, hfilter, hrun⟩
  · have hreply : reply = .error (.badGlob bad) := congrArg Prod.snd hrun
    have hnext : next = s := congrArg Prod.fst hrun
    have hiff : (∃ e, reply = .error e) ↔ ¬(c.Compiles included ∧ c.Compiles excluded) :=
      iff_of_true ⟨_, hreply⟩ hrefused.not_compiles
    refine ⟨hiff, ?_, ?_, fun hbuilds => ⟨hiff.trans (settings.exists_not_accepts_iff hbuilds), ?_⟩⟩
    · intro e he
      obtain rfl : .badGlob bad = e := Except.error.inj (hreply.symm.trans he)
      refine ⟨⟨bad, rfl, hrefused⟩, hnext, fun steps => ?_⟩
      rw [answers, show s.answer _ = _ from hreply, show s.after _ = _ from hnext]
    · intro result hresult
      cases hreply.symm.trans hresult
    · intro e he
      cases hreply.symm.trans he
      exact hrefused.exists_glob hbuilds
  · have hreply : reply = .ok (.settings settings) := congrArg Prod.snd hrun
    have hnext : next = s.configured settings filter := congrArg Prod.fst hrun
    have hiff : (∃ e, reply = .error e) ↔ ¬(c.Compiles included ∧ c.Compiles excluded) := by
      refine iff_of_false ?_ (not_not_intro hfilter.compiles)
      rintro ⟨e, he⟩
      cases hreply.symm.trans he
    refine ⟨hiff, ?_, ?_, fun hbuilds => ⟨hiff.trans (settings.exists_not_accepts_iff hbuilds), ?_⟩⟩
    · intro e he
      cases hreply.symm.trans he
    · intro result hresult
      cases hreply.symm.trans hresult
      rw [hnext]
      exact ⟨rfl, filter.included, filter.excluded, hfilter.included, hfilter.excluded,
        takes_of_filter hfilter.root⟩
    · intro e he
      cases hreply.symm.trans he

/-- Of the globs that apply, two are none. The settings are refused for the one that comes first. -/
theorem settings_refused_for_first_bad_glob :
    ∃ w, Workspace.create .standard (.ofString "/project") .byDefault = .ok w ∧
      let s := start w .empty
      let settings : Settings :=
        { Settings.byDefault with included := ["**/*.css", "["], excluded := ["\x7b"] }
      s.workspace.compiler.BuildsAccepted ∧ ∃ e, s.answer (.applySettings settings) = .error e ∧
        e.message = "Invalid glob pattern '[': error parsing glob '[': " ++
          "unclosed character class; missing ']'" ∧
        s.after (.applySettings settings) = s := by
  have hcheck : (Workspace.create .standard (.ofString "/project") .byDefault).toOption.any (fun w =>
      let settings : Settings :=
        { Settings.byDefault with included := ["**/*.css", "["], excluded := ["\x7b"] }
      match (start w .empty).answer (.applySettings settings) with
      | .error e => e.message = "Invalid glob pattern '[': error parsing glob '[': " ++
          "unclosed character class; missing ']'"
      | .ok _ => false) = true := by
    decide +kernel
  obtain ⟨w, hcreate, hmessage⟩ := Workspace.exists_create_of_any hcheck
  refine ⟨w, hcreate, ?_⟩
  intro s settings
  have hcompiler : s.workspace.compiler = .standard := by
    obtain ⟨_, _, rfl⟩ := Workspace.exists_create_eq hcreate
    rfl
  have hbuilds : s.workspace.compiler.BuildsAccepted :=
    hcompiler ▸ GlobCompiler.buildsAccepted_standard
  have hbad : ¬s.workspace.compiler.Accepts "[" := by
    have hcheck : (GlobCompiler.standard.check "[").toBool = false := by decide +kernel
    intro haccepts
    rw [← hcompiler, show s.workspace.compiler.check "[" = _ from haccepts] at hcheck
    cases hcheck
  obtain ⟨_, hrefused, _, hglob⟩ := settings_are_refused_or_taken_as_a_whole s settings
  obtain ⟨e, he⟩ := (hglob hbuilds).1.mpr (.inl ⟨"[", by simp [settings], hbad⟩)
  refine ⟨hbuilds, e, he, ?_, (hrefused e he).2.1⟩
  have hmessage : (match s.answer (.applySettings settings) with
      | .error e => decide (e.message = "Invalid glob pattern '[': error parsing glob '[': " ++
          "unclosed character class; missing ']'")
      | .ok _ => false) = true := hmessage
  rw [he] at hmessage
  exact of_decide_eq_true hmessage

end Session

end StyleVars
