import StyleVars.Proofs.Resolution.Resolver
import StyleVars.Workspace.Request

/-!
# Answers of a workspace

A workspace is sound when its catalog is consistent and its caches hold only what would be computed
anew. It is so when it is created, and every request keeps it so. Hence the diagnostics of a text
are those that the current settings and the current catalog give, whatever was asked before.
-/

namespace StyleVars

namespace Workspace

variable {w : Workspace}

/-- The catalog is consistent, and every cached answer that may still be given is the one that would
be computed now. -/
structure Sound (w : Workspace) : Prop where
  consistent : w.index.catalog.Consistent
  resolver : w.resolver.Faithful w.index
  diagnostics : w.diagnostics.Sound w.version fun _ known =>
    known.2 = w.settings.diagnose w.index.catalog known.1

/-- A check that the created workspace passes. -/
theorem exists_create_of_any {compiler : GlobCompiler} {root : Path} {settings : Settings}
    {check : Workspace → Bool} (h : (create compiler root settings).toOption.any check) :
    ∃ w, create compiler root settings = .ok w ∧ check w := by
  cases hcreate : create compiler root settings with
  | error e =>
    rw [hcreate] at h
    cases h
  | ok w =>
    rw [hcreate] at h
    exact ⟨w, rfl, h⟩

/-- What a workspace starts with. -/
theorem exists_create_eq {compiler : GlobCompiler} {root : Path} {settings : Settings}
    (h : create compiler root settings = .ok w) :
    ∃ filter, settings.filter compiler root.normalize = .ok filter ∧
      w = ⟨root.normalize, compiler, settings, 0, .empty filter, .start (.empty filter),
        .empty (0, 0)⟩ := by
  rw [create] at h
  cases hfilter : settings.filter compiler root.normalize with
  | error e =>
    rw [hfilter] at h
    cases h
  | ok filter =>
    rw [hfilter] at h
    cases h
    exact ⟨filter, rfl, rfl⟩

theorem sound_create {compiler : GlobCompiler} {root : Path} {settings : Settings}
    (h : create compiler root settings = .ok w) : w.Sound := by
  obtain ⟨filter, -, rfl⟩ := exists_create_eq h
  exact ⟨.empty, Resolver.faithful_start _, .empty _⟩

/-- The index may advance under a workspace. -/
theorem Sound.withIndex (h : w.Sound) {next : Index} (hnext : w.index.Advances next) :
    ({ w with index := next } : Workspace).Sound where
  consistent := hnext.consistent h.consistent
  resolver := h.resolver.advance hnext
  diagnostics := by
    rcases hnext.counted with hlt | ⟨hgeneration, hcatalog⟩
    · exact h.diagnostics.advance (Prod.mk_lt_mk_iff_left.mpr hlt)
    · rw [version, hgeneration, hcatalog]
      exact h.diagnostics

theorem Sound.withResolver (h : w.Sound) {resolver : Resolver}
    (hresolver : resolver.Faithful w.index) : ({ w with resolver } : Workspace).Sound :=
  ⟨h.consistent, hresolver, h.diagnostics⟩

theorem Sound.candidates (h : w.Sound) :
    ∃ resolver : Resolver, resolver.Faithful w.index ∧
      w.candidates = ({ w with resolver }, w.index.catalog.allResolved.map (·.candidate)) := by
  obtain ⟨hresolver, hall⟩ := h.resolver.allResolved
  exact ⟨_, hresolver, by rw [Workspace.candidates, ← hall]⟩

/-- Where there are no literals to report the candidates do not matter. -/
theorem check_congr {s : Settings} {catalog : Catalog} {sheet : Sheet}
    (h : (s.reportedLiterals sheet).isEmpty) (xs ys : List Candidate) :
    s.check catalog xs sheet = s.check catalog ys sheet := by
  rw [List.isEmpty_iff] at h
  rw [Settings.check, Settings.check, h, List.map_nil, List.map_nil]

theorem Sound.compute (h : w.Sound) (text : String) :
    ∃ resolver : Resolver, resolver.Faithful w.index ∧
      w.compute text = ({ w with resolver }, w.settings.diagnose w.index.catalog text) := by
  by_cases hnone : (w.settings.reportedLiterals (.ofString text)).isEmpty
  · refine ⟨w.resolver, h.resolver, ?_⟩
    rw [Workspace.compute, Settings.diagnose, check_congr hnone _ []]
    simp only [hnone, if_true]
  · obtain ⟨resolver, hresolver, hcandidates⟩ := h.candidates
    refine ⟨resolver, hresolver, ?_⟩
    rw [Workspace.compute, hcandidates, Settings.diagnose]
    simp only [hnone, if_false, Bool.false_eq_true]

theorem exists_compute_eq (w : Workspace) (text : String) :
    ∃ resolver, (w.compute text).1 = { w with resolver } := by
  rw [compute]
  by_cases hnone : (w.settings.reportedLiterals (.ofString text)).isEmpty
  · exact ⟨w.resolver, by simp only [hnone, if_true]⟩
  · refine ⟨(w.resolver.allResolved w.index).1, ?_⟩
    simp only [hnone, if_false, Bool.false_eq_true, candidates]

/-- An analysis changes nothing but the caches. -/
theorem exists_analyze_eq (w : Workspace) (text : String) (path : Path) :
    ∃ resolver diagnostics, (w.analyze text path).1 = { w with resolver, diagnostics } := by
  obtain ⟨resolver, hcompute⟩ := w.exists_compute_eq text
  have hfresh (diagnostics : DiagnosticCache) :
      ({ (w.compute text).1 with diagnostics } : Workspace) = { w with resolver, diagnostics } := by
    rw [hcompute]
  rw [analyze]
  dsimp only
  split
  · split
    · exact ⟨w.resolver, _, rfl⟩
    · exact ⟨resolver, _, hfresh _⟩
  · exact ⟨resolver, _, hfresh _⟩

theorem index_analyzeFile (store : FileStore) (state : Workspace × ProjectReport) (path : String) :
    (analyzeFile store state path).1.index = state.1.index := by
  rw [analyzeFile]
  dsimp only
  split
  · rename_i text _
    obtain ⟨_, _, hanalyze⟩ := state.1.exists_analyze_eq text (.ofString path)
    rw [hanalyze]
  · rfl

/-- The diagnostics of a text are those computed anew, and only the caches change. -/
theorem Sound.analyze (h : w.Sound) (text : String) (path : Path) :
    (w.analyze text path).2 = w.settings.diagnose w.index.catalog text ∧
      (w.analyze text path).1.Sound ∧ (w.analyze text path).1.index = w.index := by
  have hsync := h.diagnostics.sync
  obtain ⟨resolver, hresolver, hcompute⟩ := h.compute text
  have hfresh : ({ w with
      resolver
      diagnostics := (w.diagnostics.sync w.version).note path
        (text, w.settings.diagnose w.index.catalog text) } : Workspace).Sound :=
    ⟨h.consistent, hresolver, hsync.note rfl⟩
  rw [Workspace.analyze, hcompute]
  dsimp only
  split
  · rename_i known found hfind
    split
    · rename_i hsame
      subst hsame
      exact ⟨hsync.right_of_find? (Cache.seen_sync _ _) hfind,
        ⟨h.consistent, h.resolver, hsync⟩, rfl⟩
    · exact ⟨rfl, hfresh, rfl⟩
  · exact ⟨rfl, hfresh, rfl⟩

theorem Sound.analyzeFile (h : w.Sound) (store : FileStore) (report : ProjectReport)
    (path : String) : (analyzeFile store (w, report) path).1.Sound := by
  rw [Workspace.analyzeFile]
  dsimp only
  split
  · exact (h.analyze _ _).2.1
  · exact h

theorem Sound.foldl_analyzeFile (h : w.Sound) (store : FileStore) (report : ProjectReport)
    (paths : List String) : (paths.foldl (Workspace.analyzeFile store) (w, report)).1.Sound := by
  induction paths generalizing w report with
  | nil => exact h
  | cons path rest ih =>
    exact ih (h.analyzeFile store report path) (Workspace.analyzeFile store (w, report) path).2

theorem index_foldl_analyzeFile (store : FileStore) (state : Workspace × ProjectReport)
    (paths : List String) : (paths.foldl (analyzeFile store) state).1.index = state.1.index := by
  induction paths generalizing state with
  | nil => rfl
  | cons path rest ih => exact (ih _).trans (index_analyzeFile store state path)

/-- The files of a project are analyzed one after the other, and the progress is told after each. -/
theorem foldl_analyzeNext (store : FileStore) (total : Nat) (files : List (String × Nat))
    (state : Workspace × ProjectReport) (progress : List Progress) :
    files.foldl (analyzeNext store total) (state, progress) =
      ((files.map (·.1)).foldl (Workspace.analyzeFile store) state,
        progress ++ files.map fun file => ⟨file.2 + 1, total, file.1⟩) := by
  induction files generalizing state progress with
  | nil => simp
  | cons file rest ih =>
    rw [List.foldl_cons, analyzeNext, ih]
    simp

theorem analyzeProject_spec (w : Workspace) (store : FileStore) :
    let paths := w.projectFiles store
    let analyzed := paths.foldl (Workspace.analyzeFile store) (w, .start paths.length)
    (w.analyzeProject store).1 =
        { analyzed.1 with index := analyzed.1.index.countReads paths.length } ∧
      (w.analyzeProject store).2.1 = analyzed.2 ∧
      (w.analyzeProject store).2.2 =
        paths.zipIdx.map fun file => ⟨file.2 + 1, paths.length, file.1⟩ := by
  simp only [analyzeProject, foldl_analyzeNext, List.zipIdx_map_fst, List.nil_append, and_self]

/-- The analysis of a project reads files and leaves the index as it is otherwise. -/
theorem index_analyzeProject (w : Workspace) (store : FileStore) :
    (w.analyzeProject store).1.index = w.index.countReads (w.projectFiles store).length := by
  rw [(w.analyzeProject_spec store).1]
  exact congrArg (·.countReads (w.projectFiles store).length) (index_foldl_analyzeFile _ _ _)

theorem Sound.analyzeProject (h : w.Sound) (store : FileStore) :
    (w.analyzeProject store).1.Sound := by
  rw [(w.analyzeProject_spec store).1]
  exact (h.foldl_analyzeFile store _ _).withIndex (Index.advances_countReads _ _)

theorem Sound.handleEvent (h : w.Sound) (store : FileStore) (e : FileEvent) :
    (handleEvent store w e).Sound ∧ w.index.Advances (handleEvent store w e).index := by
  have hindex {next : Index} (hnext : w.index.Advances next) :
      ({ w with index := next } : Workspace).Sound ∧ w.index.Advances next :=
    ⟨h.withIndex hnext, hnext⟩
  cases e with
  | created path => exact hindex (w.index.advances_update store _)
  | changed path => exact hindex (w.index.advances_update store _)
  | deleted path =>
    obtain ⟨hremoved, hnext⟩ := hindex (w.index.advances_remove (.ofString path))
    exact ⟨⟨hremoved.consistent, hremoved.resolver, hremoved.diagnostics.forget _⟩, hnext⟩
  | headMoved => exact hindex w.index.advances_invalidate

theorem Sound.handleEvents (h : w.Sound) (store : FileStore) (events : List FileEvent) :
    (w.handleEvents store events).Sound ∧
      w.index.Advances (w.handleEvents store events).index := by
  have hfold : (events.foldl (Workspace.handleEvent store) w).Sound ∧
      w.index.Advances (events.foldl (Workspace.handleEvent store) w).index := by
    induction events generalizing w with
    | nil => exact ⟨h, .refl _⟩
    | cons e rest ih =>
      obtain ⟨hfirst, hnext⟩ := h.handleEvent store e
      obtain ⟨hrest, hnext'⟩ := ih hfirst
      exact ⟨hrest, hnext.trans hnext'⟩
  rw [Workspace.handleEvents]
  split
  · have hscan := (events.foldl (Workspace.handleEvent store) w).index.advances_scan store false
    exact ⟨hfold.1.withIndex hscan, hfold.2.trans hscan⟩
  · exact hfold

/-- Settings are applied once their globs are compiled, and nothing is done before that. -/
theorem run_applySettings (w : Workspace) (settings : Settings) :
    (applySettings settings).run.run w =
      match settings.filter w.compiler w.root with
      | .ok filter => (.ok (), (w.replaceSettings settings).setFilter filter)
      | .error e => (.error e, w) := by
  have hread : (applySettings settings).run.run w = (ExceptT.run (do
      let filter ← liftExcept (settings.filter w.compiler w.root)
      modify (·.replaceSettings settings)
      modify (·.setFilter filter) : ExceptT GlobError (StateM Workspace) Unit)).run w := rfl
  rw [hread]
  cases settings.filter w.compiler w.root with
  | error e => rfl
  | ok filter => rfl

theorem Sound.applySettings (h : w.Sound) (settings : Settings) :
    ((applySettings settings).run.run w).2.Sound ∧
      w.index.Advances ((applySettings settings).run.run w).2.index := by
  rw [run_applySettings]
  split
  · rename_i filter _
    have hnext := w.index.advances_setFilter filter
    have hset := h.withIndex hnext
    exact ⟨⟨hset.consistent, hset.resolver, hset.diagnostics.advance
      (Prod.mk_lt_mk_iff_right.mpr (Nat.lt_succ_self _))⟩, hnext⟩
  · exact ⟨h, .refl _⟩

theorem Sound.dispose (h : w.Sound) : w.dispose.Sound ∧ w.index.Advances w.dispose.index := by
  have hnext := w.index.advances_dispose
  have hindex := h.withIndex hnext
  exact ⟨⟨hindex.consistent, hindex.resolver.forgetAll, hindex.diagnostics.clear⟩, hnext⟩

/-! ## Requests -/

/-- A request keeps a workspace sound, and the index advances under it. -/
theorem Sound.serve (h : w.Sound) (request : Request) :
    (w.serve request).1.Sound ∧ w.index.Advances (w.serve request).1.index := by
  cases request with
  | scan store force =>
    have hscan := w.index.advances_scan store force
    exact ⟨h.withIndex hscan, hscan⟩
  | handleEvents store events => exact h.handleEvents store events
  | applySettings settings => exact h.applySettings settings
  | analyze text path =>
    obtain ⟨_, hsound, hindex⟩ := h.analyze text path
    exact ⟨hsound, hindex ▸ .refl w.index⟩
  | analyzeProject store =>
    exact ⟨h.analyzeProject store, w.index_analyzeProject store ▸ w.index.advances_countReads _⟩
  | resolve name => exact ⟨h.withResolver (h.resolver.resolve name).1, .refl _⟩
  | suggest value limit =>
    obtain ⟨resolver, hresolver, hcandidates⟩ := h.candidates
    rw [Workspace.serve, suggest, hcandidates]
    exact ⟨h.withResolver hresolver, .refl _⟩
  | dispose => exact h.dispose

theorem Sound.serveAll (h : w.Sound) (requests : List Request) : (w.serveAll requests).Sound := by
  induction requests generalizing w with
  | nil => exact h
  | cons request rest ih => exact ih (h.serve request).1

end Workspace

end StyleVars
