import StyleVars.Diagnostic.Check
import StyleVars.Diagnostic.Report
import StyleVars.Resolution.Resolver
import StyleVars.Watch.Event

/-!
# Workspaces

A workspace holds the settings and the index of one project, and answers from caches where what they
depend on has not changed. Diagnostics are kept by path together with the text they are for, and are
dropped when the settings or the index change.
-/

namespace StyleVars

/-- Diagnostics by path, with the text that they are for. The version is the generation of the
index and that of the settings. -/
abbrev DiagnosticCache := Cache (Nat × Nat) Path (String × List Diagnostic)

structure Workspace where
  root : Path
  /-- How the globs of the settings are compiled. -/
  compiler : GlobCompiler
  settings : Settings
  /-- How often the settings were replaced. -/
  settingsGeneration : Nat
  index : Index
  resolver : Resolver
  diagnostics : DiagnosticCache

namespace Workspace

/-- A workspace whose index is empty. It needs settings whose globs can be compiled. -/
def create (compiler : GlobCompiler) (root : Path) (settings : Settings) :
    Except GlobError Workspace := do
  let filter ← settings.filter compiler root.normalize
  let index := Index.empty filter
  return {
    root := root.normalize
    compiler
    settings
    settingsGeneration := 0
    index
    resolver := .start index
    diagnostics := .empty (0, 0) }

/-- The version that cached diagnostics depend on. -/
def version (w : Workspace) : Nat × Nat := (w.index.generation, w.settingsGeneration)

def scan (w : Workspace) (store : FileStore) (force : Bool) : Workspace :=
  { w with index := w.index.scan store force }

/-- Resolve a name. -/
def resolve (w : Workspace) (name : String) : Workspace × Resolution :=
  let (resolver, found) := w.resolver.resolve w.index name
  ({ w with resolver }, found)

/-- All variables with what their values come to, as candidates for suggestions. -/
def candidates (w : Workspace) : Workspace × List Candidate :=
  let (resolver, all) := w.resolver.allResolved w.index
  ({ w with resolver }, all.map (·.candidate))

/-- The variables that may stand in place of a literal, best first. -/
def suggest (w : Workspace) (value : String) (limit : Nat) : Workspace × List Suggestion :=
  let (w, candidates) := w.candidates
  (w, suggestions value candidates limit)

/-- The diagnostics of a text, computed anew. Candidates are needed only where there are literals to
report. -/
def compute (w : Workspace) (text : String) : Workspace × List Diagnostic :=
  let sheet := Sheet.ofString text
  let (w, candidates) :=
    if (w.settings.reportedLiterals sheet).isEmpty then (w, []) else w.candidates
  (w, w.settings.check w.index.catalog candidates sheet)

/-- The diagnostics of a text that stands at a path. -/
def analyze (w : Workspace) (text : String) (path : Path) : Workspace × List Diagnostic :=
  let cache := w.diagnostics.sync w.version
  let fresh : Workspace × List Diagnostic :=
    let (w, found) := w.compute text
    ({ w with diagnostics := cache.note path (text, found) }, found)
  match cache.find? path with
  | some (known, found) =>
    if known = text then ({ w with diagnostics := cache }, found) else fresh
  | none => fresh

/-- One step in the analysis of a project: how many files are done, of how many, and the path of the
last. -/
structure Progress where
  processed : Nat
  total : Nat
  path : String
deriving Repr, DecidableEq

/-- Analyze one file of a project and add it to the report. A file that cannot be read adds
nothing. -/
def analyzeFile (store : FileStore) (state : Workspace × ProjectReport) (path : String) :
    Workspace × ProjectReport :=
  let (w, report) := state
  match store.read? (.ofString path) with
  | some text =>
    let (w, found) := w.analyze text (.ofString path)
    (w, report.add path text found)
  | none => (w, report)

/-- Analyze the file at a position of a project, and then tell the progress, whether or not the file
could be read. -/
def analyzeNext (store : FileStore) (total : Nat)
    (state : (Workspace × ProjectReport) × List Progress) (file : String × Nat) :
    (Workspace × ProjectReport) × List Progress :=
  let (state, progress) := state
  let (path, i) := file
  (analyzeFile store state path, progress ++ [⟨i + 1, total, path⟩])

/-- The files of a project in the order in which they are analyzed. -/
def projectFiles (w : Workspace) (store : FileStore) : List String :=
  (store.find w.index.filter).mergeSort fun a b => (Path.ofString a).le (.ofString b)

/-- Analyze all files that the filter selects. -/
def analyzeProject (w : Workspace) (store : FileStore) :
    Workspace × ProjectReport × List Progress :=
  let paths := w.projectFiles store
  let total := paths.length
  let ((w, report), progress) :=
    paths.zipIdx.foldl (analyzeNext store total) ((w, .start total), [])
  ({ w with index := w.index.countReads total }, report, progress)

/-- Let one event change the index. A deleted file also loses its cached diagnostics. -/
def handleEvent (store : FileStore) (w : Workspace) : FileEvent → Workspace
  | .created path => { w with index := w.index.update store (.ofString path) }
  | .changed path => { w with index := w.index.update store (.ofString path) }
  | .deleted path =>
    { w with
      index := (w.index.remove (.ofString path)).1
      diagnostics := w.diagnostics.forget (.ofString path) }
  | .headMoved => { w with index := w.index.invalidate }

/-- Handle a batch of events. An index that is invalid afterwards is scanned again. -/
def handleEvents (w : Workspace) (store : FileStore) (events : List FileEvent) : Workspace :=
  let w := events.foldl (handleEvent store) w
  if w.index.status = .invalid then w.scan store false else w

def replaceSettings (w : Workspace) (settings : Settings) : Workspace :=
  { w with settings, settingsGeneration := w.settingsGeneration + 1 }

def setFilter (w : Workspace) (filter : PathFilter) : Workspace :=
  { w with index := w.index.setFilter filter }

/-- Replace the settings, and with them the files that the index covers. The globs are compiled
before anything changes. -/
def applySettings (settings : Settings) : ExceptT GlobError (StateM Workspace) Unit := do
  let w ← get
  let filter ← liftExcept (settings.filter w.compiler w.root)
  modify (·.replaceSettings settings)
  modify (·.setFilter filter)

/-- Drop the contents of the index and all cached answers. -/
def dispose (w : Workspace) : Workspace :=
  let index := w.index.dispose
  { w with
    index
    resolver := w.resolver.forgetAll index
    diagnostics := w.diagnostics.clear }

end Workspace

end StyleVars
