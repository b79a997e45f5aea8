import StyleVars.Workspace.Request

/-!
# Sessions

A session runs a workspace over a store of files that changes under it, one step at a time. It may
hold one scan back: the scan begins, and its reads then complete one by one as they are released, in
any order and with other steps in between. A session also has a resolver of its own over the index
of the workspace.
-/

namespace StyleVars

/-- A scan that a session began by itself. -/
inductive HeldScan where
  | running (scan : Scan)
  /-- The scan is over, and the catalog that it gave had this many variables. -/
  | over (size : Nat)

structure Session where
  workspace : Workspace
  store : FileStore
  resolver : Resolver
  held : Option HeldScan

/-- Why a step is refused. -/
inductive StepError where
  | badGlob (e : GlobError)
  | scanHeld
  | noScanHeld
deriving Repr, DecidableEq

def StepError.message : StepError → String
  | .badGlob e => e.message
  | .scanHeld => "a scan is already held"
  | .noScanHeld => "no scan is held"

inductive Step where
  | write (path text : String)
  | list (path : String)
  | delete (path : String)
  | setUnreadable (path : String) (on : Bool)
  | scan (force : Bool)
  | beginScan (force : Bool)
  | release (path : String)
  | finishScan
  | update (path : String)
  | remove (path : String)
  | invalidate
  | dispose
  | setGlobs (included excluded : List String)
  /-- Select no files at all. -/
  | selectNothing
  | applySettings (settings : Settings)
  | settings
  | events (events : List FileEvent)
  | get (name : String)
  | all
  | lookup (name : String)
  | definedIn (path : String)
  | resolve (name : String)
  | resolveValue (value : String)
  | allResolved
  | cached
  | clearCache
  | suggest (value : String) (limit : Nat)
  | analyze (text path : String)
  | analyzeProject
  | selects (paths : List String)

namespace Session

def start (workspace : Workspace) (store : FileStore) : Session :=
  ⟨workspace, store, .start workspace.index, none⟩

def index (s : Session) : Index := s.workspace.index

def withIndex (s : Session) (index : Index) : Session :=
  { s with workspace := { s.workspace with index } }

/-- Begin a scan whose reads are held. Without files to read it is over at once. -/
def beginScan (s : Session) (force : Bool) : Session :=
  if s.index.mayScan force then
    let (index, scan) := s.index.beginScan s.store
    if scan.pending.isEmpty then
      { s.withIndex (index.finishScan scan) with held := some (.over scan.found.size) }
    else { s.withIndex index with held := some (.running scan) }
  else { s with held := some (.over s.index.catalog.size) }

/-- Let the read of a file complete. The last one to complete finishes the scan. -/
def release (s : Session) (path : Path) : Session × Bool :=
  match s.held with
  | some (.running scan) =>
    if scan.pending.contains path then
      let scan := scan.read s.store path
      let index := s.index.countReads 1
      if scan.pending.isEmpty then
        ({ s.withIndex (index.finishScan scan) with held := some (.over scan.found.size) }, true)
      else ({ s.withIndex index with held := some (.running scan) }, true)
    else (s, false)
  | _ => (s, false)

/-- Let all reads complete that are held. Gives back the size of the catalog that the scan found. -/
def finishScan (s : Session) : HeldScan → Session × Nat
  | .over size => ({ s with held := none }, size)
  | .running scan =>
    let index := s.index.countReads scan.pending.length
    let scan := scan.readAll s.store
    ({ s.withIndex (index.finishScan scan) with held := none }, scan.found.size)

/-- Ask something of the workspace. -/
def ask (s : Session) (request : Workspace.Request) : Session × Except StepError Reply :=
  let (workspace, reply) := s.workspace.serve request
  ({ s with workspace }, reply.mapError .badGlob)

/-- Replace the globs of the index. -/
def setGlobs (s : Session) (included excluded : List String) : Session × Except StepError Reply :=
  match PathFilter.compile s.workspace.compiler s.workspace.root included excluded with
  | .ok filter => (s.withIndex (s.index.setFilter filter), .ok .done)
  | .error e => (s, .error (.badGlob e))

/-- Run one step. Gives the session as it is afterwards, also where the step is refused. -/
def run (s : Session) : Step → Session × Except StepError Reply
  | .write path text => ({ s with store := s.store.write path text }, .ok .done)
  | .list path => ({ s with store := s.store.list path }, .ok .done)
  | .delete path => ({ s with store := s.store.delete path }, .ok .done)
  | .setUnreadable path on => ({ s with store := s.store.setUnreadable path on }, .ok .done)
  | .scan force => s.ask (.scan s.store force)
  | .beginScan force =>
    match s.held with
    | some _ => (s, .error .scanHeld)
    | none => (s.beginScan force, .ok .done)
  | .release path =>
    let (s, released) := s.release (FileStore.key path)
    (s, .ok (.flag released))
  | .finishScan =>
    match s.held with
    | none => (s, .error .noScanHeld)
    | some held =>
      let (s, size) := s.finishScan held
      (s, .ok (.number size))
  | .update path => (s.withIndex (s.index.update s.store (.ofString path)), .ok .done)
  | .remove path =>
    let (index, removed) := s.index.remove (.ofString path)
    (s.withIndex index, .ok (.flag removed))
  | .invalidate => (s.withIndex s.index.invalidate, .ok .done)
  | .dispose => s.ask .dispose
  | .setGlobs included excluded => s.setGlobs included excluded
  | .selectNothing => (s.withIndex (s.index.setFilter (.empty s.workspace.root)), .ok .done)
  | .applySettings settings => s.ask (.applySettings settings)
  | .settings => (s, .ok (.settings s.workspace.settings))
  | .events events => s.ask (.handleEvents s.store events)
  | .get name => (s, .ok (.found (s.index.catalog.get? name)))
  | .all => (s, .ok (.listed s.index.catalog.all))
  | .lookup name =>
    let catalog := s.index.catalog
    let entry := .entry (catalog.entries.contains name) (catalog.owner? name) (catalog.usageOf name)
    (s, .ok entry)
  | .definedIn path =>
    let defined := s.index.catalog.definedIn (.ofString path)
    (s, .ok (.listed (defined.map fun v => ⟨v, 0, none⟩)))
  | .resolve name =>
    let (resolver, found) := s.resolver.resolve s.index name
    ({ s with resolver }, .ok (.resolution found))
  | .resolveValue value =>
    let (resolver, text) := s.resolver.resolveValue s.index value
    ({ s with resolver }, .ok (.text text))
  | .allResolved =>
    let (resolver, all) := s.resolver.allResolved s.index
    ({ s with resolver }, .ok (.listed all))
  | .cached =>
    let (resolver, size) := s.resolver.cached s.index
    ({ s with resolver }, .ok (.number size))
  | .clearCache => ({ s with resolver := s.resolver.forgetAll s.index }, .ok .done)
  | .suggest value limit => s.ask (.suggest value limit)
  | .analyze text path => s.ask (.analyze text (.ofString path))
  | .analyzeProject => s.ask (.analyzeProject s.store)
  | .selects paths =>
    (s, .ok (.flags (paths.map fun p => s.index.filter.selects (.ofString p))))

end Session

end StyleVars
