import StyleVars.Workspace.Basic

/-!
# Requests

What is asked of a workspace, and what it replies. A request gives the workspace as it is afterwards
together with the reply, also where the reply is that the request failed.
-/

namespace StyleVars

namespace Workspace

/-- What is asked of a workspace. The files are those of the moment. -/
inductive Request where
  | scan (store : FileStore) (force : Bool)
  | handleEvents (store : FileStore) (events : List FileEvent)
  | applySettings (settings : Settings)
  | analyze (text : String) (path : Path)
  | analyzeProject (store : FileStore)
  | resolve (name : String)
  | suggest (value : String) (limit : Nat)
  | dispose

end Workspace

inductive Reply where
  | done
  | number (n : Nat)
  | flag (b : Bool)
  | flags (bs : List Bool)
  | text (s : String)
  | settings (s : Settings)
  | found (v : Option VariableInfo)
  | listed (vs : List VariableInfo)
  | entry (known : Bool) (owner : Option Path) (usage : Nat)
  | resolution (r : Resolution)
  | suggestions (ss : List Suggestion)
  | diagnostics (ds : List Diagnostic)
  | report (r : ProjectReport) (progress : List Workspace.Progress)

namespace Workspace

/-- Do what is asked. -/
def serve (w : Workspace) : Request → Workspace × Except GlobError Reply
  | .scan store force =>
    let w := w.scan store force
    (w, .ok (.number w.index.catalog.size))
  | .handleEvents store events => (w.handleEvents store events, .ok .done)
  | .applySettings settings =>
    let (applied, w) := (Workspace.applySettings settings).run.run w
    (w, applied.map fun _ => .settings w.settings)
  | .analyze text path =>
    let (w, found) := w.analyze text path
    (w, .ok (.diagnostics found))
  | .analyzeProject store =>
    let (w, report, progress) := w.analyzeProject store
    (w, .ok (.report report progress))
  | .resolve name =>
    let (w, found) := w.resolve name
    (w, .ok (.resolution found))
  | .suggest value limit =>
    let (w, found) := w.suggest value limit
    (w, .ok (.suggestions found))
  | .dispose => (w.dispose, .ok .done)

/-- The workspace after a list of requests. -/
def serveAll (w : Workspace) (requests : List Request) : Workspace :=
  requests.foldl (fun w request => (w.serve request).1) w

end Workspace

end StyleVars
