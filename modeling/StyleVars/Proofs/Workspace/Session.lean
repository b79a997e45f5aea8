import StyleVars.Proofs.Workspace.Answers
import StyleVars.Workspace.Session

/-!
# Runs of a session

A run is any list of steps. After every run the catalog is consistent, also while a scan is held,
and both the workspace and the resolver of the session answer as if they had no caches.
-/

namespace StyleVars

namespace Session

/-- The session after a step. -/
def after (s : Session) (step : Step) : Session := (s.run step).1

/-- What a step gives back. -/
def answer (s : Session) (step : Step) : Except StepError Reply := (s.run step).2

/-- The session after a list of steps. -/
def afterAll (s : Session) (steps : List Step) : Session := steps.foldl after s

structure Sound (s : Session) : Prop where
  workspace : s.workspace.Sound
  resolver : s.resolver.Faithful s.index
  held {scan : Scan} : s.held = some (.running scan) → scan.Consistent

variable {s : Session}

theorem sound_start {compiler : GlobCompiler} {root : Path} {settings : Settings} {w : Workspace}
    (h : Workspace.create compiler root settings = .ok w) (store : FileStore) :
    (start w store).Sound where
  workspace := Workspace.sound_create h
  resolver := Resolver.faithful_start _
  held hheld := by cases hheld

/-- A step that changes the workspace. -/
theorem Sound.withWorkspace (h : s.Sound) {next : Workspace} (hsound : next.Sound)
    (hnext : s.index.Advances next.index) : ({ s with workspace := next } : Session).Sound where
  workspace := hsound
  resolver := h.resolver.advance hnext
  held := h.held

theorem Sound.withIndex (h : s.Sound) {next : Index} (hnext : s.index.Advances next) :
    (s.withIndex next).Sound := h.withWorkspace (h.workspace.withIndex hnext) hnext

theorem Sound.withStore (h : s.Sound) (store : FileStore) : ({ s with store } : Session).Sound :=
  ⟨h.workspace, h.resolver, h.held⟩

theorem Sound.withResolver (h : s.Sound) {resolver : Resolver}
    (hresolver : resolver.Faithful s.index) : ({ s with resolver } : Session).Sound :=
  ⟨h.workspace, hresolver, h.held⟩

/-- No scan is held that still runs. -/
theorem Sound.withoutScan (h : s.Sound) {held : Option HeldScan}
    (hheld : ∀ scan, held ≠ some (.running scan)) : ({ s with held } : Session).Sound :=
  ⟨h.workspace, h.resolver, fun {scan} hrunning => absurd hrunning (hheld scan)⟩

theorem Sound.withScan (h : s.Sound) {scan : Scan} (hscan : scan.Consistent) :
    ({ s with held := some (.running scan) } : Session).Sound :=
  ⟨h.workspace, h.resolver, fun hrunning => by cases hrunning; exact hscan⟩

theorem Sound.ask (h : s.Sound) (request : Workspace.Request) : (s.ask request).1.Sound :=
  h.withWorkspace (h.workspace.serve request).1 (h.workspace.serve request).2

theorem Sound.setGlobs (h : s.Sound) (included excluded : List String) :
    (s.setGlobs included excluded).1.Sound := by
  rw [Session.setGlobs]
  split
  · exact h.withIndex (s.index.advances_setFilter _)
  · exact h

theorem Sound.beginScan (h : s.Sound) (force : Bool) : (s.beginScan force).Sound := by
  have hscan := s.index.consistent_beginScan s.store
  have hbegun := s.index.advances_beginScan s.store
  rw [Session.beginScan]
  split
  · dsimp only
    split
    · exact (h.withIndex (hbegun.trans (Index.advances_finishScan _ hscan))).withoutScan
        fun scan hrunning => by cases hrunning
    · exact (h.withIndex hbegun).withScan hscan
  · exact h.withoutScan fun scan hrunning => by cases hrunning

theorem Sound.release (h : s.Sound) (path : Path) : (s.release path).1.Sound := by
  rw [Session.release]
  split
  · rename_i scan hheld
    split
    · rename_i hpath
      have hread := (h.held hheld).read (by simpa using hpath) s.store
      have hcounted := s.index.advances_countReads 1
      dsimp only
      split
      · exact (h.withIndex (hcounted.trans (Index.advances_finishScan _ hread))).withoutScan
          fun scan hrunning => by cases hrunning
      · exact (h.withIndex hcounted).withScan hread
    · exact h
  · exact h

theorem Sound.finishScan (h : s.Sound) {held : HeldScan} (hheld : s.held = some held) :
    (s.finishScan held).1.Sound := by
  cases held with
  | running scan =>
    have hread := ((h.held hheld).readAll s.store).1
    have hcounted := s.index.advances_countReads scan.pending.length
    exact (h.withIndex (hcounted.trans (Index.advances_finishScan _ hread))).withoutScan
      fun scan hrunning => by cases hrunning
  | _ => exact h.withoutScan fun scan hrunning => by cases hrunning

theorem Sound.after (h : s.Sound) (step : Step) : (s.after step).Sound := by
  cases step with
  | write path text => exact h.withStore _
  | list path => exact h.withStore _
  | delete path => exact h.withStore _
  | setUnreadable path on => exact h.withStore _
  | scan force => exact h.ask _
  | beginScan force =>
    cases hheld : s.held with
    | none => simpa [Session.after, run, hheld] using h.beginScan force
    | some held => simpa [Session.after, run, hheld] using h
  | release path => exact h.release _
  | finishScan =>
    cases hheld : s.held with
    | none => simpa [Session.after, run, hheld] using h
    | some held => simpa [Session.after, run, hheld] using h.finishScan hheld
  | update path => exact h.withIndex (s.index.advances_update s.store _)
  | remove path => exact h.withIndex (s.index.advances_remove _)
  | invalidate => exact h.withIndex s.index.advances_invalidate
  | dispose => exact h.ask _
  | setGlobs included excluded => exact h.setGlobs included excluded
  | selectNothing => exact h.withIndex (s.index.advances_setFilter _)
  | applySettings settings => exact h.ask _
  | events events => exact h.ask _
  | resolve name => exact h.withResolver (h.resolver.resolve name).1
  | resolveValue value => exact h.withResolver (h.resolver.resolveEach _).1
  | allResolved => exact h.withResolver h.resolver.allResolved.1
  | cached => exact h.withResolver h.resolver.sync
  | clearCache => exact h.withResolver h.resolver.forgetAll
  | suggest value limit => exact h.ask _
  | analyze text path => exact h.ask _
  | analyzeProject => exact h.ask _
  | settings | get name | all | lookup name | definedIn path | selects paths => exact h

theorem Sound.afterAll (h : s.Sound) (steps : List Step) : (s.afterAll steps).Sound := by
  induction steps generalizing s with
  | nil => exact h
  | cons step rest ih => exact ih (h.after step)

end Session

end StyleVars
