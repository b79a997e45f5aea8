import StyleVars.Glob.Compiler
import StyleVars.Proofs.Resolution.Outcome
import StyleVars.Proofs.Workspace.Session

/-!
# Answers as if there were no caches

Two caches stand between a question and its answer: a resolver keeps resolutions by name, and a
workspace keeps diagnostics by path and text, computed with a resolver of its own. Neither can be
seen. Whatever was asked or changed before, in whatever order, a resolver answers what the catalog
of the moment gives, and a workspace answers what its settings and catalog of the moment give.
-/

namespace StyleVars

namespace Session

variable {s : Session}

theorem Sound.answer_resolve (h : s.Sound) (name : String) :
    s.answer (.resolve name) = .ok (.resolution (s.index.catalog.resolve name)) := by
  rw [← (h.resolver.resolve name).2]
  rfl

theorem Sound.answer_resolveValue (h : s.Sound) (value : String) :
    s.answer (.resolveValue value) = .ok (.text (s.index.catalog.resolveValue value)) := by
  rw [← h.resolver.resolveValue value]
  rfl

theorem Sound.answer_allResolved (h : s.Sound) :
    s.answer .allResolved = .ok (.listed (s.index.catalog.all.map fun info =>
      { info with resolved := (s.index.catalog.resolve info.entry.name).value? })) := by
  have hconsistent : s.index.catalog.Consistent := h.workspace.consistent
  rw [← hconsistent.allResolved_eq, ← h.resolver.allResolved.2]
  rfl

/-- After any steps a resolver answers from the catalog of the moment. A name is resolved as without
a cache, and so are the references in a value. The list of all variables with their resolved values
is the list of all variables with nothing changed but the value, which is what the name resolves to
where it does, and is missing where it does not. -/
theorem resolver_answers_without_cache {compiler : GlobCompiler} {root : Path}
    {settings : Settings} {w : Workspace}
    (hcreate : Workspace.create compiler root settings = .ok w) (store : FileStore) (steps : List Step) :
    let s := (start w store).afterAll steps
    let catalog := s.index.catalog
    (∀ name, s.answer (.resolve name) = .ok (.resolution (catalog.resolve name))) ∧
      (∀ value, s.answer (.resolveValue value) = .ok (.text (catalog.resolveValue value))) ∧
      (s.answer .all = .ok (.listed catalog.all) ∧
        s.answer .allResolved = .ok (.listed (catalog.all.map fun info =>
          { info with resolved := (catalog.resolve info.entry.name).value? }))) ∧
      ∀ name, (catalog.resolve name).value?.isSome ↔
        ∃ info, (catalog.resolve name).outcome = .ok info := by
  intro s catalog
  have hsound : s.Sound := (sound_start hcreate store).afterAll steps
  exact ⟨hsound.answer_resolve, hsound.answer_resolveValue, ⟨rfl, hsound.answer_allResolved⟩,
    catalog.isSome_value?_resolve⟩

/-- A name is resolved, a definition that it rests on changes, and the name is resolved again. The
second answer is the new value. -/
theorem resolver_answers_without_cache_after_update :
    ∃ w, Workspace.create .standard (.ofString "/project") .byDefault = .ok w ∧
      let store := FileStore.empty.write "/project/a.css" "a \x7b --x: var(--y); --y: 1px \x7d"
      let s := (start w store).afterAll [.scan false, .resolve "--x",
        .write "/project/a.css" "a \x7b --x: var(--y); --y: 2px \x7d", .update "/project/a.css"]
      s.answer (.resolve "--x") = .ok (.resolution (s.index.catalog.resolve "--x")) ∧
        (s.index.catalog.resolve "--x").value? = some "2px" := by
  have hrun : (Workspace.create .standard (.ofString "/project") .byDefault).toOption.any (fun w =>
      let store := FileStore.empty.write "/project/a.css" "a \x7b --x: var(--y); --y: 1px \x7d"
      let s := (start w store).afterAll [.scan false, .resolve "--x",
        .write "/project/a.css" "a \x7b --x: var(--y); --y: 2px \x7d", .update "/project/a.css"]
      decide ((s.index.catalog.resolve "--x").value? = some "2px")) = true := by
    decide +kernel
  obtain ⟨w, hcreate, hchecked⟩ := Workspace.exists_create_of_any hrun
  refine ⟨w, hcreate, ?_, of_decide_eq_true hchecked⟩
  exact (resolver_answers_without_cache hcreate _ _).1 "--x"

end Session

namespace Workspace

variable {w : Workspace}

/-- The workspace with its settings and its index, but without anything cached. -/
def withoutCaches (w : Workspace) : Workspace :=
  { w with resolver := .start w.index, diagnostics := .empty w.version }

theorem Sound.withoutCaches (h : w.Sound) : w.withoutCaches.Sound where
  consistent := h.consistent
  resolver := Resolver.faithful_start w.index
  diagnostics := .empty w.version

/-- After any requests the diagnostics of a text are those that are computed without any cache, and
so those that the settings and the catalog of the moment give, whatever was analyzed before and
under whatever paths. -/
theorem analyze_answers_without_cache {compiler : GlobCompiler} {root : Path}
    {settings : Settings} (hcreate : create compiler root settings = .ok w)
    (requests : List Request) (text : String) (path : Path) :
    let now := w.serveAll requests
    (now.analyze text path).2 = (now.withoutCaches.compute text).2 ∧
      (now.analyze text path).2 = now.settings.diagnose now.index.catalog text := by
  intro now
  have hsound : now.Sound := (sound_create hcreate).serveAll requests
  have hanalyze := (hsound.analyze text path).1
  obtain ⟨resolver, _, hcompute⟩ := hsound.withoutCaches.compute text
  refine ⟨?_, hanalyze⟩
  rw [hanalyze, hcompute]
  rfl

/-- A text is analyzed, then its only definition is edited away and the settings change. The second
analysis of the same text at the same path reports the reference, with the new severity. -/
theorem analyze_answers_without_cache_after_edit :
    ∃ w, create .standard (.ofString "/project") .byDefault = .ok w ∧
      let store := FileStore.empty.write "/project/a.css" "a \x7b --x: 1px \x7d"
      let edited := store.write "/project/a.css" "a \x7b --y: 1px \x7d"
      let text := "b \x7b color: var(--x) \x7d"
      let path := Path.ofString "/project/b.css"
      let lenient : Settings := { Settings.byDefault with
        severities := { undefinedVariable := "hint" } }
      let before := w.serveAll [.scan store false, .analyze text path]
      let now := w.serveAll [.scan store false, .analyze text path,
        .handleEvents edited [.changed "/project/a.css"], .applySettings lenient]
      (before.analyze text path).2 = [] ∧
        (now.analyze text path).2.map (fun d => (d.range, d.severity)) =
          [(⟨⟨0, 11⟩, ⟨0, 19⟩⟩, .hint)] := by
  have hrun : (create .standard (.ofString "/project") .byDefault).toOption.any (fun w =>
      let store := FileStore.empty.write "/project/a.css" "a \x7b --x: 1px \x7d"
      let edited := store.write "/project/a.css" "a \x7b --y: 1px \x7d"
      let text := "b \x7b color: var(--x) \x7d"
      let path := Path.ofString "/project/b.css"
      let lenient : Settings := { Settings.byDefault with
        severities := { undefinedVariable := "hint" } }
      let before := w.serveAll [.scan store false, .analyze text path]
      let now := w.serveAll [.scan store false, .analyze text path,
        .handleEvents edited [.changed "/project/a.css"], .applySettings lenient]
      decide (before.settings.diagnose before.index.catalog text = []) &&
        decide ((now.settings.diagnose now.index.catalog text).map
          (fun d => (d.range, d.severity)) = [(⟨⟨0, 11⟩, ⟨0, 19⟩⟩, .hint)])) = true := by
    decide +kernel
  obtain ⟨w, hcreate, hchecked⟩ := exists_create_of_any hrun
  simp only [Bool.and_eq_true, decide_eq_true_eq] at hchecked
  refine ⟨w, hcreate, ?_, ?_⟩
  · exact (analyze_answers_without_cache hcreate _ _ _).2.trans hchecked.1
  · rw [(analyze_answers_without_cache hcreate _ _ _).2]
    exact hchecked.2

end Workspace

end StyleVars
