import Mathlib.Algebra.GroupWithZero.Nat
import Mathlib.Data.List.Forall2
import StyleVars.Proofs.Path.Order
import StyleVars.Proofs.Text.Position
import StyleVars.Proofs.Workspace.Uncached

/-!
# Reports add up

A report is built file by file, and a file is left out when it cannot be read or when nothing is
found in it. The counts of a file come from its diagnostics and the totals from the counts, so the
totals are the numbers of all diagnostics. Each example shows a line of its file, since every
diagnostic, whatever it is about, has a range between two offsets of the text.
-/

namespace StyleVars

/-! ## Counts by severity -/

namespace SeverityCounts

/-- The count for a severity. -/
def of (c : SeverityCounts) : Severity → Nat
  | .error => c.errors
  | .warning => c.warnings
  | .information => c.information
  | .hint => c.hints

theorem of_zero (severity : Severity) : zero.of severity = 0 := by cases severity <;> rfl

theorem of_add (c d : SeverityCounts) (severity : Severity) :
    (c.add d).of severity = c.of severity + d.of severity := by
  cases severity <;> rfl

theorem of_count (c : SeverityCounts) (found : Option Severity) (severity : Severity) :
    (c.count found).of severity =
      c.of severity + if found.getD .information = severity then 1 else 0 := by
  cases found with
  | none => cases severity <;> rfl
  | some other => cases other <;> cases severity <;> rfl

theorem of_foldl_count (c : SeverityCounts) (found : List (Option Severity))
    (severity : Severity) :
    (found.foldl count c).of severity =
      c.of severity + found.countP (·.getD .information = severity) := by
  induction found generalizing c with
  | nil => rfl
  | cons first rest ih =>
    rw [List.foldl_cons, ih, of_count, List.countP_cons, Nat.add_assoc, Nat.add_comm (ite _ _ _)]
    simp only [decide_eq_true_eq]

theorem of_foldl_count_severity (ds : List Diagnostic) (severity : Severity) :
    (ds.foldl (fun counts d => counts.count (some d.severity)) zero).of severity =
      ds.countP (·.severity = severity) := by
  have hfold := of_foldl_count zero (ds.map fun d => some d.severity) severity
  rw [List.foldl_map, of_zero, Nat.zero_add, List.countP_map] at hfold
  exact hfold

end SeverityCounts

/-! ## The places of diagnostics -/

namespace LineTable

/-- The range lies between two offsets of the text. -/
def Covers (t : LineTable) (r : Range) : Prop := ∃ start stop, r = t.range start stop

theorem covers_range (t : LineTable) (start stop : Nat) : t.Covers (t.range start stop) :=
  ⟨start, stop, rfl⟩

theorem covers_rangeOf (t : LineTable) (e : Excerpt) : t.Covers (t.rangeOf e) :=
  t.covers_range e.start e.stop

variable {lines : LineTable}

theorem covers_of_read_eq_error {segment : Excerpt} {p : Problem}
    (h : Declaration.read lines segment = .error p) : lines.Covers p.range := by
  rw [Declaration.read] at h
  split at h
  · cases h
    exact lines.covers_rangeOf _
  · dsimp only at h
    split at h
    · cases h
      exact lines.covers_rangeOf _
    · cases h

theorem covers_problemsOf (body : Excerpt) :
    ∀ p ∈ problemsOf (readBody lines body), lines.Covers p.range := by
  intro p hp
  obtain ⟨result, hresult, hproblem⟩ := List.mem_filterMap.mp hp
  obtain ⟨segment, _, hread⟩ := List.mem_map.mp hresult
  cases result with
  | ok d => cases hproblem
  | error q =>
    cases hproblem
    exact covers_of_read_eq_error hread

theorem covers_ruleProblems (selector : Excerpt) (brace : Nat) (body : Excerpt) (closed : Bool) :
    ∀ p ∈ Chunk.ruleProblems lines selector brace body closed, lines.Covers p.range := by
  have hone (cause : Problem.Cause) (offset : Nat) :
      ∀ p ∈ [(⟨cause, lines.range offset (offset + 1)⟩ : Problem)], lines.Covers p.range :=
    List.forall_mem_singleton.mpr (lines.covers_range _ _)
  rw [Chunk.ruleProblems]
  refine List.forall_mem_append.mpr ⟨List.forall_mem_append.mpr ⟨List.forall_mem_append.mpr
    ⟨?_, ?_⟩, ?_⟩, covers_problemsOf body⟩
  · split
    · exact hone _ _
    · exact List.forall_mem_nil _
  · split
    · exact List.forall_mem_nil _
    · exact hone _ _
  · split
    · exact hone _ _
    · exact List.forall_mem_nil _

theorem covers_problems (stop groups : Nat) (chunks : List Chunk) :
    ∀ p ∈ Chunk.problems lines stop groups chunks, lines.Covers p.range := by
  -- Text that should not be there is a problem, unless it is of a kind that may stand there.
  have htext (mayStand : Bool) (cause : Problem.Cause) (text : Excerpt) :
      ∀ p ∈ if mayStand then [] else [(⟨cause, lines.rangeOf text⟩ : Problem)],
        lines.Covers p.range := by
    split
    · exact List.forall_mem_nil _
    · exact List.forall_mem_singleton.mpr (lines.covers_rangeOf text)
  fun_induction Chunk.problems lines stop groups chunks with
  | case1 => exact List.forall_mem_nil _
  | case2 => exact List.forall_mem_singleton.mpr (lines.covers_range _ _)
  | case3 groups text rest ih => exact List.forall_mem_append.mpr ⟨htext _ _ text, ih⟩
  | case4 groups rest ih => exact ih
  | case5 offset rest ih => exact List.forall_mem_cons.mpr ⟨lines.covers_range _ _, ih⟩
  | case6 groups offset rest ih => exact ih
  | case7 groups selector brace body closed rest ih =>
    exact List.forall_mem_append.mpr ⟨covers_ruleProblems selector brace body closed, ih⟩
  | case8 groups text rest ih => exact List.forall_mem_append.mpr ⟨htext _ _ text, ih⟩

theorem covers_usages (d : Declaration) : ∀ u ∈ d.usages lines, lines.Covers u.range := by
  rw [Declaration.usages]
  split
  · exact List.forall_mem_nil _
  · exact List.forall_mem_map.mpr fun r _ => lines.covers_rangeOf r.source

theorem covers_literals (checked : List String) (d : Declaration) :
    ∀ l ∈ d.literals lines checked, lines.Covers l.range := by
  rw [Declaration.literals]
  split
  · exact List.forall_mem_nil _
  refine List.forall_mem_append.mpr ⟨?_, ?_⟩
  · intro l hl
    obtain ⟨f, _, hf⟩ := List.mem_filterMap.mp hl
    split at hf
    · cases hf
      exact lines.covers_rangeOf f
    · cases hf
  · split
    · exact List.forall_mem_map.mpr fun e _ => lines.covers_rangeOf e
    · exact List.forall_mem_nil _

end LineTable

namespace Sheet

open LineTable

variable (text : String)

theorem covers_problems :
    ∀ p ∈ (ofString text).problems, (LineTable.ofString text).Covers p.range := by
  refine List.forall_mem_append.mpr ⟨?_, LineTable.covers_problems _ _ _⟩
  split
  · exact List.forall_mem_singleton.mpr (covers_range _ _ _)
  · exact List.forall_mem_nil _

theorem covers_rules :
    ∀ r ∈ (ofString text).rules, (LineTable.ofString text).Covers r.selectorRange := by
  intro r hr
  obtain ⟨chunk, _, hrule⟩ := List.mem_filterMap.mp hr
  cases chunk with
  | rule selector brace body closed =>
    cases hrule
    exact covers_rangeOf _ selector
  | statement | group | close | tail => cases hrule

end Sheet

/-- Every diagnostic of a text has its place in it. -/
theorem Settings.covers_diagnose (s : Settings) (catalog : Catalog) (text : String) :
    ∀ d ∈ s.diagnose catalog text, (LineTable.ofString text).Covers d.range := by
  rw [diagnose, check]
  refine List.forall_mem_append.mpr ⟨List.forall_mem_append.mpr ⟨List.forall_mem_append.mpr
    ⟨?usages, ?literals⟩, ?duplicates⟩, ?problems⟩
  case usages =>
    refine List.forall_mem_map.mpr fun u hu => ?_
    obtain ⟨d, _, hmem⟩ := List.mem_flatMap.mp (List.mem_filter.mp hu).1
    exact LineTable.covers_usages d u hmem
  case literals =>
    refine List.forall_mem_map.mpr fun l hl => ?_
    obtain ⟨d, _, hmem⟩ := List.mem_flatMap.mp (List.mem_filter.mp hl).1
    exact LineTable.covers_literals _ d l hmem
  case duplicates =>
    intro d hd
    obtain ⟨name, _, hmem⟩ := List.mem_flatMap.mp hd
    obtain ⟨r, hr, rfl⟩ := List.mem_map.mp hmem
    exact Sheet.covers_rules text r (List.mem_filter.mp (List.mem_of_mem_drop hr)).1
  case problems => exact List.forall_mem_map.mpr (Sheet.covers_problems text)

/-! ## Examples -/

theorem trimBlanks_append {cs blanks : List Char} (h : ∀ c ∈ blanks, isBlank c) :
    trimBlanks (cs ++ blanks) = trimBlanks cs := by
  have hreverse : ∀ c ∈ blanks.reverse, isBlank c := fun c hc => h c (List.mem_reverse.mp hc)
  rw [trimBlanks, trimBlanks, List.dropWhile_append]
  split
  · rename_i hnil
    rw [List.isEmpty_iff.mp hnil, List.dropWhile_eq_nil_iff.mpr h]
  · rw [dropTrailing, List.reverse_append, List.dropWhile_append_of_pos hreverse, dropTrailing]

/-- Carriage returns at the end of a line are blanks. -/
theorem trimBlanks_dropTrailing (cs : List Char) :
    trimBlanks (dropTrailing (· == '\r') cs) = trimBlanks cs := by
  have hsplit : dropTrailing (· == '\r') cs ++ (cs.reverse.takeWhile (· == '\r')).reverse = cs := by
    rw [dropTrailing, ← List.reverse_append, List.takeWhile_append_dropWhile, List.reverse_reverse]
  have hblanks : ∀ c ∈ (cs.reverse.takeWhile (· == '\r')).reverse, isBlank c := by
    intro c hc
    have hreturn := List.mem_takeWhile_imp (List.mem_reverse.mp hc)
    rw [beq_iff_eq.mp hreturn]
    decide
  rw [← trimBlanks_append hblanks, hsplit]

theorem map_chars_lines (start : Nat) (cs : List Char) :
    (LineTable.ofChars start cs).lines.map (·.chars) = splitAtEach '\n' cs := by
  induction cs generalizing start with
  | nil => rfl
  | cons c cs ih =>
    rw [splitAtEach, ← ih (start + c.utf8Size), LineTable.ofChars]
    split <;> rfl

/-- The example shows where the diagnostic starts: the number of a line of the text, counted from
one, and that line without the blanks around it. -/
structure Example.Shows (text : String) (e : Example) (d : Diagnostic) : Prop where
  number : e.line = d.range.start.line + 1
  line : ∃ line, (splitAtEach '\n' text.toList)[e.line - 1]? = some line ∧
    e.text = String.ofList (trimBlanks line)
  message : e.message = d.message

theorem Example.shows_ofDiagnostic {text : String} {d : Diagnostic}
    (h : (LineTable.ofString text).Covers d.range) :
    (Example.ofDiagnostic (.ofString text) d).Shows text d := by
  obtain ⟨start, stop, hrange⟩ := h
  have hline : d.range.start.line < (LineTable.ofString text).lines.length := by
    rw [hrange]
    exact LineTable.line_position_lt_count start text.toList
  have hsplit : (splitAtEach '\n' text.toList)[d.range.start.line]? =
      some ((LineTable.ofString text).lines[d.range.start.line]).chars := by
    rw [← map_chars_lines 0, List.getElem?_map]
    exact congrArg (Option.map (·.chars)) (List.getElem?_eq_getElem hline)
  refine ⟨rfl, ⟨_, hsplit, ?_⟩, rfl⟩
  rw [ofDiagnostic, LineTable.lineText?, List.getElem?_eq_getElem hline, Option.map_some,
    Option.getD_some, trim, String.toList_ofList, trimBlanks_dropTrailing]

/-! ## Summing up -/

/-- The report sums up the files at `paths`, where `text?` gives the texts that can be read and
`found` the diagnostics of a file. -/
structure ProjectReport.SumsUp (report : ProjectReport) (text? : String → Option String)
    (found : String → List Diagnostic) (paths : List String) : Prop where
  /-- The files with diagnostics are listed in order. -/
  listed : report.files.map (·.path) = paths.filter fun path => found path ≠ []
  /-- The totals count all diagnostics. -/
  totals : ∀ severity,
    report.totals.of severity = (paths.flatMap found).countP (·.severity = severity)
  /-- The totals are the sums of the counts of the files. -/
  sums : ∀ severity,
    report.totals.of severity = (report.files.map (·.counts.of severity)).sum
  /-- The counts of a file are those of its diagnostics. -/
  counts : ∀ file ∈ report.files, ∀ severity,
    file.counts.of severity = (found file.path).countP (·.severity = severity)
  /-- The examples of a file show its first diagnostics, five at most. -/
  examples : ∀ file ∈ report.files, ∃ text, text? file.path = some text ∧
    List.Forall₂ (Example.Shows text) file.examples ((found file.path).take 5)

namespace ProjectReport

variable {report : ProjectReport} {text? : String → Option String}
  {found : String → List Diagnostic} {paths : List String} {path : String}

theorem sumsUp_start (total : Nat) : (start total).SumsUp text? found [] where
  listed := rfl
  totals := SeverityCounts.of_zero
  sums := SeverityCounts.of_zero
  counts := List.forall_mem_nil _
  examples := List.forall_mem_nil _

/-- A file without diagnostics adds nothing. -/
theorem SumsUp.skip (h : report.SumsUp text? found paths) (hnone : found path = []) :
    report.SumsUp text? found (paths ++ [path]) where
  listed := by
    rw [h.listed, List.filter_append, List.filter_singleton, hnone]
    exact (List.append_nil _).symm
  totals severity := by
    rw [h.totals, List.flatMap_append, List.flatMap_singleton, hnone, List.append_nil]
  sums := h.sums
  counts := h.counts
  examples := h.examples

theorem SumsUp.add (h : report.SumsUp text? found paths) {text : String}
    (htext : text? path = some text)
    (hcovers : ∀ d ∈ found path, (LineTable.ofString text).Covers d.range) :
    (report.add path text (found path)).SumsUp text? found (paths ++ [path]) := by
  rw [ProjectReport.add]
  by_cases hnone : found path = []
  · rw [hnone, List.isEmpty_nil, if_pos rfl]
    exact h.skip hnone
  rw [if_neg (by simpa using hnone)]
  have hcounts (severity : Severity) :
      (FileReport.ofDiagnostics path text (found path)).counts.of severity =
        (found path).countP (·.severity = severity) :=
    SeverityCounts.of_foldl_count_severity _ severity
  refine ⟨?_, fun severity => ?_, fun severity => ?_, fun file hfile => ?_, fun file hfile => ?_⟩
  · rw [List.map_append, h.listed, List.filter_append, List.filter_singleton,
      decide_eq_true hnone]
    rfl
  · rw [SeverityCounts.of_add, hcounts, h.totals, List.flatMap_append, List.flatMap_singleton,
      List.countP_append]
  · rw [SeverityCounts.of_add, h.sums, List.map_append, List.sum_append, List.map_singleton,
      List.sum_singleton]
  · rcases List.mem_append.mp hfile with hbefore | hlast
    · exact h.counts file hbefore
    · cases List.mem_singleton.mp hlast
      exact hcounts
  · rcases List.mem_append.mp hfile with hbefore | hlast
    · exact h.examples file hbefore
    · cases List.mem_singleton.mp hlast
      refine ⟨text, htext, List.forall₂_map_left_iff.mpr (List.forall₂_same.mpr fun d hd => ?_)⟩
      exact Example.shows_ofDiagnostic (hcovers d (List.mem_of_mem_take hd))

end ProjectReport

namespace Workspace

variable {w : Workspace} {store : FileStore} {report : ProjectReport} {paths : List String}

/-- What the analysis of a single file finds, if the file can be read. -/
def found (w : Workspace) (store : FileStore) (path : String) : List Diagnostic :=
  match store.read? (.ofString path) with
  | some text => (w.analyze text (.ofString path)).2
  | none => []

/-- The text of a file, if the file can be read. -/
abbrev textAt? (store : FileStore) (path : String) : Option String := store.read? (.ofString path)

/-- What is found in one file does not depend on the caches. -/
theorem Sound.found_congr {next : Workspace} (h : w.Sound) (hnext : next.Sound)
    (hsettings : next.settings = w.settings) (hindex : next.index = w.index) :
    next.found store = w.found store := by
  funext path
  rw [found, found]
  split
  · rw [(h.analyze _ _).1, (hnext.analyze _ _).1, hsettings, hindex]
  · rfl

theorem Sound.sumsUp_analyzeFile (h : w.Sound)
    (hreport : report.SumsUp (textAt? store) (w.found store) paths) (path : String) :
    (Workspace.analyzeFile store (w, report) path).2.SumsUp (textAt? store) (w.found store)
      (paths ++ [path]) := by
  rw [Workspace.analyzeFile]
  cases htext : store.read? (.ofString path) with
  | none => exact hreport.skip (by rw [found, htext])
  | some text =>
    have hfound : w.found store path = (w.analyze text (.ofString path)).2 := by
      rw [found, htext]
    dsimp only
    rw [← hfound]
    refine hreport.add htext fun d hd => ?_
    rw [hfound, (h.analyze text _).1] at hd
    exact Settings.covers_diagnose _ _ text d hd

theorem Sound.found_analyzeFile (h : w.Sound) (store : FileStore) (report : ProjectReport)
    (path : String) :
    (Workspace.analyzeFile store (w, report) path).1.found store = w.found store := by
  refine h.found_congr (h.analyzeFile store report path) ?_ (index_analyzeFile store _ path)
  rw [Workspace.analyzeFile]
  dsimp only
  split
  · rename_i text _
    obtain ⟨_, _, hanalyze⟩ := w.exists_analyze_eq text (.ofString path)
    rw [hanalyze]
  · rfl

/-- The files that come after `paths` are summed up with them. -/
theorem Sound.sumsUp_foldl (h : w.Sound)
    (hreport : report.SumsUp (textAt? store) (w.found store) paths) (more : List String) :
    (more.foldl (Workspace.analyzeFile store) (w, report)).2.SumsUp (textAt? store)
      (w.found store) (paths ++ more) := by
  induction more generalizing w report paths with
  | nil => rwa [List.append_nil]
  | cons path more ih =>
    have hstep := h.sumsUp_analyzeFile hreport path
    have hsame := h.found_analyzeFile store report path
    rw [← hsame] at hstep ⊢
    rw [List.append_cons]
    exact ih (h.analyzeFile store report path) hstep

theorem filesScanned_foldl (state : Workspace × ProjectReport) (more : List String) :
    (more.foldl (analyzeFile store) state).2.filesScanned = state.2.filesScanned := by
  induction more generalizing state with
  | nil => rfl
  | cons path more ih =>
    rw [List.foldl_cons, ih, analyzeFile]
    dsimp only
    split
    · rw [ProjectReport.add]
      split <;> rfl
    · rfl

/-- Progress is told once for each path, numbered from one. -/
theorem progress_zipIdx (paths : List String) :
    let progress := paths.zipIdx.map fun file => (⟨file.2 + 1, paths.length, file.1⟩ : Progress)
    progress.map (·.processed) = List.range' 1 paths.length ∧
      progress.map (·.path) = paths ∧ ∀ step ∈ progress, step.total = paths.length := by
  refine ⟨List.ext_getElem ?_ fun i _ _ => ?_, List.ext_getElem ?_ fun i _ _ => ?_, ?_⟩
  · simp
  · simp [Nat.add_comm]
  · simp
  · simp
  · intro step hstep
    obtain ⟨file, _, rfl⟩ := List.mem_map.mp hstep
    rfl

/-- After any requests, the report on a project sums up the files that match, in the order of their
paths, and progress is told after each of them. A finding without a severity would count as
information. -/
theorem project_reports_add_up {compiler : GlobCompiler} {root : Path} {settings : Settings}
    (hcreate : create compiler root settings = .ok w) (requests : List Request)
    (store : FileStore) :
    let now := w.serveAll requests
    let report := (now.analyzeProject store).2.1
    let progress := (now.analyzeProject store).2.2
    (∃ paths : List String,
      (paths.Perm (store.find now.index.filter) ∧
        paths.Pairwise fun a b => (Path.ofString a).le (.ofString b)) ∧
      (report.filesScanned = paths.length ∧
        report.SumsUp (textAt? store) (now.found store) paths) ∧
      progress.map (·.processed) = List.range' 1 paths.length ∧
      progress.map (·.path) = paths ∧ ∀ step ∈ progress, step.total = paths.length) ∧
    ∀ (severities : List (Option Severity)) (severity : Severity),
      (severities.foldl SeverityCounts.count .zero).of severity =
        severities.countP (·.getD .information = severity) := by
  intro now report progress
  have hsound : now.Sound := (sound_create hcreate).serveAll requests
  obtain ⟨_, hreport, hprogress⟩ := now.analyzeProject_spec store
  refine ⟨⟨now.projectFiles store, ⟨List.mergeSort_perm _ _, Path.pairwise_mergeSort_le _⟩,
    ⟨?_, ?_⟩, ?_⟩, fun severities severity => ?_⟩
  · exact (congrArg ProjectReport.filesScanned hreport).trans (filesScanned_foldl _ _)
  · rw [show report = _ from hreport]
    exact hsound.sumsUp_foldl (ProjectReport.sumsUp_start _) _
  · rw [show progress = _ from hprogress]
    exact progress_zipIdx _
  · rw [SeverityCounts.of_foldl_count, SeverityCounts.of_zero, Nat.zero_add]

/-- Of three files that match, one is clean and one cannot be read. -/
theorem project_reports_add_up_of_one_broken_file :
    let store := (((FileStore.empty.write "/project/b.css" "a \x7b\x7d").write "/project/a.css"
      "a \x7b\x7d\n \x7d x\r\n").write "/project/c.css" "\x7d").setUnreadable "/project/c.css" true
    ∃ w, create .standard (.ofString "/project") .byDefault = .ok w ∧
      (w.analyzeProject store).2.1.files.map (·.path) = ["/project/a.css"] ∧
      (w.analyzeProject store).2.1.totals.of .warning = 2 := by
  intro store
  have hcheck : (create .standard (.ofString "/project") .byDefault).toOption.any (fun w =>
      (store.find w.index.filter).filter (fun path => w.found store path ≠ []) =
          ["/project/a.css"] ∧
        ((store.find w.index.filter).flatMap (w.found store)).countP (·.severity = .warning) =
          2) = true := by
    decide +kernel +zetaReduce
  obtain ⟨w, hcreate, hw⟩ := exists_create_of_any hcheck
  obtain ⟨hlisted, hcount⟩ := of_decide_eq_true hw
  obtain ⟨⟨paths, ⟨hperm, _⟩, ⟨_, hsum⟩, _⟩, _⟩ := project_reports_add_up hcreate [] store
  refine ⟨w, hcreate, hsum.listed.trans ?_, (hsum.totals .warning).trans ?_⟩
  · exact List.perm_singleton.mp ((hperm.filter _).trans (.of_eq hlisted))
  · exact ((hperm.flatMap_right _).countP_eq _).trans hcount

end Workspace

end StyleVars
