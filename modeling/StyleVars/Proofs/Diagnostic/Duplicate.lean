import Mathlib.Data.List.Induction
import StyleVars.Proofs.Sheet.Layout
import StyleVars.Proofs.Sheet.Survey
import StyleVars.Proofs.Text.Position
import StyleVars.Proofs.Workspace.Uncached

/-!
# Classes with more than one rule

A rule is for a class when its selector is the class and nothing else. Which classes have more than
one rule is found by counting them in one pass over the rules, and where the rules after the first
stand is found in a second pass that compares selectors with the names. Together they report every
rule for which there is an earlier rule with the same class, once and at its own selector, and no
other rule.
-/

namespace StyleVars

/-! ## Bare class selectors -/

/-- A name of a class: a letter or an underscore, perhaps after one hyphen, and then name
characters. -/
def IsClassName (name : String) : Prop :=
  ∃ hyphen first rest, name.toList = hyphen ++ first :: rest ∧ (hyphen = [] ∨ hyphen = ['-']) ∧
    isNameStart first ∧ ∀ c ∈ rest, isNameChar c

theorem isOrdinaryName_iff (name : String) : isOrdinaryName name.toList ↔ IsClassName name := by
  rw [isOrdinaryName.eq_def, IsClassName]
  constructor
  · intro h
    split at h
    · rename_i c rest hname
      obtain ⟨hc, hrest⟩ := Bool.and_eq_true_iff.mp h
      exact ⟨['-'], c, rest, hname, .inr rfl, hc, List.all_eq_true.mp hrest⟩
    · rename_i c rest _ hname
      obtain ⟨hc, hrest⟩ := Bool.and_eq_true_iff.mp h
      exact ⟨[], c, rest, hname, .inl rfl, hc, List.all_eq_true.mp hrest⟩
    · cases h
  · rintro ⟨hyphen, first, rest, hname, rfl | rfl, hfirst, hrest⟩
    · rw [hname, List.nil_append]
      split
      · -- A hyphen does not start a name.
        rename_i heq
        cases heq
        cases hfirst
      · rename_i heq
        cases heq
        exact Bool.and_eq_true_iff.mpr ⟨hfirst, List.all_eq_true.mpr hrest⟩
      · rename_i heq
        cases heq
    · rw [hname]
      exact Bool.and_eq_true_iff.mpr ⟨hfirst, List.all_eq_true.mpr hrest⟩

namespace Rule

/-- The rule is for a class, by its selector alone. -/
def IsFor (r : Rule) (name : String) : Prop :=
  IsClassName name ∧ r.selector.text = "." ++ name

/-- The class that the rule is for, if it is for one. -/
def class? (r : Rule) : Option String := className? r.selector.chars

theorem class?_eq_some_iff {r : Rule} {name : String} : r.class? = some name ↔ r.IsFor name := by
  have htext : r.selector.text = "." ++ name ↔ r.selector.chars = '.' :: name.toList := by
    rw [Excerpt.text, ← String.toList_inj, String.toList_ofList, String.toList_append]
    rfl
  rw [IsFor, htext, ← isOrdinaryName_iff, class?, className?.eq_def]
  split
  · rename_i cs hchars
    rw [hchars, List.cons_inj_right]
    split
    · rename_i hname
      constructor
      · rintro ⟨⟩
        rw [String.toList_ofList]
        exact ⟨hname, rfl⟩
      · rintro ⟨_, rfl⟩
        rw [String.ofList_toList]
    · rename_i hname
      constructor
      · rintro ⟨⟩
      · rintro ⟨hordinary, rfl⟩
        exact absurd hordinary hname
  · rename_i hdot
    constructor
    · rintro ⟨⟩
    · rintro ⟨_, hchars⟩
      exact absurd hchars (hdot _)

instance (r : Rule) (name : String) : Decidable (r.IsFor name) :=
  decidable_of_iff _ class?_eq_some_iff

/-- A rule is for one class at most. -/
theorem IsFor.eq {r : Rule} {name other : String} (h : r.IsFor name) (h' : r.IsFor other) :
    name = other :=
  Option.some.inj ((class?_eq_some_iff.mpr h).symm.trans (class?_eq_some_iff.mpr h'))

/-- The rule is for a class that one of the earlier rules is for. -/
def Repeats (r : Rule) (earlier : List Rule) : Prop :=
  ∃ name, r.IsFor name ∧ ∃ q ∈ earlier, q.IsFor name

theorem IsFor.repeats_iff {r : Rule} {name : String} (h : r.IsFor name) (earlier : List Rule) :
    r.Repeats earlier ↔ ∃ q ∈ earlier, q.IsFor name := by
  refine ⟨?_, fun hearlier => ⟨name, h, hearlier⟩⟩
  rintro ⟨other, hother, hearlier⟩
  rwa [h.eq hother]

instance (r : Rule) (earlier : List Rule) : Decidable (r.Repeats earlier) :=
  decidable_of_iff (r.class?.any fun name => earlier.any (·.IsFor name)) <| by
    simp only [Option.any_eq_true, List.any_eq_true, decide_eq_true_eq, class?_eq_some_iff]
    rfl

/-- The rules that repeat an earlier one, among rules that stand behind `earlier`. -/
def repeated (earlier : List Rule) : List Rule → List Rule
  | [] => []
  | r :: rest =>
    if r.Repeats earlier then r :: repeated (earlier ++ [r]) rest
    else repeated (earlier ++ [r]) rest

theorem class?_beq {r : Rule} {name : String} :
    (r.class? == some name) = decide (r.IsFor name) := by
  rw [Bool.eq_iff_iff, beq_iff_eq, class?_eq_some_iff, decide_eq_true_eq]

/-- Of the rules for one class, all are repeated but the first of the sheet. -/
theorem filter_repeated (name : String) (earlier rules : List Rule) :
    (repeated earlier rules).filter (·.IsFor name) =
      (rules.filter (·.IsFor name)).drop (if earlier.any (·.IsFor name) then 0 else 1) := by
  induction rules generalizing earlier with
  | nil => rw [repeated, List.filter_nil, List.drop_nil]
  | cons r rest ih =>
    have hlater := ih (earlier ++ [r])
    rw [List.any_append, List.any_cons, List.any_nil, Bool.or_false] at hlater
    rw [repeated]
    by_cases hr : r.IsFor name
    · -- Behind `r` there is an earlier rule for the class, so none of them is left out.
      rw [decide_eq_true hr, Bool.or_true, if_pos rfl, List.drop_zero] at hlater
      have hcons (rules : List Rule) :
          (r :: rules).filter (·.IsFor name) = r :: rules.filter (·.IsFor name) :=
        List.filter_cons_of_pos (decide_eq_true hr)
      have hany : r.Repeats earlier ↔ earlier.any (·.IsFor name) = true := by
        simpa using hr.repeats_iff earlier
      rw [hcons rest]
      simp only [hany]
      split
      · rw [hcons, hlater, List.drop_zero]
      · rw [hlater, List.drop_one, List.tail_cons]
    · have hcons (rules : List Rule) :
          (r :: rules).filter (·.IsFor name) = rules.filter (·.IsFor name) :=
        List.filter_cons_of_neg (by simpa using hr)
      rw [decide_eq_false hr, Bool.or_false] at hlater
      rw [hcons rest, ← hlater]
      split
      · exact hcons _
      · rfl

theorem exists_isFor_of_mem_repeated {earlier rules : List Rule} {r : Rule}
    (h : r ∈ repeated earlier rules) : ∃ name, r.IsFor name := by
  induction rules generalizing earlier with
  | nil => cases h
  | cons first rest ih =>
    rw [repeated] at h
    split at h
    · rename_i hfirst
      rcases List.mem_cons.mp h with rfl | hmem
      · obtain ⟨name, hname, _⟩ := hfirst
        exact ⟨name, hname⟩
      · exact ih hmem
    · exact ih h

end Rule

/-- A list falls into the parts that belong to the values of a key. -/
theorem perm_flatMap_filter {α κ : Type} [DecidableEq κ] {key : α → Option κ} {ks : List κ}
    {xs : List α} (hnodup : ks.Nodup) (h : ∀ x ∈ xs, ∃ k ∈ ks, key x = some k) :
    (ks.flatMap fun k => xs.filter (key · == some k)).Perm xs := by
  induction ks generalizing xs with
  | nil =>
    cases xs with
    | nil => exact .nil
    | cons x xs =>
      obtain ⟨k, hk, _⟩ := h x List.mem_cons_self
      cases hk
  | cons k ks ih =>
    obtain ⟨hk, hks⟩ := List.nodup_cons.mp hnodup
    have hothers : ∀ x ∈ xs.filter (!key · == some k), ∃ k' ∈ ks, key x = some k' := by
      intro x hx
      obtain ⟨hmem, hne⟩ := List.mem_filter.mp hx
      obtain ⟨k', hk', hkey⟩ := h x hmem
      rcases List.mem_cons.mp hk' with rfl | hlater
      · rw [hkey, beq_self_eq_true] at hne
        cases hne
      · exact ⟨k', hlater, hkey⟩
    have hsame : (ks.flatMap fun k' => (xs.filter (!key · == some k)).filter (key · == some k')) =
        ks.flatMap fun k' => xs.filter (key · == some k') := by
      refine List.flatMap_congr fun k' hk' => ?_
      rw [List.filter_filter]
      refine List.filter_congr fun x _ => ?_
      rw [Bool.and_eq_left_iff_imp]
      intro hx
      rw [beq_iff_eq.mp hx, Bool.not_eq_true', beq_eq_false_iff_ne]
      rintro ⟨⟩
      exact hk hk'
    rw [List.flatMap_cons, ← hsame]
    exact ((ih hks hothers).append_left _).trans (List.filter_append_perm _ xs)

/-! ## The classes of a sheet -/

namespace Sheet

variable (sheet : Sheet)

theorem count_classNames (name : String) :
    sheet.classNames.count name = sheet.rules.countP (·.IsFor name) := by
  rw [classNames, List.count, List.countP_filterMap]
  refine List.countP_congr fun r _ => ?_
  rw [← Rule.class?_beq, Rule.class?]
  cases className? r.selector.chars with
  | none => rfl
  | some other => simp

theorem mem_classNames {name : String} :
    name ∈ sheet.classNames ↔ ∃ r ∈ sheet.rules, r.IsFor name := by
  rw [classNames, List.mem_filterMap]
  simp only [← Rule.class?_eq_some_iff]
  rfl

theorem eraseDups_concat (names : List String) (name : String) :
    (names ++ [name]).eraseDups =
      if name ∈ names then names.eraseDups else names.eraseDups ++ [name] := by
  rw [List.eraseDups_append, List.removeAll, List.filter_singleton]
  split
  · rename_i hmem
    rw [List.elem_eq_true_of_mem hmem]
    exact List.append_nil _
  · rename_i hmem
    rw [List.elem_eq_mem, decide_eq_false hmem]
    rfl

/-- Without repetitions, classes come in the order of their first rules. -/
theorem pairwise_findIdx_eraseDups (rules : List Rule) :
    (rules.filterMap (·.class?)).eraseDups.Pairwise fun a b =>
      rules.findIdx (·.IsFor a) < rules.findIdx (·.IsFor b) := by
  induction rules using List.reverseRecOn with
  | nil => exact .nil
  | append_singleton rules r ih =>
    -- A further rule does not change where the classes of the rules before it are first met.
    have hknown {name : String} (h : name ∈ (rules.filterMap (·.class?)).eraseDups) :
        rules.findIdx (·.IsFor name) < rules.length ∧
          (rules ++ [r]).findIdx (·.IsFor name) = rules.findIdx (·.IsFor name) := by
      obtain ⟨q, hq, hclass⟩ := List.mem_filterMap.mp (List.mem_eraseDups.mp h)
      have hlt := List.findIdx_lt_length (p := fun q => decide (q.IsFor name)).mpr
        ⟨q, hq, decide_eq_true (Rule.class?_eq_some_iff.mp hclass)⟩
      exact ⟨hlt, by rw [List.findIdx_append, if_pos hlt]⟩
    have hbefore : (rules.filterMap (·.class?)).eraseDups.Pairwise fun a b =>
        (rules ++ [r]).findIdx (·.IsFor a) < (rules ++ [r]).findIdx (·.IsFor b) := by
      refine ih.imp_of_mem fun {a b} ha hb hlt => ?_
      rwa [(hknown ha).2, (hknown hb).2]
    rw [List.filterMap_append]
    cases hclass : r.class? with
    | none =>
      rw [List.filterMap_cons_none hclass, List.filterMap_nil, List.append_nil]
      exact hbefore
    | some name =>
      rw [List.filterMap_cons_some hclass, List.filterMap_nil, eraseDups_concat]
      split
      · exact hbefore
      · rename_i hnew
        refine List.pairwise_append.mpr ⟨hbefore, List.pairwise_singleton _ _, fun a ha b hb => ?_⟩
        have hnone : rules.findIdx (·.IsFor name) = rules.length := by
          rw [List.findIdx_eq_length]
          intro q hq
          rw [decide_eq_false_iff_not]
          intro hfor
          exact hnew (List.mem_filterMap.mpr ⟨q, hq, Rule.class?_eq_some_iff.mpr hfor⟩)
        rw [List.mem_singleton.mp hb, (hknown ha).2, List.findIdx_append, hnone,
          if_neg (Nat.lt_irrefl _)]
        exact Nat.lt_of_lt_of_le (hknown ha).1 (Nat.le_add_left _ _)

theorem mem_duplicateClasses_iff {name : String} :
    name ∈ sheet.duplicateClasses ↔ 2 ≤ sheet.rules.countP (·.IsFor name) := by
  rw [duplicateClasses, List.mem_filter, List.mem_eraseDups, decide_eq_true_eq, count_classNames]
  refine and_iff_right_of_imp fun hcount => ?_
  obtain ⟨r, hr, hfor⟩ := List.countP_pos_iff.mp (Nat.lt_of_succ_lt hcount)
  exact (mem_classNames sheet).mpr ⟨r, hr, of_decide_eq_true hfor⟩

theorem pairwise_duplicateClasses :
    sheet.duplicateClasses.Pairwise fun a b =>
      sheet.rules.findIdx (·.IsFor a) < sheet.rules.findIdx (·.IsFor b) :=
  (pairwise_findIdx_eraseDups sheet.rules).sublist List.filter_sublist

theorem nodup_duplicateClasses : sheet.duplicateClasses.Nodup := by
  refine (pairwise_duplicateClasses sheet).imp fun hlt => ?_
  rintro rfl
  exact Nat.lt_irrefl _ hlt

/-- Of the rules for a class, those after the first are the repeated ones. -/
theorem drop_one_filter (name : String) :
    (sheet.rules.filter (·.IsFor name)).drop 1 =
      (Rule.repeated [] sheet.rules).filter (·.IsFor name) := by
  rw [Rule.filter_repeated, List.any_nil, if_neg Bool.false_ne_true]

/-- The repeated rules, taken class by class, are all the repeated rules. -/
theorem perm_repeated :
    (sheet.duplicateClasses.flatMap fun name =>
      (sheet.rules.filter (·.IsFor name)).drop 1).Perm (Rule.repeated [] sheet.rules) := by
  have hkeys : ∀ r ∈ Rule.repeated [] sheet.rules,
      ∃ name ∈ sheet.duplicateClasses, r.class? = some name := by
    intro r hr
    obtain ⟨name, hfor⟩ := Rule.exists_isFor_of_mem_repeated hr
    refine ⟨name, ?_, Rule.class?_eq_some_iff.mpr hfor⟩
    have hmem : r ∈ (sheet.rules.filter (·.IsFor name)).drop 1 := by
      rw [drop_one_filter]
      exact List.mem_filter.mpr ⟨hr, decide_eq_true hfor⟩
    have hlength := List.length_pos_of_mem hmem
    rw [List.length_drop] at hlength
    rw [mem_duplicateClasses_iff, List.countP_eq_length_filter]
    omega
  have hperm := perm_flatMap_filter (nodup_duplicateClasses sheet) hkeys
  simp only [Rule.class?_beq] at hperm
  simpa only [drop_one_filter] using hperm

/-- No two rules have the same place: a rule starts before the next one does. -/
theorem nodup_selectorRange (text : String) :
    ((ofString text).rules.map (·.selectorRange)).Nodup := by
  rw [List.nodup_iff_pairwise_ne, List.pairwise_map]
  refine (Chunk.ordered_rules _ _).1.imp_of_mem fun {a b} ha hb hle heq => ?_
  obtain ⟨brace, body, closed, hblock, hspan, hselector, _⟩ := exists_block_of_mem_rules ha
  obtain ⟨_, _, _, _, hspan', _, _⟩ := exists_block_of_mem_rules hb
  have hlt : a.selector.start < b.selector.start := by
    have hstart : a.selector.start ≤ brace :=
      Nat.le_trans (Nat.le_add_right _ _) hselector.stop_le
    have hstop : body.start ≤ Excerpt.ruleStop body closed := by
      rw [Excerpt.ruleStop, Excerpt.stop]
      split <;> omega
    have hnext : Excerpt.ruleStop body closed ≤ b.selector.start := by
      rw [hspan, hspan'] at hle
      exact hle
    rw [hblock.start_body] at hstop
    omega
  have hvalid {r : Rule} (hr : r ∈ (ofString text).rules) :
      String.Pos.Raw.IsValid text ⟨r.selector.start⟩ :=
    (onEdges_of_firmIn (exists_of_mem_rules hr).1).2.2.1
  rw [(exists_of_mem_rules ha).2.1, (exists_of_mem_rules hb).2.1] at heq
  have hsame := (LineTable.position_inj (hvalid ha) (hvalid hb)).mp (congrArg Range.start heq)
  omega

end Sheet

/-! ## The diagnostics -/

namespace Settings

variable (s : Settings) (catalog : Catalog)

/-- What is said about a rule that repeats an earlier one. -/
def duplicateMessage (r : Rule) : String :=
  "Class '" ++ r.selector.text ++ "' is already defined by an earlier rule"

theorem message_eq_duplicateMessage {r : Rule} {name : String} (h : r.IsFor name) :
    (Finding.duplicateClass name).message = duplicateMessage r := by
  have hmessage : (Finding.duplicateClass name).message =
      "Class '." ++ name ++ "' is already defined by an earlier rule" := rfl
  have hdot : "Class '." = "Class '" ++ "." := by decide +kernel
  rw [hmessage, hdot, duplicateMessage, h.2, ← String.append_assoc]

/-- Only the third group of findings is about classes. -/
theorem filter_duplicate_diagnose (text : String) :
    (s.diagnose catalog text).filter (·.finding.code == "duplicate-class") =
      s.duplicateRules (.ofString text) := by
  have hnone (ds : List Diagnostic) (h : ∀ d ∈ ds, d.finding.code ≠ "duplicate-class") :
      ds.filter (·.finding.code == "duplicate-class") = [] := by
    rw [List.filter_eq_nil_iff]
    intro d hd
    rw [beq_iff_eq]
    exact h d hd
  have husages := hnone (s.undefinedUsages catalog (.ofString text)) <| by
    intro d hd
    obtain ⟨u, _, rfl⟩ := List.mem_map.mp hd
    exact (by decide : "undefined-variable" ≠ "duplicate-class")
  have hliterals := hnone ((s.reportedLiterals (.ofString text)).map
      (s.literalDiagnostic (catalog.allResolved.map (·.candidate)))) <| by
    intro d hd
    obtain ⟨l, _, rfl⟩ := List.mem_map.mp hd
    rw [literalDiagnostic]
    cases l.isFallback with
    | true => exact (by decide : "hardcoded-fallback" ≠ "duplicate-class")
    | false => exact (by decide : "hardcoded-value" ≠ "duplicate-class")
  have hproblems := hnone (s.problemDiagnostics (.ofString text)) <| by
    intro d hd
    obtain ⟨p, _, rfl⟩ := List.mem_map.mp hd
    exact (by decide : "parse-error" ≠ "duplicate-class")
  have hduplicates : (s.duplicateRules (.ofString text)).filter
      (·.finding.code == "duplicate-class") = s.duplicateRules (.ofString text) := by
    rw [List.filter_eq_self]
    intro d hd
    obtain ⟨name, _, hd⟩ := List.mem_flatMap.mp hd
    obtain ⟨r, _, rfl⟩ := List.mem_map.mp hd
    rfl
  rw [diagnose, check, List.filter_append, List.filter_append, List.filter_append, husages,
    hliterals, hproblems, hduplicates, List.nil_append, List.nil_append, List.append_nil]

/-- What is reported about classes, class by class. -/
theorem map_duplicateRules (sheet : Sheet) :
    (s.duplicateRules sheet).map (fun d => (d.range, d.severity, d.message)) =
      (sheet.duplicateClasses.flatMap fun name =>
        (sheet.rules.filter (·.IsFor name)).drop 1).map fun r =>
          (r.selectorRange, s.duplicateSeverity, duplicateMessage r) := by
  rw [duplicateRules, List.map_flatMap, List.map_flatMap]
  refine List.flatMap_congr fun name hname => ?_
  have hclass : IsClassName name := by
    obtain ⟨r, _, hfor⟩ := List.countP_pos_iff.mp
      (Nat.lt_of_succ_lt ((sheet.mem_duplicateClasses_iff).mp hname))
    exact (of_decide_eq_true hfor).1
  have hfilter : sheet.rules.filter (fun r => r.selector.text == "." ++ name) =
      sheet.rules.filter (·.IsFor name) := by
    refine List.filter_congr fun r _ => ?_
    rw [Bool.eq_iff_iff, beq_iff_eq, decide_eq_true_eq, Rule.IsFor]
    exact ⟨fun htext => ⟨hclass, htext⟩, And.right⟩
  rw [hfilter, List.map_map]
  refine List.map_congr_left fun r hr => ?_
  have hfor : r.IsFor name := of_decide_eq_true (List.mem_filter.mp (List.mem_of_mem_drop hr)).2
  rw [Function.comp_apply, Diagnostic.message, message_eq_duplicateMessage hfor]

end Settings

namespace Workspace

variable {w : Workspace}

/-- A survey lists the classes that two or more rules are for, each once and in the order of their
first rules. After any requests, the analysis of the text reports each rule for a class that an
earlier rule is for, once and at its own selector, and no other rule. -/
theorem repeated_classes_are_reported_once {compiler : GlobCompiler} {root : Path}
    {settings : Settings} (hcreate : create compiler root settings = .ok w)
    (requests : List Request) (checked : List String) (text : String) (path : Path) :
    let now := w.serveAll requests
    let survey := Survey.ofString checked text
    let found := (now.analyze text path).2.filter (·.finding.code == "duplicate-class")
    (survey.duplicateClasses.Nodup ∧
      (∀ name, name ∈ survey.duplicateClasses ↔ 2 ≤ survey.rules.countP (·.IsFor name)) ∧
      survey.duplicateClasses.Pairwise fun a b =>
        survey.rules.findIdx (·.IsFor a) < survey.rules.findIdx (·.IsFor b)) ∧
    (found.map fun d => (d.range, d.severity, d.message)).Perm
      ((Rule.repeated [] survey.rules).map fun r => (r.selectorRange,
        now.settings.duplicateSeverity, Settings.duplicateMessage r)) ∧
    (survey.rules.map (·.selectorRange)).Nodup := by
  intro now survey found
  have hsurvey : survey = (Sheet.ofString text).survey checked :=
    Survey.ofChars_eq_survey checked text.toList
  have hanalyze := (((sound_create hcreate).serveAll requests).analyze text path).1
  have hfound : found = now.settings.duplicateRules (.ofString text) := by
    rw [← now.settings.filter_duplicate_diagnose now.index.catalog, ← hanalyze]
  rw [hsurvey, hfound]
  refine ⟨⟨Sheet.nodup_duplicateClasses _, fun name => Sheet.mem_duplicateClasses_iff _,
    Sheet.pairwise_duplicateClasses _⟩, ?_, Sheet.nodup_selectorRange text⟩
  rw [now.settings.map_duplicateRules]
  exact (Sheet.perm_repeated _).map _

/-- Two of the three rules for a class are reported, one of them inside a group. Rules for more than
one class are not for any. -/
theorem repeated_classes_are_reported_once_inside_group :
    ∃ w, create .standard (.ofString "/project") .byDefault = .ok w ∧
      let text := ".a \x7b\x7d .b \x7b\x7d\n@media print \x7b .a \x7b\x7d .a.b \x7b\x7d \x7d\n" ++
        ".b:hover \x7b\x7d .a \x7b\x7d"
      let message := "Class '.a' is already defined by an earlier rule"
      let found := (w.analyze text (.ofString "/project/a.css")).2.filter
        (·.finding.code == "duplicate-class")
      (Survey.ofString [] text).duplicateClasses = ["a"] ∧
        (found.map fun d => (d.range, d.severity, d.message)).Perm
          [(⟨⟨1, 15⟩, ⟨1, 17⟩⟩, .hint, message), (⟨⟨2, 12⟩, ⟨2, 14⟩⟩, .hint, message)] := by
  have hseverity : (create .standard (.ofString "/project") .byDefault).toOption.any
      (fun w => decide (w.settings.duplicateSeverity = .hint)) = true := by
    decide +kernel
  obtain ⟨w, hcreate, hhint⟩ := exists_create_of_any hseverity
  refine ⟨w, hcreate, by decide +kernel, ?_⟩
  have hfound := (repeated_classes_are_reported_once hcreate [] []
    (".a \x7b\x7d .b \x7b\x7d\n@media print \x7b .a \x7b\x7d .a.b \x7b\x7d \x7d\n" ++
      ".b:hover \x7b\x7d .a \x7b\x7d") (.ofString "/project/a.css")).2.1
  have hnow : (w.serveAll []).settings.duplicateSeverity = .hint := of_decide_eq_true hhint
  rw [hnow] at hfound
  refine hfound.trans (.of_eq ?_)
  decide +kernel

end Workspace

end StyleVars
