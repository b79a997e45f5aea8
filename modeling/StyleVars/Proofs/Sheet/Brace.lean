import StyleVars.Proofs.Sheet.Block

/-!
# Braces

The depth of a place in a text is the number of blocks that are open there. Reading a sheet never
counts it: groups are counted while they are open, and a rule takes its whole block at once, with
whatever is nested in it. Both agree with the depth. So a problem with braces is found exactly in a
sheet whose braces are not balanced, in whatever way rules and groups are nested.
-/

namespace StyleVars

def isBrace (c : Char) : Bool := c == '{' || c == '}'

/-- The text holds no brace. -/
def Braceless (cs : List Char) : Prop := ∀ c ∈ cs, isBrace c = false

/-- No beginning of the text closes more blocks than it opens. -/
def NeverOverclosed (cs : List Char) : Prop :=
  ∀ before, before <+: cs → before.count '}' ≤ before.count '{'

/-- Every block that the text opens it closes again, and it closes no other. -/
def BracesBalanced (cs : List Char) : Prop := NeverOverclosed cs ∧ cs.count '{' = cs.count '}'

/-- How many blocks are open after a text before which `depth` are open. There is no answer once a
brace closes a block that is not open. -/
def depthAfter : Nat → List Char → Option Nat
  | depth, [] => some depth
  | depth, c :: cs =>
    if c = '{' then depthAfter (depth + 1) cs
    else if c = '}' then if depth = 0 then none else depthAfter (depth - 1) cs
    else depthAfter depth cs

/-! ## Depth and counting -/

variable {depth result : Nat} {cs : List Char}

theorem forall_prefix_cons {P : List Char → Prop} {c : Char} :
    (∀ before, before <+: c :: cs → P before) ↔
      P [] ∧ ∀ before, before <+: cs → P (c :: before) := by
  constructor
  · intro h
    exact ⟨h [] List.nil_prefix, fun before hbefore => h _ ((List.prefix_cons_inj c).mpr hbefore)⟩
  · rintro ⟨hnil, hcons⟩ before hbefore
    rcases List.prefix_cons_iff.mp hbefore with rfl | ⟨rest, rfl, hrest⟩
    · exact hnil
    · exact hcons rest hrest

/-- The depth is what the counts of the braces give, as long as no beginning of the text closes more
than is open. -/
theorem depthAfter_eq_some_iff :
    depthAfter depth cs = some result ↔
      (∀ before, before <+: cs → before.count '}' ≤ depth + before.count '{') ∧
        depth + cs.count '{' = result + cs.count '}' := by
  induction cs generalizing depth with
  | nil => simp [depthAfter]
  | cons c cs ih =>
    rw [depthAfter, forall_prefix_cons]
    split
    · rename_i hopen
      subst hopen
      rw [ih]
      simp [Nat.add_assoc, Nat.add_comm 1]
    · split
      · rename_i hclose
        subst hclose
        split
        · rename_i hzero
          subst hzero
          -- The closing brace by itself is a beginning that closes too much.
          constructor
          · intro h
            cases h
          · rintro ⟨⟨_, h⟩, _⟩
            have hclosed := h [] List.nil_prefix
            simp at hclosed
        · rw [ih]
          simp only [List.count_nil, List.count_cons_self,
            List.count_cons_of_ne (show '}' ≠ '{' by decide)]
          constructor
          · rintro ⟨hbegun, heven⟩
            refine ⟨⟨by omega, fun before hbefore => ?_⟩, by omega⟩
            have hle := hbegun before hbefore
            omega
          · rintro ⟨⟨_, hbegun⟩, heven⟩
            refine ⟨fun before hbefore => ?_, by omega⟩
            have hle := hbegun before hbefore
            omega
      · rename_i hopen hclose
        rw [ih]
        simp [hopen, hclose]

theorem bracesBalanced_iff : BracesBalanced cs ↔ depthAfter 0 cs = some 0 := by
  simp [depthAfter_eq_some_iff, BracesBalanced, NeverOverclosed]

theorem neverOverclosed_of_depthAfter (h : depthAfter 0 cs = some result) :
    NeverOverclosed cs := by
  intro before hbefore
  simpa using (depthAfter_eq_some_iff.mp h).1 before hbefore

theorem depthAfter_append (depth : Nat) (xs ys : List Char) :
    depthAfter depth (xs ++ ys) = (depthAfter depth xs).bind fun d => depthAfter d ys := by
  induction xs generalizing depth with
  | nil => rfl
  | cons c xs ih =>
    rw [List.cons_append, depthAfter, depthAfter]
    simp only [ih]
    split
    · rfl
    · split
      · split <;> rfl
      · rfl

theorem depthAfter_of_braceless (h : Braceless cs) : depthAfter depth cs = some depth := by
  induction cs with
  | nil => rfl
  | cons c cs ih =>
    obtain ⟨hc, hcs⟩ := List.forall_mem_cons.mp h
    simp only [isBrace, Bool.or_eq_false_iff, beq_eq_false_iff_ne] at hc
    rw [depthAfter, if_neg hc.1, if_neg hc.2]
    exact ih hcs

/-- Blocks that are open around a text do not matter to it. -/
theorem depthAfter_add (h : depthAfter depth cs = some result) (around : Nat) :
    depthAfter (depth + around) cs = some (result + around) := by
  rw [depthAfter_eq_some_iff] at h ⊢
  refine ⟨fun before hbefore => ?_, by omega⟩
  have hle := h.1 before hbefore
  omega

/-! ## Blocks -/

/-- Up to its closing brace a block closes what it opens; without one it is never closed. -/
theorem depthAfter_splitBlock (depth : Nat) (cs : List Char) :
    ∃ result, depthAfter depth (splitBlock depth cs).1 = some result ∧
      ((splitBlock depth cs).2 = [] ∨ result = 0) := by
  fun_induction splitBlock depth cs with
  | case1 depth => exact ⟨depth, rfl, .inl rfl⟩
  | case2 depth c cs hclose =>
    refine ⟨0, ?_, .inr rfl⟩
    rw [hclose.2]
    rfl
  | case3 depth c cs hinside inner split ih =>
    obtain ⟨result, hresult, hend⟩ := ih
    have hstep : depthAfter depth (c :: split.1) = depthAfter inner split.1 := by
      rw [depthAfter]
      split
      · rename_i hopen
        rw [show inner = depth + 1 from if_pos hopen]
      · rename_i hopen
        split
        · rename_i hclose
          rw [if_neg fun hzero => hinside ⟨hclose, hzero⟩,
            show inner = depth - 1 from (if_neg hopen).trans (if_pos hclose)]
        · rename_i hclose
          rw [show inner = depth from (if_neg hopen).trans (if_neg hclose)]
    exact ⟨result, hstep.trans hresult, hend⟩

/-- The text of a block that is closed closes what it opens. -/
theorem depthAfter_splitBlock_of_closed {brace : Char} {later : List Char}
    (h : (splitBlock 0 cs).2 = brace :: later) : depthAfter 0 (splitBlock 0 cs).1 = some 0 := by
  obtain ⟨result, hresult, hend⟩ := depthAfter_splitBlock 0 cs
  have hzero : result = 0 := hend.resolve_left fun hnil => by rw [hnil] at h; cases h
  rw [hresult, hzero]

/-- A block that is closed, together with its braces. -/
theorem depthAfter_block {brace : Char} {later : List Char}
    (h : (splitBlock 0 cs).2 = brace :: later) (depth : Nat) :
    depthAfter depth ('{' :: ((splitBlock 0 cs).1 ++ ['}'])) = some depth := by
  have hbody : depthAfter (depth + 1) (splitBlock 0 cs).1 = some (depth + 1) := by
    simpa [Nat.add_comm] using depthAfter_add (depthAfter_splitBlock_of_closed h) (depth + 1)
  rw [depthAfter, if_pos rfl, depthAfter_append, hbody]
  simp [depthAfter]

theorem append_of_closed {brace : Char} {later : List Char}
    (h : (splitBlock 0 cs).2 = brace :: later) : cs = (splitBlock 0 cs).1 ++ ['}'] ++ later := by
  have happend := splitBlock_append 0 cs
  rw [h, splitBlock_snd_eq h] at happend
  simpa using happend.symm

/-- A block that is closed leads back to the depth before it. -/
theorem depthAfter_closed {brace : Char} {later : List Char}
    (h : (splitBlock 0 cs).2 = brace :: later) :
    depthAfter depth ('{' :: cs) = depthAfter depth later := by
  calc depthAfter depth ('{' :: cs)
      = depthAfter depth ('{' :: ((splitBlock 0 cs).1 ++ ['}']) ++ later) := by
        rw [List.cons_append, ← append_of_closed h]
    _ = depthAfter depth later := by
        rw [depthAfter_append, depthAfter_block h]
        rfl

/-- A block that is not closed leaves the text with an open block. -/
theorem depthAfter_unclosed (h : (splitBlock 0 cs).2 = []) :
    depthAfter (depth + 1) cs ≠ some 0 := by
  obtain ⟨result, hresult, _⟩ := depthAfter_splitBlock 0 cs
  have hwhole : (splitBlock 0 cs).1 = cs := by
    have happend := splitBlock_append 0 cs
    rwa [h, List.append_nil] at happend
  rw [hwhole] at hresult
  have hopen := depthAfter_add hresult (depth + 1)
  rw [Nat.zero_add] at hopen
  rw [hopen]
  intro hzero
  cases hzero

/-- What stands before the end of a chunk holds no brace. -/
theorem Excerpt.depthAfter_dropWhile (e : Excerpt) (depth : Nat) :
    depthAfter depth e.chars = depthAfter depth (e.dropWhile fun c => !endsChunk c).chars := by
  have hbefore : Braceless (e.chars.takeWhile fun c => !endsChunk c) := by
    intro c hc
    have hends : (!endsChunk c) = true := by
      have hall := List.all_takeWhile (l := e.chars) (p := fun c => !endsChunk c)
      exact List.all_eq_true.mp hall c hc
    simp only [endsChunk, Bool.not_eq_true', Bool.or_eq_false_iff] at hends
    rw [isBrace, hends.1.1, hends.1.2]
    rfl
  calc depthAfter depth e.chars
      = depthAfter depth (e.chars.takeWhile (fun c => !endsChunk c) ++
          e.chars.dropWhile fun c => !endsChunk c) := by rw [List.takeWhile_append_dropWhile]
    _ = _ := by
        rw [depthAfter_append, depthAfter_of_braceless hbefore]
        rfl

/-! ## Problems with braces -/

namespace Problem.Cause

/-- Whether the problem is a brace without a partner. -/
def isOfBraces : Cause → Bool
  | .unexpectedClose => true
  | .unclosedBlock _ => true
  | .unclosedGroup => true
  | _ => false

/-- The first characters of a message, which tell its cause apart. -/
def opening (message : String) : List Char := message.toList.take 12

theorem opening_append {lead : String} (h : 12 ≤ lead.toList.length) (text : String) :
    opening (lead ++ text ++ "'") = opening lead := by
  rw [opening, String.append_assoc, String.toList_append, List.take_append_of_le_length h, opening]

/-- A problem with braces is known by its message. -/
theorem isOfBraces_iff_message (c : Cause) :
    c.isOfBraces ↔ c.message = "Unexpected '\x7d'" ∨
      (∃ selector, c.message = "Unclosed block for selector '" ++ selector ++ "'") ∨
      c.message = "Unclosed at-rule block" := by
  constructor
  · intro h
    cases c with
    | unexpectedClose => exact .inl rfl
    | unclosedBlock selector => exact .inr (.inl ⟨selector, rfl⟩)
    | unclosedGroup => exact .inr (.inr rfl)
    | _ => cases h
  · intro h
    have hknown : opening c.message ∈ [opening "Unexpected '", opening "Unclosed block",
        opening "Unclosed at-rule"] := by
      rcases h with h | ⟨selector, h⟩ | h
      · rw [h]
        decide
      · rw [h, opening_append (by decide)]
        decide
      · rw [h]
        decide
    have hlead (lead text : String) (hlong : 12 ≤ lead.toList.length)
        (hmessage : c.message = lead ++ text ++ "'") :
        opening lead ∈ [opening "Unexpected '", opening "Unclosed block",
          opening "Unclosed at-rule"] := by
      rw [← opening_append hlong text, ← hmessage]
      exact hknown
    cases c with
    | unexpectedClose | unclosedBlock selector | unclosedGroup => rfl
    | invalidProperty text =>
      exact absurd (hlead "Invalid property name in '" text (by decide) rfl) (by decide)
    | missingColon text =>
      exact absurd (hlead "Expected ':' after '" text (by decide) rfl) (by decide)
    | emptyValue property =>
      exact absurd (hlead "Empty value for property '" property (by decide) rfl) (by decide)
    | _ => exact absurd hknown (by decide)

end Problem.Cause

/-- A chunk that ends with neither a semicolon nor a closing brace ends with an opening one. -/
theorem eq_open_of_dropWhile {e : Excerpt} {c : Char}
    (h : (e.dropWhile fun c => !endsChunk c).chars = c :: cs) (hsemicolon : c ≠ ';')
    (hclose : c ≠ '}') : c = '{' := by
  have hends : endsChunk c := by simpa using Excerpt.dropWhile_head h
  simpa [endsChunk, hsemicolon, hclose] using hends

namespace Chunk

/-- Reading a declaration meets no problem with braces. -/
theorem not_isOfBraces_of_readBody {lines : LineTable} {body : Excerpt} {p : Problem}
    (h : p ∈ problemsOf (readBody lines body)) : p.cause.isOfBraces = false := by
  obtain ⟨result, hresult, hsome⟩ := List.mem_filterMap.mp h
  split at hsome
  · cases hsome
  · cases hsome
    obtain ⟨segment, _, hread⟩ := List.mem_map.mp hresult
    rw [Declaration.read] at hread
    split at hread
    · dsimp only at hread
      split at hread
      all_goals
        cases hread
        rfl
    · dsimp only at hread
      split at hread
      · cases hread
        rfl
      · cases hread

/-- The only problem with braces of a rule is that it is never closed. -/
theorem any_isOfBraces_ruleProblems (lines : LineTable) (selector : Excerpt) (brace : Nat)
    (body : Excerpt) (closed : Bool) :
    (ruleProblems lines selector brace body closed).any (·.cause.isOfBraces) = !closed := by
  have hbody : (problemsOf (readBody lines body)).any (·.cause.isOfBraces) = false :=
    List.any_eq_false.mpr fun p hp => by simp [not_isOfBraces_of_readBody hp]
  rw [ruleProblems]
  simp only [List.any_append, hbody, Bool.or_false]
  cases closed <;> cases body.firstNested? <;> split <;> rfl

/-- The problems of a sheet say whether its braces are balanced, given the groups that are open
before it. -/
theorem any_isOfBraces_problems (lines : LineTable) (stop groups : Nat) (e : Excerpt) :
    (problems lines stop groups e.chunks).any (·.cause.isOfBraces) ↔
      depthAfter groups e.chars ≠ some 0 := by
  fun_induction Excerpt.chunks e generalizing groups with
  | case1 e before rest hrest =>
    have htail : (if before.isEmpty then [] else
        [(⟨.trailingContent, lines.rangeOf before⟩ : Problem)]).any (·.cause.isOfBraces) =
        false := by
      split <;> rfl
    rw [e.depthAfter_dropWhile groups, hrest, depthAfter]
    cases groups with
    | zero => simp [problems, htail]
    | succ n => simp [problems, Problem.Cause.isOfBraces]
  | case2 e before rest later hrest _ after ih =>
    have hstatement : (if before.isEmpty || before.chars.head? == some '@' then [] else
        [(⟨.strayDeclaration, lines.rangeOf before⟩ : Problem)]).any (·.cause.isOfBraces) =
        false := by
      split <;> rfl
    have hdepth : depthAfter groups (';' :: later) = depthAfter groups later := by simp [depthAfter]
    rw [e.depthAfter_dropWhile groups, hrest, hdepth, ← ih groups, problems, List.any_append,
      hstatement, Bool.false_or]
  | case3 e rest later hrest _ after _ ih =>
    rw [e.depthAfter_dropWhile groups, hrest]
    cases groups with
    | zero => simp [problems, Problem.Cause.isOfBraces, depthAfter]
    | succ n =>
      have hdepth : depthAfter (n + 1) ('}' :: later) = depthAfter n later := by simp [depthAfter]
      rw [hdepth, ← ih n, problems]
  | case4 e before rest c cs hrest _ after hsemicolon hclose _ ih =>
    have hopen := eq_open_of_dropWhile hrest hsemicolon hclose
    have hdepth : depthAfter groups ('{' :: cs) = depthAfter (groups + 1) cs := rfl
    rw [e.depthAfter_dropWhile groups, hrest, hopen, hdepth, ← ih (groups + 1), problems]
  | case5 e before rest c cs hrest _ after hsemicolon hclose _ body _ hunclosed =>
    have hopen := eq_open_of_dropWhile hrest hsemicolon hclose
    have hdepth : depthAfter groups ('{' :: cs) ≠ some 0 := depthAfter_unclosed hunclosed
    rw [e.depthAfter_dropWhile groups, hrest, hopen, problems, List.any_append,
      any_isOfBraces_ruleProblems]
    exact iff_of_true rfl hdepth
  | case6 e before rest c cs hrest _ after hsemicolon hclose _ body _ brace later hlater _ ih =>
    have hopen := eq_open_of_dropWhile hrest hsemicolon hclose
    rw [e.depthAfter_dropWhile groups, hrest, hopen, depthAfter_closed hlater, ← ih groups,
      problems, List.any_append, any_isOfBraces_ruleProblems]
    rfl

end Chunk

namespace Sheet

theorem any_isOfBraces_ofChars (cs : List Char) :
    (ofChars cs).problems.any (·.cause.isOfBraces) ↔ depthAfter 0 (Comment.blank cs) ≠ some 0 := by
  have hchunks := Chunk.any_isOfBraces_problems (.ofChars 0 cs) (byteSize cs) 0 (blanked cs)
  rw [ofChars, List.any_append]
  cases Comment.unterminated? cs with
  | none => exact hchunks
  | some start => exact hchunks

/-- A sheet has a problem with braces exactly if the braces of its text with the comments blanked
are not balanced. -/
theorem brace_problem_iff_unbalanced (text : String) :
    (∃ p ∈ (ofString text).problems, p.message = "Unexpected '\x7d'" ∨
        (∃ selector, p.message = "Unclosed block for selector '" ++ selector ++ "'") ∨
        p.message = "Unclosed at-rule block") ↔
      ¬BracesBalanced (Comment.blank text.toList) := by
  rw [bracesBalanced_iff, ofString, ← Ne, ← any_isOfBraces_ofChars, List.any_eq_true]
  constructor
  · rintro ⟨p, hp, hmessage⟩
    exact ⟨p, hp, p.cause.isOfBraces_iff_message.mpr hmessage⟩
  · rintro ⟨p, hp, hcause⟩
    exact ⟨p, hp, p.cause.isOfBraces_iff_message.mp hcause⟩

end Sheet

end StyleVars
