import Mathlib.Data.List.Basic
import StyleVars.Proofs.Sheet.Shift
import StyleVars.Proofs.Value.Reference
import StyleVars.Resolution.Basic

/-!
# Where references occur

Whatever is written as a reference is read as one, also where more text follows. So the search from
left to right cannot pass over a reference: the first one that is found is the first that occurs.

The plain text of a reference, without blanks and fallback, is one way to write it. Where a plain
reference occurs in a value, it is found, or it stands in the fallback of one that is found and ends
with it.
-/

namespace StyleVars

theorem exists_tail_of_isVariableName {name : List Char} (h : isVariableName name) :
    ∃ tail, name = '-' :: '-' :: tail ∧ tail ≠ [] ∧ ∀ c ∈ tail, isNameChar c := by
  rw [isVariableName.eq_def] at h
  split at h
  · rename_i tail
    obtain ⟨hne, hall⟩ := Bool.and_eq_true_iff.mp h
    exact ⟨tail, rfl, by simpa using hne, List.all_eq_true.mp hall⟩
  · cases h

theorem isNameChar_eq_false_of_isBlank {c : Char} (h : isBlank c) : isNameChar c = false := by
  cases hname : isNameChar c with
  | false => rfl
  | true =>
    rw [isBlank_eq_false_of_isNameChar hname] at h
    cases h

/-! ## Reading what is written -/

namespace Excerpt

variable {e : Excerpt}

theorem skip?_of_append {lit rest : List Char} (h : e.chars = lit ++ rest) :
    e.skip? lit = some ⟨e.start + byteSize lit, rest⟩ := by
  simp [skip?, h]

theorem splitWhile_of_append {p : Char → Bool} {lead rest : List Char}
    (h : e.chars = lead ++ rest) (hlead : ∀ c ∈ lead, p c)
    (hrest : ∀ c ∈ rest.head?, p c = false) :
    e.splitWhile p = (⟨e.start, lead⟩, ⟨e.start + byteSize lead, rest⟩) := by
  have hstop : rest.takeWhile p = [] ∧ rest.dropWhile p = rest := by
    cases rest with
    | nil => exact ⟨rfl, rfl⟩
    | cons c cs => simp [hrest c rfl]
  rw [splitWhile, h, List.takeWhile_append_of_pos hlead, List.dropWhile_append_of_pos hlead, hstop.1,
    hstop.2, List.append_nil]

/-- The cut before the first `c`. -/
theorem splitWhile_of_notMem {c : Char} {lead rest : List Char} (h : e.chars = lead ++ c :: rest)
    (hlead : c ∉ lead) :
    e.splitWhile (· != c) = (⟨e.start, lead⟩, ⟨e.start + byteSize lead, c :: rest⟩) := by
  refine splitWhile_of_append h ?_ (by simp)
  intro d hd
  have hne : d ≠ c := by
    rintro rfl
    exact hlead hd
  simpa using hne

theorem dropWhile_of_append {p : Char → Bool} {lead rest : List Char}
    (h : e.chars = lead ++ rest) (hlead : ∀ c ∈ lead, p c)
    (hrest : ∀ c ∈ rest.head?, p c = false) :
    e.dropWhile p = ⟨e.start + byteSize lead, rest⟩ := by
  rw [dropWhile, splitWhile_of_append h hlead hrest]

theorem readVariableName?_of_append {name rest : List Char} (h : e.chars = name ++ rest)
    (hname : isVariableName name) (hrest : ∀ c ∈ rest.head?, isNameChar c = false) :
    e.readVariableName? = some (⟨e.start, name⟩, ⟨e.start + byteSize name, rest⟩) := by
  obtain ⟨tail, rfl, hne, htail⟩ := exists_tail_of_isVariableName hname
  have hhyphens : e.chars = ['-', '-'] ++ (tail ++ rest) := h
  have hdrop : (⟨e.start + byteSize ['-', '-'], tail ++ rest⟩ : Excerpt).dropWhile isNameChar =
      ⟨e.start + byteSize ('-' :: '-' :: tail), rest⟩ := by
    rw [dropWhile_of_append rfl htail hrest]
    simp [Nat.add_assoc]
  have hlength : rest.length < (tail ++ rest).length := by
    have hpos := List.length_pos_iff.mpr hne
    rw [List.length_append]
    omega
  rw [readVariableName?, skip?_of_append hhyphens]
  dsimp only
  rw [hdrop, if_pos hlength, upTo_eq h]

end Excerpt

namespace Reference

variable {e rest : Excerpt} {r : Reference}

namespace Parts

variable (p : Parts)

theorem readEnd?_argument (start : Nat) (after : List Char) :
    readEnd? ⟨start, p.argument ++ ')' :: after⟩ =
      some ((p.body.map (Excerpt.mk (start + 1))).bind
          fun body => if body.trim.isEmpty then none else some body.trim,
        ⟨start + byteSize p.argument + 1, after⟩) := by
  have hclose : (')' : Char).utf8Size = 1 := by decide
  rcases hbody : p.body with _ | body
  · have hargument : p.argument = [] := by simp [argument, hbody]
    simp [readEnd?, hargument, Excerpt.skip?, hclose]
  · have hargument : p.argument = ',' :: body := by simp [argument, hbody]
    have hopen : ')' ∉ body := p.body_open body (by simp [hbody])
    have hopened : (⟨start, ',' :: body ++ ')' :: after⟩ : Excerpt).skip? [','] =
        some ⟨start + 1, body ++ ')' :: after⟩ := Excerpt.skip?_of_append rfl
    have hsplit : (⟨start + 1, body ++ ')' :: after⟩ : Excerpt).splitWhile (· != ')') =
        (⟨start + 1, body⟩, ⟨start + 1 + byteSize body, ')' :: after⟩) :=
      Excerpt.splitWhile_of_notMem rfl hopen
    have hclosed : (⟨start + 1 + byteSize body, ')' :: after⟩ : Excerpt).skip? [')'] =
        some ⟨start + 1 + byteSize body + 1, after⟩ := Excerpt.skip?_of_append rfl
    have hcomma : (⟨start, ',' :: body ++ ')' :: after⟩ : Excerpt).skip? [')'] = none := by
      simp [Excerpt.skip?]
    have hsize : start + byteSize (',' :: body) + 1 = start + 1 + byteSize body + 1 := by
      rw [byteSize_cons, ← Nat.add_assoc]
      rfl
    rw [hargument, readEnd?, hcomma]
    dsimp only
    rw [hopened]
    dsimp only
    rw [hsplit, hclosed, hsize]
    rfl

/-- No name and no blank holds a comma or a parenthesis. -/
theorem head?_argument (after : List Char) :
    ∀ c ∈ (p.argument ++ ')' :: after).head?, isBlank c = false ∧ isNameChar c = false := by
  unfold argument
  cases p.body with
  | none =>
    rintro c ⟨⟩
    decide
  | some body =>
    rintro c ⟨⟩
    decide

/-- What follows the name starts with a blank, a comma or the closing parenthesis. -/
theorem head?_gap (after : List Char) :
    ∀ c ∈ (p.gap ++ (p.argument ++ ')' :: after)).head?, isNameChar c = false := by
  cases hgap : p.gap with
  | nil =>
    intro c hc
    exact (p.head?_argument after c hc).2
  | cons b bs =>
    rintro c ⟨⟩
    exact isNameChar_eq_false_of_isBlank (p.gap_blank b (by simp [hgap]))

theorem head?_name (after : List Char) :
    ∀ c ∈ (p.name ++ after).head?, isBlank c = false := by
  obtain ⟨tail, htail, -⟩ := exists_tail_of_isVariableName p.isName
  rw [htail]
  rintro c ⟨⟩
  decide

end Parts

/-- Whatever is written as a reference is read as one. -/
theorem read?_of_append {p : Parts} {after : List Char} (h : e.chars = p.chars ++ after) :
    read? e = some (p.reference e.start, ⟨e.start + byteSize p.chars, after⟩) := by
  have hchars : e.chars = ['v', 'a', 'r', '('] ++
      (p.lead ++ (p.name ++ (p.gap ++ (p.argument ++ ')' :: after)))) := by
    simp [h, Parts.chars, Parts.opening]
  have hopening : e.start + byteSize ['v', 'a', 'r', '('] + byteSize p.lead + byteSize p.name +
      byteSize p.gap = e.start + byteSize p.opening := by
    simp only [Parts.opening, byteSize_append]
    omega
  have hstop : e.start + byteSize p.opening + byteSize p.argument + 1 =
      e.start + byteSize p.chars := by
    simp only [Parts.chars, byteSize_append, byteSize_cons, byteSize_nil]
    rw [show (')' : Char).utf8Size = 1 from rfl]
    omega
  rw [read?, Excerpt.skip?_of_append hchars]
  simp only [Option.bind_eq_bind, Option.bind_some]
  rw [Excerpt.dropWhile_of_append rfl p.lead_blank (p.head?_name _),
    Excerpt.readVariableName?_of_append rfl p.isName (p.head?_gap after)]
  simp only [Option.bind_some]
  rw [Excerpt.dropWhile_of_append rfl p.gap_blank fun c hc => (p.head?_argument after c hc).1]
  dsimp only
  rw [hopening, p.readEnd?_argument, hstop]
  have hsource : e.upTo ⟨e.start + byteSize p.chars, after⟩ = ⟨e.start, p.chars⟩ :=
    Excerpt.upTo_eq h
  simp only [Option.bind_some, hsource]
  rw [Parts.reference, Parts.body?]
  rfl

end Reference

/-! ## The first reference -/

namespace Excerpt

/-- The search for references passes over `before`, reads `r` and goes on with `rest`. -/
inductive Finds : Excerpt → List Char → Reference → Excerpt → Prop where
  | here {e rest : Excerpt} {r : Reference} (hread : Reference.read? e = some (r, rest)) :
      Finds e [] r rest
  | later {e rest : Excerpt} {r : Reference} {c : Char} {cs before : List Char}
      (hread : Reference.read? e = none) (hchars : e.chars = c :: cs)
      (hfinds : Finds ⟨e.start + c.utf8Size, cs⟩ before r rest) : Finds e (c :: before) r rest

variable {e rest : Excerpt} {r : Reference} {before : List Char}

theorem exists_finds {rs : List Reference} (h : e.references = r :: rs) :
    ∃ before rest, e.Finds before r rest ∧ rest.references = rs := by
  fun_induction references e with
  | case1 e first rest hread _ ih =>
    cases h
    exact ⟨[], rest, .here hread, rfl⟩
  | case2 => cases h
  | case3 e hread c cs hchars _ ih =>
    obtain ⟨before, rest, hfinds, hrest⟩ := ih h
    exact ⟨c :: before, rest, .later hread hchars hfinds, hrest⟩

/-- Text that is written as a reference is not passed over. -/
theorem references_ne_nil {p : Reference.Parts} {skipped after : List Char}
    (h : e.chars = skipped ++ (p.chars ++ after)) : e.references ≠ [] := by
  induction skipped generalizing e with
  | nil =>
    rw [references_of_read? (Reference.read?_of_append h)]
    simp
  | cons c skipped ih =>
    cases hread : Reference.read? e with
    | some found =>
      rw [references_of_read? hread]
      simp
    | none =>
      rw [references_of_cons hread h]
      exact ih rfl

namespace Finds

theorem exists_parts (h : e.Finds before r rest) :
    ∃ p : Reference.Parts, r = p.reference (e.start + byteSize before) ∧
      e.chars = before ++ (p.chars ++ rest.chars) := by
  induction h with
  | here hread => exact Reference.read?_parts hread
  | later _ hchars _ ih =>
    obtain ⟨p, hp, hrest⟩ := ih
    refine ⟨p, ?_, ?_⟩
    · rw [hp, byteSize_cons, ← Nat.add_assoc]
    · rw [hchars, List.cons_append, ← hrest]

/-- Nothing before the reference that is found is written as one. -/
theorem length_le {p : Reference.Parts} {skipped after : List Char} (h : e.Finds before r rest)
    (hchars : e.chars = skipped ++ (p.chars ++ after)) : before.length ≤ skipped.length := by
  induction h generalizing skipped with
  | here => exact Nat.zero_le _
  | later hread hcons _ ih =>
    cases skipped with
    | nil =>
      rw [Reference.read?_of_append hchars] at hread
      cases hread
    | cons d skipped =>
      rw [hcons] at hchars
      cases hchars
      exact Nat.succ_le_succ (ih rfl)

end Finds

end Excerpt

/-! ## Plain references -/

namespace Reference

namespace Parts

/-- The reference without blanks and without a fallback. -/
def plain (name : String) (h : isVariableName name.toList) : Parts where
  lead := []
  name := name.toList
  gap := []
  body := none
  lead_blank := by simp
  isName := h
  gap_blank := by simp
  body_open := by simp

theorem chars_plain (name : String) (h : isVariableName name.toList) :
    (plain name h).chars = plainReference name := by
  simp [plain, chars, opening, argument, plainReference]

/-- The only closing parenthesis of a reference is its last character. -/
theorem close_notMem (p : Parts) : ')' ∉ p.opening ++ p.argument := by
  have hblank : ∀ cs : List Char, (∀ c ∈ cs, isBlank c) → ')' ∉ cs := by
    intro cs hcs hmem
    exact absurd (hcs _ hmem) (by decide)
  have hname : ')' ∉ p.name := by
    obtain ⟨tail, hname, -, htail⟩ := exists_tail_of_isVariableName p.isName
    have hclose : ')' ∉ tail := by
      intro hmem
      exact absurd (htail _ hmem) (by decide)
    simp [hname, hclose]
  have hargument : ')' ∉ p.argument := by
    unfold argument
    cases hbody : p.body with
    | none => simp
    | some body => simp [p.body_open body (by simp [hbody])]
  simp [opening, hblank _ p.lead_blank, hname, hblank _ p.gap_blank, hargument]

end Parts

end Reference

/-- A text has one way to be cut at the first `c`. -/
theorem append_first_inj {c : Char} {xs ys as bs : List Char} (hxs : c ∉ xs) (hys : c ∉ ys)
    (h : xs ++ c :: as = ys ++ c :: bs) : xs = ys ∧ as = bs := by
  let text : Excerpt := ⟨0, xs ++ c :: as⟩
  have hfirst : text.splitWhile (· != c) = _ := Excerpt.splitWhile_of_notMem rfl hxs
  have hsecond : text.splitWhile (· != c) = _ := Excerpt.splitWhile_of_notMem h hys
  have hsame := hfirst.symm.trans hsecond
  simp only [Prod.mk.injEq, Excerpt.mk.injEq, List.cons.injEq, true_and] at hsame
  exact ⟨hsame.1, hsame.2.2⟩

/-- A reference that starts within another ends with it. -/
theorem Reference.Parts.eq_of_overlap {p q : Parts} {inside after rest : List Char}
    (h : inside ++ (q.chars ++ after) = p.chars ++ rest) (hlt : inside.length < p.chars.length) :
    p.chars = inside ++ q.chars ∧ after = rest := by
  have hp : p.chars ++ rest = (p.opening ++ p.argument) ++ ')' :: rest := by simp [chars]
  have hq : inside ++ (q.chars ++ after) =
      (inside ++ (q.opening ++ q.argument)) ++ ')' :: after := by simp [chars]
  -- What stands before it is before the closing parenthesis of the other.
  have hinside : inside <+: p.opening ++ p.argument := by
    refine List.prefix_of_prefix_length_le (h ▸ List.prefix_append _ _)
      (hp ▸ List.prefix_append _ _) ?_
    rw [chars, List.length_append, List.length_singleton] at hlt
    omega
  have hopen : ')' ∉ inside ++ (q.opening ++ q.argument) := by
    intro hmem
    rcases List.mem_append.mp hmem with hmem | hmem
    · exact p.close_notMem (hinside.subset hmem)
    · exact q.close_notMem hmem
  obtain ⟨hsame, hafter⟩ := append_first_inj hopen p.close_notMem (hq.symm.trans (h.trans hp))
  refine ⟨?_, hafter⟩
  rw [chars, ← hsame, chars, List.append_assoc inside]

namespace Excerpt.Finds

variable {e rest : Excerpt} {r : Reference} {before : List Char} (h : e.Finds before r rest)

include h

theorem chars_eq : e.chars = before ++ (r.source.chars ++ rest.chars) := by
  obtain ⟨p, rfl, hchars⟩ := h.exists_parts
  exact hchars

theorem start_source : r.source.start = e.start + byteSize before := by
  obtain ⟨p, rfl, -⟩ := h.exists_parts
  rfl

theorem isVariableName_name : isVariableName r.name.toList := by
  obtain ⟨p, rfl, -⟩ := h.exists_parts
  rw [Reference.Parts.reference, String.toList_ofList]
  exact p.isName

/-- A plain reference to the same name is not written before the reference that is found. -/
theorem length_le_of_plain {skipped after : List Char}
    (hchars : e.chars = skipped ++ (plainReference r.name ++ after)) :
    before.length ≤ skipped.length := by
  rw [← Reference.Parts.chars_plain r.name h.isVariableName_name] at hchars
  exact h.length_le hchars

/-- If no other reference follows, then a plain reference to the same name is written nowhere else
than at the end of the one that is found. -/
theorem plain_at_end (hlast : rest.references = []) {skipped after : List Char}
    (hchars : e.chars = skipped ++ (plainReference r.name ++ after)) :
    ∃ inside, skipped = before ++ inside ∧ r.source.chars = inside ++ plainReference r.name ∧
      after = rest.chars := by
  have hle := h.length_le_of_plain hchars
  have hplain := Reference.Parts.chars_plain r.name h.isVariableName_name
  obtain ⟨p, hp, hsplit⟩ := h.exists_parts
  have hsource : r.source.chars = p.chars := by rw [hp]; rfl
  obtain ⟨inside, rfl⟩ : before <+: skipped :=
    List.prefix_of_prefix_length_le (hsplit ▸ List.prefix_append _ _)
      (hchars ▸ List.prefix_append _ _) hle
  have hinside : inside ++ (plainReference r.name ++ after) = p.chars ++ rest.chars := by
    rw [hchars, List.append_assoc] at hsplit
    exact List.append_cancel_left hsplit
  rw [← hplain] at hinside
  refine ⟨inside, rfl, ?_⟩
  by_cases hlt : inside.length < p.chars.length
  · obtain ⟨hend, hafter⟩ := Reference.Parts.eq_of_overlap hinside hlt
    exact ⟨by rw [hsource, hend, hplain], hafter⟩
  · -- Otherwise it is written in what follows, where it would have been found.
    obtain ⟨later, rfl⟩ : p.chars <+: inside :=
      List.prefix_of_prefix_length_le (List.prefix_append _ rest.chars)
        (hinside ▸ List.prefix_append _ _) (Nat.le_of_not_lt hlt)
    rw [List.append_assoc] at hinside
    exact absurd hlast (references_ne_nil (List.append_cancel_left hinside).symm)

end Excerpt.Finds

end StyleVars
