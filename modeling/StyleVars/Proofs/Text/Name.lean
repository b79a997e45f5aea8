import StyleVars.Proofs.Text.Excerpt
import StyleVars.Text.Name

/-!
# Names have no blanks

The tables of blanks and of word characters have no code point in common, so no blank can stand in a
name. A name that is read at the start of a text is the beginning of the text, it is a name, and it
is never empty.
-/

namespace StyleVars

/-! ## Blanks and word characters -/

/-- No range of the one list meets a range of the other. -/
def rangesApart (as bs : List (Nat × Nat)) : Bool :=
  as.all fun a => bs.all fun b => a.2 < b.1 || b.2 < a.1

theorem inRanges_eq_false_of_apart {as bs : List (Nat × Nat)} {n : Nat}
    (happart : rangesApart as bs) (h : inRanges as n) : inRanges bs n = false := by
  obtain ⟨a, ha, hn⟩ := List.any_eq_true.mp h
  rw [inRanges, List.any_eq_false]
  intro b hb
  have hab := List.all_eq_true.mp (List.all_eq_true.mp happart a ha) b hb
  simp only [Bool.or_eq_true, Bool.and_eq_true, decide_eq_true_eq] at hab hn ⊢
  omega

/-- The word characters in ASCII. -/
def asciiWordRanges : List (Nat × Nat) := [(48, 57), (65, 90), (95, 95), (97, 122)]

theorem inRanges_of_isAlphanum {c : Char} (h : c.isAlphanum || c == '_') :
    inRanges asciiWordRanges c.toNat := by
  have hranges : (65 ≤ c.toNat ∧ c.toNat ≤ 90) ∨ (97 ≤ c.toNat ∧ c.toNat ≤ 122) ∨
      (48 ≤ c.toNat ∧ c.toNat ≤ 57) ∨ c.toNat = 95 := by
    rcases Bool.or_eq_true_iff.mp h with halphanum | hunderscore
    · rcases Bool.or_eq_true_iff.mp halphanum with halpha | hdigit
      · rcases Bool.or_eq_true_iff.mp halpha with hupper | hlower
        · exact .inl (of_decide_eq_true hupper)
        · obtain ⟨hlow, hhigh⟩ := Bool.and_eq_true_iff.mp hlower
          exact .inr (.inl ⟨of_decide_eq_true hlow, of_decide_eq_true hhigh⟩)
      · obtain ⟨hlow, hhigh⟩ := Bool.and_eq_true_iff.mp hdigit
        exact .inr (.inr (.inl ⟨of_decide_eq_true hlow, of_decide_eq_true hhigh⟩))
    · rw [eq_of_beq hunderscore]
      exact .inr (.inr (.inr rfl))
  simp only [inRanges, asciiWordRanges, List.any_cons, List.any_nil, Bool.or_eq_true,
    Bool.and_eq_true, decide_eq_true_eq, Bool.or_false]
  omega

theorem isBlank_eq_false_of_isWord {c : Char} (h : isWord c) : isBlank c = false := by
  rw [isWord] at h
  split at h
  · exact inRanges_eq_false_of_apart (by decide) (inRanges_of_isAlphanum h)
  · simp only [Bool.or_eq_true] at h
    rcases h with (hfirst | hbasic) | hbeyond
    · exact inRanges_eq_false_of_apart (by decide +kernel) hfirst
    · exact inRanges_eq_false_of_apart (by decide +kernel) hbasic
    · exact inRanges_eq_false_of_apart (by decide +kernel) hbeyond

theorem isBlank_eq_false_of_isNameChar {c : Char} (h : isNameChar c) : isBlank c = false := by
  rcases Bool.or_eq_true_iff.mp h with hword | hhyphen
  · exact isBlank_eq_false_of_isWord hword
  · rw [eq_of_beq hhyphen]
    decide

theorem isNameChar_of_isNameStart {c : Char} (h : isNameStart c) : isNameChar c := by
  have hascii : c.isAlphanum || c == '_' := by
    rcases Bool.or_eq_true_iff.mp h with halpha | hunderscore
    · simp [Char.isAlphanum, halpha]
    · simp [hunderscore]
  have hrange := inRanges_of_isAlphanum hascii
  have hlt : c.toNat < 128 := by
    simp only [inRanges, asciiWordRanges, List.any_cons, List.any_nil, Bool.or_eq_true,
      Bool.and_eq_true, decide_eq_true_eq, Bool.or_false] at hrange
    omega
  simp only [isNameChar, isWord, hlt, if_true, hascii, Bool.true_or]

/-! ## Reading names -/

namespace Excerpt

variable {e name rest : Excerpt}

/-- What is read up to the end of the name characters. -/
theorem upTo_dropWhile {start after : Excerpt} {lead : List Char}
    (h : start.chars = lead ++ after.chars) :
    start.upTo (after.dropWhile isNameChar) =
        ⟨start.start, lead ++ after.chars.takeWhile isNameChar⟩ ∧
      start.chars =
        lead ++ after.chars.takeWhile isNameChar ++ (after.dropWhile isNameChar).chars := by
  have hsplit : start.chars =
      lead ++ after.chars.takeWhile isNameChar ++ (after.dropWhile isNameChar).chars := by
    rw [h, List.append_assoc]
    exact congrArg (lead ++ ·) List.takeWhile_append_dropWhile.symm
  exact ⟨upTo_eq hsplit, hsplit⟩

/-- A name of a variable that is read is one, and is the beginning of the text. -/
theorem readVariableName?_spec (h : e.readVariableName? = some (name, rest)) :
    isVariableName name.chars ∧ name.start = e.start ∧ e.chars = name.chars ++ rest.chars := by
  rw [readVariableName?] at h
  split at h
  · cases h
  · rename_i after hskip
    dsimp only at h
    split at h
    · rename_i hlt
      cases h
      obtain ⟨hname, hchars⟩ := upTo_dropWhile (chars_of_skip? hskip)
      have hne : after.chars.takeWhile isNameChar ≠ [] := by
        intro hnil
        have hsame := List.takeWhile_append_dropWhile (p := isNameChar) (l := after.chars)
        rw [hnil, List.nil_append] at hsame
        have hlength : (after.dropWhile isNameChar).chars.length = after.chars.length :=
          congrArg List.length hsame
        omega
      rw [hname]
      refine ⟨?_, rfl, hchars⟩
      simp only [List.cons_append, List.nil_append, isVariableName, Bool.and_eq_true,
        Bool.not_eq_true', List.isEmpty_eq_false_iff]
      exact ⟨hne, List.all_takeWhile⟩
    · cases h

/-- The name of a property that is read is not empty, has only name characters, and is the beginning
of the text. -/
structure IsNameOf (name e rest : Excerpt) : Prop where
  ne_nil : name.chars ≠ []
  nameChars : ∀ c ∈ name.chars, isNameChar c
  start_eq : name.start = e.start
  chars_eq : e.chars = name.chars ++ rest.chars

theorem isNameOf_readVariableName? (h : e.readVariableName? = some (name, rest)) :
    name.IsNameOf e rest := by
  obtain ⟨hname, hstart, hchars⟩ := readVariableName?_spec h
  rw [isVariableName.eq_def] at hname
  split at hname
  · rename_i tail hcs
    refine ⟨by simp [hcs], ?_, hstart, hchars⟩
    have htail := List.all_eq_true.mp (Bool.and_eq_true_iff.mp hname).2
    rw [hcs, List.forall_mem_cons, List.forall_mem_cons]
    exact ⟨by decide, by decide, htail⟩
  · cases hname

theorem isNameOf_readOrdinaryName? (h : e.readOrdinaryName? = some (name, rest)) :
    name.IsNameOf e rest := by
  -- An ordinary name may begin with one hyphen, after which the letters start.
  obtain ⟨lead, hlead, hchars⟩ : ∃ lead, (∀ c ∈ lead, isNameChar c) ∧
      e.chars = lead ++ ((e.skip? ['-']).getD e).chars := by
    cases hskip : e.skip? ['-'] with
    | none => exact ⟨[], by simp, rfl⟩
    | some after =>
      refine ⟨['-'], fun c hc => ?_, chars_of_skip? hskip⟩
      rw [List.mem_singleton.mp hc]
      decide
  rw [readOrdinaryName?] at h
  split at h
  · cases h
  · rename_i c cs hcs
    split at h
    · rename_i hc
      cases h
      obtain ⟨hname, hsplit⟩ := upTo_dropWhile hchars
      rw [hname]
      refine ⟨?_, ?_, rfl, hsplit⟩
      · rw [hcs, List.takeWhile_cons_of_pos (isNameChar_of_isNameStart hc)]
        simp
      · intro d hd
        rcases List.mem_append.mp hd with hmem | hmem
        · exact hlead d hmem
        · exact List.all_eq_true.mp List.all_takeWhile d hmem
    · cases h

end Excerpt

end StyleVars
