import StyleVars.Proofs.Text.Edge
import StyleVars.Sheet.Comment

/-!
# Positions and comments

Blanking the comments of a text keeps its size in bytes, but not its characters: a character of
several bytes inside a comment becomes as many spaces. What is not blank afterwards was never in a
comment, so it stands in the text itself, at the same offset. Hence an offset of the blanked text
that is firm, or its end, is an edge of the text too.
-/

namespace StyleVars

theorem byteSize_replicate_space (n : Nat) : byteSize (List.replicate n ' ') = n := by
  induction n with
  | zero => rfl
  | succ n ih =>
    rw [List.replicate_succ, byteSize_cons, ih, Nat.add_comm]
    rfl

/-- Characters that are not blank, after a text that begins with blanks, stand after those. -/
theorem exists_append_of_blank {blanks cs before run after : List Char}
    (h : blanks ++ cs = before ++ run ++ after) (hblanks : ∀ c ∈ blanks, isBlank c)
    (hne : run ≠ []) (hrun : ∀ c ∈ run, isBlank c = false) :
    ∃ before', before = blanks ++ before' ∧ cs = before' ++ run ++ after := by
  rw [List.append_assoc] at h
  rcases List.append_eq_append_iff.mp h with ⟨before', hbefore, hcs⟩ | ⟨overlap, hover, hrest⟩
  · exact ⟨before', hbefore, by rw [hcs, List.append_assoc]⟩
  · cases overlap with
    | nil => exact ⟨[], by simpa using hover.symm, by simpa using hrest.symm⟩
    | cons c overlap =>
      obtain ⟨d, run', rfl⟩ := List.exists_cons_of_ne_nil hne
      obtain ⟨rfl, _⟩ := List.cons.inj hrest
      have hblank := hblanks d (hover ▸ List.mem_append_right _ List.mem_cons_self)
      rw [hrun d List.mem_cons_self] at hblank
      cases hblank

namespace Comment

theorem isBlank_of_mem_blankChar {c d : Char} (h : d ∈ blankChar c) : isBlank d := by
  rw [blankChar] at h
  split at h
  · rw [List.mem_singleton.mp h]
    rfl
  · rw [List.eq_of_mem_replicate h]
    rfl

/-- The mark at which a comment starts or ends becomes two spaces. -/
theorem isBlank_of_mem_mark : ∀ c ∈ [' ', ' '], isBlank c := by
  rw [List.forall_mem_cons, List.forall_mem_cons]
  exact ⟨rfl, rfl, nofun⟩

theorem byteSize_blankChar (c : Char) : byteSize (blankChar c) = c.utf8Size := by
  rw [blankChar]
  split
  · rename_i hc
    rw [hc]
    rfl
  · exact byteSize_replicate_space _

theorem byteSize_blankFrom (inside : Bool) (cs : List Char) :
    byteSize (blankFrom inside cs) = byteSize cs := by
  fun_induction blankFrom inside cs with
  | case1 => rfl
  | case2 rest ih => simp only [byteSize_cons, ih]; rfl
  | case3 c rest _ ih => simp only [byteSize_cons, ih]
  | case4 rest ih => simp only [byteSize_cons, ih]; rfl
  | case5 c rest _ ih => rw [byteSize_append, byteSize_blankChar, ih, byteSize_cons]

theorem byteSize_blank (cs : List Char) : byteSize (blank cs) = byteSize cs :=
  byteSize_blankFrom false cs

/-- What is not blank after blanking stands in the text at the same offset. -/
theorem exists_of_blankFrom {inside : Bool} {cs before run after : List Char}
    (h : blankFrom inside cs = before ++ run ++ after) (hne : run ≠ [])
    (hrun : ∀ c ∈ run, isBlank c = false) :
    ∃ before' after', cs = before' ++ run ++ after' ∧ byteSize before' = byteSize before := by
  fun_induction blankFrom inside cs generalizing before run with
  | case1 => simp_all
  | case2 rest ih =>
    obtain ⟨before', rfl, hrest⟩ :=
      exists_append_of_blank (show [' ', ' '] ++ _ = _ from h) isBlank_of_mem_mark hne hrun
    obtain ⟨first, last, rfl, hsize⟩ := ih hrest hne hrun
    exact ⟨'/' :: '*' :: first, last, rfl, by rw [byteSize_cons, byteSize_cons, hsize]; rfl⟩
  | case3 c rest _ ih =>
    cases before with
    | cons b before =>
      obtain ⟨rfl, hrest⟩ := List.cons.inj h
      obtain ⟨first, last, rfl, hsize⟩ := ih hrest hne hrun
      exact ⟨c :: first, last, rfl, by rw [byteSize_cons, hsize, byteSize_cons]⟩
    | nil =>
      -- The run begins with the character itself, and goes on right after it.
      obtain ⟨d, run, rfl⟩ := List.exists_cons_of_ne_nil hne
      obtain ⟨rfl, hrest⟩ := List.cons.inj h
      rw [List.forall_mem_cons] at hrun
      by_cases hmore : run = []
      · exact ⟨[], rest, by rw [hmore]; rfl, rfl⟩
      · obtain ⟨first, last, rfl, hsize⟩ := ih (show _ = [] ++ run ++ after from hrest) hmore hrun.2
        rw [byteSize_eq_zero hsize]
        exact ⟨[], last, rfl, rfl⟩
  | case4 rest ih =>
    obtain ⟨before', rfl, hrest⟩ :=
      exists_append_of_blank (show [' ', ' '] ++ _ = _ from h) isBlank_of_mem_mark hne hrun
    obtain ⟨first, last, rfl, hsize⟩ := ih hrest hne hrun
    exact ⟨'*' :: '/' :: first, last, rfl, by rw [byteSize_cons, byteSize_cons, hsize]; rfl⟩
  | case5 c rest _ ih =>
    obtain ⟨before', rfl, hrest⟩ := exists_append_of_blank h
      (fun d hd => isBlank_of_mem_blankChar hd) hne hrun
    obtain ⟨first, last, rfl, hsize⟩ := ih hrest hne hrun
    refine ⟨c :: first, last, rfl, ?_⟩
    rw [byteSize_cons, hsize, byteSize_append, byteSize_blankChar]

/-- A part of the blanked text without blanks is a part of the text. -/
theorem partOf_of_blank {cs : List Char} {part : Excerpt} (h : part.PartOf ⟨0, blank cs⟩)
    (hne : part.chars ≠ []) (hpart : ∀ c ∈ part.chars, isBlank c = false) :
    part.PartOf ⟨0, cs⟩ := by
  obtain ⟨before, after, hchars, hstart⟩ := h
  obtain ⟨before', after', hchars', hsize⟩ := exists_of_blankFrom hchars hne hpart
  exact ⟨before', after', hchars', by rw [hstart, hsize]⟩

/-- A firm offset of the blanked text, and its end, are edges of the text. -/
theorem isValid_of_anchored {cs : List Char} {offset : Nat}
    (h : (⟨0, blank cs⟩ : Excerpt).Anchored offset) :
    String.Pos.Raw.IsValid (String.ofList cs) ⟨offset⟩ := by
  rcases h with ⟨before, c, after, hchars, hc, hoffset⟩ | rfl
  · have hrun : blank cs = before ++ [c] ++ after := by simpa using hchars
    obtain ⟨before', after', hcs, hsize⟩ := exists_of_blankFrom hrun (List.cons_ne_nil c [])
      (by simpa using hc)
    rw [Nat.zero_add, ← hsize] at hoffset
    rcases hoffset with rfl | rfl
    · exact isValid_of_append (hcs.trans (List.append_assoc _ _ _))
    · have hsnoc : byteSize (before' ++ [c]) = byteSize before' + c.utf8Size := by simp
      rw [← hsnoc]
      exact isValid_of_append hcs
  · have hstop : (⟨0, blank cs⟩ : Excerpt).stop = byteSize cs := by
      rw [Excerpt.stop, Nat.zero_add, byteSize_blank]
    rw [hstop]
    exact isValid_of_append (List.append_nil cs).symm

/-- The marks at which comments start and end take two bytes. -/
theorem byteSize_mark (cs : List Char) :
    byteSize ('/' :: '*' :: cs) = 2 + byteSize cs ∧
      byteSize ('*' :: '/' :: cs) = 2 + byteSize cs := by
  simp only [byteSize_cons, ← Nat.add_assoc]
  exact ⟨rfl, rfl⟩

/-- A comment that never ends was open before, or starts with its mark. -/
theorem openFrom_eq_some {inside : Option Nat} {offset start : Nat} {cs : List Char}
    (h : openFrom inside offset cs = some start) :
    inside = some start ∨
      ∃ before after, cs = before ++ '/' :: '*' :: after ∧ start = offset + byteSize before := by
  fun_induction openFrom inside offset cs with
  | case1 => exact .inl h
  | case2 offset rest ih =>
    rcases ih h with hopen | ⟨before, after, rfl, hstart⟩
    · cases hopen
      exact .inr ⟨[], rest, rfl, rfl⟩
    · exact .inr ⟨'/' :: '*' :: before, after, rfl,
        by rw [hstart, (byteSize_mark before).1, Nat.add_assoc]⟩
  | case3 offset c rest _ ih =>
    rcases ih h with hopen | ⟨before, after, rfl, hstart⟩
    · cases hopen
    · exact .inr ⟨c :: before, after, rfl, by rw [hstart, byteSize_cons, Nat.add_assoc]⟩
  | case4 start offset rest ih =>
    rcases ih h with hopen | ⟨before, after, rfl, hstart⟩
    · cases hopen
    · exact .inr ⟨'*' :: '/' :: before, after, rfl,
        by rw [hstart, (byteSize_mark before).2, Nat.add_assoc]⟩
  | case5 start offset c rest _ ih =>
    rcases ih h with hopen | ⟨before, after, rfl, hstart⟩
    · exact .inl hopen
    · exact .inr ⟨c :: before, after, rfl, by rw [hstart, byteSize_cons, Nat.add_assoc]⟩

theorem partOf_of_unterminated? {cs : List Char} {start : Nat}
    (h : unterminated? cs = some start) :
    (⟨start, ['/', '*']⟩ : Excerpt).PartOf ⟨0, cs⟩ := by
  rcases openFrom_eq_some h with hopen | ⟨before, after, hcs, hstart⟩
  · cases hopen
  · exact ⟨before, after, by simpa using hcs, hstart⟩

end Comment

end StyleVars
