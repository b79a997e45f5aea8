import Mathlib.Data.List.Induction
import StyleVars.Proofs.Text.Edge
import StyleVars.Proofs.Text.Lines

/-!
# Positions count lines and characters

A position can be checked against the text by counting. The line of an offset is the number of line
feeds that start before it, and its character is the number of characters that start before it with
no line feed in between. An offset inside a character counts that character, and one past the end
counts all of them.

Every character moves the position on. So on the edges of a text, positions are ordered as the
offsets are, and two of them are the same only for the same offset.
-/

namespace StyleVars

/-! ## Counting -/

/-- The characters of a text, each with the offset at which it starts. -/
def charStarts (start : Nat) : List Char → List (Nat × Char)
  | [] => []
  | c :: cs => (start, c) :: charStarts (start + c.utf8Size) cs

/-- How many line feeds start before an offset. -/
def lineFeedsBefore (cs : List Char) (offset : Nat) : Nat :=
  (charStarts 0 cs).countP fun p => p.1 < offset && p.2 == '\n'

/-- How many characters of the line of an offset start before the offset. A character stands on that
line when as many line feeds start before the one as before the other. -/
def columnBefore (cs : List Char) (offset : Nat) : Nat :=
  (charStarts 0 cs).countP fun p =>
    p.1 < offset && lineFeedsBefore cs p.1 == lineFeedsBefore cs offset

theorem charStarts_append (start : Nat) (xs ys : List Char) :
    charStarts start (xs ++ ys) = charStarts start xs ++ charStarts (start + byteSize xs) ys := by
  induction xs generalizing start with
  | nil => rfl
  | cons c cs ih =>
    rw [List.cons_append, charStarts, ih, charStarts, byteSize_cons, Nat.add_assoc]
    rfl

theorem length_charStarts (start : Nat) (cs : List Char) :
    (charStarts start cs).length = cs.length := by
  induction cs generalizing start with
  | nil => rfl
  | cons c cs ih => exact congrArg (· + 1) (ih _)

theorem le_of_mem_charStarts {start : Nat} {cs : List Char} {p : Nat × Char}
    (h : p ∈ charStarts start cs) : start ≤ p.1 := by
  induction cs generalizing start with
  | nil => cases h
  | cons c cs ih =>
    rcases List.mem_cons.mp h with rfl | hmem
    · exact Nat.le_refl start
    · exact Nat.le_trans (Nat.le_add_right _ _) (ih hmem)

theorem lt_of_mem_charStarts {start : Nat} {cs : List Char} {p : Nat × Char}
    (h : p ∈ charStarts start cs) : p.1 < start + byteSize cs := by
  induction cs generalizing start with
  | nil => cases h
  | cons c cs ih =>
    have hc := c.utf8Size_pos
    rw [byteSize_cons]
    rcases List.mem_cons.mp h with rfl | hmem
    · show start < start + (c.utf8Size + byteSize cs)
      omega
    · have hlt := ih hmem
      omega

theorem countP_charStarts (start : Nat) (cs : List Char) :
    (charStarts start cs).countP (·.2 == '\n') = cs.count '\n' := by
  induction cs generalizing start with
  | nil => rfl
  | cons c cs ih => rw [charStarts, List.countP_cons, ih, List.count_cons]

/-- The characters that start before an offset are a beginning of the text. -/
theorem filter_charStarts (offset start : Nat) (cs : List Char) :
    (charStarts start cs).filter (·.1 < offset) =
      charStarts start (cs.take (LineTable.startedBefore offset start cs)) := by
  induction cs generalizing start with
  | nil => rfl
  | cons c cs ih =>
    rw [charStarts, LineTable.startedBefore]
    by_cases hstart : start < offset
    · rw [List.filter_cons_of_pos (by simpa using hstart), ih, if_pos hstart, List.take_succ_cons,
        charStarts]
    · -- The offsets only grow, so no later character starts before the offset either.
      rw [List.filter_cons_of_neg (by simpa using hstart), if_neg hstart, List.take_zero,
        charStarts, List.filter_eq_nil_iff]
      intro p hp
      have hle := le_of_mem_charStarts hp
      simp only [decide_eq_true_eq]
      omega

theorem lineFeedsBefore_eq_count (cs : List Char) (offset : Nat) :
    lineFeedsBefore cs offset =
      (cs.take (LineTable.startedBefore offset 0 cs)).count '\n' := by
  rw [lineFeedsBefore, ← countP_charStarts 0, ← filter_charStarts, List.countP_filter]
  exact List.countP_congr fun p _ => by rw [Bool.and_comm]

theorem columnBefore_eq_countP (cs : List Char) (offset : Nat) :
    columnBefore cs offset =
      (charStarts 0 (cs.take (LineTable.startedBefore offset 0 cs))).countP fun p =>
        lineFeedsBefore cs p.1 == lineFeedsBefore cs offset := by
  rw [columnBefore, ← filter_charStarts, List.countP_filter]
  exact List.countP_congr fun p _ => by rw [Bool.and_comm]

theorem lineFeedsBefore_mono (cs : List Char) {a b : Nat} (h : a ≤ b) :
    lineFeedsBefore cs a ≤ lineFeedsBefore cs b := by
  refine List.countP_mono_left fun p _ hp => ?_
  simp only [Bool.and_eq_true, decide_eq_true_eq] at hp ⊢
  exact ⟨Nat.lt_of_lt_of_le hp.1 h, hp.2⟩

theorem lineFeedsBefore_le_count (cs : List Char) (offset : Nat) :
    lineFeedsBefore cs offset ≤ cs.count '\n' := by
  rw [lineFeedsBefore_eq_count]
  exact (List.take_sublist _ _).count_le _

theorem columnBefore_le_length (cs : List Char) (offset : Nat) :
    columnBefore cs offset ≤ cs.length := by
  rw [← length_charStarts 0]
  exact List.countP_le_length

/-! ## Positions -/

namespace LineTable

open Position

/-- All characters of a beginning start before its end, and no others do. -/
theorem startedBefore_byteSize (xs ys : List Char) :
    startedBefore (byteSize xs) 0 (xs ++ ys) = xs.length := by
  rw [startedBefore_append (by omega), startedBefore_of_le (by omega), Nat.add_zero]

/-- Offsets past the end stand for the end. -/
theorem startedBefore_min (offset start : Nat) (cs : List Char) :
    startedBefore (min offset (start + byteSize cs)) start cs = startedBefore offset start cs := by
  induction cs generalizing start with
  | nil => rfl
  | cons c cs ih =>
    have hc := c.utf8Size_pos
    have hlt : start < min offset (start + byteSize (c :: cs)) ↔ start < offset := by
      rw [byteSize_cons]
      omega
    rw [startedBefore, startedBefore, byteSize_cons, ← Nat.add_assoc, ih]
    rw [byteSize_cons, ← Nat.add_assoc] at hlt
    simp only [hlt]

theorem position_min (offset : Nat) (cs : List Char) :
    (ofChars 0 cs).position (min offset (byteSize cs)) = (ofChars 0 cs).position offset := by
  have hmin := startedBefore_min offset 0 cs
  rw [Nat.zero_add] at hmin
  rw [position_ofChars, position_ofChars, hmin]

theorem line_endOf (cs : List Char) : (endOf cs).line = cs.count '\n' := by
  induction cs using List.reverseRecOn with
  | nil => rfl
  | append_singleton cs c ih =>
    rw [endOf, List.foldl_append, List.count_append, List.count_singleton, ← ih]
    show ((endOf cs).advance c).line = _
    rw [advance]
    by_cases hc : c = '\n'
    · simp [hc]
    · simp [hc]

/-- The last line of a beginning of a text holds as many characters as its end position says. -/
theorem countP_last_line {cs xs ys : List Char} (h : cs = xs ++ ys) :
    ((charStarts 0 xs).countP fun p => lineFeedsBefore cs p.1 == xs.count '\n') =
      (endOf xs).character := by
  induction xs using List.reverseRecOn generalizing ys with
  | nil => rfl
  | append_singleton xs c ih =>
    have hcs : cs = xs ++ ([c] ++ ys) := by rw [h, List.append_assoc]
    have hlast : lineFeedsBefore cs (byteSize xs) = xs.count '\n' := by
      rw [lineFeedsBefore_eq_count, hcs, startedBefore_byteSize, List.take_left]
    have hend : endOf (xs ++ [c]) = (endOf xs).advance c := by
      rw [endOf, List.foldl_append]
      rfl
    rw [charStarts_append, List.countP_append, List.count_append, hend, advance, Nat.zero_add]
    by_cases hc : c = '\n'
    · -- The line feed ends the line, and every character up to it stands on an earlier one.
      subst hc
      rw [if_pos rfl, List.count_singleton_self, Nat.add_eq_zero_iff]
      constructor
      · rw [List.countP_eq_zero]
        intro p hp
        have hlt := lt_of_mem_charStarts hp
        rw [Nat.zero_add] at hlt
        have hle := lineFeedsBefore_mono cs (Nat.le_of_lt hlt)
        rw [hlast] at hle
        simp only [beq_iff_eq]
        omega
      · simp [charStarts, hlast]
    · have hcount : [c].count '\n' = 0 := List.count_singleton.trans (by simp [hc])
      rw [if_neg hc, hcount, Nat.add_zero, ih hcs]
      simp [charStarts, hlast]

/-- A position tells how many line feeds and how many characters of its line stand before it. -/
theorem position_eq (offset : Nat) (cs : List Char) :
    (ofChars 0 cs).position offset = ⟨lineFeedsBefore cs offset, columnBefore cs offset⟩ := by
  have hcs : cs = cs.take (startedBefore offset 0 cs) ++ cs.drop (startedBefore offset 0 cs) :=
    (List.take_append_drop _ _).symm
  have hline := lineFeedsBefore_eq_count cs offset
  have hcolumn := columnBefore_eq_countP cs offset
  rw [hline, countP_last_line hcs] at hcolumn
  rw [position_ofChars, hline, hcolumn, ← line_endOf]

theorem count_ofChars (start : Nat) (cs : List Char) :
    (ofChars start cs).count = cs.count '\n' + 1 := by
  induction cs generalizing start with
  | nil => rfl
  | cons c cs ih =>
    have hcount := ih (start + c.utf8Size)
    rw [count, lines, List.length_cons] at hcount ⊢
    rw [ofChars, List.count_cons, ← Nat.succ.inj hcount]
    by_cases hc : c = '\n'
    · rw [if_pos hc, if_pos (beq_iff_eq.mpr hc), List.length_cons]
    · rw [if_neg hc, if_neg (by simpa using hc), Nat.add_zero]

/-- Every position is on a line that exists. -/
theorem line_position_lt_count (offset : Nat) (cs : List Char) :
    ((ofChars 0 cs).position offset).line < (ofChars 0 cs).count := by
  rw [position_eq, count_ofChars]
  exact Nat.lt_succ_of_le (lineFeedsBefore_le_count cs offset)

end LineTable

/-! ## The order of positions -/

/-- Positions are ordered strictly by line, and within a line by character. -/
instance : LT Position where
  lt a b := a.line < b.line ∨ a.line = b.line ∧ a.character < b.character

instance (a b : Position) : Decidable (a < b) := inferInstanceAs (Decidable (_ ∨ _))

namespace Position

theorem lt_def (a b : Position) :
    a < b ↔ a.line < b.line ∨ a.line = b.line ∧ a.character < b.character := Iff.rfl

theorem le_def (a b : Position) :
    a ≤ b ↔ a.line < b.line ∨ a.line = b.line ∧ a.character ≤ b.character := Iff.rfl

theorem not_lt_of_le {a b : Position} (h : b ≤ a) : ¬a < b := by
  rw [le_def] at h
  rw [lt_def]
  omega

theorem lt_add {base p : Position} (h : p ≠ ⟨0, 0⟩) : base < base + p := by
  rw [lt_def, add_def]
  split
  · rename_i hline
    have hcharacter : p.character ≠ 0 := by
      intro hzero
      obtain ⟨line, character⟩ := p
      cases hline
      cases hzero
      exact h rfl
    refine .inr ⟨rfl, ?_⟩
    show base.character < base.character + p.character
    omega
  · rename_i hline
    refine .inl ?_
    show base.line < base.line + p.line
    omega

theorem endOf_ne_zero {cs : List Char} (h : cs ≠ []) : endOf cs ≠ ⟨0, 0⟩ := by
  obtain ⟨init, c, rfl⟩ := List.eq_nil_or_concat cs |>.resolve_left h
  rw [endOf, List.concat_eq_append, List.foldl_append]
  show (endOf init).advance c ≠ ⟨0, 0⟩
  rw [advance]
  split
  · exact fun heq => Nat.succ_ne_zero _ (congrArg line heq)
  · exact fun heq => Nat.succ_ne_zero _ (congrArg character heq)

end Position

/-- The edges of a text are the sizes of its beginnings. -/
theorem exists_append_of_isValid {text : String} {offset : Nat}
    (h : String.Pos.Raw.IsValid text ⟨offset⟩) :
    ∃ before after, text.toList = before ++ after ∧ offset = byteSize before := by
  obtain ⟨before, after, rfl, hoffset⟩ := String.Pos.Raw.isValid_iff_exists_append.mp h
  refine ⟨before.toList, after.toList, String.toList_append, ?_⟩
  rw [byteSize_toList, ← String.byteIdx_rawEndPos, ← hoffset]

/-- Of two beginnings of a text, the larger one goes on where the smaller one ends. -/
theorem exists_append_of_byteSize_lt {cs xs ys xs' ys' : List Char} (h : cs = xs ++ ys)
    (h' : cs = xs' ++ ys') (hlt : byteSize xs < byteSize xs') :
    ∃ zs, xs' = xs ++ zs ∧ zs ≠ [] := by
  have hprefix : xs <+: cs := ⟨ys, h.symm⟩
  rcases List.prefix_or_prefix_of_prefix hprefix ⟨ys', h'.symm⟩ with ⟨zs, hzs⟩ | ⟨zs, hzs⟩
  · refine ⟨zs, hzs.symm, ?_⟩
    rintro rfl
    rw [← hzs, List.append_nil] at hlt
    exact Nat.lt_irrefl _ hlt
  · rw [← hzs, byteSize_append] at hlt
    omega

namespace LineTable

open Position

theorem position_byteSize (xs ys : List Char) :
    (ofChars 0 (xs ++ ys)).position (byteSize xs) = endOf xs := by
  rw [position_ofChars, startedBefore_byteSize, List.take_left]

variable {text : String} {a b : Nat}

theorem position_lt_of_lt (ha : String.Pos.Raw.IsValid text ⟨a⟩)
    (hb : String.Pos.Raw.IsValid text ⟨b⟩) (h : a < b) :
    (ofString text).position a < (ofString text).position b := by
  obtain ⟨xs, ys, hxs, rfl⟩ := exists_append_of_isValid ha
  obtain ⟨xs', ys', hxs', rfl⟩ := exists_append_of_isValid hb
  obtain ⟨zs, rfl, hzs⟩ := exists_append_of_byteSize_lt hxs hxs' h
  have hlast : (ofString text).position (byteSize xs) = endOf xs := by
    rw [ofString, hxs, position_byteSize]
  rw [hlast, ofString, hxs', position_byteSize, endOf_append]
  exact lt_add (endOf_ne_zero hzs)

theorem position_lt_iff (ha : String.Pos.Raw.IsValid text ⟨a⟩)
    (hb : String.Pos.Raw.IsValid text ⟨b⟩) :
    (ofString text).position a < (ofString text).position b ↔ a < b := by
  refine ⟨fun hlt => ?_, position_lt_of_lt ha hb⟩
  refine Nat.lt_of_not_le fun hle => ?_
  exact not_lt_of_le (position_mono (ofString text) hle) hlt

theorem position_inj (ha : String.Pos.Raw.IsValid text ⟨a⟩)
    (hb : String.Pos.Raw.IsValid text ⟨b⟩) :
    (ofString text).position a = (ofString text).position b ↔ a = b := by
  refine ⟨fun heq => ?_, fun heq => by rw [heq]⟩
  have hirrefl (p : Position) : ¬p < p := not_lt_of_le (.inr ⟨rfl, Nat.le_refl _⟩)
  rcases Nat.lt_trichotomy a b with hlt | hab | hlt
  · exact absurd (heq ▸ position_lt_of_lt ha hb hlt) (hirrefl _)
  · exact hab
  · exact absurd (heq ▸ position_lt_of_lt hb ha hlt) (hirrefl _)

/-- In a text whose characters can be counted in 32 bits, the position of every offset is its true
line and character: the offset is cut to the end of the text, the line is the number of line feeds
before it and one of the lines of the text, and the character is the number of characters of that
line before it. On the edges of the text positions are ordered strictly as the offsets are, so they
tell offsets apart, and a range never ends before it starts. -/
theorem position_is_true_line_and_character (text : String)
    (hsize : text.length < positionLimit) :
    (∀ offset, (ofString text).position offset =
        ⟨lineFeedsBefore text.toList offset, columnBefore text.toList offset⟩ ∧
      (ofString text).position offset = (ofString text).position (min offset text.utf8ByteSize) ∧
      ((ofString text).position offset).line < (ofString text).count ∧
      ((ofString text).position offset).line < positionLimit ∧
      ((ofString text).position offset).character < positionLimit) ∧
      (∀ a b, String.Pos.Raw.IsValid text ⟨a⟩ → String.Pos.Raw.IsValid text ⟨b⟩ →
        ((ofString text).position a < (ofString text).position b ↔ a < b) ∧
          ((ofString text).position a = (ofString text).position b ↔ a = b)) ∧
      ∀ start stop, start ≤ stop →
        ((ofString text).range start stop).start ≤ ((ofString text).range start stop).stop := by
  refine ⟨fun offset => ?_, fun a b ha hb => ⟨position_lt_iff ha hb, position_inj ha hb⟩,
    fun start stop hle => position_mono _ hle⟩
  have hposition := position_eq offset text.toList
  have hline := lineFeedsBefore_le_count text.toList offset
  have hcolumn := columnBefore_le_length text.toList offset
  have hcount : text.toList.count '\n' ≤ text.toList.length := List.count_le_length
  rw [← String.length_toList] at hsize
  refine ⟨hposition, ?_, line_position_lt_count offset text.toList, ?_, ?_⟩
  · rw [← byteSize_toList]
    exact (position_min offset text.toList).symm
  · rw [ofString, hposition]
    exact Nat.lt_of_le_of_lt (Nat.le_trans hline hcount) hsize
  · rw [ofString, hposition]
    exact Nat.lt_of_le_of_lt hcolumn hsize

/-- Offsets inside a character, past the end and on either side of a line feed. -/
theorem position_is_true_line_and_character_of_long_characters :
    "é\n\n€b".length < positionLimit ∧
      (ofString "é\n\n€b").position 1 = ⟨0, 1⟩ ∧ (ofString "é\n\n€b").position 3 = ⟨1, 0⟩ ∧
      (ofString "é\n\n€b").position 99 = ⟨2, 2⟩ ∧
      (ofString "é\n\n€b").position 2 < (ofString "é\n\n€b").position 4 := by
  have hsize : "é\n\n€b".length < positionLimit := by decide +kernel
  obtain ⟨hcounts, horder, _⟩ := position_is_true_line_and_character "é\n\n€b" hsize
  refine ⟨hsize, (hcounts 1).1.trans ?_, (hcounts 3).1.trans ?_, (hcounts 99).1.trans ?_,
    (horder 2 4 ?_ ?_).1.mpr ?_⟩
  all_goals decide +kernel

end LineTable

end StyleVars
