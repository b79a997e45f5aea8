import StyleVars.Proofs.Text.Excerpt

/-!
# Positions in a longer text

The position of an offset is where one gets by walking over the characters that start before it. So
positions add up: a place in a text that stands behind another text is found by walking to the end
of the first one, and on from there. What follows the text makes no difference.
-/

namespace StyleVars

namespace Position

/-- The position `p`, counted from `base` on. -/
instance : Add Position where
  add base p :=
    if p.line = 0 then ⟨base.line, base.character + p.character⟩
    else ⟨base.line + p.line, p.character⟩

theorem add_def (base p : Position) :
    base + p = if p.line = 0 then ⟨base.line, base.character + p.character⟩
      else ⟨base.line + p.line, p.character⟩ := rfl

theorem zero_add (p : Position) : ⟨0, 0⟩ + p = p := by
  rw [add_def]
  split
  · rename_i hline
    rw [Nat.zero_add, ← hline]
  · rw [Nat.zero_add]

/-- The position after the character `c` at `p`. -/
def advance (p : Position) (c : Char) : Position :=
  if c = '\n' then ⟨p.line + 1, 0⟩ else ⟨p.line, p.character + 1⟩

/-- The position at the end of a text. -/
def endOf (cs : List Char) : Position := cs.foldl advance ⟨0, 0⟩

theorem add_advance (base p : Position) (c : Char) :
    base + p.advance c = (base + p).advance c := by
  rw [advance, advance]
  by_cases hc : c = '\n'
  · rw [if_pos hc, if_pos hc, add_def, add_def, if_neg (Nat.succ_ne_zero _)]
    split
    · rename_i hline
      rw [hline]
    · rfl
  · rw [if_neg hc, if_neg hc, add_def, add_def]
    split
    · rfl
    · rfl

theorem foldl_advance_add (base p : Position) (cs : List Char) :
    cs.foldl advance (base + p) = base + cs.foldl advance p := by
  induction cs generalizing p with
  | nil => rfl
  | cons c cs ih => rw [List.foldl_cons, ← add_advance, ih, List.foldl_cons]

theorem endOf_append (xs ys : List Char) : endOf (xs ++ ys) = endOf xs + endOf ys := by
  rw [endOf, List.foldl_append, endOf, endOf, ← foldl_advance_add]
  rfl

end Position

namespace LineTable

open Position

/-! ## Characters before an offset -/

theorem startedBefore_of_le {offset start : Nat} (h : offset ≤ start) (cs : List Char) :
    startedBefore offset start cs = 0 := by
  cases cs with
  | nil => rfl
  | cons c cs => rw [startedBefore, if_neg (by omega)]

theorem startedBefore_le_length (offset start : Nat) (cs : List Char) :
    startedBefore offset start cs ≤ cs.length := by
  induction cs generalizing start with
  | nil => exact Nat.le_refl 0
  | cons c cs ih =>
    rw [startedBefore]
    split
    · exact Nat.succ_le_succ (ih _)
    · exact Nat.zero_le _

theorem startedBefore_add (n offset start : Nat) (cs : List Char) :
    startedBefore (n + offset) (n + start) cs = startedBefore offset start cs := by
  induction cs generalizing start with
  | nil => rfl
  | cons c cs ih =>
    rw [startedBefore, startedBefore, Nat.add_assoc, ih]
    simp only [Nat.add_lt_add_iff_left]

theorem startedBefore_append {offset start : Nat} {before : List Char}
    (h : start + byteSize before ≤ offset) (rest : List Char) :
    startedBefore offset start (before ++ rest) =
      before.length + startedBefore offset (start + byteSize before) rest := by
  induction before generalizing start with
  | nil => rw [List.nil_append, List.length_nil, byteSize_nil, Nat.add_zero, Nat.zero_add]
  | cons c cs ih =>
    have hc := c.utf8Size_pos
    rw [byteSize_cons, ← Nat.add_assoc] at h
    rw [List.cons_append, startedBefore, if_pos (by omega), ih h, byteSize_cons, ← Nat.add_assoc,
      List.length_cons]
    omega

theorem startedBefore_append_left {offset start : Nat} {cs : List Char}
    (h : offset ≤ start + byteSize cs) (after : List Char) :
    startedBefore offset start (cs ++ after) = startedBefore offset start cs := by
  induction cs generalizing start with
  | nil => exact startedBefore_of_le h after
  | cons c cs ih =>
    rw [byteSize_cons, ← Nat.add_assoc] at h
    rw [List.cons_append, startedBefore, startedBefore, ih h]

/-! ## Lines -/

theorem start_first_ofChars (start : Nat) (cs : List Char) :
    (ofChars start cs).first.start = start := by
  cases cs with
  | nil => rfl
  | cons c cs =>
    rw [ofChars]
    split <;> rfl

theorem lt_start_of_mem_more {start : Nat} {cs : List Char} {l : Excerpt}
    (h : l ∈ (ofChars start cs).more) : start < l.start := by
  induction cs generalizing start with
  | nil => cases h
  | cons c cs ih =>
    have hc := c.utf8Size_pos
    have hlater (hmem : l ∈ (ofChars (start + c.utf8Size) cs).more) : start < l.start :=
      Nat.lt_of_le_of_lt (Nat.le_add_right _ _) (ih hmem)
    rw [ofChars] at h
    split at h
    · rcases List.mem_cons.mp h with rfl | hmem
      · rw [start_first_ofChars]
        omega
      · exact hlater hmem
    · exact hlater h

theorem locate_succ (offset n : Nat) (l : Excerpt) (later : List Excerpt) :
    locate offset (n + 1) l later = ⟨1, 0⟩ + locate offset n l later := by
  have hadd (k : Nat) : (⟨n + 1, k⟩ : Position) = ⟨1, 0⟩ + ⟨n, k⟩ := by
    rw [add_def]
    split
    · rename_i hn
      rw [Nat.zero_add, show n = 0 from hn]
    · rw [Nat.add_comm]
  induction later generalizing n l with
  | nil => exact hadd _
  | cons next later ih =>
    rw [locate, locate]
    split
    · exact hadd _
    · refine ih (n + 1) next fun k => ?_
      rw [add_def, if_neg (Nat.succ_ne_zero n), Nat.add_comm]

/-- A character in front of the first line. -/
theorem locate_cons {offset start : Nat} {c : Char} {l : Excerpt} (hstart : start < offset)
    (hl : l.start = start + c.utf8Size) (later : List Excerpt) :
    locate offset 0 ⟨start, c :: l.chars⟩ later = ⟨0, 1⟩ + locate offset 0 l later := by
  have hfirst : startedBefore offset start (c :: l.chars) =
      1 + startedBefore offset l.start l.chars := by
    rw [startedBefore, if_pos hstart, hl, Nat.add_comm]
  cases later with
  | nil =>
    rw [locate, locate, hfirst]
    rfl
  | cons next later =>
    rw [locate, locate, hfirst]
    split
    · rfl
    · -- The offset stands on a later line, where the character makes no difference.
      have hline : (locate offset 1 next later).line ≠ 0 :=
        Nat.ne_of_gt (le_line_locate offset 1 next later)
      rw [add_def, Nat.zero_add 1, if_neg hline, Nat.zero_add]

theorem locate_of_le {offset : Nat} {l : Excerpt} {later : List Excerpt} (h : offset ≤ l.start)
    (hlater : ∀ next ∈ later, l.start < next.start) : locate offset 0 l later = ⟨0, 0⟩ := by
  cases later with
  | nil => rw [locate, startedBefore_of_le h]
  | cons next later =>
    have hnext := hlater next List.mem_cons_self
    rw [locate, if_pos (by omega), startedBefore_of_le h]

/-- The position of an offset is where the characters that start before it end. -/
theorem locate_ofChars (offset start : Nat) (cs : List Char) :
    locate offset 0 (ofChars start cs).first (ofChars start cs).more =
      endOf (cs.take (startedBefore offset start cs)) := by
  induction cs generalizing start with
  | nil => rfl
  | cons c cs ih =>
    by_cases hstart : start < offset
    · have hend : endOf ((c :: cs).take (startedBefore offset start (c :: cs))) =
          endOf [c] + locate offset 0 (ofChars (start + c.utf8Size) cs).first
            (ofChars (start + c.utf8Size) cs).more := by
        rw [startedBefore, if_pos hstart, List.take_succ_cons, ih, ← endOf_append,
          List.singleton_append]
      have hfirst := start_first_ofChars (start + c.utf8Size) cs
      rw [hend, ofChars]
      by_cases hc : c = '\n'
      · subst hc
        have hsize : '\n'.utf8Size = 1 := rfl
        rw [if_pos rfl, locate, hfirst, if_neg (by omega), locate_succ]
        rfl
      · have hone : endOf [c] = ⟨0, 1⟩ := if_neg hc
        rw [if_neg hc, locate_cons hstart hfirst, hone]
    · have hle : offset ≤ (ofChars start (c :: cs)).first.start := by
        rw [start_first_ofChars]
        omega
      rw [startedBefore_of_le (by omega), locate_of_le hle]
      · rfl
      · intro next hnext
        rw [start_first_ofChars]
        exact lt_start_of_mem_more hnext

theorem position_ofChars (offset : Nat) (cs : List Char) :
    (ofChars 0 cs).position offset = endOf (cs.take (startedBefore offset 0 cs)) :=
  locate_ofChars offset 0 cs

/-- Where a text stands between two others, its positions are counted from the end of the first. -/
theorem position_between {before cs : List Char} {offset : Nat} (h : offset ≤ byteSize cs)
    (after : List Char) :
    (ofChars 0 (before ++ cs ++ after)).position (byteSize before + offset) =
      endOf before + (ofChars 0 cs).position offset := by
  have hcount : startedBefore (byteSize before + offset) 0 (before ++ (cs ++ after)) =
      before.length + startedBefore offset 0 cs := by
    rw [startedBefore_append (by omega), Nat.add_comm 0, startedBefore_add,
      startedBefore_append_left (by omega)]
  rw [position_ofChars, position_ofChars, List.append_assoc, hcount, List.take_length_add_append,
    List.take_append_of_le_length (startedBefore_le_length _ _ _), endOf_append]

end LineTable

end StyleVars
