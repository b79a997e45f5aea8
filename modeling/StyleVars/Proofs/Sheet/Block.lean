import StyleVars.Proofs.Sheet.Order
import StyleVars.Proofs.Text.Edge

/-!
# Where blocks stand

A rule runs from its selector to its closing brace without a gap, so its span is that of a part of
the sheet. The braces and semicolons that end chunks, blocks and segments are no blanks, which makes
the ends of whatever they end firm.
-/

namespace StyleVars

/-- Where a block ends its closing brace stands. -/
theorem splitBlock_snd_eq {depth : Nat} {cs later : List Char} {brace : Char}
    (h : (splitBlock depth cs).2 = brace :: later) : brace = '}' := by
  fun_induction splitBlock depth cs with
  | case1 => cases h
  | case2 depth c cs hclose =>
    cases h
    exact hclose.1
  | case3 depth c cs _ inner split ih => exact ih h

theorem isBlank_eq_false_of_endsChunk {c : Char} (h : endsChunk c) : isBlank c = false := by
  simp only [endsChunk, Bool.or_eq_true, beq_iff_eq] at h
  rcases h with (rfl | rfl) | rfl <;> decide

namespace Excerpt

variable {e rest piece segment : Excerpt}

/-! ## Chunks -/

/-- The offset at which a rule with this body ends. -/
def ruleStop (body : Excerpt) (closed : Bool) : Nat := if closed then body.stop + 1 else body.stop

/-- A rule of the sheet `e`: the selector, the body, and a part of the sheet that begins with the
selector and ends with the rule. -/
structure IsRuleIn (selector body : Excerpt) (closed : Bool) (e : Excerpt) : Prop where
  firm_selector : selector.FirmIn e
  partOf_body : body.PartOf e
  stop_body : e.Anchored body.stop
  whole : ∃ more, (⟨selector.start, selector.chars ++ more⟩ : Excerpt).FirmIn e ∧
    (⟨selector.start, selector.chars ++ more⟩ : Excerpt).stop = ruleStop body closed

theorem IsRuleIn.of_restOf {selector body : Excerpt} {closed : Bool}
    (h : IsRuleIn selector body closed rest) (hrest : rest.RestOf e) :
    IsRuleIn selector body closed e := by
  obtain ⟨more, hfirm, hstop⟩ := h.whole
  exact ⟨h.firm_selector.of_restOf hrest, h.partOf_body.trans hrest.partOf,
    h.stop_body.of_restOf hrest, more, hfirm.of_restOf hrest, hstop⟩

/-- The closing brace of a rule, if it has one. -/
def closing (closed : Bool) : List Char := if closed then ['}'] else []

theorem ruleStop_eq (body : Excerpt) (closed : Bool) :
    ruleStop body closed = body.stop + byteSize (closing closed) := by
  cases closed <;> rfl

/-- A closing brace makes the ends of the body and of the rule firm. Without one both are the end of
the text. -/
theorem anchored_closing {before later : List Char} {closed : Bool}
    (hchars : e.chars = before ++ closing closed ++ later) (hlater : closed = false → later = []) :
    e.Anchored (e.start + byteSize before) ∧
      e.Anchored (e.start + byteSize before + byteSize (closing closed)) := by
  cases closed with
  | true =>
    have hsplit : e.chars = before ++ '}' :: later := by
      rw [hchars, List.append_assoc]
      rfl
    exact ⟨.inl (firm_before hsplit (by decide)),
      .inl ⟨before, '}', later, hsplit, by decide, .inr rfl⟩⟩
  | false =>
    have hstop : e.start + byteSize before = e.stop := by
      rw [stop, hchars, hlater rfl, closing]
      simp
    rw [closing, if_neg Bool.false_ne_true, byteSize_nil, Nat.add_zero, hstop]
    exact ⟨e.anchored_stop, e.anchored_stop⟩

/-- A header, the character that opens the body, the body and the closing brace, if any, make up a
rule. -/
theorem isRuleIn_of_append {header body later : List Char} {c : Char} {closed : Bool}
    (hchars : e.chars = header ++ c :: body ++ closing closed ++ later)
    (hc : isBlank c = false) (hlater : closed = false → later = []) :
    IsRuleIn (⟨e.start, header⟩ : Excerpt).trim
      ⟨e.start + byteSize header + c.utf8Size, body⟩ closed e := by
  have hopen : e.chars = header ++ c :: (body ++ closing closed ++ later) := by
    simpa using hchars
  have hselector : (⟨e.start, header⟩ : Excerpt).trim.FirmIn e :=
    (firmIn_trim _).of_partOf (partOf_of_append hopen) (.inl (firm_before hopen hc))
  obtain ⟨hbody, hend⟩ := anchored_closing hchars hlater
  have hstop : e.start + byteSize (header ++ c :: body) =
      (⟨e.start + byteSize header + c.utf8Size, body⟩ : Excerpt).stop := by
    simp only [stop, byteSize_append, byteSize_cons, Nat.add_assoc]
  rw [hstop] at hbody hend
  -- What stands between the selector and the body belongs to the rule.
  obtain ⟨before, gap, hheader, hstart⟩ := partOf_trim ⟨e.start, header⟩
  generalize (⟨e.start, header⟩ : Excerpt).trim = selector at hselector hheader hstart ⊢
  dsimp only at hheader hstart
  refine ⟨hselector, ⟨header ++ [c], closing closed ++ later, by simpa using hchars, ?_⟩, hbody,
    gap ++ c :: body ++ closing closed, ?_⟩
  · rw [byteSize_append, byteSize_cons, byteSize_nil, Nat.add_zero, Nat.add_assoc]
  · have hwhole : (⟨selector.start, selector.chars ++ (gap ++ c :: body ++ closing closed)⟩ :
        Excerpt).stop = ruleStop ⟨e.start + byteSize header + c.utf8Size, body⟩ closed := by
      rw [ruleStop_eq]
      simp only [stop, hstart, hheader, byteSize_append, byteSize_cons]
      omega
    refine ⟨⟨⟨before, later, ?_, hstart⟩, hselector.start, ?_⟩, hwhole⟩
    · rw [hchars, hheader]
      simp only [List.append_assoc, List.cons_append]
    · rw [hwhole, ruleStop_eq]
      exact hend

end Excerpt

/-- A chunk that is a rule is one of the sheet, and any other text of a chunk is a part of the
sheet. -/
def Chunk.StandsIn (e : Excerpt) : Chunk → Prop
  | .statement text => text.PartOf e
  | .tail text => text.PartOf e
  | .rule selector _ body closed => Excerpt.IsRuleIn selector body closed e
  | .group => True
  | .close _ => True

theorem Chunk.StandsIn.of_restOf {chunk : Chunk} {e rest : Excerpt} (h : chunk.StandsIn rest)
    (hrest : rest.RestOf e) : chunk.StandsIn e := by
  cases chunk with
  | statement text | tail text => exact Excerpt.PartOf.trans h hrest.partOf
  | rule selector brace body closed => exact Excerpt.IsRuleIn.of_restOf h hrest
  | group | close offset => trivial

namespace Excerpt

variable {e rest piece segment : Excerpt}

/-- The text around a block: what stands before its opening character, the block, its closing brace
and the rest. -/
theorem chars_of_dropWhile {p : Char → Bool} {c : Char} {cs body later : List Char} {closed : Bool}
    (hrest : (e.dropWhile p).chars = c :: cs) (hcs : cs = body ++ closing closed ++ later) :
    e.chars = e.chars.takeWhile p ++ c :: body ++ closing closed ++ later := by
  calc e.chars = e.chars.takeWhile p ++ (e.dropWhile p).chars :=
        List.takeWhile_append_dropWhile.symm
    _ = _ := by
      rw [hrest, hcs]
      simp only [List.append_assoc, List.cons_append]

/-- What stands before a brace is the header of the rule that the brace opens. -/
theorem isRuleIn_of_dropWhile {c : Char} {cs body later : List Char} {closed : Bool}
    (hrest : (e.dropWhile fun c => !endsChunk c).chars = c :: cs)
    (hcs : cs = body ++ closing closed ++ later) (hlater : closed = false → later = []) :
    IsRuleIn (e.splitWhile fun c => !endsChunk c).1.trim
      ⟨(e.dropWhile fun c => !endsChunk c).start + c.utf8Size, body⟩ closed e := by
  have hends : endsChunk c := by simpa using dropWhile_head hrest
  exact isRuleIn_of_append (chars_of_dropWhile hrest hcs) (isBlank_eq_false_of_endsChunk hends)
    hlater

theorem standsIn_chunks (e : Excerpt) : ∀ chunk ∈ e.chunks, chunk.StandsIn e := by
  have hbefore (e : Excerpt) : ((e.splitWhile fun c => !endsChunk c).1.trim).PartOf e :=
    (partOf_trim _).trans (partOf_splitWhile _ e)
  fun_induction chunks e with
  | case1 e before =>
    intro chunk hchunk
    rw [List.mem_singleton.mp hchunk]
    exact hbefore e
  | case2 e before rest later hrest _ after ih =>
    rw [List.forall_mem_cons]
    exact ⟨hbefore e, fun chunk hchunk => (ih chunk hchunk).of_restOf (restOf_after hrest)⟩
  | case3 e rest later hrest _ after _ ih =>
    rw [List.forall_mem_cons]
    exact ⟨trivial, fun chunk hchunk => (ih chunk hchunk).of_restOf (restOf_after hrest)⟩
  | case4 e before rest c cs hrest _ after _ _ _ ih =>
    rw [List.forall_mem_cons]
    exact ⟨trivial, fun chunk hchunk => (ih chunk hchunk).of_restOf (restOf_after hrest)⟩
  | case5 e before rest c cs hrest _ after _ _ _ body _ hunclosed =>
    have hcs := (splitBlock_append 0 cs).symm
    rw [hunclosed] at hcs
    have hrule : IsRuleIn before body false e :=
      isRuleIn_of_dropWhile hrest (by simpa [closing] using hcs) fun _ => rfl
    rw [List.forall_mem_cons]
    refine ⟨hrule, fun chunk hchunk => ?_⟩
    rw [List.mem_singleton.mp hchunk]
    obtain ⟨first, later, hchars, hstart⟩ := hrule.partOf_body
    refine ⟨first ++ body.chars, later, by simpa using hchars, ?_⟩
    rw [stop, hstart, byteSize_append, Nat.add_assoc]
  | case6 e before rest c cs hrest _ after _ _ _ body _ brace later hlater _ ih =>
    have hnext := (restOf_splitBlock after hlater).trans (restOf_after hrest)
    have hcs := (splitBlock_append 0 cs).symm
    rw [hlater, splitBlock_snd_eq hlater] at hcs
    have hrule : IsRuleIn before body true e :=
      isRuleIn_of_dropWhile hrest (by simpa [closing] using hcs) fun hopen => by cases hopen
    rw [List.forall_mem_cons]
    exact ⟨hrule, fun chunk hchunk => (ih chunk hchunk).of_restOf hnext⟩

/-! ## Pieces and segments -/

/-- What is left of a text before a nested block ends with a semicolon, or nothing is left. -/
theorem firm_stop_settled (flat : Excerpt) :
    dropTrailing (· != ';') flat.chars = [] ∨
      flat.Firm (⟨flat.start, dropTrailing (· != ';') flat.chars⟩ : Excerpt).stop := by
  rcases dropTrailing_eq (· != ';') flat.chars with hnil | ⟨init, c, hlast, hc⟩
  · exact .inl hnil
  · obtain ⟨dropped, hdropped⟩ := dropTrailing_append (· != ';') flat.chars
    have hsemicolon : c = ';' := by simpa using hc
    have hfirm := firm_stop (e := ⟨flat.start, dropTrailing (· != ';') flat.chars⟩) hlast
      (by rw [hsemicolon]; decide)
    exact .inr (hfirm.of_partOf (partOf_of_append hdropped))

/-- A piece ends with a semicolon or with the body, unless it is empty. -/
theorem anchored_stop_pieces (h : piece ∈ e.pieces) : piece.chars = [] ∨ e.Anchored piece.stop := by
  fun_induction pieces e with
  | case1 e flat rest hrest =>
    rw [List.mem_singleton.mp h]
    have hstop : flat.stop = e.stop := by
      rw [← (restOf_dropWhile (· != '{') e).stop_eq]
      exact (stop_eq_start hrest).symm
    exact .inr (.inr hstop)
  | case2 e flat rest _ _ _ _ settled =>
    rw [List.mem_singleton.mp h]
    exact flat.firm_stop_settled.imp_right fun hfirm =>
      .inl (hfirm.of_partOf (partOf_splitWhile _ e))
  | case3 e flat rest c cs hc _ settled blockStart _ brace later hrest _ ih =>
    rcases List.mem_cons.mp h with rfl | hmem
    · exact flat.firm_stop_settled.imp_right fun hfirm =>
        .inl (hfirm.of_partOf (partOf_splitWhile _ e))
    · have hlater := (restOf_splitBlock ⟨blockStart, cs⟩ hrest).trans (restOf_after hc)
      exact (ih hmem).imp_right fun hanchored => hanchored.of_restOf hlater

theorem mem_splitTop_of_mem_segments (h : segment ∈ e.segments) :
    segment ∈ e.splitTop (· == ';') := by
  rw [segments] at h
  split at h
  · split at h
    · exact (List.dropLast_sublist _).subset h
    · exact h
  · exact h

theorem segments_nil (h : e.chars = []) : e.segments = [] := by
  rw [segments, splitTop, h]
  rfl

/-- A segment of a body ends before or after a semicolon, or with the body. -/
theorem anchored_stop_segments (hpiece : piece ∈ e.pieces) (h : segment ∈ piece.segments) :
    segment.PartOf e ∧ e.Anchored segment.stop := by
  have hpart := (inOrder_pieces e).partOf hpiece
  have hstop : piece.Anchored segment.stop :=
    anchored_stop_splitTop (fun c hc => by rw [eq_of_beq hc]; decide)
      (mem_splitTop_of_mem_segments h)
  refine ⟨((inOrder_segments piece).partOf h).trans hpart, ?_⟩
  rcases anchored_stop_pieces hpiece with hnil | hend
  · rw [segments_nil hnil] at h
    cases h
  · exact hstop.of_partOf hpart hend

end Excerpt

end StyleVars
