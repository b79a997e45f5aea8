import StyleVars.Proofs.Sheet.Block
import StyleVars.Proofs.Value.Division

/-!
# Segments give back the body

The body of a rule is divided at its semicolons. Of the pieces only an empty one at the end is left
out, so joining the segments with semicolons gives the body again, up to a semicolon at its end. A
semicolon divides the body exactly when it stands outside quotes and parentheses.
-/

namespace StyleVars

theorem intercalate_concat_nil {sep : List Char} {xs : List (List Char)} (h : xs ≠ []) :
    sep.intercalate (xs ++ [[]]) = sep.intercalate xs ++ sep := by
  induction xs with
  | nil => exact absurd rfl h
  | cons x xs ih =>
    cases xs with
    | nil => simp
    | cons y ys =>
      rw [List.cons_append, List.intercalate_cons_of_ne_nil (by simp), ih (by simp),
        List.intercalate_cons_cons, List.append_assoc _ _ sep]

/-- Joining the pieces gives the text. -/
theorem Division.intercalate_chars {sep : Char} {n : Nesting} {start : Nat} {cs : List Char}
    {pieces : List Excerpt} (h : Division (· == sep) n start cs pieces) :
    [sep].intercalate (pieces.map (·.chars)) = cs := by
  induction h with
  | whole _ => exact List.intercalate_singleton
  | cut _ _ hc hlater ih =>
    obtain ⟨first, hfirst, -⟩ := hlater.exists_first
    have hne := List.ne_nil_of_mem (List.mem_map_of_mem (f := (·.chars)) hfirst)
    rw [List.map_cons, List.intercalate_cons_of_ne_nil hne, ih, eq_of_beq hc]
    simp

theorem step_top_of_semicolon (c : Char) (h : (c == ';') = true) : Nesting.top.step c = .top := by
  rw [eq_of_beq h]
  rfl

namespace Excerpt

variable {body piece segment : Excerpt} {before after : List Char}

theorem division_segments (body : Excerpt) :
    Division (· == ';') .top body.start body.chars (body.splitTop (· == ';')) :=
  .splitTop_go _ .top body.start body.chars

/-- Of the pieces only an empty one at the end is left out. -/
theorem segments_cases (body : Excerpt) :
    ∃ init last, body.splitTop (· == ';') = init ++ [last] ∧ last.stop = body.stop ∧
      (last.chars = [] ∧ body.segments = init ∨
        last.chars ≠ [] ∧ body.segments = init ++ [last]) := by
  obtain ⟨init, last, hpieces, hstop⟩ := body.division_segments.exists_last
  refine ⟨init, last, hpieces, hstop, ?_⟩
  rw [segments, hpieces]
  simp only [List.getLast?_concat, List.dropLast_concat, isEmpty]
  split
  · rename_i hempty
    exact .inl ⟨List.isEmpty_iff.mp hempty, rfl⟩
  · rename_i hsome
    exact .inr ⟨fun hempty => hsome (List.isEmpty_iff.mpr hempty), rfl⟩

theorem mem_segments_or (h : piece ∈ body.splitTop (· == ';')) :
    piece ∈ body.segments ∨ piece.chars = [] ∧ piece.stop = body.stop := by
  obtain ⟨init, last, hpieces, hstop, ⟨hempty, hsegments⟩ | ⟨-, hsegments⟩⟩ := body.segments_cases
  · rw [hpieces, List.mem_append, List.mem_singleton] at h
    rw [hsegments]
    rcases h with hmem | rfl
    · exact .inl hmem
    · exact .inr ⟨hempty, hstop⟩
  · rw [hpieces, ← hsegments] at h
    exact .inl h

/-- Joining the segments gives the body, up to one semicolon at its end. -/
theorem intercalate_segments (body : Excerpt) :
    body.chars = [';'].intercalate (body.segments.map (·.chars)) ∨
      body.chars = [';'].intercalate (body.segments.map (·.chars)) ++ [';'] := by
  have hjoined := body.division_segments.intercalate_chars
  obtain ⟨init, last, hpieces, -, ⟨hempty, hsegments⟩ | ⟨-, hsegments⟩⟩ := body.segments_cases
  · rw [hpieces, List.map_append, List.map_singleton, hempty] at hjoined
    rw [hsegments, ← hjoined]
    by_cases hinit : init = []
    · left
      rw [hinit]
      rfl
    · right
      exact intercalate_concat_nil (by simpa using hinit)
  · left
    rw [hsegments, ← hpieces, hjoined]

theorem pairwise_segments (body : Excerpt) :
    body.segments.Pairwise fun x y => x.stop < y.start := by
  have hordered := body.division_segments.within.2
  obtain ⟨init, last, hpieces, -, ⟨-, hsegments⟩ | ⟨-, hsegments⟩⟩ := body.segments_cases
  · rw [hpieces] at hordered
    rw [hsegments]
    exact hordered.sublist (List.sublist_append_left init [last])
  · rwa [hsegments, ← hpieces]

/-- Of two segments one ends before the other starts. -/
theorem segments_eq_or_lt {s t : Excerpt} (hs : s ∈ body.segments) (ht : t ∈ body.segments) :
    s = t ∨ s.stop < t.start ∨ t.stop < s.start := by
  have hordered := List.pairwise_iff_getElem.mp body.pairwise_segments
  obtain ⟨i, hi, rfl⟩ := List.mem_iff_getElem.mp hs
  obtain ⟨j, hj, rfl⟩ := List.mem_iff_getElem.mp ht
  rcases Nat.lt_trichotomy i j with hlt | rfl | hlt
  · exact .inr (.inl (hordered i j hi hj hlt))
  · exact .inl rfl
  · exact .inr (.inr (hordered j i hj hi hlt))

/-- Where a semicolon stands at the top, a segment ends, and the next begins behind it unless the
body ends there. No segment holds it. -/
theorem cut_of_leavesOpen (hbody : body.chars = before ++ ';' :: after)
    (hopen : LeavesOpen before 0) :
    (∃ s ∈ body.segments, s.stop = body.start + byteSize before) ∧
      (after = [] ∨ ∃ s ∈ body.segments, s.start = body.start + byteSize before + 1) ∧
      ∀ s ∈ body.segments, ¬s.Covers (body.start + byteSize before) := by
  have htop := isTop_after_top_iff.mpr hopen
  have hsize : ';'.utf8Size = 1 := rfl
  have hend : body.stop = body.start + byteSize before + 1 + byteSize after := by
    rw [stop, hbody, byteSize_append_cons, hsize]
  rcases body.division_segments.held_or_cut step_top_of_semicolon hbody with
    ⟨hheld, -⟩ | ⟨-, -, earlier, later, hpieces, hearlier, hlater⟩
  · exact absurd ⟨htop, rfl⟩ hheld
  · have hmem (piece : Excerpt) (h : piece ∈ earlier ∨ piece ∈ later) :
        piece ∈ body.splitTop (· == ';') := by
      rw [hpieces]
      exact List.mem_append.mpr h
    refine ⟨?_, ?_, fun s hs => ?_⟩
    · obtain ⟨init, last, rfl, hstop⟩ := hearlier.exists_last
      rcases mem_segments_or (hmem last (.inl (by simp))) with hlast | ⟨-, hlast⟩
      · exact ⟨last, hlast, hstop⟩
      · omega
    · obtain ⟨first, hfirst, hstart⟩ := hlater.exists_first
      rcases mem_segments_or (hmem first (.inr hfirst)) with hsegment | ⟨hempty, hlast⟩
      · exact .inr ⟨first, hsegment, hstart⟩
      · left
        apply byteSize_eq_zero
        rw [stop_eq_start hempty, hstart] at hlast
        omega
    · exact body.division_segments.not_covers_cut step_top_of_semicolon hbody ⟨htop, rfl⟩
        (mem_splitTop_of_mem_segments hs)

/-- A semicolon that does not stand at the top is held by a segment, and none ends before it. -/
theorem held_of_not_leavesOpen (hbody : body.chars = before ++ ';' :: after)
    (hopen : ¬LeavesOpen before 0) :
    (∃ s ∈ body.segments, s.Covers (body.start + byteSize before)) ∧
      ∀ s ∈ body.segments, s.stop ≠ body.start + byteSize before := by
  rcases body.division_segments.held_or_cut step_top_of_semicolon hbody with
    ⟨-, pre, inner, post, rfl, hpiece, -⟩ | ⟨htop, -⟩
  · generalize hheld : (⟨_, _⟩ : Excerpt) = holder at hpiece
    have hcovers : holder.Covers (body.start + byteSize (pre ++ inner)) := by
      have hsize : ';'.utf8Size = 1 := rfl
      rw [← hheld]
      simp only [Covers, stop, byteSize_append, byteSize_cons]
      omega
    have hsegment : holder ∈ body.segments := by
      rcases mem_segments_or hpiece with hsegment | ⟨hempty, -⟩
      · exact hsegment
      · rw [← hheld] at hempty
        simp at hempty
    -- The other segments keep a gap from the holder, so none of them stops at its edge.
    refine ⟨⟨holder, hsegment, hcovers⟩, fun s hs hstop => ?_⟩
    have hle := s.start_le_stop
    obtain ⟨hstart, hlt⟩ := hcovers
    rcases segments_eq_or_lt hs hsegment with rfl | hbefore | hafter
    · omega
    · omega
    · omega
  · exact absurd (isTop_after_top_iff.mp htop) hopen

/-- Dividing a body into segments is faithful. The segments are parts of the body with a gap between
any two, each is what stands at its place in the text that the body is taken from, and joining them
with semicolons gives the body, up to one semicolon at its end. The body is cut at exactly those
semicolons that stand outside quotes and parentheses. A segment ends at each of these, the next one
begins behind it unless the body ends there, and every other semicolon stays within a segment. -/
theorem segments_rejoin (body : Excerpt) :
    (∀ s ∈ body.segments, s.PartOf body) ∧
    (∀ text : List Char, body.PartOf ⟨0, text⟩ →
      ∀ s ∈ body.segments, s.span.slice? (String.ofList text) = some s.text) ∧
    (body.segments.Pairwise fun x y => x.stop < y.start) ∧
    (body.chars = [';'].intercalate (body.segments.map (·.chars)) ∨
      body.chars = [';'].intercalate (body.segments.map (·.chars)) ++ [';']) ∧
    ∀ before after, body.chars = before ++ ';' :: after →
      let offset := body.start + byteSize before
      ((∃ s ∈ body.segments, s.stop = offset) ↔ LeavesOpen before 0) ∧
      ((∃ s ∈ body.segments, s.Covers offset) ↔ ¬LeavesOpen before 0) ∧
      (LeavesOpen before 0 → after = [] ∨ ∃ s ∈ body.segments, s.start = offset + 1) := by
  have hpart {s : Excerpt} (hs : s ∈ body.segments) : s.PartOf body :=
    (inOrder_segments body).partOf hs
  refine ⟨fun s => hpart, fun text htext s hs => ((hpart hs).trans htext).slice?,
    body.pairwise_segments, body.intercalate_segments, ?_⟩
  intro before after hbody offset
  by_cases hopen : LeavesOpen before 0
  · obtain ⟨hends, hnext, hnone⟩ := cut_of_leavesOpen hbody hopen
    refine ⟨iff_of_true hends hopen, iff_of_false ?_ (not_not_intro hopen), fun _ => hnext⟩
    rintro ⟨s, hs, hcovers⟩
    exact hnone s hs hcovers
  · obtain ⟨hheld, hnone⟩ := held_of_not_leavesOpen hbody hopen
    refine ⟨iff_of_false ?_ hopen, iff_of_true hheld hopen, fun h => absurd h hopen⟩
    rintro ⟨s, hs, hstop⟩
    exact hnone s hs hstop

/-- The first semicolon stands between parentheses and the second one cuts, after a parenthesis that
closes nothing. The last one leaves no empty segment behind. -/
theorem segments_rejoin_semicolon_in_parentheses :
    let text := "p \x7ba:b(;));c:d;\x7d".toList
    let body : Excerpt := ⟨3, "a:b(;));c:d;".toList⟩
    body.PartOf ⟨0, text⟩ ∧ body.segments = [⟨3, "a:b(;))".toList⟩, ⟨11, "c:d".toList⟩] ∧
      (⟨11, 14⟩ : Span).slice? (String.ofList text) = some "c:d" ∧
      (∃ s ∈ body.segments, s.Covers 7) ∧ ¬LeavesOpen "a:b(".toList 0 ∧
      (∃ s ∈ body.segments, s.stop = 10) ∧ LeavesOpen "a:b(;))".toList 0 ∧
      ∃ s ∈ body.segments, s.start = 11 := by
  intro text body
  have hpart : body.PartOf ⟨0, text⟩ :=
    ⟨"p \x7b".toList, ['\x7d'], by decide, by decide⟩
  obtain ⟨-, hslices, -, -, hplaces⟩ := segments_rejoin body
  obtain ⟨-, hheld, -⟩ := hplaces "a:b(".toList "));c:d;".toList (by decide)
  obtain ⟨hcut, -, hnext⟩ := hplaces "a:b(;))".toList "c:d;".toList (by decide)
  have hcovers : ∃ s ∈ body.segments, s.Covers 7 := by decide
  have hstops : ∃ s ∈ body.segments, s.stop = 10 := by decide
  have hopen := hcut.mp hstops
  exact ⟨hpart, by decide, hslices text hpart ⟨11, "c:d".toList⟩ (by decide), hcovers,
    hheld.mp hcovers, hstops, hopen, (hnext hopen).resolve_left (by decide)⟩

end Excerpt

end StyleVars
