import Mathlib.Data.List.TakeWhile
import StyleVars.Proofs.Sheet.Block
import StyleVars.Proofs.Sheet.Comment
import StyleVars.Proofs.Sheet.Shift

/-!
# Where two sheets meet

A text is complete when it leaves nothing open: no comment, no rule, and nothing but blanks after
the last semicolon or brace. What follows such a text cannot change how it is read, and is itself
read as if it stood alone. No mark of a comment can lie across the seam, since a complete text does
not end with a slash.
-/

namespace StyleVars

/-! ## Comments -/

namespace Comment

/-- Comments are blanked on both sides of a seam by themselves, when none is open there and no slash
stands before it. -/
theorem blankFrom_append {inside : Option Nat} {offset : Nat} {cs : List Char}
    (hclosed : openFrom inside offset cs = none)
    (hlast : (blankFrom inside.isSome cs).getLast? ≠ some '/') (after : List Char) :
    blankFrom inside.isSome (cs ++ after) =
      blankFrom inside.isSome cs ++ blankFrom false after := by
  have hrest (xs : List Char) {ys : List Char} (h : (xs ++ ys).getLast? ≠ some '/') :
      ys.getLast? ≠ some '/' := by
    intro hslash
    rw [List.getLast?_append, hslash] at h
    exact h rfl
  fun_induction openFrom inside offset cs with
  | case1 inside offset =>
    subst hclosed
    rfl
  | case2 offset rest ih =>
    exact congrArg ([' ', ' '] ++ ·) (ih hclosed (hrest [' ', ' '] hlast))
  | case3 offset c rest hmark ih =>
    -- A slash that stands last would meet a star on the other side.
    have hmark' : ∀ later, c = '/' → rest ++ after = '*' :: later → False := by
      rintro later rfl hstar
      cases rest with
      | nil => exact hlast rfl
      | cons d rest =>
        cases hstar
        exact hmark _ rfl rfl
    have hcons : blankFrom false (c :: rest) = c :: blankFrom false rest :=
      blankFrom.eq_3 c rest hmark
    rw [Option.isSome_none, hcons] at hlast
    rw [Option.isSome_none, hcons, List.cons_append, blankFrom.eq_3 c (rest ++ after) hmark']
    exact congrArg (c :: ·) (ih hclosed (hrest [c] hlast))
  | case4 start offset rest ih =>
    exact congrArg ([' ', ' '] ++ ·) (ih hclosed (hrest [' ', ' '] hlast))
  | case5 start offset c rest hmark ih =>
    have hmark' : ∀ later, c = '*' → rest ++ after = '/' :: later → False := by
      rintro later rfl hslash
      cases rest with
      | nil => cases hclosed
      | cons d rest =>
        cases hslash
        exact hmark _ rfl rfl
    have hcons : blankFrom true (c :: rest) = blankChar c ++ blankFrom true rest :=
      blankFrom.eq_5 c rest hmark
    rw [Option.isSome_some, hcons] at hlast
    rw [Option.isSome_some, hcons, List.cons_append, blankFrom.eq_5 c (rest ++ after) hmark',
      List.append_assoc]
    exact congrArg (blankChar c ++ ·) (ih hclosed (hrest _ hlast))

end Comment

/-! ## Blocks -/

/-- A block that is closed does not depend on what follows its brace. -/
theorem splitBlock_append_of_closed {depth : Nat} {cs later : List Char} {brace : Char}
    (h : (splitBlock depth cs).2 = brace :: later) (after : List Char) :
    splitBlock depth (cs ++ after) = ((splitBlock depth cs).1, brace :: (later ++ after)) := by
  fun_induction splitBlock depth cs with
  | case1 => cases h
  | case2 depth c cs hclose =>
    cases h
    rw [List.cons_append, splitBlock, if_pos hclose]
  | case3 depth c cs hclose inner split ih =>
    rw [List.cons_append, splitBlock, if_neg hclose]
    simp only
    rw [ih h]

namespace Excerpt

variable {e : Excerpt}

/-- The excerpt with more characters after it. -/
def extend (e : Excerpt) (after : List Char) : Excerpt := ⟨e.start, e.chars ++ after⟩

theorem splitWhile_extend {p : Char → Bool} (h : (e.dropWhile p).chars ≠ []) (after : List Char) :
    (e.extend after).splitWhile p = ((e.splitWhile p).1, (e.splitWhile p).2.extend after) := by
  have hdrop : (e.chars ++ after).dropWhile p = e.chars.dropWhile p ++ after := by
    rw [List.dropWhile_append, if_neg]
    exact fun hnil => h (List.isEmpty_iff.mp hnil)
  have htake : (e.chars ++ after).takeWhile p = e.chars.takeWhile p := by
    have hsplit : (e.chars ++ after).takeWhile p ++ (e.chars ++ after).dropWhile p =
        e.chars.takeWhile p ++ (e.chars.dropWhile p ++ after) := by
      rw [List.takeWhile_append_dropWhile, ← List.append_assoc, List.takeWhile_append_dropWhile]
    rw [hdrop] at hsplit
    exact List.append_cancel_right hsplit
  simp only [splitWhile, extend, hdrop, htake]

theorem fromEnd_extend {c : Char} {cs : List Char} (h : e.fromEnd.chars = c :: cs)
    (after : List Char) : (e.extend after).fromEnd = ⟨e.fromEnd.start, c :: (cs ++ after)⟩ := by
  have hextend : (e.extend after).fromEnd = e.fromEnd.extend after := by
    rw [fromEnd, dropWhile, splitWhile_extend (h ▸ List.cons_ne_nil c cs)]
    rfl
  rw [hextend, extend, h, List.cons_append]

theorem header_extend {c : Char} {cs : List Char} (h : e.fromEnd.chars = c :: cs)
    (after : List Char) : (e.extend after).header = e.header := by
  rw [header, splitWhile_extend (h ▸ List.cons_ne_nil c cs), header]

/-! ## Blanks -/

theorem dropWhile_cons {p : Char → Bool} {c : Char} (hc : p c) (start : Nat) (cs : List Char) :
    (⟨start, c :: cs⟩ : Excerpt).dropWhile p =
      (⟨start + c.utf8Size, cs⟩ : Excerpt).dropWhile p := by
  simp only [dropWhile, splitWhile, List.takeWhile_cons_of_pos hc, List.dropWhile_cons_of_pos hc,
    byteSize_cons, Nat.add_assoc]

/-- The chunks of a text depend on its header and on what follows that. -/
theorem chunks_congr {e' : Excerpt} (hheader : e.header = e'.header)
    (hfrom : e.fromEnd = e'.fromEnd) : e.chunks = e'.chunks := by
  cases hrest : e'.fromEnd.chars with
  | nil => rw [chunks_of_nil hrest, chunks_of_nil (hfrom ▸ hrest), hheader]
  | cons c cs =>
    have hrest' : e.fromEnd.chars = c :: cs := hfrom ▸ hrest
    by_cases hsemicolon : c = ';'
    · rw [chunks_of_semicolon hrest hsemicolon, chunks_of_semicolon hrest' hsemicolon, hheader,
        hfrom]
    by_cases hclose : c = '}'
    · rw [chunks_of_close hrest hclose, chunks_of_close hrest' hclose, hfrom]
    by_cases hgroup : opensGroup e'.header.chars
    · rw [chunks_of_group hrest hsemicolon hclose hgroup,
        chunks_of_group hrest' hsemicolon hclose (hheader ▸ hgroup), hfrom]
    cases hblock : (splitBlock 0 cs).2 with
    | nil =>
      rw [chunks_of_unclosed hrest hsemicolon hclose hgroup hblock,
        chunks_of_unclosed hrest' hsemicolon hclose (hheader ▸ hgroup) hblock, hheader, hfrom]
    | cons brace later =>
      rw [chunks_of_closed hrest hsemicolon hclose hgroup hblock,
        chunks_of_closed hrest' hsemicolon hclose (hheader ▸ hgroup) hblock, hheader, hfrom]

/-- Blanks before a sheet leave no trace. -/
theorem chunks_of_blanks {blanks : List Char} (h : ∀ c ∈ blanks, isBlank c) (start : Nat)
    (cs : List Char) :
    (⟨start, blanks ++ cs⟩ : Excerpt).chunks =
      (⟨start + byteSize blanks, cs⟩ : Excerpt).chunks := by
  induction blanks generalizing start with
  | nil => rfl
  | cons b blanks ih =>
    obtain ⟨hb, hblanks⟩ := List.forall_mem_cons.mp h
    have hgoesOn : (!endsChunk b) = true := by
      cases hends : endsChunk b with
      | false => rfl
      | true =>
        rw [isBlank_eq_false_of_endsChunk hends] at hb
        cases hb
    have htake : (b :: (blanks ++ cs)).takeWhile (fun c => !endsChunk c) =
        b :: (blanks ++ cs).takeWhile (fun c => !endsChunk c) := List.takeWhile_cons_of_pos hgoesOn
    rw [byteSize_cons, ← Nat.add_assoc, ← ih hblanks]
    apply chunks_congr
    · show (⟨start, (b :: (blanks ++ cs)).takeWhile fun c => !endsChunk c⟩ : Excerpt).trim = _
      rw [htake, trim, dropWhile_cons hb]
      rfl
    · exact dropWhile_cons hgoesOn start _

end Excerpt

/-! ## Chunks -/

/-- The chunk leaves nothing open behind it. -/
def Chunk.isComplete : Chunk → Bool
  | .rule _ _ _ closed => closed
  | .tail text => text.isEmpty
  | _ => true

namespace Excerpt

variable {e : Excerpt}

theorem forall_isBlank_of_tail (hrest : e.fromEnd.chars = []) (h : e.header.isEmpty) :
    ∀ c ∈ e.chars, isBlank c := by
  have hall : (e.splitWhile fun c => !endsChunk c).1.chars = e.chars := by
    have happend : e.chars.takeWhile (fun c => !endsChunk c) ++ e.fromEnd.chars = e.chars :=
      List.takeWhile_append_dropWhile
    rw [hrest, List.append_nil] at happend
    exact happend
  intro c hc
  rw [← hall] at hc
  exact forall_isBlank_of_trim (List.isEmpty_iff.mp h) c hc

/-- A complete text is followed by chunks as if what follows it stood alone. -/
theorem chunks_extend (h : ∀ chunk ∈ e.chunks, chunk.isComplete) (after : List Char) :
    ∃ init tail, e.chunks = init ++ [.tail tail] ∧
      (e.extend after).chunks = init ++ (⟨e.stop, after⟩ : Excerpt).chunks := by
  fun_induction chunks e with
  | case1 e before rest hrest =>
    have hblank := forall_isBlank_of_tail hrest (h _ List.mem_cons_self)
    exact ⟨[], before, rfl, chunks_of_blanks hblank e.start after⟩
  | case2 e before rest later hrest _ next ih =>
    obtain ⟨init, tail, hchunks, hmore⟩ := ih (List.forall_mem_cons.mp h).2
    have hfrom := fromEnd_extend (e := e) hrest after
    have hnext : next.RestOf e := restOf_after hrest
    refine ⟨.statement before :: init, tail, congrArg (_ :: ·) hchunks, ?_⟩
    rw [chunks_of_semicolon (congrArg chars hfrom) rfl, header_extend hrest, hfrom,
      ← hnext.stop_eq]
    exact congrArg (_ :: ·) hmore
  | case3 e rest later hrest _ next _ ih =>
    obtain ⟨init, tail, hchunks, hmore⟩ := ih (List.forall_mem_cons.mp h).2
    have hfrom := fromEnd_extend (e := e) hrest after
    have hnext : next.RestOf e := restOf_after hrest
    refine ⟨.close rest.start :: init, tail, congrArg (_ :: ·) hchunks, ?_⟩
    rw [chunks_of_close (congrArg chars hfrom) rfl, hfrom, ← hnext.stop_eq]
    exact congrArg (_ :: ·) hmore
  | case4 e before rest c cs hrest _ next hsemicolon hclose hgroup ih =>
    obtain ⟨init, tail, hchunks, hmore⟩ := ih (List.forall_mem_cons.mp h).2
    have hfrom := fromEnd_extend (e := e) hrest after
    have hnext : next.RestOf e := restOf_after hrest
    refine ⟨.group :: init, tail, congrArg (_ :: ·) hchunks, ?_⟩
    rw [chunks_of_group (congrArg chars hfrom) hsemicolon hclose
      (by rw [header_extend hrest]; exact hgroup), hfrom, ← hnext.stop_eq]
    exact congrArg (_ :: ·) hmore
  | case5 e before rest c cs hrest _ next hsemicolon hclose hgroup body _ hblock =>
    cases h _ List.mem_cons_self
  | case6 e before rest c cs hrest _ next hsemicolon hclose hgroup body _ brace later hblock _
      ih =>
    obtain ⟨init, tail, hchunks, hmore⟩ := ih (List.forall_mem_cons.mp h).2
    have hfrom := fromEnd_extend (e := e) hrest after
    have hnext : next.RestOf e := restOf_after hrest
    have hlater := (restOf_splitBlock next hblock).trans hnext
    have hextended := splitBlock_append_of_closed hblock after
    refine ⟨.rule before rest.start body true :: init, tail, congrArg (_ :: ·) hchunks, ?_⟩
    rw [chunks_of_closed (congrArg chars hfrom) hsemicolon hclose
      (by rw [header_extend hrest]; exact hgroup) (congrArg Prod.snd hextended),
      header_extend hrest, hfrom, hextended, ← hlater.stop_eq]
    exact congrArg (_ :: ·) hmore

/-- A complete text ends with a blank, a semicolon or a brace, unless it is empty. -/
theorem getLast?_of_complete (h : ∀ chunk ∈ e.chunks, chunk.isComplete) :
    ∀ c ∈ e.chars.getLast?, isBlank c ∨ endsChunk c := by
  -- The last character of what follows a mark is the last one of all, or the mark is.
  have hstep {before rest : List Char} {mark : Char} (hmark : endsChunk mark)
      (hrest : ∀ c ∈ rest.getLast?, isBlank c ∨ endsChunk c) :
      ∀ c ∈ (before ++ mark :: rest).getLast?, isBlank c ∨ endsChunk c := by
    intro c hc
    rw [List.getLast?_append, List.getLast?_cons, Option.some_or] at hc
    cases hlast : rest.getLast? with
    | none =>
      rw [hlast] at hc
      cases hc
      exact .inr hmark
    | some last =>
      rw [hlast] at hc
      cases hc
      exact hrest last hlast
  have hsplit {e : Excerpt} {c : Char} {cs : List Char} (hrest : e.fromEnd.chars = c :: cs) :
      endsChunk c ∧ ∃ before, e.chars = before ++ c :: cs := by
    refine ⟨by simpa using dropWhile_head hrest, e.chars.takeWhile fun c => !endsChunk c, ?_⟩
    rw [← hrest]
    exact List.takeWhile_append_dropWhile.symm
  fun_induction chunks e with
  | case1 e before rest hrest =>
    intro c hc
    exact .inl (forall_isBlank_of_tail hrest (h _ List.mem_cons_self) c (List.mem_of_getLast? hc))
  | case2 e before rest later hrest _ next ih | case3 e rest later hrest _ next _ ih
  | case4 e before rest c cs hrest _ next _ _ _ ih =>
    obtain ⟨hends, before, hchars⟩ := hsplit hrest
    rw [hchars]
    exact hstep hends (ih (List.forall_mem_cons.mp h).2)
  | case5 => cases h _ List.mem_cons_self
  | case6 e before rest c cs hrest _ next _ _ _ body _ brace later hblock _ ih =>
    obtain ⟨hends, before, hchars⟩ := hsplit hrest
    have hbrace : brace = '}' := splitBlock_snd_eq hblock
    have hbody := splitBlock_append 0 cs
    rw [hblock] at hbody
    rw [hchars, ← hbody, ← List.cons_append, ← List.append_assoc]
    exact hstep (hbrace ▸ rfl) (ih (List.forall_mem_cons.mp h).2)

end Excerpt

/-! ## Sheets -/

/-- Whether the problem is that something is left open at the end of a sheet. A group that is left
open does not count: it makes no difference to the rules after it. -/
def Problem.Cause.isOpenEnd : Cause → Bool
  | .unterminatedComment => true
  | .unclosedBlock _ => true
  | .trailingContent => true
  | _ => false

theorem Chunk.isComplete_of_problems {lines : LineTable} {stop groups : Nat} {chunks : List Chunk}
    (h : ∀ p ∈ problems lines stop groups chunks, p.cause.isOpenEnd = false) :
    ∀ chunk ∈ chunks, chunk.isComplete := by
  fun_induction problems lines stop groups chunks with
  | case1 | case2 => exact fun chunk hchunk => by cases hchunk
  | case3 groups text rest ih =>
    exact List.forall_mem_cons.mpr ⟨rfl, ih (List.forall_mem_append.mp h).2⟩
  | case4 groups rest ih => exact List.forall_mem_cons.mpr ⟨rfl, ih h⟩
  | case5 offset rest ih =>
    exact List.forall_mem_cons.mpr ⟨rfl, ih (List.forall_mem_cons.mp h).2⟩
  | case6 groups offset rest ih => exact List.forall_mem_cons.mpr ⟨rfl, ih h⟩
  | case7 groups selector brace body closed rest ih =>
    obtain ⟨hrule, hrest⟩ := List.forall_mem_append.mp h
    refine List.forall_mem_cons.mpr ⟨?_, ih hrest⟩
    cases closed with
    | true => rfl
    | false =>
      have hopen := hrule ⟨.unclosedBlock selector.text, lines.range brace (brace + 1)⟩
        (by simp [ruleProblems])
      cases hopen
  | case8 groups text rest ih =>
    obtain ⟨htail, hrest⟩ := List.forall_mem_append.mp h
    refine List.forall_mem_cons.mpr ⟨?_, ih hrest⟩
    cases hempty : text.isEmpty with
    | true => exact hempty
    | false =>
      have hopen := htail ⟨.trailingContent, lines.rangeOf text⟩ (by simp [hempty])
      cases hopen

namespace Sheet

variable {cs : List Char}

/-- What a sheet without open ends leaves behind: no comment that goes on, and only complete
chunks. -/
theorem complete_of_problems (h : ∀ p ∈ (ofChars cs).problems, p.cause.isOpenEnd = false) :
    Comment.unterminated? cs = none ∧ ∀ chunk ∈ (blanked cs).chunks, chunk.isComplete := by
  obtain ⟨hcomment, hchunks⟩ := List.forall_mem_append.mp h
  refine ⟨?_, Chunk.isComplete_of_problems hchunks⟩
  cases hopen : Comment.unterminated? cs with
  | none => rfl
  | some start =>
    rw [hopen] at hcomment
    cases hcomment _ List.mem_cons_self

/-- The chunks on the two sides of a seam. -/
theorem chunks_append (h : ∀ p ∈ (ofChars cs).problems, p.cause.isOpenEnd = false)
    (after : List Char) :
    ∃ init tail, (blanked cs).chunks = init ++ [.tail tail] ∧
      (blanked (cs ++ after)).chunks =
        init ++ (blanked after).chunks.map (.shift (byteSize cs)) := by
  obtain ⟨hcomment, hcomplete⟩ := complete_of_problems h
  have hslash : (Comment.blank cs).getLast? ≠ some '/' := by
    intro hlast
    rcases Excerpt.getLast?_of_complete hcomplete '/' hlast with hblank | hends
    · exact absurd hblank (by decide)
    · exact absurd hends (by decide)
  have hblanked : blanked (cs ++ after) = (blanked cs).extend (Comment.blank after) :=
    congrArg (Excerpt.mk 0) (Comment.blankFrom_append hcomment hslash after)
  have hafter : (⟨(blanked cs).stop, Comment.blank after⟩ : Excerpt) =
      (blanked after).shift (byteSize cs) := by
    rw [blanked, Excerpt.stop, Comment.byteSize_blank, Nat.zero_add]
    rfl
  obtain ⟨init, tail, hchunks, hextended⟩ :=
    Excerpt.chunks_extend hcomplete (Comment.blank after)
  refine ⟨init, tail, hchunks, ?_⟩
  rw [hblanked, hextended, hafter, Excerpt.chunks_shift]

end Sheet

end StyleVars
