import Mathlib.Data.List.TakeWhile
import Mathlib.Data.String.Basic
import StyleVars.Proofs.Text.Excerpt

/-!
# Slices and edges

A slice of a text is given by two byte offsets. There is one only where both offsets are edges, that
is, where neither lies inside a character or past the end. A part of a text is always such a slice.

Blanks make offsets soft: where some of a text was blanked, an offset between blanks need not be an
edge of what stood there before. An offset is firm when it stands beside a character that is not
blank. Trimming and dividing a text gives firm offsets, or the end of the text.
-/

namespace StyleVars

theorem utf8Len_eq_byteSize (cs : List Char) : String.utf8Len cs = byteSize cs := by
  induction cs with
  | nil => rfl
  | cons c cs ih => rw [String.utf8Len_cons, ih, byteSize_cons, Nat.add_comm]

theorem utf8ByteSize_ofList (cs : List Char) : (String.ofList cs).utf8ByteSize = byteSize cs := by
  rw [String.utf8ByteSize_ofList, utf8Len_eq_byteSize]

theorem byteSize_toList (text : String) : byteSize text.toList = text.utf8ByteSize := by
  rw [← utf8ByteSize_ofList, String.ofList_toList]

/-- The size of some first characters is an edge. -/
theorem isValid_of_append {cs before after : List Char} (h : cs = before ++ after) :
    String.Pos.Raw.IsValid (String.ofList cs) ⟨byteSize before⟩ := by
  rw [String.Pos.Raw.isValid_iff_exists_append]
  refine ⟨String.ofList before, String.ofList after, by rw [h, String.ofList_append], ?_⟩
  rw [String.Pos.Raw.ext_iff, String.byteIdx_rawEndPos, utf8ByteSize_ofList]

/-- The offsets are in order, within the text, and both are edges. -/
def Span.OnEdges (span : Span) (text : String) : Prop :=
  span.start ≤ span.stop ∧ span.stop ≤ text.utf8ByteSize ∧
    String.Pos.Raw.IsValid text ⟨span.start⟩ ∧ String.Pos.Raw.IsValid text ⟨span.stop⟩

instance (span : Span) (text : String) : Decidable (span.OnEdges text) :=
  inferInstanceAs (Decidable (_ ∧ _))

/-- The text between two offsets, which there is only if they are edges. -/
def Span.slice? (span : Span) (text : String) : Option String :=
  if span.OnEdges text then some (String.Pos.Raw.extract text ⟨span.start⟩ ⟨span.stop⟩) else none

/-- The last character that is left does not satisfy `p`. -/
theorem dropTrailing_eq (p : Char → Bool) (cs : List Char) :
    dropTrailing p cs = [] ∨ ∃ init c, dropTrailing p cs = init ++ [c] ∧ p c = false := by
  rw [dropTrailing]
  have hhead := List.head?_dropWhile_not p cs.reverse
  cases hdrop : cs.reverse.dropWhile p with
  | nil => exact .inl rfl
  | cons c rest =>
    rw [hdrop] at hhead
    exact .inr ⟨rest.reverse, c, List.reverse_cons, hhead⟩

namespace Excerpt

variable {e part rest : Excerpt} {offset : Nat}

/-- The ends of a part of a text are edges of the text. -/
theorem PartOf.onEdges {cs : List Char} (h : part.PartOf ⟨0, cs⟩) :
    part.span.OnEdges (String.ofList cs) := by
  have hle : part.stop ≤ (String.ofList cs).utf8ByteSize := by
    rw [utf8ByteSize_ofList, ← Nat.zero_add (byteSize cs)]
    exact h.stop_le
  obtain ⟨before, after, hchars, hstart⟩ := h
  rw [Nat.zero_add] at hstart
  have hstop : part.stop = byteSize (before ++ part.chars) := by
    rw [stop, hstart, byteSize_append]
  refine ⟨Nat.le_add_right _ _, hle, ?_, ?_⟩
  · rw [span, hstart]
    exact isValid_of_append (hchars.trans (List.append_assoc _ _ _))
  · rw [span, hstop]
    exact isValid_of_append hchars

/-- A part of a text is what the text has between the offsets of the part. -/
theorem PartOf.slice? {cs : List Char} (h : part.PartOf ⟨0, cs⟩) :
    part.span.slice? (String.ofList cs) = some part.text := by
  rw [Span.slice?, if_pos h.onEdges]
  obtain ⟨before, after, hchars, hstart⟩ := h
  have hextract := String.extract_of_valid before part.chars after
  rw [utf8Len_eq_byteSize, utf8Len_eq_byteSize, ← hchars] at hextract
  rw [span, stop, hstart, Nat.zero_add]
  exact congrArg some hextract

theorem RestOf.stop_eq (h : rest.RestOf e) : rest.stop = e.stop := by
  obtain ⟨before, hchars, hstart⟩ := h
  rw [stop, stop, hchars, hstart, byteSize_append, Nat.add_assoc]

theorem RestOf.start_eq {before : List Char} (h : rest.RestOf e)
    (hchars : e.chars = before ++ rest.chars) : rest.start = e.start + byteSize before := by
  obtain ⟨before', hchars', hstart⟩ := h
  rw [hstart, List.append_cancel_right (hchars'.symm.trans hchars)]

/-! ## Firm offsets -/

/-- The offset stands right before or right after a character of `e` that is not blank. -/
def Firm (e : Excerpt) (offset : Nat) : Prop :=
  ∃ before c after, e.chars = before ++ c :: after ∧ isBlank c = false ∧
    (offset = e.start + byteSize before ∨ offset = e.start + byteSize before + c.utf8Size)

/-- The offset is firm or is the end of `e`. -/
def Anchored (e : Excerpt) (offset : Nat) : Prop := e.Firm offset ∨ offset = e.stop

theorem Firm.of_partOf (h : part.Firm offset) (hpart : part.PartOf e) : e.Firm offset := by
  obtain ⟨before, c, after, hchars, hc, hoffset⟩ := h
  obtain ⟨before', after', hchars', hstart⟩ := hpart
  refine ⟨before' ++ before, c, after ++ after', ?_, hc, ?_⟩
  · rw [hchars', hchars]
    simp only [List.append_assoc, List.cons_append]
  · rw [byteSize_append, ← Nat.add_assoc, ← hstart]
    exact hoffset

theorem Anchored.of_partOf (h : part.Anchored offset) (hpart : part.PartOf e)
    (hstop : e.Anchored part.stop) : e.Anchored offset := by
  rcases h with hfirm | rfl
  · exact .inl (hfirm.of_partOf hpart)
  · exact hstop

theorem anchored_stop (e : Excerpt) : e.Anchored e.stop := .inr rfl

theorem Anchored.of_restOf (h : rest.Anchored offset) (hrest : rest.RestOf e) :
    e.Anchored offset := by
  refine h.of_partOf hrest.partOf ?_
  rw [hrest.stop_eq]
  exact e.anchored_stop

/-- A part of `e` whose ends are firm in `e`, or the end of it. -/
structure FirmIn (part e : Excerpt) : Prop where
  partOf : part.PartOf e
  start : e.Anchored part.start
  stop : e.Anchored part.stop

theorem FirmIn.of_partOf {inner : Excerpt} (h : inner.FirmIn part) (hpart : part.PartOf e)
    (hstop : e.Anchored part.stop) : inner.FirmIn e :=
  ⟨h.partOf.trans hpart, h.start.of_partOf hpart hstop, h.stop.of_partOf hpart hstop⟩

theorem FirmIn.trans {inner : Excerpt} (h : inner.FirmIn part) (h' : part.FirmIn e) :
    inner.FirmIn e := h.of_partOf h'.partOf h'.stop

theorem FirmIn.of_restOf (h : part.FirmIn rest) (hrest : rest.RestOf e) : part.FirmIn e :=
  ⟨h.partOf.trans hrest.partOf, h.start.of_restOf hrest, h.stop.of_restOf hrest⟩

theorem firm_start {c : Char} {cs : List Char} (h : e.chars = c :: cs) (hc : isBlank c = false) :
    e.Firm e.start := ⟨[], c, cs, h, hc, .inl rfl⟩

theorem firm_stop {c : Char} {cs : List Char} (h : e.chars = cs ++ [c]) (hc : isBlank c = false) :
    e.Firm e.stop := by
  refine ⟨cs, c, [], h, hc, .inr ?_⟩
  simp only [stop, h, byteSize_append, byteSize_cons, byteSize_nil]
  omega

/-- The offset where a character follows that is not blank. -/
theorem firm_before {before after : List Char} {c : Char} (h : e.chars = before ++ c :: after)
    (hc : isBlank c = false) : e.Firm (e.start + byteSize before) :=
  ⟨before, c, after, h, hc, .inl rfl⟩

/-! ## Trimming -/

theorem stop_eq_start (h : e.chars = []) : e.stop = e.start := by
  rw [stop, h, byteSize_nil, Nat.add_zero]

theorem dropWhile_head {p : Char → Bool} {c : Char} {cs : List Char}
    (h : (e.dropWhile p).chars = c :: cs) : p c = false := by
  have hhead := List.head?_dropWhile_not p e.chars
  have hchars : e.chars.dropWhile p = c :: cs := h
  rw [hchars] at hhead
  exact hhead

/-- Without leading blanks a text starts at a firm offset, unless nothing is left. -/
theorem anchored_start_dropWhile (e : Excerpt) :
    (e.dropWhile isBlank).Anchored (e.dropWhile isBlank).start := by
  cases hdrop : (e.dropWhile isBlank).chars with
  | nil => exact .inr (stop_eq_start hdrop).symm
  | cons c cs => exact .inl (firm_start hdrop (dropWhile_head hdrop))

/-- Where blanks are removed from the end of a beginning of `e`, a character that is not blank
comes last, unless nothing is left. -/
theorem anchored_stop_trimEnd (hpart : part.PartOf e) (hstart : part.start = e.start)
    (h : e.Anchored e.start) : e.Anchored part.trimEnd.stop := by
  rcases dropTrailing_eq isBlank part.chars with hnil | ⟨init, c, hlast, hc⟩
  · have hempty : part.trimEnd.chars = [] := hnil
    rw [stop_eq_start hempty]
    exact hstart ▸ h
  · have hfirm := firm_stop (e := part.trimEnd) hlast hc
    exact .inl (hfirm.of_partOf ((partOf_trimEnd part).trans hpart))

theorem firmIn_trim (e : Excerpt) : e.trim.FirmIn e := by
  have hstart := e.anchored_start_dropWhile
  have hstop := anchored_stop_trimEnd (RestOf.refl (e.dropWhile isBlank)).partOf rfl hstart
  have htrim : e.trim.FirmIn (e.dropWhile isBlank) := ⟨partOf_trimEnd _, hstart, hstop⟩
  exact htrim.of_restOf (restOf_dropWhile isBlank e)

/-- Nothing is left only of blanks. -/
theorem forall_isBlank_of_trim (h : e.trim.chars = []) : ∀ c ∈ e.chars, isBlank c := by
  have hdropped : ∀ c ∈ e.chars.dropWhile isBlank, isBlank c := by
    have hreverse : (e.chars.dropWhile isBlank).reverse.dropWhile isBlank = [] :=
      List.reverse_eq_nil_iff.mp h
    simpa using hreverse
  cases hdrop : e.chars.dropWhile isBlank with
  | nil => exact List.dropWhile_eq_nil_iff.mp hdrop
  | cons c cs =>
    have hblank := hdropped c (hdrop ▸ List.mem_cons_self)
    rw [dropWhile_head (e := e) hdrop] at hblank
    cases hblank

/-! ## Dividing -/

/-- A piece ends where a separator follows, or where the text ends. -/
theorem stop_splitTop_go (isSeparator : Char → Bool) (n : Nesting) (start : Nat) (cs : List Char) :
    ∀ piece ∈ splitTop.go isSeparator n start cs,
      piece.stop = start + byteSize cs ∨ ∃ before c after, cs = before ++ c :: after ∧
        isSeparator c ∧ piece.stop = start + byteSize before := by
  induction cs generalizing n start with
  | nil =>
    intro piece hpiece
    rw [splitTop.go, List.mem_singleton] at hpiece
    subst hpiece
    exact .inl rfl
  | cons c cs ih =>
    -- What holds of a piece of the rest holds of it in the whole.
    have hrest (n : Nesting) (piece : Excerpt)
        (hpiece : piece ∈ splitTop.go isSeparator n (start + c.utf8Size) cs) :
        piece.stop = start + byteSize (c :: cs) ∨ ∃ before d after,
          c :: cs = before ++ d :: after ∧ isSeparator d ∧
            piece.stop = start + byteSize before := by
      rcases ih n _ piece hpiece with hend | ⟨before, d, after, hcs, hd, hstop⟩
      · exact .inl (by rw [hend, byteSize_cons, Nat.add_assoc])
      · refine .inr ⟨c :: before, d, after, by rw [hcs, List.cons_append], hd, ?_⟩
        rw [hstop, byteSize_cons, Nat.add_assoc]
    intro piece hpiece
    rw [splitTop.go] at hpiece
    split at hpiece
    · rename_i hseparator
      rcases List.mem_cons.mp hpiece with rfl | hmem
      · exact .inr ⟨[], c, cs, rfl, (Bool.and_eq_true_iff.mp hseparator).2, rfl⟩
      · exact hrest n piece hmem
    · split at hpiece
      · cases hpiece
      · rename_i first pieces hgo
        have hfirst := (inOrder_splitTop_go isSeparator (n.step c) (start + c.utf8Size) cs).2 first
          (by rw [hgo]; rfl)
        rcases List.mem_cons.mp hpiece with rfl | hmem
        · have hstop : (⟨start, c :: first.chars⟩ : Excerpt).stop = first.stop := by
            simp only [stop, byteSize_cons, hfirst, Nat.add_assoc]
          rw [hstop]
          exact hrest _ first (by rw [hgo]; exact List.mem_cons_self)
        · exact hrest _ piece (by rw [hgo]; exact List.mem_cons_of_mem _ hmem)

theorem anchored_stop_splitTop {isSeparator : Char → Bool}
    (hseparator : ∀ c, isSeparator c → isBlank c = false)
    (h : part ∈ e.splitTop isSeparator) : e.Anchored part.stop := by
  rcases stop_splitTop_go isSeparator .top e.start e.chars part h with
    hend | ⟨before, c, after, hchars, hc, hstop⟩
  · exact .inr hend
  · rw [hstop]
    exact .inl (firm_before hchars (hseparator c hc))

end Excerpt

end StyleVars
