import StyleVars.Proofs.Text.Shift
import StyleVars.Sheet.Reader

/-!
# Reading what is moved

The references and tokens of a value, the segments and pieces of a body and the chunks of a sheet
are the same in a moved text, moved. The searches that end because the text gets shorter are opened
by one equation for each way in which they go on.
-/

namespace StyleVars

/-! ## References -/

namespace Reference

/-- The reference, `n` bytes further on. -/
def shift (n : Nat) (r : Reference) : Reference :=
  { r with fallback := r.fallback.map (.shift n), source := r.source.shift n }

theorem shift_zero (r : Reference) : r.shift 0 = r := by
  have hid : Excerpt.shift 0 = id := funext Excerpt.shift_zero
  rw [shift, hid, Option.map_id]
  rfl

variable (n : Nat) (e : Excerpt)

theorem readEnd?_shift :
    readEnd? (e.shift n) = (readEnd? e).map (Prod.map (Option.map (.shift n)) (.shift n)) := by
  rw [readEnd?, readEnd?, Excerpt.skip?_shift, Excerpt.skip?_shift]
  cases e.skip? [')'] with
  | some rest => rfl
  | none =>
    cases e.skip? [','] with
    | none => rfl
    | some body =>
      simp only [Option.map_some, Option.map_none, Excerpt.splitWhile_shift, Excerpt.skip?_shift,
        Excerpt.trim_shift, Excerpt.isEmpty_shift]
      cases (body.splitWhile (· != ')')).2.skip? [')'] with
      | none => rfl
      | some rest =>
        simp only [Option.map_some, Prod.map_apply]
        split <;> rfl

theorem read?_shift : read? (e.shift n) = (read? e).map (Prod.map (shift n) (.shift n)) := by
  rw [read?, read?, Excerpt.skip?_shift]
  cases e.skip? ['v', 'a', 'r', '('] with
  | none => rfl
  | some opened =>
    simp only [Option.map_some, Option.bind_eq_bind, Option.bind_some, Excerpt.dropWhile_shift,
      Excerpt.readVariableName?_shift]
    cases (opened.dropWhile isBlank).readVariableName? with
    | none => rfl
    | some named =>
      simp only [Option.map_some, Option.bind_some, Prod.map_fst, Prod.map_snd,
        Excerpt.dropWhile_shift, readEnd?_shift]
      cases readEnd? (named.2.dropWhile isBlank) with
      | none => rfl
      | some ended => rfl

end Reference

namespace Excerpt

variable {e : Excerpt}

theorem references_of_read? {r : Reference} {rest : Excerpt}
    (h : Reference.read? e = some (r, rest)) : e.references = r :: rest.references := by
  rw [references]
  split
  · rename_i r' rest' hread
    rw [h] at hread
    cases hread
    rfl
  · rename_i hread
    rw [h] at hread
    cases hread

theorem references_of_nil (h : Reference.read? e = none) (hchars : e.chars = []) :
    e.references = [] := by
  rw [references]
  split
  · rename_i hread
    rw [h] at hread
    cases hread
  · split
    · rfl
    · rename_i hcons
      rw [hchars] at hcons
      cases hcons

theorem references_of_cons {c : Char} {cs : List Char} (h : Reference.read? e = none)
    (hchars : e.chars = c :: cs) :
    e.references = (⟨e.start + c.utf8Size, cs⟩ : Excerpt).references := by
  rw [references]
  split
  · rename_i hread
    rw [h] at hread
    cases hread
  · split
    · rename_i hnil
      rw [hchars] at hnil
      cases hnil
    · rename_i hcons
      rw [hchars] at hcons
      cases hcons
      rfl

@[simp] theorem references_shift (n : Nat) (e : Excerpt) :
    (e.shift n).references = e.references.map (.shift n) := by
  fun_induction references e with
  | case1 e r rest hread _ ih =>
    have hmoved : Reference.read? (e.shift n) = some (r.shift n, rest.shift n) := by
      rw [Reference.read?_shift, hread]
      rfl
    rw [references_of_read? hmoved, ih, List.map_cons]
  | case2 e hread hchars =>
    have hmoved : Reference.read? (e.shift n) = none := by
      rw [Reference.read?_shift, hread]
      rfl
    exact references_of_nil hmoved hchars
  | case3 e hread c cs hchars _ ih =>
    have hmoved : Reference.read? (e.shift n) = none := by
      rw [Reference.read?_shift, hread]
      rfl
    rw [references_of_cons (e := e.shift n) hmoved hchars, ← ih, start_shift, Nat.add_assoc]
    rfl

/-! ## Values -/

@[simp] theorem tokens_shift (n : Nat) (e : Excerpt) :
    (e.shift n).tokens = e.tokens.map (shift n) := by
  rw [tokens, splitTop_shift, List.map_map, tokens, List.filter_map, List.filter_map, List.map_map]
  congr 1
  funext piece
  exact dropWhile_shift n piece _

@[simp] theorem withoutImportant_shift (n : Nat) (e : Excerpt) :
    (e.shift n).withoutImportant = (e.withoutImportant.1.shift n, e.withoutImportant.2) := by
  rw [withoutImportant, withoutImportant, trimEnd_shift, chars_shift, start_shift]
  split
  · rfl
  · rfl

/-! ## Bodies -/

@[simp] theorem segments_shift (n : Nat) (e : Excerpt) :
    (e.shift n).segments = e.segments.map (shift n) := by
  rw [segments, segments, splitTop_shift, List.getLast?_map]
  cases (e.splitTop (· == ';')).getLast? with
  | none => rfl
  | some last =>
    rw [Option.map_some]
    dsimp only
    rw [isEmpty_shift, ← List.map_dropLast]
    split
    · rfl
    · rfl

theorem pieces_of_flat (h : (e.dropWhile (· != '{')).chars = []) :
    e.pieces = [(e.splitWhile (· != '{')).1] := by
  rw [pieces]
  split
  · rfl
  · simp_all

/-- The part of a piece that is not the prelude of a nested block. -/
def settled (e : Excerpt) : Excerpt := ⟨e.start, dropTrailing (· != ';') e.chars⟩

theorem pieces_of_unclosed {c : Char} {cs : List Char}
    (h : (e.dropWhile (· != '{')).chars = c :: cs) (hblock : (splitBlock 0 cs).2 = []) :
    e.pieces = [(e.splitWhile (· != '{')).1.settled] := by
  rw [pieces]
  split
  · simp_all
  · rename_i c' cs' hcons
    rw [h] at hcons
    cases hcons
    dsimp only
    split
    · rfl
    · simp_all

theorem pieces_of_closed {c brace : Char} {cs later : List Char}
    (h : (e.dropWhile (· != '{')).chars = c :: cs) (hblock : (splitBlock 0 cs).2 = brace :: later) :
    e.pieces = (e.splitWhile (· != '{')).1.settled ::
      (⟨(e.dropWhile (· != '{')).start + c.utf8Size + byteSize (splitBlock 0 cs).1 +
        brace.utf8Size, later⟩ : Excerpt).pieces := by
  rw [pieces]
  split
  · simp_all
  · rename_i c' cs' hcons
    rw [h] at hcons
    cases hcons
    dsimp only
    split
    · simp_all
    · rename_i hlater
      rw [hblock] at hlater
      cases hlater
      rfl

@[simp] theorem pieces_shift (n : Nat) (e : Excerpt) :
    (e.shift n).pieces = e.pieces.map (shift n) := by
  fun_induction pieces e with
  | case1 e flat rest hrest =>
    rw [pieces_of_flat (e := e.shift n) (by rwa [dropWhile_shift]), splitWhile_shift]
    rfl
  | case2 e flat rest c cs hrest _ settled _ hblock =>
    rw [pieces_of_unclosed (e := e.shift n) (by rwa [dropWhile_shift]) hblock, splitWhile_shift]
    rfl
  | case3 e flat rest c cs hrest _ settled blockStart _ brace later hblock _ ih =>
    have hlater : (⟨((e.shift n).dropWhile (· != '{')).start + c.utf8Size +
        byteSize (splitBlock 0 cs).1 + brace.utf8Size, later⟩ : Excerpt) =
        shift n ⟨blockStart + byteSize (splitBlock 0 cs).1 + brace.utf8Size, later⟩ := by
      simp only [dropWhile_shift, start_shift, shift_mk, Nat.add_assoc, blockStart, rest]
    rw [pieces_of_closed (e := e.shift n) (by rwa [dropWhile_shift]) hblock, splitWhile_shift,
      hlater, ih]
    rfl

end Excerpt

/-! ## Chunks -/

/-- The chunk, `n` bytes further on. -/
def Chunk.shift (n : Nat) : Chunk → Chunk
  | .statement text => .statement (text.shift n)
  | .group => .group
  | .close offset => .close (n + offset)
  | .rule selector brace body closed => .rule (selector.shift n) (n + brace) (body.shift n) closed
  | .tail text => .tail (text.shift n)

namespace Excerpt

variable {e : Excerpt}

/-- The text before the first character that ends a chunk. -/
def header (e : Excerpt) : Excerpt := (e.splitWhile fun c => !endsChunk c).1.trim

/-- The text from the first character on that ends a chunk. -/
def fromEnd (e : Excerpt) : Excerpt := e.dropWhile fun c => !endsChunk c

@[simp] theorem header_shift (n : Nat) (e : Excerpt) : (e.shift n).header = e.header.shift n := by
  rw [header, splitWhile_shift, trim_shift, header]

@[simp] theorem fromEnd_shift (n : Nat) (e : Excerpt) :
    (e.shift n).fromEnd = e.fromEnd.shift n := dropWhile_shift n e _

theorem chunks_of_nil (h : e.fromEnd.chars = []) : e.chunks = [.tail e.header] := by
  rw [chunks]
  split
  · rfl
  · rename_i hcons
    cases h.symm.trans hcons

section FirstChunk

variable {c : Char} {cs : List Char} (h : e.fromEnd.chars = c :: cs)

include h

theorem chunks_of_semicolon (hc : c = ';') :
    e.chunks = .statement e.header :: (⟨e.fromEnd.start + c.utf8Size, cs⟩ : Excerpt).chunks := by
  rw [chunks]
  split
  · rename_i hnil
    cases h.symm.trans hnil
  · rename_i hcons
    cases h.symm.trans hcons
    exact if_pos hc

theorem chunks_of_close (hc : c = '}') :
    e.chunks =
      .close e.fromEnd.start :: (⟨e.fromEnd.start + c.utf8Size, cs⟩ : Excerpt).chunks := by
  rw [chunks]
  split
  · rename_i hnil
    cases h.symm.trans hnil
  · rename_i hcons
    cases h.symm.trans hcons
    exact (if_neg (by rw [hc]; decide)).trans (if_pos hc)

variable (hsemicolon : c ≠ ';') (hclose : c ≠ '}')

include hsemicolon hclose

theorem chunks_of_group (hgroup : opensGroup e.header.chars) :
    e.chunks = .group :: (⟨e.fromEnd.start + c.utf8Size, cs⟩ : Excerpt).chunks := by
  rw [chunks]
  split
  · rename_i hnil
    cases h.symm.trans hnil
  · rename_i hcons
    cases h.symm.trans hcons
    exact (if_neg hsemicolon).trans ((if_neg hclose).trans (if_pos hgroup))

variable (hgroup : ¬opensGroup e.header.chars)

include hgroup

theorem chunks_of_unclosed (hblock : (splitBlock 0 cs).2 = []) :
    e.chunks =
      let body : Excerpt := ⟨e.fromEnd.start + c.utf8Size, (splitBlock 0 cs).1⟩
      [.rule e.header e.fromEnd.start body false, .tail ⟨body.stop, []⟩] := by
  rw [chunks]
  split
  · rename_i hnil
    cases h.symm.trans hnil
  · rename_i hcons
    cases h.symm.trans hcons
    refine (if_neg hsemicolon).trans ((if_neg hclose).trans ((if_neg hgroup).trans ?_))
    split
    · rfl
    · rename_i hlater
      cases hblock.symm.trans hlater

theorem chunks_of_closed {brace : Char} {later : List Char}
    (hblock : (splitBlock 0 cs).2 = brace :: later) :
    e.chunks =
      let body : Excerpt := ⟨e.fromEnd.start + c.utf8Size, (splitBlock 0 cs).1⟩
      .rule e.header e.fromEnd.start body true ::
        (⟨body.stop + brace.utf8Size, later⟩ : Excerpt).chunks := by
  rw [chunks]
  split
  · rename_i hnil
    cases h.symm.trans hnil
  · rename_i hcons
    cases h.symm.trans hcons
    refine (if_neg hsemicolon).trans ((if_neg hclose).trans ((if_neg hgroup).trans ?_))
    split
    · rename_i hnone
      cases hblock.symm.trans hnone
    · rename_i hlater
      cases hblock.symm.trans hlater
      rfl

end FirstChunk

@[simp] theorem chunks_shift (n : Nat) (e : Excerpt) :
    (e.shift n).chunks = e.chunks.map (.shift n) := by
  have hfrom {e : Excerpt} {c : Char} {cs : List Char} (h : e.fromEnd.chars = c :: cs) :
      (e.shift n).fromEnd.chars = c :: cs := by
    rw [fromEnd_shift, chars_shift, h]
  have hafter (e : Excerpt) (c : Char) (cs : List Char) :
      (⟨(e.shift n).fromEnd.start + c.utf8Size, cs⟩ : Excerpt) =
        shift n ⟨e.fromEnd.start + c.utf8Size, cs⟩ := by
    rw [fromEnd_shift, start_shift, shift_mk, Nat.add_assoc]
  fun_induction chunks e with
  | case1 e before rest hrest =>
    rw [chunks_of_nil (by rw [fromEnd_shift]; exact hrest), header_shift]
    rfl
  | case2 e before rest later hrest _ after ih =>
    rw [chunks_of_semicolon (hfrom hrest) rfl, hafter, header_shift]
    exact congrArg (_ :: ·) ih
  | case3 e rest later hrest _ after _ ih =>
    rw [chunks_of_close (hfrom hrest) rfl, hafter, fromEnd_shift]
    exact congrArg (_ :: ·) ih
  | case4 e before rest c cs hrest _ after hsemicolon hclose hgroup ih =>
    rw [chunks_of_group (hfrom hrest) hsemicolon hclose (by rw [header_shift]; exact hgroup),
      hafter]
    exact congrArg (_ :: ·) ih
  | case5 e before rest c cs hrest _ after hsemicolon hclose hgroup body _ hblock =>
    rw [chunks_of_unclosed (hfrom hrest) hsemicolon hclose (by rw [header_shift]; exact hgroup)
      hblock, hafter, header_shift, fromEnd_shift]
    dsimp only
    rw [stop_shift]
    rfl
  | case6 e before rest c cs hrest _ after hsemicolon hclose hgroup body _ brace later hblock _
      ih =>
    rw [chunks_of_closed (hfrom hrest) hsemicolon hclose (by rw [header_shift]; exact hgroup)
      hblock, hafter, header_shift, fromEnd_shift]
    dsimp only
    rw [stop_shift, Nat.add_assoc]
    exact congrArg (_ :: ·) ih

end Excerpt

theorem Chunk.shift_zero (c : Chunk) : c.shift 0 = c := by
  cases c <;> simp [shift]

theorem readProperty?_shift (n : Nat) (segment : Excerpt) :
    readProperty? (segment.shift n) =
      (readProperty? segment).map (Prod.map (.shift n) (.shift n)) := by
  rw [readProperty?, readProperty?]
  simp only [Excerpt.dropWhile_shift, Excerpt.readVariableName?_shift,
    Excerpt.readOrdinaryName?_shift, ← Option.map_or]
  cases (segment.dropWhile isBlank).readVariableName?.or
      (segment.dropWhile isBlank).readOrdinaryName? with
  | none => rfl
  | some read =>
    simp only [Option.map_some, Prod.map, Excerpt.dropWhile_shift, Excerpt.skip?_shift,
      Option.map_map]
    rfl

end StyleVars
