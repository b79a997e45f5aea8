import StyleVars.Proofs.Sheet.Comment

/-!
# Blanking byte by byte

Comments can be blanked in the bytes of a text: a search for the next opening mark, one for the next
closing mark behind it, and every byte from the one to the other is overwritten by a space, unless
it is a line feed. The bytes need not be read as characters for this, since no byte of a longer
character is a byte of a mark.

What is overwritten is said here without the search: a text has one division into plain stretches
and comments. The main results are that overwriting its bytes gives the bytes of a text again, that
of the blanked characters, and that no opening mark is left.
-/

namespace StyleVars

namespace Comment

section Divide

variable {α : Type} [DecidableEq α]

/-- What stands before and behind the first `a` that is followed by `b`. -/
def splitAtPair? (a b : α) : List α → Option (List α × List α)
  | [] => none
  | x :: xs =>
    if x = a ∧ xs.head? = some b then some ([], xs.tail)
    else (splitAtPair? a b xs).map fun split => (x :: split.1, split.2)

theorem length_splitAtPair? {a b : α} {xs before rest : List α}
    (h : splitAtPair? a b xs = some (before, rest)) : rest.length < xs.length := by
  induction xs generalizing before with
  | nil => cases h
  | cons x xs ih =>
    rw [splitAtPair?] at h
    split at h
    · cases h
      rw [List.length_tail, List.length_cons]
      omega
    · obtain ⟨split, hsplit, heq⟩ := Option.map_eq_some_iff.mp h
      cases heq
      have := ih hsplit
      rw [List.length_cons]
      omega

/-- A stretch of a text. -/
inductive Stretch (α : Type) where
  | plain (xs : List α)
  /-- A comment with its marks. -/
  | comment (xs : List α)

/-- Divide a text at its comments, each from its opening mark to the next closing mark behind it, or
to the end of the text. -/
def divide (slash star : α) (xs : List α) : List (Stretch α) :=
  match h : splitAtPair? slash star xs with
  | none => [.plain xs]
  | some (before, rest) =>
    match h' : splitAtPair? star slash rest with
    | none => [.plain before, .comment (slash :: star :: rest)]
    | some (body, after) =>
      have := Nat.lt_trans (length_splitAtPair? h') (length_splitAtPair? h)
      .plain before :: .comment (slash :: star :: body ++ [star, slash]) :: divide slash star after
termination_by xs.length

/-! ## The first pair -/

variable {a b : α} {xs before rest : List α}

theorem splitAtPair?_cons_of_ne {x : α} (h : x ≠ a) (xs : List α) :
    splitAtPair? a b (x :: xs) =
      (splitAtPair? a b xs).map fun split => (x :: split.1, split.2) := by
  rw [splitAtPair?, if_neg fun hpair => h hpair.1]

theorem splitAtPair?_append_of_notMem (h : a ∉ before) (rest : List α) :
    splitAtPair? a b (before ++ rest) =
      (splitAtPair? a b rest).map fun split => (before ++ split.1, split.2) := by
  induction before with
  | nil => simp
  | cons x before ih =>
    obtain ⟨hx, hbefore⟩ := List.ne_and_not_mem_of_not_mem_cons h
    rw [List.cons_append, splitAtPair?_cons_of_ne hx.symm, ih hbefore, Option.map_map]
    rfl

/-- The first pair divides the text, and there is none before it. -/
theorem splitAtPair?_eq_some (h : splitAtPair? a b xs = some (before, rest)) :
    xs = before ++ a :: b :: rest ∧ ¬[a, b] <:+: before := by
  induction xs generalizing before with
  | nil => cases h
  | cons x xs ih =>
    rw [splitAtPair?] at h
    split at h
    · rename_i hpair
      cases h
      obtain ⟨rfl, hhead⟩ := hpair
      obtain ⟨rest, rfl⟩ := List.head?_eq_some_iff.mp hhead
      exact ⟨rfl, by simp⟩
    · rename_i hnot
      obtain ⟨⟨before, rest⟩, hsplit, heq⟩ := Option.map_eq_some_iff.mp h
      cases heq
      obtain ⟨rfl, hbefore⟩ := ih hsplit
      refine ⟨rfl, fun hinfix => ?_⟩
      rcases List.infix_cons_iff.mp hinfix with ⟨after, hafter⟩ | hlater
      · cases hafter
        exact hnot ⟨rfl, rfl⟩
      · exact hbefore hlater

theorem splitAtPair?_eq_none_iff : splitAtPair? a b xs = none ↔ ¬[a, b] <:+: xs := by
  induction xs with
  | nil => simp [splitAtPair?]
  | cons x xs ih =>
    rw [splitAtPair?, List.infix_cons_iff, not_or, ← ih]
    split
    · rename_i hpair
      obtain ⟨rfl, hhead⟩ := hpair
      obtain ⟨rest, rfl⟩ := List.head?_eq_some_iff.mp hhead
      simp
    · rename_i hnot
      rw [Option.map_eq_none_iff]
      refine (and_iff_right ?_).symm
      rintro ⟨after, hafter⟩
      cases hafter
      exact hnot ⟨rfl, rfl⟩

theorem splitAtPair?_append (hne : a ≠ b) (h : ¬[a, b] <:+: before) (rest : List α) :
    splitAtPair? a b (before ++ a :: b :: rest) = some (before, rest) := by
  induction before with
  | nil => simp [splitAtPair?]
  | cons x before ih =>
    rw [List.infix_cons_iff, not_or] at h
    have hnot : ¬(x = a ∧ (before ++ a :: b :: rest).head? = some b) := by
      rintro ⟨rfl, hhead⟩
      cases before with
      | nil => exact hne (Option.some.inj hhead)
      | cons y before =>
        cases hhead
        exact h.1 ⟨before, rfl⟩
    rw [List.cons_append, splitAtPair?, if_neg hnot, ih h.2]
    rfl

/-! ## The division of a text -/

variable {slash star : α} {body after : List α}

theorem divide_of_plain (h : splitAtPair? slash star xs = none) :
    divide slash star xs = [.plain xs] := by
  rw [divide]
  split
  · rfl
  · simp_all

theorem divide_of_unterminated (h : splitAtPair? slash star xs = some (before, rest))
    (h' : splitAtPair? star slash rest = none) :
    divide slash star xs = [.plain before, .comment (slash :: star :: rest)] := by
  rw [divide]
  split
  · simp_all
  · rename_i hsome
    cases h.symm.trans hsome
    split
    · rfl
    · simp_all

theorem divide_of_comment (h : splitAtPair? slash star xs = some (before, rest))
    (h' : splitAtPair? star slash rest = some (body, after)) :
    divide slash star xs = .plain before :: .comment (slash :: star :: body ++ [star, slash]) ::
      divide slash star after := by
  rw [divide]
  split
  · simp_all
  · rename_i hsome
    cases h.symm.trans hsome
    split
    · simp_all
    · rename_i hsome'
      cases h'.symm.trans hsome'
      rfl

namespace Stretch

def content : Stretch α → List α
  | plain xs => xs
  | comment xs => xs

/-- The text that is divided so. -/
def join (stretches : List (Stretch α)) : List α := stretches.flatMap content

end Stretch

/-- How a text divides into stretches. Nothing plain holds an opening mark. A comment runs from its
opening mark to the first closing mark behind it, or to the end of the text. -/
inductive IsDivision (slash star : α) : List (Stretch α) → Prop where
  | plain {xs : List α} (hplain : ¬[slash, star] <:+: xs) : IsDivision slash star [.plain xs]
  | unterminated {before body : List α} (hplain : ¬[slash, star] <:+: before)
      (hbody : ¬[star, slash] <:+: body) :
      IsDivision slash star [.plain before, .comment (slash :: star :: body)]
  | comment {before body : List α} {rest : List (Stretch α)} (hplain : ¬[slash, star] <:+: before)
      (hbody : ¬[star, slash] <:+: body) (hrest : IsDivision slash star rest) :
      IsDivision slash star
        (.plain before :: .comment (slash :: star :: body ++ [star, slash]) :: rest)

theorem isDivision_divide (slash star : α) (xs : List α) :
    IsDivision slash star (divide slash star xs) ∧ Stretch.join (divide slash star xs) = xs := by
  fun_induction divide slash star xs with
  | case1 xs hnone =>
    exact ⟨.plain (splitAtPair?_eq_none_iff.mp hnone), by simp [Stretch.join, Stretch.content]⟩
  | case2 xs before rest hopen hnone =>
    obtain ⟨rfl, hplain⟩ := splitAtPair?_eq_some hopen
    refine ⟨.unterminated hplain (splitAtPair?_eq_none_iff.mp hnone), ?_⟩
    simp [Stretch.join, Stretch.content]
  | case3 xs before rest hopen body after hclose _ ih =>
    obtain ⟨rfl, hplain⟩ := splitAtPair?_eq_some hopen
    obtain ⟨rfl, hbody⟩ := splitAtPair?_eq_some hclose
    refine ⟨.comment hplain hbody ih.1, ?_⟩
    have hafter := ih.2
    rw [Stretch.join] at hafter
    simp [Stretch.join, Stretch.content, hafter]

/-- A text has no other division. -/
theorem IsDivision.divide_join (hne : slash ≠ star) {stretches : List (Stretch α)}
    (h : IsDivision slash star stretches) :
    divide slash star (Stretch.join stretches) = stretches := by
  induction h with
  | plain hplain =>
    simp only [Stretch.join, List.flatMap_cons, List.flatMap_nil, List.append_nil, Stretch.content]
    exact divide_of_plain (splitAtPair?_eq_none_iff.mpr hplain)
  | @unterminated before body hplain hbody =>
    have hjoin : Stretch.join [.plain before, .comment (slash :: star :: body)] =
        before ++ slash :: star :: body := by
      simp [Stretch.join, Stretch.content]
    rw [hjoin]
    exact divide_of_unterminated (splitAtPair?_append hne hplain body)
      (splitAtPair?_eq_none_iff.mpr hbody)
  | @comment before body rest hplain hbody _ ih =>
    have hjoin : Stretch.join (.plain before ::
        .comment (slash :: star :: body ++ [star, slash]) :: rest) =
          before ++ slash :: star :: (body ++ star :: slash :: Stretch.join rest) := by
      simp [Stretch.join, Stretch.content]
    rw [hjoin, divide_of_comment (splitAtPair?_append hne hplain _)
      (splitAtPair?_append hne.symm hbody _), ih]

end Divide

/-! ## Bytes of characters -/

/-- The bytes of a text. -/
def encode (cs : List Char) : List UInt8 := cs.flatMap String.utf8EncodeChar

/-- The byte of a character that has one. -/
def byte (c : Char) : UInt8 := UInt8.ofNat c.toNat

theorem encode_cons (c : Char) (cs : List Char) :
    encode (c :: cs) = String.utf8EncodeChar c ++ encode cs := List.flatMap_cons

theorem encode_append (xs ys : List Char) : encode (xs ++ ys) = encode xs ++ encode ys :=
  List.flatMap_append

variable {a b c : Char} {cs : List Char}

theorem utf8EncodeChar_eq_byte (h : a.toNat < 128) : String.utf8EncodeChar a = [byte a] := by
  have hle : a.val.toNat ≤ 127 := Nat.le_of_lt_succ h
  simp only [String.utf8EncodeChar, if_pos hle]
  rfl

theorem toNat_byte (h : a.toNat < 128) : (byte a).toNat = a.toNat := by
  simp only [byte, UInt8.toNat_ofNat']
  omega

theorem le_of_mem_utf8EncodeChar {x : UInt8} (hc : 128 ≤ c.toNat)
    (h : x ∈ String.utf8EncodeChar c) : 128 ≤ x.toNat := by
  have hlong : ¬c.val.toNat ≤ 127 := Nat.not_le.mpr hc
  simp only [String.utf8EncodeChar, if_neg hlong] at h
  split at h
  · simp only [List.mem_cons, List.not_mem_nil, or_false] at h
    rcases h with rfl | rfl <;> (rw [UInt8.toNat_ofNat']; omega)
  · split at h
    · simp only [List.mem_cons, List.not_mem_nil, or_false] at h
      rcases h with rfl | rfl | rfl <;> (rw [UInt8.toNat_ofNat']; omega)
    · simp only [List.mem_cons, List.not_mem_nil, or_false] at h
      rcases h with rfl | rfl | rfl | rfl <;> (rw [UInt8.toNat_ofNat']; omega)

/-- The bytes of a longer character are no characters by themselves. -/
theorem eq_of_byte_mem (ha : a.toNat < 128) (h : byte a ∈ String.utf8EncodeChar c) : c = a := by
  have hbyte := toNat_byte ha
  by_cases hc : c.toNat < 128
  · rw [utf8EncodeChar_eq_byte hc, List.mem_singleton] at h
    rw [h, toNat_byte hc] at hbyte
    exact Char.toNat_inj.mp hbyte
  · have hle := le_of_mem_utf8EncodeChar (Nat.le_of_not_lt hc) h
    omega

theorem head?_encode (hb : b.toNat < 128) (cs : List Char) :
    (encode cs).head? = some (byte b) ↔ cs.head? = some b := by
  cases cs with
  | nil => simp [encode]
  | cons c cs =>
    have hne : String.utf8EncodeChar c ≠ [] := by
      rw [← List.length_pos_iff, String.length_utf8EncodeChar]
      exact c.utf8Size_pos
    rw [encode_cons, List.head?_append_of_ne_nil _ hne, List.head?_cons, Option.some.injEq]
    constructor
    · intro hhead
      exact eq_of_byte_mem hb (List.mem_of_mem_head? hhead)
    · rintro rfl
      rw [utf8EncodeChar_eq_byte hb]
      rfl

/-- The first pair of two short characters is that of their bytes. -/
theorem splitAtPair?_encode (ha : a.toNat < 128) (hb : b.toNat < 128) (cs : List Char) :
    splitAtPair? (byte a) (byte b) (encode cs) =
      (splitAtPair? a b cs).map (Prod.map encode encode) := by
  induction cs with
  | nil => rfl
  | cons c cs ih =>
    rw [encode_cons]
    by_cases hc : c = a
    · subst hc
      rw [utf8EncodeChar_eq_byte ha, List.singleton_append, splitAtPair?, splitAtPair?]
      by_cases hhead : cs.head? = some b
      · obtain ⟨rest, rfl⟩ := List.head?_eq_some_iff.mp hhead
        rw [if_pos ⟨rfl, (head?_encode hb _).mpr hhead⟩, if_pos ⟨rfl, hhead⟩, encode_cons,
          utf8EncodeChar_eq_byte hb]
        rfl
      · rw [if_neg fun h => hhead ((head?_encode hb cs).mp h.2), if_neg fun h => hhead h.2, ih,
          Option.map_map, Option.map_map]
        refine congrArg (Option.map · _) (funext fun split => ?_)
        simp [encode_cons, utf8EncodeChar_eq_byte ha]
    · have hbytes : byte a ∉ String.utf8EncodeChar c := fun hmem => hc (eq_of_byte_mem ha hmem)
      rw [splitAtPair?_append_of_notMem hbytes, splitAtPair?_cons_of_ne hc, ih, Option.map_map,
        Option.map_map]
      refine congrArg (Option.map · _) (funext fun split => ?_)
      simp [encode_cons]

/-! ## Overwriting -/

/-- What becomes of a byte of a comment. -/
def blankByte (x : UInt8) : UInt8 := if x = byte '\n' then byte '\n' else byte ' '

namespace Stretch

def map {α β : Type} (f : List α → List β) : Stretch α → Stretch β
  | plain xs => plain (f xs)
  | comment xs => comment (f xs)

/-- The bytes of a stretch, overwritten if it is a comment. -/
def overwritten : Stretch UInt8 → List UInt8
  | plain xs => xs
  | comment xs => xs.map blankByte

/-- The characters of a stretch, blanked if it is a comment. -/
def blanked : Stretch Char → List Char
  | plain cs => cs
  | comment cs => cs.flatMap blankChar

end Stretch

/-- Overwrite the comments in the bytes of a text. -/
def overwrite (bytes : List UInt8) : List UInt8 :=
  (divide (byte '/') (byte '*') bytes).flatMap Stretch.overwritten

theorem divide_encode (cs : List Char) :
    divide (byte '/') (byte '*') (encode cs) = (divide '/' '*' cs).map (.map encode) := by
  have hslash : ('/' : Char).toNat < 128 := by decide
  have hstar : ('*' : Char).toNat < 128 := by decide
  have hopen {cs : List Char} {split : Option (List Char × List Char)}
      (h : splitAtPair? '/' '*' cs = split) : splitAtPair? (byte '/') (byte '*') (encode cs) =
        split.map (Prod.map encode encode) := h ▸ splitAtPair?_encode hslash hstar cs
  have hclose {cs : List Char} {split : Option (List Char × List Char)}
      (h : splitAtPair? '*' '/' cs = split) : splitAtPair? (byte '*') (byte '/') (encode cs) =
        split.map (Prod.map encode encode) := h ▸ splitAtPair?_encode hstar hslash cs
  fun_induction divide '/' '*' cs with
  | case1 cs hnone => exact divide_of_plain (hopen hnone)
  | case2 cs before rest hsome hnone => exact divide_of_unterminated (hopen hsome) (hclose hnone)
  | case3 cs before rest hsome body after hsome' _ ih =>
    rw [divide_of_comment (hopen hsome) (hclose hsome'), ih]
    have hcomment : encode ('/' :: '*' :: body ++ ['*', '/']) =
        byte '/' :: byte '*' :: encode body ++ [byte '*', byte '/'] := by
      rw [encode_append]
      rfl
    simp only [List.map_cons, Stretch.map, hcomment]

/-- What a character of a comment becomes has the bytes of the character, overwritten. -/
theorem encode_blankChar (c : Char) :
    encode (blankChar c) = (String.utf8EncodeChar c).map blankByte := by
  rw [blankChar]
  split
  · rename_i hc
    rw [hc]
    rfl
  · rename_i hc
    have hblank : ∀ x ∈ String.utf8EncodeChar c, blankByte x = byte ' ' := by
      intro x hx
      refine if_neg fun hfeed => hc (eq_of_byte_mem (by decide) ?_)
      rwa [hfeed] at hx
    have hspaces (n : Nat) : encode (List.replicate n ' ') = List.replicate n (byte ' ') := by
      induction n with
      | zero => rfl
      | succ n ih =>
        rw [List.replicate_succ, encode_cons, ih]
        rfl
    rw [hspaces, List.map_congr_left hblank, List.map_const', String.length_utf8EncodeChar]

theorem encode_flatMap_blankChar (cs : List Char) :
    encode (cs.flatMap blankChar) = (encode cs).map blankByte := by
  induction cs with
  | nil => rfl
  | cons c cs ih =>
    rw [List.flatMap_cons, encode_append, encode_blankChar, ih, encode_cons, List.map_append]

theorem blankByte_eq_feed_iff (x : UInt8) : blankByte x = byte '\n' ↔ x = byte '\n' := by
  rw [blankByte]
  split
  · rename_i h
    exact iff_of_true rfl h
  · rename_i h
    exact iff_of_false (by decide) h

/-- Overwriting keeps the places of line feeds, and with them the number of bytes. -/
theorem feeds_overwrite (bytes : List UInt8) :
    (overwrite bytes).map (decide <| · = byte '\n') = bytes.map (decide <| · = byte '\n') := by
  have hstretch (stretch : Stretch UInt8) :
      stretch.overwritten.map (decide <| · = byte '\n') =
        stretch.content.map (decide <| · = byte '\n') := by
    cases stretch with
    | plain xs => rfl
    | comment xs =>
      rw [Stretch.overwritten, Stretch.content, List.map_map]
      refine List.map_congr_left fun x _ => ?_
      simp only [Function.comp_apply, blankByte_eq_feed_iff]
  have hjoin := (isDivision_divide (byte '/') (byte '*') bytes).2
  rw [Stretch.join] at hjoin
  conv_rhs => rw [← hjoin]
  rw [overwrite, List.map_flatMap, List.map_flatMap]
  exact List.flatMap_congr fun stretch _ => hstretch stretch

/-! ## Blanked characters -/

theorem blankFrom_false_cons (h : ¬(c = '/' ∧ cs.head? = some '*')) :
    blankFrom false (c :: cs) = c :: blankFrom false cs := by
  apply blankFrom.eq_3
  rintro rest rfl rfl
  exact h ⟨rfl, rfl⟩

theorem blankFrom_true_cons (h : ¬(c = '*' ∧ cs.head? = some '/')) :
    blankFrom true (c :: cs) = blankChar c ++ blankFrom true cs := by
  apply blankFrom.eq_5
  rintro rest rfl rfl
  exact h ⟨rfl, rfl⟩

/-- A reader that goes on character by character up to a pair, and with another reader behind it. -/
theorem eq_of_splitAtPair? (read next : List Char → List Char) (keep : Char → List Char)
    (hnil : read [] = []) (hpair : ∀ rest, read (a :: b :: rest) = [' ', ' '] ++ next rest)
    (hcons : ∀ c cs, ¬(c = a ∧ cs.head? = some b) → read (c :: cs) = keep c ++ read cs)
    (cs : List Char) :
    read cs = ((splitAtPair? a b cs).map fun split =>
      split.1.flatMap keep ++ [' ', ' '] ++ next split.2).getD (cs.flatMap keep) := by
  induction cs with
  | nil => exact hnil
  | cons c cs ih =>
    rw [splitAtPair?]
    split
    · rename_i h
      obtain ⟨rfl, hhead⟩ := h
      obtain ⟨rest, rfl⟩ := List.head?_eq_some_iff.mp hhead
      exact hpair rest
    · rename_i h
      rw [hcons c cs h, ih]
      cases splitAtPair? a b cs <;> simp

theorem blankFrom_false_eq (cs : List Char) :
    blankFrom false cs = ((splitAtPair? '/' '*' cs).map fun split =>
      split.1 ++ [' ', ' '] ++ blankFrom true split.2).getD cs := by
  have hread : blankFrom false cs = ((splitAtPair? '/' '*' cs).map fun split =>
      split.1.flatMap (fun c => [c]) ++ [' ', ' '] ++ blankFrom true split.2).getD
        (cs.flatMap fun c => [c]) :=
    eq_of_splitAtPair? (blankFrom false) (blankFrom true) _ rfl (fun _ => rfl)
      (fun _ _ h => blankFrom_false_cons h) cs
  simpa only [List.flatMap_singleton'] using hread

theorem blankFrom_true_eq (cs : List Char) :
    blankFrom true cs = ((splitAtPair? '*' '/' cs).map fun split =>
      split.1.flatMap blankChar ++ [' ', ' '] ++ blankFrom false split.2).getD
        (cs.flatMap blankChar) :=
  eq_of_splitAtPair? (blankFrom true) (blankFrom false) blankChar rfl (fun _ => rfl)
    (fun _ _ h => blankFrom_true_cons h) cs

theorem blank_eq_flatMap_blanked (cs : List Char) :
    blank cs = (divide '/' '*' cs).flatMap Stretch.blanked := by
  have hslash : blankChar '/' = [' '] := rfl
  have hstar : blankChar '*' = [' '] := rfl
  fun_induction divide '/' '*' cs with
  | case1 cs hnone =>
    rw [blank, blankFrom_false_eq, hnone]
    simp [Stretch.blanked]
  | case2 cs before rest hsome hnone =>
    rw [blank, blankFrom_false_eq, hsome, Option.map_some, Option.getD_some, blankFrom_true_eq,
      hnone]
    simp [Stretch.blanked, hslash, hstar]
  | case3 cs before rest hsome body after hsome' _ ih =>
    rw [blank] at ih
    rw [blank, blankFrom_false_eq, hsome, Option.map_some, Option.getD_some, blankFrom_true_eq,
      hsome', Option.map_some, Option.getD_some, ih]
    simp [Stretch.blanked, hslash, hstar]

/-- The bytes of the blanked text are the bytes of the text, overwritten. -/
theorem overwrite_encode (cs : List Char) : overwrite (encode cs) = encode (blank cs) := by
  have hstretch (stretch : Stretch Char) :
      (stretch.map encode).overwritten = encode stretch.blanked := by
    cases stretch with
    | plain cs => rfl
    | comment cs => exact (encode_flatMap_blankChar cs).symm
  rw [overwrite, divide_encode, blank_eq_flatMap_blanked, List.flatMap_map, encode,
    List.flatMap_assoc]
  exact List.flatMap_congr fun stretch _ => hstretch stretch

/-! ## No mark is left -/

theorem head?_blankFrom_false (h : (blankFrom false cs).head? = some '*') :
    cs.head? = some '*' := by
  cases cs with
  | nil => cases h
  | cons c cs =>
    by_cases hpair : c = '/' ∧ cs.head? = some '*'
    · obtain ⟨rfl, hhead⟩ := hpair
      obtain ⟨rest, rfl⟩ := List.head?_eq_some_iff.mp hhead
      cases h
    · rw [blankFrom_false_cons hpair] at h
      exact h

theorem splitAtPair?_blankFrom (inside : Bool) (cs : List Char) :
    splitAtPair? '/' '*' (blankFrom inside cs) = none := by
  have hmark (rest : List Char) (h : splitAtPair? '/' '*' rest = none) :
      splitAtPair? '/' '*' (' ' :: ' ' :: rest) = none := by
    rw [splitAtPair?_cons_of_ne (by decide), splitAtPair?_cons_of_ne (by decide), h]
    rfl
  fun_induction blankFrom inside cs with
  | case1 => rfl
  | case2 rest ih => exact hmark _ ih
  | case3 c rest hpair ih =>
    have hnot : ¬(c = '/' ∧ (blankFrom false rest).head? = some '*') := by
      rintro ⟨rfl, hhead⟩
      obtain ⟨later, rfl⟩ := List.head?_eq_some_iff.mp (head?_blankFrom_false hhead)
      exact hpair later rfl rfl
    rw [splitAtPair?, if_neg hnot, ih]
    rfl
  | case4 rest ih => exact hmark _ ih
  | case5 c rest _ ih =>
    have hslash : '/' ∉ blankChar c := by
      intro hmem
      exact absurd (isBlank_of_mem_blankChar hmem) (by decide)
    rw [splitAtPair?_append_of_notMem hslash, ih]
    rfl

theorem blank_blank (cs : List Char) : blank (blank cs) = blank cs := by
  have hnone := splitAtPair?_blankFrom false cs
  rw [blank, blankFrom_false_eq, blank, hnone]
  rfl

end Comment

end StyleVars
