import StyleVars.Proofs.Value.Literal

/-!
# Hexadecimal colours are read back

The canonical text of a colour has two lowercase digits for each channel. Reading looks at the value
of each digit only, so it undoes writing in any letter case, and the `#` may be missing. Two more
digits give the opacity and leave the channels alone. A single digit for a channel counts as if it
were written twice. Nothing else is read: there are 3, 4, 6 or 8 digits, or there is no colour.
-/

namespace StyleVars

/-! ## Letter case -/

theorem toLower_of_not_ascii {c : Char} (h : 128 ≤ c.toNat) : c.toLower = c := by
  have hupper : ¬(c.val ≥ 'A'.val ∧ c.val ≤ 'Z'.val) := by
    rintro ⟨-, hle⟩
    have hsmall : c.toNat ≤ 90 := UInt32.le_iff_toNat_le.mp hle
    omega
  exact dif_neg hupper

/-- What holds of the characters of ASCII and of those outside holds of all. -/
@[elab_as_elim]
theorem forall_char {P : Char → Prop} (hascii : ∀ n < 128, P (Char.ofNat n))
    (hother : ∀ c : Char, 128 ≤ c.toNat → P c) (c : Char) : P c := by
  rcases Nat.lt_or_ge c.toNat 128 with hlt | hge
  · rw [← Char.ofNat_toNat c]
    exact hascii c.toNat hlt
  · exact hother c hge

theorem toLower_toLower (c : Char) : c.toLower.toLower = c.toLower := by
  refine forall_char ?_ ?_ c
  · decide +kernel
  · intro c h
    rw [toLower_of_not_ascii h, toLower_of_not_ascii h]

namespace Color

/-! ## Digits -/

/-- The hexadecimal digits in lower case, each at the place of its value. -/
def hexAlphabet : List Char := "0123456789abcdef".toList

/-- A hexadecimal digit in either case. -/
def IsHexDigit (c : Char) : Prop := c.toLower ∈ hexAlphabet

instance (c : Char) : Decidable (IsHexDigit c) := inferInstanceAs (Decidable (_ ∈ _))

/-- The value of a digit in either case is its place among the digits. -/
theorem hexDigit?_eq (c : Char) :
    hexDigit? c = (hexAlphabet.idxOf? c.toLower).map UInt8.ofNat := by
  refine forall_char ?_ ?_ c
  · decide +kernel
  · -- Outside ASCII neither side has a value.
    intro c h
    have habove (d : Char) (hd : d.toNat < 128) : ¬c ≤ d := by
      intro hle
      have hsmall : c.toNat ≤ d.toNat := UInt32.le_iff_toNat_le.mp hle
      omega
    have hnone : hexDigit? c = none := by
      rw [hexDigit?, if_neg fun hc => habove '9' (by decide) hc.2,
        if_neg fun hc => habove 'f' (by decide) hc.2, if_neg fun hc => habove 'F' (by decide) hc.2]
    have hnot : c ∉ hexAlphabet := by
      intro hmem
      have hascii : hexAlphabet.all (·.toNat < 128) = true := by decide
      have hsmall : c.toNat < 128 := of_decide_eq_true (List.all_eq_true.mp hascii c hmem)
      omega
    rw [hnone, toLower_of_not_ascii h, List.idxOf?_eq_none_iff.mpr hnot]
    rfl

theorem hexDigit?_toLower (c : Char) : hexDigit? c.toLower = hexDigit? c := by
  rw [hexDigit?_eq, hexDigit?_eq, toLower_toLower]

theorem isSome_hexDigit?_iff {c : Char} : (hexDigit? c).isSome ↔ IsHexDigit c := by
  rw [hexDigit?_eq, Option.isSome_map, List.isSome_idxOf?]
  rfl

theorem hexDigit?_digitChar {n : Nat} (h : n < 16) :
    hexDigit? (Nat.digitChar n) = some n.toUInt8 := by
  have hall : ∀ n < 16, hexDigit? (Nat.digitChar n) = some n.toUInt8 := by decide
  exact hall n h

theorem getElem?_hexAlphabet {n : Nat} (h : n < 16) :
    hexAlphabet[n]? = some (Nat.digitChar n) := by
  have hall : ∀ n < 16, hexAlphabet[n]? = some (Nat.digitChar n) := by decide
  exact hall n h

/-! ## Texts of digits -/

variable {cs digits : List Char} {values : List UInt8}

theorem mapM_hexDigit?_lowerAscii (cs : List Char) :
    (lowerAscii cs).mapM hexDigit? = cs.mapM hexDigit? := by
  rw [lowerAscii, List.mapM_map]
  exact congrArg (cs.mapM ·) (funext hexDigit?_toLower)

theorem exists_mapM_hexDigit? (h : ∀ c ∈ cs, IsHexDigit c) :
    ∃ values, cs.mapM hexDigit? = some values ∧ values.length = cs.length := by
  induction cs with
  | nil => exact ⟨[], rfl, rfl⟩
  | cons c cs ih =>
    obtain ⟨hc, hcs⟩ := List.forall_mem_cons.mp h
    obtain ⟨value, hvalue⟩ := Option.isSome_iff_exists.mp (isSome_hexDigit?_iff.mpr hc)
    obtain ⟨values, hvalues, hlength⟩ := ih hcs
    refine ⟨value :: values, ?_, congrArg (· + 1) hlength⟩
    rw [List.mapM_cons, hvalue, hvalues]
    rfl

/-- The digits of a byte have its two halves as values. -/
theorem exists_mapM_byteDigits (v : UInt8) :
    ∃ high low, (byteDigits v).mapM hexDigit? = some [high, low] ∧ 16 * high + low = v := by
  have hv := v.toNat_lt
  refine ⟨(v.toNat / 16).toUInt8, (v.toNat % 16).toUInt8, ?_, ?_⟩
  · rw [byteDigits, List.mapM_cons, List.mapM_cons, List.mapM_nil,
      hexDigit?_digitChar (by omega), hexDigit?_digitChar (by omega)]
    rfl
  · rw [← UInt8.toNat_inj]
    simp
    omega

/-- Write every member twice. -/
def doubled {α : Type} (xs : List α) : List α := xs.flatMap fun x => [x, x]

theorem mapM_hexDigit?_doubled (cs : List Char) :
    (doubled cs).mapM hexDigit? = (cs.mapM hexDigit?).map doubled := by
  induction cs with
  | nil => rfl
  | cons c cs ih =>
    have hsplit : doubled (c :: cs) = c :: c :: doubled cs := rfl
    rw [hsplit, List.mapM_cons, List.mapM_cons, List.mapM_cons, ih]
    cases hexDigit? c with
    | none => rfl
    | some value =>
      cases cs.mapM hexDigit? with
      | none => rfl
      | some values => rfl

/-! ## Channels -/

/-- The three channels of a colour. -/
def rgb (c : Color) : UInt8 × UInt8 × UInt8 := (c.red, c.green, c.blue)

theorem isSome_channels? (h : values.length ∈ [3, 4, 6, 8]) : (channels? values).isSome := by
  rcases values with _ | ⟨a, _ | ⟨b, _ | ⟨c, _ | ⟨d, _ | ⟨e, _ | ⟨f, _ | ⟨g, _ | ⟨i, _⟩⟩⟩⟩⟩⟩⟩⟩ <;>
    simp_all [channels?]

/-- A single digit counts double. -/
theorem channels?_doubled (h : values.length ∈ [3, 4]) :
    channels? (doubled values) = channels? values := by
  have htwice (v : UInt8) : 16 * v + v = 17 * v := by grind
  rcases List.mem_pair.mp h with h | h
  · obtain ⟨r, g, b, rfl⟩ := List.length_eq_three.mp h
    have hdoubled : doubled [r, g, b] = [r, r, g, g, b, b] := rfl
    rw [hdoubled, channels?, channels?, htwice, htwice, htwice]
  · obtain ⟨r, g, b, a, rfl⟩ := List.length_eq_four.mp h
    have hdoubled : doubled [r, g, b, a] = [r, r, g, g, b, b, a, a] := rfl
    rw [hdoubled, channels?, channels?, htwice, htwice, htwice, htwice]

theorem ofHex?_hash (digits : List Char) :
    ofHex? ('#' :: digits) = ((digits.mapM hexDigit?).bind channels?).map fun c =>
      ofChannels c.1 c.2.1 c.2.2.1 (c.2.2.2.toFloat32 / 255.0) .hex := by
  simp only [ofHex?, Option.bind_eq_bind, Option.map_eq_bind, Option.bind_assoc]
  rfl

theorem ofHex?_of_head? (h : digits.head? ≠ some '#') : ofHex? digits = ofHex? ('#' :: digits) := by
  unfold ofHex?
  split
  · exact absurd rfl h
  · rfl

/-- What may stand before the digits. -/
def marks : List (List Char) := [[], ['#']]

/-- Before digits the `#` does not matter. -/
theorem ofHex?_mark_append {mark : List Char} (hmark : mark ∈ marks)
    (h : ∀ c ∈ digits, IsHexDigit c) : ofHex? (mark ++ digits) = ofHex? ('#' :: digits) := by
  rcases List.mem_pair.mp hmark with rfl | rfl
  · apply ofHex?_of_head?
    intro hhead
    exact absurd (h '#' (List.mem_of_head? hhead)) (by decide)
  · rfl

theorem isSome_ofHex?_hash :
    (ofHex? ('#' :: digits)).isSome ↔
      (∀ c ∈ digits, IsHexDigit c) ∧ digits.length ∈ [3, 4, 6, 8] := by
  rw [ofHex?_hash, Option.isSome_map]
  constructor
  · intro h
    obtain ⟨channels, hchannels⟩ := Option.isSome_iff_exists.mp h
    obtain ⟨values, hvalues, hcount⟩ := Option.bind_eq_some_iff.mp hchannels
    obtain ⟨hlength, hdigits⟩ := mapM_hexDigit?_spec hvalues
    exact ⟨fun c hc => isSome_hexDigit?_iff.mp (hdigits c hc),
      hlength ▸ length_of_channels? hcount⟩
  · rintro ⟨hdigits, hcount⟩
    obtain ⟨values, hvalues, hlength⟩ := exists_mapM_hexDigit? hdigits
    rw [hvalues]
    exact isSome_channels? (hlength ▸ hcount)

/-- Digits are read after at most one `#`, and nothing else is. -/
theorem isSome_ofHex?_iff {text : List Char} :
    (ofHex? text).isSome ↔ ∃ mark ∈ marks, ∃ digits, text = mark ++ digits ∧
      (∀ c ∈ digits, IsHexDigit c) ∧ digits.length ∈ [3, 4, 6, 8] := by
  constructor
  · intro h
    by_cases hhead : text.head? = some '#'
    · obtain ⟨digits, rfl⟩ := List.head?_eq_some_iff.mp hhead
      exact ⟨['#'], by decide, digits, rfl, isSome_ofHex?_hash.mp h⟩
    · rw [ofHex?_of_head? hhead] at h
      exact ⟨[], by decide, text, rfl, isSome_ofHex?_hash.mp h⟩
  · rintro ⟨mark, hmark, digits, rfl, hdigits, hcount⟩
    rw [ofHex?_mark_append hmark hdigits]
    exact isSome_ofHex?_hash.mpr ⟨hdigits, hcount⟩

theorem isHexDigit_of_mem_doubled {c : Char} (h : ∀ d ∈ digits, IsHexDigit d)
    (hc : c ∈ doubled digits) : IsHexDigit c := by
  obtain ⟨d, hd, hpair⟩ := List.mem_flatMap.mp hc
  have heq : c = d := by simpa using hpair
  exact heq ▸ h d hd

theorem ofHex?_doubled {mark : List Char} (hmark : mark ∈ marks) (h : ∀ c ∈ digits, IsHexDigit c)
    (hcount : digits.length ∈ [3, 4]) :
    ofHex? (mark ++ doubled digits) = ofHex? (mark ++ digits) := by
  obtain ⟨values, hvalues, hlength⟩ := exists_mapM_hexDigit? h
  rw [ofHex?_mark_append hmark h, ofHex?_mark_append hmark fun c => isHexDigit_of_mem_doubled h,
    ofHex?_hash, ofHex?_hash, mapM_hexDigit?_doubled, hvalues, Option.map_some, Option.bind_some,
    Option.bind_some, channels?_doubled (hlength ▸ hcount)]

/-! ## Writing and reading -/

/-- The digits of three channels. -/
def code (r g b : UInt8) : List Char := [r, g, b].flatMap byteDigits

theorem lowerAscii_byteDigits (v : UInt8) : lowerAscii (byteDigits v) = byteDigits v := by
  have hlower : ∀ n < 16, (Nat.digitChar n).toLower = Nat.digitChar n := by decide
  have hv := v.toNat_lt
  rw [byteDigits, lowerAscii, List.map_cons, List.map_singleton, hlower _ (by omega),
    hlower _ (by omega)]

theorem lowerAscii_code (r g b : UInt8) : lowerAscii (code r g b) = code r g b := by
  have hbyte (v : UInt8) := lowerAscii_byteDigits v
  simp only [lowerAscii] at hbyte
  simp only [code, lowerAscii, List.flatMap_cons, List.flatMap_nil, List.map_append, hbyte,
    List.map_nil]

/-- The digits of a byte are those at the places of its two halves. -/
theorem map_some_byteDigits (v : UInt8) :
    (byteDigits v).map some = [hexAlphabet[v.toNat / 16]?, hexAlphabet[v.toNat % 16]?] := by
  have hv := v.toNat_lt
  rw [getElem?_hexAlphabet (by omega), getElem?_hexAlphabet (by omega)]
  rfl

theorem isHexDigit_of_mem_byteDigits {v : UInt8} {c : Char} (h : c ∈ byteDigits v) :
    IsHexDigit c := by
  obtain ⟨high, low, hvalues, -⟩ := exists_mapM_byteDigits v
  exact isSome_hexDigit?_iff.mp ((mapM_hexDigit?_spec hvalues).2 c h)

/-- The digits of three channels in any case, alone or with two more for the opacity. -/
theorem map_rgb_ofHex? {r g b : UInt8} {mark text more : List Char} (hmark : mark ∈ marks)
    (htext : lowerAscii text = code r g b) (hmore : ∀ c ∈ more, IsHexDigit c)
    (hcount : more.length ∈ [0, 2]) :
    (ofHex? (mark ++ (text ++ more))).map rgb = some (r, g, b) := by
  obtain ⟨rh, rl, hred, hr⟩ := exists_mapM_byteDigits r
  obtain ⟨gh, gl, hgreen, hg⟩ := exists_mapM_byteDigits g
  obtain ⟨bh, bl, hblue, hb⟩ := exists_mapM_byteDigits b
  obtain ⟨opacity, hopacity, hlength⟩ := exists_mapM_hexDigit? hmore
  have hvalues : text.mapM hexDigit? = some [rh, rl, gh, gl, bh, bl] := by
    rw [← mapM_hexDigit?_lowerAscii, htext, code, List.flatMap_cons, List.flatMap_cons,
      List.flatMap_cons, List.mapM_append, List.mapM_append, List.mapM_append, hred, hgreen, hblue]
    rfl
  have hdigits : ∀ c ∈ text ++ more, IsHexDigit c := by
    refine List.forall_mem_append.mpr ⟨fun c hc => ?_, hmore⟩
    exact isSome_hexDigit?_iff.mp ((mapM_hexDigit?_spec hvalues).2 c hc)
  rw [ofHex?_mark_append hmark hdigits, ofHex?_hash, List.mapM_append, hvalues, hopacity,
    ← hr, ← hg, ← hb]
  rw [← hlength] at hcount
  rcases List.mem_pair.mp hcount with hnone | htwo
  · rw [List.length_eq_zero_iff.mp hnone]
    rfl
  · obtain ⟨high, low, rfl⟩ := List.length_eq_two.mp htwo
    rfl

/-- Canonical text is read back, whatever the opacity. -/
theorem map_rgb_ofHex?_hexText (r g b : UInt8) (alpha : Float32) :
    (ofHex? (hexText r g b alpha).toList).map rgb = some (r, g, b) := by
  have hcode : opaqueDigits r g b = ['#'] ++ code r g b := by simp [opaqueDigits, code]
  have hmark : ['#'] ∈ marks := by decide
  rw [hexText]
  split
  · rw [String.toList_ofList, hcode, List.append_assoc]
    refine map_rgb_ofHex? hmark (lowerAscii_code r g b) ?_ (by simp [byteDigits])
    exact fun c hc => isHexDigit_of_mem_byteDigits hc
  · rw [String.toList_ofList, hcode, ← List.append_nil (code r g b)]
    exact map_rgb_ofHex? hmark (lowerAscii_code r g b) (by simp) (by simp)

/-- Reading a colour in hexadecimal digits undoes writing it. The text of an opaque colour is `#`
and two lowercase digits for each channel, and any canonical text is read as the channels it was
written for. So are the digits in any letter case, with or without the `#`, and with or without two
more. Of 3 or 4 digits the colour is that of the digits written twice. A text is read only if it is
made of 3, 4, 6 or 8 digits after at most one `#`. -/
theorem hex_reading_undoes_writing :
    (∀ r g b : UInt8, hexText r g b 1.0 = String.ofList ('#' :: [r, g, b].flatMap byteDigits)) ∧
    (∀ v : UInt8, (byteDigits v).map some =
      [hexAlphabet[v.toNat / 16]?, hexAlphabet[v.toNat % 16]?]) ∧
    (∀ (r g b : UInt8) (alpha : Float32),
      (ofHex? (hexText r g b alpha).toList).map rgb = some (r, g, b)) ∧
    (∀ r g b : UInt8, ∀ mark ∈ marks, ∀ text more : List Char,
      lowerAscii text = [r, g, b].flatMap byteDigits → (∀ c ∈ more, IsHexDigit c) →
        more.length ∈ [0, 2] → (ofHex? (mark ++ (text ++ more))).map rgb = some (r, g, b)) ∧
    (∀ mark ∈ marks, ∀ digits : List Char, (∀ c ∈ digits, IsHexDigit c) →
      digits.length ∈ [3, 4] → ofHex? (mark ++ digits) = ofHex? (mark ++ doubled digits)) ∧
    ∀ text : List Char, (ofHex? text).isSome ↔ ∃ mark ∈ marks, ∃ digits, text = mark ++ digits ∧
      (∀ c ∈ digits, IsHexDigit c) ∧ digits.length ∈ [3, 4, 6, 8] := by
  refine ⟨?_, map_some_byteDigits, map_rgb_ofHex?_hexText, ?_, ?_, ?_⟩
  · intro r g b
    have hfull : ¬(1.0 : Float32) < 1.0 := by decide +kernel
    rw [hexText, if_neg hfull]
    simp [opaqueDigits]
  · intro r g b mark hmark text more htext hmore hcount
    exact map_rgb_ofHex? hmark htext hmore hcount
  · intro mark hmark digits hdigits hcount
    exact (ofHex?_doubled hmark hdigits hcount).symm
  · intro text
    exact isSome_ofHex?_iff

/-- Digits in both cases, without `#` and with two more, and three digits written twice. -/
theorem hex_reading_undoes_writing_mixed_case :
    lowerAscii "aB09Ff".toList = [0xab, 0x09, 0xff].flatMap byteDigits ∧
      (ofHex? ([] ++ ("aB09Ff".toList ++ "8D".toList))).map rgb = some (0xab, 0x09, 0xff) ∧
      ofHex? (['#'] ++ "Ab0".toList) = ofHex? (['#'] ++ doubled "Ab0".toList) := by
  have htext : lowerAscii "aB09Ff".toList = [0xab, 0x09, 0xff].flatMap byteDigits := by decide
  have hmore : "8D".toList.all (IsHexDigit ·) = true := by decide
  have hdigits : "Ab0".toList.all (IsHexDigit ·) = true := by decide
  simp only [List.all_eq_true, decide_eq_true_eq] at hmore hdigits
  obtain ⟨-, -, -, hread, hdoubled, -⟩ := hex_reading_undoes_writing
  exact ⟨htext, hread _ _ _ [] (by decide) _ _ htext hmore (by decide),
    hdoubled ['#'] (by decide) _ hdigits (by decide)⟩

end Color

end StyleVars
