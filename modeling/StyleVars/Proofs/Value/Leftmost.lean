import StyleVars.Proofs.Value.Occurrence

/-!
# Exactly the references

The references of a value are the occurrences of one form of text: `var(`, a name with blanks around
it, perhaps a comma with a text up to the next closing parenthesis, and that parenthesis. They are
found from left to right and do not overlap. This settles which occurrences are found: no occurrence
starts outside those that are, and no other list of occurrences has these properties.
-/

namespace StyleVars

namespace Excerpt

variable {e core part rest : Excerpt}

/-! ## Blanks at the ends -/

/-- What is left of `e` without the blanks at its ends, if anything is. -/
structure TrimOf (core e : Excerpt) : Prop where
  split : ∃ lead trail, e.chars = lead ++ (core.chars ++ trail) ∧
    core.start = e.start + byteSize lead ∧ (∀ c ∈ lead, isBlank c) ∧ ∀ c ∈ trail, isBlank c
  ne_nil : core.chars ≠ []
  head_visible : ∀ c ∈ core.chars.head?, isBlank c = false
  last_visible : ∀ c ∈ core.chars.getLast?, isBlank c = false

theorem isEmpty_trim_iff : e.trim.isEmpty ↔ ∀ c ∈ e.chars, isBlank c := by
  constructor
  · intro h
    exact forall_isBlank_of_trim (List.isEmpty_iff.mp h)
  · intro h
    have hdrop : e.chars.dropWhile isBlank = [] := List.dropWhile_eq_nil_iff.mpr h
    simp [trim, trimEnd, dropWhile, splitWhile, dropTrailing, isEmpty, hdrop]

theorem trimOf_trim (h : e.trim.chars ≠ []) : e.trim.TrimOf e := by
  let text := e.chars.dropWhile isBlank
  have hcore : e.trim.chars = dropTrailing isBlank text := rfl
  have htext : text = e.trim.chars ++ (text.reverse.takeWhile isBlank).reverse := by
    rw [hcore, dropTrailing, ← List.reverse_append, List.takeWhile_append_dropWhile,
      List.reverse_reverse]
  refine ⟨⟨e.chars.takeWhile isBlank, (text.reverse.takeWhile isBlank).reverse, ?_, rfl, ?_, ?_⟩,
    h, ?_, ?_⟩
  · rw [← htext]
    exact List.takeWhile_append_dropWhile.symm
  · exact List.all_eq_true.mp List.all_takeWhile
  · intro c hc
    exact List.all_eq_true.mp List.all_takeWhile c (List.mem_reverse.mp hc)
  · intro c hc
    obtain ⟨cs, hcs⟩ := List.head?_eq_some_iff.mp hc
    rw [hcs, List.cons_append] at htext
    exact dropWhile_head (e := e) htext
  · intro c hc
    rcases dropTrailing_eq isBlank text with hnil | ⟨init, d, hlast, hd⟩
    · exact absurd hnil h
    · rw [hcore, hlast, List.getLast?_concat] at hc
      cases hc
      exact hd

theorem TrimOf.trim_eq (h : core.TrimOf e) : e.trim = core := by
  obtain ⟨lead, trail, hchars, hstart, hlead, htrail⟩ := h.split
  have hdrop : e.dropWhile isBlank = ⟨core.start, core.chars ++ trail⟩ := by
    rw [dropWhile_of_append hchars hlead, hstart]
    rw [List.head?_append_of_ne_nil _ h.ne_nil]
    exact h.head_visible
  have hcut : dropTrailing isBlank (core.chars ++ trail) = core.chars := by
    have hblank : ∀ c ∈ trail.reverse, isBlank c := by simpa using htrail
    have hvisible : core.chars.reverse.dropWhile isBlank = core.chars.reverse := by
      have hhead := h.last_visible
      rw [← List.head?_reverse] at hhead
      cases hreverse : core.chars.reverse with
      | nil => rfl
      | cons c cs =>
        rw [hreverse] at hhead
        simp [hhead c rfl]
    rw [dropTrailing, List.reverse_append, List.dropWhile_append_of_pos hblank, hvisible,
      List.reverse_reverse]
  rw [trim, hdrop, trimEnd, hcut]

/-! ## Parts further on -/

/-- A part that does not start before the rest of a text is a part of that rest. -/
theorem PartOf.of_start_le (h : part.PartOf e) (hrest : rest.RestOf e)
    (hle : rest.start ≤ part.start) : part.PartOf rest := by
  obtain ⟨before, after, hchars, hstart⟩ := h
  obtain ⟨passed, hpassed, hstart'⟩ := hrest
  have hsize : byteSize passed ≤ byteSize before := by omega
  -- What stands before the rest is the beginning of what stands before the part.
  obtain ⟨more, rfl⟩ : passed <+: before := by
    have hbefore : before <+: e.chars := ⟨part.chars ++ after, by rw [hchars, List.append_assoc]⟩
    rcases List.prefix_or_prefix_of_prefix ⟨rest.chars, hpassed.symm⟩ hbefore with
      hshorter | ⟨more, rfl⟩
    · exact hshorter
    · rw [byteSize_append] at hsize
      have hnone : more = [] := byteSize_eq_zero (by omega)
      simp [hnone]
  refine ⟨more, after, ?_, ?_⟩
  · rw [hchars] at hpassed
    simp only [List.append_assoc] at hpassed
    simpa using (List.append_cancel_left hpassed).symm
  · rw [hstart, hstart', byteSize_append, Nat.add_assoc]

end Excerpt

/-! ## Occurrences -/

namespace Reference

/-- The reference stands in the value at its place and is written as the parts say. Its fallback is
what follows the comma without the blanks around it; there is none where there is no comma or
nothing but blanks after it. -/
structure WrittenAs (r : Reference) (p : Parts) (value : Excerpt) : Prop where
  partOf : r.source.PartOf value
  chars : r.source.chars = p.chars
  name : r.name = String.ofList p.name
  fallback_eq_none_iff : r.fallback = none ↔ ∀ body ∈ p.body, ∀ c ∈ body, isBlank c
  fallback {f : Excerpt} : r.fallback = some f →
    f.PartOf value ∧ ∃ body, p.body? r.source.start = some body ∧ f.TrimOf body

variable {r : Reference} {p : Parts} {value : Excerpt}

theorem Parts.fallback_eq_none_iff (p : Parts) (start : Nat) :
    (p.reference start).fallback = none ↔ ∀ body ∈ p.body, ∀ c ∈ body, isBlank c := by
  have hfallback : (p.reference start).fallback = (p.body? start).bind fun body =>
      if body.trim.isEmpty then none else some body.trim := rfl
  rw [hfallback, Parts.body?]
  cases p.body with
  | none => simp
  | some body =>
    simp only [Option.map_some, Option.bind_some, Option.mem_def, Option.some.injEq, forall_eq']
    rw [← Excerpt.isEmpty_trim_iff (e := ⟨_, body⟩)]
    split
    · rename_i hempty
      exact iff_of_true rfl hempty
    · rename_i hfull
      exact iff_of_false (by simp) hfull

theorem Parts.trimOf_fallback {start : Nat} {f : Excerpt}
    (h : (p.reference start).fallback = some f) :
    ∃ body, p.body? start = some body ∧ f.TrimOf body := by
  obtain ⟨body, hbody, hf⟩ := Option.bind_eq_some_iff.mp h
  split at hf
  · cases hf
  · rename_i hfull
    cases hf
    refine ⟨body, hbody, Excerpt.trimOf_trim ?_⟩
    simpa [Excerpt.isEmpty] using hfull

/-- Where the parts stand in the value, the reference that they make is written there. -/
theorem Parts.writtenAs_reference {start : Nat}
    (h : (⟨start, p.chars⟩ : Excerpt).PartOf value) : (p.reference start).WrittenAs p value where
  partOf := h
  chars := rfl
  name := rfl
  fallback_eq_none_iff := p.fallback_eq_none_iff start
  fallback hf := ⟨(p.firmIn_fallback start hf).partOf.trans h, Parts.trimOf_fallback hf⟩

/-- The parts and the place of a reference decide it. -/
theorem WrittenAs.eq_reference (h : r.WrittenAs p value) : r = p.reference r.source.start := by
  have hsource : r.source = (p.reference r.source.start).source := by
    rw [Parts.reference, ← h.chars]
  have hfallback : r.fallback = (p.reference r.source.start).fallback := by
    cases hr : r.fallback with
    | none => exact ((p.fallback_eq_none_iff _).mpr (h.fallback_eq_none_iff.mp hr)).symm
    | some f =>
      obtain ⟨-, body, hbody, hf⟩ := h.fallback hr
      have hfull : ¬f.isEmpty := by
        rw [Excerpt.isEmpty, List.isEmpty_iff]
        exact hf.ne_nil
      simp only [Parts.reference, hbody, Option.bind_some, hf.trim_eq, if_neg hfull]
  calc r = ⟨r.name, r.fallback, r.source⟩ := rfl
    _ = p.reference r.source.start := by rw [h.name, hfallback, hsource]; rfl

/-- A reference that does not start before the rest of a value is written in that rest. -/
theorem WrittenAs.of_restOf {rest : Excerpt} (h : r.WrittenAs p value) (hrest : rest.RestOf value)
    (hle : rest.start ≤ r.source.start) : r.WrittenAs p rest := by
  have hpart := h.partOf.of_start_le hrest hle
  have hr := h.eq_reference
  rw [hr] at hpart ⊢
  exact p.writtenAs_reference hpart

theorem Parts.start_lt_stop (p : Parts) (start : Nat) :
    start < (⟨start, p.chars⟩ : Excerpt).stop := by
  have hpos : 0 < byteSize p.chars := by
    simp only [Parts.chars, byteSize_append, byteSize_cons]
    have := (')' : Char).utf8Size_pos
    omega
  simp only [Excerpt.stop]
  omega

/-- A list of references is what is found in a value from left to right. -/
structure Leftmost (value : Excerpt) (rs : List Reference) : Prop where
  written : ∀ r ∈ rs, ∃ p : Parts, r.WrittenAs p value
  nonempty : ∀ r ∈ rs, r.source.start < r.source.stop
  ordered : rs.Pairwise fun r r' =>
    r.source.start < r'.source.start ∧ r.source.stop ≤ r'.source.start
  /-- Whatever is written as a reference starts in one of the list. -/
  covered : ∀ (p : Parts) (start : Nat), (⟨start, p.chars⟩ : Excerpt).PartOf value →
    ∃ r ∈ rs, r.source.start ≤ start ∧ start < r.source.stop

/-! ## What is found -/

variable {rs : List Reference} {rest : Excerpt} {start : Nat}

/-- Where no reference is read, none is written. -/
theorem start_ne_of_read?_eq_none (hread : read? value = none)
    (h : (⟨start, p.chars⟩ : Excerpt).PartOf value) : start ≠ value.start := by
  intro hstart
  obtain ⟨after, hafter⟩ := h.append_of_start hstart
  rw [read?_of_append hafter] at hread
  cases hread

/-- What does not start with a character starts after it. -/
theorem le_start_of_ne {part : Excerpt} {c : Char} {cs : List Char} (hchars : value.chars = c :: cs)
    (h : part.PartOf value) (hne : part.start ≠ value.start) :
    value.start + c.utf8Size ≤ part.start := by
  obtain ⟨before, after, hsplit, hstart⟩ := h
  cases before with
  | nil => exact absurd hstart hne
  | cons b before =>
    rw [hchars] at hsplit
    cases hsplit
    rw [hstart, byteSize_cons]
    omega

theorem covered_references (p : Parts) (start : Nat)
    (h : (⟨start, p.chars⟩ : Excerpt).PartOf value) :
    ∃ r ∈ value.references, r.source.start ≤ start ∧ start < r.source.stop := by
  fun_induction Excerpt.references value with
  | case1 value first rest hread _ ih =>
    obtain ⟨hrest, hsource⟩ := restOf_read? hread
    by_cases hlt : start < rest.start
    · refine ⟨first, List.mem_cons_self, ?_, ?_⟩
      · rw [hsource]
        exact h.start_le
      · rw [hsource, hrest.stop_upTo]
        exact hlt
    · obtain ⟨r, hr, hcovers⟩ := ih (h.of_start_le hrest (Nat.le_of_not_lt hlt))
      exact ⟨r, List.mem_cons_of_mem _ hr, hcovers⟩
  | case2 value hread hchars =>
    obtain ⟨before, after, hsplit, -⟩ := h
    simp [hchars, Parts.chars] at hsplit
  | case3 value hread c cs hchars _ ih =>
    have hle := le_start_of_ne hchars h (start_ne_of_read?_eq_none hread h)
    exact ih (h.of_start_le (Excerpt.restOf_cons hchars) hle)

theorem leftmost_references (value : Excerpt) : Leftmost value value.references := by
  have horder := inOrder_references value
  have hparts (r : Reference) (hr : r ∈ value.references) :
      ∃ p : Parts, r = p.reference r.source.start ∧ r.source = ⟨r.source.start, p.chars⟩ := by
    obtain ⟨p, hp⟩ := exists_parts_of_mem_references hr
    exact ⟨p, hp, congrArg source hp⟩
  have hnonempty (r : Reference) (hr : r ∈ value.references) : r.source.start < r.source.stop := by
    obtain ⟨p, -, hsource⟩ := hparts r hr
    rw [hsource]
    exact p.start_lt_stop r.source.start
  refine ⟨?_, hnonempty, ?_, covered_references⟩
  · intro r hr
    obtain ⟨p, hp, hsource⟩ := hparts r hr
    have hpart := horder.partOf hr
    rw [hsource] at hpart
    refine ⟨p, ?_⟩
    rw [hp]
    exact p.writtenAs_reference hpart
  · refine horder.ordered.imp_of_mem fun {r r'} hr _ hle => ?_
    have hlt := hnonempty r hr
    omega

namespace Leftmost

theorem start_le (h : Leftmost value rs) (hr : r ∈ rs) : value.start ≤ r.source.start := by
  obtain ⟨p, hp⟩ := h.written r hr
  exact hp.partOf.start_le

/-- A reference that is read at the start of the value is in the list. -/
theorem mem_of_read? (h : Leftmost value rs) (hread : read? value = some (r, rest)) : r ∈ rs := by
  obtain ⟨q, -, hsplit⟩ := read?_parts hread
  obtain ⟨found, hfound, hle, -⟩ := h.covered q value.start (Excerpt.partOf_of_append hsplit)
  obtain ⟨p, hp⟩ := h.written found hfound
  have hstart : found.source.start = value.start := Nat.le_antisymm hle (h.start_le hfound)
  obtain ⟨after, hafter⟩ := hp.partOf.append_of_start hstart
  rw [hp.chars] at hafter
  -- One reference at most is read at a place.
  have hsame := (read?_of_append hafter).symm.trans hread
  simp only [Option.some.injEq, Prod.mk.injEq] at hsame
  rwa [← hsame.1, ← hstart, ← hp.eq_reference]

/-- It comes first, and the others are those of what follows it. -/
theorem exists_cons (h : Leftmost value rs) (hread : read? value = some (r, rest)) :
    ∃ later, rs = r :: later ∧ Leftmost rest later := by
  obtain ⟨hrest, hsource⟩ := restOf_read? hread
  have hstop : r.source.stop = rest.start := by rw [hsource, hrest.stop_upTo]
  have hmem := h.mem_of_read? hread
  cases rs with
  | nil => cases hmem
  | cons first later =>
    obtain ⟨hafter, hordered⟩ := List.pairwise_cons.mp h.ordered
    have hfirst : r = first := by
      rcases List.mem_cons.mp hmem with hfirst | hlater
      · exact hfirst
      · have hlt := (hafter r hlater).1
        have hle := h.start_le (List.mem_cons_self : first ∈ first :: later)
        rw [hsource] at hlt
        exact absurd hlt (Nat.not_lt.mpr hle)
    subst hfirst
    refine ⟨later, rfl, ?_, ?_, hordered, ?_⟩
    · intro x hx
      obtain ⟨p, hp⟩ := h.written x (List.mem_cons_of_mem _ hx)
      exact ⟨p, hp.of_restOf hrest (hstop ▸ (hafter x hx).2)⟩
    · intro x hx
      exact h.nonempty x (List.mem_cons_of_mem _ hx)
    · intro p start hpart
      obtain ⟨x, hx, hcovers⟩ := h.covered p start (hpart.trans hrest.partOf)
      rcases List.mem_cons.mp hx with rfl | hlater
      · have hle : rest.start ≤ start := hpart.start_le
        omega
      · exact ⟨x, hlater, hcovers⟩

/-- A character where no reference is written may be left out. -/
theorem tail (h : Leftmost value rs) (hread : read? value = none) {c : Char} {cs : List Char}
    (hchars : value.chars = c :: cs) : Leftmost ⟨value.start + c.utf8Size, cs⟩ rs := by
  have hrest := Excerpt.restOf_cons hchars
  refine ⟨?_, h.nonempty, h.ordered, ?_⟩
  · intro r hr
    obtain ⟨p, hp⟩ := h.written r hr
    have hpart := hp.partOf
    rw [hp.eq_reference] at hpart
    have hne : r.source.start ≠ value.start := start_ne_of_read?_eq_none hread hpart
    exact ⟨p, hp.of_restOf hrest (le_start_of_ne hchars hp.partOf hne)⟩
  · intro p start hpart
    exact h.covered p start (hpart.trans hrest.partOf)

theorem references_eq (h : Leftmost value rs) : value.references = rs := by
  fun_induction Excerpt.references value generalizing rs with
  | case1 value first rest hread _ ih =>
    obtain ⟨later, rfl, hlater⟩ := h.exists_cons hread
    rw [ih hlater]
  | case2 value hread hchars =>
    cases rs with
    | nil => rfl
    | cons r later =>
      obtain ⟨p, hp⟩ := h.written r List.mem_cons_self
      obtain ⟨before, after, hsplit, -⟩ := hp.partOf
      simp [hchars, hp.chars, Parts.chars] at hsplit
  | case3 value hread c cs hchars _ ih => exact ih (h.tail hread hchars)

end Leftmost

end Reference

/-- The references of a value are exactly what is found in it from left to right: each is written in
the value as it says, they follow each other without overlaps, and nothing that is written as a
reference starts outside of them. No other list has these properties. -/
theorem Excerpt.references_eq_iff_leftmost (value : Excerpt) (rs : List Reference) :
    value.references = rs ↔ Reference.Leftmost value rs := by
  constructor
  · rintro rfl
    exact Reference.leftmost_references value
  · exact Reference.Leftmost.references_eq

example : ((Excerpt.ofString "var(var(--a)) var( --b , x(y) )").references.map fun r =>
    (r.source.start, r.name, r.fallback.map (·.text))) =
      [(4, "--a", none), (14, "--b", some "x(y")] := by
  decide +kernel

end StyleVars
