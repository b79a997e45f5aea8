import StyleVars.Proofs.Value.Division

/-!
# Tokens lose nothing

Which lists of parts are the tokens of a value is said without dividing it: what the tokens hold,
what is left between them, and where each begins and ends. A value has one such list only, since a
token of one list cannot begin in a gap of another, nor reach past the end of a token there. Dividing
the value gives it.
-/

namespace StyleVars

theorem eq_of_prefix_of_byteSize {xs ys : List Char} (h : xs <+: ys)
    (hsize : byteSize xs = byteSize ys) : xs = ys := by
  obtain ⟨more, rfl⟩ := h
  rw [byteSize_append] at hsize
  have hnone : more = [] := byteSize_eq_zero (by omega)
  rw [hnone, List.append_nil]

/-- What a text begins with is known by its size. -/
theorem eq_of_prefixes_of_byteSize {xs ys cs : List Char} (hxs : xs <+: cs) (hys : ys <+: cs)
    (hsize : byteSize xs = byteSize ys) : xs = ys := by
  rcases List.prefix_or_prefix_of_prefix hxs hys with h | h
  · exact eq_of_prefix_of_byteSize h hsize
  · exact (eq_of_prefix_of_byteSize h hsize.symm).symm

/-- A separator of tokens with this text before it: a blank or a comma outside quotes and
parentheses. -/
def SeparatesTokens (before : List Char) (c : Char) : Prop :=
  LeavesOpen before 0 ∧ (isBlank c ∨ c = ',')

theorem separatesTokens_iff {before : List Char} {c : Char} :
    SeparatesTokens before c ↔ (Nesting.top.after before).isTop ∧ dividesTokens c := by
  rw [SeparatesTokens, isTop_after_top_iff, dividesTokens, Bool.or_eq_true, beq_iff_eq]

theorem step_top_of_dividesTokens (c : Char) (h : dividesTokens c) :
    Nesting.top.step c = .top := by
  apply Nesting.step_plain
  intro hmem
  have hplain : ['"', '\'', '(', ')'].all (!dividesTokens ·) = true := by decide
  have hc := List.all_eq_true.mp hplain c hmem
  rw [h] at hc
  cases hc

namespace Excerpt

theorem start_lt_stop {e : Excerpt} (h : e.chars ≠ []) : e.start < e.stop := by
  rcases Nat.lt_or_ge e.start e.stop with hlt | hge
  · exact hlt
  · exact absurd (byteSize_eq_zero (by unfold stop at hge; omega)) h

/-- A part is known by its two ends. -/
theorem PartOf.eq_of_ends {e x y : Excerpt} (hx : x.PartOf e) (hy : y.PartOf e)
    (hstart : x.start = y.start) (hstop : x.stop = y.stop) : x = y := by
  obtain ⟨start, xs⟩ := x
  obtain ⟨_, ys⟩ := y
  obtain rfl : start = _ := hstart
  obtain ⟨before, after, hchars, hbefore⟩ := hx
  obtain ⟨before', after', hchars', hbefore'⟩ := hy
  rw [List.append_assoc] at hchars hchars'
  obtain rfl : before = before' :=
    eq_of_prefixes_of_byteSize ⟨_, hchars.symm⟩ ⟨_, hchars'.symm⟩
      (Nat.add_left_cancel (hbefore.symm.trans hbefore'))
  have hrest : xs ++ after = ys ++ after' := List.append_cancel_left (hchars.symm.trans hchars')
  obtain rfl : xs = ys :=
    eq_of_prefixes_of_byteSize ⟨after, rfl⟩ ⟨after', hrest.symm⟩ (Nat.add_left_cancel hstop)
  rfl

/-- The excerpts are the tokens of a value. They are parts of it in order, and none is empty. What
they leave out are separators, and closing parentheses without a partner; they hold no separator. No
token begins with a closing parenthesis, and each runs up to a separator or to the end. -/
structure AreTokens (e : Excerpt) (tokens : List Excerpt) : Prop where
  inOrder : InOrder id e tokens
  begun {t : Excerpt} : t ∈ tokens → ∃ c cs, t.chars = c :: cs ∧ c ≠ ')'
  ended {t : Excerpt} : t ∈ tokens → t.stop = e.stop ∨ ∃ before c after,
    e.chars = before ++ c :: after ∧ t.stop = e.start + byteSize before ∧ SeparatesTokens before c
  outside {before after : List Char} {c : Char} : e.chars = before ++ c :: after →
    (∀ t ∈ tokens, ¬t.Covers (e.start + byteSize before)) →
      SeparatesTokens before c ∨ c = ')' ∧ LeavesOpen before 0
  inside {before after : List Char} {c : Char} {t : Excerpt} : e.chars = before ++ c :: after →
    t ∈ tokens → t.Covers (e.start + byteSize before) → ¬SeparatesTokens before c

namespace AreTokens

variable {e s t u : Excerpt} {ts us : List Excerpt}

theorem partOf (h : e.AreTokens ts) (ht : t ∈ ts) : t.PartOf e := h.inOrder.partOf ht

theorem start_lt_stop (h : e.AreTokens ts) (ht : t ∈ ts) : t.start < t.stop := by
  obtain ⟨c, cs, hchars, -⟩ := h.begun ht
  exact Excerpt.start_lt_stop (by simp [hchars])

/-- Where a token begins, no other list of tokens has a gap. -/
theorem exists_covers (h : e.AreTokens ts) (h' : e.AreTokens us) (ht : t ∈ ts) :
    ∃ u ∈ us, u.Covers t.start := by
  by_contra hnone
  obtain ⟨c, cs, hcs, hc⟩ := h.begun ht
  obtain ⟨before, after, hchars, hstart⟩ := h.partOf ht
  have hsplit : e.chars = before ++ c :: (cs ++ after) := by simp [hchars, hcs]
  have hcovers : t.Covers (e.start + byteSize before) :=
    hstart ▸ ⟨Nat.le_refl _, h.start_lt_stop ht⟩
  rcases h'.outside hsplit (fun u hu hcover => hnone ⟨u, hu, hstart ▸ hcover⟩) with
    hseparates | ⟨hclose, -⟩
  · exact h.inside hsplit ht hcovers hseparates
  · exact hc hclose

/-- No token reaches past the end of one that it overlaps. -/
theorem not_covers_stop (h : e.AreTokens ts) (h' : e.AreTokens us) (ht : t ∈ ts) (hu : u ∈ us) :
    ¬u.Covers t.stop := by
  intro hcovers
  rcases h.ended ht with hstop | ⟨before, c, after, hchars, hstop, hseparates⟩
  · have hle := (h'.partOf hu).stop_le
    have hlt := hcovers.2
    omega
  · exact h'.inside hchars hu (hstop ▸ hcovers) hseparates

theorem start_le (h : e.AreTokens ts) (h' : e.AreTokens us) (ht : t ∈ ts) (hu : u ∈ us)
    (hcovers : u.Covers t.start) : t.start ≤ u.start := by
  by_contra hlt
  -- A token of the first list covers the start of `u`. It ends before `t` starts, so within `u`.
  obtain ⟨s, hs, hcover⟩ := h'.exists_covers h hu
  have hbefore : s.stop ≤ t.start := by
    rcases h.inOrder.eq_or_apart hs ht with rfl | hle | hle
    · exact absurd hcover.1 hlt
    · exact hle
    · have hst : t.stop ≤ s.start := hle
      have hpos := h.start_lt_stop ht
      have hstart := hcover.1
      omega
  exact h.not_covers_stop h' hs hu ⟨Nat.le_of_lt hcover.2, Nat.lt_of_le_of_lt hbefore hcovers.2⟩

theorem subset (h : e.AreTokens ts) (h' : e.AreTokens us) : ts ⊆ us := by
  intro t ht
  obtain ⟨u, hu, hcovers⟩ := h.exists_covers h' ht
  have hstart : t.start = u.start := Nat.le_antisymm (h.start_le h' ht hu hcovers) hcovers.1
  have hstop : t.stop = u.stop := by
    have hshort := h.not_covers_stop h' ht hu
    have hlong := h'.not_covers_stop h hu ht
    have ht' := t.start_le_stop
    have hu' := u.start_le_stop
    unfold Covers at hshort hlong
    omega
  rwa [(h.partOf ht).eq_of_ends (h'.partOf hu) hstart hstop]

theorem pairwise_start_lt (h : e.AreTokens ts) : ts.Pairwise fun s t => s.start < t.start :=
  h.inOrder.ordered.imp_of_mem fun hs _ hle => Nat.lt_of_lt_of_le (h.start_lt_stop hs) hle

theorem nodup (h : e.AreTokens ts) : ts.Nodup := by
  refine h.pairwise_start_lt.imp ?_
  rintro s _ hlt rfl
  exact Nat.lt_irrefl _ hlt

/-- A value has one list of tokens only. -/
theorem eq (h : e.AreTokens ts) (h' : e.AreTokens us) : ts = us := by
  have hperm : ts.Perm us := by
    apply (List.perm_ext_iff_of_nodup h.nodup h'.nodup).mpr
    intro t
    exact ⟨fun ht => h.subset h' ht, fun ht => h'.subset h ht⟩
  refine hperm.eq_of_pairwise ?_ h.pairwise_start_lt h'.pairwise_start_lt
  intro s t _ _ hst hts
  exact absurd hst (Nat.lt_asymm hts)

end AreTokens

/-! ## The tokens of a value -/

variable {e token : Excerpt} {before after : List Char} {c : Char}

theorem division_tokens (e : Excerpt) :
    Division dividesTokens .top e.start e.chars (e.splitTop dividesTokens) :=
  .splitTop_go dividesTokens .top e.start e.chars

theorem exists_piece_of_mem_tokens (h : token ∈ e.tokens) :
    ∃ piece ∈ e.splitTop dividesTokens, token = piece.dropWhile (· == ')') := by
  rw [tokens, List.mem_filter, List.mem_map] at h
  obtain ⟨⟨piece, hpiece, rfl⟩, -⟩ := h
  exact ⟨piece, hpiece, rfl⟩

theorem begun_of_mem_tokens (h : token ∈ e.tokens) : ∃ c cs, token.chars = c :: cs ∧ c ≠ ')' := by
  obtain ⟨piece, -, rfl⟩ := exists_piece_of_mem_tokens h
  obtain ⟨c, cs, hchars⟩ := List.exists_cons_of_ne_nil (mem_tokens h).2.1
  have hc := dropWhile_head hchars
  exact ⟨c, cs, hchars, by simpa using hc⟩

/-- A token has the end of its piece. -/
theorem ended_of_mem_tokens (h : token ∈ e.tokens) :
    token.stop = e.stop ∨ ∃ before c after, e.chars = before ++ c :: after ∧
      token.stop = e.start + byteSize before ∧ SeparatesTokens before c := by
  obtain ⟨piece, hpiece, rfl⟩ := exists_piece_of_mem_tokens h
  rw [(restOf_dropWhile _ piece).stop_eq]
  rcases e.division_tokens.ended step_top_of_dividesTokens piece hpiece with
    hstop | ⟨before, c, after, hchars, hstop, hcut⟩
  · exact .inl hstop
  · exact .inr ⟨before, c, after, hchars, hstop, separatesTokens_iff.mpr hcut⟩

/-- Where a piece holds a character, its token does too, unless only closing parentheses come up to
there. -/
theorem exists_token_covers {piece : Excerpt} {inner post : List Char} {d : Char}
    (hpiece : piece ∈ e.splitTop dividesTokens) (hchars : piece.chars = inner ++ c :: post)
    (hd : d ∈ inner ++ [c]) (hne : d ≠ ')') :
    ∃ t ∈ e.tokens, t.Covers (piece.start + byteSize inner) := by
  obtain ⟨lead, more, hsplit⟩ := List.append_of_mem hd
  have hlead : byteSize lead ≤ byteSize inner := by
    rcases List.prefix_concat_iff.mp ⟨d :: more, hsplit.symm⟩ with hall | ⟨rest, rfl⟩
    · simp [hall] at hsplit
    · rw [byteSize_append]
      exact Nat.le_add_right _ _
  have hwhole : piece.chars = lead ++ d :: (more ++ post) := by
    have hassoc : piece.chars = (inner ++ [c]) ++ post := by simp [hchars]
    simp [hassoc, hsplit]
  have hpart : (⟨piece.start + byteSize lead, d :: (more ++ post)⟩ : Excerpt).PartOf
      (piece.dropWhile (· == ')')) := by
    have hrest : (⟨piece.start + byteSize lead, d :: (more ++ post)⟩ : Excerpt).RestOf piece :=
      ⟨lead, hwhole, rfl⟩
    exact hrest.partOf.dropWhile rfl (beq_eq_false_iff_ne.mpr hne)
  refine ⟨_, List.mem_filter.mpr ⟨List.mem_map_of_mem hpiece, ?_⟩, ?_, ?_⟩
  · obtain ⟨before, after, hkept, -⟩ := hpart
    simp [isEmpty, hkept]
  · calc (piece.dropWhile (· == ')')).start ≤ piece.start + byteSize lead := hpart.start_le
      _ ≤ piece.start + byteSize inner := Nat.add_le_add_left hlead _
  · have hpos := c.utf8Size_pos
    rw [(restOf_dropWhile _ piece).stop_eq, stop, hchars, byteSize_append, byteSize_cons]
    omega

theorem areTokens_tokens (e : Excerpt) : e.AreTokens e.tokens where
  inOrder := inOrder_tokens e
  begun := begun_of_mem_tokens
  ended := ended_of_mem_tokens
  outside {before after c} hchars hnone := by
    rcases e.division_tokens.held_or_cut step_top_of_dividesTokens hchars with
      ⟨-, pre, inner, post, rfl, hpiece, hpre⟩ | ⟨htop, hc, -⟩
    · have hclosing : ∀ d ∈ inner ++ [c], d = ')' := by
        intro d hd
        by_contra hne
        obtain ⟨t, ht, hcovers⟩ := exists_token_covers hpiece rfl hd hne
        apply hnone t ht
        rwa [byteSize_append, ← Nat.add_assoc]
      obtain ⟨hinner, hc⟩ := List.forall_mem_append.mp hclosing
      have hstart : Nesting.top.after pre = .top := by
        rcases hpre with rfl | htop
        · rfl
        · exact Nesting.eq_top htop
      refine .inr ⟨hc c List.mem_cons_self, isTop_after_top_iff.mp ?_⟩
      rw [Nesting.after_append, hstart, Nesting.after_top_closing hinner]
      rfl
    · exact .inl (separatesTokens_iff.mpr ⟨htop, hc⟩)
  inside {before after c t} hchars ht hcovers hseparates := by
    obtain ⟨piece, hpiece, rfl⟩ := exists_piece_of_mem_tokens ht
    have hrest := restOf_dropWhile (· == ')') piece
    refine e.division_tokens.not_covers_cut step_top_of_dividesTokens hchars
      (separatesTokens_iff.mp hseparates) hpiece ⟨Nat.le_trans hrest.start_le hcovers.1, ?_⟩
    rw [← hrest.stop_eq]
    exact hcovers.2

/-- Dividing a value into tokens loses nothing. The tokens are non-empty parts of the value in
order, and each is what stands at its place in the text that the value is taken from. A character
between them is a blank or a comma outside quotes and parentheses, or a closing parenthesis without
a partner, and no token holds such a blank or comma. No other list of parts is like this. -/
theorem tokens_lose_nothing (e : Excerpt) :
    e.AreTokens e.tokens ∧ (∀ ts, e.AreTokens ts → ts = e.tokens) ∧
      ∀ text : List Char, e.PartOf ⟨0, text⟩ →
        ∀ t ∈ e.tokens, t.span.slice? (String.ofList text) = some t.text := by
  have htokens := areTokens_tokens e
  refine ⟨htokens, fun ts hts => hts.eq htokens, ?_⟩
  intro text hpart t ht
  exact ((htokens.partOf ht).trans hpart).slice?

/-- A blank between parentheses, one in a quote that is never closed, and a parenthesis that closes
nothing. -/
theorem tokens_lose_nothing_stray_closing :
    let text := "--a: b(1, 2) ) 'c d".toList
    let e : Excerpt := ⟨5, "b(1, 2) ) 'c d".toList⟩
    let ts : List Excerpt := [⟨5, "b(1, 2)".toList⟩, ⟨15, "'c d".toList⟩]
    e.PartOf ⟨0, text⟩ ∧ e.AreTokens ts ∧ ts = e.tokens ∧
      (⟨15, 19⟩ : Span).slice? (String.ofList text) = some "'c d" := by
  intro text e ts
  have hpart : e.PartOf ⟨0, text⟩ := ⟨"--a: ".toList, [], by decide, by decide⟩
  have hts : ts = e.tokens := by decide
  obtain ⟨htokens, hunique, hslices⟩ := tokens_lose_nothing e
  have hslice := hslices text hpart ⟨15, "'c d".toList⟩ (by decide)
  exact ⟨hpart, hts ▸ htokens, hunique ts (hts ▸ htokens), hslice⟩

end Excerpt

end StyleVars
