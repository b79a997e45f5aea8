import StyleVars.Proofs.Text.Edge
import StyleVars.Value.Token

/-!
# Tokens begin and end without blanks

A piece between separators holds no separator at the top, and what follows it is one, unless the
text ends there. So a token begins with a character that is not blank. It also ends with one, unless
it ends with the text: the last character stands at the top itself, or it leads back to the top, and
only a quote or a closing parenthesis does.
-/

namespace StyleVars

namespace Nesting

/-- The nesting after all the characters. -/
def after (n : Nesting) (cs : List Char) : Nesting := cs.foldl step n

theorem eq_top {n : Nesting} (h : n.isTop) : n = .top := by
  obtain ⟨quote, depth⟩ := n
  simp only [isTop, Bool.and_eq_true, Option.isNone_iff_eq_none, beq_iff_eq] at h
  rw [top, h.1, h.2]

/-- Closing parentheses without a partner change nothing. -/
theorem after_top_closing {cs : List Char} (h : ∀ c ∈ cs, c = ')') : top.after cs = .top := by
  induction cs with
  | nil => rfl
  | cons c cs ih =>
    rw [List.forall_mem_cons] at h
    rw [after, List.foldl_cons, h.1]
    exact ih h.2

/-- The open quote is no blank. -/
def QuoteVisible (n : Nesting) : Prop := ∀ q ∈ n.quote, isBlank q = false

theorem quoteVisible_top : top.QuoteVisible := fun _ hq => by cases hq

theorem QuoteVisible.step {n : Nesting} (h : n.QuoteVisible) (c : Char) :
    (n.step c).QuoteVisible := by
  intro q hq
  rw [Nesting.step] at hq
  split at hq
  · split at hq
    · cases hq
    · exact h q hq
  · rename_i hnone
    split at hq
    · rename_i hc
      cases hq
      rcases hc with rfl | rfl <;> decide
    · split at hq
      · cases hq
      · split at hq
        · cases hq
        · rw [hnone] at hq
          cases hq

theorem QuoteVisible.after {n : Nesting} (h : n.QuoteVisible) (cs : List Char) :
    (n.after cs).QuoteVisible := by
  induction cs generalizing n with
  | nil => exact h
  | cons c cs ih => exact ih (h.step c)

/-- A character that leads back to the top is no blank. -/
theorem QuoteVisible.of_isTop_step {n : Nesting} {c : Char} (h : n.QuoteVisible)
    (hn : n.isTop = false) (htop : (n.step c).isTop) : isBlank c = false := by
  rw [Nesting.step] at htop
  split at htop
  · rename_i q hquote
    split at htop
    · rename_i hc
      rw [hc]
      exact h q hquote
    · rw [hn] at htop
      cases htop
  · split at htop
    · cases htop
    · split at htop
      · rename_i hc
        rw [hc]
        decide
      · split at htop
        · rename_i hc
          rw [hc]
          decide
        · rw [hn] at htop
          cases htop

end Nesting

/-! ## Pieces -/

/-- A piece of a text that ends at `stop`: no separator stands in it at the top, and it ends with
the text or at the top. -/
structure IsPiece (isSeparator : Char → Bool) (stop : Nat) (n : Nesting) (piece : Excerpt) :
    Prop where
  undivided {before after : List Char} {c : Char} : piece.chars = before ++ c :: after →
    (n.after before).isTop → isSeparator c = false
  ended : piece.stop = stop ∨ (n.after piece.chars).isTop

namespace IsPiece

variable {isSeparator : Char → Bool} {stop start : Nat} {n : Nesting} {piece : Excerpt} {c : Char}

/-- Before a separator at the top a piece ends. -/
theorem nil (h : n.isTop) : IsPiece isSeparator stop n ⟨start, []⟩ where
  undivided hchars := by simp at hchars
  ended := .inr h

/-- A piece takes the character in front of it. -/
theorem cons (h : IsPiece isSeparator stop (n.step c) piece)
    (hstart : piece.start = start + c.utf8Size) (hc : n.isTop → isSeparator c = false) :
    IsPiece isSeparator stop n ⟨start, c :: piece.chars⟩ where
  undivided {before after d} hchars htop := by
    cases before with
    | nil =>
      obtain ⟨rfl, _⟩ := List.cons.inj hchars
      exact hc htop
    | cons b before =>
      obtain ⟨rfl, hrest⟩ := List.cons.inj hchars
      exact h.undivided hrest htop
  ended := by
    have hstop : (⟨start, c :: piece.chars⟩ : Excerpt).stop = piece.stop := by
      simp only [Excerpt.stop, byteSize_cons, hstart, Nat.add_assoc]
    rw [hstop]
    exact h.ended

/-- Closing parentheses at the start of a piece are no part of what it says. -/
theorem dropClosing (h : IsPiece isSeparator stop .top piece) :
    IsPiece isSeparator stop .top (piece.dropWhile (· == ')')) := by
  have hchars : piece.chars = piece.chars.takeWhile (· == ')') ++
      (piece.dropWhile (· == ')')).chars := List.takeWhile_append_dropWhile.symm
  have hafter (cs : List Char) :
      Nesting.top.after (piece.chars.takeWhile (· == ')') ++ cs) = Nesting.top.after cs := by
    have hclosing : Nesting.top.after (piece.chars.takeWhile (· == ')')) = .top :=
      Nesting.after_top_closing fun c hc =>
        eq_of_beq (List.all_eq_true.mp List.all_takeWhile c hc)
    rw [Nesting.after, List.foldl_append]
    exact congrArg (List.foldl Nesting.step · cs) hclosing
  constructor
  · intro before after c hsplit htop
    have hwhole : piece.chars = piece.chars.takeWhile (· == ')') ++ before ++ c :: after := by
      rw [List.append_assoc, ← hsplit]
      exact hchars
    refine h.undivided hwhole ?_
    rw [hafter]
    exact htop
  · rw [(Excerpt.restOf_dropWhile _ piece).stop_eq, ← hafter, ← hchars]
    exact h.ended

end IsPiece

namespace Excerpt

/-- The first piece begins where the text does, and each later one at the top. -/
theorem isPiece_splitTop_go (isSeparator : Char → Bool) (n : Nesting) (start : Nat)
    (cs : List Char) :
    ∃ first later, splitTop.go isSeparator n start cs = first :: later ∧ first.start = start ∧
      IsPiece isSeparator (start + byteSize cs) n first ∧
      ∀ piece ∈ later, IsPiece isSeparator (start + byteSize cs) .top piece := by
  induction cs generalizing n start with
  | nil =>
    refine ⟨⟨start, []⟩, [], rfl, rfl, ⟨fun hchars => ?_, .inl rfl⟩, fun piece hpiece => ?_⟩
    · simp at hchars
    · cases hpiece
  | cons c cs ih =>
    have hstop : start + byteSize (c :: cs) = start + c.utf8Size + byteSize cs := by
      rw [byteSize_cons, Nat.add_assoc]
    rw [splitTop.go, hstop]
    split
    · rename_i hseparator
      have htop := (Bool.and_eq_true_iff.mp hseparator).1
      obtain ⟨first, later, hgo, _, hfirst, hlater⟩ := ih n (start + c.utf8Size)
      rw [Nesting.eq_top htop] at hfirst hgo ⊢
      refine ⟨_, _, rfl, rfl, .nil rfl, ?_⟩
      rw [hgo, List.forall_mem_cons]
      exact ⟨hfirst, hlater⟩
    · rename_i hseparator
      obtain ⟨first, later, hgo, hstart, hfirst, hlater⟩ := ih (n.step c) (start + c.utf8Size)
      rw [hgo]
      refine ⟨_, _, rfl, rfl, hfirst.cons hstart fun htop => ?_, hlater⟩
      simpa [htop] using hseparator

theorem isPiece_splitTop {isSeparator : Char → Bool} {e piece : Excerpt}
    (h : piece ∈ e.splitTop isSeparator) : IsPiece isSeparator e.stop .top piece := by
  obtain ⟨first, later, hgo, _, hfirst, hlater⟩ :=
    isPiece_splitTop_go isSeparator .top e.start e.chars
  rw [splitTop, hgo] at h
  rcases List.mem_cons.mp h with rfl | hmem
  · exact hfirst
  · exact hlater piece hmem

/-! ## Tokens -/

variable {e token : Excerpt}

theorem isBlank_eq_false_of_not_dividesTokens {c : Char} (h : dividesTokens c = false) :
    isBlank c = false := (Bool.or_eq_false_iff.mp h).1

/-- A token is a part of the value, of which it is a piece at the top, and is never empty. -/
theorem mem_tokens (h : token ∈ e.tokens) :
    token.PartOf e ∧ token.chars ≠ [] ∧ IsPiece dividesTokens e.stop .top token := by
  rw [tokens, List.mem_filter, List.mem_map] at h
  obtain ⟨⟨piece, hpiece, rfl⟩, hne⟩ := h
  refine ⟨?_, ?_, (isPiece_splitTop hpiece).dropClosing⟩
  · exact (restOf_dropWhile _ piece).partOf.trans ((inOrder_splitTop _ e).partOf hpiece)
  · simpa [isEmpty] using hne

theorem firmIn_of_mem_tokens (h : token ∈ e.tokens) : token.FirmIn e := by
  obtain ⟨hpart, hne, hpiece⟩ := mem_tokens h
  refine ⟨hpart, ?_, ?_⟩
  · obtain ⟨c, cs, hchars⟩ := List.exists_cons_of_ne_nil hne
    have hc := hpiece.undivided (show token.chars = [] ++ c :: cs from hchars) rfl
    have hfirm := firm_start hchars (isBlank_eq_false_of_not_dividesTokens hc)
    exact .inl (hfirm.of_partOf hpart)
  · rcases hpiece.ended with hstop | htop
    · exact .inr hstop
    · have hchars := (List.dropLast_append_getLast hne).symm
      generalize token.chars.dropLast = init, token.chars.getLast hne = c at hchars
      have hc : isBlank c = false := by
        cases hinit : (Nesting.top.after init).isTop with
        | true => exact isBlank_eq_false_of_not_dividesTokens (hpiece.undivided hchars hinit)
        | false =>
          refine (Nesting.quoteVisible_top.after init).of_isTop_step hinit ?_
          rwa [hchars, Nesting.after, List.foldl_append] at htop
      exact .inl ((firm_stop hchars hc).of_partOf hpart)

end Excerpt

end StyleVars
