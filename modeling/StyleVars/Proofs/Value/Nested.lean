import Mathlib.Data.List.Pairwise
import StyleVars.Proofs.Sheet.Survey
import StyleVars.Proofs.Value.Leftmost
import StyleVars.Proofs.Value.Literal
import StyleVars.Proofs.Value.Token

/-!
# References stand within tokens

A reference is found by its text and ends at the first closing parenthesis, while tokens are cut
where quotes and parentheses are balanced. In a value without quotes the two agree. Whatever is open
before a reference, its own parenthesis is open from its start up to its end, so no blank and no
comma in it stands at the top. So a reference stands within one token, and a token that overlaps a
reference is no literal.
-/

namespace StyleVars

/-- One of the two ranges ends before the other starts, or where it starts. -/
def Span.Apart (s t : Span) : Prop := s.stop ≤ t.start ∨ t.stop ≤ s.start

instance (s t : Span) : Decidable (s.Apart t) := inferInstanceAs (Decidable (_ ∨ _))

theorem Span.Apart.symm {s t : Span} (h : s.Apart t) : t.Apart s := Or.symm h

/-- A range that is not empty is not apart from itself. -/
theorem Span.Apart.ne {s t : Span} (h : s.Apart t) (hlt : s.start < s.stop) : s ≠ t := by
  rintro rfl
  rcases h with hle | hle <;> exact absurd hle (Nat.not_le_of_gt hlt)

/-- Parts of excerpts that are apart are apart. -/
theorem Span.Apart.of_partOf {e e' part part' : Excerpt} (h : e.span.Apart e'.span)
    (hpart : part.PartOf e) (hpart' : part'.PartOf e') : part.span.Apart part'.span := by
  rcases h with hle | hle
  · left
    calc part.stop ≤ e.stop := hpart.stop_le
      _ ≤ e'.start := hle
      _ ≤ part'.start := hpart'.start_le
  · right
    calc part'.stop ≤ e'.stop := hpart'.stop_le
      _ ≤ e.start := hle
      _ ≤ part.start := hpart.start_le

instance {α : Type} (place : α → Excerpt) :
    Std.Symm fun x y => (place x).span.Apart (place y).span :=
  ⟨fun _ _ => Span.Apart.symm⟩

/-- Of parts in order, any two are the same or apart. -/
theorem InOrder.eq_or_apart {α : Type} {place : α → Excerpt} {e : Excerpt} {xs : List α} {x y : α}
    (h : InOrder place e xs) (hx : x ∈ xs) (hy : y ∈ xs) :
    x = y ∨ (place x).span.Apart (place y).span := by
  have hapart : xs.Pairwise fun x y => (place x).span.Apart (place y).span :=
    h.ordered.imp Or.inl
  by_cases hxy : x = y
  · exact .inl hxy
  · exact .inr (hapart.forall hx hy hxy)

/-! ## Texts without quotes -/

/-- The text holds no quote. -/
def Unquoted (cs : List Char) : Prop := '"' ∉ cs ∧ '\'' ∉ cs

instance (cs : List Char) : Decidable (Unquoted cs) := inferInstanceAs (Decidable (_ ∧ _))

theorem Unquoted.subset {cs part : List Char} (h : Unquoted cs) (hsub : part ⊆ cs) :
    Unquoted part :=
  ⟨fun hc => h.1 (hsub hc), fun hc => h.2 (hsub hc)⟩

theorem unquoted_cons {c : Char} {cs : List Char} :
    Unquoted (c :: cs) ↔ (c ≠ '"' ∧ c ≠ '\'') ∧ Unquoted cs := by
  simp only [Unquoted, List.mem_cons, not_or, ne_comm (a := c)]
  tauto

namespace Nesting

variable {n : Nesting} {c : Char} {cs : List Char}

/-- A character that is no quote opens no quote, and only a closing parenthesis closes anything. -/
theorem step_of_ne_quote (hn : n.quote = none) (hc : c ≠ '"' ∧ c ≠ '\'') :
    (n.step c).quote = none ∧ (c ≠ ')' → n.depth ≤ (n.step c).depth) := by
  have hquote : ¬(c = '"' ∨ c = '\'') := by simpa using hc
  rw [step, hn]
  simp only [if_neg hquote]
  split
  · exact ⟨rfl, fun _ => Nat.le_succ _⟩
  · split
    · exact ⟨rfl, fun hne => absurd ‹_› hne⟩
    · exact ⟨hn, fun _ => Nat.le_refl _⟩

theorem after_of_unquoted (hn : n.quote = none) (hcs : Unquoted cs) :
    (n.after cs).quote = none ∧ (')' ∉ cs → n.depth ≤ (n.after cs).depth) := by
  induction cs generalizing n with
  | nil => exact ⟨hn, fun _ => Nat.le_refl _⟩
  | cons c cs ih =>
    obtain ⟨hc, hcs⟩ := unquoted_cons.mp hcs
    obtain ⟨hquote, hstep⟩ := step_of_ne_quote hn hc
    obtain ⟨hafter, hrun⟩ := ih hquote hcs
    refine ⟨hafter, fun hclose => ?_⟩
    obtain ⟨hne, hlater⟩ := List.ne_and_not_mem_of_not_mem_cons hclose
    exact Nat.le_trans (hstep hne.symm) (hrun hlater)

end Nesting

/-! ## Undivided stretches -/

/-- No separator stands at the top in the text, with the nesting `n` before it. -/
def Undivided (isSeparator : Char → Bool) (n : Nesting) (cs : List Char) : Prop :=
  ∀ ⦃before : List Char⦄ ⦃c : Char⦄ ⦃after : List Char⦄, cs = before ++ c :: after →
    (n.after before).isTop → isSeparator c = false

namespace Undivided

variable {isSeparator : Char → Bool} {n : Nesting} {c : Char} {cs before : List Char}

theorem cons (hc : n.isTop → isSeparator c = false) (h : Undivided isSeparator (n.step c) cs) :
    Undivided isSeparator n (c :: cs) := by
  intro before d after hcs htop
  cases before with
  | nil =>
    obtain ⟨rfl, -⟩ := List.cons.inj hcs
    exact hc htop
  | cons b before =>
    obtain ⟨rfl, hrest⟩ := List.cons.inj hcs
    exact h hrest htop

theorem tail (h : Undivided isSeparator n (c :: cs)) : Undivided isSeparator (n.step c) cs := by
  intro before d after hcs htop
  have hwhole : c :: cs = (c :: before) ++ d :: after := congrArg (c :: ·) hcs
  exact h hwhole htop

/-- Up to the closing parenthesis nothing stands at the top. -/
theorem of_open (hn : n.quote = none) (hdepth : 0 < n.depth) (hcs : Unquoted cs)
    (hclose : ')' ∉ cs) : Undivided isSeparator n (cs ++ [')']) := by
  intro before d after hsplit htop
  have hwithin : before <+: cs := by
    rcases List.prefix_concat_iff.mp ⟨d :: after, hsplit.symm⟩ with hall | hwithin
    · simp [hall] at hsplit
    · exact hwithin
  obtain ⟨-, hrun⟩ := Nesting.after_of_unquoted hn (hcs.subset hwithin.subset)
  have hle := hrun fun hmem => hclose (hwithin.subset hmem)
  rw [Nesting.eq_top htop] at hle
  exact absurd hle (Nat.not_le_of_gt hdepth)

/-- The first piece begins with all of an undivided stretch at the start. -/
theorem exists_first_piece (h : Undivided isSeparator n cs) (start : Nat) (rest : List Char) :
    ∃ more later,
      Excerpt.splitTop.go isSeparator n start (cs ++ rest) = ⟨start, cs ++ more⟩ :: later := by
  induction cs generalizing n start with
  | nil =>
    obtain ⟨⟨_, more⟩, later, hgo, rfl, -⟩ :=
      Excerpt.isPiece_splitTop_go isSeparator n start rest
    exact ⟨more, later, hgo⟩
  | cons c cs ih =>
    obtain ⟨more, later, hgo⟩ := ih h.tail (start + c.utf8Size)
    have hkept : ¬(n.isTop && isSeparator c) := by
      intro hcut
      obtain ⟨htop, hseparator⟩ := Bool.and_eq_true_iff.mp hcut
      have hplain := h (show c :: cs = [] ++ c :: cs from rfl) htop
      rw [hplain] at hseparator
      cases hseparator
    refine ⟨more, later, ?_⟩
    rw [List.cons_append, Excerpt.splitTop.go, if_neg hkept, hgo]
    rfl

/-- A stretch that is undivided wherever no quote is open stands within one piece. -/
theorem exists_piece (h : ∀ n : Nesting, n.quote = none → Undivided isSeparator n cs)
    (hn : n.quote = none) (hbefore : Unquoted before) (start : Nat) (rest : List Char) :
    ∃ piece ∈ Excerpt.splitTop.go isSeparator n start (before ++ (cs ++ rest)),
      (⟨start + byteSize before, cs⟩ : Excerpt).PartOf piece := by
  induction before generalizing n start with
  | nil =>
    obtain ⟨more, later, hgo⟩ := (h n hn).exists_first_piece start rest
    refine ⟨⟨start, cs ++ more⟩, ?_, [], more, rfl, rfl⟩
    rw [List.nil_append, hgo]
    exact List.mem_cons_self
  | cons c before ih =>
    obtain ⟨hc, hbefore⟩ := unquoted_cons.mp hbefore
    rw [List.cons_append, Excerpt.splitTop.go, byteSize_cons, ← Nat.add_assoc]
    split
    · obtain ⟨piece, hpiece, hpart⟩ := ih hn hbefore (start + c.utf8Size)
      exact ⟨piece, List.mem_cons_of_mem _ hpiece, hpart⟩
    · -- The first piece takes the character in front, and the later ones stay as they are.
      have hquote := (Nesting.step_of_ne_quote hn hc).1
      obtain ⟨first, later, hgo, hstart, -⟩ := Excerpt.isPiece_splitTop_go isSeparator
        (n.step c) (start + c.utf8Size) (before ++ (cs ++ rest))
      obtain ⟨piece, hpiece, hpart⟩ := ih hquote hbefore (start + c.utf8Size)
      rw [hgo] at hpiece ⊢
      rcases List.mem_cons.mp hpiece with rfl | hmem
      · refine ⟨_, List.mem_cons_self, hpart.trans (Excerpt.RestOf.partOf ?_)⟩
        exact ⟨[c], rfl, by simp [hstart]⟩
      · exact ⟨piece, List.mem_cons_of_mem _ hmem, hpart⟩

end Undivided

/-! ## References -/

namespace Reference

namespace Parts

variable (p : Parts)

theorem chars_eq : p.chars = Literal.opening ++ (p.inner ++ [')']) := by
  simp [chars, opening, inner, Literal.opening]

theorem close_notMem_inner : ')' ∉ p.inner := by
  intro hmem
  apply p.close_notMem
  simp only [inner, List.mem_append] at hmem
  simp only [opening, List.mem_append]
  tauto

/-- The parenthesis of a reference is open up to its end, whatever is open before it. -/
theorem undivided {n : Nesting} (hn : n.quote = none) (hp : Unquoted p.chars) :
    Undivided dividesTokens n p.chars := by
  have hinner : Unquoted p.inner := by
    apply hp.subset
    rw [p.chars_eq]
    exact fun c hc => List.mem_append_right _ (List.mem_append_left _ hc)
  rw [p.chars_eq]
  apply Undivided.cons fun _ => by decide
  apply Undivided.cons fun _ => by decide
  apply Undivided.cons fun _ => by decide
  apply Undivided.cons fun _ => by decide
  obtain ⟨quote, depth⟩ := n
  cases hn
  exact .of_open rfl (Nat.succ_pos depth) hinner p.close_notMem_inner

end Parts

variable {e f : Excerpt} {r : Reference}

theorem opening_prefix_of_mem_references (h : r ∈ e.references) :
    Literal.opening <+: r.source.chars := by
  obtain ⟨p, hp⟩ := exists_parts_of_mem_references h
  rw [hp]
  exact ⟨p.inner ++ [')'], p.chars_eq.symm⟩

theorem partOf_fallback_of_mem_references (h : r ∈ e.references) (hf : r.fallback = some f) :
    f.PartOf r.source := by
  obtain ⟨p, hp⟩ := exists_parts_of_mem_references h
  rw [hp] at hf ⊢
  exact (p.firmIn_fallback _ hf).partOf

theorem exists_piece_of_mem_references (h : r ∈ e.references) (he : Unquoted e.chars) :
    ∃ piece ∈ e.splitTop dividesTokens, r.source.PartOf piece := by
  obtain ⟨before, after, hchars, hstart⟩ := (inOrder_references e).partOf h
  obtain ⟨p, hp⟩ := exists_parts_of_mem_references h
  have hsource : r.source = ⟨e.start + byteSize before, p.chars⟩ := by
    rw [hp, ← hstart]
    rfl
  rw [hsource, List.append_assoc] at hchars
  have hbefore : Unquoted before :=
    he.subset fun c hc => hchars ▸ List.mem_append_left _ hc
  have hparts : Unquoted p.chars :=
    he.subset fun c hc => hchars ▸ List.mem_append_right _ (List.mem_append_left _ hc)
  rw [hsource, Excerpt.splitTop, hchars]
  exact Undivided.exists_piece (fun n hn => p.undivided hn hparts) rfl hbefore e.start after

end Reference

/-! ## Tokens -/

namespace Excerpt

variable {e part token : Excerpt} {r : Reference}

/-- A part that begins with a character that is kept is a part of what is kept. -/
theorem PartOf.dropWhile {p : Char → Bool} {c : Char} {cs : List Char} (h : part.PartOf e)
    (hchars : part.chars = c :: cs) (hc : p c = false) : part.PartOf (e.dropWhile p) := by
  apply h.of_start_le (restOf_dropWhile p e)
  obtain ⟨before, after, hsplit, hstart⟩ := h
  have htaken : e.chars.takeWhile p <+: before := by
    rw [hsplit, hchars, List.append_assoc, List.takeWhile_append]
    split
    · simp [hc]
    · exact List.takeWhile_prefix p
  obtain ⟨more, hmore⟩ := htaken
  calc (e.dropWhile p).start = e.start + byteSize (e.chars.takeWhile p) := rfl
    _ ≤ e.start + byteSize before := by
      rw [← hmore, byteSize_append]
      omega
    _ = part.start := hstart.symm

/-- In a value without quotes a reference stands within one token. -/
theorem exists_token_of_mem_references (h : r ∈ e.references) (he : Unquoted e.chars) :
    ∃ token ∈ e.tokens, r.source.PartOf token := by
  obtain ⟨piece, hpiece, hpart⟩ := Reference.exists_piece_of_mem_references h he
  obtain ⟨rest, hopening⟩ := Reference.opening_prefix_of_mem_references h
  have hkept : r.source.PartOf (piece.dropWhile (· == ')')) :=
    hpart.dropWhile hopening.symm (by decide)
  refine ⟨_, List.mem_filter.mpr ⟨List.mem_map_of_mem hpiece, ?_⟩, hkept⟩
  obtain ⟨before, after, hchars, -⟩ := hkept
  simp [isEmpty, hchars, ← hopening, Literal.opening]

theorem isLiteral_eq_false_of_partOf (h : r ∈ e.references) (hpart : r.source.PartOf part) :
    isLiteral part.chars = false := by
  apply Literal.isLiteral_eq_false_of_infix
  obtain ⟨before, after, hchars, -⟩ := hpart
  exact (Reference.opening_prefix_of_mem_references h).isInfix.trans ⟨before, after, hchars.symm⟩

/-- A token that is a literal overlaps no reference. -/
theorem apart_of_isLiteral (h : r ∈ e.references) (he : Unquoted e.chars)
    (htoken : token ∈ e.tokens) (hliteral : isLiteral token.chars) :
    token.span.Apart r.source.span := by
  obtain ⟨holder, hholder, hpart⟩ := exists_token_of_mem_references h he
  rcases (inOrder_tokens e).eq_or_apart htoken hholder with rfl | hapart
  · rw [isLiteral_eq_false_of_partOf h hpart] at hliteral
    cases hliteral
  · exact hapart.of_partOf (RestOf.refl token).partOf hpart

end Excerpt

end StyleVars
