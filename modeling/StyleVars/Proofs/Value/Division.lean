import StyleVars.Proofs.Value.Nested

/-!
# Dividing a text

A text is divided at the separators that stand outside quotes and parentheses. What is open at a
place is told by the text before it alone: the nesting that is kept while reading agrees with that
account. A divided text has one piece before each of those separators and one after the last, and
every character is held by one piece or is such a separator.
-/

namespace StyleVars

/-! ## Quotes and parentheses -/

/-- After the text no quote is open, and so many parentheses are. Quotes stand in pairs with none of
their kind between, parentheses between quotes do not count, and a closing parenthesis without a
partner closes nothing. -/
inductive LeavesOpen : List Char → Nat → Prop where
  | nil : LeavesOpen [] 0
  | plain {cs : List Char} {depth : Nat} {c : Char} : LeavesOpen cs depth →
      c ∉ ['"', '\'', '(', ')'] → LeavesOpen (cs ++ [c]) depth
  | opening {cs : List Char} {depth : Nat} : LeavesOpen cs depth →
      LeavesOpen (cs ++ ['(']) (depth + 1)
  | closing {cs : List Char} {depth : Nat} : LeavesOpen cs depth →
      LeavesOpen (cs ++ [')']) (depth - 1)
  | quoted {cs inner : List Char} {depth : Nat} {q : Char} : LeavesOpen cs depth →
      q ∈ ['"', '\''] → q ∉ inner → LeavesOpen (cs ++ q :: (inner ++ [q])) depth

namespace Nesting

variable {n : Nesting} {cs before : List Char} {c q : Char} {depth : Nat}

theorem after_append (n : Nesting) (cs later : List Char) :
    n.after (cs ++ later) = (n.after cs).after later := List.foldl_append

theorem step_quote (h : q ∈ ['"', '\'']) (depth : Nat) :
    step ⟨none, depth⟩ q = ⟨some q, depth⟩ := by
  rcases List.mem_pair.mp h with rfl | rfl <;> rfl

theorem step_plain (h : c ∉ ['"', '\'', '(', ')']) (depth : Nat) :
    step ⟨none, depth⟩ c = ⟨none, depth⟩ := by
  simp only [List.mem_cons, List.not_mem_nil, or_false, not_or] at h
  simp [step, h]

/-- Within a quote nothing counts but its end. -/
theorem after_inner (h : q ∉ cs) (depth : Nat) : after ⟨some q, depth⟩ cs = ⟨some q, depth⟩ := by
  induction cs with
  | nil => rfl
  | cons c cs ih =>
    obtain ⟨hc, hcs⟩ := List.ne_and_not_mem_of_not_mem_cons h
    have hstep : step ⟨some q, depth⟩ c = ⟨some q, depth⟩ := if_neg hc.symm
    rw [after, List.foldl_cons, hstep]
    exact ih hcs

end Nesting

theorem LeavesOpen.after_top {cs : List Char} {depth : Nat} (h : LeavesOpen cs depth) :
    Nesting.top.after cs = ⟨none, depth⟩ := by
  induction h with
  | nil => rfl
  | plain _ hc ih =>
    rw [Nesting.after_append, ih]
    exact Nesting.step_plain hc _
  | opening _ ih =>
    rw [Nesting.after_append, ih]
    rfl
  | closing _ ih =>
    rw [Nesting.after_append, ih]
    rfl
  | @quoted cs inner depth q _ hq hinner ih =>
    have hopen : Nesting.after ⟨none, depth⟩ (q :: (inner ++ [q])) =
        Nesting.after ⟨some q, depth⟩ (inner ++ [q]) :=
      congrArg (Nesting.after · (inner ++ [q])) (Nesting.step_quote hq depth)
    rw [Nesting.after_append, ih, hopen, Nesting.after_append, Nesting.after_inner hinner]
    exact if_pos rfl

/-- What the nesting says is what the text leaves open. An open quote stands after a text that
leaves only parentheses open. -/
def Nesting.Describes (cs : List Char) : Nesting → Prop
  | ⟨none, depth⟩ => LeavesOpen cs depth
  | ⟨some q, depth⟩ => q ∈ ['"', '\''] ∧ ∃ before inner, cs = before ++ q :: inner ∧ q ∉ inner ∧
      LeavesOpen before depth

theorem Nesting.Describes.step {cs : List Char} {n : Nesting} (h : n.Describes cs) (c : Char) :
    (n.step c).Describes (cs ++ [c]) := by
  obtain ⟨_ | q, depth⟩ := n
  · by_cases hquote : c ∈ ['"', '\'']
    · rw [step_quote hquote]
      exact ⟨hquote, cs, [], rfl, List.not_mem_nil, h⟩
    · by_cases hopen : c = '('
      · subst hopen
        exact .opening h
      · by_cases hclose : c = ')'
        · subst hclose
          exact .closing h
        · have hplain : c ∉ ['"', '\'', '(', ')'] := by
            simp only [List.mem_cons, List.not_mem_nil, or_false, not_or] at hquote ⊢
            exact ⟨hquote.1, hquote.2, hopen, hclose⟩
          rw [step_plain hplain]
          exact .plain h hplain
  · obtain ⟨hquote, before, inner, rfl, hinner, hbefore⟩ := h
    by_cases hc : c = q
    · have hstep : Nesting.step ⟨some q, depth⟩ c = ⟨none, depth⟩ := if_pos hc
      rw [hstep, hc, List.append_assoc]
      exact .quoted hbefore hquote hinner
    · have hstep : Nesting.step ⟨some q, depth⟩ c = ⟨some q, depth⟩ := if_neg hc
      rw [hstep, List.append_assoc]
      refine ⟨hquote, before, inner ++ [c], rfl, ?_, hbefore⟩
      simpa [hinner] using Ne.symm hc

theorem Nesting.describes_after_top (cs : List Char) : (top.after cs).Describes cs := by
  induction cs using List.reverseRecOn with
  | nil => exact .nil
  | append_singleton cs c ih =>
    rw [after_append]
    exact ih.step c

/-- A place stands at the top when no quote and no parenthesis is open before it. -/
theorem isTop_after_top_iff {cs : List Char} : (Nesting.top.after cs).isTop ↔ LeavesOpen cs 0 := by
  constructor
  · intro h
    have hdescribes := Nesting.describes_after_top cs
    rw [Nesting.eq_top h] at hdescribes
    exact hdescribes
  · intro h
    rw [h.after_top]
    rfl

/-! ## Divisions -/

namespace Excerpt

/-- The character at the offset is one of the excerpt. -/
def Covers (e : Excerpt) (offset : Nat) : Prop := e.start ≤ offset ∧ offset < e.stop

instance (e : Excerpt) (offset : Nat) : Decidable (e.Covers offset) :=
  inferInstanceAs (Decidable (_ ∧ _))

theorem start_le_stop (e : Excerpt) : e.start ≤ e.stop := Nat.le_add_right _ _

end Excerpt

/-- Where the text after a character ends. -/
theorem byteSize_append_cons (start : Nat) (cs later : List Char) (c : Char) :
    start + byteSize (cs ++ c :: later) = start + byteSize cs + c.utf8Size + byteSize later := by
  rw [byteSize_append, byteSize_cons]
  omega

/-- A character of a divided text stands before the divider, or is it, or stands after it. -/
theorem append_cons_cases {cs rest before after : List Char} {d c : Char}
    (h : cs ++ d :: rest = before ++ c :: after) :
    (∃ post, cs = before ++ c :: post) ∨ (cs = before ∧ d = c ∧ rest = after) ∨
      ∃ between, before = cs ++ d :: between ∧ rest = between ++ c :: after := by
  rcases List.append_eq_append_iff.mp h with ⟨between, rfl, hrest⟩ | ⟨post, rfl, hafter⟩
  · cases between with
    | nil =>
      obtain ⟨rfl, rfl⟩ := List.cons.inj hrest
      exact .inr (.inl ⟨(List.append_nil cs).symm, rfl, rfl⟩)
    | cons d' between =>
      obtain ⟨rfl, rfl⟩ := List.cons.inj hrest
      exact .inr (.inr ⟨between, rfl, rfl⟩)
  · cases post with
    | nil =>
      obtain ⟨rfl, rfl⟩ := List.cons.inj hafter
      exact .inr (.inl ⟨List.append_nil before, rfl, rfl⟩)
    | cons c' post =>
      obtain ⟨rfl, -⟩ := List.cons.inj hafter
      exact .inl ⟨post, rfl⟩

/-- The pieces of a text that starts at `start`, with the nesting `n` before it. Each piece but the
last is followed by a separator at the top, and none holds one. -/
inductive Division (isSeparator : Char → Bool) :
    Nesting → Nat → List Char → List Excerpt → Prop where
  | whole {n : Nesting} {start : Nat} {cs : List Char} : Undivided isSeparator n cs →
      Division isSeparator n start cs [⟨start, cs⟩]
  | cut {n : Nesting} {start : Nat} {cs rest : List Char} {c : Char} {pieces : List Excerpt} :
      Undivided isSeparator n cs → (n.after cs).isTop → isSeparator c →
      Division isSeparator .top (start + byteSize cs + c.utf8Size) rest pieces →
      Division isSeparator n start (cs ++ c :: rest) (⟨start, cs⟩ :: pieces)

namespace Division

variable {isSeparator : Char → Bool} {n : Nesting} {start : Nat} {cs before after : List Char}
  {c : Char} {pieces : List Excerpt}

/-- The first piece takes a character in front of it. -/
theorem cons {first : Excerpt} {later : List Excerpt}
    (h : Division isSeparator (n.step c) (start + c.utf8Size) cs (first :: later))
    (hc : n.isTop → isSeparator c = false) :
    Division isSeparator n start (c :: cs) (⟨start, c :: first.chars⟩ :: later) := by
  cases h with
  | whole hcs => exact .whole (.cons hc hcs)
  | @cut _ _ cs rest d _ hcs htop hd hlater =>
    rw [Nat.add_assoc start, ← byteSize_cons] at hlater
    exact (Division.cut (hcs.cons hc) htop hd hlater :
      Division isSeparator n start ((c :: cs) ++ d :: rest) _)

theorem splitTop_go (isSeparator : Char → Bool) (n : Nesting) (start : Nat) (cs : List Char) :
    Division isSeparator n start cs (Excerpt.splitTop.go isSeparator n start cs) := by
  have hnil (n : Nesting) : Undivided isSeparator n [] := fun before d after hcs => by simp at hcs
  induction cs generalizing n start with
  | nil => exact .whole (hnil n)
  | cons c cs ih =>
    rw [Excerpt.splitTop.go]
    split
    · rename_i hcut
      obtain ⟨htop, hc⟩ := Bool.and_eq_true_iff.mp hcut
      obtain rfl := Nesting.eq_top htop
      exact .cut (hnil _) rfl hc (ih .top _)
    · rename_i hkept
      have hrest := ih (n.step c) (start + c.utf8Size)
      cases hgo : Excerpt.splitTop.go isSeparator (n.step c) (start + c.utf8Size) cs with
      | nil =>
        rw [hgo] at hrest
        cases hrest
      | cons first later =>
        rw [hgo] at hrest
        refine hrest.cons fun htop => ?_
        simpa [htop] using hkept

/-- Pieces stand within the text, with a gap between any two. -/
theorem within (h : Division isSeparator n start cs pieces) :
    (∀ piece ∈ pieces, start ≤ piece.start ∧ piece.stop ≤ start + byteSize cs) ∧
      pieces.Pairwise fun x y => x.stop < y.start := by
  induction h with
  | whole _ => exact ⟨by simp [Excerpt.stop], List.pairwise_singleton _ _⟩
  | @cut n start cs rest c pieces _ _ _ _ ih =>
    obtain ⟨hwithin, hordered⟩ := ih
    have hstop : (⟨start, cs⟩ : Excerpt).stop = start + byteSize cs := rfl
    have hc := c.utf8Size_pos
    rw [byteSize_append_cons]
    constructor
    · refine List.forall_mem_cons.mpr ⟨⟨Nat.le_refl start, by omega⟩, fun piece hpiece => ?_⟩
      have hpiece := hwithin piece hpiece
      omega
    · refine List.pairwise_cons.mpr ⟨fun piece hpiece => ?_, hordered⟩
      have hpiece := hwithin piece hpiece
      omega

/-- The first piece begins with the text. -/
theorem exists_first (h : Division isSeparator n start cs pieces) :
    ∃ first ∈ pieces, first.start = start := by
  cases h with
  | whole _ => exact ⟨_, List.mem_cons_self, rfl⟩
  | cut _ _ _ _ => exact ⟨_, List.mem_cons_self, rfl⟩

/-- The last piece ends with the text. -/
theorem exists_last (h : Division isSeparator n start cs pieces) :
    ∃ init last, pieces = init ++ [last] ∧ last.stop = start + byteSize cs := by
  induction h with
  | whole _ => exact ⟨[], _, rfl, rfl⟩
  | @cut n start cs rest c pieces _ _ _ _ ih =>
    obtain ⟨init, last, rfl, hstop⟩ := ih
    refine ⟨⟨start, cs⟩ :: init, last, rfl, ?_⟩
    rw [hstop, byteSize_append_cons]

section Places

variable (hneutral : ∀ c, isSeparator c → Nesting.top.step c = .top)
include hneutral

/-- A separator at the top leaves what is open as it is. -/
theorem after_cut (htop : (n.after cs).isTop) (hc : isSeparator c) (later : List Char) :
    n.after (cs ++ c :: later) = Nesting.top.after later := by
  rw [Nesting.after_append, Nesting.eq_top htop]
  exact congrArg (Nesting.after · later) (hneutral c hc)

/-- Every character of a text is held by a piece, or the text is cut there: then it is a separator
at the top, and the pieces are those of the texts before and after it. -/
theorem held_or_cut (h : Division isSeparator n start cs pieces)
    (hcs : cs = before ++ c :: after) :
    (¬((n.after before).isTop ∧ isSeparator c) ∧ ∃ pre inner post, before = pre ++ inner ∧
      ⟨start + byteSize pre, inner ++ c :: post⟩ ∈ pieces ∧ (pre = [] ∨ (n.after pre).isTop)) ∨
    ((n.after before).isTop ∧ isSeparator c ∧ ∃ earlier later, pieces = earlier ++ later ∧
      Division isSeparator n start before earlier ∧
      Division isSeparator .top (start + byteSize before + c.utf8Size) after later) := by
  induction h generalizing before with
  | @whole n start cs hundivided =>
    left
    refine ⟨fun hcut => ?_, [], before, after, rfl, ?_, .inl rfl⟩
    · rw [hundivided hcs hcut.1] at hcut
      cases hcut.2
    · rw [List.mem_singleton, hcs]
      rfl
  | @cut n start cs rest d pieces hundivided htop hd hlater ih =>
    rcases append_cons_cases hcs with ⟨post, rfl⟩ | ⟨rfl, rfl, rfl⟩ | ⟨between, rfl, hrest⟩
    · left
      refine ⟨fun hcut => ?_, [], before, post, rfl, List.mem_cons_self, .inl rfl⟩
      rw [hundivided rfl hcut.1] at hcut
      cases hcut.2
    · exact .inr ⟨htop, hd, [⟨start, cs⟩], pieces, rfl, .whole hundivided, hlater⟩
    · -- The character stands after the first cut, and what is open there is counted from the cut.
      have hbetween := after_cut hneutral htop hd between
      rw [hbetween, byteSize_append_cons]
      rcases ih hrest with ⟨hheld, pre, inner, post, rfl, hmem, hpre⟩ |
        ⟨hcut, hc, earlier, later, rfl, hearlier, hafter⟩
      · refine .inl ⟨hheld, cs ++ d :: pre, inner, post, by simp, ?_, .inr ?_⟩
        · rw [byteSize_append_cons]
          exact List.mem_cons_of_mem _ hmem
        · rw [after_cut hneutral htop hd pre]
          rcases hpre with rfl | hpre
          · rfl
          · exact hpre
      · exact .inr ⟨hcut, hc, ⟨start, cs⟩ :: earlier, later, rfl,
          .cut hundivided htop hd hearlier, hafter⟩

/-- A piece ends with the text, or a separator at the top follows it. -/
theorem ended (h : Division isSeparator n start cs pieces) :
    ∀ piece ∈ pieces, piece.stop = start + byteSize cs ∨ ∃ before c after,
      cs = before ++ c :: after ∧ piece.stop = start + byteSize before ∧
        (n.after before).isTop ∧ isSeparator c := by
  induction h with
  | whole _ => exact List.forall_mem_singleton.mpr (.inl rfl)
  | @cut n start cs rest d pieces _ htop hd _ ih =>
    refine List.forall_mem_cons.mpr ⟨.inr ⟨cs, d, rest, rfl, rfl, htop, hd⟩, ?_⟩
    intro piece hpiece
    rcases ih piece hpiece with hstop | ⟨before, c, after, rfl, hstop, hcut⟩
    · exact .inl (by rw [hstop, byteSize_append_cons])
    · refine .inr ⟨cs ++ d :: before, c, after, by simp, by rw [hstop, byteSize_append_cons], ?_⟩
      rwa [after_cut hneutral htop hd before]

/-- No piece holds a separator at the top. -/
theorem not_covers_cut {piece : Excerpt} (h : Division isSeparator n start cs pieces)
    (hcs : cs = before ++ c :: after) (hcut : (n.after before).isTop ∧ isSeparator c)
    (hpiece : piece ∈ pieces) : ¬piece.Covers (start + byteSize before) := by
  rcases h.held_or_cut hneutral hcs with ⟨hheld, -⟩ | ⟨-, -, earlier, later, rfl, hearlier, hlater⟩
  · exact absurd hcut hheld
  · rintro ⟨hstart, hstop⟩
    have hpos := c.utf8Size_pos
    rcases List.mem_append.mp hpiece with hmem | hmem
    · have hle := (hearlier.within.1 piece hmem).2
      omega
    · have hle := (hlater.within.1 piece hmem).1
      omega

end Places

end Division

end StyleVars
