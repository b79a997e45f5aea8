import StyleVars.Text.Lines
import StyleVars.Text.Nesting

/-!
# Where excerpts stand

Every reader cuts excerpts out of the excerpt that it is given. What it cuts out is a part: the same
characters, at the offset at which they stand in the whole. Parts that are found from left to right
are in order, one ending before the next starts, and what is found in each of them in turn is in
order too.
-/

namespace StyleVars

theorem byteSize_eq_zero {cs : List Char} (h : byteSize cs = 0) : cs = [] := by
  cases cs with
  | nil => rfl
  | cons c cs =>
    have hc := c.utf8Size_pos
    rw [byteSize_cons] at h
    omega

/-- What is removed from the end satisfies `p`. -/
theorem exists_dropTrailing_append (p : Char → Bool) (cs : List Char) :
    ∃ after, cs = dropTrailing p cs ++ after ∧ ∀ c ∈ after, p c := by
  refine ⟨(cs.reverse.takeWhile p).reverse, ?_, fun c hc => ?_⟩
  · rw [dropTrailing, ← List.reverse_append, List.takeWhile_append_dropWhile, List.reverse_reverse]
  · exact List.all_eq_true.mp List.all_takeWhile c (List.mem_reverse.mp hc)

theorem dropTrailing_append (p : Char → Bool) (cs : List Char) :
    ∃ after, cs = dropTrailing p cs ++ after := by
  obtain ⟨after, hafter, -⟩ := exists_dropTrailing_append p cs
  exact ⟨after, hafter⟩

namespace Excerpt

/-- What is left of `e` after some of its characters. -/
def RestOf (rest e : Excerpt) : Prop :=
  ∃ before, e.chars = before ++ rest.chars ∧ rest.start = e.start + byteSize before

/-- A stretch of `e`, at the place where it stands. -/
def PartOf (part e : Excerpt) : Prop :=
  ∃ before after, e.chars = before ++ part.chars ++ after ∧ part.start = e.start + byteSize before

variable {e rest part : Excerpt}

theorem RestOf.refl (e : Excerpt) : e.RestOf e := ⟨[], rfl, rfl⟩

theorem RestOf.trans {later : Excerpt} (h : later.RestOf rest) (h' : rest.RestOf e) :
    later.RestOf e := by
  obtain ⟨before, hchars, hstart⟩ := h
  obtain ⟨before', hchars', hstart'⟩ := h'
  refine ⟨before' ++ before, ?_, ?_⟩
  · rw [hchars', hchars, List.append_assoc]
  · rw [hstart, hstart', byteSize_append, Nat.add_assoc]

theorem RestOf.start_le (h : rest.RestOf e) : e.start ≤ rest.start := by
  obtain ⟨_, _, hstart⟩ := h
  omega

theorem RestOf.partOf (h : rest.RestOf e) : rest.PartOf e := by
  obtain ⟨before, hchars, hstart⟩ := h
  exact ⟨before, [], by simpa using hchars, hstart⟩

theorem PartOf.trans {inner : Excerpt} (h : inner.PartOf part) (h' : part.PartOf e) :
    inner.PartOf e := by
  obtain ⟨before, after, hchars, hstart⟩ := h
  obtain ⟨before', after', hchars', hstart'⟩ := h'
  refine ⟨before' ++ before, after ++ after', ?_, ?_⟩
  · simp only [hchars', hchars, List.append_assoc]
  · rw [hstart, hstart', byteSize_append, Nat.add_assoc]

theorem PartOf.start_le (h : part.PartOf e) : e.start ≤ part.start := by
  obtain ⟨_, _, _, hstart⟩ := h
  omega

theorem PartOf.stop_le (h : part.PartOf e) : part.stop ≤ e.stop := by
  obtain ⟨before, after, hchars, hstart⟩ := h
  simp only [stop, hchars, hstart, byteSize_append]
  omega

theorem PartOf.subset (h : part.PartOf e) : part.chars ⊆ e.chars := by
  obtain ⟨before, after, hchars, -⟩ := h
  rw [hchars]
  exact List.subset_append_of_subset_left after (List.subset_append_right before part.chars)

/-- A part that starts where the whole does is a beginning of it. -/
theorem PartOf.append_of_start (h : part.PartOf e) (hstart : part.start = e.start) :
    ∃ after, e.chars = part.chars ++ after := by
  obtain ⟨before, after, hchars, hbefore⟩ := h
  have hnil : before = [] := byteSize_eq_zero (by omega)
  exact ⟨after, by rw [hchars, hnil, List.nil_append]⟩

/-- A beginning of an excerpt is a part of it. -/
theorem partOf_of_append {cs after : List Char} (h : e.chars = cs ++ after) :
    (⟨e.start, cs⟩ : Excerpt).PartOf e := ⟨[], after, h, rfl⟩

theorem partOf_take (n : Nat) (e : Excerpt) : (⟨e.start, e.chars.take n⟩ : Excerpt).PartOf e :=
  partOf_of_append (List.take_append_drop n e.chars).symm

theorem restOf_cons {c : Char} {cs : List Char} (h : e.chars = c :: cs) :
    (⟨e.start + c.utf8Size, cs⟩ : Excerpt).RestOf e := ⟨[c], h, by simp⟩

theorem restOf_dropWhile (p : Char → Bool) (e : Excerpt) : (e.dropWhile p).RestOf e :=
  ⟨e.chars.takeWhile p, List.takeWhile_append_dropWhile.symm, rfl⟩

theorem partOf_splitWhile (p : Char → Bool) (e : Excerpt) : (e.splitWhile p).1.PartOf e :=
  partOf_of_append List.takeWhile_append_dropWhile.symm

theorem stop_splitWhile (p : Char → Bool) (e : Excerpt) :
    (e.splitWhile p).1.stop = (e.dropWhile p).start := rfl

theorem chars_of_skip? {lit : List Char} (h : e.skip? lit = some rest) :
    e.chars = lit ++ rest.chars := by
  rw [skip?] at h
  split at h
  · rename_i hlit
    obtain ⟨after, hafter⟩ := List.isPrefixOf_iff_prefix.mp hlit
    cases h
    rw [← hafter, List.drop_left]
  · cases h

theorem restOf_skip? {lit : List Char} (h : e.skip? lit = some rest) : rest.RestOf e := by
  refine ⟨lit, chars_of_skip? h, ?_⟩
  rw [skip?] at h
  split at h
  · cases h
    rfl
  · cases h

theorem partOf_trimEnd (e : Excerpt) : e.trimEnd.PartOf e := by
  obtain ⟨after, hafter⟩ := dropTrailing_append isBlank e.chars
  exact partOf_of_append hafter

theorem partOf_trim (e : Excerpt) : e.trim.PartOf e :=
  (partOf_trimEnd _).trans (restOf_dropWhile isBlank e).partOf

theorem upTo_eq {before : List Char} (h : e.chars = before ++ rest.chars) :
    e.upTo rest = ⟨e.start, before⟩ := by
  simp [upTo, h]

theorem RestOf.partOf_upTo (h : rest.RestOf e) : (e.upTo rest).PartOf e := by
  obtain ⟨before, hchars, _⟩ := h
  rw [upTo_eq hchars]
  exact partOf_of_append hchars

theorem RestOf.stop_upTo (h : rest.RestOf e) : (e.upTo rest).stop = rest.start := by
  obtain ⟨before, hchars, hstart⟩ := h
  rw [upTo_eq hchars, hstart]
  rfl

end Excerpt

/-! ## Lists of parts -/

/-- The excerpts that belong to the elements of a list are parts of `e`, each ending before the next
starts. -/
structure InOrder {α : Type} (place : α → Excerpt) (e : Excerpt) (xs : List α) : Prop where
  partOf {x : α} : x ∈ xs → (place x).PartOf e
  ordered : xs.Pairwise fun x y => (place x).stop ≤ (place y).start

namespace InOrder

variable {α β : Type} {place : α → Excerpt} {inner : β → Excerpt} {e rest part : Excerpt}
  {x : α} {xs : List α}

theorem nil : InOrder place e [] where
  partOf hx := by cases hx
  ordered := .nil

theorem singleton (h : (place x).PartOf e) : InOrder place e [x] :=
  ⟨fun hy => by rwa [List.mem_singleton.mp hy], List.pairwise_singleton _ _⟩

theorem of_partOf (h : InOrder place part xs) (hpart : part.PartOf e) : InOrder place e xs :=
  ⟨fun hx => (h.partOf hx).trans hpart, h.ordered⟩

/-- A part, and then parts of what follows it. -/
theorem cons (hx : (place x).PartOf e) (hrest : rest.RestOf e) (hle : (place x).stop ≤ rest.start)
    (h : InOrder place rest xs) : InOrder place e (x :: xs) := by
  constructor
  · intro y hy
    rcases List.mem_cons.mp hy with rfl | hmem
    · exact hx
    · exact (h.partOf hmem).trans hrest.partOf
  · refine List.pairwise_cons.mpr ⟨fun y hy => ?_, h.ordered⟩
    exact Nat.le_trans hle (h.partOf hy).start_le

theorem sublist {ys : List α} (h : InOrder place e xs) (hsub : ys.Sublist xs) :
    InOrder place e ys :=
  ⟨fun hy => h.partOf (hsub.subset hy), h.ordered.sublist hsub⟩

/-- What is found in order in each part is in order in the whole. -/
theorem flatMap {f : α → List β} (h : InOrder place e xs)
    (hf : ∀ x ∈ xs, InOrder inner (place x) (f x)) : InOrder inner e (xs.flatMap f) := by
  constructor
  · intro y hy
    obtain ⟨x, hx, hmem⟩ := List.mem_flatMap.mp hy
    exact ((hf x hx).partOf hmem).trans (h.partOf hx)
  · refine List.pairwise_flatMap.mpr ⟨fun x hx => (hf x hx).ordered, ?_⟩
    refine h.ordered.imp_of_mem fun {x x'} hx hx' hle y hy y' hy' => ?_
    calc (inner y).stop ≤ (place x).stop := ((hf x hx).partOf hy).stop_le
      _ ≤ (place x').start := hle
      _ ≤ (inner y').start := ((hf x' hx').partOf hy').start_le

theorem filterMap {f : α → Option β} (h : InOrder place e xs)
    (hf : ∀ x ∈ xs, ∀ y, f x = some y → (inner y).PartOf (place x)) :
    InOrder inner e (xs.filterMap f) := by
  constructor
  · intro y hy
    obtain ⟨x, hx, hfx⟩ := List.mem_filterMap.mp hy
    exact (hf x hx y hfx).trans (h.partOf hx)
  · refine List.pairwise_filterMap.mpr (h.ordered.imp_of_mem ?_)
    intro x x' hx hx' hle y hy y' hy'
    calc (inner y).stop ≤ (place x).stop := (hf x hx y hy).stop_le
      _ ≤ (place x').start := hle
      _ ≤ (inner y').start := (hf x' hx' y' hy').start_le

theorem map {f : α → β} (h : InOrder place e xs)
    (hf : ∀ x ∈ xs, (inner (f x)).PartOf (place x)) : InOrder inner e (xs.map f) := by
  rw [← List.filterMap_eq_map]
  refine h.filterMap fun x hx y hy => ?_
  cases hy
  exact hf x hx

end InOrder

namespace Excerpt

/-- The pieces between separators are in order, and the first starts where the text does. -/
theorem inOrder_splitTop_go (isSeparator : Char → Bool) (n : Nesting) (start : Nat)
    (cs : List Char) :
    InOrder id ⟨start, cs⟩ (splitTop.go isSeparator n start cs) ∧
      ∀ first ∈ (splitTop.go isSeparator n start cs).head?, first.start = start := by
  induction cs generalizing n start with
  | nil => exact ⟨.singleton (RestOf.refl _).partOf, fun first hfirst => by cases hfirst; rfl⟩
  | cons c cs ih =>
    have hrest : (⟨start + c.utf8Size, cs⟩ : Excerpt).RestOf ⟨start, c :: cs⟩ := restOf_cons rfl
    rw [splitTop.go]
    split
    · refine ⟨?_, fun first hfirst => by cases hfirst; rfl⟩
      exact .cons (partOf_of_append (e := ⟨start, c :: cs⟩) rfl) hrest (Nat.le_add_right _ _)
        (ih n _).1
    · obtain ⟨hpieces, hfirst⟩ := ih (n.step c) (start + c.utf8Size)
      split
      · exact ⟨.nil, fun first hnone => by cases hnone⟩
      · -- The first piece of the rest takes the character in front.
        rename_i piece pieces hgo
        rw [hgo] at hpieces hfirst
        have hstart : piece.start = start + c.utf8Size := hfirst piece rfl
        have hstop : (⟨start, c :: piece.chars⟩ : Excerpt).stop = piece.stop := by
          simp only [stop, byteSize_cons, hstart, Nat.add_assoc]
        obtain ⟨after, hafter⟩ := (hpieces.partOf List.mem_cons_self).append_of_start hstart
        obtain ⟨hlater, hordered⟩ := List.pairwise_cons.mp hpieces.ordered
        refine ⟨⟨fun {x} hx => ?_, List.pairwise_cons.mpr ⟨fun y hy => ?_, hordered⟩⟩, ?_⟩
        · rcases List.mem_cons.mp hx with rfl | hmem
          · exact partOf_of_append (e := ⟨start, c :: cs⟩) (congrArg (c :: ·) hafter)
          · exact (hpieces.partOf (List.mem_cons_of_mem _ hmem)).trans hrest.partOf
        · exact Nat.le_trans (Nat.le_of_eq hstop) (hlater y hy)
        · exact fun first hhead => by cases hhead; rfl

theorem inOrder_splitTop (isSeparator : Char → Bool) (e : Excerpt) :
    InOrder id e (e.splitTop isSeparator) :=
  (inOrder_splitTop_go isSeparator .top e.start e.chars).1

end Excerpt

/-! ## Positions -/

/-- Positions are ordered by line, and within a line by character. -/
instance : LE Position where
  le a b := a.line < b.line ∨ a.line = b.line ∧ a.character ≤ b.character

instance (a b : Position) : Decidable (a ≤ b) := inferInstanceAs (Decidable (_ ∨ _))

namespace LineTable

variable {a b : Nat}

theorem startedBefore_mono (h : a ≤ b) (start : Nat) (cs : List Char) :
    startedBefore a start cs ≤ startedBefore b start cs := by
  induction cs generalizing start with
  | nil => exact Nat.le_refl _
  | cons c cs ih =>
    rw [startedBefore, startedBefore]
    split
    · rw [if_pos (by omega)]
      exact Nat.succ_le_succ (ih _)
    · exact Nat.zero_le _

theorem le_line_locate (offset n : Nat) (l : Excerpt) (later : List Excerpt) :
    n ≤ (locate offset n l later).line := by
  induction later generalizing n l with
  | nil => exact Nat.le_refl n
  | cons next later ih =>
    rw [locate]
    split
    · exact Nat.le_refl n
    · exact Nat.le_trans (Nat.le_succ n) (ih (n + 1) next)

theorem locate_mono (h : a ≤ b) (n : Nat) (l : Excerpt) (later : List Excerpt) :
    locate a n l later ≤ locate b n l later := by
  induction later generalizing n l with
  | nil => exact .inr ⟨rfl, startedBefore_mono h _ _⟩
  | cons next later ih =>
    rw [locate, locate]
    split
    · split
      · exact .inr ⟨rfl, startedBefore_mono h _ _⟩
      · -- The later offset lies on a later line.
        exact .inl (le_line_locate b (n + 1) next later)
    · rw [if_neg (by omega)]
      exact ih (n + 1) next

/-- A later offset has no earlier position. -/
theorem position_mono (t : LineTable) (h : a ≤ b) : t.position a ≤ t.position b :=
  locate_mono h 0 t.first t.more

end LineTable

end StyleVars
