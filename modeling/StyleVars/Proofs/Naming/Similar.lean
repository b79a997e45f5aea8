import StyleVars.Proofs.Naming.EditDistance
import Mathlib.Algebra.Order.Field.Rat
import Mathlib.Data.List.Dedup
import Mathlib.Data.Prod.Lex
import Mathlib.Data.String.Basic
import Mathlib.Tactic.Linarith

/-!
# The ranking of similar names

Similarities are compared as fractions, so the names to offer are sorted by a key: the similarity,
from high to low, and then the text. No two names have the same key. What is sorted by such a key
does not depend on the order in which it was given, and it is the ranking of the names, each as often
as it was given.
-/

namespace StyleVars

section Sorting

variable {α κ : Type} [LinearOrder κ] {before : α → α → Bool} {key : α → κ} {l l' : List α}

/-- Among the members of a list, one comes before another if its key is not above the other's. -/
def SortsBy (before : α → α → Bool) (key : α → κ) (l : List α) : Prop :=
  ∀ a ∈ l, ∀ b ∈ l, before a b = decide (key a ≤ key b)

theorem mergeSort_congr {before' : α → α → Bool}
    (h : ∀ a ∈ l, ∀ b ∈ l, before a b = before' a b) :
    l.mergeSort before = l.mergeSort before' := by
  have hmap := List.map_mergeSort (f := id) (s := before') h
  rwa [List.map_id, List.map_id] at hmap

theorem SortsBy.pairwise_mergeSort (h : SortsBy before key l) :
    (l.mergeSort before).Pairwise fun a b => key a ≤ key b := by
  rw [mergeSort_congr h]
  refine (List.pairwise_mergeSort ?_ ?_ l).imp of_decide_eq_true
  · intro a b c hab hbc
    exact decide_eq_true ((of_decide_eq_true hab).trans (of_decide_eq_true hbc))
  · intro a b
    rw [Bool.or_eq_true, decide_eq_true_iff, decide_eq_true_iff]
    exact le_total (key a) (key b)

/-- Where keys are all different, there is one way to put the members of a list into their order. -/
theorem SortsBy.mergeSort_eq_of_pairwise (h : SortsBy before key l)
    (hkey : ∀ a ∈ l, ∀ b ∈ l, key a = key b → a = b) (hperm : l.Perm l')
    (hl' : l'.Pairwise fun a b => key a ≤ key b) : l.mergeSort before = l' := by
  have hsorted := List.mergeSort_perm l before
  refine (hsorted.trans hperm).eq_of_pairwise ?_ h.pairwise_mergeSort hl'
  intro a b ha hb hab hba
  exact hkey a (hsorted.mem_iff.mp ha) b (hperm.mem_iff.mpr hb) (le_antisymm hab hba)

/-- What is sorted by keys that are all different does not show in which order it was given. -/
theorem SortsBy.mergeSort_eq (h : SortsBy before key l)
    (hkey : ∀ a ∈ l, ∀ b ∈ l, key a = key b → a = b) (hperm : l.Perm l') :
    l.mergeSort before = l'.mergeSort before := by
  have h' : SortsBy before key l' := by
    intro a ha b hb
    exact h a (hperm.mem_iff.mpr ha) b (hperm.mem_iff.mpr hb)
  apply h.mergeSort_eq_of_pairwise hkey _ h'.pairwise_mergeSort
  exact hperm.trans (List.mergeSort_perm l' before).symm

/-- In a sorted list that is cut, what has a lesser key than something left is left before it. -/
theorem sublist_take_of_key_lt (hl : l.Pairwise fun a b => key a ≤ key b) {n : ℕ} {a b : α}
    (ha : a ∈ l) (hb : b ∈ l.take n) (hlt : key a < key b) : [a, b].Sublist (l.take n) := by
  obtain ⟨before, after, hsplit⟩ := List.append_of_mem hb
  have hwhole : l = before ++ b :: (after ++ l.drop n) := by
    rw [← List.cons_append, ← List.append_assoc, ← hsplit, List.take_append_drop]
  have hbefore : a ∈ before := by
    rw [hwhole] at ha hl
    rcases List.mem_append.mp ha with hbefore | hafter
    · exact hbefore
    · rcases List.mem_cons.mp hafter with rfl | hafter
      · exact absurd hlt (lt_irrefl _)
      · have hle := List.rel_of_pairwise_cons (List.pairwise_append.mp hl).2.1 hafter
        exact absurd hlt hle.not_gt
  rw [hsplit]
  exact (List.singleton_sublist.mpr hbefore).append
    (List.singleton_sublist.mpr List.mem_cons_self)

/-- Every member of a list, repeated as often as `times` says. -/
def repeated (times : α → ℕ) (l : List α) : List α :=
  l.flatMap fun a => List.replicate (times a) a

theorem repeated_cons (times : α → ℕ) (a : α) (l : List α) :
    repeated times (a :: l) = List.replicate (times a) a ++ repeated times l :=
  List.flatMap_cons

theorem mem_of_mem_repeated {times : α → ℕ} {a : α} (h : a ∈ repeated times l) : a ∈ l := by
  obtain ⟨b, hb, ha⟩ := List.mem_flatMap.mp h
  rwa [(List.mem_replicate.mp ha).2]

theorem count_repeated [DecidableEq α] {times : α → ℕ} (hl : l.Nodup) (a : α) :
    (repeated times l).count a = if a ∈ l then times a else 0 := by
  induction l with
  | nil => rfl
  | cons b l ih =>
    obtain ⟨hb, hl⟩ := List.nodup_cons.mp hl
    rw [repeated_cons, List.count_append, ih hl, List.count_replicate]
    by_cases hab : a = b
    · subst hab
      simp [hb]
    · simp [hab, Ne.symm hab]

/-- Sorting keeps every member as often as it occurs. -/
theorem SortsBy.mergeSort_eq_repeated [DecidableEq α] (h : SortsBy before key l)
    (hkey : ∀ a ∈ l, ∀ b ∈ l, key a = key b → a = b) (hl' : l'.Pairwise fun a b => key a < key b)
    (hmem : ∀ a, a ∈ l' ↔ a ∈ l) : l.mergeSort before = repeated l.count l' := by
  have hdistinct : l'.Nodup := hl'.imp fun hlt heq => hlt.ne (congrArg key heq)
  apply h.mergeSort_eq_of_pairwise hkey
  · rw [List.perm_iff_count]
    intro a
    rw [count_repeated hdistinct]
    split
    · rfl
    · rename_i ha
      exact List.count_eq_zero_of_not_mem fun hal => ha ((hmem a).mpr hal)
  · rw [repeated, List.pairwise_flatMap]
    refine ⟨fun a _ => List.pairwise_replicate.mpr (.inr le_rfl), hl'.imp ?_⟩
    intro a b hlt c hc d hd
    rw [(List.mem_replicate.mp hc).2, (List.mem_replicate.mp hd).2]
    exact hlt.le

/-- Repetitions do not show up to some place if nothing before it is repeated. -/
theorem take_succ_repeated_eq_iff {times : α → ℕ} (hl : l.Nodup) (hpos : ∀ a ∈ l, 0 < times a)
    (n : ℕ) : (repeated times l).take (n + 1) = l.take (n + 1) ↔ ∀ a ∈ l.take n, times a = 1 := by
  induction l generalizing n with
  | nil => simp [repeated]
  | cons a l ih =>
    obtain ⟨ha, hl⟩ := List.nodup_cons.mp hl
    obtain ⟨hapos, hpos⟩ := List.forall_mem_cons.mp hpos
    obtain ⟨k, hk⟩ : ∃ k, times a = k + 1 :=
      Nat.exists_eq_succ_of_ne_zero hapos.ne'
    rw [repeated_cons, hk, List.replicate_succ, List.cons_append, List.take_succ_cons,
      List.take_succ_cons, List.cons_inj_right]
    cases n with
    | zero => simp
    | succ n =>
      rw [List.take_succ_cons, List.forall_mem_cons, hk, ← ih hl hpos n]
      cases k with
      | zero => simp
      | succ k =>
        -- The second `a` stands where the list has another member.
        have hne : (List.replicate (k + 1) a ++ repeated times l).take (n + 1) ≠ l.take (n + 1) := by
          intro htake
          have hmem : a ∈ l.take (n + 1) := by
            rw [← htake]
            exact List.mem_cons_self
          exact ha (List.mem_of_mem_take hmem)
        simp [hne]

end Sorting

namespace Similarity

variable {s t : Similarity}

/-- The fraction as a number. -/
def share (s : Similarity) : ℚ := s.kept / s.total

theorem total_ofNames_pos (a b : String) : 0 < (ofNames a b).total := by
  simp only [ofNames]
  split
  · exact Nat.one_pos
  · rename_i h
    exact Nat.pos_of_ne_zero h

theorem isClose_iff (h : 0 < s.total) : s.isClose ↔ 1 / 2 < s.share := by
  have hpos : (0 : ℚ) < s.total := by exact_mod_cast h
  rw [isClose, decide_eq_true_iff, share, div_lt_div_iff₀ (by norm_num) hpos, one_mul, mul_comm 2]
  exact_mod_cast Iff.rfl

theorem exceeds_iff (hs : 0 < s.total) (ht : 0 < t.total) : s.exceeds t ↔ t.share < s.share := by
  have hspos : (0 : ℚ) < s.total := by exact_mod_cast hs
  have htpos : (0 : ℚ) < t.total := by exact_mod_cast ht
  rw [exceeds, decide_eq_true_iff, share, share, div_lt_div_iff₀ htpos hspos]
  exact_mod_cast Iff.rfl

end Similarity

/-- How similar a name is to `x`. -/
def similarityTo (x y : String) : ℚ := (Similarity.ofNames x y).share

/-- The key by which names are sorted that may be meant by `x`. -/
def offerKey (x y : String) : ℚᵒᵈ ×ₗ String := toLex (OrderDual.toDual (similarityTo x y), y)

/-- The strict order in which names are offered for `x`. -/
def OfferedFirst (x a b : String) : Prop :=
  similarityTo x b < similarityTo x a ∨ similarityTo x a = similarityTo x b ∧ a < b

theorem offeredFirst_iff {x a b : String} : OfferedFirst x a b ↔ offerKey x a < offerKey x b := by
  rw [offerKey, offerKey, Prod.Lex.toLex_lt_toLex]
  rfl

theorem offerKey_injective (x : String) : Function.Injective (offerKey x) := by
  intro a b h
  exact (Prod.ext_iff.mp (toLex.injective h)).2

theorem sortsBy_offerKey (x : String) (l : List String) :
    SortsBy (offeredBefore x) (offerKey x) l := by
  intro a _ b _
  have ha := Similarity.total_ofNames_pos x a
  have hb := Similarity.total_ofNames_pos x b
  have hkey : offerKey x a ≤ offerKey x b ↔ similarityTo x b < similarityTo x a ∨
      similarityTo x a = similarityTo x b ∧ a ≤ b := Prod.Lex.toLex_le_toLex
  rw [Bool.eq_iff_iff, decide_eq_true_iff, hkey, offeredBefore, Bool.or_eq_true, Bool.and_eq_true,
    Bool.not_eq_true', ← Bool.not_eq_true, decide_eq_true_iff, Similarity.exceeds_iff ha hb,
    Similarity.exceeds_iff hb ha]
  change similarityTo x b < similarityTo x a ∨ ¬similarityTo x a < similarityTo x b ∧ a ≤ b ↔ _
  rcases lt_trichotomy (similarityTo x a) (similarityTo x b) with hlt | heq | hlt
  · simp [hlt, hlt.not_gt, hlt.ne]
  · simp [heq]
  · simp [hlt]

/-- The known names other than `x` whose similarity to it is above one half. -/
def closeNames (x : String) (known : List String) : List String :=
  known.filter fun k => k != x && (Similarity.ofNames x k).isClose

theorem isClose_ofNames_iff {x y : String} :
    (y != x && (Similarity.ofNames x y).isClose) = true ↔ y ≠ x ∧ 1 / 2 < similarityTo x y := by
  rw [Bool.and_eq_true, bne_iff_ne, Similarity.isClose_iff (Similarity.total_ofNames_pos x y)]
  rfl

theorem mem_closeNames {x y : String} {known : List String} :
    y ∈ closeNames x known ↔ y ∈ known ∧ y ≠ x ∧ 1 / 2 < similarityTo x y := by
  rw [closeNames, List.mem_filter, isClose_ofNames_iff]

/-- The names worth offering for `x`, each once and the best first. -/
structure IsRanking (x : String) (known : String → Prop) (ranked : List String) : Prop where
  strict : ranked.Pairwise (OfferedFirst x)
  mem_iff : ∀ y, y ∈ ranked ↔ known y ∧ y ≠ x ∧ 1 / 2 < similarityTo x y

theorem IsRanking.nodup {x : String} {known : String → Prop} {ranked : List String}
    (h : IsRanking x known ranked) : ranked.Nodup := by
  refine h.strict.imp fun hfirst heq => ?_
  rw [offeredFirst_iff, heq] at hfirst
  exact lt_irrefl _ hfirst

theorem exists_isRanking (x : String) (known : List String) :
    ∃ ranked, IsRanking x (· ∈ known) ranked := by
  have hperm := List.mergeSort_perm (closeNames x known) (offeredBefore x)
  refine ⟨((closeNames x known).mergeSort (offeredBefore x)).dedup, ?_, ?_⟩
  · have hsorted := (sortsBy_offerKey x (closeNames x known)).pairwise_mergeSort
    have hboth := (hsorted.sublist (List.dedup_sublist _)).and (List.nodup_dedup _)
    refine hboth.imp fun ⟨hle, hne⟩ => ?_
    exact offeredFirst_iff.mpr (lt_of_le_of_ne hle fun hkey => hne (offerKey_injective x hkey))
  · intro y
    rw [List.mem_dedup, hperm.mem_iff, mem_closeNames]

/-- The names offered are the first ones of the ranking, each as often as it is known. -/
theorem IsRanking.similarNames_eq {x : String} {known ranked : List String}
    (h : IsRanking x (· ∈ known) ranked) :
    similarNames x known = (repeated known.count ranked).take similarLimit := by
  have hsorted : (closeNames x known).mergeSort (offeredBefore x) =
      repeated (closeNames x known).count ranked := by
    apply (sortsBy_offerKey x _).mergeSort_eq_repeated
    · intro a _ b _ hab
      exact offerKey_injective x hab
    · exact h.strict.imp offeredFirst_iff.mp
    · intro y
      rw [h.mem_iff, mem_closeNames]
  have hcount : repeated (closeNames x known).count ranked = repeated known.count ranked := by
    apply List.flatMap_congr
    intro y hy
    have hclose := isClose_ofNames_iff.mpr ((h.mem_iff y).mp hy).2
    exact congrArg (List.replicate · y) (List.count_filter hclose)
  rw [← hcount, ← hsorted]
  rfl

theorem similarNames_perm (x : String) {known known' : List String} (h : known.Perm known') :
    similarNames x known = similarNames x known' := by
  rw [similarNames, similarNames]
  congr 1
  apply (sortsBy_offerKey x _).mergeSort_eq _ (h.filter _)
  intro a _ b _ hab
  exact offerKey_injective x hab

end StyleVars
