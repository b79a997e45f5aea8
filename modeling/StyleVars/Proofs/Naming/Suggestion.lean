import StyleVars.Naming.Suggestion
import StyleVars.Proofs.Decimal.Arithmetic
import StyleVars.Proofs.Naming.Similar

/-!
# The ranking of suggestions

Scores are doubles, but none is infinite and every one is a number, so they can be compared as
numbers and the order of rank is that of a key: the step of the score, the usage, the score itself,
each from high to low, and then the name. Candidates with different names have different keys, and
what is suggested does not depend on the order of the candidates. The score of an equal value is a
hundred or more and that of any other is fifty at most; no rounding brings the two into one step.
-/

namespace StyleVars

open Double

theorem Color.squaredDistance_lt (c d : Color) : squaredDistance c d < 2 ^ 53 := by
  have hgap (a b : UInt8) : Nat.pow (gap a b) 2 ≤ 256 ^ 2 := by
    apply Nat.pow_le_pow_left
    have ha := a.toNat_lt
    have hb := b.toNat_lt
    rw [gap]
    omega
  have hred := hgap c.red d.red
  have hgreen := hgap c.green d.green
  have hblue := hgap c.blue d.blue
  rw [squaredDistance]
  omega

theorem Color.exists_value?_distance (c d : Color) :
    ∃ r, value? (c.distance d) = some r ∧ 0 ≤ r ∧ r ≤ 2 ^ 53 := by
  have hlt := squaredDistance_lt c d
  exact exists_value?_sqrt (value?_ofNat hlt) (Nat.cast_nonneg _) (by exact_mod_cast hlt)

namespace Suggestion

theorem value?_zero : value? 0.0 = some (0 : ℕ) := by decide +kernel

theorem value?_one : value? 1.0 = some (1 : ℕ) := by decide +kernel

theorem value?_five : value? 5.0 = some (5 : ℕ) := by decide +kernel

theorem value?_fifty : value? 50.0 = some (50 : ℕ) := by decide +kernel

theorem value?_hundred : value? 100.0 = some (100 : ℕ) := by decide +kernel

theorem exists_value?_farthest : ∃ q, value? farthest = some q ∧ 1 < q := by
  have hsome : (value? farthest).isSome := by decide +kernel
  obtain ⟨q, hq⟩ := Option.isSome_iff_exists.mp hsome
  have hlt : 1.0 < farthest := by decide +kernel
  exact ⟨q, hq, (lt_iff_value value?_one hq).mp hlt⟩

/-- The share of closeness that is left of one is at most one. -/
theorem exists_value?_share (c d : Color) :
    ∃ r, value? (1.0 - c.distance d / farthest) = some r ∧ r ≤ 1 := by
  obtain ⟨p, hp, hp0, hple⟩ := c.exists_value?_distance d
  obtain ⟨q, hq, hq1⟩ := exists_value?_farthest
  have hquotient : p / q ≤ 2 ^ 53 := (div_le_self hp0 hq1.le).trans hple
  have hnonneg : 0 ≤ p / q := div_nonneg hp0 (by linarith)
  have hlt : |p / q| < 2 ^ 53 := by
    rw [abs_of_nonneg hnonneg, div_lt_iff₀ (by linarith)]
    linarith
  obtain ⟨t, ht, htbetween⟩ := exists_value?_div hp hq (by linarith) hlt
  have ht0 : 0 ≤ t := by exact_mod_cast htbetween.le_of_ge (n := 0) (by exact_mod_cast hnonneg)
  have htle : t ≤ 2 ^ 53 := by
    exact_mod_cast htbetween.le_of_le (n := 2 ^ 53) (by exact_mod_cast hquotient)
  have hdifference : |1 - t| < 2 ^ 53 := by
    rw [abs_lt]
    constructor <;> linarith
  obtain ⟨r, hr, hbetween⟩ := exists_value?_sub value?_one ht hdifference
  refine ⟨r, hr, ?_⟩
  exact_mod_cast hbetween.le_of_le (n := 1) (by push_cast; linarith)

theorem within_closeness (target value : String) : Within 0 50 (closeness target value) := by
  rw [closeness]
  split
  · rename_i wanted found _ _
    obtain ⟨u, hu, hu1⟩ := exists_value?_share wanted found
    have hclamped : Within 0 1 (if 1.0 - wanted.distance found / farthest < 0.0 then 0.0
        else 1.0 - wanted.distance found / farthest) := by
      split
      · exact ⟨0, value?_zero, le_rfl, zero_le_one⟩
      · rename_i hneg
        rw [lt_iff_value hu value?_zero, not_lt] at hneg
        exact ⟨u, hu, by exact_mod_cast hneg, by exact_mod_cast hu1⟩
    exact hclamped.mul (within_of_value? value?_fifty) (by norm_num)
  · exact ⟨0, value?_zero, le_rfl, by norm_num⟩

theorem within_points_of_isMatch {target value : String} (h : isMatch target value = true) :
    Within 100 150 (points target value) := by
  rw [points, if_pos h]
  exact (within_of_value? value?_hundred).add (within_closeness target value) (by norm_num)

theorem within_points_of_not_isMatch {target value : String} (h : isMatch target value = false) :
    Within 0 50 (points target value) := by
  rw [points, h, if_neg Bool.false_ne_true]
  exact (within_of_value? value?_zero).add (within_closeness target value) (by norm_num)

/-- A suggestion whose score is a number. -/
def Scored (s : Suggestion) : Prop := ∃ p, value? s.score = some p

theorem scored_ofCandidate (target : String) (c : Candidate) : (ofCandidate target c).Scored := by
  cases hmatch : isMatch target c.value with
  | true =>
    obtain ⟨p, hp, -⟩ := within_points_of_isMatch hmatch
    exact ⟨p, hp⟩
  | false =>
    obtain ⟨p, hp, -⟩ := within_points_of_not_isMatch hmatch
    exact ⟨p, hp⟩

/-- The score as a number. -/
def total (s : Suggestion) : ℚ := (value? s.score).getD 0

theorem Scored.score_lt_iff {a b : Suggestion} (ha : a.Scored) (hb : b.Scored) :
    a.score < b.score ↔ a.total < b.total := by
  obtain ⟨p, hp⟩ := ha
  obtain ⟨q, hq⟩ := hb
  rw [total, total, hp, hq]
  exact lt_iff_value hp hq

/-- The key by which suggestions are sorted. -/
def rankKey (s : Suggestion) : ℕᵒᵈ ×ₗ ℕᵒᵈ ×ₗ ℚᵒᵈ ×ₗ String :=
  toLex (OrderDual.toDual s.bucket, toLex (OrderDual.toDual s.usage,
    toLex (OrderDual.toDual s.total, s.name)))

theorem rankKey_le_iff {a b : Suggestion} :
    a.rankKey ≤ b.rankKey ↔ b.bucket < a.bucket ∨ a.bucket = b.bucket ∧
      (b.usage < a.usage ∨ a.usage = b.usage ∧
        (b.total < a.total ∨ a.total = b.total ∧ a.name ≤ b.name)) := by
  rw [rankKey, rankKey, Prod.Lex.toLex_le_toLex, Prod.Lex.toLex_le_toLex,
    Prod.Lex.toLex_le_toLex]
  rfl

theorem name_eq_of_rankKey_eq {a b : Suggestion} (h : a.rankKey = b.rankKey) : a.name = b.name :=
  congrArg (fun k : ℕᵒᵈ ×ₗ ℕᵒᵈ ×ₗ ℚᵒᵈ ×ₗ String => (ofLex (ofLex (ofLex k).2).2).2) h

theorem Scored.ranksBefore_eq {a b : Suggestion} (ha : a.Scored) (hb : b.Scored) :
    ranksBefore a b = decide (a.rankKey ≤ b.rankKey) := by
  rw [Bool.eq_iff_iff, decide_eq_true_iff, rankKey_le_iff, ranksBefore]
  split
  · rename_i hbucket
    simp [hbucket]
  · rename_i hbucket
    rw [not_not] at hbucket
    split
    · rename_i husage
      simp [hbucket, husage]
    · rename_i husage
      rw [not_not] at husage
      simp only [ha.score_lt_iff hb, hb.score_lt_iff ha]
      rcases lt_trichotomy a.total b.total with hlt | heq | hlt
      · simp [hbucket, husage, hlt, hlt.ne, hlt.not_gt]
      · simp [hbucket, husage, heq]
      · simp [hbucket, husage, hlt]

theorem rankKey_lt_of_isMatch {target : String} {c d : Candidate}
    (hc : isMatch target c.value = true) (hd : isMatch target d.value = false) :
    (ofCandidate target c).rankKey < (ofCandidate target d).rankKey := by
  have hhigh : 20 ≤ (ofCandidate target c).bucket :=
    (((within_points_of_isMatch hc).div value?_five (a := 20) (b := 30) (by norm_num)
      (by norm_num)).toNat_toUInt64 (by norm_num)).1
  have hlow : (ofCandidate target d).bucket ≤ 10 :=
    (((within_points_of_not_isMatch hd).div value?_five (a := 0) (b := 10) (by norm_num)
      (by norm_num)).toNat_toUInt64 (by norm_num)).2
  rw [← not_le, rankKey_le_iff]
  omega

end Suggestion

section Ranking

variable {value : String} {cs cs' : List Candidate}

open Suggestion

/-- The candidates with points, as suggestions. -/
def scoredCandidates (value : String) (cs : List Candidate) : List Suggestion :=
  (cs.map (ofCandidate (trim value))).filter fun s => 0.0 < s.score

theorem mem_scoredCandidates_of_isMatch {c : Candidate} (hc : c ∈ cs)
    (hmatch : isMatch (trim value) c.value = true) :
    ofCandidate (trim value) c ∈ scoredCandidates value cs := by
  refine List.mem_filter.mpr ⟨List.mem_map_of_mem hc, decide_eq_true ?_⟩
  obtain ⟨p, hp, hlow, -⟩ := within_points_of_isMatch hmatch
  apply (lt_iff_value value?_zero hp).mpr
  push_cast at hlow ⊢
  linarith

theorem exists_of_mem_scoredCandidates {s : Suggestion} (h : s ∈ scoredCandidates value cs) :
    ∃ c ∈ cs, ofCandidate (trim value) c = s :=
  List.mem_map.mp (List.mem_of_mem_filter h)

theorem sortsBy_rankKey (value : String) (cs : List Candidate) :
    SortsBy ranksBefore rankKey (scoredCandidates value cs) := by
  intro a ha b hb
  obtain ⟨c, -, rfl⟩ := exists_of_mem_scoredCandidates ha
  obtain ⟨d, -, rfl⟩ := exists_of_mem_scoredCandidates hb
  exact (scored_ofCandidate _ c).ranksBefore_eq (scored_ofCandidate _ d)

theorem eq_of_rankKey_eq (hnames : (cs.map (·.name)).Nodup) {a b : Suggestion}
    (ha : a ∈ scoredCandidates value cs) (hb : b ∈ scoredCandidates value cs)
    (h : a.rankKey = b.rankKey) : a = b := by
  obtain ⟨c, hc, rfl⟩ := exists_of_mem_scoredCandidates ha
  obtain ⟨d, hd, rfl⟩ := exists_of_mem_scoredCandidates hb
  have hname : c.name = d.name := name_eq_of_rankKey_eq h
  rw [List.inj_on_of_nodup_map hnames hc hd hname]

theorem suggestions_perm (hnames : (cs.map (·.name)).Nodup) (hperm : cs.Perm cs') (limit : ℕ) :
    suggestions value cs limit = suggestions value cs' limit := by
  have hscored : (scoredCandidates value cs).Perm (scoredCandidates value cs') :=
    (hperm.map _).filter _
  have hsorted := (sortsBy_rankKey value cs).mergeSort_eq
    (fun a ha b hb => eq_of_rankKey_eq hnames ha hb) hscored
  exact congrArg (List.take limit) hsorted

theorem pairwise_sorted (value : String) (cs : List Candidate) :
    ((scoredCandidates value cs).mergeSort ranksBefore).Pairwise
      fun a b => a.rankKey ≤ b.rankKey :=
  (sortsBy_rankKey value cs).pairwise_mergeSort

/-- Where the limit leaves room for all, everything with points is suggested. -/
theorem mem_suggestions_iff {limit : ℕ} (hlimit : cs.length ≤ limit) {s : Suggestion} :
    s ∈ suggestions value cs limit ↔ s ∈ scoredCandidates value cs := by
  have hperm := List.mergeSort_perm (scoredCandidates value cs) ranksBefore
  have hlength : ((scoredCandidates value cs).mergeSort ranksBefore).length ≤ limit := by
    rw [hperm.length_eq]
    exact (List.length_filter_le _ _).trans (by rwa [List.length_map])
  have hall : suggestions value cs limit = (scoredCandidates value cs).mergeSort ranksBefore :=
    List.take_of_length_le hlength
  rw [hall, hperm.mem_iff]

/-- Neither the names offered nor the variables suggested show in which order the known names or the
candidates were listed. A lower limit only cuts off the end of what is suggested. Candidates with the
wanted value, blanks at its ends and letter case aside, are suggested before all others. -/
theorem suggestions_do_not_show_order (x value : String) {known known' : List String}
    {cs cs' : List Candidate} (hknown : known.Perm known') (hcs : cs.Perm cs')
    (hnames : (cs.map (·.name)).Nodup) :
    let matching (c : Candidate) := sameIgnoringCase (trim c.value) (trim value)
    let suggestion := ofCandidate (trim value)
    similarNames x known = similarNames x known' ∧
      (∀ limit, suggestions value cs limit = suggestions value cs' limit) ∧
      (∀ k limit, k ≤ limit → suggestions value cs k = (suggestions value cs limit).take k) ∧
      (∀ c ∈ cs, matching c = true → ∀ limit,
        (cs.length ≤ limit → suggestion c ∈ suggestions value cs limit) ∧
          ∀ d ∈ cs, matching d = false → suggestion d ∈ suggestions value cs limit →
            [suggestion c, suggestion d].Sublist (suggestions value cs limit)) := by
  intro matching suggestion
  refine ⟨similarNames_perm x hknown, suggestions_perm hnames hcs, ?_, ?_⟩
  · intro k limit hk
    rw [suggestions, suggestions, List.take_take, min_eq_left hk]
  · intro c hc hmatch limit
    have hscored := mem_scoredCandidates_of_isMatch hc hmatch
    refine ⟨fun hlimit => (mem_suggestions_iff hlimit).mpr hscored, ?_⟩
    intro d _ hother hlisted
    apply sublist_take_of_key_lt (pairwise_sorted value cs) _ hlisted
      (rankKey_lt_of_isMatch hmatch hother)
    exact (List.mergeSort_perm _ _).mem_iff.mpr hscored

/-- Of three reds, the one with the wanted value comes before a similar one that is used more, in
whichever order they are listed. -/
theorem suggestions_do_not_show_order_of_reds :
    let red : Candidate := ⟨"--red", " #FF0000 ", 0⟩
    let rose : Candidate := ⟨"--rose", "#ff0010", 7⟩
    let wine : Candidate := ⟨"--wine", "#800000", 2⟩
    let suggestion := ofCandidate "#ff0000"
    suggestions "#ff0000" [wine, rose, red] 3 = suggestions "#ff0000" [red, rose, wine] 3 ∧
      [suggestion red, suggestion rose].Sublist (suggestions "#ff0000" [wine, rose, red] 3) := by
  intro red rose wine suggestion
  have hperm : [wine, rose, red].Perm [red, rose, wine] := (List.reverse_perm _).symm
  obtain ⟨-, hsame, -, hfirst⟩ := suggestions_do_not_show_order "--reed" "#ff0000"
    (List.reverse_perm ["--red", "--rose"]) hperm (by decide)
  refine ⟨hsame 3, (hfirst red (by simp) (by decide +kernel) 3).2 rose (by simp)
    (by decide +kernel) ?_⟩
  apply (mem_suggestions_iff (by decide)).mpr
  refine List.mem_filter.mpr ⟨List.mem_map_of_mem (by simp), ?_⟩
  decide +kernel

end Ranking

end StyleVars
