import StyleVars.Path.Filter

/-!
# Normal paths

Normalization builds a path component by component on a stack. What it leaves there is settled: no
reference to the current directory, and references to a parent only where there is nothing to
remove. Pushing the components of a settled stack again changes nothing, so a path is normalized
once and for all, and filters do not distinguish a path from its normal form.
-/

namespace StyleVars

namespace Path

/-- A stack of components, last one first, on which every component has found its place. -/
def Settled : List PathComponent → Prop
  | [] => True
  | c :: done =>
    c ≠ .current ∧ (c = .parent → done = [] ∨ done.head? = some .root) ∧ Settled done

theorem Settled.push {done : List PathComponent} (h : Settled done) (c : PathComponent) :
    Settled (push done c) := by
  cases c with
  | root => exact ⟨by simp, by simp, h⟩
  | current => exact h
  | name s => exact ⟨by simp, by simp, h⟩
  | parent =>
    cases done with
    | nil => exact ⟨by simp, by simp, trivial⟩
    | cons last rest =>
      cases last with
      | root => exact ⟨by simp, by simp, h⟩
      | current => exact h.2.2
      | parent => exact h.2.2
      | name s => exact h.2.2

theorem Settled.foldl_push (components : List PathComponent) :
    Settled (components.foldl Path.push []) := by
  suffices ∀ done, Settled done → Settled (components.foldl Path.push done) from this [] trivial
  induction components with
  | nil => exact fun done h => h
  | cons c rest ih => exact fun done h => ih _ (h.push c)

theorem push_of_settled {c : PathComponent} {done : List PathComponent}
    (h : Settled (c :: done)) : push done c = c :: done := by
  obtain ⟨hcurrent, hparent, _⟩ := h
  cases c with
  | root => rfl
  | current => exact absurd rfl hcurrent
  | name s => rfl
  | parent =>
    rcases hparent rfl with rfl | hroot
    · rfl
    · obtain ⟨rest, rfl⟩ := List.head?_eq_some_iff.mp hroot
      rfl

theorem foldl_push_reverse {done : List PathComponent} (h : Settled done) :
    done.reverse.foldl push [] = done := by
  induction done with
  | nil => rfl
  | cons c rest ih =>
    rw [List.reverse_cons, List.foldl_append, ih h.2.2]
    exact push_of_settled h

@[simp] theorem normalize_normalize (p : Path) : p.normalize.normalize = p.normalize := by
  unfold normalize
  rw [foldl_push_reverse (Settled.foldl_push p.components)]

end Path

@[simp] theorem PathFilter.selects_normalize (f : PathFilter) (p : Path) :
    f.selects p.normalize = f.selects p := by
  simp [PathFilter.selects]

end StyleVars
