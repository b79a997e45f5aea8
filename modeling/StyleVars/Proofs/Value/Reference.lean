import StyleVars.Proofs.Sheet.Order
import StyleVars.Proofs.Text.Edge
import StyleVars.Proofs.Text.Name

/-!
# How a reference is written

The text of a reference has parts: blanks around the name, and what stands after the comma if there
is one. The parts decide the reference, its name and its fallback, and where both stand. Every
reference that is read was written so.
-/

namespace StyleVars

namespace Reference

/-- The parts of the text of a reference, from left to right. -/
structure Parts where
  lead : List Char
  name : List Char
  gap : List Char
  /-- What stands between the comma and the closing parenthesis, where there is a comma. -/
  body : Option (List Char)
  lead_blank : ∀ c ∈ lead, isBlank c
  isName : isVariableName name
  gap_blank : ∀ c ∈ gap, isBlank c
  body_open : ∀ b ∈ body, ')' ∉ b

namespace Parts

/-- The text up to the comma or the closing parenthesis. -/
def opening (p : Parts) : List Char := ['v', 'a', 'r', '('] ++ p.lead ++ p.name ++ p.gap

/-- The comma and what follows it. -/
def argument (p : Parts) : List Char :=
  match p.body with
  | some body => ',' :: body
  | none => []

def chars (p : Parts) : List Char := p.opening ++ p.argument ++ [')']

/-- What stands between the parentheses. -/
def inner (p : Parts) : List Char := p.lead ++ p.name ++ p.gap ++ p.argument

theorem ofList_chars (p : Parts) :
    String.ofList p.chars = "var(" ++ String.ofList p.inner ++ ")" := by
  rw [← String.toList_inj]
  simp [chars, opening, inner]

/-- What stands after the comma, in a text that starts at `start`. -/
def body? (p : Parts) (start : Nat) : Option Excerpt :=
  p.body.map fun body => ⟨start + byteSize p.opening + 1, body⟩

/-- The reference that is written so in a text that starts at `start`. -/
def reference (p : Parts) (start : Nat) : Reference where
  name := String.ofList p.name
  fallback := (p.body? start).bind fun body => if body.trim.isEmpty then none else some body.trim
  source := ⟨start, p.chars⟩

end Parts

variable {e rest : Excerpt} {r : Reference}

/-- The end of a reference is a closing parenthesis, or a comma and a text up to one. -/
theorem readEnd?_spec {fallback : Option Excerpt} (h : readEnd? e = some (fallback, rest)) :
    (e.chars = ')' :: rest.chars ∧ fallback = none) ∨
      ∃ body, e.chars = ',' :: body ++ ')' :: rest.chars ∧ ')' ∉ body ∧
        fallback = if (⟨e.start + 1, body⟩ : Excerpt).trim.isEmpty then none
          else some (⟨e.start + 1, body⟩ : Excerpt).trim := by
  rw [readEnd?] at h
  split at h
  · rename_i hskip
    cases h
    exact .inl ⟨Excerpt.chars_of_skip? hskip, rfl⟩
  · split at h
    · cases h
    · rename_i body hskip
      obtain ⟨after, hafter, heq⟩ := Option.map_eq_some_iff.mp h
      cases heq
      have hbody : body.start = e.start + 1 := by
        rw [Excerpt.skip?] at hskip
        split at hskip
        · cases hskip
          rfl
        · cases hskip
      have hclose : body.chars.dropWhile (· != ')') = ')' :: rest.chars :=
        Excerpt.chars_of_skip? hafter
      refine .inr ⟨body.chars.takeWhile (· != ')'), ?_, ?_, ?_⟩
      · rw [Excerpt.chars_of_skip? hskip, ← hclose]
        exact congrArg (',' :: ·) List.takeWhile_append_dropWhile.symm
      · intro hmem
        simpa using List.all_eq_true.mp List.all_takeWhile _ hmem
      · rw [← hbody]

/-- The end of a reference completes its parts. -/
theorem exists_parts_of_readEnd? {opening : Parts} {fallback : Option Excerpt} {start : Nat}
    (hnone : opening.body = none) (hstart : e.start = start + byteSize opening.opening)
    (h : readEnd? e = some (fallback, rest)) :
    ∃ p : Parts, p.reference start = ⟨String.ofList opening.name, fallback, ⟨start, p.chars⟩⟩ ∧
      opening.opening ++ e.chars = p.chars ++ rest.chars := by
  rcases readEnd?_spec h with ⟨hchars, rfl⟩ | ⟨body, hchars, hbody, rfl⟩
  · refine ⟨opening, ?_, ?_⟩
    · simp only [Parts.reference, Parts.body?, hnone, Option.map_none, Option.bind_none]
    · simp [Parts.chars, Parts.argument, hnone, hchars]
  · refine ⟨{ opening with body := some body, body_open := by simpa using hbody }, ?_, ?_⟩
    · rw [hstart]
      rfl
    · simp [Parts.chars, Parts.argument, hchars, Parts.opening]

/-- A reference that is read is written at the start of the text. -/
theorem read?_parts (h : read? e = some (r, rest)) :
    ∃ p : Parts, r = p.reference e.start ∧ e.chars = p.chars ++ rest.chars := by
  simp only [read?, Option.bind_eq_bind, Option.bind_eq_some_iff] at h
  obtain ⟨opened, hopen, ⟨name, afterName⟩, hname, ⟨fallback, after⟩, hend, heq⟩ := h
  cases heq
  obtain ⟨hisName, -, hchars⟩ := Excerpt.readVariableName?_spec hname
  let opening : Parts := {
    lead := opened.chars.takeWhile isBlank
    name := name.chars
    gap := afterName.chars.takeWhile isBlank
    body := none
    lead_blank := List.all_eq_true.mp List.all_takeWhile
    isName := hisName
    gap_blank := List.all_eq_true.mp List.all_takeWhile
    body_open := by simp }
  have hopening : e.chars = opening.opening ++ (afterName.dropWhile isBlank).chars := by
    calc e.chars = ['v', 'a', 'r', '('] ++ opened.chars := Excerpt.chars_of_skip? hopen
      _ = ['v', 'a', 'r', '('] ++ (opening.lead ++ (opened.dropWhile isBlank).chars) :=
        congrArg _ List.takeWhile_append_dropWhile.symm
      _ = ['v', 'a', 'r', '('] ++ (opening.lead ++ (name.chars ++ afterName.chars)) := by
        rw [hchars]
      _ = ['v', 'a', 'r', '('] ++ (opening.lead ++ (name.chars ++
          (opening.gap ++ (afterName.dropWhile isBlank).chars))) :=
        congrArg _ (congrArg _ (congrArg _ List.takeWhile_append_dropWhile.symm))
      _ = _ := by simp only [Parts.opening, List.append_assoc]; rfl
  have hrest : (afterName.dropWhile isBlank).RestOf e :=
    (((Excerpt.restOf_dropWhile isBlank afterName).trans
      (Excerpt.restOf_readVariableName? hname).1).trans
      (Excerpt.restOf_dropWhile isBlank opened)).trans (Excerpt.restOf_skip? hopen)
  obtain ⟨p, hp, hsplit⟩ := exists_parts_of_readEnd? (show opening.body = none from rfl)
    (hrest.start_eq hopening) hend
  rw [← hopening] at hsplit
  exact ⟨p, by rw [hp, Excerpt.upTo_eq hsplit]; rfl, hsplit⟩

/-! ## Where the parts stand -/

namespace Parts

variable (p : Parts) (start : Nat)

theorem firm_start_source : (p.reference start).source.Firm start :=
  Excerpt.firm_start (c := 'v') rfl (by decide)

theorem firm_stop_source : (p.reference start).source.Firm (p.reference start).source.stop :=
  Excerpt.firm_stop (c := ')') rfl (by decide)

/-- What stands after the comma is followed by the closing parenthesis. -/
theorem body?_spec {body : Excerpt} (h : p.body? start = some body) :
    body.PartOf (p.reference start).source ∧ (p.reference start).source.Anchored body.stop := by
  obtain ⟨cs, hcs, rfl⟩ := Option.map_eq_some_iff.mp h
  have hchars : (p.reference start).source.chars = (p.opening ++ ',' :: cs) ++ [')'] := by
    simp only [reference, chars, argument, hcs]
  constructor
  · refine ⟨p.opening ++ [','], [')'], ?_, ?_⟩
    · rw [hchars, List.append_assoc p.opening [',']]
      rfl
    · rw [byteSize_append, ← Nat.add_assoc]
      rfl
  · have hfirm := Excerpt.firm_before hchars (by decide)
    rw [byteSize_append, byteSize_cons, ← Nat.add_assoc, ← Nat.add_assoc] at hfirm
    exact .inl hfirm

theorem firmIn_fallback {f : Excerpt} (h : (p.reference start).fallback = some f) :
    f.FirmIn (p.reference start).source := by
  obtain ⟨body, hbody, hf⟩ := Option.bind_eq_some_iff.mp h
  obtain ⟨hpart, hstop⟩ := p.body?_spec start hbody
  split at hf
  · cases hf
  · cases hf
    exact body.firmIn_trim.of_partOf hpart hstop

end Parts

/-! ## The references of a value -/

theorem exists_parts_of_mem_references (h : r ∈ e.references) :
    ∃ p : Parts, r = p.reference r.source.start := by
  fun_induction Excerpt.references e with
  | case1 e first rest hread _ ih =>
    rcases List.mem_cons.mp h with rfl | hmem
    · obtain ⟨p, hp, _⟩ := read?_parts hread
      refine ⟨p, ?_⟩
      rw [hp]
      rfl
    · exact ih hmem
  | case2 => cases h
  | case3 e _ c cs _ _ ih => exact ih h

theorem firmIn_source_of_mem_references (h : r ∈ e.references) : r.source.FirmIn e := by
  have hpart := (inOrder_references e).partOf h
  obtain ⟨p, hp⟩ := exists_parts_of_mem_references h
  have hstart := p.firm_start_source r.source.start
  have hstop := p.firm_stop_source r.source.start
  rw [← hp] at hstart hstop
  exact ⟨hpart, .inl (hstart.of_partOf hpart), .inl (hstop.of_partOf hpart)⟩

theorem firmIn_fallback_of_mem_references {f : Excerpt} (h : r ∈ e.references)
    (hf : r.fallback = some f) : f.FirmIn e := by
  obtain ⟨p, hp⟩ := exists_parts_of_mem_references h
  rw [hp] at hf
  have hfirm := p.firmIn_fallback _ hf
  rw [← hp] at hfirm
  exact hfirm.trans (firmIn_source_of_mem_references h)

end Reference

end StyleVars
