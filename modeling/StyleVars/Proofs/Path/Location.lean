import StyleVars.Proofs.Path.Normal

/-!
# Where a path leads

A path is followed component by component, from the root or from wherever it starts. A parent
reference leaves the directory entered last; above the start of a relative path it goes one level
up, and at the root it stays. Normalization takes a parent reference away together with another one
before it, so it keeps the place to which a path leads as long as that is at most one level above
the start.
-/

namespace StyleVars

/-- A place seen from the root or from some start: how many levels above it to begin, and which
directories to enter from there, the last one first. -/
structure Location where
  absolute : Bool
  up : Nat
  names : List String
deriving Repr, DecidableEq

namespace Location

def start : Location := ⟨false, 0, []⟩

/-- Follow one component. -/
def follow (l : Location) : PathComponent → Location
  | .root => ⟨true, 0, []⟩
  | .current => l
  | .name s => { l with names := s :: l.names }
  | .parent =>
    match l.names with
    | _ :: rest => { l with names := rest }
    | [] => if l.absolute then l else { l with up := l.up + 1 }

theorem mem_names_follow {l : Location} {c : PathComponent} {n : String}
    (h : n ∈ (l.follow c).names) : n ∈ l.names ∨ c = .name n := by
  obtain ⟨absolute, up, names⟩ := l
  cases c with
  | root => cases h
  | current => exact .inl h
  | name s =>
    rcases List.mem_cons.mp h with rfl | hlater
    · exact .inr rfl
    · exact .inl hlater
  | parent =>
    cases names with
    | nil => cases absolute <;> cases h
    | cons s rest => exact .inl (List.mem_cons_of_mem s h)

theorem mem_names_foldl_follow {components : List PathComponent} {l : Location} {n : String}
    (h : n ∈ (components.foldl follow l).names) : n ∈ l.names ∨ .name n ∈ components := by
  induction components generalizing l with
  | nil => exact .inl h
  | cons c rest ih =>
    rcases ih h with hname | hlater
    · rcases mem_names_follow hname with hname | rfl
      · exact .inl hname
      · exact .inr List.mem_cons_self
    · exact .inr (List.mem_cons_of_mem c hlater)

theorem foldl_follow_names (l : Location) (names : List String) :
    (names.reverse.map PathComponent.name).foldl follow l =
      { l with names := names ++ l.names } := by
  induction names with
  | nil => rfl
  | cons s names ih =>
    rw [List.reverse_cons, List.map_append, List.foldl_append, ih]
    rfl

end Location

namespace Path

/-- Where a path leads. -/
def location (p : Path) : Location := p.components.foldl Location.follow .start

/-- What lies below the names on the stack of normalization: whether the path is absolute, how many
levels it has gone up, and the components that are left of that. -/
inductive Ground : Bool → Nat → List PathComponent → Prop where
  | even {up : Nat} : up % 2 = 0 → Ground false up []
  | odd {up : Nat} : up % 2 = 1 → Ground false up [.parent]
  | root : Ground true 0 [.root]
  | overRoot : Ground true 0 [.parent, .root]

/-- A stack holds the names of a place on top, and below them only whether the number of levels is
odd. -/
def Stacks (done : List PathComponent) (l : Location) : Prop :=
  ∃ ground, Ground l.absolute l.up ground ∧ done = l.names.map .name ++ ground

theorem Ground.push_parent {absolute : Bool} {up : Nat} {ground : List PathComponent}
    (h : Ground absolute up ground) :
    Stacks (push ground .parent) (Location.follow ⟨absolute, up, []⟩ .parent) := by
  cases h with
  | even hup =>
    have hnext : (up + 1) % 2 = 1 := by omega
    exact ⟨[.parent], .odd hnext, rfl⟩
  | odd hup =>
    have hnext : (up + 1) % 2 = 0 := by omega
    exact ⟨[], .even hnext, rfl⟩
  | root => exact ⟨[.parent, .root], .overRoot, rfl⟩
  | overRoot => exact ⟨[.root], .root, rfl⟩

theorem Stacks.push {done : List PathComponent} {l : Location} (h : Stacks done l)
    {c : PathComponent} (hc : c ≠ .root) : Stacks (push done c) (l.follow c) := by
  obtain ⟨absolute, up, names⟩ := l
  obtain ⟨ground, hground, rfl⟩ := h
  cases c with
  | root => exact absurd rfl hc
  | current => exact ⟨ground, hground, rfl⟩
  | name s => exact ⟨ground, hground, rfl⟩
  | parent =>
    cases names with
    | nil => exact hground.push_parent
    | cons s rest => exact ⟨ground, hground, rfl⟩

theorem Stacks.foldl_push {done : List PathComponent} {l : Location} (h : Stacks done l)
    {components : List PathComponent} (hroot : .root ∉ components) :
    Stacks (components.foldl Path.push done) (components.foldl Location.follow l) := by
  induction components generalizing done l with
  | nil => exact h
  | cons c rest ih =>
    rw [List.mem_cons, not_or] at hroot
    exact ih (h.push (Ne.symm hroot.1)) hroot.2

/-- Reading a stack from its bottom leads to the place, less the pairs of levels that are gone. -/
theorem Stacks.foldl_follow {done : List PathComponent} {l : Location} (h : Stacks done l) :
    done.reverse.foldl Location.follow .start = { l with up := l.up % 2 } := by
  obtain ⟨absolute, up, names⟩ := l
  obtain ⟨ground, hground, rfl⟩ := h
  have hbase : ground.reverse.foldl Location.follow .start = ⟨absolute, up % 2, []⟩ := by
    cases hground with
    | even hup => rw [hup]; rfl
    | odd hup => rw [hup]; rfl
    | root => rfl
    | overRoot => rfl
  rw [List.reverse_append, List.foldl_append, hbase, ← List.map_reverse,
    Location.foldl_follow_names, List.append_nil]

/-- A root is nowhere but at the start. -/
def RootFirst (p : Path) : Prop := .root ∉ p.components.tail

theorem RootFirst.stacks {p : Path} (h : p.RootFirst) :
    Stacks (p.components.foldl push []) p.location := by
  obtain ⟨components⟩ := p
  have hstart : Stacks [] .start := ⟨[], .even rfl, rfl⟩
  cases components with
  | nil => exact hstart
  | cons c rest =>
    rw [location, List.foldl_cons, List.foldl_cons]
    refine Stacks.foldl_push ?_ h
    by_cases hc : c = .root
    · subst hc
      exact ⟨[.root], .root, rfl⟩
    · exact hstart.push hc

theorem RootFirst.location_normalize {p : Path} (h : p.RootFirst) :
    p.normalize.location = { p.location with up := p.location.up % 2 } :=
  h.stacks.foldl_follow

theorem RootFirst.up_of_absolute {p : Path} (h : p.RootFirst)
    (habsolute : p.location.absolute = true) : p.location.up = 0 := by
  obtain ⟨ground, hground, -⟩ := h.stacks
  rw [habsolute] at hground
  generalize p.location.up = up at hground ⊢
  cases hground with
  | root => rfl
  | overRoot => rfl

end Path

section Reading

variable {sep : Char} {cs : List Char}

theorem notMem_of_mem_splitAtEach {piece : List Char} (h : piece ∈ splitAtEach sep cs) :
    sep ∉ piece := by
  induction cs generalizing piece with
  | nil =>
    rw [List.mem_singleton.mp h]
    exact List.not_mem_nil
  | cons c cs ih =>
    rw [splitAtEach] at h
    split at h
    · rcases List.mem_cons.mp h with rfl | hlater
      · exact List.not_mem_nil
      · exact ih hlater
    · rename_i hc
      cases hpieces : splitAtEach sep cs with
      | nil =>
        rw [hpieces] at h
        rw [List.mem_singleton.mp h, List.mem_singleton]
        exact Ne.symm hc
      | cons first rest =>
        rw [hpieces] at h ih
        rcases List.mem_cons.mp h with rfl | hlater
        · rw [List.mem_cons, not_or]
          exact ⟨Ne.symm hc, ih List.mem_cons_self⟩
        · exact ih (List.mem_cons_of_mem first hlater)

theorem splitAtEach_of_notMem (h : sep ∉ cs) : splitAtEach sep cs = [cs] := by
  induction cs with
  | nil => rfl
  | cons c cs ih =>
    rw [List.mem_cons, not_or] at h
    rw [splitAtEach, if_neg (Ne.symm h.1), ih h.2]

theorem splitAtEach_append (h : sep ∉ cs) (rest : List Char) :
    splitAtEach sep (cs ++ sep :: rest) = cs :: splitAtEach sep rest := by
  induction cs with
  | nil => simp [splitAtEach]
  | cons c cs ih =>
    rw [List.mem_cons, not_or] at h
    rw [List.cons_append, splitAtEach, if_neg (Ne.symm h.1), ih h.2]

theorem splitAtEach_intercalate {piece : List Char} {pieces : List (List Char)}
    (h : ∀ p ∈ piece :: pieces, sep ∉ p) :
    splitAtEach sep ([sep].intercalate (piece :: pieces)) = piece :: pieces := by
  induction pieces generalizing piece with
  | nil =>
    rw [List.intercalate_singleton]
    exact splitAtEach_of_notMem (h piece List.mem_cons_self)
  | cons next pieces ih =>
    obtain ⟨hpiece, hlater⟩ := List.forall_mem_cons.mp h
    rw [List.intercalate_cons_cons, List.append_assoc, List.singleton_append,
      splitAtEach_append hpiece, ih hlater]

end Reading

namespace Path

/-- A component that a piece of text between slashes stands for. -/
def IsPiece (c : PathComponent) : Prop := piece? c.text.toList = some c ∧ '/' ∉ c.text.toList

theorem isPiece_of_piece? {cs : List Char} {c : PathComponent} (hread : piece? cs = some c)
    (hcs : '/' ∉ cs) : IsPiece c := by
  have htext : c.text.toList = cs := by
    rw [piece?] at hread
    split at hread
    · cases hread
    · split at hread
      · rename_i hparent
        cases hread
        exact hparent.symm
      · cases hread
        exact String.toList_ofList
  rw [IsPiece, htext]
  exact ⟨hread, hcs⟩

theorem isPiece_parent : IsPiece .parent := ⟨rfl, by decide⟩

theorem IsPiece.ne_root {c : PathComponent} (h : IsPiece c) : c ≠ .root := by
  rintro rfl
  exact h.2 (by decide)

/-- All components of a text are read from pieces, but that the first one may be special. -/
theorem exists_components_ofChars (cs : List Char) :
    ∃ first later, (ofChars cs).components = first ++ later ∧ first.length ≤ 1 ∧
      (∀ c ∈ first, c = .root ∨ c = .current ∨ IsPiece c) ∧ ∀ c ∈ later, IsPiece c := by
  have hpieces (piece : List Char) (h : piece ∈ splitAtEach '/' cs) : '/' ∉ piece :=
    notMem_of_mem_splitAtEach h
  rw [ofChars]
  cases hsplit : splitAtEach '/' cs with
  | nil => exact ⟨[], [], rfl, by simp, by simp, by simp⟩
  | cons piece pieces =>
    rw [hsplit] at hpieces
    have hlater : ∀ c ∈ pieces.filterMap piece?, IsPiece c := by
      intro c hc
      obtain ⟨p, hp, hread⟩ := List.mem_filterMap.mp hc
      exact isPiece_of_piece? hread (hpieces p (List.mem_cons_of_mem piece hp))
    dsimp only
    split
    · exact ⟨[.root], _, rfl, by simp, by simp, hlater⟩
    · split
      · exact ⟨[.current], _, rfl, by simp, by simp, hlater⟩
      · refine ⟨(piece? piece).toList, _, rfl, Option.length_toList_le, ?_, hlater⟩
        intro c hc
        have hread := Option.mem_toList.mp hc
        exact .inr (.inr (isPiece_of_piece? hread (hpieces piece List.mem_cons_self)))

theorem rootFirst_ofChars (cs : List Char) : (ofChars cs).RootFirst := by
  obtain ⟨first, later, hcomponents, hlength, -, hlater⟩ := exists_components_ofChars cs
  rw [RootFirst, hcomponents]
  intro hroot
  cases first with
  | nil => exact (hlater _ (List.mem_of_mem_tail hroot)).ne_root rfl
  | cons c rest =>
    cases rest with
    | nil => exact (hlater _ hroot).ne_root rfl
    | cons d rest => simp at hlength

theorem isPiece_name_of_mem {cs : List Char} {n : String}
    (h : .name n ∈ (ofChars cs).components) : IsPiece (.name n) := by
  obtain ⟨first, later, hcomponents, -, hfirst, hlater⟩ := exists_components_ofChars cs
  rw [hcomponents, List.mem_append] at h
  rcases h with h | h
  · simpa using hfirst _ h
  · exact hlater _ h

theorem filterMap_piece? {components : List PathComponent} (h : ∀ c ∈ components, IsPiece c) :
    (components.map (·.text.toList)).filterMap piece? = components := by
  induction components with
  | nil => rfl
  | cons c rest ih =>
    obtain ⟨hc, hrest⟩ := List.forall_mem_cons.mp h
    rw [List.map_cons, List.filterMap_cons, hc.1, ih hrest]

theorem splitAtEach_text {c : PathComponent} {rest : List PathComponent}
    (h : ∀ d ∈ c :: rest, IsPiece d) :
    splitAtEach '/' (String.intercalate "/" ((c :: rest).map (·.text))).toList =
      (c :: rest).map (·.text.toList) := by
  rw [String.toList_intercalate, List.map_map]
  apply splitAtEach_intercalate
  intro p hp
  obtain ⟨d, hd, rfl⟩ := List.mem_map.mp (List.map_cons ▸ hp)
  exact (h d hd).2

theorem ofString_text_root {components : List PathComponent} (h : ∀ c ∈ components, IsPiece c) :
    ofString (text ⟨.root :: components⟩) = ⟨.root :: components⟩ := by
  have hchars : (text ⟨.root :: components⟩).toList =
      '/' :: (String.intercalate "/" (components.map (·.text))).toList := by
    rw [text, String.toList_append]
    rfl
  have hsplit : (splitAtEach '/' (String.intercalate "/" (components.map (·.text))).toList).filterMap
      piece? = components := by
    cases components with
    | nil => rfl
    | cons c rest => rw [splitAtEach_text h, filterMap_piece? h]
  rw [ofString, hchars, ofChars, splitAtEach, if_pos rfl]
  dsimp only
  rw [if_pos List.head?_cons, hsplit]

theorem ofString_text {components : List PathComponent} (h : ∀ c ∈ components, IsPiece c) :
    ofString (text ⟨components⟩) = ⟨components⟩ := by
  cases components with
  | nil => rfl
  | cons c rest =>
    have htext : text ⟨c :: rest⟩ = String.intercalate "/" ((c :: rest).map (·.text)) := by
      cases c with
      | root => exact absurd rfl (h _ List.mem_cons_self).ne_root
      | current => rfl
      | parent => rfl
      | name s => rfl
    obtain ⟨hc, hrest⟩ := List.forall_mem_cons.mp h
    have hsplit := splitAtEach_text h
    have hslash : (String.intercalate "/" ((c :: rest).map (·.text))).toList.head? ≠ some '/' := by
      intro hhead
      obtain ⟨cs, hcs⟩ := List.head?_eq_some_iff.mp hhead
      rw [hcs, splitAtEach, if_pos rfl] at hsplit
      have hempty : [] = c.text.toList := (List.cons.inj hsplit).1
      have hread := hc.1
      rw [← hempty] at hread
      cases hread
    have hdot : c.text.toList ≠ ['.'] := by
      intro hdot
      have hread := hc.1
      rw [hdot] at hread
      cases hread
    rw [ofString, htext, ofChars, hsplit, List.map_cons]
    dsimp only
    rw [if_neg hslash, if_neg hdot, hc.1, filterMap_piece? hrest]
    rfl

/-- What may stand before the names of a normal path: a root, a parent reference, or the reference
after the root. -/
def tops : List (List PathComponent) := [[], [.parent], [.root], [.root, .parent]]

/-- A path in normal form. There is no reference to the current directory and at most one to a
parent, at the start or right after the root. All else are names, and read as such. -/
def IsNormal (p : Path) : Prop :=
  ∃ top ∈ tops, ∃ names : List String, p.components = top ++ names.map .name ∧
    ∀ n ∈ names, IsPiece (.name n)

theorem Ground.reverse_mem_tops {absolute : Bool} {up : Nat} {ground : List PathComponent}
    (h : Ground absolute up ground) : ground.reverse ∈ tops := by
  cases h <;> decide

theorem isNormal_normalize (cs : List Char) : (ofChars cs).normalize.IsNormal := by
  obtain ⟨ground, hground, hdone⟩ := (rootFirst_ofChars cs).stacks
  refine ⟨ground.reverse, hground.reverse_mem_tops, (ofChars cs).location.names.reverse, ?_, ?_⟩
  · rw [normalize, hdone, List.reverse_append, List.map_reverse]
  · intro n hn
    rcases Location.mem_names_foldl_follow (List.mem_reverse.mp hn) with hstart | hmem
    · cases hstart
    · exact isPiece_name_of_mem hmem

/-- The text of a normal path is read as that path again. -/
theorem IsNormal.ofString_text {p : Path} (h : p.IsNormal) : ofString p.text = p := by
  obtain ⟨components⟩ := p
  obtain ⟨top, htop, names, rfl, hpieces⟩ := h
  have hnames : ∀ c ∈ names.map PathComponent.name, IsPiece c := by
    intro c hc
    obtain ⟨n, hn, rfl⟩ := List.mem_map.mp hc
    exact hpieces n hn
  simp only [tops, List.mem_cons, List.not_mem_nil, or_false] at htop
  rcases htop with rfl | rfl | rfl | rfl
  · exact Path.ofString_text hnames
  · exact Path.ofString_text (List.forall_mem_cons.mpr ⟨isPiece_parent, hnames⟩)
  · exact ofString_text_root hnames
  · exact ofString_text_root (List.forall_mem_cons.mpr ⟨isPiece_parent, hnames⟩)

theorem ofString_text_normalize (cs : List Char) :
    ofString (ofChars cs).normalize.text = (ofChars cs).normalize :=
  (isNormal_normalize cs).ofString_text

/-- The normal form of a path is read back from its text. It leads to the same place as the path
exactly when that is at most one level above the start. The two always agree on where to begin and
on the directories to enter; of the levels above the start, the normal form keeps whether their
number is odd. An absolute path has none of them. -/
theorem normalize_keeps_location_iff (s : String) :
    Path.ofString (Path.ofString s).normalize.text = (Path.ofString s).normalize ∧
      let place := (Path.ofString s).location
      let kept := (Path.ofString s).normalize.location
      kept = { place with up := place.up % 2 } ∧ (kept = place ↔ place.up ≤ 1) ∧
        (place.absolute = true → kept = place) := by
  have hfirst : (Path.ofString s).RootFirst := rootFirst_ofChars s.toList
  refine ⟨ofString_text_normalize s.toList, ?_⟩
  intro place kept
  have hkept : kept = { place with up := place.up % 2 } := hfirst.location_normalize
  have hsame : kept = place ↔ place.up ≤ 1 := by
    rw [hkept]
    constructor
    · intro h
      have hup : place.up % 2 = place.up := congrArg Location.up h
      omega
    · intro h
      have hup : place.up % 2 = place.up := by omega
      rw [hup]
  refine ⟨hkept, hsame, ?_⟩
  intro habsolute
  apply hsame.mpr
  have hup : place.up = 0 := hfirst.up_of_absolute habsolute
  omega

/-- Two levels up are lost. -/
theorem normalize_loses_two_levels :
    let p := Path.ofString "../.."
    p.normalize.text = "" ∧ p.location = ⟨false, 2, []⟩ ∧ p.normalize.location = ⟨false, 0, []⟩ := by
  decide +kernel

end Path

end StyleVars
