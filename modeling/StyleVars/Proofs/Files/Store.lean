import StyleVars.Files.Store
import StyleVars.Proofs.Path.Normal

/-!
# Changes to a store

A store that is built by its own operations lists every path that has a text. A change to one path
leaves what is read at every other path as it was.
-/

namespace StyleVars

/-- A change to the files of a store. -/
inductive FileChange where
  | write (path text : String)
  | delete (path : String)
  | setUnreadable (path : String) (on : Bool)
deriving Repr, DecidableEq

namespace FileStore

variable {s : FileStore} {p : Path}

@[simp] theorem normalize_key (path : String) : (key path).normalize = key path := by
  simp [key]

@[simp] theorem read?_normalize (s : FileStore) (p : Path) : s.read? p.normalize = s.read? p := by
  simp [read?]

/-- Every path with a text is listed. -/
def Listed (s : FileStore) : Prop := ∀ e ∈ s.texts, e.1 ∈ s.listing.map key

theorem mem_listing_of_read? (h : s.Listed) {text : String} (hread : s.read? p = some text) :
    p.normalize ∈ s.listing.map key := by
  unfold read? at hread
  split at hread
  · cases hread
  · obtain ⟨before, after, htexts, _⟩ := List.lookup_eq_some_iff.mp hread
    exact h (p.normalize, text) (by simp [htexts])

theorem Listed.empty : FileStore.empty.Listed := by
  intro e he
  cases he

theorem Listed.write (h : s.Listed) (path text : String) : (s.write path text).Listed := by
  have hkept : ∀ q ∈ s.listing.map key, q ∈ (s.write path text).listing.map key := by
    intro q hq
    simp only [FileStore.write]
    split
    · exact hq
    · rw [List.map_append]
      exact List.mem_append_left _ hq
  intro e he
  rcases List.mem_cons.mp he with rfl | he
  · simp only [FileStore.write]
    split
    · rename_i hlisted
      obtain ⟨listed, hmem, hkey⟩ := List.any_eq_true.mp hlisted
      exact List.mem_map.mpr ⟨listed, hmem, by simpa using hkey⟩
    · simp
  · exact hkept _ (h e (List.mem_filter.mp he).1)

theorem Listed.delete (h : s.Listed) (path : String) : (s.delete path).Listed := by
  intro e he
  obtain ⟨hmem, hne⟩ := List.mem_filter.mp he
  obtain ⟨listed, hlisted, hkey⟩ := List.mem_map.mp (h e hmem)
  refine List.mem_map.mpr ⟨listed, List.mem_filter.mpr ⟨hlisted, ?_⟩, hkey⟩
  simpa [hkey] using hne

theorem Listed.setUnreadable (h : s.Listed) (path : String) (on : Bool) :
    (s.setUnreadable path on).Listed := h

theorem lookup_filter_of_ne (texts : List (Path × String)) {q : Path} (h : q ≠ p) :
    (texts.filter (·.1 != q)).lookup p = texts.lookup p := by
  induction texts with
  | nil => rfl
  | cons e rest ih =>
    by_cases he : e.1 = q
    · have hp : (p == e.1) = false := by simpa [he] using Ne.symm h
      rw [List.filter_cons_of_neg (by simpa using he), ih, List.lookup_cons, hp]
    · rw [List.filter_cons_of_pos (by simpa using he), List.lookup_cons, List.lookup_cons, ih]

theorem read?_write_of_ne (s : FileStore) {path : String} (text : String)
    (h : key path ≠ p.normalize) : (s.write path text).read? p = s.read? p := by
  have hp : (p.normalize == key path) = false := by simpa using Ne.symm h
  simp only [read?, write, List.lookup_cons, hp, lookup_filter_of_ne s.texts h]

theorem read?_delete_of_ne (s : FileStore) {path : String} (h : key path ≠ p.normalize) :
    (s.delete path).read? p = s.read? p := by
  simp only [read?, delete, lookup_filter_of_ne s.texts h]

theorem read?_setUnreadable_of_ne (s : FileStore) {path : String} (on : Bool)
    (h : key path ≠ p.normalize) : (s.setUnreadable path on).read? p = s.read? p := by
  have hsame : (s.setUnreadable path on).unreadable.contains p.normalize =
      s.unreadable.contains p.normalize := by
    cases on <;> simp [setUnreadable, Ne.symm h]
  simp only [read?, hsame]
  rfl

theorem read?_delete_self (s : FileStore) (path : String) :
    (s.delete path).read? (key path) = none := by
  have hnone : (s.texts.filter (·.1 != key path)).lookup (key path) = none := by
    rw [List.lookup_eq_none_iff]
    intro e he
    simpa using Ne.symm (by simpa using (List.mem_filter.mp he).2)
  simp [read?, delete, hnone]

theorem mem_listing_write_of_ne (s : FileStore) {path : String} (text : String) (h : key path ≠ p) :
    p ∈ (s.write path text).listing.map key ↔ p ∈ s.listing.map key := by
  simp only [write]
  split
  · rfl
  · simp [Ne.symm h]

theorem mem_listing_delete (s : FileStore) (path : String) :
    p ∈ (s.delete path).listing.map key ↔ p ∈ s.listing.map key ∧ key path ≠ p := by
  simp only [delete, List.mem_map, List.mem_filter, decide_eq_true_eq]
  constructor
  · rintro ⟨listed, ⟨hmem, hne⟩, rfl⟩
    exact ⟨⟨listed, hmem, rfl⟩, Ne.symm hne⟩
  · rintro ⟨⟨listed, hmem, rfl⟩, hne⟩
    exact ⟨listed, ⟨hmem, Ne.symm hne⟩, rfl⟩

/-- The store after a change. -/
def change (s : FileStore) : FileChange → FileStore
  | .write path text => s.write path text
  | .delete path => s.delete path
  | .setUnreadable path on => s.setUnreadable path on

end FileStore

/-- The path that a change is about. -/
def FileChange.path : FileChange → Path
  | .write path _ => FileStore.key path
  | .delete path => FileStore.key path
  | .setUnreadable path _ => FileStore.key path

namespace FileStore

theorem Listed.change {s : FileStore} (h : s.Listed) (c : FileChange) : (s.change c).Listed := by
  cases c with
  | write path text => exact h.write path text
  | delete path => exact h.delete path
  | setUnreadable path on => exact h.setUnreadable path on

theorem read?_change_of_ne (s : FileStore) {c : FileChange} {p : Path} (h : c.path ≠ p.normalize) :
    (s.change c).read? p = s.read? p := by
  cases c with
  | write path text => exact s.read?_write_of_ne text h
  | delete path => exact s.read?_delete_of_ne h
  | setUnreadable path on => exact s.read?_setUnreadable_of_ne on h

end FileStore

end StyleVars
