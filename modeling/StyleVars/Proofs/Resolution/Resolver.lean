import Mathlib.Order.Basic
import StyleVars.Proofs.Index.Site
import StyleVars.Resolution.Resolver

/-!
# Cached answers

A cache is sound when the answers it holds for the current version are right. Versions only grow, so
answers for an older version can never come back into use: what a cache holds of them does not
matter. Each operation on an index that changes the catalog gives it a later generation, and so a
resolver that was faithful before it is faithful after it.
-/

namespace StyleVars

namespace Cache

variable {version key answer : Type} {c : Cache version key answer} {v w : version}
  {right other : key → answer → Prop} {k : key} {a : answer}

theorem seen_sync [DecidableEq version] (c : Cache version key answer) (v : version) :
    (c.sync v).seen = v := by
  rw [sync]
  split
  · assumption
  · rfl

variable [PartialOrder version]

/-- The cache has seen no version after `v`, and its answers for `v` are right. -/
structure Sound (c : Cache version key answer) (v : version) (right : key → answer → Prop) :
    Prop where
  seen_le : c.seen ≤ v
  answers : c.seen = v → ∀ e ∈ c.entries, right e.1 e.2

theorem Sound.empty (v : version) : (Cache.empty v : Cache version key answer).Sound v right :=
  ⟨le_refl v, fun _ e he => by cases he⟩

theorem Sound.sync [DecidableEq version] (h : c.Sound v right) : (c.sync v).Sound v right := by
  rw [Cache.sync]
  split
  · exact h
  · exact .empty v

theorem Sound.right_of_find? [DecidableEq key] (h : c.Sound v right) (hseen : c.seen = v)
    (hfind : c.find? k = some a) : right k a := by
  obtain ⟨e, he, rfl⟩ := Option.map_eq_some_iff.mp hfind
  have hkey : e.1 = k := by simpa using List.find?_some he
  exact hkey ▸ h.answers hseen e (List.mem_of_find?_eq_some he)

theorem Sound.forget [DecidableEq key] (h : c.Sound v right) (k : key) :
    (c.forget k).Sound v right :=
  ⟨h.seen_le, fun hseen e he => h.answers hseen e (List.mem_filter.mp he).1⟩

theorem Sound.note [DecidableEq key] (h : c.Sound v right) (ha : right k a) :
    (c.note k a).Sound v right := by
  refine ⟨h.seen_le, fun hseen e he => ?_⟩
  rcases List.mem_cons.mp he with rfl | hold
  · exact ha
  · exact (h.forget k).answers hseen e hold

theorem Sound.clear (h : c.Sound v right) : c.clear.Sound v right :=
  ⟨h.seen_le, fun _ e he => by cases he⟩

/-- After a later version nothing is asked of the answers. -/
theorem Sound.advance (h : c.Sound v right) (hlt : v < w) : c.Sound w other :=
  ⟨le_trans h.seen_le (le_of_lt hlt),
    fun hseen => absurd (hseen ▸ h.seen_le) (not_le_of_gt hlt)⟩

end Cache

namespace Index

variable {ix next last : Index}

/-- The next index is one that an operation may leave. Its catalog is the same unless its generation
is a later one, and is consistent if it was. -/
structure Advances (ix next : Index) : Prop where
  counted : ix.generation < next.generation ∨
    next.generation = ix.generation ∧ next.catalog = ix.catalog
  consistent : ix.catalog.Consistent → next.catalog.Consistent

theorem Advances.of_catalog_eq (hgeneration : next.generation = ix.generation)
    (hcatalog : next.catalog = ix.catalog) : ix.Advances next :=
  ⟨.inr ⟨hgeneration, hcatalog⟩, fun h => hcatalog ▸ h⟩

theorem Advances.refl (ix : Index) : ix.Advances ix := .of_catalog_eq rfl rfl

theorem Advances.trans (h : ix.Advances next) (h' : next.Advances last) : ix.Advances last := by
  refine ⟨?_, fun hc => h'.consistent (h.consistent hc)⟩
  rcases h.counted with hlt | ⟨hgeneration, hcatalog⟩
  · rcases h'.counted with hlt' | ⟨hgeneration', _⟩
    · exact .inl (Nat.lt_trans hlt hlt')
    · exact .inl (hgeneration' ▸ hlt)
  · rcases h'.counted with hlt' | ⟨hgeneration', hcatalog'⟩
    · exact .inl (hgeneration ▸ hlt')
    · exact .inr ⟨hgeneration'.trans hgeneration, hcatalog'.trans hcatalog⟩

theorem advances_countReads (ix : Index) (n : Nat) : ix.Advances (ix.countReads n) :=
  .of_catalog_eq rfl rfl

theorem advances_invalidate (ix : Index) : ix.Advances ix.invalidate := by
  rw [invalidate]
  split <;> exact .of_catalog_eq rfl rfl

theorem advances_setFilter (ix : Index) (filter : PathFilter) :
    ix.Advances (ix.setFilter filter) := by
  have hset : ix.Advances { ix with filter } := .of_catalog_eq rfl rfl
  exact hset.trans (advances_invalidate _)

theorem advances_beginScan (ix : Index) (store : FileStore) :
    ix.Advances (ix.beginScan store).1 := .of_catalog_eq rfl rfl

theorem advances_finishScan (ix : Index) {s : Scan} (h : s.Consistent) :
    ix.Advances (ix.finishScan s) :=
  ⟨.inl (Nat.lt_succ_self _), fun _ => h.found.refreshed true⟩

theorem advances_scan (ix : Index) (store : FileStore) (force : Bool) :
    ix.Advances (ix.scan store force) := by
  refine ⟨?_, fun hc => consistent_scan hc store force⟩
  rw [scan]
  split
  · exact .inl (Nat.lt_succ_self _)
  · exact .inr ⟨rfl, rfl⟩

theorem advances_remove (ix : Index) (path : Path) : ix.Advances (ix.remove path).1 := by
  refine ⟨?_, fun hc => consistent_remove hc path⟩
  rw [remove]
  split
  · exact .inl (Nat.lt_succ_self _)
  · exact .inr ⟨rfl, rfl⟩

theorem advances_update (ix : Index) (store : FileStore) (path : Path) :
    ix.Advances (ix.update store path) := by
  refine ⟨?_, fun hc => consistent_update hc store path⟩
  rw [update]
  split
  · exact .inl (Nat.lt_succ_self _)
  · exact (ix.advances_remove _).counted

theorem advances_dispose (ix : Index) : ix.Advances ix.dispose :=
  ⟨.inl (Nat.lt_succ_self _), fun _ => .empty⟩

end Index

namespace Resolver

variable {r : Resolver} {ix next : Index}

/-- The resolver answers for this index as if it had no cache. -/
def Faithful (r : Resolver) (ix : Index) : Prop :=
  r.Sound ix.generation fun name found => found = ix.catalog.resolve name

theorem faithful_start (ix : Index) : (start ix).Faithful ix := .empty ix.generation

theorem Faithful.advance (h : r.Faithful ix) (hnext : ix.Advances next) : r.Faithful next := by
  rcases hnext.counted with hlt | ⟨hgeneration, hcatalog⟩
  · exact Cache.Sound.advance h hlt
  · rw [Faithful, hgeneration, hcatalog]
    exact h

theorem Faithful.resolve (h : r.Faithful ix) (name : String) :
    (r.resolve ix name).1.Faithful ix ∧ (r.resolve ix name).2 = ix.catalog.resolve name := by
  rw [Resolver.resolve]
  split
  · rename_i known hknown
    exact ⟨h.sync, h.sync.right_of_find? (Cache.seen_sync _ _) hknown⟩
  · exact ⟨h.sync.note rfl, rfl⟩

theorem Faithful.resolveEach (h : r.Faithful ix) (names : List String) :
    (r.resolveEach ix names).1.Faithful ix ∧
      (r.resolveEach ix names).2 = names.map ix.catalog.resolve := by
  induction names generalizing r with
  | nil => exact ⟨h, rfl⟩
  | cons name names ih =>
    obtain ⟨hfirst, hfound⟩ := h.resolve name
    obtain ⟨hrest, hmore⟩ := ih hfirst
    refine ⟨hrest, ?_⟩
    rw [Resolver.resolveEach, List.map_cons, ← hfound, ← hmore]

theorem Faithful.allResolved (h : r.Faithful ix) :
    (r.allResolved ix).1.Faithful ix ∧ (r.allResolved ix).2 = ix.catalog.allResolved := by
  obtain ⟨hrest, hfound⟩ := h.resolveEach (ix.catalog.all.map (·.entry.name))
  refine ⟨hrest, ?_⟩
  rw [Resolver.allResolved, Catalog.allResolved]
  dsimp only
  rw [hfound, List.map_map, List.zipWith_map_right, List.zipWith_self]
  rfl

theorem Faithful.forgetAll (h : r.Faithful ix) : (r.forgetAll ix).Faithful ix := h.sync.clear

end Resolver

end StyleVars
