import Mathlib.Data.List.Nodup
import TwigTemplate.Proofs.FileTree
import TwigTemplate.Proofs.Path

/-!
# Directories and the order of their entries

A directory lists its entries in an order that means nothing.  Trees that differ in that order
alone hold the same things in the same places, and paths lead to the same places in them.

* `WellFormed`: nothing lies at a place twice, and entries have proper names.
* `Reordered`: trees that hold the same and list it in other orders.
* `Reordered.node?_eq`, `Reordered.entries`: **the same lies everywhere, and directories list the
  same entries**.
* `mem_directories`: the directory that a path leads to is one of the directories of the tree.
-/

namespace TwigTemplate.FileTree

/-- A tree as a disk can hold it. -/
structure WellFormed (t : FileTree) : Prop where
  /-- Nothing lies at a place twice. -/
  nodup : (t.nodes.map Prod.fst).Nodup
  names : ∀ entry ∈ t.nodes, ∀ name ∈ entry.1, Path.IsName name

/-- Trees that hold the same, but list their entries in other orders. -/
structure Reordered (t s : FileTree) : Prop where
  current : s.current = t.current
  nodes : s.nodes.Perm t.nodes

theorem lookup_eq_some_iff {nodes : List (Location × Node)} (h : (nodes.map Prod.fst).Nodup)
    {place : Location} {node : Node} :
    nodes.lookup place = some node ↔ (place, node) ∈ nodes := by
  induction nodes with
  | nil => simp
  | cons entry nodes ih =>
    obtain ⟨p, n⟩ := entry
    obtain ⟨hnew, hnodes⟩ := List.nodup_cons.mp h
    rw [lookup_cons_eq, List.mem_cons]
    by_cases heq : place = p
    · subst heq
      have hlater : (place, node) ∉ nodes := fun hmem => hnew (List.mem_map.mpr ⟨_, hmem, rfl⟩)
      simp [hlater, eq_comm]
    · rw [if_neg heq, ih hnodes]
      simp [heq]

theorem entryOf?_eq_some_iff {directory place : Location} {name : String} :
    entryOf? directory place = some name ↔ place = directory ++ [name] := by
  induction directory generalizing place with
  | nil =>
    match place with
    | [] => simp [entryOf?]
    | [p] => simp [entryOf?]
    | p :: q :: place => simp [entryOf?]
  | cons d directory ih =>
    cases place with
    | nil => simp [entryOf?]
    | cons p place =>
      rw [entryOf?]
      by_cases heq : d = p
      · subst heq
        rw [if_pos rfl, ih]
        simp
      · rw [if_neg heq]
        simp [Ne.symm heq]

theorem entries_eq (t : FileTree) (place : Location) :
    t.entries place = (t.nodes.map Prod.fst).filterMap (entryOf? place) := by
  rw [entries, List.filterMap_map]
  rfl

theorem mem_directories {t : FileTree} {p : Path} {place : Location}
    (h : t.directoryAt? p = some place) : place ∈ t.directories := by
  obtain ⟨-, hdirectory⟩ := Option.filter_eq_some_iff.mp h
  have hnode : t.node? place = some .directory := of_decide_eq_true hdirectory
  rw [directories, List.mem_cons]
  by_cases hnil : place = []
  · exact Or.inl hnil
  · rw [node?, if_neg hnil, List.lookup_eq_some_iff] at hnode
    obtain ⟨before, after, hnodes, -⟩ := hnode
    refine Or.inr (List.mem_filterMap.mpr ⟨(place, .directory), ?_, if_pos rfl⟩)
    rw [hnodes]
    exact List.mem_append_right _ List.mem_cons_self

namespace WellFormed

variable {t s : FileTree}

theorem nodup_entries (ht : t.WellFormed) (place : Location) : (t.entries place).Nodup := by
  rw [entries_eq]
  refine ht.nodup.filterMap fun p q name hp hq => ?_
  rw [entryOf?_eq_some_iff.mp hp, entryOf?_eq_some_iff.mp hq]

theorem isName (ht : t.WellFormed) {place : Location} {name : String}
    (hname : name ∈ t.entries place) : Path.IsName name := by
  rw [entries_eq] at hname
  obtain ⟨p, hp, hentry⟩ := List.mem_filterMap.mp hname
  obtain ⟨entry, hmem, rfl⟩ := List.mem_map.mp hp
  refine ht.names entry hmem name ?_
  rw [entryOf?_eq_some_iff.mp hentry]
  exact List.mem_append_right _ List.mem_cons_self

theorem reordered (ht : t.WellFormed) (h : t.Reordered s) : s.WellFormed :=
  ⟨(h.nodes.map Prod.fst).nodup_iff.mpr ht.nodup,
    fun entry hmem => ht.names entry (h.nodes.mem_iff.mp hmem)⟩

end WellFormed

namespace Reordered

variable {t s : FileTree}

theorem symm (h : t.Reordered s) : s.Reordered t :=
  ⟨h.current.symm, h.nodes.symm⟩

/-- **Directories list the same entries**, in some order. -/
theorem entries (h : t.Reordered s) (place : Location) :
    (s.entries place).Perm (t.entries place) :=
  h.nodes.filterMap _

/-- **The same lies everywhere.** -/
theorem node?_eq (h : t.Reordered s) (ht : t.WellFormed) (place : Location) :
    s.node? place = t.node? place := by
  rw [node?, node?]
  refine if_congr Iff.rfl rfl (Option.ext fun node => ?_)
  rw [lookup_eq_some_iff (ht.reordered h).nodup, lookup_eq_some_iff ht.nodup, h.nodes.mem_iff]

theorem alike (h : t.Reordered s) (ht : t.WellFormed) : Alike t s :=
  ⟨h.current, fun place => by rw [h.node?_eq ht]⟩

theorem directoryAt? (h : t.Reordered s) (ht : t.WellFormed) (p : Path) :
    s.directoryAt? p = t.directoryAt? p := by
  rw [FileTree.directoryAt?, FileTree.directoryAt?, (h.alike ht).resolve?]
  simp only [h.node?_eq ht]

theorem read? (h : t.Reordered s) (ht : t.WellFormed) (p : Path) : s.read? p = t.read? p := by
  rw [FileTree.read?, FileTree.read?, (h.alike ht).resolve?, funext (h.node?_eq ht)]

end Reordered

end TwigTemplate.FileTree
