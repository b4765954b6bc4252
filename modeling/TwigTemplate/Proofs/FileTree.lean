import TwigTemplate.FileTree.Resolve

/-!
# Writing files

Where a path leads does not depend on what files hold.  So a file that is there can be written
over, the paths lead to where they led, and everything but this file stays as it was.

* `Alike`: trees that differ in nothing but what their files hold.
* `Alike.resolve?`: **paths lead to the same places in them**.
* `read?_eq_some_iff`: what is read lies where the path leads.
* `exists_write?`: **a file that can be read can be written**.
-/

namespace TwigTemplate

/-- What of a node decides where paths lead. -/
def Node.shape : Node → Node
  | .file _ => .file (.text [])
  | .directory => .directory
  | .link target => .link target

namespace FileTree

/-- Trees that differ in nothing but what their files hold. -/
structure Alike (t s : FileTree) : Prop where
  current : s.current = t.current
  shape : ∀ place, (s.node? place).map Node.shape = (t.node? place).map Node.shape

namespace Alike

variable {t s u : FileTree}

theorem refl (t : FileTree) : Alike t t :=
  ⟨rfl, fun _ => rfl⟩

theorem trans (hts : Alike t s) (hsu : Alike s u) : Alike t u :=
  ⟨hsu.current.trans hts.current, fun place => (hsu.shape place).trans (hts.shape place)⟩

theorem node?_file (h : Alike t s) {place : Location} {old : Content}
    (hnode : t.node? place = some (.file old)) : ∃ new, s.node? place = some (.file new) := by
  have hshape := h.shape place
  rw [hnode, Option.map_some, Option.map_eq_some_iff] at hshape
  obtain ⟨node, hs, heq⟩ := hshape
  cases node with
  | directory => simp [Node.shape] at heq
  | link target => simp [Node.shape] at heq
  | file new => exact ⟨new, hs⟩

theorem node?_eq (h : Alike t s) {place : Location}
    (hnode : ∀ old, t.node? place ≠ some (.file old)) : s.node? place = t.node? place := by
  have hshape := h.shape place
  cases ht : t.node? place with
  | none =>
    rw [ht] at hshape
    exact Option.map_eq_none_iff.mp hshape
  | some node =>
    rw [ht, Option.map_some, Option.map_eq_some_iff] at hshape
    obtain ⟨node', hs, heq⟩ := hshape
    rw [hs]
    cases node with
    | file old => exact absurd ht (hnode old)
    | directory => cases node' <;> simp [Node.shape] at heq ⊢
    | link target => cases node' <;> simp [Node.shape] at heq ⊢; exact heq

theorem followTo (h : Alike t s) {f g : List String → Option Place}
    (hlink : ∀ rest, g rest = f rest) (place : Location) (segments : List String) :
    s.followTo g place segments = t.followTo f place segments := by
  induction segments generalizing place with
  | nil => rfl
  | cons segment rest ih =>
    rw [FileTree.followTo, FileTree.followTo, ih, ih]
    refine ite_congr rfl (fun _ => rfl) fun _ => ite_congr rfl (fun _ => rfl) fun _ => ?_
    dsimp only
    cases hnode : t.node? (place ++ [segment]) with
    | none => rw [h.node?_eq (by simp [hnode]), hnode]
    | some node =>
      cases node with
      | file old =>
        obtain ⟨new, hnew⟩ := h.node?_file hnode
        rw [hnew]
      | directory =>
        rw [h.node?_eq (by simp [hnode]), hnode]
        exact ih _
      | link target =>
        rw [h.node?_eq (by simp [hnode]), hnode]
        exact hlink _

theorem follow (h : Alike t s) (links : Nat) (place : Location) (segments : List String) :
    s.follow links place segments = t.follow links place segments := by
  induction links generalizing place segments with
  | zero => exact h.followTo (fun _ => rfl) place segments
  | succ links ih => exact h.followTo (ih []) place segments

/-- **Paths lead to the same places** in trees that differ in what files hold. -/
theorem resolve? (h : Alike t s) (p : Path) : s.resolve? p = t.resolve? p := by
  rw [FileTree.resolve?, FileTree.resolve?, locate?, locate?, h.current, h.follow]

end Alike

section Write

variable {t : FileTree} {p : Path} {place : Location} {old new : Content}

theorem place_ne_nil (h : t.node? place = some (.file old)) : place ≠ [] := by
  rintro rfl
  exact absurd h (by simp [node?])

theorem alike_put (h : t.node? place = some (.file old)) : Alike t (t.put place (.file new)) := by
  refine ⟨rfl, fun q => ?_⟩
  rw [node?_put t (place_ne_nil h)]
  split
  · next hq =>
    rw [hq, h]
    rfl
  · rfl

/-- **What is read lies where the path leads.** -/
theorem read?_eq_some_iff :
    t.read? p = some old ↔ ∃ place, t.resolve? p = some place ∧ t.node? place = some (.file old) := by
  rw [read?]
  constructor
  · intro h
    split at h
    · next content hnode =>
      obtain ⟨place, hplace, hnode⟩ := Option.bind_eq_some_iff.mp hnode
      exact ⟨place, hplace, Option.some.inj h ▸ hnode⟩
    · exact absurd h (by simp)
  · rintro ⟨place, hplace, hnode⟩
    rw [hplace, Option.bind_some, hnode]

theorem Alike.exists_read? {s : FileTree} (h : Alike t s) (hread : t.read? p = some old) :
    ∃ new, s.read? p = some new := by
  obtain ⟨place, hplace, hnode⟩ := read?_eq_some_iff.mp hread
  obtain ⟨new, hnew⟩ := h.node?_file hnode
  exact ⟨new, read?_eq_some_iff.mpr ⟨place, (h.resolve? p).trans hplace, hnew⟩⟩

/-- **A file that can be read can be written**, and nothing else changes. -/
theorem exists_write? (h : t.read? p = some old) (new : Content) :
    ∃ place, t.resolve? p = some place ∧ t.node? place = some (.file old) ∧
      t.write? p new = some (t.put place (.file new)) := by
  obtain ⟨place, hplace, hnode⟩ := read?_eq_some_iff.mp h
  refine ⟨place, hplace, hnode, ?_⟩
  have hlocate : t.locate? p = some (.occupied place) := by
    rw [resolve?] at hplace
    split at hplace
    · next heq => rw [heq, Option.some.inj hplace]
    · exact absurd hplace (by simp)
  rw [write?, hlocate]
  simp only [hnode]

end Write

end FileTree

end TwigTemplate
