import Mathlib.Data.List.Basic
import Mathlib.Data.List.Lex
import Mathlib.Data.Prod.Lex
import Mathlib.Data.String.Basic
import TwigTemplate.Path

/-!
# Names below a path, and the order of paths

The entry of a directory goes on from the path of the directory by one name, and the components of
its path show it: nothing that the path was written with is lost or shared.  Paths are listed in the
dictionary order of their components.

* `components_child`, `components_descend`: **the names below a path are its last components**.
* `descend_inj`: names below one path are told apart by their components.
* `precedes_iff`: paths are in dictionary order.
* `pairwise_sort`: **sorted paths stand strictly in order** when no two have the same components.
-/

namespace TwigTemplate.Path

/-! ### Names -/

/-- What an entry of a directory can be called. -/
def IsName (name : String) : Prop :=
  name ≠ "" ∧ name ≠ "." ∧ name ≠ ".."

instance (name : String) : Decidable (IsName name) :=
  inferInstanceAs (Decidable (_ ∧ _))

theorem IsName.componentOf? {name : String} (h : IsName name) :
    componentOf? name = some (.name name) := by
  obtain ⟨hempty, hdot, hup⟩ := h
  rw [Path.componentOf?, if_neg (by simp [hempty, hdot]), if_neg hup]

/-- The path over the given names, one below the other. -/
def descend (p : Path) (names : List String) : Path :=
  names.foldl child p

@[simp] theorem descend_nil (p : Path) : p.descend [] = p := rfl

@[simp] theorem descend_cons (p : Path) (name : String) (names : List String) :
    p.descend (name :: names) = (p.child name).descend names := rfl

theorem descend_append (p : Path) (names more : List String) :
    p.descend (names ++ more) = (p.descend names).descend more :=
  List.foldl_append

theorem descend_concat (p : Path) (names : List String) (name : String) :
    p.descend (names ++ [name]) = (p.descend names).child name :=
  descend_append p names [name]

theorem components_of_ne {first : String} {rest : List String} (htop : first ≠ "" ∨ rest = [])
    (hdot : first ≠ ".") :
    components ⟨first :: rest⟩ = (first :: rest).filterMap componentOf? := by
  rw [components]
  split
  · next heq =>
    obtain ⟨hempty, hrest⟩ := List.cons.inj heq
    rcases htop with hne | hnil
    · exact absurd hempty hne
    · exact absurd (hnil.symm.trans hrest) (by simp)
  · next heq => exact absurd (List.cons.inj heq).1 hdot
  · rfl

theorem components_append_segment {segments : List String} (hne : segments ≠ [])
    (hempty : segments ≠ [""]) (segment : String) :
    components ⟨segments ++ [segment]⟩ =
      components ⟨segments⟩ ++ (componentOf? segment).toList := by
  have hsegment : [segment].filterMap componentOf? = (componentOf? segment).toList := by
    cases h : componentOf? segment <;> simp [h]
  obtain ⟨first, rest, rfl⟩ := List.exists_cons_of_ne_nil hne
  by_cases hfirst : first = ""
  · subst hfirst
    have hrest : rest ≠ [] := fun hrest => hempty (by rw [hrest])
    obtain ⟨second, rest, rfl⟩ := List.exists_cons_of_ne_nil hrest
    show Component.top :: List.filterMap componentOf? (second :: rest ++ [segment]) =
      Component.top :: List.filterMap componentOf? (second :: rest) ++ _
    rw [List.filterMap_append, hsegment, List.cons_append]
  · by_cases hdot : first = "."
    · subst hdot
      show Component.here :: List.filterMap componentOf? (rest ++ [segment]) =
        Component.here :: List.filterMap componentOf? rest ++ _
      rw [List.filterMap_append, hsegment, List.cons_append]
    · rw [List.cons_append, components_of_ne (Or.inl hfirst) hdot,
        components_of_ne (Or.inl hfirst) hdot, ← List.cons_append, List.filterMap_append, hsegment]

/-- **An entry's name is the last component of its path.** -/
theorem components_child {name : String} (h : IsName name) (p : Path) :
    (p.child name).components = p.components ++ [.name name] := by
  have hname : (Path.componentOf? name).toList = [.name name] := by rw [h.componentOf?]; rfl
  obtain ⟨segments⟩ := p
  have hrelative : (⟨[name]⟩ : Path).isAbsolute = false := by simp [isAbsolute]
  have halone : components ⟨[name]⟩ = [.name name] := by
    rw [components_of_ne (Or.inr rfl) h.2.1, List.filterMap_cons, h.componentOf?]
    rfl
  rw [child, join, hrelative, Bool.false_or]
  split
  · next hempty =>
    obtain rfl : segments = [""] := of_decide_eq_true hempty
    rw [halone]
    rfl
  · next hempty =>
    have hempty : segments ≠ [""] := fun heq => hempty (decide_eq_true heq)
    split
    · next hlast =>
      -- An empty segment at the end counts for nothing, and the name takes its place.
      obtain ⟨front, rfl⟩ := List.getLast?_eq_some_iff.mp hlast
      rw [List.dropLast_concat]
      have hfront : front ≠ [] := fun hnil => hempty (by rw [hnil]; rfl)
      by_cases htop : front = [""]
      · subst htop
        show Component.top :: List.filterMap Path.componentOf? [name] = _
        rw [List.filterMap_cons, h.componentOf?]
        rfl
      · rw [components_append_segment hfront htop, components_append_segment hfront htop, hname]
        simp [Path.componentOf?]
    · by_cases hnil : segments = []
      · subst hnil
        rw [List.nil_append, halone]
        rfl
      · rw [components_append_segment hnil hempty, hname]

theorem components_descend {names : List String} (h : ∀ name ∈ names, IsName name) (p : Path) :
    (p.descend names).components = p.components ++ names.map .name := by
  induction names generalizing p with
  | nil => simp
  | cons name names ih =>
    obtain ⟨hname, hnames⟩ := List.forall_mem_cons.mp h
    rw [descend_cons, ih hnames, components_child hname, List.append_assoc]
    rfl

/-- Below one path, names are told apart by the components of the paths over them. -/
theorem descend_inj {names more : List String} (h : ∀ name ∈ names, IsName name)
    (hmore : ∀ name ∈ more, IsName name) {p : Path}
    (heq : (p.descend names).components = (p.descend more).components) : names = more := by
  rw [components_descend h, components_descend hmore] at heq
  exact (List.map_injective_iff.mpr fun _ _ => Component.name.inj) (List.append_cancel_left heq)

/-! ### Order -/

/-- A step by its rank and its name. -/
def Component.key : Component → ℕ ×ₗ String
  | .name s => toLex (3, s)
  | c => toLex (c.rank, "")

theorem Component.key_injective : Function.Injective Component.key := by
  intro a b h
  cases a <;> cases b <;> simp_all [Component.key, Component.rank]

theorem Component.isBelow_iff (a b : Component) : a.isBelow b = true ↔ a.key < b.key := by
  cases a <;> cases b <;>
    simp [Component.isBelow, Component.key, Component.rank, Prod.Lex.toLex_lt_toLex]

/-- Paths are in the dictionary order of their components. -/
theorem precedes_iff (as bs : List Component) :
    precedes as bs = true ↔ as.map Component.key ≤ bs.map Component.key := by
  induction as generalizing bs with
  | nil =>
    rw [precedes, List.map_nil, ← not_lt]
    exact iff_of_true rfl (List.not_lt_nil _)
  | cons a as ih =>
    cases bs with
    | nil =>
      rw [precedes, List.map_nil, List.map_cons, ← not_lt]
      exact iff_of_false Bool.false_ne_true (not_not_intro (List.nil_lt_cons _ _))
    | cons b bs =>
      rw [precedes, List.map_cons, List.map_cons, ← not_lt, List.cons_lt_cons_iff]
      by_cases heq : a = b
      · subst heq
        rw [if_pos rfl, ih, ← not_lt]
        simp
      · have hkey : b.key ≠ a.key := fun h => heq (Component.key_injective h).symm
        rw [if_neg heq, Component.isBelow_iff, ← not_le, not_iff_not, hkey.le_iff_lt]
        simp [hkey]

/-- A path stands before another one, and not at the same place in the order. -/
def Before (p q : Path) : Prop :=
  precedes p.components q.components = true ∧ p.components ≠ q.components

theorem before_iff (p q : Path) :
    p.Before q ↔ p.components.map Component.key < q.components.map Component.key := by
  rw [Before, precedes_iff, lt_iff_le_and_ne]
  exact and_congr_right fun _ =>
    not_congr (List.map_injective_iff.mpr Component.key_injective).eq_iff.symm

theorem Before.asymm {p q : Path} (h : p.Before q) : ¬ q.Before p := by
  rw [before_iff] at h ⊢
  exact h.asymm

/-- **Sorted paths stand strictly in order**, when no two of them have the same components. -/
theorem pairwise_sort {paths : List Path} (h : (paths.map components).Nodup) :
    (sort paths).Pairwise Before := by
  have hsorted : (sort paths).Pairwise fun p q =>
      precedes p.components q.components = true := by
    refine List.pairwise_mergeSort (fun p q r => ?_) (fun p q => ?_) paths
    · rw [precedes_iff, precedes_iff, precedes_iff]
      exact le_trans
    · rw [Bool.or_eq_true, precedes_iff, precedes_iff]
      exact le_total _ _
  have hdistinct : (sort paths).Pairwise fun p q => p.components ≠ q.components :=
    List.pairwise_map.mp (((List.mergeSort_perm paths _).map components).nodup_iff.mpr h)
  exact hsorted.and hdistinct

end TwigTemplate.Path
