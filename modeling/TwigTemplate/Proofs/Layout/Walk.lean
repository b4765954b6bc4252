import Mathlib.Order.Bounds.Basic
import TwigTemplate.Layout.Depth

/-!
# Depths that never fall below zero

The depth of a line is worked out from the sums of its changes: how far they fall, and where
they end.  Read one by one, the changes make a walk that is held at zero, and what is worked
out is the lowest point of this walk and its end.

* `walk`, `lowest`: a walk held at zero, and its lowest point.
* `lineDepth_eq`: **the depths that a line is given are these**.
* `isLeast_lowest`: the lowest point among all the points of the walk.
* `depthChange_clamped`: **a line steps back to the lowest point, and in again to the last**.
-/

namespace TwigTemplate.Layout

/-- A depth after one change. -/
def move (depth : Nat) (change : Int) : Nat :=
  (depth + change).toNat

/-- A depth after some changes, one after the other. -/
def walk (depth : Nat) (changes : List Int) : Nat :=
  changes.foldl move depth

/-- The lowest depth reached, the first one included. -/
def lowest : Nat → List Int → Nat
  | depth, [] => depth
  | depth, d :: ds => min depth (lowest (move depth d) ds)

theorem move_one (depth : Nat) : move depth 1 = depth + 1 := by
  rw [move]
  omega

theorem move_neg_one (depth : Nat) : move depth (-1) = depth - 1 := by
  rw [move]
  omega

theorem walk_cons (depth : Nat) (d : Int) (ds : List Int) :
    walk depth (d :: ds) = walk (move depth d) ds := rfl

theorem walk_append (depth : Nat) (ds es : List Int) :
    walk depth (ds ++ es) = walk (walk depth ds) es := by
  rw [walk, List.foldl_append]
  rfl

theorem lowest_le (depth : Nat) (ds : List Int) : lowest depth ds ≤ depth := by
  cases ds with
  | nil => exact Nat.le_refl _
  | cons d ds => exact Nat.min_le_left _ _

/-- A walk has come to `current` from `depth` on, which lies as far above the lowest depth as
the sum of its changes above its lowest value. -/
structure WalksTo (depth current : Nat) (sum low : Int) : Prop where
  nonpos : low ≤ 0
  le : low ≤ sum
  current : (current : Int) = (depth - low.natAbs : Nat) + (sum - low)

section WalksTo

variable {depth current : Nat} {sum low : Int}

theorem WalksTo.start (depth : Nat) : WalksTo depth depth 0 0 :=
  ⟨Int.le_refl 0, Int.le_refl 0, by simp⟩

theorem WalksTo.lowest_le_current (h : WalksTo depth current sum low) :
    depth - low.natAbs ≤ current := by
  have := h.current
  have := h.le
  omega

theorem WalksTo.move (h : WalksTo depth current sum low) (d : Int) :
    WalksTo depth (Layout.move current d) (sum + d) (min low (sum + d)) ∧
      min (depth - low.natAbs) (Layout.move current d) =
        depth - (min low (sum + d)).natAbs := by
  obtain ⟨hneg, hle, hcurrent⟩ := h
  rcases Int.le_total low (sum + d) with hlow | hlow
  · have hmove : (Layout.move current d : Int) = current + d :=
      Int.toNat_of_nonneg (by omega)
    rw [Int.min_eq_left hlow]
    exact ⟨⟨hneg, hlow, by omega⟩, by omega⟩
  · have hmove : Layout.move current d = depth - (sum + d).natAbs := by
      rw [Layout.move]
      omega
    rw [Int.min_eq_right hlow, hmove]
    exact ⟨⟨by omega, Int.le_refl _, by omega⟩, by omega⟩

/-- The sums of some changes against the walk that they make. -/
theorem WalksTo.extremes (h : WalksTo depth current sum low) (ds : List Int) :
    WalksTo depth (walk current ds) (extremes sum low ds).2 (extremes sum low ds).1 ∧
      min (depth - low.natAbs) (lowest current ds) =
        depth - (Layout.extremes sum low ds).1.natAbs := by
  induction ds generalizing current sum low with
  | nil => exact ⟨h, Nat.min_eq_left h.lowest_le_current⟩
  | cons d ds ih =>
    obtain ⟨hmove, hdown⟩ := h.move d
    obtain ⟨hwalk, hlowest⟩ := ih hmove
    refine ⟨hwalk, ?_⟩
    rw [Layout.extremes, ← hlowest, ← hdown, lowest, Nat.min_assoc,
      Nat.min_eq_right (lowest_le (Layout.move current d) ds), ← Nat.min_assoc,
      Nat.min_eq_left h.lowest_le_current]

end WalksTo

/-- **A line stands at the lowest depth of the walk that its changes make, and the lines
after it where the walk ends.** -/
theorem lineDepth_eq (depth : Nat) (ds : List Int) :
    lineDepth depth ds = (lowest depth ds, walk depth ds) := by
  obtain ⟨hwalk, hlowest⟩ := (WalksTo.start depth).extremes ds
  have hnet := Int.natAbs_of_nonneg (Int.sub_nonneg_of_le hwalk.le)
  rw [Int.natAbs_zero, Nat.sub_zero, Nat.min_eq_right (lowest_le depth ds)] at hlowest
  rw [lineDepth, depthChange]
  refine Prod.ext hlowest.symm (Int.ofNat_inj.mp ?_)
  rw [hwalk.current, Int.natCast_add, hnet]

/-! ### All depths of a walk -/

theorem mem_scanl_cons {depth : Nat} {d : Int} {ds : List Int} {n : Nat} :
    n ∈ (d :: ds).scanl move depth ↔ n = depth ∨ n ∈ ds.scanl move (move depth d) := by
  rw [List.scanl_cons, List.mem_cons]

theorem isLeast_lowest (depth : Nat) (ds : List Int) :
    IsLeast {n | n ∈ ds.scanl move depth} (lowest depth ds) := by
  induction ds generalizing depth with
  | nil => exact ⟨List.mem_singleton.mpr rfl, fun n hn => (List.mem_singleton.mp hn).ge⟩
  | cons d ds ih =>
    obtain ⟨hmem, hle⟩ := ih (move depth d)
    refine ⟨mem_scanl_cons.mpr ?_, fun n hn => ?_⟩
    · rcases Nat.le_total depth (lowest (move depth d) ds) with h | h
      · exact Or.inl (Nat.min_eq_left h)
      · rw [lowest, Nat.min_eq_right h]
        exact Or.inr hmem
    · rcases mem_scanl_cons.mp hn with rfl | hn
      · exact Nat.min_le_left _ _
      · exact Nat.le_trans (Nat.min_le_right _ _) (hle hn)

/-- **A line steps back to the lowest point of the walk that its changes make, held at zero after
each of them, and the lines after it step in again to the last one.**  A difference of depths is
never below zero. -/
theorem depthChange_clamped (depth : Nat) (changes : List Int) :
    ∃ dedent net, depthChange changes = (dedent, net) ∧
      lineDepth depth changes = (depth - dedent, depth - dedent + net) ∧
      IsLeast {n | n ∈ changes.scanl move depth} (depth - dedent) ∧
      (changes.scanl move depth).getLast? = some (depth - dedent + net) := by
  obtain ⟨dedent, net, hchange⟩ : ∃ dedent net, depthChange changes = (dedent, net) := ⟨_, _, rfl⟩
  have hline : lineDepth depth changes = (depth - dedent, depth - dedent + net) := by
    rw [lineDepth, hchange]
  obtain ⟨hlow, hlast⟩ := Prod.mk.inj (hline.symm.trans (lineDepth_eq depth changes))
  refine ⟨dedent, net, hchange, hline, ?_, ?_⟩
  · rw [hlow]
    exact isLeast_lowest depth changes
  · rw [hlast, List.getLast?_scanl]
    rfl

/-- The walk is held at zero twice. -/
example : lineDepth 1 [-1, -1, 1, -1, -1, 1, 1] = (0, 2) := by decide

end TwigTemplate.Layout
