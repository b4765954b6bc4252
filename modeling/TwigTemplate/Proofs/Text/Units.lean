import Mathlib.Data.List.Basic
import TwigTemplate.Text.Measure
import TwigTemplate.Text.Word

/-!
# UTF-16 units

Every character has a width, so a text is cut at the width of one of its fronts exactly behind that
front.

* `width16_append`: widths add up.
* `width16_of_word`: the width of a word is its length.
* `cutAt16_append`: a cut loses nothing.
* `cutAt16_width16_append`: **the width of a front cuts the text behind it**.
-/

namespace TwigTemplate.Text

theorem units16_pos (c : Char) : 0 < units16 c := by
  rw [units16]
  split <;> decide

theorem width16_cons (c : Char) (cs : List Char) :
    width16 (c :: cs) = units16 c + width16 cs := rfl

theorem width16_append (cs ds : List Char) : width16 (cs ++ ds) = width16 cs + width16 ds := by
  induction cs with
  | nil => exact (Nat.zero_add _).symm
  | cons c cs ih => rw [List.cons_append, width16_cons, width16_cons, ih, Nat.add_assoc]

theorem units16_of_isWordChar {c : Char} (h : isWordChar c = true) : units16 c = 1 := by
  rw [units16, if_pos]
  delta isWordChar Char.isAlphanum Char.isAlpha Char.isUpper Char.isLower Char.isDigit at h
  simp only [Bool.or_eq_true, Bool.and_eq_true, decide_eq_true_eq, ge_iff_le,
    UInt32.le_iff_toNat_le] at h
  rcases h with (((⟨-, h⟩ | ⟨-, h⟩) | ⟨-, h⟩) | rfl)
  · exact Nat.lt_of_le_of_lt h (by decide)
  · exact Nat.lt_of_le_of_lt h (by decide)
  · exact Nat.lt_of_le_of_lt h (by decide)
  · decide

/-- **The width of a word is its length.** -/
theorem width16_of_word {w : List Char} (hw : ∀ c ∈ w, isWordChar c = true) :
    width16 w = w.length := by
  induction w with
  | nil => rfl
  | cons c w ih =>
    obtain ⟨hc, hw⟩ := List.forall_mem_cons.mp hw
    rw [width16_cons, units16_of_isWordChar hc, ih hw, List.length_cons, Nat.add_comm]

theorem cutAt16_append (n : Nat) (cs : List Char) :
    (cutAt16 n cs).1 ++ (cutAt16 n cs).2 = cs := by
  induction cs generalizing n with
  | nil => cases n <;> rfl
  | cons c cs ih =>
    cases n with
    | zero => rfl
    | succ n =>
      rw [cutAt16]
      exact congrArg (c :: ·) (ih _)

/-- **The width of a front cuts the text behind it.** -/
theorem cutAt16_width16_append (front back : List Char) :
    cutAt16 (width16 front) (front ++ back) = (front, back) := by
  induction front with
  | nil => cases back <;> rfl
  | cons c front ih =>
    have hunits := units16_pos c
    obtain ⟨n, hn⟩ : ∃ n, width16 (c :: front) = n + 1 :=
      Nat.exists_eq_succ_of_ne_zero (by rw [width16_cons]; omega)
    have hrest : n + 1 - units16 c = width16 front := by
      rw [← hn, width16_cons]
      omega
    rw [hn, List.cons_append, cutAt16, hrest, ih]

theorem cutAt16_width16 (cs : List Char) : cutAt16 (width16 cs) cs = (cs, []) := by
  have h := cutAt16_width16_append cs []
  rwa [List.append_nil] at h

end TwigTemplate.Text
