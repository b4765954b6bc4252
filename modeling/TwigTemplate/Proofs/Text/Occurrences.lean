import TwigTemplate.Proofs.Text.Search

/-!
# How often a word stands in a text

Every place counts, also when two of them overlap.

* `occurrences_pos_iff`: a word stands in a text when it stands there once or more.
* `occurrences_append_le`: what stands in two texts stands in the two together.
-/

namespace TwigTemplate.Text

/-- At how many places of a text a word stands. -/
def occurrences (needle : List Char) : List Char → Nat
  | [] => if needle.isEmpty then 1 else 0
  | c :: r => occurrences needle r + if startsWith needle (c :: r) then 1 else 0

variable {needle cs ds : List Char}

theorem occurrences_pos_iff : 0 < occurrences needle cs ↔ needle <:+: cs := by
  induction cs with
  | nil =>
    rw [occurrences, List.infix_nil, ← List.isEmpty_iff]
    split
    · next h => exact ⟨fun _ => h, fun _ => Nat.one_pos⟩
    · next h => exact ⟨fun hlt => absurd hlt (Nat.lt_irrefl 0), fun he => absurd he h⟩
  | cons c r ih =>
    rw [occurrences, List.infix_cons_iff, ← startsWith_iff, ← ih]
    split
    · next h => exact ⟨fun _ => Or.inl h, fun _ => Nat.succ_pos _⟩
    · next h => exact ⟨Or.inr, fun hor => hor.resolve_left h⟩

theorem occurrences_append_le (hne : needle ≠ []) :
    occurrences needle cs + occurrences needle ds ≤ occurrences needle (cs ++ ds) := by
  induction cs with
  | nil =>
    rw [occurrences, if_neg (by simpa using hne), List.nil_append]
    omega
  | cons c r ih =>
    have hstart : startsWith needle (c :: r) = true → startsWith needle (c :: (r ++ ds)) = true := by
      rw [startsWith_iff, startsWith_iff]
      exact fun h => h.trans (List.prefix_append (c :: r) ds)
    rw [List.cons_append, occurrences, occurrences]
    split
    · next h =>
      rw [if_pos (hstart h)]
      omega
    · split <;> omega

end TwigTemplate.Text
