import TwigTemplate.Proofs.Text.Trimming
import TwigTemplate.Region.Spacing

/-!
# What squeezing the spacing keeps

Squeezing rewrites the blanks beside the delimiters of a region.  The delimiters
are cut off by their width in bytes, whatever stands there, so this file starts
with the cuts.

* `cutOpener_append`, `cutCloser_append`: the cuts lose nothing.
* `solid_normalizeSpacing`: squeezing changes blanks alone.
-/

namespace TwigTemplate.Region

open Text (solid solid_append)

/-! ### Cutting the delimiters off -/

theorem cutAtWidth_append (n : Nat) (cs : List Char) :
    (Text.cutAtWidth n cs).1 ++ (Text.cutAtWidth n cs).2 = cs := by
  induction cs generalizing n with
  | nil => cases n <;> rfl
  | cons c r ih =>
    cases n with
    | zero => rfl
    | succ n =>
      rw [Text.cutAtWidth]
      exact congrArg (c :: ·) (ih (n + 1 - c.utf8Size))

theorem cutOpener_append (raw : List Char) : (cutOpener raw).1 ++ (cutOpener raw).2 = raw := by
  have hcut := cutAtWidth_append 2 raw
  rw [cutOpener]
  generalize Text.cutAtWidth 2 raw = halves at hcut
  obtain ⟨front, rest⟩ := halves
  cases rest with
  | nil => exact hcut
  | cons c r =>
    dsimp only at hcut ⊢
    split
    · rw [List.append_assoc]
      exact hcut
    · exact hcut

theorem cutCloser_append (rest : List Char) :
    (cutCloser rest).1 ++ (cutCloser rest).2 = rest := by
  rw [cutCloser, ← List.reverse_append, cutOpener_append, List.reverse_reverse]

/-! ### Blanks alone change -/

theorem solid_trim (cs : List Char) : solid (Text.trim cs) = solid cs :=
  Text.filter_trimBy Text.isBlank cs

theorem solid_squeezeEnds (cs : List Char) : solid (squeezeEnds cs) = solid cs := by
  rw [squeezeEnds]
  split
  · next hempty => rw [List.isEmpty_iff.mp hempty]
  split
  · next hblank =>
    have hall : ∀ c ∈ cs, Text.isBlank c = true := List.all_eq_true.mp hblank
    rw [solid, solid, Text.filter_eq_nil_of_all hall]
    rfl
  · have hend : ∀ b : Bool, solid (if b then [' '] else []) = [] := by decide
    rw [solid_append, solid_append, hend, hend, solid_trim, List.append_nil, List.nil_append]

/-- **Squeezing changes blanks alone.** -/
theorem solid_normalizeSpacing (raw : List Char) : solid (normalizeSpacing raw) = solid raw := by
  have hopener := cutOpener_append raw
  rw [normalizeSpacing]
  generalize cutOpener raw = halves at hopener
  obtain ⟨opener, rest⟩ := halves
  have hcloser := cutCloser_append rest
  dsimp only at hopener ⊢
  split
  · rfl
  · rw [solid_append, solid_append, solid_squeezeEnds, ← solid_append, ← solid_append,
      List.append_assoc, hcloser, hopener]

end TwigTemplate.Region
