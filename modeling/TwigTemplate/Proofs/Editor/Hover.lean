import TwigTemplate.Editor.Hover
import TwigTemplate.Proofs.Editor.Position
import TwigTemplate.Proofs.Text.Word

/-!
# The word under a cursor

What is shown about a word hangs on the word and its place alone, not on where the cursor stands in
it: from its first edge to its last, the cursor cuts the same whole word.

* `Hover.ofWord`: what is shown about a word on a line.
* `hover?_eq_some_iff`: something is shown exactly for a whole word that is known.
* `hover?_wordBetween`: it is shown wherever the word is cut.
* `hover_anywhere`: **the same is shown over a whole word**.
-/

namespace TwigTemplate.Editor

open Text (WordBetween width16)

variable {cs before word behind : List Char} {p : Position} {hover : Hover}

/-- What is shown about a word with a text before it on its line. -/
def Hover.ofWord (line : Nat) (before word : List Char) : Hover :=
  ⟨.onLine line (width16 before) (width16 (before ++ word)),
    "\n\n---\n\n".intercalate
      ((Vocabulary.lookup word).map fun (kind, e) => entryText kind e)⟩

theorem hover?_of_lineAt? {front back : List Char} (h : lineAt? cs p = some (front, back)) :
    hover? cs p =
      let word := (Text.trailingWord front).2 ++ (Text.leadingWord back).1
      if word = [] ∨ Vocabulary.lookup word = [] then none
      else some (.ofWord p.line (Text.trailingWord front).1 word) := by
  rw [hover?, h]
  simp only [Option.bind_eq_bind, Option.bind_some, Bool.or_eq_true, List.isEmpty_iff,
    Hover.ofWord, Text.width16_append, Option.pure_def]

/-- **A known word is shown wherever it is cut.** -/
theorem hover?_wordBetween {u v : List Char} (hcut : lineAt? cs p = some (before ++ u, v ++ behind))
    (hword : WordBetween before (u ++ v) behind) (hne : u ++ v ≠ [])
    (hknown : Vocabulary.lookup (u ++ v) ≠ []) :
    hover? cs p = some (.ofWord p.line before (u ++ v)) := by
  obtain ⟨hfront, hback⟩ := hword.eq
  rw [hover?_of_lineAt? hcut, hfront, hback]
  dsimp only
  rw [if_neg (not_or.mpr ⟨hne, hknown⟩)]

/-- **Something is shown exactly for a whole word that is known**: the cursor cuts it or touches
it. -/
theorem hover?_eq_some_iff :
    hover? cs p = some hover ↔ ∃ before u v behind,
      lineAt? cs p = some (before ++ u, v ++ behind) ∧ WordBetween before (u ++ v) behind ∧
        u ++ v ≠ [] ∧ Vocabulary.lookup (u ++ v) ≠ [] ∧
          hover = .ofWord p.line before (u ++ v) := by
  constructor
  · intro h
    cases hcut : lineAt? cs p with
    | none =>
      rw [hover?, hcut] at h
      exact absurd h (by simp)
    | some cut =>
      obtain ⟨front, back⟩ := cut
      rw [hover?_of_lineAt? hcut] at h
      dsimp only at h
      split at h
      · exact absurd h (by simp)
      · next hne =>
        obtain ⟨hne, hknown⟩ := not_or.mp hne
        refine ⟨(Text.trailingWord front).1, (Text.trailingWord front).2,
          (Text.leadingWord back).1, (Text.leadingWord back).2, ?_,
          Text.wordBetween_trailingWord_leadingWord front back, hne, hknown,
          (Option.some.inj h).symm⟩
        rw [Text.trailingWord_append, Text.leadingWord_append]
  · rintro ⟨before, u, v, behind, hcut, hword, hne, hknown, rfl⟩
    exact hover?_wordBetween hcut hword hne hknown

theorem exists_cut_of_column {word : List Char} (hword : ∀ c ∈ word, Text.isWordChar c = true)
    {column : Nat} (hstart : width16 before ≤ column)
    (hstop : column ≤ width16 (before ++ word)) :
    ∃ u v, word = u ++ v ∧ column = width16 (before ++ u) := by
  refine ⟨word.take (column - width16 before), word.drop (column - width16 before),
    (List.take_append_drop _ _).symm, ?_⟩
  rw [Text.width16_append, Text.width16_of_word hword] at hstop
  rw [Text.width16_append, Text.width16_of_word fun c hc => hword c (List.mem_of_mem_take hc),
    List.length_take]
  omega

/-- **The same is shown over a whole word.**  The text in the range is a known word with no word
character beside it, and every column of the range, with its two ends, shows the same. -/
theorem hover_anywhere (h : hover? cs p = some hover) :
    ∃ before word behind, hover.range.Holds cs before word behind ∧
      hover = .ofWord p.line before word ∧ WordBetween before word behind ∧ word ≠ [] ∧
      Vocabulary.lookup word ≠ [] ∧
      ∀ column, hover.range.start.character ≤ column → column ≤ hover.range.stop.character →
        hover? cs ⟨p.line, column⟩ = some hover := by
  obtain ⟨before, u, v, behind, hcut, hword, hne, hknown, rfl⟩ := hover?_eq_some_iff.mp h
  have hline : (lines cs)[p.line]? = some (before ++ (u ++ v ++ behind)) := by
    rw [getElem?_of_lineAt? hcut]
    simp only [List.append_assoc]
  refine ⟨before, u ++ v, behind, Range.holds_onLine hline, rfl, hword, hne, hknown,
    fun column hstart hstop => ?_⟩
  obtain ⟨u', v', hsplit, rfl⟩ := exists_cut_of_column hword.word hstart hstop
  have hcut' : lineAt? cs ⟨p.line, width16 (before ++ u')⟩ = some (before ++ u', v' ++ behind) := by
    apply lineAt?_width16
    rw [hline, hsplit]
    simp only [List.append_assoc]
  rw [hsplit] at hword hne hknown ⊢
  exact hover?_wordBetween hcut' hword hne hknown

/-- A word behind characters of two units and three bytes, on a line that ends with a carriage
return: it is shown at both of its edges. -/
theorem hover_anywhere_astral :
    hover? "a\n𝄞€{{ x|upper }}\r\n".toList ⟨1, 11⟩ =
        some (.ofWord 1 "𝄞€\x7b\x7b x|".toList "upper".toList) ∧
      ∀ column, 8 ≤ column → column ≤ 13 →
        hover? "a\n𝄞€{{ x|upper }}\r\n".toList ⟨1, column⟩ =
          some (.ofWord 1 "𝄞€\x7b\x7b x|".toList "upper".toList) := by
  have h : hover? "a\n𝄞€{{ x|upper }}\r\n".toList ⟨1, 11⟩ =
      some (.ofWord 1 "𝄞€\x7b\x7b x|".toList "upper".toList) := by decide +kernel
  obtain ⟨-, -, -, -, -, -, -, -, hall⟩ := hover_anywhere h
  exact ⟨h, hall⟩

end TwigTemplate.Editor
