import Mathlib.Data.List.DropRight
import TwigTemplate.Proofs.Statement
import TwigTemplate.Text.Word

/-!
# Words at either end

* `trailingWord_append`, `trailingWord_eq`: **the word at the end of a text, and nothing else**.
* `leadingWord_eq_of_boundary`, `leadingWord_eq`: the word at its start.
* `WordBetween`: **a word between two texts**, found from every place in it.
-/

namespace TwigTemplate.Text

theorem ne_of_isWordChar {c d : Char} (hc : isWordChar c = true) (hd : isWordChar d = false) :
    c ≠ d := by
  rintro rfl
  exact absurd (hc.symm.trans hd) (by simp)

theorem isBlank_of_isWordChar {c : Char} (hc : isWordChar c = true) : isBlank c = false := by
  cases hblank : isBlank c with
  | false => rfl
  | true => exact absurd (hc.symm.trans (isWordChar_of_isBlank hblank)) (by simp)

theorem trailingWord_append (cs : List Char) : (trailingWord cs).1 ++ (trailingWord cs).2 = cs :=
  List.rdropWhile_append_rtakeWhile ..

theorem isWordChar_of_mem_trailingWord {cs : List Char} :
    ∀ c ∈ (trailingWord cs).2, isWordChar c = true :=
  fun _ hc => List.mem_rtakeWhile_imp hc

/-- **The word at the end** is what follows the last character that is in no word. -/
theorem trailingWord_eq {m w : List Char} (hw : ∀ c ∈ w, isWordChar c = true)
    (hm : ∀ c ∈ m.getLast?, isWordChar c = false) : trailingWord (m ++ w) = (m, w) := by
  have hreverse : ∀ c ∈ w.reverse, isWordChar c = true := fun c hc => hw c (List.mem_reverse.mp hc)
  rw [trailingWord, List.reverse_append, List.dropWhile_append_of_pos hreverse,
    List.takeWhile_append_of_pos hreverse]
  cases m using List.reverseRecOn with
  | nil => simp
  | append_singleton m c =>
    have hc : ¬ isWordChar c = true := by simpa using hm c (by simp)
    rw [List.reverse_append, List.reverse_singleton, List.singleton_append,
      List.dropWhile_cons_of_neg hc, List.takeWhile_cons_of_neg hc]
    simp

theorem leadingWord_append (cs : List Char) : (leadingWord cs).1 ++ (leadingWord cs).2 = cs :=
  List.takeWhile_append_dropWhile

/-- **The word at the start** is what stands before the first character that is in no word. -/
theorem leadingWord_eq_of_boundary {w m : List Char} (hw : ∀ c ∈ w, isWordChar c = true)
    (hm : ∀ c ∈ m.head?, isWordChar c = false) : leadingWord (w ++ m) = (w, m) := by
  rw [leadingWord, List.takeWhile_append_of_pos hw, List.dropWhile_append_of_pos hw]
  cases m with
  | nil => simp
  | cons c m =>
    have hc : ¬ isWordChar c = true := by simpa using hm c (by simp)
    rw [List.takeWhile_cons_of_neg hc, List.dropWhile_cons_of_neg hc, List.append_nil]

theorem leadingWord_eq {w : List Char} (hw : ∀ c ∈ w, isWordChar c = true) :
    leadingWord w = (w, []) := by
  have h := leadingWord_eq_of_boundary (m := []) hw (by simp)
  rwa [List.append_nil] at h

/-! ### Whole words -/

/-- A word between two texts, as long as it can be: neither text has a word character at its end
beside it. -/
structure WordBetween (before word behind : List Char) : Prop where
  word : ∀ c ∈ word, isWordChar c = true
  before : ∀ c ∈ before.getLast?, isWordChar c = false
  behind : ∀ c ∈ behind.head?, isWordChar c = false

theorem wordBetween_trailingWord_leadingWord (front back : List Char) :
    WordBetween (trailingWord front).1 ((trailingWord front).2 ++ (leadingWord back).1)
      (leadingWord back).2 := by
  refine ⟨fun c hc => ?_, fun c hc => ?_, fun c hc => ?_⟩
  · rcases List.mem_append.mp hc with hc | hc
    · exact isWordChar_of_mem_trailingWord c hc
    · exact List.mem_takeWhile_imp hc
  · rw [trailingWord, List.getLast?_reverse] at hc
    exact not_of_head?_dropWhile c hc
  · exact not_of_head?_dropWhile c hc

/-- **A cut in a whole word** finds all of it. -/
theorem WordBetween.eq {before u v behind : List Char} (h : WordBetween before (u ++ v) behind) :
    trailingWord (before ++ u) = (before, u) ∧ leadingWord (v ++ behind) = (v, behind) :=
  ⟨trailingWord_eq (fun c hc => h.word c (List.mem_append_left _ hc)) h.before,
    leadingWord_eq_of_boundary (fun c hc => h.word c (List.mem_append_right _ hc)) h.behind⟩

theorem trim_word {w : List Char} (hw : ∀ c ∈ w, isWordChar c = true) : trim w = w :=
  trimBy_eq_self (fun c hc => isBlank_of_isWordChar (hw c (List.mem_of_mem_head? hc)))
    fun c hc => isBlank_of_isWordChar (hw c (List.mem_of_mem_getLast? hc))

end TwigTemplate.Text
