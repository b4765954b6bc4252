import TwigTemplate.Proofs.Element.Appending
import TwigTemplate.Proofs.Fold.Agreement

/-!
# What a fold depends on

The fold on a line ends on a later line.  Blocks and pairs are read line by line, so that their
folds depend on the lines in between alone.  But a block that the first line leaves open may be
closed further down, and then it comes before the element or pair; and the tags of elements are
read through line ends, so that a closer or a quote further down can turn them into code or into a
value.

* `blockEndAt?_of_sameLines`, `pairEndAt?_of_sameLines`: **the folds of blocks and pairs stay in
  every text with the same lines up to their end**.
* `ClosesIn`, `ClosesIn.append`: **an element stays closed** when the text up to its closing tag
  leaves no template code and no quoted value open.
* `resolve?_sameLines_iff`: **when a fold is the same in two texts with the same lines**.
-/

namespace TwigTemplate.Fold

open Element (Complete EndsTag tagsFrom)

/-! ### The same lines -/

/-- Two texts have the same lines with the numbers from `first` up to `last`. -/
def SameLines (cs ds : List Char) (first last : Nat) : Prop :=
  ∀ i, first ≤ i → i ≤ last → (Text.lines ds)[i]? = (Text.lines cs)[i]?

section SameLines

variable {cs ds : List Char} {first last : Nat}

theorem SameLines.symm (h : SameLines cs ds first last) : SameLines ds cs first last :=
  fun i hfirst hlast => (h i hfirst hlast).symm

theorem SameLines.take {k : Nat} (h : SameLines cs ds first (first + k)) :
    ((Text.lines ds).drop first).take (k + 1) = ((Text.lines cs).drop first).take (k + 1) := by
  apply List.ext_getElem?
  intro i
  rw [List.getElem?_take, List.getElem?_take]
  split
  · rw [List.getElem?_drop, List.getElem?_drop, h (first + i) (by omega) (by omega)]
  · rfl

/-- **A block is closed on the same line.** -/
theorem blockEndAt?_of_sameLines (hend : blockEndAt? cs first = some last)
    (h : SameLines cs ds first last) : blockEndAt? ds first = some last := by
  obtain ⟨k, hk, rfl⟩ := Option.map_eq_some_iff.mp hend
  rw [← searchFrom?_blockRow] at hk
  rw [blockEndAt?, ← searchFrom?_blockRow, Pass.searchFrom?_of_take _ hk]
  · rfl
  · rw [← List.map_take, ← List.map_take, h.take]

/-- The line with the closing tag of the pair that a line opens. -/
def pairEndAt? (cs : List Char) (line : Nat) : Option Nat :=
  (matchPair? ((Text.lines cs).drop line)).map (line + ·)

/-- **A pair is closed on the same line.** -/
theorem pairEndAt?_of_sameLines (hend : pairEndAt? cs first = some last)
    (h : SameLines cs ds first last) : pairEndAt? ds first = some last := by
  obtain ⟨k, hk, rfl⟩ := Option.map_eq_some_iff.mp hend
  rw [← searchFrom?_markupOf] at hk
  rw [pairEndAt?, ← searchFrom?_markupOf, Pass.searchFrom?_of_take _ hk]
  · rfl
  · rw [← List.map_take, ← List.map_take, h.take]

end SameLines

/-! ### The same tags -/

theorem elementEnd?_append_of_some {name : List Char} {depth : Int} {es : List Element} {last : Nat}
    (h : elementEnd? name depth es = some last) (more : List Element) :
    elementEnd? name depth (es ++ more) = some last := by
  induction es generalizing depth with
  | nil => exact absurd h (by simp [elementEnd?])
  | cons e es ih =>
    rw [elementEnd?] at h
    rw [List.cons_append, elementEnd?]
    split
    · next hname =>
      rw [if_pos hname] at h
      split
      · next hzero => rwa [if_pos hzero] at h
      · next hzero =>
        rw [if_neg hzero] at h
        exact ih h
    · next hname =>
      rw [if_neg hname] at h
      exact ih h

/-- Tags behind the closing tag do not matter, if none of them stands on the first line. -/
theorem elementEndAt?_append {es more : List Element} {line last : Nat}
    (h : elementEndAt? es line = some last) (hmore : ∀ e ∈ more, line < e.line) :
    elementEndAt? (es ++ more) line = some last := by
  have hfirst : more.filter (·.line = line) = [] := by
    rw [List.filter_eq_nil_iff]
    intro e he
    have := hmore e he
    rw [decide_eq_true_eq]
    omega
  obtain ⟨name, hopener, hend⟩ := Option.bind_eq_some_iff.mp h
  rw [elementEndAt?, List.filter_append, hfirst, List.append_nil, hopener, Option.bind_some,
    List.filter_append]
  exact elementEnd?_append_of_some hend _

/-- The element that the first line of a text leaves open, counted from `line`, is closed on the
line `last` by a tag of the text, which leaves no template code and no quoted value open. -/
structure ClosesIn (line last : Nat) (text : List Char) : Prop where
  closed : elementEndAt? (tagsFrom line text) line = some last
  complete : Complete text
  ends : EndsTag text

/-- **The element is closed there whatever follows.** -/
theorem ClosesIn.append {line last : Nat} {text : List Char} (h : ClosesIn line last text)
    (rest : List Char) : elementEndAt? (tagsFrom line (text ++ rest)) line = some last := by
  obtain ⟨more, hmore, hlines⟩ := Element.tagsFrom_append h.complete h.ends rest
  rw [hmore]
  refine elementEndAt?_append h.closed fun e he => ?_
  obtain ⟨name, -, hend⟩ := Option.bind_eq_some_iff.mp h.closed
  obtain ⟨closing, hclosing, rfl⟩ := exists_mem_of_elementEnd? hend
  obtain ⟨hmem, hlt⟩ := List.mem_filter.mp hclosing
  have hle := Element.line_le_of_mem_tagsFrom hmem
  have hlater := hlines e he
  rw [decide_eq_true_eq] at hlt
  omega

/-! ### The fold on a line -/

/-- The tags that a query at a line reads. -/
def queryTags (cs : List Char) (line : Nat) : List Element :=
  (fromLine? line cs).elim [] (tagsFrom line)

theorem resolve?_eq_spanAt? (cs : List Char) (line : Nat) :
    resolve? cs line = spanAt? (queryTags cs line) cs line := by
  cases hrest : fromLine? line cs with
  | some rest => rw [resolve?_eq hrest, queryTags, hrest, Option.elim_some]
  | none =>
    have hline : (Text.lines cs).length ≤ line := by
      by_contra hlt
      obtain ⟨rest, hsome⟩ := exists_fromLine? (Nat.lt_of_not_le hlt)
      rw [hrest] at hsome
      exact absurd hsome (by simp)
    rw [queryTags, hrest, Option.elim_none, spanAt?_eq_none hline (by simp), resolve?, hrest]
    rfl

section Fold

variable {es : List Element} {cs : List Char} {line : Nat}

theorem spanAt?_eq_some_iff {span : Span} :
    spanAt? es cs line = some span ↔ endAt? es cs line = some span.toLine ∧
      ∃ closing, (Text.lines cs)[span.toLine]? = some closing ∧
        span = .between line span.toLine closing := by
  rw [spanAt?, Option.bind_eq_some_iff]
  constructor
  · rintro ⟨last, hlast, h⟩
    obtain ⟨closing, hclosing, rfl⟩ := Option.map_eq_some_iff.mp h
    exact ⟨hlast, closing, hclosing, rfl⟩
  · rintro ⟨hlast, closing, hclosing, hspan⟩
    exact ⟨_, hlast, Option.map_eq_some_iff.mpr ⟨closing, hclosing, hspan.symm⟩⟩

theorem markupEndAt?_eq_some_iff {last : Nat} :
    markupEndAt? es cs line = some last ↔ elementEndAt? es line = some last ∨
      elementEndAt? es line = none ∧ pairEndAt? cs line = some last := by
  rw [markupEndAt?, ← pairEndAt?]
  cases elementEndAt? es line <;> simp

theorem endAt?_eq_some_iff {last : Nat} :
    endAt? es cs line = some last ↔ blockEndAt? cs line = some last ∨
      blockEndAt? cs line = none ∧ markupEndAt? es cs line = some last := by
  rw [endAt?]
  cases blockEndAt? cs line <;> simp

theorem matchBlock?_pos {ls : List (List Char)} {k : Nat} (h : matchBlock? ls = some k) : 0 < k := by
  cases ls with
  | nil => exact absurd h (by simp [matchBlock?])
  | cons first rest =>
    rw [matchBlock?_cons] at h
    obtain ⟨tag, -, h⟩ := Option.bind_eq_some_iff.mp h
    obtain ⟨k, -, rfl⟩ := Option.map_eq_some_iff.mp h
    exact Nat.succ_pos k

theorem matchPair?_pos {ls : List (List Char)} {k : Nat} (h : matchPair? ls = some k) : 0 < k := by
  cases ls with
  | nil => exact absurd h (by simp [matchPair?])
  | cons first rest =>
    rw [matchPair?_cons] at h
    obtain ⟨closer, -, h⟩ := Option.bind_eq_some_iff.mp h
    obtain ⟨k, -, rfl⟩ := Option.map_eq_some_iff.mp h
    exact Nat.succ_pos k

theorem lt_of_endAt? {last : Nat} (h : endAt? es cs line = some last) : line < last := by
  rcases endAt?_eq_some_iff.mp h with hblock | ⟨-, hmarkup⟩
  · obtain ⟨k, hk, rfl⟩ := Option.map_eq_some_iff.mp hblock
    have := matchBlock?_pos hk
    omega
  rcases markupEndAt?_eq_some_iff.mp hmarkup with helement | ⟨-, hpair⟩
  · obtain ⟨name, -, hend⟩ := Option.bind_eq_some_iff.mp helement
    obtain ⟨e, he, rfl⟩ := exists_mem_of_elementEnd? hend
    simpa using (List.mem_filter.mp he).2
  · obtain ⟨k, hk, rfl⟩ := Option.map_eq_some_iff.mp hpair
    have := matchPair?_pos hk
    omega

theorem le_of_endAt? {last : Nat} (h : endAt? es cs line = some last) : line ≤ last :=
  (lt_of_endAt? h).le

end Fold

/-- **When a fold is the same in a text with the same lines**, from its own line up to the last.  It
is when it is the fold of a block; or else when the other text closes no block which the line leaves
open, and its tags end the element on the same line, or end none and the pair ends there.  The tags
do when the other text goes on with the same characters up to the closing tag, and these leave
nothing open. -/
theorem resolve?_sameLines_iff {cs ds : List Char} {line : Nat} {span : Span}
    (h : resolve? cs line = some span) (hsame : SameLines cs ds line span.toLine) :
    (resolve? ds line = some span ↔
      blockEndAt? cs line ≠ none ∨ blockEndAt? ds line = none ∧
        (elementEndAt? (queryTags ds line) line = some span.toLine ∨
          elementEndAt? (queryTags ds line) line = none ∧
            pairEndAt? cs line = some span.toLine)) ∧
    ∀ text rest, fromLine? line ds = some (text ++ rest) → ClosesIn line span.toLine text →
      (resolve? ds line = some span ↔
        blockEndAt? cs line ≠ none ∨ blockEndAt? ds line = none) := by
  rw [resolve?_eq_spanAt?] at h
  obtain ⟨hend, closing, hclosing, hspan⟩ := spanAt?_eq_some_iff.mp h
  have hline := hsame span.toLine (le_of_endAt? hend) (Nat.le_refl _)
  have hpair : pairEndAt? ds line = some span.toLine ↔ pairEndAt? cs line = some span.toLine :=
    ⟨fun hds => pairEndAt?_of_sameLines hds hsame.symm,
      fun hcs => pairEndAt?_of_sameLines hcs hsame⟩
  have hblock : blockEndAt? ds line = some span.toLine ↔ blockEndAt? cs line ≠ none := by
    constructor
    · intro hds
      rw [blockEndAt?_of_sameLines hds hsame.symm]
      exact Option.some_ne_none _
    · intro hsome
      have hcs := (endAt?_eq_some_iff.mp hend).resolve_right fun hnone => hsome hnone.1
      exact blockEndAt?_of_sameLines hcs hsame
  -- The last line is the same, so only the end of the fold is to be compared.
  have hfold : resolve? ds line = some span ↔
      endAt? (queryTags ds line) ds line = some span.toLine := by
    rw [resolve?_eq_spanAt?, spanAt?_eq_some_iff]
    exact and_iff_left ⟨closing, hline.trans hclosing, hspan⟩
  have hiff : resolve? ds line = some span ↔
      blockEndAt? cs line ≠ none ∨ blockEndAt? ds line = none ∧
        (elementEndAt? (queryTags ds line) line = some span.toLine ∨
          elementEndAt? (queryTags ds line) line = none ∧
            pairEndAt? cs line = some span.toLine) := by
    rw [hfold, endAt?_eq_some_iff, markupEndAt?_eq_some_iff, hpair, hblock]
  refine ⟨hiff, fun text rest hrest hcloses => ?_⟩
  have htags : elementEndAt? (queryTags ds line) line = some span.toLine := by
    rw [queryTags, hrest]
    exact hcloses.append rest
  rw [hiff, htags]
  simp

/-- The element is closed in the same text, and another text that opens code before and behind it
finds the same fold. -/
theorem resolve?_sameLines_bold :
    resolve? "x\n<b>\n</b>".toList 1 = some ⟨1, 0, 2, 4⟩ ∧
      SameLines "x\n<b>\n</b>".toList "\x7b\x7b y\n<b>\n</b>\n\x7b\x7b z".toList 1 2 ∧
      ClosesIn 1 2 "<b>\n</b>".toList ∧
      resolve? "\x7b\x7b y\n<b>\n</b>\n\x7b\x7b z".toList 1 = some ⟨1, 0, 2, 4⟩ := by
  have h : resolve? "x\n<b>\n</b>".toList 1 = some ⟨1, 0, 2, 4⟩ := by decide +kernel
  have hsame :
      SameLines "x\n<b>\n</b>".toList "\x7b\x7b y\n<b>\n</b>\n\x7b\x7b z".toList 1 2 := by
    intro i hfirst hlast
    obtain rfl | rfl : i = 1 ∨ i = 2 := by omega
    · decide +kernel
    · decide +kernel
  have hcloses : ClosesIn 1 2 "<b>\n</b>".toList :=
    ⟨by decide +kernel, ⟨by decide +kernel, by decide +kernel⟩, Or.inr rfl⟩
  have hrest : fromLine? 1 "\x7b\x7b y\n<b>\n</b>\n\x7b\x7b z".toList =
      some ("<b>\n</b>".toList ++ "\n\x7b\x7b z".toList) := by decide +kernel
  refine ⟨h, hsame, hcloses, ?_⟩
  exact ((resolve?_sameLines_iff h hsame).2 _ _ hrest hcloses).mpr (Or.inr (by decide +kernel))

/-- What follows the match changes the fold: it closes the block that the line leaves open, or it
makes code of the matched lines. -/
theorem resolve?_reads_on :
    (resolve? "\x7b% if a %\x7d<div>\n</div>".toList 0 = some ⟨0, 0, 1, 6⟩ ∧
      SameLines "\x7b% if a %\x7d<div>\n</div>".toList
        "\x7b% if a %\x7d<div>\n</div>\n\x7b% endif %\x7d".toList 0 1 ∧
      resolve? "\x7b% if a %\x7d<div>\n</div>\n\x7b% endif %\x7d".toList 0 =
        some ⟨0, 0, 2, 11⟩) ∧
    resolve? "<div>\n\x7b\x7b x\n</div>".toList 0 = some ⟨0, 0, 2, 6⟩ ∧
      SameLines "<div>\n\x7b\x7b x\n</div>".toList
        "<div>\n\x7b\x7b x\n</div>\n\x7d\x7d".toList 0 2 ∧
      resolve? "<div>\n\x7b\x7b x\n</div>\n\x7d\x7d".toList 0 = none := by
  refine ⟨⟨by decide +kernel, fun i _ hlast => ?_, by decide +kernel⟩, by decide +kernel,
    fun i _ hlast => ?_, by decide +kernel⟩
  · obtain rfl | rfl : i = 0 ∨ i = 1 := by omega
    · decide +kernel
    · decide +kernel
  · obtain rfl | rfl | rfl : i = 0 ∨ i = 1 ∨ i = 2 := by omega
    · decide +kernel
    · decide +kernel
    · decide +kernel

end TwigTemplate.Fold
