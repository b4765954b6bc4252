import TwigTemplate.Proofs.Element.Tags
import TwigTemplate.Proofs.Fold.Passes

/-!
# All folds at once or one by one

The folds of a document are found in one pass.  A query at one line restarts every reader at
this line.  For blocks and pairs, which are read line by line, this makes no difference; the
tags of elements are read through line ends, so a query inside a comment, template code, a
start tag or the content of `script` and `style` reads text as markup that the pass does not.

* `fromLine?_spec`: the text from a line on.
* `endAt?`, `spanAt?`: the fold on a line, given the tags that are read.
* `resolve?_eq`, `mem_ranges_iff`: the query and the pass are this, each with its own tags.
* `foldsAgree_iff`: **when the query at a line and the folds of the document agree**.
-/

namespace TwigTemplate.Fold

open Element (EndsLine stops tags tagsFrom)

/-! ### The text from a line on -/

theorem fromLine?_zero (cs : List Char) : fromLine? 0 cs = some cs := by
  cases cs <;> rfl

theorem fromLine?_of_not_mem {cs : List Char} (h : '\n' ∉ cs) (n : Nat) :
    fromLine? (n + 1) cs = none := by
  induction cs with
  | nil => rfl
  | cons c cs ih =>
    rw [List.mem_cons, not_or] at h
    rw [fromLine?, if_neg fun he => h.1 he.symm, ih h.2]

theorem fromLine?_append_newline {l : List Char} (h : '\n' ∉ l) (n : Nat) (cs : List Char) :
    fromLine? (n + 1) (l ++ '\n' :: cs) = fromLine? n cs := by
  induction l with
  | nil => rw [List.nil_append, fromLine?, if_pos rfl]
  | cons c l ih =>
    rw [List.mem_cons, not_or] at h
    rw [List.cons_append, fromLine?, if_neg fun he => h.1 he.symm, ih h.2]

theorem fromLine?_spec {n : Nat} {cs rest : List Char} (h : fromLine? n cs = some rest) :
    ∃ front, cs = front ++ rest ∧ EndsLine front ∧
      Text.lines rest = (Text.lines cs).drop n := by
  induction cs using Text.line_induction generalizing n with
  | last cs hfree =>
    cases n with
    | zero =>
      rw [fromLine?_zero] at h
      obtain rfl := Option.some.inj h
      exact ⟨[], rfl, Or.inl rfl, rfl⟩
    | succ n =>
      rw [fromLine?_of_not_mem hfree] at h
      exact absurd h (by simp)
  | line l cs hfree ih =>
    cases n with
    | zero =>
      rw [fromLine?_zero] at h
      obtain rfl := Option.some.inj h
      exact ⟨[], rfl, Or.inl rfl, rfl⟩
    | succ n =>
      rw [fromLine?_append_newline hfree] at h
      obtain ⟨front, hcut, hends, hlines⟩ := ih h
      refine ⟨l ++ '\n' :: front, by rw [hcut, List.append_assoc]; rfl, Or.inr ?_, ?_⟩
      · rcases hends with rfl | hlast
        · rw [List.getLast?_append_of_ne_nil _ (by simp)]
          rfl
        · rw [List.getLast?_append_of_ne_nil _ (by simp), List.getLast?_cons, hlast]
          rfl
      · rw [Text.lines_append_newline hfree, List.drop_succ_cons, hlines]

theorem exists_fromLine? {n : Nat} {cs : List Char} (h : n < (Text.lines cs).length) :
    ∃ rest, fromLine? n cs = some rest := by
  induction cs using Text.line_induction generalizing n with
  | last cs hfree =>
    have hone : (Text.lines cs).length ≤ 1 := by
      rw [Text.lines_of_not_mem hfree]
      split <;> simp
    obtain rfl : n = 0 := by omega
    exact ⟨cs, fromLine?_zero cs⟩
  | line l cs hfree ih =>
    cases n with
    | zero => exact ⟨_, fromLine?_zero _⟩
    | succ n =>
      rw [Text.lines_append_newline hfree, List.length_cons] at h
      rw [fromLine?_append_newline hfree]
      exact ih (by omega)

/-! ### The fold on a line -/

/-- The line that closes the block which a line leaves open. -/
def blockEndAt? (cs : List Char) (line : Nat) : Option Nat :=
  (matchBlock? ((Text.lines cs).drop line)).map (line + ·)

/-- The line that closes the element which a line leaves open, or else its pair. -/
def markupEndAt? (es : List Element) (cs : List Char) (line : Nat) : Option Nat :=
  (elementEndAt? es line).orElse fun _ =>
    (matchPair? ((Text.lines cs).drop line)).map (line + ·)

/-- The last line of the fold on a line, given the tags that are read. -/
def endAt? (es : List Element) (cs : List Char) (line : Nat) : Option Nat :=
  (blockEndAt? cs line).orElse fun _ => markupEndAt? es cs line

/-- The fold on a line, given the tags that are read. -/
def spanAt? (es : List Element) (cs : List Char) (line : Nat) : Option Span :=
  (endAt? es cs line).bind fun last =>
    ((Text.lines cs)[last]?).map (Span.between line last)

theorem fromLine_of_spanAt? {es : List Element} {cs : List Char} {line : Nat} {span : Span}
    (h : spanAt? es cs line = some span) : span.fromLine = line := by
  obtain ⟨last, -, h⟩ := Option.bind_eq_some_iff.mp h
  obtain ⟨closing, -, rfl⟩ := Option.map_eq_some_iff.mp h
  rfl

/-! ### Tags further down -/

section Lower

open Element (lower)

variable (n : Nat) (es : List Element)

theorem elementBalance_map_lower (name : List Char) :
    elementBalance name (es.map (lower n)) = elementBalance name es := by
  rw [elementBalance, List.foldr_map]
  rfl

theorem elementOpener?_map_lower : elementOpener? (es.map (lower n)) = elementOpener? es := by
  rw [elementOpener?, elementOpener?, List.any_map, List.findSome?_map]
  simp only [elementBalance_map_lower]
  rfl

theorem elementEnd?_map_lower (name : List Char) (depth : Int) :
    elementEnd? name depth (es.map (lower n)) = (elementEnd? name depth es).map (n + ·) := by
  induction es generalizing depth with
  | nil => rfl
  | cons e es ih =>
    have hname : (lower n e).name = e.name := rfl
    have hdelta : (lower n e).delta = e.delta := rfl
    rw [List.map_cons, elementEnd?, elementEnd?, hname, hdelta]
    split
    · split
      · rfl
      · exact ih _
    · exact ih _

theorem elementEndAt?_map_lower (line : Nat) :
    elementEndAt? (es.map (lower n)) (n + line) = (elementEndAt? es line).map (n + ·) := by
  have hfilter : ∀ p q : Nat → Bool, (∀ i, p (n + i) = q i) →
      (es.map (lower n)).filter (fun e => p e.line) =
        (es.filter fun e => q e.line).map (lower n) := fun p q hpq => by
    rw [List.filter_map]
    congr 1
    apply List.filter_congr
    intro e _
    exact hpq e.line
  rw [elementEndAt?, elementEndAt?,
    hfilter (· = n + line) (· = line) fun i => by rw [decide_eq_decide]; omega,
    hfilter (n + line < ·) (line < ·) fun i => by rw [decide_eq_decide]; omega,
    elementOpener?_map_lower, Option.map_bind]
  apply Option.bind_congr
  intro name _
  rw [Function.comp_apply, elementBalance_map_lower, elementEnd?_map_lower]

end Lower

/-! ### The query and the pass -/

theorem spanAt?_eq_none {es : List Element} {cs : List Char} {line : Nat}
    (hline : (Text.lines cs).length ≤ line) (hes : ∀ e ∈ es, e.line ≠ line) :
    spanAt? es cs line = none := by
  have htags : es.filter (·.line = line) = [] := by
    rw [List.filter_eq_nil_iff]
    intro e he
    simpa using hes e he
  rw [spanAt?, endAt?, blockEndAt?, markupEndAt?, elementEndAt?, htags,
    List.drop_eq_nil_of_le hline]
  rfl

theorem elementEndAt?_tagsFrom (line : Nat) (rest : List Char) :
    elementEndAt? (tagsFrom line rest) line = (matchElement? rest).map (line + ·) := by
  have hshift : tagsFrom line rest = (tags rest).map (Element.lower line) :=
    Element.tagsFrom_add line 0 rest
  rw [matchElement?_eq (Element.pairwise_tagsFrom 0 rest), hshift]
  exact elementEndAt?_map_lower line (tags rest) 0

theorem resolve?_of_lines {line : Nat} {cs rest : List Char} (h : fromLine? line cs = some rest)
    (hlines : Text.lines rest ≠ []) :
    resolve? cs line = ((matchBlock? (Text.lines rest)).orElse fun _ =>
      (matchElement? rest).orElse fun _ => matchPair? (Text.lines rest)).bind fun offset =>
        ((Text.lines rest)[offset]?).map (Span.between line (line + offset)) := by
  rw [resolve?, h]
  simp only [Option.bind_eq_bind, Option.bind_some, Option.map_eq_bind, List.isEmpty_iff, hlines,
    if_false]
  rfl

/-- **A query reads the tags from its line on.** -/
theorem resolve?_eq {line : Nat} {cs rest : List Char} (h : fromLine? line cs = some rest) :
    resolve? cs line = spanAt? (tagsFrom line rest) cs line := by
  obtain ⟨-, -, -, hlines⟩ := fromLine?_spec h
  by_cases hempty : Text.lines rest = []
  · have hnone : resolve? cs line = none := by
      rw [resolve?, h]
      simp [hempty]
    rw [hempty] at hlines
    rw [hnone, spanAt?_eq_none (List.drop_eq_nil_iff.mp hlines.symm)]
    intro e he
    have := Element.line_of_mem_tagsFrom he
    rw [hempty, List.length_nil] at this
    omega
  · rw [resolve?_of_lines h hempty, spanAt?, endAt?, blockEndAt?, markupEndAt?,
      elementEndAt?_tagsFrom, hlines]
    simp only [List.getElem?_drop]
    cases matchBlock? ((Text.lines cs).drop line) with
    | some offset => rfl
    | none =>
      cases matchElement? rest with
      | some offset => rfl
      | none => cases matchPair? ((Text.lines cs).drop line) <;> rfl

/-- **The pass reads the tags of the whole document.** -/
theorem mem_ranges_iff {cs : List Char} {span : Span} :
    span ∈ ranges cs ↔
      ∃ line < (Text.lines cs).length, spanAt? (tags cs) cs line = some span := by
  rw [ranges, List.mem_filterMap]
  refine exists_congr fun line => ?_
  rw [List.mem_range]
  refine and_congr_right fun hline => ?_
  have hlt : ∀ e ∈ tags cs, e.line < (Text.lines cs).length := fun e he => by
    have := (Element.line_of_mem_tagsFrom he).2
    omega
  have hsorted : (tags cs).Pairwise fun a b => a.line ≤ b.line := Element.pairwise_tagsFrom 0 cs
  rw [endOf?_blockEnds, Element.tagsByLine, endOf?_elementEnds hsorted hlt hline, endOf?_pairs,
    spanAt?, endAt?, blockEndAt?, markupEndAt?]
  simp only [Option.map_eq_bind]
  rfl

/-! ### Where a fold ends -/

theorem blockEnd?_lt {tag : Block} {depth : Int} {ls : List (List Char)} {k : Nat}
    (h : blockEnd? tag depth ls = some k) : k < ls.length := by
  induction ls generalizing depth k with
  | nil => exact absurd h (by simp [blockEnd?])
  | cons l ls ih =>
    rw [blockEnd?] at h
    split at h
    · obtain rfl := Option.some.inj h
      exact Nat.succ_pos _
    · obtain ⟨k, hk, rfl⟩ := Option.map_eq_some_iff.mp h
      exact Nat.succ_lt_succ (ih hk)

theorem matchBlock?_lt {ls : List (List Char)} {k : Nat} (h : matchBlock? ls = some k) :
    k < ls.length := by
  cases ls with
  | nil => exact absurd h (by simp [matchBlock?])
  | cons first rest =>
    rw [matchBlock?_cons] at h
    obtain ⟨tag, -, h⟩ := Option.bind_eq_some_iff.mp h
    obtain ⟨k, hk, rfl⟩ := Option.map_eq_some_iff.mp h
    exact Nat.succ_lt_succ (blockEnd?_lt hk)

theorem matchPair?_lt {ls : List (List Char)} {k : Nat} (h : matchPair? ls = some k) :
    k < ls.length := by
  cases ls with
  | nil => exact absurd h (by simp [matchPair?])
  | cons first rest =>
    rw [matchPair?_cons] at h
    obtain ⟨closer, -, h⟩ := Option.bind_eq_some_iff.mp h
    obtain ⟨k, hk, rfl⟩ := Option.map_eq_some_iff.mp h
    exact Nat.succ_lt_succ (List.findIdx?_eq_some_iff_getElem.mp hk).1

theorem exists_mem_of_elementEnd? {name : List Char} {depth : Int} {es : List Element} {k : Nat}
    (h : elementEnd? name depth es = some k) : ∃ e ∈ es, e.line = k := by
  induction es generalizing depth with
  | nil => exact absurd h (by simp [elementEnd?])
  | cons e es ih =>
    have hlater : ∀ d, elementEnd? name d es = some k → ∃ f ∈ e :: es, f.line = k := fun d hd => by
      obtain ⟨later, hmem, hline⟩ := ih hd
      exact ⟨later, List.mem_cons_of_mem _ hmem, hline⟩
    rw [elementEnd?] at h
    split at h
    · split at h
      · exact ⟨e, List.mem_cons_self, Option.some.inj h⟩
      · exact hlater _ h
    · exact hlater _ h

section Ends

variable {es : List Element} {cs : List Char} {line : Nat}

theorem endAt?_lt (hes : ∀ e ∈ es, e.line < (Text.lines cs).length) {last : Nat}
    (h : endAt? es cs line = some last) : last < (Text.lines cs).length := by
  have hdrop : ∀ k, k < ((Text.lines cs).drop line).length → line + k < (Text.lines cs).length :=
    fun k hk => by
      rw [List.length_drop] at hk
      omega
  rw [endAt?] at h
  cases hblock : blockEndAt? cs line with
  | some last' =>
    rw [hblock] at h
    obtain rfl := Option.some.inj h
    obtain ⟨k, hk, rfl⟩ := Option.map_eq_some_iff.mp hblock
    exact hdrop k (matchBlock?_lt hk)
  | none =>
    rw [hblock, Option.orElse_none, markupEndAt?] at h
    cases helement : elementEndAt? es line with
    | some last' =>
      rw [helement] at h
      obtain rfl := Option.some.inj h
      obtain ⟨name, -, hend⟩ := Option.bind_eq_some_iff.mp helement
      obtain ⟨e, he, rfl⟩ := exists_mem_of_elementEnd? hend
      exact hes e (List.mem_filter.mp he).1
    | none =>
      rw [helement, Option.orElse_none] at h
      obtain ⟨k, hk, rfl⟩ := Option.map_eq_some_iff.mp h
      exact hdrop k (matchPair?_lt hk)

theorem toLine_spanAt? (hes : ∀ e ∈ es, e.line < (Text.lines cs).length) :
    (spanAt? es cs line).map (·.toLine) = endAt? es cs line := by
  rw [spanAt?]
  cases hend : endAt? es cs line with
  | none => rfl
  | some last =>
    rw [Option.bind_some, List.getElem?_eq_getElem (endAt?_lt hes hend)]
    rfl

/-- The search for an element reads no tags of earlier lines. -/
theorem elementEndAt?_filter (line : Nat) (es : List Element) :
    elementEndAt? (es.filter (line ≤ ·.line)) line = elementEndAt? es line := by
  have hfilter : ∀ p : Nat → Bool, (∀ i, p i = true → line ≤ i) →
      (es.filter (line ≤ ·.line)).filter (fun e => p e.line) =
        es.filter fun e => p e.line := fun p hp => by
    rw [List.filter_filter]
    apply List.filter_congr
    intro e _
    by_cases he : p e.line = true
    · simp [he, hp _ he]
    · simp [he]
  rw [elementEndAt?, elementEndAt?, hfilter (· = line) fun i hi => by simp at hi; omega,
    hfilter (line < ·) fun i hi => by simp at hi; omega]

end Ends

/-! ### When they agree -/

/-- The query at a line finds the fold of the document that starts there, or there is none. -/
def FoldsAgree (cs : List Char) (line : Nat) : Prop :=
  (∀ span, resolve? cs line = some span ↔ span ∈ ranges cs ∧ span.fromLine = line) ∧
    (resolve? cs line = none ↔ ∀ span ∈ ranges cs, span.fromLine ≠ line)

section Agree

variable (cs : List Char) (line : Nat)

theorem line_lt_of_mem_tags {e : Element} (h : e ∈ tags cs) :
    e.line < (Text.lines cs).length := by
  have := (Element.line_of_mem_tagsFrom h).2
  omega

theorem mem_ranges_line_iff (span : Span) :
    span ∈ ranges cs ∧ span.fromLine = line ↔ spanAt? (tags cs) cs line = some span := by
  rw [mem_ranges_iff]
  constructor
  · rintro ⟨⟨first, -, hspan⟩, hline⟩
    rw [fromLine_of_spanAt? hspan] at hline
    rwa [← hline]
  · intro hspan
    refine ⟨⟨line, ?_, hspan⟩, fromLine_of_spanAt? hspan⟩
    by_contra hline
    have hnone := spanAt?_eq_none (Nat.le_of_not_lt hline) fun e he hat =>
      hline (hat ▸ line_lt_of_mem_tags cs he)
    rw [hnone] at hspan
    exact absurd hspan (by simp)

theorem foldsAgree_iff_eq :
    FoldsAgree cs line ↔ resolve? cs line = spanAt? (tags cs) cs line := by
  rw [FoldsAgree]
  simp only [mem_ranges_line_iff]
  constructor
  · exact fun h => Option.ext h.1
  · intro h
    refine ⟨fun span => by rw [h], ?_⟩
    rw [h, Option.eq_none_iff_forall_ne_some]
    refine ⟨fun hnone span hspan hline => ?_, fun hno span hspan => ?_⟩
    · exact hnone span ((mem_ranges_line_iff cs line span).mp ⟨hspan, hline⟩)
    · obtain ⟨hmem, hline⟩ := (mem_ranges_line_iff cs line span).mpr hspan
      exact hno span hmem hline

/-- **When the query at a line and the folds of the document agree**: exactly when a block
is left open on the line and closed, or else the tags that are read from the line on end the
same element or pair as the tags of the whole document.  They do when the scan for tags comes
to the start of the line. -/
theorem foldsAgree_iff :
    (FoldsAgree cs line ↔ ∀ rest, fromLine? line cs = some rest → blockEndAt? cs line = none →
      markupEndAt? (tagsFrom line rest) cs line = markupEndAt? (tags cs) cs line) ∧
    ∀ rest, fromLine? line cs = some rest → (line, rest) ∈ stops 0 cs → FoldsAgree cs line := by
  constructor
  · rw [foldsAgree_iff_eq]
    cases hrest : fromLine? line cs with
    | none =>
      have hline : (Text.lines cs).length ≤ line := by
        by_contra hlt
        obtain ⟨rest, hsome⟩ := exists_fromLine? (Nat.lt_of_not_le hlt)
        rw [hrest] at hsome
        exact absurd hsome (by simp)
      have hnone := spanAt?_eq_none hline fun e he hat =>
        Nat.not_lt_of_le hline (hat ▸ line_lt_of_mem_tags cs he)
      rw [hnone, resolve?, hrest]
      simp
    | some rest =>
      have hlocal : ∀ e ∈ tagsFrom line rest, e.line < (Text.lines cs).length := fun e he => by
        obtain ⟨-, -, -, hlines⟩ := fromLine?_spec hrest
        have hbound := Element.line_of_mem_tagsFrom he
        rw [hlines, List.length_drop] at hbound
        omega
      have hends : spanAt? (tagsFrom line rest) cs line = spanAt? (tags cs) cs line ↔
          endAt? (tagsFrom line rest) cs line = endAt? (tags cs) cs line := by
        constructor
        · intro h
          rw [← toLine_spanAt? hlocal, h, toLine_spanAt? fun e => line_lt_of_mem_tags cs]
        · intro h
          rw [spanAt?, h, spanAt?]
      rw [resolve?_eq hrest, hends, endAt?, endAt?]
      cases blockEndAt? cs line with
      | some last => simp
      | none => simp
  · intro rest hrest hstop
    obtain ⟨front, hcut, hfront, -⟩ := fromLine?_spec hrest
    rw [hcut] at hstop
    have htags := Element.filter_tagsFrom hfront hstop
    rw [← hcut] at htags
    rw [foldsAgree_iff_eq, resolve?_eq hrest, spanAt?, spanAt?, endAt?, endAt?, markupEndAt?,
      markupEndAt?, ← htags, elementEndAt?_filter]
    rfl

/-- The scan for tags comes to the line behind a comment, and there the two agree. -/
theorem foldsAgree_after_comment :
    fromLine? 3 "<!--\n<p>\n-->\n<b>\n</b>".toList = some "<b>\n</b>".toList ∧
      (3, "<b>\n</b>".toList) ∈ stops 0 "<!--\n<p>\n-->\n<b>\n</b>".toList ∧
      resolve? "<!--\n<p>\n-->\n<b>\n</b>".toList 3 = some ⟨3, 0, 4, 4⟩ ∧
      ⟨3, 0, 4, 4⟩ ∈ ranges "<!--\n<p>\n-->\n<b>\n</b>".toList := by
  have hrest : fromLine? 3 "<!--\n<p>\n-->\n<b>\n</b>".toList = some "<b>\n</b>".toList := by
    decide +kernel
  have hstop : (3, "<b>\n</b>".toList) ∈ stops 0 "<!--\n<p>\n-->\n<b>\n</b>".toList := by
    decide +kernel
  have hquery : resolve? "<!--\n<p>\n-->\n<b>\n</b>".toList 3 = some ⟨3, 0, 4, 4⟩ := by
    decide +kernel
  have hagree := (foldsAgree_iff "<!--\n<p>\n-->\n<b>\n</b>".toList 3).2 _ hrest hstop
  exact ⟨hrest, hstop, hquery, ((hagree.1 _).mp hquery).1⟩

/-- Inside a script that spans lines the query finds an element that is no element of the
document. -/
theorem folds_disagree_in_script :
    '\x7b' ∉ "<script>\n<div>\n</div>\n</script>".toList ∧
      '!' ∉ "<script>\n<div>\n</div>\n</script>".toList ∧
      resolve? "<script>\n<div>\n</div>\n</script>".toList 1 = some ⟨1, 0, 2, 6⟩ ∧
      ranges "<script>\n<div>\n</div>\n</script>".toList = [⟨0, 0, 3, 9⟩] ∧
      ¬ FoldsAgree "<script>\n<div>\n</div>\n</script>".toList 1 := by
  have hquery : resolve? "<script>\n<div>\n</div>\n</script>".toList 1 = some ⟨1, 0, 2, 6⟩ := by
    decide +kernel
  have hranges : ranges "<script>\n<div>\n</div>\n</script>".toList = [⟨0, 0, 3, 9⟩] := by
    decide +kernel
  refine ⟨by decide, by decide, hquery, hranges, fun h => ?_⟩
  have hmem := ((h.1 ⟨1, 0, 2, 6⟩).mp hquery).1
  rw [hranges] at hmem
  exact absurd hmem (by decide)

end Agree

end TwigTemplate.Fold
