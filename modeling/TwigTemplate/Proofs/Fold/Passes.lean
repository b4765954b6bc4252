import Mathlib.Data.List.TakeDrop
import TwigTemplate.Fold.Query
import TwigTemplate.Fold.Ranges
import TwigTemplate.Proofs.Fold.Tracker
import TwigTemplate.Proofs.Ordered

/-!
# The passes against the queries

The folds of a document come from three passes over its lines: for blocks, for elements and
for the fixed pairs.  A query at one line searches from there on.

* `endOf?_blockEnds`, `endOf?_pairs`: **for blocks and pairs a pass finds on every line what
  the query at this line finds**.
* `elementEndAt?`: the search among tags that are given for the whole document.
* `endOf?_elementEnds`: the pass for elements finds what this search finds.
-/

namespace TwigTemplate.Fold

open Tracker (Gentle Proper balance depthPast?)

/-! ### Blocks -/

/-- What the pass for blocks reads of a line. -/
def blockRow (line : List Char) : Option Block × List (Block × Int) :=
  (blockOpener? (lineEvents line), (lineEvents line).filterMap blockChange?)

/-- **What one event changes**: nothing, or the depth of one tag by one. -/
theorem blockChange?_cases (e : Nesting.Event) :
    (blockChange? e = none ∧ ∀ tag, eventDelta tag e = 0) ∨
      ∃ b delta, blockChange? e = some (b, delta) ∧ Gentle delta ∧
        ∀ tag, eventDelta tag e = if b = tag then delta else 0 := by
  cases e with
  | opens b => exact Or.inr ⟨b, 1, rfl, ⟨by decide, by decide⟩, fun _ => rfl⟩
  | closes b => exact Or.inr ⟨b, -1, rfl, ⟨by decide, by decide⟩, fun _ => rfl⟩
  | branch => exact Or.inl ⟨rfl, fun _ => rfl⟩

theorem balance_blockChanges (tag : Block) (events : List Nesting.Event) :
    balance tag (events.filterMap blockChange?) = blockBalance tag events := by
  induction events with
  | nil => rfl
  | cons e events ih =>
    rw [blockBalance, List.foldr_cons, ← blockBalance, ← ih]
    rcases blockChange?_cases e with ⟨hnone, hzero⟩ | ⟨b, delta, hsome, -, hdelta⟩
    · rw [List.filterMap_cons_none hnone, hzero, Int.zero_add]
    · rw [List.filterMap_cons_some hsome, hdelta]
      rfl

theorem blockBalance_pos {tag : Block} {events : List Nesting.Event}
    (h : blockOpener? events = some tag) : 0 < blockBalance tag events := by
  obtain ⟨e, -, he⟩ := List.exists_of_findSome?_eq_some h
  cases e with
  | opens b =>
    dsimp only at he
    split at he
    · next hpos =>
      obtain rfl := Option.some.inj he
      exact hpos
    · exact absurd he (by simp)
  | closes b => exact absurd he (by simp)
  | branch => exact absurd he (by simp)

theorem proper_blockRow (line : List Char) : Proper (blockRow line) where
  gentle c hc := by
    obtain ⟨e, -, he⟩ := List.mem_filterMap.mp hc
    rcases blockChange?_cases e with ⟨hnone, -⟩ | ⟨b, delta, hsome, hgentle, -⟩
    · rw [hnone] at he
      exact absurd he (by simp)
    · rw [hsome] at he
      obtain rfl := Option.some.inj he
      exact hgentle
  opens tag h := by
    rw [blockRow, balance_blockChanges]
    exact blockBalance_pos h

/-- Both readers of a line come to zero together, and stay above it together. -/
theorem depthPast?_blockChanges {tag : Block} {depth : Int} (hdepth : 0 < depth)
    (events : List Nesting.Event) :
    depthPast? tag depth (events.filterMap blockChange?) = depthAfter? tag depth events ∧
      ∀ d, depthAfter? tag depth events = some d → 0 < d := by
  induction events generalizing depth with
  | nil => exact ⟨rfl, fun d hd => Option.some.inj hd ▸ hdepth⟩
  | cons e events ih =>
    rw [depthAfter?]
    rcases blockChange?_cases e with ⟨hnone, hzero⟩ | ⟨b, delta, hsome, hgentle, hdelta⟩
    · rw [List.filterMap_cons_none hnone, hzero, Int.add_zero, if_neg (by omega)]
      exact ih hdepth
    · rw [List.filterMap_cons_some hsome, depthPast?, hdelta]
      by_cases hb : b = tag
      · rw [if_pos hb, if_pos hb]
        split
        · exact ⟨rfl, fun d hd => absurd hd (by simp)⟩
        · have hlow := hgentle.1
          exact ih (by omega)
      · rw [if_neg hb, if_neg hb, Int.add_zero, if_neg (by omega)]
        exact ih hdepth

/-- The search of the pass is the search of the query. -/
theorem search?_blockRow {tag : Block} {depth : Int} (hdepth : 0 < depth)
    (ls : List (List Char)) :
    (Tracker.pass Block).search? (tag, depth) (ls.map blockRow) = blockEnd? tag depth ls := by
  induction ls generalizing depth with
  | nil => rfl
  | cons l ls ih =>
    obtain ⟨hpast, hpos⟩ := depthPast?_blockChanges hdepth (lineEvents l)
    have hnext : (Tracker.pass Block).next? (tag, depth) (blockRow l) =
        (depthAfter? tag depth (lineEvents l)).map (tag, ·) := by
      rw [← hpast]
      rfl
    rw [List.map_cons, Pass.search?, hnext, blockEnd?]
    cases hafter : depthAfter? tag depth (lineEvents l) with
    | none => rfl
    | some d =>
      rw [Option.map_some]
      dsimp only
      rw [ih (hpos d hafter)]

theorem matchBlock?_cons (first : List Char) (rest : List (List Char)) :
    matchBlock? (first :: rest) = (blockOpener? (lineEvents first)).bind fun tag =>
      (blockEnd? tag (blockBalance tag (lineEvents first)) rest).map (· + 1) := by
  simp only [Option.map_eq_bind]
  rfl

theorem searchFrom?_blockRow (ls : List (List Char)) :
    (Tracker.pass Block).searchFrom? (ls.map blockRow) = matchBlock? ls := by
  cases ls with
  | nil => rfl
  | cons first rest =>
    rw [List.map_cons, Pass.searchFrom?, matchBlock?_cons]
    refine Option.bind_map.trans (Option.bind_congr fun tag hopener => ?_)
    rw [Function.comp_apply, blockRow, balance_blockChanges,
      search?_blockRow (blockBalance_pos hopener)]

/-- **The pass for blocks finds on every line what the query at this line finds.** -/
theorem endOf?_blockEnds (ls : List (List Char)) (line : Nat) :
    (blockEnds (ls.map lineEvents)).endOf? line =
      (matchBlock? (ls.drop line)).map (line + ·) := by
  have hproper : ∀ row ∈ ls.map blockRow, Proper row := fun row hrow => by
    obtain ⟨l, -, rfl⟩ := List.mem_map.mp hrow
    exact proper_blockRow l
  have hrows : blockEnds (ls.map lineEvents) = Tracker.readLines 0 .empty (ls.map blockRow) := by
    rw [blockEnds, List.map_map]
    rfl
  rw [hrows, Tracker.endOf?_readLines hproper, ← List.map_drop, searchFrom?_blockRow]

/-! ### Fixed pairs -/

namespace PairState

/-- No line waits under this number. -/
def Clear (line : Nat) (s : PairState) : Prop :=
  ∀ w ∈ s.waiting, w.2 ≠ line

/-- A line waits for one closing tag, and for nothing else. -/
structure Waits (s : PairState) (line : Nat) (closer : List Char) : Prop where
  mem : (closer, line) ∈ s.waiting
  only : ∀ w ∈ s.waiting, w.2 = line → w.1 = closer
  pending : s.endOf? line = none

section Line

variable {s : PairState} {first line : Nat} {closer : List Char}

theorem readLine_eq (line : Nat) (markup : List Char) (s : PairState) :
    s.readLine line markup =
      ⟨(pairCloser? markup).toList.map (·, line) ++
          s.waiting.filter fun w => !Text.occursIn w.1 markup,
        (s.waiting.filter fun w => Text.occursIn w.1 markup).map (fun w => (w.2, line)) ++ s.ends⟩ := by
  rw [readLine, List.partition_eq_filter_filter]
  rfl

theorem mem_waiting_readLine {markup : List Char} {w : List Char × Nat} :
    w ∈ (s.readLine line markup).waiting ↔
      (pairCloser? markup = some w.1 ∧ w.2 = line) ∨
        (w ∈ s.waiting ∧ Text.occursIn w.1 markup = false) := by
  rw [readLine_eq, List.mem_append, List.mem_map, List.mem_filter, Bool.not_eq_true']
  refine or_congr_left ⟨?_, fun ⟨hcloser, hline⟩ => ?_⟩
  · rintro ⟨c, hc, rfl⟩
    exact ⟨Option.mem_toList.mp hc, rfl⟩
  · exact ⟨w.1, Option.mem_toList.mpr hcloser, Prod.ext rfl hline.symm⟩

theorem endOf?_readLine_of_ended {markup : List Char} {w : List Char × Nat} (hw : w ∈ s.waiting)
    (hoccurs : Text.occursIn w.1 markup = true) :
    (s.readLine line markup).endOf? w.2 = some line := by
  rw [readLine_eq, endOf?, List.find?_append, List.find?_map]
  cases hfind : (s.waiting.filter fun w => Text.occursIn w.1 markup).find?
      ((fun e : Nat × Nat => decide (e.1 = w.2)) ∘ fun w => (w.2, line)) with
  | none =>
    have hnot := List.find?_eq_none.mp hfind w (List.mem_filter.mpr ⟨hw, hoccurs⟩)
    exact absurd (by simp) hnot
  | some v => rfl

theorem endOf?_readLine_of_not_ended {markup : List Char}
    (h : ∀ w ∈ s.waiting, Text.occursIn w.1 markup = true → w.2 ≠ first) :
    (s.readLine line markup).endOf? first = s.endOf? first := by
  have hnone : (s.waiting.filter fun w => Text.occursIn w.1 markup).find?
      ((fun e : Nat × Nat => decide (e.1 = first)) ∘ fun w => (w.2, line)) = none := by
    rw [List.find?_eq_none]
    intro w hw
    obtain ⟨hmem, hoccurs⟩ := List.mem_filter.mp hw
    simpa using h w hmem hoccurs
  rw [readLine_eq, endOf?, List.find?_append, List.find?_map, hnone]
  rfl

theorem Clear.readLine (h : Clear first s) (hne : line ≠ first) (markup : List Char) :
    Clear first (s.readLine line markup) ∧
      (s.readLine line markup).endOf? first = s.endOf? first := by
  refine ⟨fun w hw => ?_, endOf?_readLine_of_not_ended fun w hw _ => h w hw⟩
  rcases mem_waiting_readLine.mp hw with ⟨-, hline⟩ | ⟨hmem, -⟩
  · rwa [hline]
  · exact h w hmem

theorem Waits.readLine (h : Waits s first closer) (hne : line ≠ first) (markup : List Char) :
    (Text.occursIn closer markup = true →
        Clear first (s.readLine line markup) ∧
          (s.readLine line markup).endOf? first = some line) ∧
      (Text.occursIn closer markup = false → Waits (s.readLine line markup) first closer) := by
  refine ⟨fun hoccurs => ⟨fun w hw he => ?_, endOf?_readLine_of_ended h.mem hoccurs⟩,
    fun habsent => ⟨mem_waiting_readLine.mpr (Or.inr ⟨h.mem, habsent⟩), fun w hw he => ?_, ?_⟩⟩
  · rcases mem_waiting_readLine.mp hw with ⟨-, hline⟩ | ⟨hmem, habsent⟩
    · exact hne (hline.symm.trans he)
    · rw [h.only w hmem he, hoccurs] at habsent
      exact absurd habsent (by simp)
  · rcases mem_waiting_readLine.mp hw with ⟨-, hline⟩ | ⟨hmem, -⟩
    · exact absurd (hline.symm.trans he) hne
    · exact h.only w hmem he
  · rw [endOf?_readLine_of_not_ended fun w hw hoccurs he => ?_, h.pending]
    rw [h.only w hw he, habsent] at hoccurs
    exact absurd hoccurs (by simp)

end Line

/-- The pass for pairs.  A line waits for a closing tag. -/
def pass : Pass PairState (List Char) (List Char) where
  read line markup s := s.readLine line markup
  endOf? := endOf?
  opening? := pairCloser?
  next? closer markup := if Text.occursIn closer markup then none else some closer

theorem readLines_eq (line : Nat) (s : PairState) (markups : List (List Char)) :
    readLines line s markups = pass.readLines line s markups := by
  induction markups generalizing line s with
  | nil => rfl
  | cons markup markups ih => exact ih _ _

/-- **The lines that wait for a closing tag are kept apart.** -/
theorem laws_pass : pass.Laws (fun _ => True) (fun _ => True) Clear Waits where
  good _ _ _ := trivial
  clear markup hclear hne := hclear.readLine hne markup
  opens {s markup line closer} hclear hend hopening := by
    refine ⟨mem_waiting_readLine.mpr (Or.inl ⟨hopening, rfl⟩), fun w hw he => ?_, ?_⟩
    · rcases mem_waiting_readLine.mp hw with ⟨hsome, -⟩ | ⟨hmem, -⟩
      · exact Option.some.inj (hsome.symm.trans hopening)
      · exact absurd he (hclear w hmem)
    · exact (endOf?_readLine_of_not_ended fun w hw _ => hclear w hw).trans hend
  idles {s markup line} hclear hend hopening := by
    refine ⟨fun w hw => ?_, ?_⟩
    · rcases mem_waiting_readLine.mp hw with ⟨hsome, -⟩ | ⟨hmem, -⟩
      · exact absurd (hsome.symm.trans hopening) (by simp)
      · exact hclear w hmem
    · exact (endOf?_readLine_of_not_ended fun w hw _ => hclear w hw).trans hend
  waits {s markup first line closer next} _ _ hwaits hne hnext := by
    have hcases : (if Text.occursIn closer markup then none else some closer) = some next := hnext
    split at hcases
    · exact absurd hcases (by simp)
    · next habsent =>
      obtain rfl := Option.some.inj hcases
      exact (hwaits.readLine hne markup).2 (Bool.eq_false_iff.mpr habsent)
  ends {s markup first line closer} _ _ hwaits hne hnext := by
    have hcases : (if Text.occursIn closer markup then none else some closer) = none := hnext
    split at hcases
    · next hoccurs => exact (hwaits.readLine hne markup).1 hoccurs
    · exact absurd hcases (by simp)
  pending hwaits := hwaits.pending

theorem search?_eq (closer : List Char) (markups : List (List Char)) :
    pass.search? closer markups = markups.findIdx? (Text.occursIn closer) := by
  induction markups with
  | nil => rfl
  | cons markup markups ih =>
    have hnext : pass.next? closer markup =
        if Text.occursIn closer markup then none else some closer := rfl
    rw [Pass.search?, List.findIdx?_cons, hnext]
    cases Text.occursIn closer markup with
    | true => rfl
    | false =>
      rw [if_neg Bool.false_ne_true, if_neg Bool.false_ne_true]
      dsimp only
      rw [ih]

end PairState

theorem matchPair?_cons (first : List Char) (rest : List (List Char)) :
    matchPair? (first :: rest) = (pairCloser? (markupOf first)).bind fun closer =>
      (rest.findIdx? fun line => Text.occursIn closer (markupOf line)).map (· + 1) := by
  simp only [Option.map_eq_bind]
  rfl

theorem searchFrom?_markupOf (ls : List (List Char)) :
    PairState.pass.searchFrom? (ls.map markupOf) = matchPair? ls := by
  cases ls with
  | nil => rfl
  | cons first rest =>
    rw [List.map_cons, Pass.searchFrom?, matchPair?_cons]
    apply Option.bind_congr
    intro closer _
    rw [PairState.search?_eq, List.findIdx?_map]
    rfl

/-- **The pass for pairs finds on every line what the query at this line finds.** -/
theorem endOf?_pairs (ls : List (List Char)) (line : Nat) :
    (PairState.readLines 0 ⟨[], []⟩ (ls.map markupOf)).endOf? line =
      (matchPair? (ls.drop line)).map (line + ·) := by
  have hpass : (PairState.readLines 0 ⟨[], []⟩ (ls.map markupOf)).endOf? line =
      (PairState.pass.searchFrom? ((ls.map markupOf).drop line)).map (line + ·) := by
    rw [PairState.readLines_eq]
    exact PairState.laws_pass.endOf?_readLines_zero trivial (fun _ _ => trivial)
      (fun _ => ⟨fun _ hw => absurd hw (by simp), rfl⟩) line
  rw [hpass, ← List.map_drop, searchFrom?_markupOf]

/-! ### Elements -/

/-- The change of a tag. -/
def tagChange (e : Element) : List Char × Int :=
  (e.name, e.delta)

theorem balance_tagChange (name : List Char) (es : List Element) :
    balance name (es.map tagChange) = elementBalance name es := by
  rw [balance, List.foldr_map]
  rfl

theorem elementBalance_pos {name : List Char} {es : List Element}
    (h : elementOpener? es = some name) : 0 < elementBalance name es := by
  rw [elementOpener?] at h
  split at h
  · exact absurd h (by simp)
  · obtain ⟨e, -, he⟩ := List.exists_of_findSome?_eq_some h
    split at he
    · next hopen =>
      obtain rfl := Option.some.inj he
      exact hopen.2
    · exact absurd he (by simp)

/-- What the pass for elements reads of a line. -/
def tagRow (es : List Element) : Option (List Char) × List (List Char × Int) :=
  (elementOpener? es, es.map tagChange)

theorem proper_tagRow (es : List Element) : Proper (tagRow es) where
  gentle c hc := by
    obtain ⟨e, -, rfl⟩ := List.mem_map.mp hc
    show Gentle e.kind.delta
    cases e.kind <;> exact ⟨by decide, by decide⟩
  opens name h := by
    rw [tagRow, balance_tagChange]
    exact elementBalance_pos h

theorem elementEnd?_append {name : List Char} {line : Nat} {es : List Element}
    (hline : ∀ e ∈ es, e.line = line) (depth : Int) (rest : List Element) :
    elementEnd? name depth (es ++ rest) =
      match depthPast? name depth (es.map tagChange) with
      | none => some line
      | some depth => elementEnd? name depth rest := by
  induction es generalizing depth with
  | nil => rfl
  | cons e es ih =>
    obtain ⟨he, hes⟩ := List.forall_mem_cons.mp hline
    rw [List.cons_append, elementEnd?, List.map_cons, depthPast?, tagChange]
    split
    · split
      · rw [he]
      · exact ih hes _
    · exact ih hes _

/-- What the pass for elements reads of some lines. -/
def tagRows (es : List Element) (first count : Nat) :
    List (Option (List Char) × List (List Char × Int)) :=
  (List.range' first count).map fun line => tagRow (es.filter (·.line = line))

theorem tagRows_succ (es : List Element) (first count : Nat) :
    tagRows es first (count + 1) =
      tagRow (es.filter (·.line = first)) :: tagRows es (first + 1) count := by
  rw [tagRows, List.range'_succ, List.map_cons, tagRows]

theorem tagRows_filter_gt (es : List Element) (line count : Nat) :
    tagRows (es.filter (line < ·.line)) (line + 1) count = tagRows es (line + 1) count := by
  apply List.map_congr_left
  intro later hlater
  have := (List.mem_range'_1.mp hlater).1
  rw [List.filter_filter]
  congr 1
  apply List.filter_congr
  intro e _
  rw [Bool.eq_iff_iff, Bool.and_eq_true, decide_eq_true_eq, decide_eq_true_eq]
  omega

theorem search?_tagRows {es : List Element} (hsorted : es.Pairwise fun a b => a.line ≤ b.line)
    {first count : Nat} (hlines : ∀ e ∈ es, first ≤ e.line ∧ e.line < first + count)
    (name : List Char) (depth : Int) :
    ((Tracker.pass (List Char)).search? (name, depth) (tagRows es first count)).map (first + ·) =
      elementEnd? name depth es := by
  induction count generalizing first es depth with
  | zero =>
    cases es with
    | nil => rfl
    | cons e es =>
      have := hlines e List.mem_cons_self
      omega
  | succ count ih =>
    have hcut := Ordered.filter_eq_append_filter_gt hsorted fun e he => (hlines e he).1
    have hrow : ∀ e ∈ es.filter (·.line = first), e.line = first := fun e he => by
      simpa using (List.mem_filter.mp he).2
    have hnext : (Tracker.pass (List Char)).next? (name, depth)
        (tagRow (es.filter (·.line = first))) =
          (depthPast? name depth ((es.filter (·.line = first)).map tagChange)).map (name, ·) := rfl
    conv_rhs => rw [← hcut, elementEnd?_append hrow]
    rw [tagRows_succ, Pass.search?, hnext]
    cases depthPast? name depth ((es.filter (·.line = first)).map tagChange) with
    | none => rfl
    | some d =>
      have hlater : ∀ e ∈ es.filter (first < ·.line),
          first + 1 ≤ e.line ∧ e.line < first + 1 + count := fun e he => by
        obtain ⟨hmem, hgt⟩ := List.mem_filter.mp he
        have := hlines e hmem
        rw [decide_eq_true_eq] at hgt
        omega
      rw [Option.map_some]
      dsimp only
      rw [← ih (hsorted.filter _) hlater, tagRows_filter_gt, Option.map_map]
      congr 1
      funext i
      rw [Function.comp_apply]
      omega

/-- The line of the tag that closes the element which a line leaves open. -/
def elementEndAt? (es : List Element) (line : Nat) : Option Nat :=
  (elementOpener? (es.filter (·.line = line))).bind fun name =>
    elementEnd? name (elementBalance name (es.filter (·.line = line))) (es.filter (line < ·.line))

/-- **The pass for elements finds on every line what the search from there on finds.** -/
theorem endOf?_elementEnds {es : List Element}
    (hsorted : es.Pairwise fun a b => a.line ≤ b.line) {count : Nat}
    (hlt : ∀ e ∈ es, e.line < count) {line : Nat} (hline : line < count) :
    (elementEnds ((List.range count).map fun line => es.filter (·.line = line))).endOf? line =
      elementEndAt? es line := by
  have hproper : ∀ row ∈ tagRows es 0 count, Proper row := fun row hrow => by
    obtain ⟨i, -, rfl⟩ := List.mem_map.mp hrow
    exact proper_tagRow _
  have hrows : elementEnds ((List.range count).map fun line => es.filter (·.line = line)) =
      Tracker.readLines 0 .empty (tagRows es 0 count) := by
    rw [elementEnds, List.map_map, tagRows, List.range_eq_range']
    rfl
  have hdrop : (tagRows es 0 count).drop line = tagRows es line (count - line - 1 + 1) := by
    rw [tagRows, ← List.map_drop, List.drop_range', Nat.mul_one, Nat.zero_add, tagRows,
      Nat.sub_add_cancel (by omega)]
  have hlater : ∀ e ∈ es.filter (line < ·.line),
      line + 1 ≤ e.line ∧ e.line < line + 1 + (count - line - 1) := fun e he => by
    obtain ⟨hmem, hgt⟩ := List.mem_filter.mp he
    have := hlt e hmem
    rw [decide_eq_true_eq] at hgt
    omega
  rw [hrows, Tracker.endOf?_readLines hproper, hdrop, tagRows_succ, Pass.searchFrom?,
    elementEndAt?, Option.map_bind]
  refine Option.bind_map.trans (Option.bind_congr fun name _ => ?_)
  rw [Function.comp_apply, Function.comp_apply, tagRow, balance_tagChange,
    ← search?_tagRows (hsorted.filter _) hlater, tagRows_filter_gt, Option.map_map]
  congr 1
  funext i
  rw [Function.comp_apply]
  omega

theorem matchElement?_eq {cs : List Char}
    (hsorted : (Element.tags cs).Pairwise fun a b => a.line ≤ b.line) :
    matchElement? cs = elementEndAt? (Element.tags cs) 0 := by
  have hfirst : (Element.tags cs).Pairwise fun a b =>
      decide (b.line = 0) = true → decide (a.line = 0) = true := hsorted.imp fun {a b} hab hb => by
    rw [decide_eq_true_eq] at hb ⊢
    omega
  obtain ⟨htake, hdrop⟩ := Ordered.takeWhile_eq_filter hfirst
  have hrest : (Element.tags cs).filter (fun e => !decide (e.line = 0)) =
      (Element.tags cs).filter (0 < ·.line) := by
    apply List.filter_congr
    intro e _
    rw [Bool.eq_iff_iff, Bool.not_eq_true', decide_eq_false_iff_not, decide_eq_true_eq]
    omega
  rw [matchElement?, List.span_eq_takeWhile_dropWhile, htake, hdrop, hrest]
  rfl

end TwigTemplate.Fold
