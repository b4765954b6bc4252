import TwigTemplate.Proofs.Layout.Counted
import TwigTemplate.Proofs.Region.Agreement
import TwigTemplate.Proofs.Report.Reformatting
import TwigTemplate.Proofs.Report.Structure

/-!
# Indentation and open blocks

An analysis keeps the open blocks on a stack and reads a document line by line.  The layout
keeps a number, never below zero, and reads the document as a whole.  When the blocks nest
and every opener is closed on its line, the number is the height of the stack.

* `lowestHeight`, `lineHeight`: the lowest height of the stack while some regions, or a line,
  are read.
* `Orderly`: a run that finds nothing wrong with the nesting, and no branch outside a block.
* `lowestHeight_eq`: **an orderly run makes the walk over its events**.
* `events_filter_line`: the events of a line, read off the document or off the line.
* `reindent_heights`: **every line is indented by the lowest height of the stack on it**.
-/

namespace TwigTemplate.Analysis

open Nesting (Event)
open Layout (eventDeltas walk walk_cons lowest move_one move_neg_one)

/-! ### Heights of the stack -/

/-- The lowest height of the stack of open blocks while regions are read, the height before
them included; a branch counts one less than the height it is read at. -/
def lowestHeight (options : LintOptions) : List Frame → List Region → Nat
  | stack, [] => stack.length
  | stack, r :: rs =>
    min (if Event.ofRegion? r = some .branch then stack.length - 1 else stack.length)
      (lowestHeight options (regionCauses options r stack).1 rs)

/-- The open blocks before a line, counted from zero. -/
def openBefore (options : LintOptions) (cs : List Char) (i : Nat) : List Frame :=
  (run options [] ((Region.ofLines cs).take i).flatten).1

/-- The lowest height of the stack on a line. -/
def lineHeight (options : LintOptions) (cs : List Char) (i : Nat) : Nat :=
  lowestHeight options (openBefore options cs i) ((Region.ofLines cs)[i]?.getD [])

/-- Every branch is read while a block is open. -/
def BranchesInside (options : LintOptions) : List Frame → List Region → Prop
  | _, [] => True
  | stack, r :: rs =>
    (Event.ofRegion? r = some .branch → stack ≠ []) ∧
      BranchesInside options (regionCauses options r stack).1 rs

instance decidableBranchesInside (options : LintOptions) :
    ∀ (stack : List Frame) (rs : List Region), Decidable (BranchesInside options stack rs)
  | _, [] => inferInstanceAs (Decidable True)
  | stack, r :: rs =>
    have := decidableBranchesInside options (regionCauses options r stack).1 rs
    inferInstanceAs (Decidable ((_ → _) ∧ _))

/-- A run that finds nothing wrong with the nesting of blocks, and no branch outside them. -/
structure Orderly (options : LintOptions) (stack : List Frame) (rs : List Region) : Prop where
  nested : structural ((run options stack rs).2.map (·.cause)) = []
  inside : BranchesInside options stack rs

section Orderly

variable {options : LintOptions} {stack : List Frame}

theorem Orderly.step {r : Region} {rs : List Region} (h : Orderly options stack (r :: rs)) :
    structural (regionCauses options r stack).2 = [] ∧
      Orderly options (regionCauses options r stack).1 rs := by
  have hnested := h.nested
  rw [structural_run_cons, List.append_eq_nil_iff] at hnested
  exact ⟨hnested.1, hnested.2, h.inside.2⟩

/-- What is read after the first regions is read with the blocks that they leave open. -/
theorem Orderly.append {rs ss : List Region} (h : Orderly options stack (rs ++ ss)) :
    Orderly options stack rs ∧ Orderly options (run options stack rs).1 ss := by
  induction rs generalizing stack with
  | nil => exact ⟨⟨rfl, trivial⟩, h⟩
  | cons r rs ih =>
    obtain ⟨hcauses, hrest⟩ := h.step
    obtain ⟨hfront, hback⟩ := ih hrest
    refine ⟨⟨?_, h.inside.1, hfront.inside⟩, hback⟩
    rw [structural_run_cons, hcauses, hfront.nested, List.append_nil]

/-- The depth changes of some regions. -/
def deltas (rs : List Region) : List Int :=
  (Nesting.events rs).flatMap eventDeltas

theorem deltas_cons (r : Region) (rs : List Region) :
    deltas (r :: rs) = (Event.ofRegion? r).toList.flatMap eventDeltas ++ deltas rs := by
  rw [deltas, Nesting.events_cons, List.flatMap_append]
  rfl

/-- **An orderly run makes the walk over its events.** -/
theorem lowestHeight_eq {rs : List Region} (h : Orderly options stack rs) :
    lowestHeight options stack rs = lowest stack.length (deltas rs) ∧
      (run options stack rs).1.length = walk stack.length (deltas rs) := by
  induction rs generalizing stack with
  | nil => exact ⟨rfl, rfl⟩
  | cons r rs ih =>
    obtain ⟨hcauses, hrest⟩ := h.step
    obtain ⟨hlowest, hwalk⟩ := ih hrest
    have hnests := nests_regionCauses options r stack
    have hlow := Layout.lowest_le (regionCauses options r stack).1.length (deltas rs)
    rw [hcauses] at hnests
    rw [lowestHeight, run_cons, hlowest, hwalk, deltas_cons]
    -- One case for each event; the heights before and after it are those of the walk.
    generalize (regionCauses options r stack).1 = next at hnests hlow
    cases hnests with
    | opens he =>
      rw [he, if_neg (by simp), Option.toList_some, List.flatMap_singleton, eventDeltas,
        List.singleton_append, lowest, walk_cons, move_one]
      exact ⟨rfl, rfl⟩
    | closes he =>
      rw [he, if_neg (by simp), Option.toList_some, List.flatMap_singleton, eventDeltas,
        List.singleton_append, lowest, walk_cons, move_neg_one]
      exact ⟨rfl, rfl⟩
    | branch he =>
      obtain ⟨f, st, rfl⟩ := List.exists_cons_of_ne_nil (h.inside.1 he)
      rw [List.length_cons] at hlow ⊢
      rw [he, if_pos rfl, Option.toList_some, List.flatMap_singleton, eventDeltas, List.cons_append,
        List.singleton_append, lowest, lowest, walk_cons, walk_cons, move_neg_one, move_one]
      refine ⟨?_, rfl⟩
      rw [Nat.add_sub_cancel]
      omega
    | keeps he =>
      rw [he, if_neg (by simp)]
      exact ⟨Nat.min_eq_right hlow, rfl⟩

end Orderly

/-! ### The events of a line -/

theorem line_of_mem_ofLinesFrom {ls : List (List Char)} (hls : ∀ l ∈ ls, '\n' ∉ l) (n : Nat) :
    ∀ i row, (Region.ofLinesFrom n ls)[i]? = some row → ∀ r ∈ row, r.line = n + i := by
  induction ls generalizing n with
  | nil => simp [Region.ofLinesFrom]
  | cons l ls ih =>
    intro i row hi r hr
    cases i with
    | zero =>
      obtain rfl := Option.some.inj hi
      exact line_of_mem_ofLine (hls l List.mem_cons_self) r hr
    | succ i =>
      rw [ih (fun m hm => hls m (List.mem_cons_of_mem _ hm)) (n + 1) i row hi r hr]
      omega

section Document

variable {options : LintOptions} {cs : List Char}

theorem free_of_closed
    (h : ∀ r ∈ (Region.ofLines cs).flatten, ∀ form : Form, r.kind ≠ .unterminated form) :
    ∀ p ∈ Region.pieces .document cs, p.kind.isTemplate = true → '\n' ∉ p.raw := by
  intro p hp htemplate
  apply Layout.newline_not_mem_of_code_mem (closed_splitOn (closed_lines h))
  refine List.mem_flatMap.mpr ⟨p, hp, ?_⟩
  rw [Region.Piece.tokens, if_pos htemplate]
  exact List.mem_singleton.mpr rfl

theorem not_continuesRegion
    (h : ∀ p ∈ Region.pieces .document cs, p.kind.isTemplate = true → '\n' ∉ p.raw) (line : Nat) :
    Layout.continuesRegion (Layout.templateRegions cs) line = false := by
  rw [Layout.continuesRegion, List.any_eq_false]
  intro r hr hin
  have hstop := (Region.reading_of_mem_ofDocument hr).2
  obtain ⟨hmem, htemplate⟩ := List.mem_filter.mp hr
  rw [Text.newlineCount_eq_zero.mpr (h _ (Region.mem_locate hmem).1 htemplate)] at hstop
  rw [Bool.and_eq_true, decide_eq_true_eq, decide_eq_true_eq] at hin
  have : r.start.line = r.line := rfl
  omega

/-- **The events of some lines** are the same in the document and in its lines. -/
theorem events_filter_line
    (h : ∀ p ∈ Region.pieces .document cs, p.kind.isTemplate = true → '\n' ∉ p.raw)
    (q : Nat → Bool) :
    Nesting.events ((Layout.templateRegions cs).filter fun r => q r.line) =
      Nesting.events ((Region.ofLines cs).flatten.filter fun r => q r.line) := by
  have htemplate : Nesting.events ((Layout.templateRegions cs).filter fun r => q r.line) =
      Nesting.events ((Region.ofDocument cs).filter fun r => q r.line) := by
    rw [Layout.templateRegions, List.filter_comm]
    apply Nesting.events_filter
    intro r _ hkind
    have hnone : r.kind ≠ .template .statement := fun he => by
      simp [he, Region.Kind.isTemplate] at hkind
    rw [Event.ofRegion?, if_neg hnone]
  have hopened : ∀ rs : List Region, Nesting.events ((Region.opened rs).filter fun r => q r.line) =
      Nesting.events (rs.filter fun r => q r.line) := fun rs => by
    rw [Region.opened, List.filter_comm]
    exact Region.events_opened _
  have hline : ∀ r s : Region, Region.Agrees r s → (q r.line = true ↔ q s.line = true) :=
    fun r s hrs => by rw [hrs.line]
  rw [htemplate, ← hopened, ← hopened (Region.ofLines cs).flatten]
  exact Region.events_agrees (List.rel_filter hline (Region.agrees_of_free h))

/-- The depth that the layout gives a line is the lowest height of the stack on it. -/
theorem lowestOn_eq_lineHeight
    (hfree : ∀ p ∈ Region.pieces .document cs, p.kind.isTemplate = true → '\n' ∉ p.raw)
    (horderly : Orderly options [] (Region.ofLines cs).flatten) (i : Nat) :
    Layout.lowestOn (Layout.templateRegions cs) (i + 1) = lineHeight options cs i := by
  have hrows : ∀ i row, (Region.ofLines cs)[i]? = some row → ∀ r ∈ row, r.line = 1 + i :=
    line_of_mem_ofLinesFrom (fun l hl => Text.newline_not_mem_of_mem_lines hl) 1
  obtain ⟨hon, hbefore⟩ := Ordered.filter_flatten hrows i
  have hcut : (Region.ofLines cs).flatten = ((Region.ofLines cs).take i).flatten ++
      ((Region.ofLines cs)[i]?.getD [] ++ ((Region.ofLines cs).drop (i + 1)).flatten) := by
    conv_lhs => rw [← List.take_append_drop i (Region.ofLines cs), List.flatten_append]
    cases hi : (Region.ofLines cs)[i]? with
    | none =>
      have hlen := List.getElem?_eq_none_iff.mp hi
      rw [List.drop_eq_nil_of_le hlen, List.drop_eq_nil_of_le (by omega)]
      rfl
    | some row =>
      obtain ⟨hlt, rfl⟩ := List.getElem?_eq_some_iff.mp hi
      rw [List.drop_eq_getElem_cons hlt]
      rfl
  rw [hcut] at horderly
  obtain ⟨hfront, hrest⟩ := horderly.append
  obtain ⟨hrow, -⟩ := hrest.append
  rw [lineHeight, openBefore, (lowestHeight_eq hrow).1, (lowestHeight_eq hfront).2,
    Nat.add_comm i 1, Layout.lowestOn, Layout.deltasBefore, Layout.deltasOn,
    events_filter_line hfree (· < 1 + i), events_filter_line hfree (· = 1 + i), hon, hbefore]
  rfl

theorem orderly_of_analyze
    (h : ∀ f ∈ (analyze options cs).findings, f.cause.category ≠ .structural)
    (hinside : BranchesInside options [] (Region.ofLines cs).flatten) :
    Orderly options [] (Region.ofLines cs).flatten := by
  refine ⟨?_, hinside⟩
  have hfound : ∀ f ∈ (run options [] (Region.ofLines cs).flatten).2 ++
      (run options [] (Region.ofLines cs).flatten).1.reverse.flatMap Frame.leftover,
        f.cause.category ≠ .structural :=
    fun f hf => h f (List.mem_mergeSort.mpr hf)
  exact ((forall_ne_structural_iff _ _).mp hfound).1

/-- The lines of a text, trimmed and indented by the heights of the stack. -/
def heightLines (options : LintOptions) (unit cs : List Char) : List (List Char) :=
  (Text.splitAt '\n' cs).mapIdx fun i l =>
    if Text.trim l = [] then []
    else Layout.indent unit (lineHeight options cs i) (Text.trim l)

/-- **Indentation is the number of open blocks.**  When a report finds nothing wrong with the
nesting of blocks and no unclosed opener, and every branch stands in a block, each line is
indented by the lowest height of the stack of open blocks on it. -/
theorem reindent_heights (options : LintOptions) (unit cs : List Char)
    (hreport : ∀ f ∈ (analyze options cs).findings, f.cause.category ≠ .structural ∧
      f.cause ≠ .unclosedOutput ∧ f.cause ≠ .unclosedStatement ∧ f.cause ≠ .unclosedComment)
    (hinside : BranchesInside options [] (Region.ofLines cs).flatten) :
    Layout.reindent unit false cs = Text.joinWith ['\n'] (heightLines options unit cs) ∧
      ('\n' ∉ unit →
        Text.splitAt '\n' (Layout.reindent unit false cs) = heightLines options unit cs) := by
  have hclosed : ∀ r ∈ (Region.ofLines cs).flatten, ∀ form : Form, r.kind ≠ .unterminated form := by
    apply closed_of_analyze options
    intro f hf form
    obtain ⟨-, houtput, hstatement, hcomment⟩ := hreport f hf
    cases form with
    | output => exact houtput
    | statement => exact hstatement
    | comment => exact hcomment
  have hfree := free_of_closed hclosed
  have horderly := orderly_of_analyze (fun f hf => (hreport f hf).1) hinside
  have hlines : Layout.writtenLines unit false cs = heightLines options unit cs := by
    rw [Layout.writtenLines_eq, heightLines]
    congr 1
    funext i l
    rw [not_continuesRegion hfree, if_neg (by simp), Layout.writtenLine,
      Layout.lowestOn_counted_of_none fun r _ hr => absurd hr (by simp [not_continuesRegion hfree]),
      lowestOn_eq_lineHeight hfree horderly]
    simp only [List.isEmpty_iff, Bool.false_eq_true, if_false]
  rw [← hlines]
  exact ⟨Layout.reindent_eq_joinWith unit false cs, fun hunit => Layout.splitAt_reindent hunit cs⟩

/-- A branch stands one step back, also when a loop follows it on its line, and a line that
closes two blocks stands two steps back. -/
theorem reindent_heights_branch :
    ∃ cs, cs = ("\x7b% if a %\x7d\nb\n\x7b% else %\x7d\x7b% for c in d %\x7d\n e\n" ++
        "\x7b% endfor %\x7d\x7b% endif %\x7d").toList ∧
      (∀ f ∈ (analyze .standard cs).findings, f.cause.category ≠ .structural ∧
        f.cause ≠ .unclosedOutput ∧ f.cause ≠ .unclosedStatement ∧
          f.cause ≠ .unclosedComment) ∧
      BranchesInside .standard [] (Region.ofLines cs).flatten ∧
      Text.splitAt '\n' (Layout.reindent "  ".toList false cs) =
        ["\x7b% if a %\x7d".toList, "  b".toList,
          "\x7b% else %\x7d\x7b% for c in d %\x7d".toList, "    e".toList,
          "\x7b% endfor %\x7d\x7b% endif %\x7d".toList] := by
  refine ⟨_, rfl, ?_⟩
  generalize hcs : ("\x7b% if a %\x7d\nb\n\x7b% else %\x7d\x7b% for c in d %\x7d\n e\n" ++
    "\x7b% endfor %\x7d\x7b% endif %\x7d").toList = cs
  have hreport : ∀ f ∈ (analyze .standard cs).findings, f.cause.category ≠ .structural ∧
      f.cause ≠ .unclosedOutput ∧ f.cause ≠ .unclosedStatement ∧ f.cause ≠ .unclosedComment := by
    subst hcs
    decide +kernel
  have hinside : BranchesInside .standard [] (Region.ofLines cs).flatten := by
    subst hcs
    decide +kernel
  refine ⟨hreport, hinside, ?_⟩
  rw [(reindent_heights .standard "  ".toList cs hreport hinside).2 (by decide)]
  subst hcs
  decide +kernel

end Document

end TwigTemplate.Analysis
