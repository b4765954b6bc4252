import Mathlib.Data.List.Perm.Subperm
import TwigTemplate.Proofs.Nesting
import TwigTemplate.Proofs.Ordered
import TwigTemplate.Proofs.Report.Lines
import TwigTemplate.Proofs.Text.Lines

/-!
# Findings about the nesting of blocks

An analysis keeps the open blocks on a stack.  What is wrong with the nesting is found
when a block is closed, and at the end; all other findings are of other categories.

* `Nests`: **what a region does to the open blocks**, one case for each event, with the
  structural causes that it is given.  `nests_regionCauses`: a step is one of these.
* `Reads`: what some regions do one after the other.  `reads_run`: a run is this.
* `Reads.unwind_eq`, `Reads.count_eq`, `Reads.sublist_openings`: what holds of every run.
* `nodup_places`: no two regions start at one place.
* `analyze_structure`: the structural findings of a report, and its order.
-/

namespace TwigTemplate.Analysis

open Nesting (Event WellNested events_cons)

/-- The causes about the nesting of blocks. -/
def structural (causes : List Cause) : List Cause :=
  causes.filter (·.category = .structural)

theorem structural_append (as bs : List Cause) :
    structural (as ++ bs) = structural as ++ structural bs :=
  List.filter_append ..

theorem structural_eq_nil_iff {causes : List Cause} :
    structural causes = [] ↔ ∀ c ∈ causes, c.category ≠ .structural := by
  rw [structural, List.filter_eq_nil_iff]
  simp

/-! ### One region -/

theorem structural_operatorCauses (options : LintOptions) (content : List Char) :
    structural (operatorCauses options content) = [] := by
  rw [structural_eq_nil_iff, operatorCauses]
  intro c hc
  split at hc
  · obtain ⟨op, -, rfl⟩ := List.mem_map.mp hc
    simp [Cause.category]
  · exact absurd hc (by simp)

theorem structural_argumentCauses (s : Statement) (content : List Char) :
    structural (argumentCauses s content) = [] := by
  rw [argumentCauses]
  split_ifs <;> rfl

theorem structural_outputCauses (options : LintOptions) (content : List Char) :
    structural (outputCauses options content) = [] := by
  rw [outputCauses]
  split_ifs
  · rfl
  · rfl
  · rw [structural_append, structural_operatorCauses, List.append_nil, structural_eq_nil_iff]
    intro c hc
    obtain ⟨call, -, hcall⟩ := List.mem_filterMap.mp hc
    rw [filterCause?] at hcall
    split_ifs at hcall
    · obtain rfl := Option.some.inj hcall
      decide
    · obtain rfl := Option.some.inj hcall
      simp [Cause.category]

/-- What a region does to the open blocks, and its structural causes. -/
inductive Nests (r : Region) : List Frame → List Frame → List Cause → Prop
  | opens {b : Block} {st : List Frame} : Event.ofRegion? r = some (.opens b) →
      Nests r st (Frame.ofRegion b r :: st) []
  | closes {f : Frame} {st : List Frame} : Event.ofRegion? r = some (.closes f.block) →
      Nests r (f :: st) st []
  | mismatched {b : Block} {f : Frame} {st : List Frame} :
      Event.ofRegion? r = some (.closes b) → f.block ≠ b →
      Nests r (f :: st) st [.mismatchedCloser f.block b]
  | unexpected {b : Block} : Event.ofRegion? r = some (.closes b) →
      Nests r [] [] [.unexpectedCloser b]
  | branch {st : List Frame} : Event.ofRegion? r = some .branch → Nests r st st []
  | keeps {st : List Frame} : Event.ofRegion? r = none → Nests r st st []

theorem nests_nest {r : Region} {role : Role} (h : Event.ofRegion? r = Event.ofRole? role)
    (name : List Char) (st : List Frame) :
    Nests r st (nest r role name st).1 (structural (nest r role name st).2) := by
  cases role with
  | unknown => exact .keeps h
  | opens b => exact .opens h
  | closes b =>
    cases st with
    | nil => exact .unexpected h
    | cons f st =>
      by_cases hf : f.block = b
      · subst hf
        simpa [nest, structural] using Nests.closes h
      · simpa [nest, hf, structural, Cause.category] using Nests.mismatched h hf
  | branch => exact .branch h
  | inline => exact .keeps h

theorem ofRegion?_of_empty {r : Region} (h : r.content = []) : Event.ofRegion? r = none := by
  have hrole : Event.ofRole? (Statement.ofContent []).role = none := by decide
  rw [Event.ofRegion?, h, hrole, ite_self]

theorem nests_statementCauses (options : LintOptions) {r : Region}
    (hkind : r.kind = .template .statement) (st : List Frame) :
    Nests r st (statementCauses options r r.content st).1
      (structural (statementCauses options r r.content st).2) := by
  rw [statementCauses]
  split
  · next hempty => exact .keeps (ofRegion?_of_empty (List.isEmpty_iff.mp hempty))
  · have hevent : Event.ofRegion? r = Event.ofRole? (Statement.ofContent r.content).role := by
      rw [Event.ofRegion?, if_pos hkind]
    have hnest := nests_nest hevent (Statement.ofContent r.content).reportedName st
    simpa only [structural_append, structural_argumentCauses, structural_operatorCauses,
      List.append_nil] using hnest

/-- **What a region does to the open blocks** is what its event says. -/
theorem nests_regionCauses (options : LintOptions) (r : Region) (st : List Frame) :
    Nests r st (regionCauses options r st).1 (structural (regionCauses options r st).2) := by
  have hnone : r.kind ≠ .template .statement → Event.ofRegion? r = none := fun hkind => by
    rw [Event.ofRegion?, if_neg hkind]
  rw [regionCauses]
  split
  · next h => exact .keeps (hnone (by simp [h]))
  · next h => exact .keeps (hnone (by simp [h]))
  · next h =>
    rw [structural_outputCauses]
    exact .keeps (hnone (by simp [h]))
  · next h => exact nests_statementCauses options h st
  · next h => exact .keeps (hnone (by simp [h]))
  · next h => exact .keeps (hnone (by simp [h]))
  · next h => exact .keeps (hnone (by simp [h]))

/-! ### A run -/

/-- What regions do to the open blocks one after the other, and their structural causes. -/
inductive Reads : List Region → List Frame → List Frame → List Cause → Prop
  | nil {st : List Frame} : Reads [] st st []
  | cons {r : Region} {rs : List Region} {st next last : List Frame} {causes more : List Cause} :
      Nests r st next causes → Reads rs next last more →
      Reads (r :: rs) st last (causes ++ more)

theorem structural_run_cons (options : LintOptions) (st : List Frame) (r : Region)
    (rs : List Region) :
    structural ((run options st (r :: rs)).2.map (·.cause)) =
      structural (regionCauses options r st).2 ++
        structural ((run options (regionCauses options r st).1 rs).2.map (·.cause)) := by
  rw [run_cons, List.map_append, structural_append, List.map_map]
  congr 2
  exact List.map_id _

/-- **A run reads its regions one after the other.** -/
theorem reads_run (options : LintOptions) (rs : List Region) (st : List Frame) :
    Reads rs st (run options st rs).1 (structural ((run options st rs).2.map (·.cause))) := by
  induction rs generalizing st with
  | nil => exact .nil
  | cons r rs ih =>
    rw [structural_run_cons, run_cons]
    exact .cons (nests_regionCauses options r st) (ih _)

/-- The block that a region opens, with its place. -/
def opening? (r : Region) : Option Frame :=
  (Event.ofRegion? r).bind fun e => e.opened?.map (Frame.ofRegion · r)

/-- The blocks that are opened by some regions, with their places. -/
def openings (rs : List Region) : List Frame :=
  rs.filterMap opening?

def unexpected? : Cause → Option Block
  | .unexpectedCloser b => some b
  | _ => none

section Reads

variable {rs : List Region} {st last : List Frame} {causes : List Cause}

/-- **A run is without structural causes when its events unwind**, and then leaves open
the blocks that they leave. -/
theorem Reads.unwind_eq (h : Reads rs st last causes) :
    Nesting.unwind (st.map (·.block)) (Nesting.events rs) =
      if causes = [] then some (last.map (·.block)) else none := by
  induction h with
  | nil => rfl
  | cons hstep _ ih =>
    rw [events_cons]
    cases hstep with
    | opens he => rw [he]; exact ih
    | closes he =>
      rw [he, List.map_cons, Option.toList_some, List.singleton_append, Nesting.unwind, if_pos rfl]
      exact ih
    | mismatched he hne =>
      rw [he, List.map_cons, Option.toList_some, List.singleton_append, Nesting.unwind, if_neg hne,
        if_neg (by simp)]
    | unexpected he => rw [he]; rfl
    | branch he => rw [he]; exact ih
    | keeps he => rw [he]; exact ih

theorem Nests.count_eq {r : Region} {next : List Frame} (h : Nests r st next causes) :
    next.length + ((Event.ofRegion? r).toList.filterMap Event.closed?).length =
      st.length + ((Event.ofRegion? r).toList.filterMap Event.opened?).length +
        (causes.filterMap unexpected?).length := by
  cases h with
  | opens he => rw [he]; rfl
  | closes he => rw [he]; rfl
  | mismatched he _ => rw [he]; rfl
  | unexpected he => rw [he]; rfl
  | branch he => rw [he]; rfl
  | keeps he => rw [he]; rfl

/-- **Blocks are counted**: those that were open and those that are opened are closed or
left, but for the closing events that find none. -/
theorem Reads.count_eq (h : Reads rs st last causes) :
    last.length + ((Nesting.events rs).filterMap Event.closed?).length =
      st.length + ((Nesting.events rs).filterMap Event.opened?).length +
        (causes.filterMap unexpected?).length := by
  induction h with
  | nil => rfl
  | cons hstep _ ih =>
    have hcount := hstep.count_eq
    rw [events_cons, List.filterMap_append, List.filterMap_append, List.filterMap_append,
      List.length_append, List.length_append, List.length_append]
    omega

theorem openings_cons (r : Region) (rs : List Region) :
    openings (r :: rs) = (opening? r).toList ++ openings rs := by
  rw [openings, List.filterMap_cons]
  cases opening? r <;> rfl

/-- **The blocks that are left open** were open before or have been opened, in this order. -/
theorem Reads.sublist_openings (h : Reads rs st last causes) :
    last.reverse.Sublist (st.reverse ++ openings rs) := by
  induction h with
  | nil => exact List.sublist_append_left _ _
  | @cons r rs st next last causes more hstep _ ih =>
    have hskip : (st.reverse ++ openings rs).Sublist (st.reverse ++ openings (r :: rs)) := by
      rw [openings_cons]
      exact (List.sublist_append_right _ _).append_left _
    cases hstep with
    | @opens b _ he =>
      have hopen : opening? r = some (Frame.ofRegion b r) := by rw [opening?, he]; rfl
      rw [openings_cons, hopen]
      simpa using ih
    | closes he =>
      refine ih.trans (List.Sublist.trans ?_ hskip)
      rw [List.reverse_cons]
      exact (List.sublist_append_left _ _).append_right _
    | mismatched he hne =>
      refine ih.trans (List.Sublist.trans ?_ hskip)
      rw [List.reverse_cons]
      exact (List.sublist_append_left _ _).append_right _
    | unexpected he => exact ih.trans hskip
    | branch he => exact ih.trans hskip
    | keeps he => exact ih.trans hskip

theorem Reads.ne_unclosedBlock (h : Reads rs st last causes) :
    ∀ c ∈ causes, ∀ b : Block, c ≠ .unclosedBlock b := by
  induction h with
  | nil => simp
  | cons hstep _ ih =>
    intro c hc
    rcases List.mem_append.mp hc with hc | hc
    · cases hstep with
      | mismatched _ _ => obtain rfl := List.mem_singleton.mp hc; simp
      | unexpected _ => obtain rfl := List.mem_singleton.mp hc; simp
      | _ => exact absurd hc (by simp)
    · exact ih c hc

end Reads

/-! ### Places -/

theorem pairwise_column_locate {ps : List Region.Piece} (hps : '\n' ∉ Region.spell ps)
    (hne : ∀ p ∈ ps, p.raw ≠ []) (start : Point) :
    (Region.locate start ps).Pairwise (fun r s => r.column < s.column) ∧
      ∀ r ∈ Region.locate start ps, start.column ≤ r.column := by
  induction ps generalizing start with
  | nil => simp [Region.locate]
  | cons p ps ih =>
    rw [Region.spell_cons, List.mem_append, not_or] at hps
    obtain ⟨hpairs, hfrom⟩ := ih hps.2 (fun q hq => hne q (List.mem_cons_of_mem _ hq))
      (start.advance p.raw)
    have hpos := List.length_pos_iff.mpr (hne p List.mem_cons_self)
    rw [Point.advance_column hps.1] at hfrom
    rw [Region.locate, List.pairwise_cons, List.forall_mem_cons]
    refine ⟨⟨fun r hr => ?_, hpairs⟩, Nat.le_refl _, fun r hr => ?_⟩
    · have := hfrom r hr
      show start.column < r.column
      omega
    · have := hfrom r hr
      omega

/-- **No two regions start at one place.** -/
theorem nodup_places (cs : List Char) :
    ((Region.ofLines cs).flatten.map fun r => (r.line, r.column)).Nodup := by
  have hfree : ∀ row ∈ (Text.lines cs).zipIdx 1, '\n' ∉ row.1 := fun row hrow =>
    Text.newline_not_mem_of_mem_lines (List.fst_mem_of_mem_zipIdx hrow)
  have hrows : ((Text.lines cs).zipIdx 1).Pairwise fun a b => a.2 < b.2 := by
    rw [← List.pairwise_map (f := Prod.snd) (R := (· < ·)), List.zipIdx_map_snd]
    exact List.pairwise_lt_range'
  rw [Region.ofLines, flatten_ofLinesFrom, List.Nodup, List.pairwise_map, List.pairwise_flatMap]
  refine ⟨fun row hrow => ?_, ?_⟩
  · have hspell : '\n' ∉ Region.spell (Region.pieces .line row.1) := by
      rw [Region.spell_pieces]
      exact hfree row hrow
    refine (pairwise_column_locate hspell (fun p hp => Region.raw_ne_nil_of_mem_pieces p hp)
      ⟨row.2, 1, 0⟩).1.imp fun {r s} hlt he => ?_
    have := congrArg Prod.snd he
    dsimp only at this
    omega
  · refine hrows.imp_of_mem fun {a b} ha hb hlt r hr s hs he => ?_
    have hline := congrArg Prod.fst he
    dsimp only at hline
    rw [line_of_mem_ofLine (hfree a ha) r hr, line_of_mem_ofLine (hfree b hb) s hs] at hline
    omega

/-- The blocks of a text are opened at different places. -/
theorem nodup_openings (cs : List Char) :
    ((openings (Region.ofLines cs).flatten).map fun f => (f.line, f.column)).Nodup := by
  refine List.Nodup.sublist ?_ (nodup_places cs)
  induction (Region.ofLines cs).flatten with
  | nil => exact List.Sublist.slnil
  | cons r rs ih =>
    rw [openings_cons, List.map_append, List.map_cons]
    cases hopen : opening? r with
    | none => exact ih.cons _
    | some f =>
      obtain ⟨e, -, hframe⟩ := Option.bind_eq_some_iff.mp hopen
      obtain ⟨b, -, rfl⟩ := Option.map_eq_some_iff.mp hframe
      exact ih.cons_cons _

/-! ### The report -/

/-- The block that a finding says was never closed, with its place. -/
def leftOpen? (f : Finding) : Option Frame :=
  match f.cause with
  | .unclosedBlock b => some ⟨b, f.line, f.column⟩
  | _ => none

/-- The opening and closing events of the lines of a text. -/
def blockEvents (cs : List Char) : List Event :=
  ((Region.ofLines cs).flatMap Nesting.events).filter Event.isBlock

theorem blockEvents_eq (cs : List Char) :
    blockEvents cs = (Nesting.events (Region.ofLines cs).flatten).filter Event.isBlock := by
  have hevents : (Region.ofLines cs).flatMap Nesting.events =
      Nesting.events (Region.ofLines cs).flatten := by
    rw [Nesting.events, List.filterMap_flatten, List.flatMap_def]
    rfl
  rw [blockEvents, hevents]

theorem filterMap_leftOpen?_leftover (stack : List Frame) :
    (stack.flatMap Frame.leftover).filterMap leftOpen? = stack := by
  induction stack with
  | nil => rfl
  | cons f stack ih =>
    have hone : f.leftover.filterMap leftOpen? = [f] := by
      rw [Frame.leftover]
      split <;> rfl
    rw [List.flatMap_cons, List.filterMap_append, hone, ih, List.singleton_append]

theorem filterMap_unexpected?_leftover (stack : List Frame) :
    (stack.flatMap Frame.leftover).filterMap (fun f => unexpected? f.cause) = [] := by
  rw [List.filterMap_eq_nil_iff]
  intro f hf
  obtain ⟨frame, -, hf⟩ := List.mem_flatMap.mp hf
  rw [Frame.leftover] at hf
  split at hf
  · obtain rfl | rfl : f = _ ∨ f = _ := by simpa using hf
    · rfl
    · rfl
  · obtain rfl : f = _ := by simpa using hf
    rfl

theorem filterMap_unexpected?_findings (found : List Finding) (stack : List Frame) :
    ((found ++ stack.flatMap Frame.leftover).filterMap fun f => unexpected? f.cause) =
      (structural (found.map (·.cause))).filterMap unexpected? := by
  have hcauses : ((found.map (·.cause)).filterMap fun c =>
      if c.category = .structural then unexpected? c else none) =
      (found.map (·.cause)).filterMap unexpected? := by
    apply List.filterMap_congr
    intro c _
    cases c <;> rfl
  rw [List.filterMap_append, filterMap_unexpected?_leftover, List.append_nil, structural,
    List.filterMap_filter]
  simp only [decide_eq_true_eq]
  rw [hcauses, List.filterMap_map]
  rfl

theorem filterMap_leftOpen?_findings {found : List Finding}
    (h : ∀ c ∈ structural (found.map (·.cause)), ∀ b : Block, c ≠ .unclosedBlock b)
    (stack : List Frame) :
    (found ++ stack.flatMap Frame.leftover).filterMap leftOpen? = stack := by
  have hnone : found.filterMap leftOpen? = [] := by
    rw [List.filterMap_eq_nil_iff]
    rintro ⟨line, column, cause⟩ hf
    cases cause with
    | unclosedBlock b =>
      refine absurd rfl (h (.unclosedBlock b) ?_ b)
      exact List.mem_filter.mpr ⟨List.mem_map.mpr ⟨_, hf, rfl⟩, rfl⟩
    | _ => rfl
  rw [List.filterMap_append, hnone, List.nil_append, filterMap_leftOpen?_leftover]

theorem forall_ne_structural_iff (found : List Finding) (stack : List Frame) :
    (∀ f ∈ found ++ stack.flatMap Frame.leftover, f.cause.category ≠ .structural) ↔
      structural (found.map (·.cause)) = [] ∧ stack = [] := by
  rw [List.forall_mem_append, structural_eq_nil_iff, List.forall_mem_map]
  refine and_congr_right fun _ => ⟨fun h => ?_, ?_⟩
  · cases stack with
    | nil => rfl
    | cons f stack =>
      refine absurd rfl (h ⟨f.line, f.column, .unclosedBlock f.block⟩ ?_)
      exact List.mem_append_left _ (List.mem_append_right _ (List.mem_singleton.mpr rfl))
  · rintro rfl
    simp

theorem filterMap_blockEvents {α : Type} {f : Event → Option α} (hf : f .branch = none)
    (cs : List Char) :
    (blockEvents cs).filterMap f = (Nesting.events (Region.ofLines cs).flatten).filterMap f := by
  rw [blockEvents_eq, List.filterMap_filter]
  apply List.filterMap_congr
  intro e _
  cases e with
  | branch => exact hf.symm
  | _ => rfl

section Report

variable (options : LintOptions) (cs : List Char)

theorem sorted_ofFindings (found : List Finding) :
    (Report.ofFindings found).findings.Pairwise fun f g => f.line ≤ g.line :=
  Ordered.pairwise_mergeSort Finding.line found

/-- **The structural findings of a report.**  There are none exactly when the opening and
closing events nest.  The blocks that are never closed are as many as are missing, and
are reported where some blocks are opened, no two of them at one place.  All findings are
ordered by line. -/
theorem analyze_structure :
    ((∀ f ∈ (analyze options cs).findings, f.cause.category ≠ .structural) ↔
      WellNested (blockEvents cs)) ∧
    ((analyze options cs).findings.filterMap leftOpen?).length +
        ((blockEvents cs).filterMap Event.closed?).length =
      ((blockEvents cs).filterMap Event.opened?).length +
        ((analyze options cs).findings.filterMap fun f => unexpected? f.cause).length ∧
    ((analyze options cs).findings.filterMap leftOpen?).Subperm
      (openings (Region.ofLines cs).flatten) ∧
    ((openings (Region.ofLines cs).flatten).map fun f => (f.line, f.column)).Nodup ∧
    (analyze options cs).findings.Pairwise fun f g => f.line ≤ g.line := by
  have hreads := reads_run options (Region.ofLines cs).flatten []
  have hperm : (analyze options cs).findings.Perm
      ((run options [] (Region.ofLines cs).flatten).2 ++
        (run options [] (Region.ofLines cs).flatten).1.reverse.flatMap Frame.leftover) :=
    List.mergeSort_perm _ _
  have hleft := hperm.filterMap leftOpen?
  rw [filterMap_leftOpen?_findings hreads.ne_unclosedBlock] at hleft
  refine ⟨?_, ?_, ?_, nodup_openings cs, sorted_ofFindings _⟩
  · have hmem : (∀ f ∈ (analyze options cs).findings, f.cause.category ≠ .structural) ↔
        ∀ f ∈ (run options [] (Region.ofLines cs).flatten).2 ++
          (run options [] (Region.ofLines cs).flatten).1.reverse.flatMap Frame.leftover,
            f.cause.category ≠ .structural :=
      forall_congr' fun f => imp_congr_left hperm.mem_iff
    rw [hmem, forall_ne_structural_iff, List.reverse_eq_nil_iff, blockEvents_eq,
      Nesting.wellNested_iff, ← List.map_nil (f := Frame.block), hreads.unwind_eq]
    split
    · next h => simp [h]
    · next h => simp [h]
  · have hunexpected := (hperm.filterMap fun f => unexpected? f.cause).length_eq
    rw [filterMap_unexpected?_findings] at hunexpected
    rw [hunexpected, hleft.length_eq, List.length_reverse, filterMap_blockEvents rfl,
      filterMap_blockEvents rfl, hreads.count_eq, List.length_nil, Nat.zero_add]
  · refine ⟨_, hleft.symm, ?_⟩
    simpa using hreads.sublist_openings

end Report

end TwigTemplate.Analysis
