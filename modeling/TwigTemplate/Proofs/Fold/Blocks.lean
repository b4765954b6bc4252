import TwigTemplate.Proofs.Fold.Agreement
import TwigTemplate.Proofs.Layout.Heights
import TwigTemplate.Proofs.Report.Pairing

/-!
# Block folds and the statements that close blocks

A query follows a block by counting the events of one tag, from the balance of its line on.  An
analysis keeps the open blocks of all tags on one stack.  When the blocks of a text nest, the
count is the number of blocks of the tag down to one of them on the stack, and the query stops
at the statement that closes this block.

* `length_openOf_run`: a nested run moves the number of open blocks of a tag by its balance.
* `Follows`, `follows_run`: **the count follows one block of the stack to its end**.
-/

namespace TwigTemplate.Fold

open Analysis (Frame Nested Nests run run_cons run_append pairings pairings_append
  mem_pairings_cons mem_of_mem_pairings closing? openOf openOf_cons mem_openOf regionCauses
  openBefore openings)
open Nesting (events_cons)

/-! ### Counting along a run -/

section Run

variable {options : LintOptions} {st : List Frame} {rs : List Region} {tag : Block}

theorem blockBalance_append (tag : Block) (es fs : List Nesting.Event) :
    blockBalance tag (es ++ fs) = blockBalance tag es + blockBalance tag fs := by
  induction es with
  | nil => exact (Int.zero_add _).symm
  | cons e es ih =>
    show eventDelta tag e + blockBalance tag (es ++ fs) =
      eventDelta tag e + blockBalance tag es + blockBalance tag fs
    omega

theorem length_openOf_cons (tag : Block) (f : Frame) (st : List Frame) :
    ((openOf tag (f :: st)).length : Int) =
      (openOf tag st).length + if f.block = tag then 1 else 0 := by
  rw [openOf_cons]
  split
  · rw [List.length_cons]
    omega
  · omega

theorem blockBalance_cons (tag : Block) (e : Nesting.Event) (es : List Nesting.Event) :
    blockBalance tag (e :: es) = eventDelta tag e + blockBalance tag es := rfl

theorem length_openOf_step {r : Region} {next : List Frame} (h : Nests r st next []) (tag : Block) :
    ((openOf tag next).length : Int) =
      (openOf tag st).length + blockBalance tag (Nesting.Event.ofRegion? r).toList := by
  cases h with
  | @opens b _ he =>
    rw [he, length_openOf_cons, Option.toList_some, blockBalance_cons, eventDelta, Frame.ofRegion]
    exact congrArg _ (Int.add_zero _).symm
  | @closes f _ he =>
    rw [he, length_openOf_cons, Option.toList_some, blockBalance_cons, eventDelta]
    show _ = _ + (_ + 0)
    split <;> omega
  | branch he =>
    rw [he]
    exact (Int.add_zero _).symm
  | keeps he =>
    rw [he]
    exact (Int.add_zero _).symm

/-- **A nested run moves the number of open blocks of a tag by the balance of its events.** -/
theorem length_openOf_run (h : Nested options st rs) (tag : Block) :
    ((openOf tag (run options st rs).1).length : Int) =
      (openOf tag st).length + blockBalance tag (Nesting.events rs) := by
  induction rs generalizing st with
  | nil => exact (Int.add_zero _).symm
  | cons r rs ih =>
    obtain ⟨hstep, hrest⟩ := h.step
    have hnext := ih hrest
    rw [length_openOf_step hstep tag] at hnext
    rw [run_cons, events_cons, blockBalance_append]
    exact hnext.trans (Int.add_assoc _ _ _)

/-! ### Following one block -/

variable {inner outer : List Frame} {f : Frame}

theorem depthAfter?_cons {tag : Block} {e : Nesting.Event} {depth next : Int} (hnext : 0 < next)
    (h : depth + eventDelta tag e = next) (es : List Nesting.Event) :
    depthAfter? tag depth (e :: es) = depthAfter? tag next es := by
  rw [depthAfter?, h, if_neg (by omega)]

/-- The count of a tag from a depth on follows a block of the stack through a run. -/
structure Follows (options : LintOptions) (tag : Block) (f : Frame) (outer st : List Frame)
    (rs : List Region) (depth : Int) : Prop where
  /-- The block stays open, and the count is its depth among the blocks of the tag. -/
  stays : ∀ next, depthAfter? tag depth (Nesting.events rs) = some next →
    ∃ inner, openOf tag (run options st rs).1 = inner ++ f :: outer ∧ next = inner.length + 1
  /-- The count comes to zero where the block is closed. -/
  ends : depthAfter? tag depth (Nesting.events rs) = none → ∃ r, (f, r) ∈ pairings options st rs

theorem Follows.nil (hopen : openOf tag st = inner ++ f :: outer) :
    Follows options tag f outer st [] (inner.length + 1) where
  stays _ hnext := ⟨inner, hopen, (Option.some.inj hnext).symm⟩
  ends hnone := absurd hnone (by simp [depthAfter?, Nesting.events])

/-- As long as the block stays open, the rest of the run follows it on. -/
theorem Follows.cons {r : Region} {depth next : Int}
    (h : Follows options tag f outer (regionCauses options r st).1 rs next)
    (hdepth : depthAfter? tag depth (Nesting.events (r :: rs)) =
      depthAfter? tag next (Nesting.events rs)) :
    Follows options tag f outer st (r :: rs) depth where
  stays later hlater := h.stays later (hdepth ▸ hlater)
  ends hnone := by
    obtain ⟨s, hs⟩ := h.ends (hdepth ▸ hnone)
    exact ⟨s, mem_pairings_cons.mpr (Or.inr hs)⟩

/-- The count is at an end where the block itself is closed. -/
theorem Follows.closed {r : Region} (hclose : closing? st r = some (f, r))
    (hevent : Nesting.Event.ofRegion? r = some (.closes tag)) :
    Follows options tag f outer st (r :: rs) 1 where
  stays _ hnext := by
    rw [events_cons, hevent, Option.toList_some, List.singleton_append, depthAfter?, eventDelta,
      if_pos rfl, if_pos (by simp)] at hnext
    exact absurd hnext (by simp)
  ends _ := ⟨r, mem_pairings_cons.mpr (Or.inl hclose)⟩

/-- **The count follows one block** from its depth on. -/
theorem follows_run (h : Nested options st rs) (hopen : openOf tag st = inner ++ f :: outer) :
    Follows options tag f outer st rs (inner.length + 1) := by
  induction rs generalizing st inner with
  | nil => exact .nil hopen
  | cons r rs ih =>
    obtain ⟨hstep, hrest⟩ := h.step
    have hstays : ∀ inner', openOf tag (regionCauses options r st).1 = inner' ++ f :: outer →
        depthAfter? tag (inner.length + 1) (Nesting.events (r :: rs)) =
          depthAfter? tag (inner'.length + 1) (Nesting.events rs) →
        Follows options tag f outer st (r :: rs) (inner.length + 1) :=
      fun inner' hinner => (ih hrest hinner).cons
    rw [events_cons] at hstays
    generalize (regionCauses options r st).1 = next at hstep hstays
    cases hstep with
    | @opens b _ he =>
      rw [he, Option.toList_some, List.singleton_append] at hstays
      have hblock : (Frame.ofRegion b r).block = b := rfl
      by_cases hb : b = tag
      · refine hstays (Frame.ofRegion b r :: inner) ?_ (depthAfter?_cons (by omega) ?_ _)
        · rw [openOf_cons, hblock, if_pos hb, hopen, List.cons_append]
        · rw [eventDelta, if_pos hb, List.length_cons]
          omega
      · refine hstays inner ?_ (depthAfter?_cons (by omega) ?_ _)
        · rw [openOf_cons, hblock, if_neg hb, hopen]
        · rw [eventDelta, if_neg hb, Int.add_zero]
    | @closes g _ he =>
      rw [openOf_cons] at hopen
      by_cases hg : g.block = tag
      · rw [if_pos hg] at hopen
        cases inner with
        | nil =>
          -- The innermost block of the tag is the one that is followed.
          obtain ⟨rfl, -⟩ := List.cons.inj hopen
          exact .closed (by simp only [closing?, he]) (hg ▸ he)
        | cons a inner =>
          obtain ⟨-, hinner⟩ := List.cons.inj hopen
          rw [he, Option.toList_some, List.singleton_append] at hstays
          refine hstays inner hinner (depthAfter?_cons (by omega) ?_ _)
          rw [eventDelta, if_pos hg, List.length_cons]
          omega
      · rw [if_neg hg] at hopen
        rw [he, Option.toList_some, List.singleton_append] at hstays
        refine hstays inner hopen (depthAfter?_cons (by omega) ?_ _)
        rw [eventDelta, if_neg hg, Int.add_zero]
    | branch he =>
      rw [he, Option.toList_some, List.singleton_append] at hstays
      refine hstays inner hopen (depthAfter?_cons (by omega) ?_ _)
      rw [eventDelta, Int.add_zero]
    | keeps he =>
      rw [he] at hstays
      exact hstays inner hopen rfl

/-! ### Line by line -/

theorem events_locate (start : Point) (ps : List Region.Piece) :
    Nesting.events (Region.locate start ps) =
      ps.filterMap fun p => Nesting.Event.ofRegion? ⟨p.kind, .origin, .origin, p.raw⟩ := by
  induction ps generalizing start with
  | nil => rfl
  | cons p ps ih =>
    rw [Region.locate, events_cons, ih, List.filterMap_cons]
    have hplace : Nesting.Event.ofRegion? ⟨p.kind, start, start.advance p.raw, p.raw⟩ =
        Nesting.Event.ofRegion? ⟨p.kind, .origin, .origin, p.raw⟩ := rfl
    rw [hplace]
    cases Nesting.Event.ofRegion? ⟨p.kind, .origin, .origin, p.raw⟩ <;> rfl

theorem events_ofLine (l : List Char) (n : Nat) :
    Nesting.events (Region.ofLine l n) = lineEvents l := by
  rw [lineEvents, Region.ofLine, Region.ofLine, events_locate, events_locate]

/-- **The query follows one block to the line that closes it.** -/
theorem exists_blockEnd? (tag : Block) {n : Nat} {ls : List (List Char)} (hls : ∀ l ∈ ls, '\n' ∉ l)
    (h : Nested options st (Region.ofLinesFrom n ls).flatten)
    (hlast : f ∉ (run options st (Region.ofLinesFrom n ls).flatten).1)
    (hopen : openOf tag st = inner ++ f :: outer) :
    ∃ k r, blockEnd? tag (inner.length + 1) ls = some k ∧
      (f, r) ∈ pairings options st (Region.ofLinesFrom n ls).flatten ∧ r.line = n + k := by
  induction ls generalizing st inner n with
  | nil =>
    have hmem : f ∈ openOf tag st := by
      rw [hopen]
      exact List.mem_append_right _ List.mem_cons_self
    exact absurd (mem_openOf.mp hmem).1 hlast
  | cons l ls ih =>
    obtain ⟨hl, hls⟩ := List.forall_mem_cons.mp hls
    rw [Region.ofLinesFrom, List.flatten_cons] at h hlast ⊢
    obtain ⟨hrow, hrest⟩ := h.append
    have hfollows := follows_run hrow hopen
    rw [blockEnd?, pairings_append]
    cases hdepth : depthAfter? tag (inner.length + 1) (lineEvents l) with
    | none =>
      obtain ⟨r, hr⟩ := hfollows.ends (by rw [events_ofLine, hdepth])
      exact ⟨0, r, rfl, List.mem_append_left _ hr,
        Analysis.line_of_mem_ofLine hl r (mem_of_mem_pairings hr).1⟩
    | some next =>
      obtain ⟨inner', hinner, rfl⟩ := hfollows.stays next (by rw [events_ofLine, hdepth])
      rw [run_append] at hlast
      obtain ⟨k, r, hk, hr, hline⟩ := ih hls hrest hlast hinner
      refine ⟨k + 1, r, ?_, List.mem_append_right _ hr, by omega⟩
      show (blockEnd? tag (inner'.length + 1) ls).map (· + 1) = some (k + 1)
      rw [hk, Option.map_some]

end Run

end TwigTemplate.Fold
