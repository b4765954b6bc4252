import TwigTemplate.Proofs.Fold.Agreement

/-!
# Counting forward

A pass keeps one depth for each key, whichever lines wait for it.  A line by itself is followed by
counting forward: on from what it leaves open, over all that comes after it, until the count is
zero.

* `NeverZero`, `FirstZero`: a count that does not come to zero, and the tag with which it first
  does.
* `search?_tagRows_iff`: the search of the pass for elements stops at this tag.
* `ends_count`: **both passes end every line where counting forward from it ends**.
-/

namespace TwigTemplate.Fold

open Tracker (depthPast?)

/-- Counting the elements of a name on from a depth, over some tags, never gives zero. -/
def NeverZero (name : List Char) (depth : Int) (es : List Element) : Prop :=
  ∀ seen, seen <+: es → depth + elementBalance name seen ≠ 0

/-- Counting the elements of a name on from a depth, over the tags `front`, first gives zero with
the tag `e` behind them. -/
structure FirstZero (name : List Char) (depth : Int) (front : List Element) (e : Element) :
    Prop where
  name_eq : e.name = name
  before : NeverZero name depth front
  zero : depth + elementBalance name (front ++ [e]) = 0

section Count

variable {name : List Char} {depth : Int} {e : Element} {es front : List Element}

theorem elementBalance_cons (name : List Char) (e : Element) (es : List Element) :
    elementBalance name (e :: es) = elementDelta name e + elementBalance name es := rfl

theorem neverZero_nil : NeverZero name depth [] ↔ depth ≠ 0 := by
  rw [NeverZero]
  simp [elementBalance]

theorem neverZero_cons :
    NeverZero name depth (e :: es) ↔
      depth ≠ 0 ∧ NeverZero name (depth + elementDelta name e) es := by
  constructor
  · intro h
    refine ⟨?_, fun seen hseen => ?_⟩
    · exact neverZero_nil.mp fun seen hseen => h seen (hseen.trans (List.nil_prefix))
    · have hzero := h (e :: seen) (List.cons_prefix_cons.mpr ⟨rfl, hseen⟩)
      rwa [elementBalance_cons, ← Int.add_assoc] at hzero
  · rintro ⟨hdepth, h⟩ seen hseen
    cases seen with
    | nil => exact neverZero_nil.mpr hdepth [] (List.prefix_refl [])
    | cons d seen =>
      obtain ⟨rfl, htail⟩ := List.cons_prefix_cons.mp hseen
      rw [elementBalance_cons, ← Int.add_assoc]
      exact h seen htail

theorem NeverZero.depth_ne (h : NeverZero name depth es) : depth ≠ 0 :=
  neverZero_nil.mp fun seen hseen => h seen (hseen.trans List.nil_prefix)

theorem firstZero_nil : FirstZero name depth [] e ↔
    e.name = name ∧ depth ≠ 0 ∧ depth + elementDelta name e = 0 := by
  constructor
  · rintro ⟨hname, hbefore, hzero⟩
    exact ⟨hname, hbefore.depth_ne, by simpa [elementBalance] using hzero⟩
  · rintro ⟨hname, hdepth, hzero⟩
    exact ⟨hname, neverZero_nil.mpr hdepth, by simpa [elementBalance] using hzero⟩

theorem firstZero_cons {d : Element} : FirstZero name depth (d :: front) e ↔
    depth ≠ 0 ∧ FirstZero name (depth + elementDelta name d) front e := by
  have hzero : depth + elementBalance name (d :: front ++ [e]) =
      depth + elementDelta name d + elementBalance name (front ++ [e]) := by
    rw [List.cons_append, elementBalance_cons, Int.add_assoc]
  constructor
  · rintro ⟨hname, hbefore, hlast⟩
    obtain ⟨hdepth, hbefore⟩ := neverZero_cons.mp hbefore
    exact ⟨hdepth, hname, hbefore, hzero ▸ hlast⟩
  · rintro ⟨hdepth, hname, hbefore, hlast⟩
    exact ⟨hname, neverZero_cons.mpr ⟨hdepth, hbefore⟩, hzero ▸ hlast⟩

theorem firstZero_append : FirstZero name depth (es ++ front) e ↔
    NeverZero name depth es ∧ FirstZero name (depth + elementBalance name es) front e := by
  induction es generalizing depth with
  | nil =>
    rw [List.nil_append, neverZero_nil, show elementBalance name [] = 0 from rfl, Int.add_zero]
    exact ⟨fun h => ⟨h.before.depth_ne, h⟩, And.right⟩
  | cons d es ih =>
    rw [List.cons_append, firstZero_cons, ih, neverZero_cons, elementBalance_cons, and_assoc,
      Int.add_assoc]

/-! ### One line -/

theorem depthPast?_tagChange_cons (hdepth : depth ≠ 0) :
    depthPast? name depth ((e :: es).map tagChange) =
      if depth + elementDelta name e = 0 then none
      else depthPast? name (depth + elementDelta name e) (es.map tagChange) := by
  rw [List.map_cons, depthPast?, elementDelta]
  by_cases hname : e.name = name
  · rw [if_pos hname, if_pos (show (tagChange e).1 = name from hname)]
    rfl
  · rw [if_neg hname, if_neg (show ¬ (tagChange e).1 = name from hname), Int.add_zero,
      if_neg hdepth]

/-- **The tags of a line leave a depth** if the count does not come to zero on them. -/
theorem depthPast?_eq_some_iff (hdepth : depth ≠ 0) {next : Int} :
    depthPast? name depth (es.map tagChange) = some next ↔
      NeverZero name depth es ∧ next = depth + elementBalance name es := by
  induction es generalizing depth with
  | nil =>
    rw [neverZero_nil, show elementBalance name [] = 0 from rfl, Int.add_zero]
    exact ⟨fun h => ⟨hdepth, (Option.some.inj h).symm⟩, fun h => congrArg some h.2.symm⟩
  | cons e es ih =>
    rw [depthPast?_tagChange_cons hdepth, neverZero_cons, elementBalance_cons, ← Int.add_assoc]
    split
    · next hzero =>
      refine ⟨fun h => absurd h (by simp), fun h => absurd hzero h.1.2.depth_ne⟩
    · next hnext =>
      rw [ih hnext]
      exact and_congr_left fun _ => (and_iff_right hdepth).symm

/-- **They end the count** if it comes to zero with one of them. -/
theorem depthPast?_eq_none_iff (hdepth : depth ≠ 0) :
    depthPast? name depth (es.map tagChange) = none ↔
      ∃ front e back, es = front ++ e :: back ∧ FirstZero name depth front e := by
  induction es generalizing depth with
  | nil => simp [depthPast?]
  | cons d es ih =>
    rw [depthPast?_tagChange_cons hdepth]
    split
    · next hzero =>
      refine iff_of_true rfl ⟨[], d, es, rfl, firstZero_nil.mpr ⟨?_, hdepth, hzero⟩⟩
      by_contra hname
      rw [elementDelta, if_neg hname, Int.add_zero] at hzero
      exact hdepth hzero
    · next hnext =>
      rw [ih hnext]
      constructor
      · rintro ⟨front, e, back, rfl, hfirst⟩
        exact ⟨d :: front, e, back, rfl, firstZero_cons.mpr ⟨hdepth, hfirst⟩⟩
      · rintro ⟨front, e, back, hcut, hfirst⟩
        cases front with
        | nil =>
          obtain ⟨rfl, -⟩ := List.cons.inj hcut
          exact absurd (firstZero_nil.mp hfirst).2.2 hnext
        | cons d' front =>
          obtain ⟨rfl, htail⟩ := List.cons.inj hcut
          exact ⟨front, e, back, htail, (firstZero_cons.mp hfirst).2⟩

/-! ### Line after line -/

/-- **The search of the pass for elements stops where the count comes to zero.** -/
theorem search?_tagRows_iff (hdepth : depth ≠ 0) {rows : List (List Element)} {k : Nat} :
    (Tracker.pass (List Char)).search? (name, depth) (rows.map tagRow) = some k ↔
      ∃ front e back, rows[k]? = some (front ++ e :: back) ∧
        FirstZero name depth ((rows.take k).flatten ++ front) e := by
  induction rows generalizing depth k with
  | nil => simp [Pass.search?]
  | cons row rows ih =>
    have hnext : (Tracker.pass (List Char)).next? (name, depth) (tagRow row) =
        (depthPast? name depth (row.map tagChange)).map (name, ·) := rfl
    rw [List.map_cons, Pass.search?, hnext]
    cases hpast : depthPast? name depth (row.map tagChange) with
    | none =>
      obtain ⟨front, e, back, hrow, hfirst⟩ := (depthPast?_eq_none_iff hdepth).mp hpast
      cases k with
      | zero => exact iff_of_true rfl ⟨front, e, back, congrArg some hrow, hfirst⟩
      | succ k =>
        refine iff_of_false (by simp) ?_
        rintro ⟨front, e, back, -, hlater⟩
        -- The count would have gone past the first row.
        rw [List.take_succ_cons, List.flatten_cons, List.append_assoc] at hlater
        have hsome := (depthPast?_eq_some_iff hdepth).mpr ⟨(firstZero_append.mp hlater).1, rfl⟩
        exact absurd (hpast.symm.trans hsome) (by simp)
    | some next =>
      obtain ⟨hnever, rfl⟩ := (depthPast?_eq_some_iff hdepth).mp hpast
      have hnonzero : depth + elementBalance name row ≠ 0 := hnever row (List.prefix_refl row)
      cases k with
      | zero =>
        refine iff_of_false (by simp) ?_
        rintro ⟨front, e, back, hrow, hfirst⟩
        have hnone := (depthPast?_eq_none_iff hdepth).mpr
          ⟨front, e, back, Option.some.inj hrow, hfirst⟩
        exact absurd (hpast.symm.trans hnone) (by simp)
      | succ k =>
        have hsucc : (((Tracker.pass (List Char)).search? (name, depth + elementBalance name row)
            (rows.map tagRow)).map (· + 1) = some (k + 1)) ↔
            (Tracker.pass (List Char)).search? (name, depth + elementBalance name row)
              (rows.map tagRow) = some k := by
          simp
        refine hsucc.trans ((ih hnonzero).trans ?_)
        simp only [List.take_succ_cons, List.flatten_cons, List.append_assoc, firstZero_append,
          List.getElem?_cons_succ, hnever, true_and]

/-- The first of some rows is ended by the row where its count comes to zero. -/
theorem searchFrom?_tagRows_iff {rows : List (List Element)} {k : Nat} :
    (Tracker.pass (List Char)).searchFrom? (rows.map tagRow) = some k ↔
      ∃ first name front e back, rows[0]? = some first ∧ elementOpener? first = some name ∧
        0 < k ∧ rows[k]? = some (front ++ e :: back) ∧
        FirstZero name (elementBalance name first) (((rows.take k).drop 1).flatten ++ front) e := by
  cases rows with
  | nil => simp [Pass.searchFrom?]
  | cons first rows =>
    have hopening : (Tracker.pass (List Char)).opening? (tagRow first) =
        (elementOpener? first).map fun name => (name, elementBalance name first) := by
      simp only [← balance_tagChange]
      rfl
    rw [List.map_cons, Pass.searchFrom?, hopening, Option.bind_map, Option.bind_eq_some_iff]
    constructor
    · rintro ⟨name, hopener, hsearch⟩
      obtain ⟨j, hj, rfl⟩ := Option.map_eq_some_iff.mp hsearch
      have hdepth := Int.ne_of_gt (elementBalance_pos hopener)
      obtain ⟨front, e, back, hrow, hfirst⟩ := (search?_tagRows_iff hdepth).mp hj
      exact ⟨first, name, front, e, back, rfl, hopener, Nat.succ_pos j, hrow, hfirst⟩
    · rintro ⟨_, name, front, e, back, hrow, hopener, hpos, hlast, hfirst⟩
      obtain rfl := Option.some.inj hrow
      obtain ⟨j, rfl⟩ := Nat.exists_eq_succ_of_ne_zero (Nat.ne_of_gt hpos)
      have hdepth := Int.ne_of_gt (elementBalance_pos hopener)
      rw [Nat.succ_eq_add_one, List.take_succ_cons, List.drop_succ_cons, List.drop_zero] at hfirst
      rw [Nat.succ_eq_add_one, List.getElem?_cons_succ] at hlast
      have hj := (search?_tagRows_iff hdepth).mpr ⟨front, e, back, hlast, hfirst⟩
      exact ⟨name, hopener, Option.map_eq_some_iff.mpr ⟨j, hj, rfl⟩⟩

end Count

/-! ### The passes -/

theorem endOf?_elementEnds_rows (lines : List (List Element)) (line : Nat) :
    (elementEnds lines).endOf? line =
      ((Tracker.pass (List Char)).searchFrom? ((lines.drop line).map tagRow)).map (line + ·) := by
  have hproper : ∀ row ∈ lines.map tagRow, Tracker.Proper row := fun row hrow => by
    obtain ⟨es, -, rfl⟩ := List.mem_map.mp hrow
    exact proper_tagRow es
  rw [List.map_drop, ← Tracker.endOf?_readLines hproper]
  rfl

/-- **Both passes end every line where counting forward from it ends.**  For blocks this is what the
query reads from the line on.  For elements, whatever tags the lines hold, it is the tag with which
the count of the name that the line leaves open first comes to zero, on from its balance. -/
theorem ends_count (cs : List Char) (lines : List (List Element)) (line last : Nat) :
    ((blockEnds ((Text.lines cs).map lineEvents)).endOf? line = some last ↔
      ∃ rest offset, fromLine? line cs = some rest ∧
        matchBlock? (Text.lines rest) = some offset ∧ last = line + offset) ∧
    ((elementEnds lines).endOf? line = some last ↔
      ∃ first name front e back, lines[line]? = some first ∧ elementOpener? first = some name ∧
        line < last ∧ lines[last]? = some (front ++ e :: back) ∧
        FirstZero name (elementBalance name first)
          (((lines.take last).drop (line + 1)).flatten ++ front) e) := by
  constructor
  · rw [endOf?_blockEnds, Option.map_eq_some_iff]
    constructor
    · rintro ⟨offset, hmatch, rfl⟩
      have hline : line < (Text.lines cs).length := by
        have := matchBlock?_lt hmatch
        rw [List.length_drop] at this
        omega
      obtain ⟨rest, hrest⟩ := exists_fromLine? hline
      obtain ⟨-, -, -, hlines⟩ := fromLine?_spec hrest
      exact ⟨rest, offset, hrest, hlines ▸ hmatch, rfl⟩
    · rintro ⟨rest, offset, hrest, hmatch, rfl⟩
      obtain ⟨-, -, -, hlines⟩ := fromLine?_spec hrest
      exact ⟨offset, hlines ▸ hmatch, rfl⟩
  · rw [endOf?_elementEnds_rows, Option.map_eq_some_iff]
    have hbetween : ∀ k, ((lines.drop line).take k).drop 1 =
        (lines.take (line + k)).drop (line + 1) := fun k => by
      rw [List.drop_take, List.drop_take, List.drop_drop, Nat.add_sub_add_left]
    simp only [searchFrom?_tagRows_iff, hbetween, List.getElem?_drop, Nat.add_zero]
    constructor
    · rintro ⟨k, ⟨first, name, front, e, back, hfirst, hopener, hpos, hlast, hzero⟩, rfl⟩
      exact ⟨first, name, front, e, back, hfirst, hopener, by omega, hlast, hzero⟩
    · rintro ⟨first, name, front, e, back, hfirst, hopener, hlt, hlast, hzero⟩
      obtain ⟨k, rfl⟩ := Nat.exists_eq_add_of_lt hlt
      exact ⟨k + 1, ⟨first, name, front, e, back, hfirst, hopener, by omega, hlast, hzero⟩, rfl⟩

end TwigTemplate.Fold
