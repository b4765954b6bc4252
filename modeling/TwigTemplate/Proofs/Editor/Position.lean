import TwigTemplate.Editor.Position
import TwigTemplate.Proofs.Text.Lines
import TwigTemplate.Proofs.Text.Units

/-!
# Positions on a line

An editor ends a line at a newline and leaves out one carriage return at its end.  A file is read in
the same way, but for its last line: a carriage return there belongs to the line.

* `lines`, `getElem?_lines`: the lines of an editor, and those of a file.
* `lineAt?_width16`, `getElem?_of_lineAt?`: a position and the two texts beside it.
* `byteIndexAt?_column16`: **the place of a character is found again**.
* `Range.Holds`: a range of a line with the text in it.
-/

namespace TwigTemplate.Editor

open Text (width16)

/-- The lines of a text, without the carriage returns at their ends. -/
def lines (cs : List Char) : List (List Char) :=
  (Text.splitAt '\n' cs).map Text.dropReturn

/-- The line of a position, and how many bytes of it are before the position. -/
def byteIndexAt? (cs : List Char) (p : Position) : Option (List Char × Nat) :=
  (lineAt? cs p).map fun (front, back) => (front ++ back, Text.width8 front)

/-- A range on one line: what stands on the line before it, in it and behind it. -/
structure Range.Holds (r : Range) (cs before text behind : List Char) : Prop where
  sameLine : r.stop.line = r.start.line
  start : lineAt? cs r.start = some (before, text ++ behind)
  stop : lineAt? cs r.stop = some (before ++ text, behind)

/-! ### The lines of a text -/

theorem lines_of_not_mem {cs : List Char} (h : '\n' ∉ cs) : lines cs = [Text.dropReturn cs] := by
  rw [lines, Text.splitAt_eq_splitOn, List.splitOn_eq_singleton h, List.map_singleton]

theorem lines_append_newline {l : List Char} (h : '\n' ∉ l) (cs : List Char) :
    lines (l ++ '\n' :: cs) = Text.dropReturn l :: lines cs := by
  rw [lines, lines, Text.splitAt_eq_splitOn, Text.splitAt_eq_splitOn,
    List.splitOn_append_cons_self_of_not_mem h, List.map_cons]

theorem newline_not_mem_of_mem_lines {cs line : List Char} (h : line ∈ lines cs) :
    '\n' ∉ line := by
  obtain ⟨part, hpart, rfl⟩ := List.mem_map.mp h
  rw [Text.splitAt_eq_splitOn] at hpart
  exact fun hmem => Text.not_mem_of_mem_splitOn hpart (Text.mem_of_mem_dropReturn hmem)

/-- A carriage return without a newline ends the text, on the line with this number. -/
def EndsInReturn (cs : List Char) (n : Nat) : Prop :=
  n = Text.newlineCount cs ∧ cs.getLast? = some '\r'

instance (cs : List Char) (n : Nat) : Decidable (EndsInReturn cs n) :=
  inferInstanceAs (Decidable (_ ∧ _))

/-- **The lines of a file are those of an editor**, but for a carriage return at the end of the
file. -/
theorem getElem?_lines {cs l : List Char} {n : Nat} (h : (Text.lines cs)[n]? = some l) :
    ∃ line, (lines cs)[n]? = some line ∧
      l = line ++ if EndsInReturn cs n then ['\r'] else [] := by
  induction cs using Text.line_induction generalizing n with
  | last cs hfree =>
    rw [Text.lines_of_not_mem hfree] at h
    split at h
    · simp at h
    · obtain ⟨rfl, rfl⟩ : n = 0 ∧ cs = l := by
        cases n with
        | zero => exact ⟨rfl, Option.some.inj h⟩
        | succ n => simp at h
      have hcount : Text.newlineCount cs = 0 := Text.newlineCount_eq_zero.mpr hfree
      refine ⟨Text.dropReturn cs, by rw [lines_of_not_mem hfree]; rfl, ?_⟩
      by_cases hlast : cs.getLast? = some '\r'
      · obtain ⟨front, rfl⟩ := List.getLast?_eq_some_iff.mp hlast
        rw [if_pos ⟨hcount.symm, hlast⟩, Text.dropReturn, if_pos hlast, List.dropLast_concat]
      · rw [if_neg fun hend => hlast hend.2, Text.dropReturn, if_neg hlast, List.append_nil]
  | line m cs hfree ih =>
    rw [Text.lines_append_newline hfree] at h
    rw [lines_append_newline hfree]
    have hcount : Text.newlineCount (m ++ '\n' :: cs) = Text.newlineCount cs + 1 := by
      rw [Text.newlineCount_append, Text.newlineCount_eq_zero.mpr hfree, Nat.zero_add,
        Text.newlineCount, List.count_cons_self, Text.newlineCount]
    cases n with
    | zero =>
      obtain rfl := Option.some.inj h
      refine ⟨_, rfl, ?_⟩
      rw [if_neg fun hend => by have := hend.1; omega, List.append_nil]
    | succ n =>
      obtain ⟨line, hline, hl⟩ := ih h
      have hne : cs ≠ [] := by
        rintro rfl
        simp [Text.lines, Text.splitAt, Text.linesOfParts] at h
      have hlast : (m ++ '\n' :: cs).getLast? = cs.getLast? := by
        rw [List.getLast?_append_of_ne_nil _ (List.cons_ne_nil _ _),
          List.getLast?_cons_of_ne_nil hne]
      have hend : EndsInReturn (m ++ '\n' :: cs) (n + 1) ↔ EndsInReturn cs n := by
        rw [EndsInReturn, EndsInReturn, hcount, hlast, Nat.add_right_cancel_iff]
      exact ⟨line, hline, by rw [hl, if_congr hend rfl rfl]⟩

/-! ### Positions -/

theorem lineAt?_eq (cs : List Char) (p : Position) :
    lineAt? cs p = (lines cs)[p.line]?.map (Text.cutAt16 p.character) := by
  rw [lineAt?, lines, List.getElem?_map, Option.map_map]
  rfl

/-- A position in front of a text on its line, and behind another one. -/
theorem lineAt?_width16 {cs front back : List Char} {n : Nat}
    (h : (lines cs)[n]? = some (front ++ back)) :
    lineAt? cs ⟨n, width16 front⟩ = some (front, back) := by
  rw [lineAt?_eq, h, Option.map_some, Text.cutAt16_width16_append]

theorem getElem?_of_lineAt? {cs front back : List Char} {p : Position}
    (h : lineAt? cs p = some (front, back)) : (lines cs)[p.line]? = some (front ++ back) := by
  rw [lineAt?_eq] at h
  obtain ⟨line, hline, hcut⟩ := Option.map_eq_some_iff.mp h
  have happend := Text.cutAt16_append p.character line
  rw [hcut] at happend
  rw [hline, ← happend]

/-- **The place of a character is found again**: the column of a character, counted in characters,
leads to the bytes before it. -/
theorem byteIndexAt?_column16 {cs line : List Char} {n : Nat} (h : (lines cs)[n]? = some line)
    (column : Nat) :
    byteIndexAt? cs ⟨n, column16 line column⟩ = some (line, Text.width8 (line.take column)) := by
  have hplace : lineAt? cs ⟨n, column16 line column⟩ = some (line.take column, line.drop column) :=
    lineAt?_width16 (by rw [List.take_append_drop, h])
  rw [byteIndexAt?, hplace, Option.map_some]
  dsimp only
  rw [List.take_append_drop]

theorem Range.holds_onLine {cs before text behind : List Char} {n : Nat}
    (h : (lines cs)[n]? = some (before ++ (text ++ behind))) :
    (Range.onLine n (width16 before) (width16 (before ++ text))).Holds cs before text behind := by
  refine ⟨rfl, lineAt?_width16 h, lineAt?_width16 ?_⟩
  rw [h, List.append_assoc]

end TwigTemplate.Editor
