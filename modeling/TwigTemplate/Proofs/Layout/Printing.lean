import TwigTemplate.Layout.Printer
import TwigTemplate.Proofs.Layout.Slots
import TwigTemplate.Proofs.Text.Lines

/-!
# What the built-in printer does to a layout

The built-in printer trims lines, drops blank ones and indents the others.  None
of this looks at characters, so it is stated over any alphabet, and then used
both for texts and for rows of slots.

* `printRows`: the printer's lines, over any alphabet.
* `layOut`: what it makes of a whole list.  `printMarkup_eq_layOut`: the printer
  is the instance for texts.
* `layOut_render`: **printing sees the slots alone**; whatever words stand in the
  places come out unchanged.
* `inkBy_layOut`: printing keeps the ink.
-/

namespace TwigTemplate.Layout

open Text (isBlank trimBy inkBy inkOf)

variable {α : Type}

/-! ### Lines over any alphabet -/

/-- A list with a number of indentation units in front. -/
def indentBy (unit : List α) (depth : Nat) (xs : List α) : List α :=
  (List.replicate depth unit).flatten ++ xs

/-- The lines that the printer writes, each row with the depth changes on it. -/
def printRows (cap : Nat) (p : α → Bool) (unit : List α) :
    PrintState → List (List α × List Int) → List (List α)
  | _, [] => []
  | s, (line, deltas) :: rest =>
    if (trimBy p line).isEmpty then
      let more := printRows cap p unit ⟨s.depth, s.blanks + 1, s.atStart⟩ rest
      if !s.atStart && s.blanks + 1 ≤ cap then [] :: more else more
    else
      let (depth, next) := lineDepth s.depth deltas
      indentBy unit depth (trimBy p line) :: printRows cap p unit ⟨next, 0, false⟩ rest

/-- Lines with the depth changes that belong to their numbers. -/
def rowsOf (deltas : Nat → List Int) (ls : List (List α)) : List (List α × List Int) :=
  ls.zipIdx.map fun (l, i) => (l, deltas i)

/-- The lines of a list as they are printed. -/
def printedLines [BEq α] (o : PrinterOptions) (p : α → Bool) (nl : α) (unit : List α)
    (deltas : Nat → List Int) (xs : List α) : List (List α) :=
  (printRows o.maxBlankLines p unit ⟨0, 0, true⟩ (rowsOf deltas (xs.splitOn nl))).rdropWhile
    List.isEmpty

/-- Lines laid end to end, with a last newline if it is asked for. -/
def closeLines (o : PrinterOptions) (nl : α) (ls : List (List α)) : List α :=
  let printed := [nl].intercalate ls
  if o.endWithNewline && !printed.isEmpty then printed ++ [nl] else printed

/-- What the printer makes of a list. -/
def layOut [BEq α] (o : PrinterOptions) (p : α → Bool) (nl : α) (unit : List α)
    (deltas : Nat → List Int) (xs : List α) : List α :=
  closeLines o nl (printedLines o p nl unit deltas xs)

section Rows

variable {cap : Nat} {p : α → Bool} {unit : List α}

theorem printRows_nil (s : PrintState) : printRows cap p unit s [] = [] := rfl

theorem printRows_cons_of_blank {l : List α} (hl : ∀ x ∈ l, p x = true) (s : PrintState)
    (deltas : List Int) (rest : List (List α × List Int)) :
    printRows cap p unit s ((l, deltas) :: rest) =
      (if !s.atStart && s.blanks + 1 ≤ cap then [[]] else []) ++
        printRows cap p unit ⟨s.depth, s.blanks + 1, s.atStart⟩ rest := by
  rw [printRows, Text.trimBy_eq_nil_iff.mpr hl]
  simp only [List.isEmpty_nil, if_true]
  split <;> rfl

theorem printRows_cons_of_ink {l : List α} (hl : trimBy p l ≠ []) (s : PrintState)
    (deltas : List Int) (rest : List (List α × List Int)) :
    printRows cap p unit s ((l, deltas) :: rest) =
      indentBy unit (lineDepth s.depth deltas).1 (trimBy p l) ::
        printRows cap p unit ⟨(lineDepth s.depth deltas).2, 0, false⟩ rest := by
  rw [printRows, if_neg (by simpa using hl)]

/-- The printer looks at trimmed lines only. -/
theorem printRows_congr {s : PrintState} {rows rows' : List (List α × List Int)}
    (h : rows.map (fun r => (trimBy p r.1, r.2)) = rows'.map fun r => (trimBy p r.1, r.2)) :
    printRows cap p unit s rows = printRows cap p unit s rows' := by
  induction rows generalizing rows' s with
  | nil =>
    rw [List.map_nil, eq_comm, List.map_eq_nil_iff] at h
    rw [h]
  | cons r rows ih =>
    cases rows' with
    | nil => simp at h
    | cons r' rows' =>
      obtain ⟨hline, hrest⟩ := List.cons.inj h
      obtain ⟨l, d⟩ := r
      obtain ⟨l', d'⟩ := r'
      obtain ⟨htrim, rfl⟩ := Prod.mk.inj hline
      by_cases hl : trimBy p l = []
      · rw [printRows_cons_of_blank (Text.trimBy_eq_nil_iff.mp hl),
          printRows_cons_of_blank (Text.trimBy_eq_nil_iff.mp (htrim ▸ hl)), ih hrest]
      · rw [printRows_cons_of_ink hl, printRows_cons_of_ink (htrim ▸ hl), ih hrest]
        exact congrArg (fun t => indentBy unit _ t :: _) htrim

theorem printRows_append_blank (cap : Nat) (unit : List α) {l : List α}
    (hl : ∀ x ∈ l, p x = true) (deltas : List Int) (s : PrintState)
    (rows : List (List α × List Int)) :
    ∃ w, printRows cap p unit s (rows ++ [(l, deltas)]) = printRows cap p unit s rows ++ w ∧
      ∀ x ∈ w, x.isEmpty = true := by
  induction rows generalizing s with
  | nil =>
    refine ⟨if !s.atStart && s.blanks + 1 ≤ cap then [[]] else [], ?_, ?_⟩
    · rw [List.nil_append, printRows_cons_of_blank hl, printRows_nil, printRows_nil,
        List.append_nil, List.nil_append]
    intro x hx
    split at hx
    · rw [List.mem_singleton.mp hx]
      rfl
    · simp at hx
  | cons r rows ih =>
    obtain ⟨m, d⟩ := r
    by_cases hm : trimBy p m = []
    · obtain ⟨w, hw, hall⟩ := ih ⟨s.depth, s.blanks + 1, s.atStart⟩
      refine ⟨w, ?_, hall⟩
      rw [List.cons_append, printRows_cons_of_blank (Text.trimBy_eq_nil_iff.mp hm), hw,
        printRows_cons_of_blank (Text.trimBy_eq_nil_iff.mp hm), List.append_assoc]
    · obtain ⟨w, hw, hall⟩ := ih ⟨(lineDepth s.depth d).2, 0, false⟩
      refine ⟨w, ?_, hall⟩
      rw [List.cons_append, printRows_cons_of_ink hm, hw, printRows_cons_of_ink hm,
        List.cons_append]

theorem mem_indentBy {depth : Nat} {xs : List α} {x : α} (h : x ∈ indentBy unit depth xs) :
    x ∈ unit ∨ x ∈ xs := by
  rw [indentBy, List.mem_append, List.mem_flatten] at h
  rcases h with ⟨u, hu, hx⟩ | h
  · rw [(List.mem_replicate.mp hu).2] at hx
    exact Or.inl hx
  · exact Or.inr h

theorem trimBy_indentBy (hunit : ∀ x ∈ unit, p x = true) (depth : Nat) (xs : List α) :
    trimBy p (indentBy unit depth xs) = trimBy p xs := by
  rw [indentBy]
  apply Text.trimBy_append_left
  intro x hx
  obtain ⟨u, hu, hx⟩ := List.mem_flatten.mp hx
  rw [(List.mem_replicate.mp hu).2] at hx
  exact hunit x hx

/-- **Printing keeps the ink of every line.** -/
theorem inkOf_printRows (hunit : ∀ x ∈ unit, p x = true) (s : PrintState)
    (rows : List (List α × List Int)) :
    inkOf p (printRows cap p unit s rows) = inkOf p (rows.map Prod.fst) := by
  induction rows generalizing s with
  | nil => rfl
  | cons r rows ih =>
    obtain ⟨l, d⟩ := r
    rw [List.map_cons]
    by_cases hl : trimBy p l = []
    · have hblank := Text.trimBy_eq_nil_iff.mp hl
      rw [printRows_cons_of_blank hblank, Text.inkOf_append, ih, Text.inkOf_cons_of_blank hblank]
      split <;> rfl
    · have htrim : trimBy p (indentBy unit (lineDepth s.depth d).1 (trimBy p l)) = trimBy p l := by
        rw [trimBy_indentBy hunit, Text.trimBy_trimBy]
      rw [printRows_cons_of_ink hl, Text.inkOf_cons_of_ink (by rw [htrim]; exact hl), htrim, ih,
        Text.inkOf_cons_of_ink hl]

theorem mem_of_mem_printRows {s : PrintState} {rows : List (List α × List Int)} {l : List α}
    (hl : l ∈ printRows cap p unit s rows) {x : α} (hx : x ∈ l) :
    x ∈ unit ∨ ∃ r ∈ rows, x ∈ r.1 := by
  induction rows generalizing s with
  | nil => simp [printRows] at hl
  | cons r rows ih =>
    have hmore : (x ∈ unit ∨ ∃ r' ∈ rows, x ∈ r'.1) → x ∈ unit ∨ ∃ r' ∈ r :: rows, x ∈ r'.1 := by
      rintro (h | ⟨r', hr', hx'⟩)
      · exact Or.inl h
      · exact Or.inr ⟨r', List.mem_cons_of_mem _ hr', hx'⟩
    obtain ⟨m, d⟩ := r
    by_cases hm : trimBy p m = []
    · rw [printRows_cons_of_blank (Text.trimBy_eq_nil_iff.mp hm)] at hl
      rcases List.mem_append.mp hl with hl | hl
      · split at hl
        · rw [List.mem_singleton.mp hl] at hx
          exact absurd hx (by simp)
        · exact absurd hl (by simp)
      · exact hmore (ih hl)
    · rw [printRows_cons_of_ink hm] at hl
      rcases List.mem_cons.mp hl with rfl | hl
      · rcases mem_indentBy hx with h | h
        · exact Or.inl h
        · exact Or.inr ⟨(m, d), List.mem_cons_self, Text.mem_of_mem_trimBy h⟩
      · exact hmore (ih hl)

theorem map_fst_rowsOf (deltas : Nat → List Int) (ls : List (List α)) :
    (rowsOf deltas ls).map Prod.fst = ls := by
  rw [rowsOf, List.map_map]
  exact List.zipIdx_map_fst 0 ls

theorem inkOf_rdropWhile (p : α → Bool) (ls : List (List α)) :
    inkOf p (ls.rdropWhile List.isEmpty) = inkOf p ls := by
  obtain ⟨w, hw, hall⟩ := Text.exists_eq_rdropWhile_append List.isEmpty ls
  have hnone : inkOf p w = [] := by
    clear hw
    induction w with
    | nil => rfl
    | cons l w ih =>
      have hl : l = [] := List.isEmpty_iff.mp (hall l List.mem_cons_self)
      rw [Text.inkOf_cons_of_blank (by rw [hl]; simp),
        ih fun x hx => hall x (List.mem_cons_of_mem _ hx)]
  conv_rhs => rw [hw]
  rw [Text.inkOf_append, hnone, List.append_nil]

theorem map_indentBy {β : Type} (g : α → β) (unit : List α) (depth : Nat) (xs : List α) :
    (indentBy unit depth xs).map g = indentBy (unit.map g) depth (xs.map g) := by
  rw [indentBy, indentBy, List.map_append, List.map_flatten, List.map_replicate]

theorem map_printRows {β : Type} {g : α → β} {q : β → Bool} (hg : ∀ a, q (g a) = p a)
    (cap : Nat) (s : PrintState) (rows : List (List α × List Int)) :
    printRows cap q (unit.map g) s (rows.map fun r => (r.1.map g, r.2)) =
      (printRows cap p unit s rows).map (List.map g) := by
  induction rows generalizing s with
  | nil => rfl
  | cons r rows ih =>
    obtain ⟨l, d⟩ := r
    rw [List.map_cons]
    have htrim : trimBy q (l.map g) = (trimBy p l).map g := Text.trimBy_map hg l
    by_cases hl : trimBy p l = []
    · have hl' : trimBy q (l.map g) = [] := by rw [htrim, hl, List.map_nil]
      rw [printRows_cons_of_blank (Text.trimBy_eq_nil_iff.mp hl),
        printRows_cons_of_blank (Text.trimBy_eq_nil_iff.mp hl'), ih, List.map_append]
      split <;> rfl
    · have hl' : trimBy q (l.map g) ≠ [] := by
        rw [htrim]
        simpa using hl
      rw [printRows_cons_of_ink hl, printRows_cons_of_ink hl', ih, List.map_cons, map_indentBy,
        htrim]

theorem map_intercalate {β : Type} (g : α → β) (sep : List α) (ls : List (List α)) :
    (sep.intercalate ls).map g = (sep.map g).intercalate (ls.map (List.map g)) := by
  induction ls with
  | nil => rfl
  | cons l ls ih =>
    by_cases hls : ls = []
    · rw [hls, List.map_cons, List.map_nil, List.intercalate_singleton, List.intercalate_singleton]
    · rw [List.map_cons, List.intercalate_cons_of_ne_nil hls,
        List.intercalate_cons_of_ne_nil (by simpa using hls), List.map_append, List.map_append, ih]

end Rows

/-! ### A whole list -/

section Lists

variable [BEq α] [LawfulBEq α] {o : PrinterOptions} {p : α → Bool} {nl : α} {unit : List α}
  {deltas : Nat → List Int} {xs : List α}

theorem nl_not_mem_of_mem_printedLines (hunit : nl ∉ unit) {l : List α}
    (hl : l ∈ printedLines o p nl unit deltas xs) : nl ∉ l := by
  intro hx
  have hmem := (List.rdropWhile_prefix List.isEmpty _).subset hl
  rcases mem_of_mem_printRows hmem hx with h | ⟨r, hr, hxr⟩
  · exact hunit h
  · have hline : r.1 ∈ xs.splitOn nl := by
      rw [← map_fst_rowsOf deltas (xs.splitOn nl)]
      exact List.mem_map_of_mem hr
    exact Text.not_mem_of_mem_splitOn hline hxr

theorem inkBy_append_newline (p : α → Bool) (nl : α) (xs : List α) :
    inkBy p nl (xs ++ [nl]) = inkBy p nl xs := by
  rw [inkBy, List.splitOn_append_cons_self, List.splitOn_nil, ← inkOf, Text.inkOf_append,
    Text.inkOf_cons_of_blank (by simp), Text.inkOf_nil, List.append_nil]
  rfl

theorem inkBy_closeLines (p : α → Bool) {ls : List (List α)} (hls : ∀ l ∈ ls, nl ∉ l) :
    inkBy p nl (closeLines o nl ls) = inkOf p ls := by
  rw [closeLines]
  split
  · rw [inkBy_append_newline, Text.inkBy_intercalate p hls]
  · rw [Text.inkBy_intercalate p hls]

/-- **Printing keeps the ink.** -/
theorem inkBy_layOut (hunit : ∀ x ∈ unit, p x = true) (hfree : nl ∉ unit) :
    inkBy p nl (layOut o p nl unit deltas xs) = inkBy p nl xs := by
  rw [layOut, inkBy_closeLines p fun l hl => nl_not_mem_of_mem_printedLines hfree hl,
    printedLines, inkOf_rdropWhile, inkOf_printRows hunit, map_fst_rowsOf]
  rfl

/-- **Printing goes letter by letter**: any alphabet with the same blanks and the same
newline will do. -/
theorem map_layOut {β : Type} [BEq β] [LawfulBEq β] {g : α → β} {q : β → Bool} {nl' : β}
    (hg : ∀ a, q (g a) = p a) (hnl : ∀ a, g a = nl' ↔ a = nl) :
    (layOut o p nl unit deltas xs).map g = layOut o q nl' (unit.map g) deltas (xs.map g) := by
  have hrows : rowsOf deltas ((xs.map g).splitOn nl') =
      (rowsOf deltas (xs.splitOn nl)).map fun r => (r.1.map g, r.2) := by
    rw [Text.splitOn_map hnl, rowsOf, rowsOf, List.zipIdx_map, List.map_map, List.map_map]
    rfl
  have hlines : printedLines o q nl' (unit.map g) deltas (xs.map g) =
      (printedLines o p nl unit deltas xs).map (List.map g) := by
    rw [printedLines, printedLines, hrows, map_printRows hg]
    apply Text.rdropWhile_map
    intro l _
    rw [List.isEmpty_map]
  have hsep : [nl'] = [nl].map g := by rw [List.map_singleton, (hnl nl).mpr rfl]
  rw [layOut, layOut, hlines, closeLines, closeLines, hsep, ← map_intercalate]
  rw [List.isEmpty_map]
  split
  · rw [List.map_append]
  · rfl

end Lists

/-! ### Texts -/

theorem printLines_eq_printRows (o : PrinterOptions) (s : PrintState)
    (rows : List (List Char × List Element)) :
    printLines o s rows =
      printRows o.maxBlankLines isBlank o.indentUnit s
        (rows.map fun r => (r.1, r.2.map Element.delta)) := by
  induction rows generalizing s with
  | nil => rfl
  | cons r rows ih =>
    obtain ⟨l, elements⟩ := r
    simp only [printLines, ih, List.map_cons]
    rfl

/-- The depth changes of the element tags that start on a line, counted from zero. -/
def lineDeltas (cs : List Char) (line : Nat) : List Int :=
  ((Element.tags cs).filter (·.line = line)).map Element.delta

theorem map_trim_rowsOf {α : Type} {p : α → Bool} {deltas : Nat → List Int}
    {ls ms : List (List α)} (h : ls.map (trimBy p) = ms.map (trimBy p)) :
    (rowsOf deltas ls).map (fun r => (trimBy p r.1, r.2)) =
      (rowsOf deltas ms).map fun r => (trimBy p r.1, r.2) := by
  have hrows : ∀ ns : List (List α), (rowsOf deltas ns).map (fun r => (trimBy p r.1, r.2)) =
      rowsOf deltas (ns.map (trimBy p)) := by
    intro ns
    rw [rowsOf, rowsOf, List.map_map, List.zipIdx_map, List.map_map]
    rfl
  rw [hrows, hrows, h]

theorem rowsOf_append (deltas : Nat → List Int) (ls : List (List α)) (l : List α) :
    rowsOf deltas (ls ++ [l]) = rowsOf deltas ls ++ [(l, deltas ls.length)] := by
  rw [rowsOf, List.zipIdx_append, List.map_append]
  simp [rowsOf]

/-- **The built-in printer lays texts out.**  That the last line of a text may be
missing makes no difference, as empty lines at the end are dropped. -/
theorem printMarkup_eq_layOut (o : PrinterOptions) (cs : List Char) :
    printMarkup o cs = layOut o isBlank '\n' o.indentUnit (lineDeltas cs) cs := by
  have hrows : ∀ ls : List (List Char),
      (ls.zip (Element.tagsByLine cs ls.length)).map (fun r => (r.1, r.2.map Element.delta)) =
        rowsOf (lineDeltas cs) ls := by
    intro ls
    rw [Element.tagsByLine, List.zip_map_right, List.map_map, rowsOf, List.zipIdx_eq_zip_range']
    rw [List.range_eq_range']
    rfl
  have hlines : (printLines o ⟨0, 0, true⟩
      ((Text.lines cs).zip (Element.tagsByLine cs (Text.lines cs).length))).rdropWhile
        List.isEmpty = printedLines o isBlank '\n' o.indentUnit (lineDeltas cs) cs := by
    rw [printLines_eq_printRows, hrows, Text.lines, Text.splitAt_eq_splitOn, printedLines]
    obtain hnil | ⟨ls, last, hparts⟩ := (cs.splitOn '\n').eq_nil_or_concat
    · exact absurd hnil (List.splitOn_ne_nil _ _)
    · rw [hparts, List.concat_eq_append, Text.linesOfParts_append]
      have htrim : (ls.map Text.dropReturn).map (trimBy isBlank) = ls.map (trimBy isBlank) := by
        rw [List.map_map]
        exact List.map_congr_left fun l _ => Text.trim_dropReturn l
      by_cases hlast : last.isEmpty = true
      · rw [if_pos hlast, List.append_nil, rowsOf_append,
          printRows_congr (map_trim_rowsOf htrim)]
        have hblank : ∀ c ∈ last, isBlank c = true := by
          rw [List.isEmpty_iff.mp hlast]
          simp
        obtain ⟨w, hw, hall⟩ := printRows_append_blank o.maxBlankLines o.indentUnit hblank
          (lineDeltas cs ls.length) ⟨0, 0, true⟩ (rowsOf (lineDeltas cs) ls)
        rw [hw, Text.rdropWhile_append_of_all _ hall]
      · have hall : (ls.map Text.dropReturn ++ [last]).map (trimBy isBlank) =
            (ls ++ [last]).map (trimBy isBlank) := by
          rw [List.map_append, List.map_append, htrim]
        rw [if_neg hlast, printRows_congr (map_trim_rowsOf hall)]
  rw [printMarkup, layOut, ← hlines]
  rfl

/-! ### Rows of slots -/

open Slot hiding isBlank

variable {f : Nat → List Char}

theorem render_indentBy (unit : List Char) (depth : Nat) (T : List Slot) :
    render f (indentBy (unit.map plain) depth T) = indentBy unit depth (render f T) := by
  have hunits : ∀ k : Nat, render f (List.replicate k (unit.map plain)).flatten =
      (List.replicate k unit).flatten := by
    intro k
    induction k with
    | zero => rfl
    | succ k ih =>
      rw [List.replicate_succ, List.flatten_cons, render_append, render_map_plain, ih,
        List.replicate_succ, List.flatten_cons]
  rw [indentBy, indentBy, render_append, hunits]

theorem render_intercalate (ls : List (List Slot)) :
    render f ([newline].intercalate ls) = ['\n'].intercalate (ls.map (render f)) := by
  induction ls with
  | nil => rfl
  | cons l ls ih =>
    by_cases hls : ls = []
    · subst hls
      rw [List.map_cons, List.map_nil, List.intercalate_singleton, List.intercalate_singleton]
    · rw [List.map_cons, List.intercalate_cons_of_ne_nil hls,
        List.intercalate_cons_of_ne_nil (by simpa using hls), render_append, render_append, ih]
      rfl

theorem map_render_printRows {cap : Nat} {unit : List Char} {s : PrintState}
    {rows : List (List Slot × List Int)} (hf : ∀ r ∈ rows, ∀ n ∈ codes r.1, Inked (f n)) :
    printRows cap isBlank unit s (rows.map fun r => (render f r.1, r.2)) =
      (printRows cap Slot.isBlank (unit.map plain) s rows).map (render f) := by
  induction rows generalizing s with
  | nil => rfl
  | cons r rows ih =>
    obtain ⟨l, d⟩ := r
    have hl := hf (l, d) List.mem_cons_self
    have hrest := fun r hr => hf r (List.mem_cons_of_mem _ hr)
    have htrim : trimBy isBlank (render f l) = render f (trimBy Slot.isBlank l) := trim_render hl
    have hnil : trimBy isBlank (render f l) = [] ↔ trimBy Slot.isBlank l = [] := by
      rw [htrim]
      exact render_eq_nil_iff fun n hn => (hl n (mem_codes_of_mem_trimBy hn)).1
    rw [List.map_cons]
    by_cases hblank : trimBy Slot.isBlank l = []
    · rw [printRows_cons_of_blank (Text.trimBy_eq_nil_iff.mp (hnil.mpr hblank)),
        printRows_cons_of_blank (Text.trimBy_eq_nil_iff.mp hblank), ih hrest, List.map_append]
      split <;> rfl
    · rw [printRows_cons_of_ink (fun he => hblank (hnil.mp he)), printRows_cons_of_ink hblank,
        ih hrest, List.map_cons, htrim, render_indentBy]

theorem mem_codes_intercalate {ls : List (List Slot)} {n : Nat}
    (hn : n ∈ codes ([newline].intercalate ls)) : ∃ l ∈ ls, n ∈ codes l := by
  rw [← codes_filter, Text.filter_intercalate (by decide), codes_filter, mem_codes] at hn
  obtain ⟨l, hl, hmem⟩ := List.mem_flatten.mp hn
  exact ⟨l, hl, mem_codes.mpr hmem⟩

theorem render_closeLines (o : PrinterOptions) {ls : List (List Slot)}
    (hf : ∀ l ∈ ls, ∀ n ∈ codes l, f n ≠ []) :
    render f (closeLines o newline ls) = closeLines o '\n' (ls.map (render f)) := by
  have hempty : (render f ([newline].intercalate ls)).isEmpty =
      ([newline].intercalate ls).isEmpty := by
    rw [Bool.eq_iff_iff, List.isEmpty_iff, List.isEmpty_iff]
    apply render_eq_nil_iff
    intro n hn
    obtain ⟨l, hl, hmem⟩ := mem_codes_intercalate hn
    exact hf l hl n hmem
  simp only [closeLines, ← render_intercalate, hempty]
  split
  · rw [render_append]
    rfl
  · rfl

/-- **Printing sees the slots alone.** -/
theorem layOut_render {o : PrinterOptions} {unit : List Char} {deltas : Nat → List Int}
    {T : List Slot} (hline : ∀ n ∈ codes T, '\n' ∉ f n) (hf : ∀ n ∈ codes T, Inked (f n)) :
    layOut o isBlank '\n' unit deltas (render f T) =
      render f (layOut o Slot.isBlank newline (unit.map plain) deltas T) := by
  have hrows : rowsOf deltas ((render f T).splitOn '\n') =
      (rowsOf deltas (T.splitOn newline)).map fun r => (render f r.1, r.2) := by
    rw [splitOn_render hline, rowsOf, rowsOf, List.zipIdx_map, List.map_map, List.map_map]
    rfl
  have hinked : ∀ r ∈ rowsOf deltas (T.splitOn newline), ∀ n ∈ codes r.1, Inked (f n) := by
    intro r hr n hn
    have hmem : r.1 ∈ T.splitOn newline := by
      rw [← map_fst_rowsOf deltas (T.splitOn newline)]
      exact List.mem_map_of_mem hr
    exact hf n (mem_codes_of_mem_splitOn hmem hn)
  have hwritten : ∀ l ∈ printRows o.maxBlankLines Slot.isBlank (unit.map plain) ⟨0, 0, true⟩
      (rowsOf deltas (T.splitOn newline)), ∀ n ∈ codes l, f n ≠ [] := by
    intro l hl n hn
    rcases mem_of_mem_printRows hl (mem_codes.mp hn) with h | ⟨r, hr, hx⟩
    · simp at h
    · exact (hinked r hr n (mem_codes.mpr hx)).1
  have hlines : printedLines o isBlank '\n' unit deltas (render f T) =
      (printedLines o Slot.isBlank newline (unit.map plain) deltas T).map (render f) := by
    rw [printedLines, printedLines, hrows, map_render_printRows hinked]
    apply Text.rdropWhile_map
    intro l hl
    rw [Bool.eq_iff_iff, List.isEmpty_iff, List.isEmpty_iff]
    exact render_eq_nil_iff (hwritten l hl)
  rw [layOut, layOut, hlines, render_closeLines]
  intro l hl
  exact hwritten l ((List.rdropWhile_prefix List.isEmpty _).subset hl)

end TwigTemplate.Layout
