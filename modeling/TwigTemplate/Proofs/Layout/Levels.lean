import TwigTemplate.Proofs.Layout.Reindenting
import TwigTemplate.Proofs.Region.LineEnds
import TwigTemplate.Proofs.Statement

/-!
# Indenting row by row

Indenting by block depth goes line by line and asks of every line whether it begins
inside a region.  The lines of a row that do so are all but its first, so the rows
of a document are indented one by one: the first line of each is written anew, and
counts the regions that start on it.

* `reindentRows`: indenting, stated for rows of tokens.
* `reindent_eq`: **indenting a document is indenting its rows**.
-/

namespace TwigTemplate.Layout

open Text (isBlank trimBy inkOf inkBy newlineCount length_splitOn)
open Region (Token tell rows places fronts clipLine clipRow clipSpan reading Shaped)

/-- What a region does to the nesting of blocks. -/
def codeEvent? (raw : List Char) : Option Nesting.Event :=
  if (reading raw).1 = .template .statement then
    Nesting.Event.ofRole? (Statement.ofContent (reading raw).2).role
  else none

def codeDeltas (raw : List Char) : List Int :=
  (codeEvent? raw).toList.flatMap eventDeltas

/-- The depth changes of a row: those of the regions that start on its first line. -/
def rowDeltas (row : List Token) : List Int :=
  (fronts row).flatMap codeDeltas

/-- What a row at a block depth becomes. -/
def writtenRow (unit : List Char) (keepIndent : Bool) (level : Nat) (row : List Token) :
    List Token :=
  if row.all Token.isBlank then []
  else indentBy (unit.map Token.char) level
    (clipRow (if keepIndent then row else row.dropWhile Token.isBlank))

/-- Indent consecutive rows from a block depth on. -/
def reindentRows (unit : List Char) (keepIndent : Bool) (depth : Nat) :
    List (List Token) → List (List Token)
  | [] => []
  | row :: rest =>
    let (level, next) := lineDepth depth (rowDeltas row)
    writtenRow unit keepIndent level row :: reindentRows unit keepIndent next rest

/-! ### The regions of a line -/

/-- A line that begins inside one of the regions that stand on the given lines. -/
def Continues (ps : List (Nat × List Char)) (line : Nat) : Prop :=
  ∃ l raw, (l, raw) ∈ ps ∧ l < line ∧ line ≤ l + newlineCount raw

/-- The depth changes of the regions that start on a line. -/
def deltasAt (ps : List (Nat × List Char)) (line : Nat) : List Int :=
  ((ps.filter (·.1 = line)).map Prod.snd).flatMap codeDeltas

section Lines

variable {cs : List Char}

/-- The places of the regions of a document. -/
def documentPlaces (cs : List Char) : List (Nat × List Char) :=
  places 1 (Region.tokens (Region.pieces .document cs))

theorem continuesRegion_iff (line : Nat) :
    continuesRegion ((Region.ofDocument cs).filter (·.kind.isTemplate)) line = true ↔
      Continues (documentPlaces cs) line := by
  rw [continuesRegion, List.any_eq_true, documentPlaces, ← Region.places_ofDocument]
  constructor
  · rintro ⟨r, hr, hin⟩
    have hstop := (Region.reading_of_mem_ofDocument hr).2
    rw [Bool.and_eq_true, decide_eq_true_eq, decide_eq_true_eq, hstop] at hin
    exact ⟨r.line, r.raw, List.mem_map.mpr ⟨r, hr, rfl⟩, hin.1, hin.2⟩
  · rintro ⟨l, raw, hmem, hlow, hhigh⟩
    obtain ⟨r, hr, he⟩ := List.mem_map.mp hmem
    obtain ⟨rfl, rfl⟩ := Prod.mk.inj he
    have hstop := (Region.reading_of_mem_ofDocument hr).2
    refine ⟨r, hr, ?_⟩
    rw [Bool.and_eq_true, decide_eq_true_eq, decide_eq_true_eq, hstop]
    exact ⟨hlow, hhigh⟩

theorem ofRegion?_eq {r : Region} (h : reading r.raw = (r.kind, r.content)) :
    Nesting.Event.ofRegion? r = codeEvent? r.raw := by
  rw [Nesting.Event.ofRegion?, codeEvent?, h]

theorem flatMap_filterMap {α β γ : Type} (f : α → Option β) (g : β → List γ) (xs : List α) :
    (xs.filterMap f).flatMap g = xs.flatMap fun x => (f x).toList.flatMap g := by
  induction xs with
  | nil => rfl
  | cons x xs ih =>
    rw [List.flatMap_cons, ← ih]
    cases hx : f x with
    | none => rw [List.filterMap_cons_none hx]; rfl
    | some y => rw [List.filterMap_cons_some hx, List.flatMap_cons]; simp

theorem deltasOn_eq (line : Nat) :
    deltasOn ((Region.ofDocument cs).filter (·.kind.isTemplate)) line =
      deltasAt (documentPlaces cs) line := by
  have hmap : ∀ rs : List Region, (∀ r ∈ rs, reading r.raw = (r.kind, r.content)) →
      deltasOn rs line = deltasAt (rs.map fun r => (r.line, r.raw)) line := by
    intro rs hrs
    rw [deltasOn, Nesting.events, flatMap_filterMap, deltasAt, List.filter_map, List.map_map,
      List.flatMap_map]
    apply List.flatMap_congr
    intro r hr
    have hread := hrs r (List.mem_filter.mp hr).1
    rw [ofRegion?_eq hread]
    rfl
  rw [documentPlaces, ← Region.places_ofDocument]
  exact hmap _ fun r hr => (Region.reading_of_mem_ofDocument hr).1

end Lines

/-! ### The lines of a row -/

section Row

variable {before : List (Nat × List Char)} {line : Nat} {row : List Token}

/-- Regions that end before a line. -/
def Before (ps : List (Nat × List Char)) (line : Nat) : Prop :=
  ∀ l raw, (l, raw) ∈ ps → l + newlineCount raw < line

/-- Regions that start after a line. -/
def After (ps : List (Nat × List Char)) (line : Nat) : Prop :=
  ∀ l raw, (l, raw) ∈ ps → line < l

variable {after : List (Nat × List Char)}

theorem not_continues (hbefore : Before before line)
    (hafter : After after (line + newlineCount (tell row))) :
    ¬ Continues (before ++ (places line row ++ after)) line := by
  rintro ⟨l, raw, hmem, hlow, hhigh⟩
  rcases List.mem_append.mp hmem with h | h
  · have hend := hbefore l raw h
    omega
  · rcases List.mem_append.mp h with h | h
    · have hbound := Region.bounds_of_mem_places h
      omega
    · have hstart := hafter l raw h
      omega

theorem continues_of_row (hrow : Token.newline ∉ row) {j : Nat} (hpos : 0 < j)
    (hj : j ≤ newlineCount (tell row)) :
    Continues (before ++ (places line row ++ after)) (line + j) := by
  have hplace : ∃ l raw, (l, raw) ∈ places line row ∧ l < line + j ∧
      line + j ≤ l + newlineCount raw := Region.exists_place hrow hpos hj
  obtain ⟨l, raw, hmem, hlow, hhigh⟩ := hplace
  exact ⟨l, raw, List.mem_append_right _ (List.mem_append_left _ hmem), hlow, hhigh⟩

theorem deltasAt_eq (hrow : Token.newline ∉ row) (hbefore : Before before line)
    (hafter : After after (line + newlineCount (tell row))) :
    deltasAt (before ++ (places line row ++ after)) line = rowDeltas row := by
  have hnone : ∀ ps : List (Nat × List Char), (∀ l raw, (l, raw) ∈ ps → l ≠ line) →
      ps.filter (·.1 = line) = [] := by
    intro ps hps
    rw [List.filter_eq_nil_iff]
    rintro ⟨l, raw⟩ hmem
    simpa using hps l raw hmem
  have hleft : before.filter (·.1 = line) = [] := by
    apply hnone
    intro l raw hmem
    have hend := hbefore l raw hmem
    omega
  have hright : after.filter (·.1 = line) = [] := by
    apply hnone
    intro l raw hmem
    have hstart := hafter l raw hmem
    omega
  rw [deltasAt, List.filter_append, List.filter_append, hleft, hright, List.nil_append,
    List.append_nil, Region.front_places hrow]
  rfl

theorem reindentLines_continues {regions : List Region} {unit : List Char} {keepIndent : Bool}
    {depth : Nat} {ls : List (List Char)} {next : Nat}
    (h : ∀ j, j < ls.length → continuesRegion regions (next + j) = true)
    (more : List (List Char)) :
    reindentLines regions unit keepIndent next depth (ls ++ more) =
      ls ++ reindentLines regions unit keepIndent (next + ls.length) depth more := by
  induction ls generalizing next with
  | nil => rfl
  | cons l ls ih =>
    have hfirst : continuesRegion regions next = true := h 0 (by simp)
    have hrest : ∀ j, j < ls.length → continuesRegion regions (next + 1 + j) = true := by
      intro j hj
      have hj' := h (j + 1) (by rw [List.length_cons]; omega)
      rwa [show next + (j + 1) = next + 1 + j by omega] at hj'
    rw [List.cons_append, reindentLines_cons_of_continues hfirst, ih hrest, List.cons_append,
      List.length_cons, show next + 1 + ls.length = next + (ls.length + 1) by omega]

/-! ### Writing a row -/

theorem tell_indentBy (unit : List Char) (level : Nat) (ts : List Token) :
    tell (indentBy (unit.map Token.char) level ts) = indent unit level (tell ts) := by
  have hunits : ∀ k : Nat, tell (List.replicate k (unit.map Token.char)).flatten =
      (List.replicate k unit).flatten := by
    intro k
    induction k with
    | zero => rfl
    | succ k ih =>
      rw [List.replicate_succ, List.flatten_cons, Region.tell_append, Region.tell_map_char, ih,
        List.replicate_succ, List.flatten_cons]
  rw [indentBy, Region.tell_append, hunits, indent]

theorem exists_tail {cs l : List Char} {ls : List (List Char)} (h : cs.splitOn '\n' = l :: ls) :
    ∃ tail, cs = l ++ tail ∧ ∀ m : List Char, '\n' ∉ m →
      (m ++ tail).splitOn '\n' = m :: ls ∧ clipLine (m ++ tail) = Text.trimEnd m ++ tail := by
  have hl : '\n' ∉ l := Text.not_mem_of_mem_splitOn (h ▸ List.mem_cons_self)
  by_cases hnl : '\n' ∈ cs
  · obtain ⟨m, rest, rfl, hm⟩ := List.eq_append_cons_of_mem hnl
    rw [List.splitOn_append_cons_self_of_not_mem hm] at h
    obtain ⟨rfl, rfl⟩ := List.cons.inj h
    refine ⟨'\n' :: rest, rfl, fun k hk => ?_⟩
    rw [List.splitOn_append_cons_self_of_not_mem hk, Region.clipLine_line hk]
    exact ⟨rfl, rfl⟩
  · rw [List.splitOn_eq_singleton hnl] at h
    obtain ⟨rfl, rfl⟩ := List.cons.inj h
    refine ⟨[], (List.append_nil cs).symm, fun k hk => ?_⟩
    rw [List.append_nil, List.append_nil, Region.clipLine_of_not_mem hk]
    exact ⟨List.splitOn_eq_singleton hk, rfl⟩

section Writing

variable {unit : List Char} {keepIndent : Bool}

theorem newline_not_mem_indent (hfree : '\n' ∉ unit) {l : List Char} (hl : '\n' ∉ l)
    (level : Nat) : '\n' ∉ indent unit level l := by
  rw [indent_eq]
  intro hmem
  exact (mem_indentBy hmem).elim hfree hl

theorem exists_ink_of_not_blank (h : ¬ row.all Token.isBlank = true) :
    ∃ t ∈ row, t.isBlank = false := by
  rw [List.all_eq_true] at h
  push Not at h
  obtain ⟨t, ht, hne⟩ := h
  exact ⟨t, ht, by simpa using hne⟩

theorem exists_ink_line (hrow : Token.newline ∉ row) (hshape : Shaped row)
    (hink : ∃ t ∈ row, t.isBlank = false) {l : List Char} {ls : List (List Char)}
    (h : (tell row).splitOn '\n' = l :: ls) : ∃ c ∈ l, isBlank c = false := by
  have htell : ∀ {t : Token}, t ∈ row → t.isBlank = false →
      ∃ c ∈ t.text, isBlank c = false := by
    intro t ht hblank
    cases t with
    | char c => exact ⟨c, List.mem_singleton_self c, hblank⟩
    | code raw =>
      obtain ⟨form, inner, rfl⟩ := hshape raw ht
      exact ⟨'{', List.mem_cons_self, by decide⟩
  rcases Region.row_cases row with hall | ⟨front, raw, back, rfl, hfront, hraw⟩
  · rw [List.splitOn_eq_singleton (Region.newline_not_mem_tell hrow hall)] at h
    obtain ⟨rfl, -⟩ := List.cons.inj h
    obtain ⟨t, ht, hblank⟩ := hink
    obtain ⟨c, hc, hcink⟩ := htell ht hblank
    exact ⟨c, List.mem_flatMap.mpr ⟨t, ht, hc⟩, hcink⟩
  · obtain ⟨m, rest, rfl, hm⟩ := List.eq_append_cons_of_mem hraw
    have hfree : '\n' ∉ tell front ++ m := by
      rw [List.mem_append, not_or]
      refine ⟨Region.newline_not_mem_tell (fun hmem => hrow ?_) hfront, hm⟩
      exact List.mem_append_left _ hmem
    have hcut : tell (front ++ .code (m ++ '\n' :: rest) :: back) =
        (tell front ++ m) ++ '\n' :: (rest ++ tell back) := by
      rw [Region.tell_append, Region.tell_code_cons]
      simp
    rw [hcut, List.splitOn_append_cons_self_of_not_mem hfree] at h
    obtain ⟨rfl, -⟩ := List.cons.inj h
    obtain ⟨form, inner, hraw⟩ := hshape _ (List.mem_append_right _ List.mem_cons_self)
    -- The first character of the region stands on its first line.
    cases m with
    | nil => exact absurd (List.cons.inj hraw).1 (by decide)
    | cons c m =>
      obtain rfl : c = '{' := (List.cons.inj hraw).1
      exact ⟨'{', by simp, by decide⟩

/-- **The first line of a row is written anew, the others stay.** -/
theorem splitOn_writtenRow (hfree : '\n' ∉ unit) (hrow : Token.newline ∉ row)
    (hshape : Shaped row) (level : Nat) {l : List Char} {ls : List (List Char)}
    (h : (tell row).splitOn '\n' = l :: ls) :
    (tell (writtenRow unit keepIndent level row)).splitOn '\n' =
      writtenLine unit keepIndent level l :: ls := by
  rw [writtenRow]
  by_cases hblank : row.all Token.isBlank = true
  · obtain ⟨cs, rfl, hcs⟩ := Region.exists_eq_map_char (List.all_eq_true.mp hblank)
    have hnl : '\n' ∉ cs := fun hmem => hrow (Region.mem_map_char.mpr hmem)
    rw [Region.tell_map_char, List.splitOn_eq_singleton hnl] at h
    obtain ⟨rfl, rfl⟩ := List.cons.inj h
    rw [if_pos hblank, writtenLine, if_pos]
    · rfl
    · rw [Text.trim_eq_trimBy, Text.trimBy_eq_nil_iff.mpr hcs]
      rfl
  · have hink := exists_ink_of_not_blank hblank
    obtain ⟨c, hc, hcink⟩ := exists_ink_line hrow hshape hink h
    have hl : '\n' ∉ l := Text.not_mem_of_mem_splitOn (h ▸ List.mem_cons_self)
    obtain ⟨tail, hcut, hexchange⟩ := exists_tail h
    have hwritten : ¬ (Text.trim l).isEmpty = true := by
      rw [List.isEmpty_iff, Text.trim_eq_trimBy, Text.trimBy_eq_nil_iff]
      intro hall
      rw [hall c hc] at hcink
      exact absurd hcink (by simp)
    have hdrop : (l ++ tail).dropWhile isBlank = l.dropWhile isBlank ++ tail :=
      Text.dropWhile_append_of_ink ⟨c, hc, hcink⟩ tail
    have hfirst : ∀ m : List Char, '\n' ∉ m →
        (indent unit level (clipLine (m ++ tail))).splitOn '\n' =
          indent unit level (Text.trimEnd m) :: ls := by
      intro m hm
      have hend : '\n' ∉ Text.trimEnd m := fun hmem =>
        hm ((List.rdropWhile_prefix isBlank m).subset hmem)
      rw [(hexchange m hm).2, indent, ← List.append_assoc, ← indent,
        (hexchange _ (newline_not_mem_indent hfree hend level)).1]
    rw [if_neg hblank, tell_indentBy, writtenLine, if_neg hwritten]
    cases keepIndent with
    | true =>
      rw [if_pos rfl, if_pos rfl, Region.tell_clipRow hrow hshape, hcut]
      exact hfirst l hl
    | false =>
      have hsub : ∀ t ∈ row.dropWhile Token.isBlank, t ∈ row := fun t ht =>
        (List.dropWhile_suffix Token.isBlank).subset ht
      have hstart : '\n' ∉ l.dropWhile isBlank := fun hmem =>
        hl ((List.dropWhile_suffix isBlank).subset hmem)
      rw [if_neg (by simp), if_neg (by simp),
        Region.tell_clipRow (fun hmem => hrow (hsub _ hmem)) (hshape.of_mem hsub),
        Region.tell_dropWhile hshape, hcut, hdrop]
      exact hfirst _ hstart

end Writing

end Row

/-! ### All rows -/

section Rows

variable {unit : List Char} {keepIndent : Bool}

theorem reindentRows_cons (depth : Nat) (row : List Token) (rest : List (List Token)) :
    reindentRows unit keepIndent depth (row :: rest) =
      writtenRow unit keepIndent (lineDepth depth (rowDeltas row)).1 row ::
        reindentRows unit keepIndent (lineDepth depth (rowDeltas row)).2 rest := rfl

/-- The lines of rows laid end to end are the lines of each. -/
theorem splitOn_tell_intercalate {rs : List (List Token)} (hrs : rs ≠ []) :
    (tell ([Token.newline].intercalate rs)).splitOn '\n' =
      rs.flatMap fun row => (tell row).splitOn '\n' := by
  induction rs with
  | nil => exact absurd rfl hrs
  | cons row rs ih =>
    by_cases hne : rs = []
    · rw [hne, List.intercalate_singleton, List.flatMap_cons, List.flatMap_nil, List.append_nil]
    · rw [List.intercalate_cons_of_ne_nil hne, List.append_assoc, List.singleton_append,
        Region.tell_append, Token.newline, Region.tell_char_cons, ← Token.newline,
        List.splitOn_append_cons_self, ih hne, List.flatMap_cons]

theorem places_intercalate_cons (line : Nat) (row : List Token) (rs : List (List Token)) :
    places line ([Token.newline].intercalate (row :: rs)) =
      places line row ++
        places (line + newlineCount (tell row) + 1) ([Token.newline].intercalate rs) := by
  by_cases hrs : rs = []
  · rw [hrs, List.intercalate_singleton, List.intercalate_nil, places, List.append_nil]
  · rw [List.intercalate_cons_of_ne_nil hrs, List.append_assoc, List.singleton_append,
      Region.places_append, Token.newline, places, if_pos rfl]

/-- Indenting lines is indenting rows, as long as the regions stand where the rows
say.  The regions of rows that were passed lie in `before`. -/
theorem reindentLines_rows (hfree : '\n' ∉ unit) {regions : List Region}
    {ps : List (Nat × List Char)}
    (hcontinues : ∀ line, continuesRegion regions line = true ↔ Continues ps line)
    (hdeltas : ∀ line, deltasOn regions line = deltasAt ps line) {rs : List (List Token)}
    (hrs : ∀ row ∈ rs, Token.newline ∉ row ∧ Shaped row) {before : List (Nat × List Char)}
    {line : Nat} (hps : ps = before ++ places line ([Token.newline].intercalate rs))
    (hbefore : Before before line) (depth : Nat) :
    reindentLines regions unit keepIndent line depth
        (rs.flatMap fun row => (tell row).splitOn '\n') =
      (reindentRows unit keepIndent depth rs).flatMap fun row => (tell row).splitOn '\n' := by
  induction rs generalizing before line depth with
  | nil => rfl
  | cons row rs ih =>
    obtain ⟨hrow, hshape⟩ := hrs row List.mem_cons_self
    obtain ⟨l, ls, hlines⟩ := List.exists_cons_of_ne_nil (List.splitOn_ne_nil '\n' (tell row))
    have hcount : ls.length = newlineCount (tell row) := by
      have hlen := length_splitOn (tell row)
      rw [hlines, List.length_cons] at hlen
      omega
    rw [places_intercalate_cons] at hps
    have hafter : After (places (line + newlineCount (tell row) + 1)
        ([Token.newline].intercalate rs)) (line + newlineCount (tell row)) := by
      intro m raw hmem
      have hbound := Region.bounds_of_mem_places hmem
      omega
    have hstarts : ¬ continuesRegion regions line = true := by
      rw [hcontinues, hps]
      exact not_continues hbefore hafter
    have hinside : ∀ j, j < ls.length → continuesRegion regions (line + 1 + j) = true := by
      intro j hj
      rw [hcontinues, hps, show line + 1 + j = line + (j + 1) by omega]
      exact continues_of_row hrow (by omega) (by omega)
    have hpassed : Before (before ++ places line row) (line + 1 + ls.length) := by
      intro m raw hmem
      rcases List.mem_append.mp hmem with h | h
      · have hend := hbefore m raw h
        omega
      · have hbound := Region.bounds_of_mem_places h
        omega
    have hnext : ps = (before ++ places line row) ++
        places (line + 1 + ls.length) ([Token.newline].intercalate rs) := by
      rw [hps, List.append_assoc, hcount,
        show line + 1 + newlineCount (tell row) = line + newlineCount (tell row) + 1 by omega]
    have hrest := ih (fun r hr => hrs r (List.mem_cons_of_mem _ hr)) hnext hpassed
      (lineDepth depth (rowDeltas row)).2
    rw [List.flatMap_cons, hlines, List.cons_append, reindentLines_cons_of_starts hstarts,
      reindentLines_continues hinside, hdeltas, hps, deltasAt_eq hrow hbefore hafter, hrest,
      reindentRows_cons, List.flatMap_cons, splitOn_writtenRow hfree hrow hshape _ hlines,
      List.cons_append]

theorem shaped_of_mem_rows {cs : List Char} {row : List Token} (h : row ∈ rows cs) :
    Token.newline ∉ row ∧ Shaped row := by
  refine ⟨Text.not_mem_of_mem_splitOn h, ?_⟩
  exact (Region.shaped_tokens .document cs).of_mem fun t ht => Text.mem_of_mem_splitOn h ht

/-- **Indenting a document is indenting its rows.** -/
theorem reindent_eq (hfree : '\n' ∉ unit) (cs : List Char) :
    reindent unit keepIndent cs =
      tell ([Token.newline].intercalate (reindentRows unit keepIndent 0 (rows cs))) := by
  have hne : rows cs ≠ [] := Region.rows_ne_nil cs
  have hlines : cs.splitOn '\n' = (rows cs).flatMap fun row => (tell row).splitOn '\n' := by
    rw [← splitOn_tell_intercalate hne, Region.tell_intercalate_rows]
  have hwritten : reindentRows unit keepIndent 0 (rows cs) ≠ [] := by
    cases hrows : rows cs with
    | nil => exact absurd hrows hne
    | cons row rest => rw [reindentRows_cons]; simp
  have hps : documentPlaces cs = [] ++ places 1 ([Token.newline].intercalate (rows cs)) := by
    rw [Region.intercalate_rows]
    rfl
  have hbefore : Before [] 1 := by simp [Before]
  have hreindent : reindentLines ((Region.ofDocument cs).filter (·.kind.isTemplate)) unit keepIndent
      1 0 ((rows cs).flatMap fun row => (tell row).splitOn '\n') =
      (reindentRows unit keepIndent 0 (rows cs)).flatMap fun row => (tell row).splitOn '\n' :=
    reindentLines_rows hfree continuesRegion_iff deltasOn_eq (fun _ => shaped_of_mem_rows) hps
      hbefore 0
  rw [reindent, Text.splitAt_eq_splitOn, Text.joinWith, hlines, hreindent,
    ← splitOn_tell_intercalate hwritten, List.intercalate_splitOn]

end Rows

end TwigTemplate.Layout
