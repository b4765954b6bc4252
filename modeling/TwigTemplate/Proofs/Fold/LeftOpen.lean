import Mathlib.Data.List.Flatten
import Mathlib.Data.List.Nodup
import TwigTemplate.Proofs.Fold.Blocks

/-!
# The block that a fold follows

A line may close blocks of earlier lines and open blocks that stay open.  When the blocks of a
text nest, the query at a line follows one of the blocks that the line leaves open: the one
that lies as deep among the open blocks of its tag as the balance of the line says.

* `LeftOpen`, `mem_new_iff`: the blocks that a line opens and leaves open, on the stack.
* `followed?`, `blockEndAt?_cases`: **the block that the query at a line follows**.
* `resolve?_closes`: **a block fold ends where a block of its first line is closed**.
* `followed?_eq_some_iff`: when the block that is followed is the first one left open.
* `ends_firstLeftOpen_iff`: **when a fold ends where the first block left open is closed**.
-/

namespace TwigTemplate.Fold

open Analysis (Frame Cut Nested run run_append exists_cut pairings pairings_append
  mem_of_mem_pairings mem_run_or_mem_pairings nested_of_analyze openOf openOf_append openOf_cons mem_openOf
  openBefore opening? openings line_of_mem_ofLine line_of_mem_ofLinesFrom)

section Document

variable {options : LintOptions} {cs l : List Char} {line : Nat}

/-- The blocks of a text that are closed, each with the region that closes it. -/
def closings (options : LintOptions) (cs : List Char) : List (Frame × Region) :=
  pairings options [] (Region.ofLines cs).flatten

/-- A block that is opened on a line and closed on a later one, with the region that closes
it.  The line is counted from zero, the places of blocks and regions from one. -/
structure LeftOpen (options : LintOptions) (cs : List Char) (line : Nat) (p : Frame × Region) :
    Prop where
  closes : p ∈ closings options cs
  opened : p.1.line = line + 1
  later : line + 1 < p.2.line

/-! ### A text around a line -/

/-- The regions of the lines after a line. -/
def after (cs : List Char) (line : Nat) : List Region :=
  (Region.ofLinesFrom (line + 2) ((Text.lines cs).drop (line + 1))).flatten

theorem drop_ofLinesFrom (n i : Nat) (ls : List (List Char)) :
    (Region.ofLinesFrom n ls).drop i = Region.ofLinesFrom (n + i) (ls.drop i) := by
  induction i generalizing n ls with
  | zero => rfl
  | succ i ih =>
    cases ls with
    | nil => rfl
    | cons l ls =>
      rw [Region.ofLinesFrom, List.drop_succ_cons, List.drop_succ_cons, ih, Nat.add_right_comm,
        Nat.add_assoc]

theorem drop_ofLines (hl : (Text.lines cs)[line]? = some l) :
    (Region.ofLines cs).drop line = Region.ofLine l (line + 1) ::
      Region.ofLinesFrom (line + 2) ((Text.lines cs).drop (line + 1)) := by
  obtain ⟨hlt, rfl⟩ := List.getElem?_eq_some_iff.mp hl
  rw [Region.ofLines, drop_ofLinesFrom, List.drop_eq_getElem_cons hlt, Region.ofLinesFrom,
    Nat.add_comm 1 line]

theorem flatten_ofLines (hl : (Text.lines cs)[line]? = some l) :
    (Region.ofLines cs).flatten = ((Region.ofLines cs).take line).flatten ++
      (Region.ofLine l (line + 1) ++ after cs line) := by
  conv_lhs => rw [← List.take_append_drop line (Region.ofLines cs), List.flatten_append,
    drop_ofLines hl, List.flatten_cons]
  rfl

theorem openBefore_succ (hl : (Text.lines cs)[line]? = some l) :
    openBefore options cs (line + 1) =
      (run options (openBefore options cs line) (Region.ofLine l (line + 1))).1 := by
  have hrow : (Region.ofLines cs)[line]? = some (Region.ofLine l (line + 1)) := by
    rw [← List.head?_drop, drop_ofLines hl, List.head?_cons]
  rw [openBefore, openBefore, List.take_add_one, hrow, Option.toList_some, List.flatten_append,
    List.flatten_singleton, run_append]

theorem closings_eq (hl : (Text.lines cs)[line]? = some l) :
    closings options cs = pairings options [] ((Region.ofLines cs).take line).flatten ++
      (pairings options (openBefore options cs line) (Region.ofLine l (line + 1)) ++
        pairings options (openBefore options cs (line + 1)) (after cs line)) := by
  rw [closings, flatten_ofLines hl, pairings_append, pairings_append, openBefore_succ hl]
  rfl

/-- When nothing is wrong with the nesting, the line and what follows it are read without a
finding, and no block stays open. -/
theorem nested_around (h : ∀ f ∈ (analyze options cs).findings, f.cause.category ≠ .structural)
    (hl : (Text.lines cs)[line]? = some l) :
    Nested options (openBefore options cs line) (Region.ofLine l (line + 1)) ∧
      Nested options (openBefore options cs (line + 1)) (after cs line) ∧
      (run options (openBefore options cs (line + 1)) (after cs line)).1 = [] := by
  obtain ⟨hnested, hlast⟩ := nested_of_analyze h
  rw [flatten_ofLines hl] at hnested hlast
  rw [run_append, run_append] at hlast
  rw [openBefore_succ hl]
  obtain ⟨hrow, hafter⟩ := hnested.append.2.append
  exact ⟨hrow, hafter, hlast⟩

theorem newline_not_mem (hl : (Text.lines cs)[line]? = some l) : '\n' ∉ l :=
  Text.newline_not_mem_of_mem_lines (List.mem_of_getElem? hl)

theorem line_le_of_mem_take {r : Region} (hr : r ∈ ((Region.ofLines cs).take line).flatten) :
    r.line ≤ line := by
  obtain ⟨row, hrow, hr⟩ := List.mem_flatten.mp hr
  obtain ⟨i, hi, rfl⟩ := List.mem_take_iff_getElem.mp hrow
  rw [Nat.lt_min] at hi
  have := line_of_mem_ofLinesFrom (fun _ => Text.newline_not_mem_of_mem_lines) 1 i _
    (List.getElem?_eq_getElem hi.2) r hr
  omega

theorem line_lt_of_mem_after {r : Region} (hr : r ∈ after cs line) : line + 1 < r.line := by
  obtain ⟨row, hrow, hr⟩ := List.mem_flatten.mp hr
  obtain ⟨i, hi⟩ := List.mem_iff_getElem?.mp hrow
  have := line_of_mem_ofLinesFrom (fun _ hm => Text.newline_not_mem_of_mem_lines
    (List.mem_of_mem_drop hm)) (line + 2) i row hi r hr
  omega

theorem place_of_opening? {r : Region} {f : Frame} (h : opening? r = some f) :
    f.line = r.line ∧ f.column = r.column := by
  obtain ⟨e, -, hframe⟩ := Option.bind_eq_some_iff.mp h
  obtain ⟨b, -, rfl⟩ := Option.map_eq_some_iff.mp hframe
  exact ⟨rfl, rfl⟩

theorem line_of_mem_openings {rs : List Region} {f : Frame} (h : f ∈ openings rs) :
    ∃ r ∈ rs, f.line = r.line := by
  obtain ⟨r, hr, hopen⟩ := List.mem_filterMap.mp h
  exact ⟨r, hr, (place_of_opening? hopen).1⟩

theorem pairwise_openings (hl : '\n' ∉ l) (n : Nat) :
    (openings (Region.ofLine l n)).Pairwise fun f g => f.column < g.column := by
  have hspell : '\n' ∉ Region.spell (Region.pieces .line l) := by
    rwa [Region.spell_pieces]
  refine List.Pairwise.filterMap _ (fun r s hlt f hf g hg => ?_)
    (Analysis.pairwise_column_locate hspell (fun p => Region.raw_ne_nil_of_mem_pieces p)
      ⟨n, 1, 0⟩).1
  rw [(place_of_opening? hf).2, (place_of_opening? hg).2]
  exact hlt

/-! ### The stack around a line -/

theorem sublist_openBefore :
    (openBefore options cs line).reverse.Sublist
      (openings ((Region.ofLines cs).take line).flatten) :=
  (Analysis.reads_run options ((Region.ofLines cs).take line).flatten []).sublist_openings

theorem line_of_mem_openBefore {f : Frame} (hf : f ∈ openBefore options cs line) :
    f.line ≤ line := by
  obtain ⟨r, hr, hline⟩ := line_of_mem_openings
    (sublist_openBefore.subset (List.mem_reverse.mpr hf))
  exact hline ▸ line_le_of_mem_take hr

theorem nodup_openBefore : (openBefore options cs line).Nodup := by
  have hall : (openings (Region.ofLines cs).flatten).Nodup :=
    List.Nodup.of_map _ (Analysis.nodup_openings cs)
  have htake : (openings ((Region.ofLines cs).take line).flatten).Sublist
      (openings (Region.ofLines cs).flatten) :=
    ((List.take_sublist _ _).flatten).filterMap _
  exact List.nodup_reverse.mp (hall.sublist (sublist_openBefore.trans htake))

theorem nodup_closings : ((closings options cs).map (·.1)).Nodup :=
  Analysis.nodup_pairings (List.Nodup.of_map _ (Analysis.nodup_openings cs))

theorem LeftOpen.unique {f : Frame} {r s : Region} (hr : LeftOpen options cs line (f, r))
    (hs : LeftOpen options cs line (f, s)) : r = s :=
  (Prod.mk.inj (List.inj_on_of_nodup_map nodup_closings hr.closes hs.closes rfl)).2

variable {new gone old : List Frame}

/-- **The blocks that a line puts on the stack** are those that it leaves open. -/
theorem mem_new_iff (h : ∀ f ∈ (analyze options cs).findings, f.cause.category ≠ .structural)
    (hl : (Text.lines cs)[line]? = some l)
    (hcut : Cut options (openBefore options cs line) (Region.ofLine l (line + 1)) new gone old)
    {f : Frame} : f ∈ new ↔ ∃ r, LeftOpen options cs line (f, r) := by
  have hstack : openBefore options cs (line + 1) = _ := openBefore_succ hl
  rw [hcut.after] at hstack
  have hopened : ∀ g ∈ openings (Region.ofLine l (line + 1)), g.line = line + 1 := fun g hg => by
    obtain ⟨r, hr, hline⟩ := line_of_mem_openings hg
    rw [hline, line_of_mem_ofLine (newline_not_mem hl) r hr]
  constructor
  · intro hf
    have hopen : f ∈ openBefore options cs (line + 1) := by
      rw [hstack]
      exact List.mem_append_left _ hf
    rcases mem_run_or_mem_pairings options hopen (after cs line) with hlast | ⟨r, hr⟩
    · rw [(nested_around h hl).2.2] at hlast
      exact absurd hlast List.not_mem_nil
    · refine ⟨r, ?_, hopened f (hcut.opened.subset (List.mem_reverse.mpr hf)),
        line_lt_of_mem_after (mem_of_mem_pairings hr).1⟩
      rw [closings_eq hl]
      exact List.mem_append_right _ (List.mem_append_right _ hr)
  · rintro ⟨r, hopen⟩
    have hline := hopen.opened
    have hlater := hopen.later
    have hcloses := hopen.closes
    dsimp only at hline hlater
    rw [closings_eq hl, List.mem_append, List.mem_append] at hcloses
    rcases hcloses with hr | hr | hr
    · have := line_le_of_mem_take (mem_of_mem_pairings hr).1
      dsimp only at this
      omega
    · have := line_of_mem_ofLine (newline_not_mem hl) r (mem_of_mem_pairings hr).1
      omega
    · rcases (mem_of_mem_pairings hr).2 with hf | hf
      · rw [hstack] at hf
        rcases List.mem_append.mp hf with hnew | hold
        · exact hnew
        · have hbefore : f ∈ openBefore options cs line := by
            rw [hcut.before]
            exact List.mem_append_right _ hold
          have := line_of_mem_openBefore hbefore
          omega
      · obtain ⟨s, hs, hat⟩ := line_of_mem_openings hf
        have := line_lt_of_mem_after hs
        dsimp only at hat
        omega

/-- The blocks that a line takes off the stack are those of earlier lines that it closes. -/
theorem mem_gone_iff (hl : (Text.lines cs)[line]? = some l)
    (hcut : Cut options (openBefore options cs line) (Region.ofLine l (line + 1)) new gone old)
    {f : Frame} :
    f ∈ gone ↔ ∃ r, (f, r) ∈ closings options cs ∧ f.line ≤ line ∧ r.line = line + 1 := by
  constructor
  · intro hf
    obtain ⟨r, hr⟩ := hcut.closed f hf
    refine ⟨r, ?_, ?_, line_of_mem_ofLine (newline_not_mem hl) r (mem_of_mem_pairings hr).1⟩
    · rw [closings_eq hl]
      exact List.mem_append_right _ (List.mem_append_left _ hr)
    · have hopen : f ∈ openBefore options cs line := by
        rw [hcut.before]
        exact List.mem_append_left _ hf
      exact line_of_mem_openBefore hopen
  · rintro ⟨r, hcloses, hline, hat⟩
    rw [closings_eq hl, List.mem_append, List.mem_append] at hcloses
    rcases hcloses with hr | hr | hr
    · have := line_le_of_mem_take (mem_of_mem_pairings hr).1
      dsimp only at this
      omega
    · rcases hcut.taken _ hr with hgone | hopen
      · exact hgone
      · obtain ⟨s, hs, hat'⟩ := line_of_mem_openings hopen
        have := line_of_mem_ofLine (newline_not_mem hl) s hs
        dsimp only at hat'
        omega
    · have := line_lt_of_mem_after (mem_of_mem_pairings hr).1
      dsimp only at this
      omega

/-- A line moves the number of open blocks of a tag by its balance. -/
theorem length_openOf_new (h : ∀ f ∈ (analyze options cs).findings, f.cause.category ≠ .structural)
    (hl : (Text.lines cs)[line]? = some l)
    (hcut : Cut options (openBefore options cs line) (Region.ofLine l (line + 1)) new gone old)
    (tag : Block) :
    ((openOf tag new).length : Int) =
      (openOf tag gone).length + blockBalance tag (lineEvents l) := by
  have hlen := length_openOf_run (nested_around h hl).1 tag
  rw [hcut.after, hcut.before, openOf_append, openOf_append, List.length_append,
    List.length_append, events_ofLine] at hlen
  omega

/-! ### The block that is followed -/

/-- The open block that the query at a line follows, counted from the innermost one of its
tag. -/
def followed? (options : LintOptions) (cs : List Char) (line : Nat) : Option Frame :=
  (Text.lines cs)[line]?.bind fun l => (blockOpener? (lineEvents l)).bind fun tag =>
    (openOf tag (openBefore options cs (line + 1)))[(blockBalance tag (lineEvents l)).toNat - 1]?

theorem followed?_eq (hl : (Text.lines cs)[line]? = some l) :
    followed? options cs line = (blockOpener? (lineEvents l)).bind fun tag =>
      (openOf tag (openBefore options cs (line + 1)))[
        (blockBalance tag (lineEvents l)).toNat - 1]? := by
  rw [followed?, hl, Option.bind_some]

theorem blockEndAt?_eq (hl : (Text.lines cs)[line]? = some l) :
    blockEndAt? cs line = (blockOpener? (lineEvents l)).bind fun tag =>
      (blockEnd? tag (blockBalance tag (lineEvents l)) ((Text.lines cs).drop (line + 1))).map
        (line + 1 + ·) := by
  obtain ⟨hlt, rfl⟩ := List.getElem?_eq_some_iff.mp hl
  rw [blockEndAt?, List.drop_eq_getElem_cons hlt, matchBlock?_cons]
  cases blockOpener? (lineEvents (Text.lines cs)[line]) with
  | none => rfl
  | some tag =>
    rw [Option.bind_some, Option.bind_some, Option.map_map]
    congr 1
    funext k
    show line + (k + 1) = line + 1 + k
    omega

/-- **The query at a line follows one of the blocks that the line leaves open**, or none. -/
theorem blockEndAt?_cases (h : ∀ f ∈ (analyze options cs).findings, f.cause.category ≠ .structural)
    (hl : (Text.lines cs)[line]? = some l) :
    (blockOpener? (lineEvents l) = none ∧ followed? options cs line = none ∧
      blockEndAt? cs line = none) ∨
    ∃ f r, blockOpener? (lineEvents l) = some f.block ∧ followed? options cs line = some f ∧
      LeftOpen options cs line (f, r) ∧ blockEndAt? cs line = some (r.line - 1) := by
  rw [followed?_eq hl, blockEndAt?_eq hl]
  cases htag : blockOpener? (lineEvents l) with
  | none => exact Or.inl ⟨rfl, rfl, rfl⟩
  | some tag =>
    obtain ⟨-, hafter, hlast⟩ := nested_around h hl
    obtain ⟨new, gone, old, hcut⟩ :=
      exists_cut options (openBefore options cs line) (Region.ofLine l (line + 1))
    have hlen := length_openOf_new h hl hcut tag
    have hpos := blockBalance_pos htag
    have hstack : openBefore options cs (line + 1) = _ := openBefore_succ hl
    rw [hcut.after] at hstack
    -- The balance counts down to a block that the line has put on the stack.
    obtain ⟨k, hk⟩ : ∃ k : Nat, blockBalance tag (lineEvents l) = k + 1 :=
      ⟨(blockBalance tag (lineEvents l)).toNat - 1, by omega⟩
    have hlt : k < (openOf tag new).length := by omega
    have hopen : openOf tag (openBefore options cs (line + 1)) = (openOf tag new).take k ++
        (openOf tag new)[k] :: ((openOf tag new).drop (k + 1) ++ openOf tag old) := by
      rw [hstack, openOf_append, ← List.cons_append, ← List.drop_eq_getElem_cons hlt,
        ← List.append_assoc, List.take_append_drop]
    obtain ⟨hmem, hblock⟩ := mem_openOf.mp (List.getElem_mem hlt)
    generalize (openOf tag new)[k] = f at hopen hmem hblock
    have htake : ((openOf tag new).take k).length = k := by
      rw [List.length_take]
      omega
    obtain ⟨i, r, hend, hr, hline⟩ := exists_blockEnd? tag
      (fun _ hm => Text.newline_not_mem_of_mem_lines (List.mem_of_mem_drop hm)) hafter
      (by rw [← after, hlast]; exact List.not_mem_nil) hopen
    rw [htake] at hend
    obtain ⟨s, hs⟩ := (mem_new_iff h hl hcut).mp hmem
    refine Or.inr ⟨f, r, by rw [hblock], ?_, ⟨?_, hs.opened, ?_⟩, ?_⟩
    · rw [Option.bind_some, hopen, hk,
        List.getElem?_append_right (by omega), show (k + 1 : Int).toNat - 1 = k by omega, htake,
        Nat.sub_self, List.getElem?_cons_zero]
    · rw [closings_eq hl]
      exact List.mem_append_right _ (List.mem_append_right _ hr)
    · show line + 1 < r.line
      omega
    · rw [Option.bind_some, hk, hend, hline, Option.map_some]
      congr 1
      omega

theorem toLine_resolve? {rest : List Char} (hrest : fromLine? line cs = some rest) :
    (resolve? cs line).map (·.toLine) = endAt? (Element.tagsFrom line rest) cs line := by
  rw [resolve?_eq hrest]
  apply toLine_spanAt?
  intro e he
  obtain ⟨-, -, -, hlines⟩ := fromLine?_spec hrest
  have := Element.line_of_mem_tagsFrom he
  rw [hlines, List.length_drop] at this
  omega

/-- **A block fold ends where a block of its first line is closed**, when nothing is wrong with
the nesting. -/
theorem resolve?_closes (h : ∀ f ∈ (analyze options cs).findings, f.cause.category ≠ .structural)
    (hl : (Text.lines cs)[line]? = some l) {tag : Block}
    (htag : blockOpener? (lineEvents l) = some tag) :
    ∃ span f r, resolve? cs line = some span ∧ span.fromLine = line ∧ line < span.toLine ∧
      (f, r) ∈ closings options cs ∧ f.block = tag ∧ f.line = line + 1 ∧
      r.line = span.toLine + 1 := by
  obtain ⟨rest, hrest⟩ := exists_fromLine? (List.getElem?_eq_some_iff.mp hl).1
  rcases blockEndAt?_cases h hl with ⟨hnone, -, -⟩ | ⟨f, r, hsome, -, hopen, hend⟩
  · rw [htag] at hnone
    exact absurd hnone (by simp)
  · have hto := toLine_resolve? hrest
    rw [endAt?, hend, Option.orElse_some] at hto
    obtain ⟨span, hspan, hline⟩ := Option.map_eq_some_iff.mp hto
    have hlater := hopen.later
    dsimp only at hlater
    refine ⟨span, f, r, hspan, ?_, by omega, hopen.closes, ?_, hopen.opened, by omega⟩
    · rw [resolve?_eq hrest] at hspan
      exact fromLine_of_spanAt? hspan
    · exact Option.some.inj (hsome.symm.trans htag)

/-- A line may close a block, open two and go on with the inner one: the fold ends with it. -/
theorem resolve?_closes_inner :
    ∃ cs, cs = ("\x7b% if a %\x7d\n\x7b% endif %\x7d\x7b% if b %\x7d\x7b% if c %\x7d\n" ++
        "\x7b% endif %\x7d\n\x7b% endif %\x7d").toList ∧
      resolve? cs 1 = some ⟨1, 0, 2, 11⟩ ∧
      ∃ span f r, resolve? cs 1 = some span ∧ span.fromLine = 1 ∧ 1 < span.toLine ∧
        (f, r) ∈ closings .standard cs ∧ f.block = .conditional ∧ f.line = 2 ∧
        r.line = span.toLine + 1 := by
  refine ⟨_, rfl, by decide +kernel, ?_⟩
  exact resolve?_closes (l := "\x7b% endif %\x7d\x7b% if b %\x7d\x7b% if c %\x7d".toList)
    (by decide +kernel) (by decide +kernel) (by decide +kernel)

/-! ### The first block left open -/

/-- The first block that a line leaves open, with the region that closes it. -/
structure FirstLeftOpen (options : LintOptions) (cs : List Char) (line : Nat)
    (p : Frame × Region) : Prop extends LeftOpen options cs line p where
  first : ∀ q, LeftOpen options cs line q → p.1.column ≤ q.1.column

instance (p : Frame × Region) : Decidable (LeftOpen options cs line p) :=
  decidable_of_iff (p ∈ closings options cs ∧ p.1.line = line + 1 ∧ line + 1 < p.2.line)
    ⟨fun h => ⟨h.1, h.2.1, h.2.2⟩, fun h => ⟨h.closes, h.opened, h.later⟩⟩

instance (p : Frame × Region) : Decidable (FirstLeftOpen options cs line p) :=
  decidable_of_iff (LeftOpen options cs line p ∧
      ∀ q ∈ closings options cs, LeftOpen options cs line q → p.1.column ≤ q.1.column)
    ⟨fun h => ⟨h.1, fun q hq => h.2 q hq.closes hq⟩, fun h => ⟨h.toLeftOpen, fun q _ => h.first q⟩⟩

/-- On the stack the first block left open lies below the others of its line. -/
theorem exists_eq_append_of_firstLeftOpen
    (h : ∀ f ∈ (analyze options cs).findings, f.cause.category ≠ .structural)
    (hl : (Text.lines cs)[line]? = some l)
    (hcut : Cut options (openBefore options cs line) (Region.ofLine l (line + 1)) new gone old)
    {f : Frame} {r : Region} (hfirst : FirstLeftOpen options cs line (f, r)) :
    ∃ inner, new = inner ++ [f] := by
  have hmem : f ∈ new := (mem_new_iff h hl hcut).mpr ⟨r, hfirst.toLeftOpen⟩
  have hsorted : new.Pairwise fun f g => g.column < f.column :=
    List.pairwise_reverse.mp ((pairwise_openings (newline_not_mem hl) _).sublist hcut.opened)
  obtain ⟨inner, g, rfl⟩ := (List.eq_nil_or_concat' new).resolve_left (List.ne_nil_of_mem hmem)
  refine ⟨inner, ?_⟩
  obtain ⟨s, hs⟩ := (mem_new_iff h hl hcut).mp (List.mem_append_right inner List.mem_cons_self)
  rcases List.mem_append.mp hmem with hinner | hlast
  · have hlt := (List.pairwise_append.mp hsorted).2.2 f hinner g List.mem_cons_self
    have hle := hfirst.first _ hs
    dsimp only at hle
    omega
  · rw [List.mem_singleton.mp hlast]

/-- **The first block left open is followed** when the query takes its tag, and the line closes
no block of this tag from an earlier line. -/
theorem followed?_eq_some_iff
    (h : ∀ f ∈ (analyze options cs).findings, f.cause.category ≠ .structural)
    (hl : (Text.lines cs)[line]? = some l) {f : Frame} {r : Region}
    (hfirst : FirstLeftOpen options cs line (f, r)) :
    followed? options cs line = some f ↔ blockOpener? (lineEvents l) = some f.block ∧
      ∀ q ∈ closings options cs, q.1.block = f.block → q.2.line = line + 1 → line < q.1.line := by
  obtain ⟨new, gone, old, hcut⟩ :=
    exists_cut options (openBefore options cs line) (Region.ofLine l (line + 1))
  obtain ⟨inner, rfl⟩ := exists_eq_append_of_firstLeftOpen h hl hcut hfirst
  have hlen := length_openOf_new h hl hcut f.block
  have hstack : openBefore options cs (line + 1) = _ := openBefore_succ hl
  rw [hcut.after] at hstack
  -- The block lies on all blocks of its tag that the line has opened behind it.
  have hplace : (openOf f.block (openBefore options cs (line + 1)))[
      (openOf f.block inner).length]? = some f := by
    rw [hstack, openOf_append, openOf_append, List.append_assoc, openOf_cons, if_pos rfl,
      List.cons_append, List.getElem?_append_right (Nat.le_refl _), Nat.sub_self,
      List.getElem?_cons_zero]
  have hinner : (openOf f.block (inner ++ [f])).length = (openOf f.block inner).length + 1 := by
    rw [openOf_append, openOf_cons, if_pos rfl, List.length_append]
    rfl
  have hgone : (∀ q ∈ closings options cs, q.1.block = f.block → q.2.line = line + 1 →
      line < q.1.line) ↔ openOf f.block gone = [] := by
    rw [List.eq_nil_iff_forall_not_mem]
    constructor
    · intro hnone g hg
      obtain ⟨hmem, hblock⟩ := mem_openOf.mp hg
      obtain ⟨s, hs, hline, hat⟩ := (mem_gone_iff hl hcut).mp hmem
      exact Nat.not_lt_of_le hline (hnone _ hs hblock hat)
    · rintro hnone ⟨g, s⟩ hs hblock hat
      by_contra hline
      exact hnone g (mem_openOf.mpr
        ⟨(mem_gone_iff hl hcut).mpr ⟨s, hs, Nat.le_of_not_lt hline, hat⟩, hblock⟩)
  rw [hgone, followed?_eq hl]
  constructor
  · intro hfollowed
    obtain ⟨tag, htag, hat⟩ := Option.bind_eq_some_iff.mp hfollowed
    obtain rfl : f.block = tag := (mem_openOf.mp (List.mem_of_getElem? hat)).2
    have hpos := blockBalance_pos htag
    have hsame := (List.getElem?_inj (List.getElem?_eq_some_iff.mp hplace).1
      (nodup_openBefore.filter _)).mp (hplace.trans hat.symm)
    refine ⟨htag, List.length_eq_zero_iff.mp ?_⟩
    omega
  · rintro ⟨htag, hnone⟩
    rw [htag, Option.bind_some, ← hplace]
    rw [hnone, List.length_nil] at hlen
    congr 1
    omega

/-- **When a fold ends where the first block left open is closed**: the block that the query
follows is closed on the same line, or no block is followed, and the element or pair ends
there.  It is so when the query takes the tag of the block, and the line closes no block of
this tag from an earlier line. -/
theorem ends_firstLeftOpen_iff
    (h : ∀ f ∈ (analyze options cs).findings, f.cause.category ≠ .structural)
    (hl : (Text.lines cs)[line]? = some l) {f : Frame} {r : Region}
    (hfirst : FirstLeftOpen options cs line (f, r)) :
    ((resolve? cs line).map (·.toLine + 1) = some r.line ↔
      (∃ g s, followed? options cs line = some g ∧ LeftOpen options cs line (g, s) ∧
        s.line = r.line) ∨
      (blockOpener? (lineEvents l) = none ∧ ∃ rest, fromLine? line cs = some rest ∧
        (markupEndAt? (Element.tagsFrom line rest) cs line).map (· + 1) = some r.line)) ∧
    (blockOpener? (lineEvents l) = some f.block →
      (∀ q ∈ closings options cs, q.1.block = f.block → q.2.line = line + 1 → line < q.1.line) →
        (resolve? cs line).map (·.toLine + 1) = some r.line) := by
  obtain ⟨rest, hrest⟩ := exists_fromLine? (List.getElem?_eq_some_iff.mp hl).1
  have hends : (resolve? cs line).map (·.toLine + 1) =
      (endAt? (Element.tagsFrom line rest) cs line).map (· + 1) := by
    rw [← toLine_resolve? hrest, Option.map_map]
    rfl
  have hiff : (resolve? cs line).map (·.toLine + 1) = some r.line ↔
      (∃ g s, followed? options cs line = some g ∧ LeftOpen options cs line (g, s) ∧
        s.line = r.line) ∨
      (blockOpener? (lineEvents l) = none ∧ ∃ rest, fromLine? line cs = some rest ∧
        (markupEndAt? (Element.tagsFrom line rest) cs line).map (· + 1) = some r.line) := by
    rw [hends, endAt?]
    rcases blockEndAt?_cases h hl with ⟨hnone, hfollowed, hend⟩ |
      ⟨g, s, hsome, hfollowed, hopen, hend⟩
    · rw [hend, hfollowed, hrest]
      simp [hnone]
    · have hlater := hopen.later
      dsimp only at hlater
      rw [hend, Option.orElse_some, Option.map_some, Nat.sub_add_cancel (by omega), hfollowed]
      constructor
      · intro heq
        exact Or.inl ⟨g, s, rfl, hopen, Option.some.inj heq⟩
      · rintro (⟨g', s', hg, hs, heq⟩ | ⟨hnone, -⟩)
        · obtain rfl := Option.some.inj hg
          rw [hopen.unique hs, heq]
        · rw [hsome] at hnone
          exact absurd hnone (by simp)
  refine ⟨hiff, fun htag hearlier => hiff.mpr (Or.inl ⟨f, r, ?_, hfirst.toLeftOpen, rfl⟩)⟩
  exact (followed?_eq_some_iff h hl hfirst).mpr ⟨htag, hearlier⟩

/-- A line may close one block and open a block of another tag: the fold ends with the latter. -/
theorem ends_firstLeftOpen_loop :
    ∃ cs f r, cs = ("\x7b% if a %\x7d\n\x7b% endif %\x7d\x7b% for b in c %\x7d\n" ++
        "\x7b% endfor %\x7d").toList ∧
      FirstLeftOpen .standard cs 1 (f, r) ∧ (resolve? cs 1).map (·.toLine + 1) = some r.line := by
  refine ⟨_, ⟨.loop, 2, 12⟩, ⟨.template .statement, ⟨3, 1, 0⟩, ⟨3, 13, 12⟩,
    "\x7b% endfor %\x7d".toList⟩, rfl, ?_⟩
  generalize hcs : ("\x7b% if a %\x7d\n\x7b% endif %\x7d\x7b% for b in c %\x7d\n" ++
    "\x7b% endfor %\x7d").toList = cs
  have hfirst : FirstLeftOpen .standard cs 1 (⟨.loop, 2, 12⟩, ⟨.template .statement, ⟨3, 1, 0⟩,
      ⟨3, 13, 12⟩, "\x7b% endfor %\x7d".toList⟩) := by
    subst hcs
    decide +kernel
  refine ⟨hfirst, (ends_firstLeftOpen_iff
    (l := "\x7b% endif %\x7d\x7b% for b in c %\x7d".toList) ?_ ?_ hfirst).2 ?_ ?_⟩ <;>
  · subst hcs
    decide +kernel

/-- A line that closes a block and opens one of the same tag starts no fold. -/
theorem no_fold_firstLeftOpen :
    ∃ cs f r, cs = ("\x7b% if a %\x7d\n\x7b% endif %\x7d\x7b% if b %\x7d\n" ++
        "\x7b% endif %\x7d").toList ∧
      (∀ f ∈ (analyze .standard cs).findings, f.cause.category ≠ .structural) ∧
      FirstLeftOpen .standard cs 1 (f, r) ∧ resolve? cs 1 = none :=
  ⟨_, ⟨.conditional, 2, 12⟩, ⟨.template .statement, ⟨3, 1, 0⟩, ⟨3, 12, 11⟩,
    "\x7b% endif %\x7d".toList⟩, rfl, by decide +kernel, by decide +kernel, by decide +kernel⟩

end Document

end TwigTemplate.Fold
