import TwigTemplate.Proofs.Completion.Context
import TwigTemplate.Proofs.Completion.Snippets

/-!
# Accepting what is offered

An item is accepted when it takes the place of the word being typed, or a snippet that of the open
statement, and the region is closed.  What is offered for a filter or a tag is then read as one, and
it is known.  The array functions are offered in the place of both, and the plain keywords as tags,
though these never start a statement: they are not known.

* `accepted`: the text when an item is accepted.
* `exists_region_accepted`: **only the open region is changed**.
* `filterCalls_typed`, `reportedName_typed`: **a name is read as the last filter**, the tag stays.
* `denied_tag_iff`, `denied_filter_iff`: when a name is said to be unknown.
* `Item.Fits`: the item may stand where it is offered.
* `offered_known_iff`: **what is offered is known exactly when it fits**.
* `offered_unknown`: an array function and a keyword are offered and reported as unknown.
-/

namespace TwigTemplate.Completion

open Analysis (Known regionCauses)
open Literal (FilterCall after after_append after_outside filterCalls filterCalls_append)
open Region (Piece Words framed locate piece pieces spell)
open Text (isBlank isWordChar)

/-! ### The text when an item is accepted -/

/-- The text before the region that is open at the end of a line. -/
def beforeOpen (line : List Char) : List Char :=
  spell (pieces .line line).dropLast

/-- What closes the region that is open at the end of a line. -/
def closerAt (line : List Char) : List Char :=
  match openCode? line with
  | some (form, _) => form.closer
  | none => []

/-- The text when an item is accepted at the end of a line.  A name takes the place of the word
being typed, and the region is closed behind a gap; a snippet takes the place of the open
statement. -/
def accepted (indent gap line : List Char) (item : Item) : List Char :=
  match item.body? with
  | some body => beforeOpen line ++ (expand indent body).1
  | none => line.take (offerAt line).start ++ (item.name.toList ++ (gap ++ closerAt line))

/-- The filters of the open code before the one that is being typed. -/
def typedFilters (line : List Char) : List String :=
  match openCode? line with
  | some (_, code) =>
    (filterCalls (Text.trim code)).dropLast.map fun call => String.ofList call.name
  | none => []

/-- The tag of the open statement, as it is reported when it is unknown. -/
def typedTag (line : List Char) : String :=
  match openCode? line with
  | some (.statement, code) => String.ofList (Statement.ofContent (Text.trim code)).reportedName
  | _ => ""

/-- What would be said of an item that is unknown.  For a filter that is its name, or a filter that
was not there before; for a tag any name in the statement that it stands for. -/
def Denies (line : List Char) (item : Item) (c : Cause) : Prop :=
  match contextAt line with
  | .filter =>
    (∃ name, c = .unknownFilter name ∧ (name = item.name ∨ name ∉ typedFilters line)) ∨
      c = .unknownTag item.name ∧ item.name ≠ typedTag line
  | _ => ∃ name, c = .unknownTag name ∨ c = .unknownFilter name

/-- The item may stand where it is offered.  A plain keyword never starts a statement.  An array
function is neither a filter nor a tag, but the filters of a statement are not looked at. -/
def Item.Fits (line : List Char) : Item → Prop
  | .keyword e => e ∉ Vocabulary.keywords
  | .function _ =>
    contextAt line = .filter ∧ (openCode? line).map Prod.fst = some .statement
  | _ => True

/-! ### What is offered -/

theorem mem_of_mem_narrow {word : List Char} {items : List Item} {item : Item}
    (h : item ∈ narrow word items) : item ∈ items := by
  rw [narrow] at h
  dsimp only at h
  rw [List.partition_eq_filter_filter] at h
  rcases List.mem_append.mp h with h | h
  · exact List.mem_of_mem_filter (List.mem_of_mem_filter h)
  · exact List.mem_of_mem_filter (List.mem_of_mem_filter h)

/-- The functions that a word in `array_` stands for. -/
def arrayFunctions : List Vocabulary.Entry :=
  Vocabulary.functions.filter fun e => Text.startsWith arrayStart e.name.toList

theorem mem_arrayFunctions {item : Item}
    (h : item ∈ functionItems.filter fun item => Text.startsWith arrayStart item.name.toList) :
    ∃ e ∈ arrayFunctions, item = .function e := by
  obtain ⟨hitem, hstart⟩ := List.mem_filter.mp h
  obtain ⟨e, he, rfl⟩ := List.mem_map.mp hitem
  exact ⟨e, List.mem_filter.mpr ⟨he, hstart⟩, rfl⟩

theorem mem_offer_filter {line : List Char} {item : Item} (hcontext : contextAt line = .filter)
    (h : item ∈ (offerAt line).items) : (∃ e ∈ Vocabulary.filters, item = .filter e) ∨
      ∃ e ∈ arrayFunctions, item = .function e := by
  have h := mem_of_mem_narrow h
  rw [hcontext, contextItems, if_neg (by simp)] at h
  split at h
  · exact Or.inr (mem_arrayFunctions h)
  · obtain ⟨e, he, rfl⟩ := List.mem_map.mp h
    exact Or.inl ⟨e, he, rfl⟩

theorem mem_offer_tag {line : List Char} {item : Item} (hcontext : contextAt line = .tag)
    (h : item ∈ (offerAt line).items) : (∃ s ∈ Vocabulary.snippets, item = .snippet s) ∨
      (∃ e ∈ Vocabulary.tags ++ Vocabulary.closers ++ Vocabulary.keywords, item = .keyword e) ∨
      ∃ e ∈ arrayFunctions, item = .function e := by
  have h := mem_of_mem_narrow h
  rw [hcontext, contextItems, if_neg (by simp)] at h
  split at h
  · exact Or.inr (Or.inr (mem_arrayFunctions h))
  · have h : item ∈ tagItems := h
    rw [tagItems, List.append_assoc, List.append_assoc, List.mem_append] at h
    rcases h with h | h
    · obtain ⟨s, hs, rfl⟩ := List.mem_map.mp h
      exact Or.inl ⟨s, hs, rfl⟩
    · rw [← List.map_append, ← List.map_append] at h
      obtain ⟨e, he, rfl⟩ := List.mem_map.mp h
      rw [← List.append_assoc] at he
      exact Or.inr (Or.inl ⟨e, (List.Sublist.append_right
        (List.Sublist.append_right List.filter_sublist _) _).subset he, rfl⟩)

theorem filter_of_mem {e : Vocabulary.Entry} (he : e ∈ Vocabulary.filters) :
    e.name.toList ≠ [] ∧ (∀ c ∈ e.name.toList, isWordChar c = true) ∧
      Vocabulary.isFilter e.name.toList = true := by
  have hall : ∀ e ∈ Vocabulary.filters, e.name.toList ≠ [] ∧ e.name.toList.all isWordChar = true ∧
      Vocabulary.isFilter e.name.toList = true := by decide +kernel
  obtain ⟨hne, hname, hfilter⟩ := hall e he
  exact ⟨hne, List.all_eq_true.mp hname, hfilter⟩

theorem arrayFunction_of_mem {e : Vocabulary.Entry} (he : e ∈ arrayFunctions) :
    e.name.toList ≠ [] ∧ (∀ c ∈ e.name.toList, isWordChar c = true) ∧
      Vocabulary.isFilter e.name.toList = false ∧
        (Statement.ofContent e.name.toList).role = .unknown := by
  have hall : ∀ e ∈ arrayFunctions, e.name.toList ≠ [] ∧ e.name.toList.all isWordChar = true ∧
      Vocabulary.isFilter e.name.toList = false ∧
        (Statement.ofContent e.name.toList).role = .unknown := by decide +kernel
  obtain ⟨hne, hname, hother⟩ := hall e he
  exact ⟨hne, List.all_eq_true.mp hname, hother⟩

/-- Of the tags and keywords, which are made of words, the plain keywords are unknown as tags. -/
theorem keyword_of_mem {e : Vocabulary.Entry}
    (he : e ∈ Vocabulary.tags ++ Vocabulary.closers ++ Vocabulary.keywords) :
    Words e.name.toList ∧ Text.trim e.name.toList = e.name.toList ∧
      ((Statement.ofContent e.name.toList).role = .unknown ↔ e ∈ Vocabulary.keywords) := by
  have hall : ∀ e ∈ Vocabulary.tags ++ Vocabulary.closers ++ Vocabulary.keywords,
      Words e.name.toList ∧ Text.trim e.name.toList = e.name.toList ∧
        ((Statement.ofContent e.name.toList).role = .unknown ↔ e ∈ Vocabulary.keywords) := by
    decide +kernel
  exact hall e he

/-! ### How an accepted name is read -/

section Reading

variable {p b w gap : List Char}

theorem trim_typed (hb : ∀ c ∈ b, isBlank c = true) (hw : Text.trim w = w)
    (hgap : ∀ c ∈ gap, isBlank c = true) : Text.trim (b ++ (w ++ gap)) = w := by
  rw [Text.trim_eq_trimBy, Text.trimBy_append_left hb, Text.trimBy_append_right _ hgap,
    ← Text.trim_eq_trimBy, hw]

/-- **A word behind a pipe is read as the last filter**, whatever stands before the pipe. -/
theorem filterCalls_typed (hp : after .outside p = .outside) (hb : ∀ c ∈ b, isBlank c = true)
    (hw : ∀ c ∈ w, isWordChar c = true) (hgap : ∀ c ∈ gap, isBlank c = true) :
    filterCalls (Text.trim (p ++ '|' :: (b ++ (w ++ gap)))) =
      filterCalls (p.dropWhile isBlank) ++ [⟨w, w⟩] := by
  obtain ⟨u, hu, hblank⟩ := Text.exists_eq_rdropWhile_append isBlank (b ++ (w ++ gap))
  have hmem : ∀ c ∈ (b ++ (w ++ gap)).rdropWhile isBlank, Region.isQuote c = false ∧ c ≠ '|' := by
    intro c hc
    have hc : c ∈ b ++ (w ++ gap) := hu ▸ List.mem_append_left _ hc
    rcases List.mem_append.mp hc with hc | hc
    · exact ⟨Region.isQuote_of_isBlank (hb c hc), Region.ne_of_isBlank (hb c hc) (by decide)⟩
    · rcases List.mem_append.mp hc with hc | hc
      · exact ⟨Region.isQuote_of_isWordChar (hw c hc), Text.ne_of_isWordChar (hw c hc) (by decide)⟩
      · exact ⟨Region.isQuote_of_isBlank (hgap c hc), Region.ne_of_isBlank (hgap c hc) (by decide)⟩
  have hstart : after .outside (p.dropWhile isBlank) = .outside := by
    rw [← List.takeWhile_append_dropWhile (p := isBlank) (l := p), after_append,
      after_outside fun c hc => Region.isQuote_of_isBlank (List.mem_takeWhile_imp hc)] at hp
    exact hp
  have hcall : FilterCall.ofPart ((b ++ (w ++ gap)).rdropWhile isBlank) = ⟨w, w⟩ := by
    have htrim : Text.trim ((b ++ (w ++ gap)).rdropWhile isBlank) = w := by
      have hword := trim_typed hb (Text.trim_word hw) hgap
      rw [hu, Text.trim_eq_trimBy, Text.trimBy_append_right _ hblank,
        ← Text.trim_eq_trimBy] at hword
      exact hword
    rw [FilterCall.ofPart, htrim, Text.leadingWord_eq hw]
  rw [Text.trim_eq_trimBy, Text.trimBy_append_ink (by decide),
    filterCalls_append hstart (fun c hc => (hmem c hc).1) fun hc => (hmem _ hc).2 rfl, hcall]

theorem trim_pipe (p u : List Char) : Text.trim (Text.trim (p ++ '|' :: u)) =
    p.dropWhile isBlank ++ '|' :: u.rdropWhile isBlank := by
  rw [Text.trim_eq_trimBy, Text.trim_eq_trimBy, Text.trimBy_trimBy,
    Text.trimBy_append_ink (by decide)]

theorem leadingWord_pipe (p u : List Char) :
    (Text.leadingWord (p ++ '|' :: u)).1 = (Text.leadingWord p).1 := by
  show (p ++ '|' :: u).takeWhile isWordChar = p.takeWhile isWordChar
  induction p with
  | nil => rfl
  | cons c p ih => rw [List.cons_append, List.takeWhile_cons, List.takeWhile_cons, ih]

theorem keyword_of_word (u : List Char) (h : (Text.leadingWord (p.dropWhile isBlank)).1 ≠ []) :
    (Statement.ofContent (Text.trim (p ++ '|' :: u))).keyword =
      (Text.leadingWord (p.dropWhile isBlank)).1 := by
  rw [Statement.ofContent, trim_pipe]
  dsimp only
  rw [leadingWord_pipe, if_neg (by simpa using h)]

theorem keyword_of_symbol (u : List Char) (h : (Text.leadingWord (p.dropWhile isBlank)).1 = []) :
    ∃ d rest, (Statement.ofContent (Text.trim (p ++ '|' :: u))).keyword = d :: rest ∧
      isWordChar d = false := by
  rw [Statement.ofContent, trim_pipe]
  dsimp only
  rw [leadingWord_pipe, h]
  show ∃ d rest, (p.dropWhile isBlank ++ '|' :: u.rdropWhile isBlank).takeWhile (!isBlank ·) =
    d :: rest ∧ isWordChar d = false
  cases hp : p.dropWhile isBlank with
  | nil => exact ⟨'|', _, List.takeWhile_cons_of_pos (by decide), by decide⟩
  | cons d rest =>
    have hhead : d ∈ (p.dropWhile isBlank).head? := by
      rw [hp]
      rfl
    have hblank : isBlank d = false := Text.not_of_head?_dropWhile d hhead
    rw [hp, Text.leadingWord] at h
    have hword : isWordChar d = false := by
      cases hd : isWordChar d with
      | false => rfl
      | true => exact absurd h (by rw [List.takeWhile_cons_of_pos hd]; simp)
    exact ⟨d, _, List.takeWhile_cons_of_pos (by simp [hblank]), hword⟩

theorem reportedName_eq {s : Statement} {d : Char} {rest : List Char} (h : s.keyword = d :: rest)
    (hd : isWordChar d = false) : s.reportedName = d :: rest := by
  have hend : 'e' ≠ d := Text.ne_of_isWordChar (by decide) hd
  rw [Statement.reportedName, Statement.base, h, Statement.endMark, Text.after?, if_neg hend]
  rfl

/-- **A statement keeps its tag** when a word behind a pipe is accepted. -/
theorem reportedName_typed (u v : List Char) (hw : ∀ c ∈ w, isWordChar c = true)
    (h : (Statement.ofContent (Text.trim (p ++ '|' :: u))).reportedName = w) :
    (Statement.ofContent (Text.trim (p ++ '|' :: v))).reportedName = w := by
  by_cases hstart : (Text.leadingWord (p.dropWhile isBlank)).1 = []
  · obtain ⟨d, rest, hkeyword, hd⟩ := keyword_of_symbol u hstart
    rw [reportedName_eq hkeyword hd] at h
    exact absurd (hw d (h ▸ List.mem_cons_self)) (by simp [hd])
  · rw [Statement.reportedName, Statement.base, keyword_of_word u hstart] at h
    rw [Statement.reportedName, Statement.base, keyword_of_word v hstart, h]

end Reading

/-! ### The regions of the text -/

theorem eq_of_mem_locate_concat {ps : List Piece} (hps : '\n' ∉ spell ps)
    (hne : ∀ q ∈ ps, q.raw ≠ []) (p : Piece) {start : Point} :
    ∀ r ∈ locate start (ps ++ [p]), start.column + (spell ps).length ≤ r.column →
      r = ⟨p.kind, start.advance (spell ps), (start.advance (spell ps)).advance p.raw, p.raw⟩ := by
  induction ps generalizing start with
  | nil => exact fun r hr _ => List.mem_singleton.mp hr
  | cons q ps ih =>
    rw [Region.spell_cons, List.mem_append, not_or] at hps
    obtain ⟨hfirst, hlater⟩ := List.forall_mem_cons.mp hne
    intro r hr hplace
    rw [Region.spell_cons, List.length_append] at hplace
    rw [Region.spell_cons, Point.advance_append]
    rcases List.mem_cons.mp hr with rfl | hr
    · have hlength := List.length_pos_iff.mpr hfirst
      have hplace : start.column + (q.raw.length + (spell ps).length) ≤ start.column := hplace
      omega
    · refine ih hps.2 hlater r hr ?_
      rw [Point.advance_column hps.1]
      omega

theorem mem_locate_concat (ps : List Piece) (p : Piece) (start : Point) :
    ⟨p.kind, start.advance (spell ps), (start.advance (spell ps)).advance p.raw, p.raw⟩ ∈
      locate start (ps ++ [p]) := by
  induction ps generalizing start with
  | nil => exact List.mem_cons_self
  | cons q ps ih =>
    rw [Region.spell_cons, Point.advance_append]
    exact List.mem_cons_of_mem _ (ih (start.advance q.raw))

theorem closerAt_eq {line code : List Char} {form : Form} (h : openCode? line = some (form, code)) :
    closerAt line = form.closer := by
  rw [closerAt, h]

theorem take_start (line : List Char) :
    line.take (offerAt line).start = (Text.trailingWord line).1 := by
  have hlength := congrArg List.length (Text.trailingWord_append line)
  rw [List.length_append] at hlength
  have hstart : (offerAt line).start = (Text.trailingWord line).1.length := by
    show line.length - (Text.trailingWord line).2.length = _
    omega
  rw [hstart]
  exact (congrArg (List.take _) (Text.trailingWord_append line).symm).trans List.take_left

/-- **Only the open region is changed** by a name that is accepted. -/
theorem exists_region_accepted {line indent gap left code word : List Char} {form : Form}
    {before : List Piece} (item : Item) (h : Typing line form before left code word)
    (hline : '\n' ∉ line) (hcloser : closerAt line = form.closer) (hbody : item.body? = none)
    (hwords : Words item.name.toList) (hgap : ∀ c ∈ gap, isBlank c = true ∧ c ≠ '\n') :
    ∃ r ∈ (Region.ofLines (accepted indent gap line item)).flatten,
      (beforeOpen line).length < r.column ∧ r.kind = .template form ∧
      r.content = Text.trim (code ++ (item.name.toList ++ gap)) ∧
      ∀ s ∈ (Region.ofLines (accepted indent gap line item)).flatten,
        (beforeOpen line).length < s.column ∨ 1 < s.line → s = r := by
  have hwords := hwords.append_gap hgap
  obtain ⟨hpieces, hframe⟩ := h.pieces_accept hline hwords
  have htext : accepted indent gap line item =
      (Text.trailingWord line).1 ++ ((item.name.toList ++ gap) ++ form.closer) := by
    rw [accepted, hbody]
    dsimp only
    rw [take_start, hcloser, List.append_assoc]
  have hword : '\n' ∉ (Text.trailingWord line).1 := fun hmem =>
    hline (Text.trailingWord_append line ▸ List.mem_append_left _ hmem)
  have hbefore := h.newline_not_mem_before hline
  have hfree : '\n' ∉ accepted indent gap line item := by
    rw [htext]
    exact fun hmem => (List.mem_append.mp hmem).elim hword
      (hwords.tail_closed form).not_mem_newline
  have hraw : ∀ q ∈ before, q.raw ≠ [] := fun q hq =>
    Region.raw_ne_nil_of_mem_pieces q (h.cut ▸ List.mem_append_left _ hq)
  have hregions : (Region.ofLines (accepted indent gap line item)).flatten =
      locate ⟨1, 1, 0⟩ (before ++ [⟨.template form,
        framed form left (code ++ (item.name.toList ++ gap)) []⟩]) := by
    rw [Region.ofLines, Region.flatten_ofLinesFrom_lines hfree, Region.ofLine, htext, hpieces]
  have hlast := mem_locate_concat before ⟨.template form,
    framed form left (code ++ (item.name.toList ++ gap)) []⟩ ⟨1, 1, 0⟩
  refine ⟨_, hregions ▸ hlast, ?_, rfl, ?_, fun s hs hplace => ?_⟩
  · show (beforeOpen line).length < (Point.advance ⟨1, 1, 0⟩ (spell before)).column
    rw [Point.advance_column hbefore, beforeOpen, h.spell_dropLast]
    exact Nat.lt_add_of_pos_left Nat.one_pos
  · rw [Region.content, if_neg (by simp), Region.body_frame hframe]
  · have hrow : s.line = 1 := by
      rw [Region.ofLines, Region.flatten_ofLinesFrom_lines hfree] at hs
      exact Analysis.line_of_mem_ofLine hfree s hs
    have hcolumn := hplace.resolve_right (by rw [hrow]; exact Nat.lt_irrefl 1)
    rw [beforeOpen, h.spell_dropLast] at hcolumn
    rw [hregions] at hs
    exact eq_of_mem_locate_concat hbefore hraw _ s hs
      (show 1 + (spell before).length ≤ s.column by omega)

/-! ### What is said of what was accepted -/

section Offered

variable {options : LintOptions} {line indent gap : List Char} {item : Item}

/-- Some finding at the place of the open region, or behind it, says that an item is unknown that
was accepted there. -/
def Denied (options : LintOptions) (indent gap line : List Char) (item : Item) : Prop :=
  ∃ f ∈ (analyze options (accepted indent gap line item)).findings,
    ((beforeOpen line).length < f.column ∨ 1 < f.line) ∧ Denies line item f.cause

theorem Denies.category_eq {c : Cause} (h : Denies line item c) : c.category = .semantic := by
  rw [Denies] at h
  split at h
  · rcases h with ⟨name, rfl, -⟩ | ⟨rfl, -⟩ <;> rfl
  · rcases h with ⟨name, rfl | rfl⟩ <;> rfl

theorem not_denied_of_known (h : ∀ r ∈ (Region.ofLines (accepted indent gap line item)).flatten,
    (beforeOpen line).length < r.column ∨ 1 < r.line → Known (Region.piece r)) :
    ¬ Denied options indent gap line item := by
  rintro ⟨f, hf, hplace, hdenies⟩
  obtain ⟨r, hr, st, hrow, hcolumn, hcause⟩ :=
    Analysis.exists_region_of_semantic hf hdenies.category_eq
  rw [hrow, hcolumn] at hplace
  exact (h r hr hplace).category_ne _ hcause hdenies.category_eq

/-- When only one region is at the place of the open one, it decides what is said. -/
theorem denied_iff_of_region {r : Region} {P : Prop}
    (hr : r ∈ (Region.ofLines (accepted indent gap line item)).flatten)
    (hcolumn : (beforeOpen line).length < r.column)
    (honly : ∀ s ∈ (Region.ofLines (accepted indent gap line item)).flatten,
      (beforeOpen line).length < s.column ∨ 1 < s.line → s = r)
    (h : ∀ st, (∃ c ∈ (regionCauses options r st).2, Denies line item c) ↔ P) :
    Denied options indent gap line item ↔ P := by
  constructor
  · rintro ⟨f, hf, hplace, hdenies⟩
    obtain ⟨s, hs, st, hrow, hcol, hcause⟩ :=
      Analysis.exists_region_of_semantic hf hdenies.category_eq
    rw [hrow, hcol] at hplace
    obtain rfl := honly s hs hplace
    exact (h st).mp ⟨f.cause, hcause, hdenies⟩
  · intro hP
    obtain ⟨st, hst⟩ := Analysis.exists_finding_of_mem hr
    obtain ⟨c, hc, hdenies⟩ := (h st).mpr hP
    exact ⟨_, hst c hc, Or.inl hcolumn, hdenies⟩

/-- Where a tag stands, a name is unknown when a statement with it is. -/
theorem denied_tag_iff (item : Item) (hline : '\n' ∉ line) (hcontext : contextAt line = .tag)
    (hgap : ∀ c ∈ gap, isBlank c = true ∧ c ≠ '\n') (hbody : item.body? = none)
    (hwords : Words item.name.toList) (htrim : Text.trim item.name.toList = item.name.toList) :
    Denied options indent gap line item ↔
      (Statement.ofContent item.name.toList).role = .unknown := by
  obtain ⟨before, left, b, w, htyping, hopen, hb⟩ := exists_typing_tag hcontext
  obtain ⟨r, hr, hcolumn, hkind, hcontent, honly⟩ :=
    exists_region_accepted item htyping hline (closerAt_eq hopen) hbody hwords hgap
  rw [trim_typed hb htrim fun c hc => (hgap c hc).1] at hcontent
  refine denied_iff_of_region hr hcolumn honly fun st => ?_
  rw [regionCauses, hkind]
  dsimp only
  rw [hcontent]
  constructor
  · rintro ⟨c, hc, hdenies⟩
    exact (Analysis.role_of_statementCauses c hc hdenies.category_eq).1
  · intro hrole
    refine ⟨_, Analysis.unknownTag_mem_statementCauses hwords.ne_nil hrole st, ?_⟩
    rw [Denies, hcontext]
    exact ⟨_, Or.inl rfl⟩

section Filter

variable {p b w : List Char}

theorem exists_denies_output_iff (hcontext : contextAt line = .filter)
    (hopen : openCode? line = some (.output, p ++ '|' :: (b ++ w)))
    (hp : after .outside p = .outside) (hb : ∀ c ∈ b, isBlank c = true)
    (hw : ∀ c ∈ w, isWordChar c = true) (hgap : ∀ c ∈ gap, isBlank c = true)
    (hne : item.name.toList ≠ []) (hname : ∀ c ∈ item.name.toList, isWordChar c = true) :
    (∃ c ∈ Analysis.outputCauses options
        (Text.trim (p ++ '|' :: (b ++ (item.name.toList ++ gap)))), Denies line item c) ↔
      Vocabulary.isFilter item.name.toList = false := by
  have hcalls := filterCalls_typed hp hb hname hgap
  have htyped : typedFilters line =
      (filterCalls (p.dropWhile isBlank)).map fun call => String.ofList call.name := by
    have hcalls := filterCalls_typed hp hb hw (List.forall_mem_nil (isBlank · = true))
    rw [List.append_nil] at hcalls
    rw [typedFilters, hopen]
    dsimp only
    rw [hcalls, List.dropLast_concat]
  constructor
  · rintro ⟨c, hc, hdenies⟩
    obtain ⟨call, hcall, hunknown, rfl⟩ :=
      Analysis.exists_call_of_outputCauses c hc hdenies.category_eq
    rw [hcalls] at hcall
    rw [Denies, hcontext] at hdenies
    rcases hdenies with ⟨name, heq, hdenies⟩ | ⟨heq, -⟩
    · obtain rfl := Cause.unknownFilter.inj heq
      rcases List.mem_append.mp hcall with hcall | hcall
      · rcases hdenies with hdenies | hdenies
        · rwa [← hdenies, String.toList_ofList]
        · exact absurd (htyped ▸ List.mem_map_of_mem hcall) hdenies
      · rwa [List.mem_singleton.mp hcall] at hunknown
    · exact absurd heq (by simp)
  · intro hunknown
    refine ⟨_, Analysis.unknownFilter_mem_outputCauses
      (hcalls ▸ List.mem_append_right _ List.mem_cons_self) hne hunknown, ?_⟩
    rw [Denies, hcontext]
    exact Or.inl ⟨_, rfl, Or.inl String.ofList_toList⟩

/-- Behind a pipe of a statement nothing is said of a name. -/
theorem not_denies_statement {r : Region} {st : List Analysis.Frame}
    (hcontext : contextAt line = .filter)
    (hopen : openCode? line = some (.statement, p ++ '|' :: (b ++ w)))
    (hname : ∀ c ∈ item.name.toList, isWordChar c = true) :
    ∀ c ∈ (Analysis.statementCauses options r
      (Text.trim (p ++ '|' :: (b ++ (item.name.toList ++ gap)))) st).2, ¬ Denies line item c := by
  intro c hc hdenies
  obtain ⟨-, rfl⟩ := Analysis.role_of_statementCauses c hc hdenies.category_eq
  rw [Denies, hcontext] at hdenies
  rcases hdenies with ⟨name, heq, -⟩ | ⟨heq, htag⟩
  · exact absurd heq (by simp)
  · have hreported := congrArg String.toList (Cause.unknownTag.inj heq)
    rw [String.toList_ofList] at hreported
    refine htag ?_
    rw [typedTag, hopen]
    dsimp only
    rw [reportedName_typed _ (b ++ w) hname hreported, String.ofList_toList]

end Filter

/-- After a pipe, a name is unknown when it is no filter and an output is open. -/
theorem denied_filter_iff (item : Item) (hline : '\n' ∉ line) (hcontext : contextAt line = .filter)
    (hgap : ∀ c ∈ gap, isBlank c = true ∧ c ≠ '\n') (hbody : item.body? = none)
    (hne : item.name.toList ≠ []) (hname : ∀ c ∈ item.name.toList, isWordChar c = true) :
    Denied options indent gap line item ↔ Vocabulary.isFilter item.name.toList = false ∧
      (openCode? line).map Prod.fst ≠ some .statement := by
  obtain ⟨form, before, left, p, b, w, htyping, hopen, hp, hb⟩ := exists_typing_filter hcontext
  obtain ⟨r, hr, hcolumn, hkind, hcontent, honly⟩ := exists_region_accepted item htyping hline
    (closerAt_eq hopen) hbody (.of_word hne hname) hgap
  rw [List.append_assoc, List.cons_append] at hcontent
  refine denied_iff_of_region hr hcolumn honly fun st => ?_
  rw [regionCauses, hkind]
  rw [hopen]
  cases form with
  | output =>
    dsimp only
    rw [hcontent]
    refine (exists_denies_output_iff hcontext hopen hp hb htyping.isWord
      (fun c hc => (hgap c hc).1) hne hname).trans ?_
    simp
  | statement =>
    dsimp only
    rw [hcontent]
    refine iff_of_false ?_ (by simp)
    rintro ⟨c, hc, hdenies⟩
    exact not_denies_statement hcontext hopen hname c hc hdenies
  | comment => exact absurd rfl htyping.inCode

/-- **No finding says that what was accepted is unknown** exactly when it may stand where it was
offered. -/
theorem offered_known_iff (options : LintOptions) {line indent gap : List Char} {item : Item}
    (hline : '\n' ∉ line) (hindent : ∀ c ∈ indent, isBlank c = true ∧ c ≠ '\n')
    (hgap : ∀ c ∈ gap, isBlank c = true ∧ c ≠ '\n')
    (hcontext : contextAt line = .filter ∨ contextAt line = .tag)
    (hitem : item ∈ (offerAt line).items) :
    ¬ Denied options indent gap line item ↔ item.Fits line := by
  rcases hcontext with hcontext | hcontext
  · rcases mem_offer_filter hcontext hitem with ⟨e, he, rfl⟩ | ⟨e, he, rfl⟩
    · obtain ⟨hne, hname, hfilter⟩ := filter_of_mem he
      rw [denied_filter_iff (.filter e) hline hcontext hgap rfl hne hname]
      exact iff_of_true (fun h => absurd (hfilter.symm.trans h.1) (by simp)) trivial
    · obtain ⟨hne, hname, hother, -⟩ := arrayFunction_of_mem he
      rw [denied_filter_iff (.function e) hline hcontext hgap rfl hne hname]
      constructor
      · exact fun h => ⟨hcontext, not_not.mp fun hform => h ⟨hother, hform⟩⟩
      · exact fun hfits h => h.2 hfits.2
  · rcases mem_offer_tag hcontext hitem with ⟨s, hs, rfl⟩ | ⟨e, he, rfl⟩ | ⟨e, he, rfl⟩
    · obtain ⟨before, left, b, w, htyping, -, -⟩ := exists_typing_tag hcontext
      have hbefore : '\n' ∉ beforeOpen line := by
        rw [beforeOpen, htyping.spell_dropLast]
        exact htyping.newline_not_mem_before hline
      have hknown := known_of_sound hindent hbefore (sound_of_mem_snippets hs)
      exact iff_of_true (not_denied_of_known hknown) trivial
    · obtain ⟨hwords, htrim, hrole⟩ := keyword_of_mem he
      rw [denied_tag_iff (.keyword e) hline hcontext hgap rfl hwords htrim]
      exact not_congr hrole
    · obtain ⟨hne, hname, -, hrole⟩ := arrayFunction_of_mem he
      rw [denied_tag_iff (.function e) hline hcontext hgap rfl (.of_word hne hname)
        (Text.trim_word hname)]
      refine iff_of_false (fun h => h hrole) fun hfits => ?_
      exact absurd (hcontext.symm.trans hfits.1) (by simp)

/-- A filter behind one that is unknown. -/
theorem offered_known_upper :
    accepted [] [' '] "\x7b\x7b x|bogus|up".toList (.filter ⟨"upper", "Convert to uppercase"⟩) =
        "{{ x|bogus|upper }}".toList ∧
      (analyze .standard "{{ x|bogus|upper }}".toList).findings =
        [⟨1, 1, .unknownFilter "bogus"⟩] ∧
      ¬ Denied .standard [] [' '] "\x7b\x7b x|bogus|up".toList
        (.filter ⟨"upper", "Convert to uppercase"⟩) :=
  ⟨by decide +kernel, by decide +kernel, (offered_known_iff .standard (by decide) (by simp)
    (List.forall_mem_singleton.mpr ⟨rfl, by decide⟩) (by decide +kernel)
    (by decide +kernel)).mpr trivial⟩

/-- **Offered and unknown**: an array function in the place of a filter, a plain keyword in that of
a tag. -/
theorem offered_unknown :
    (∃ item, item = .function ⟨"array_keys", "array_keys(array) - Get all keys of an array"⟩ ∧
      contextAt "\x7b\x7b x|array_".toList = .filter ∧
      item ∈ (offerAt "\x7b\x7b x|array_".toList).items ∧
      accepted [] [] "\x7b\x7b x|array_".toList item = "{{ x|array_keys}}".toList ∧
      (analyze .standard "{{ x|array_keys}}".toList).findings =
        [⟨1, 1, .unknownFilter "array_keys"⟩] ∧
      Denied .standard [] [] "\x7b\x7b x|array_".toList item) ∧
    ∃ item, item = .keyword ⟨"in", "Used in for loops"⟩ ∧
      contextAt "\x7b% i".toList = .tag ∧ item ∈ (offerAt "\x7b% i".toList).items ∧
      accepted [] [] "\x7b% i".toList item = "{% in%}".toList ∧
      (analyze .standard "{% in%}".toList).findings = [⟨1, 1, .unknownTag "in"⟩] ∧
      Denied .standard [] [] "\x7b% i".toList item := by
  refine ⟨⟨_, rfl, ?_⟩, _, rfl, ?_⟩
  · have hcontext : contextAt "\x7b\x7b x|array_".toList = .filter := by decide +kernel
    have htext : accepted [] [] "\x7b\x7b x|array_".toList
        (.function ⟨"array_keys", "array_keys(array) - Get all keys of an array"⟩) =
          "{{ x|array_keys}}".toList := by decide +kernel
    have hfindings : (analyze .standard "{{ x|array_keys}}".toList).findings =
        [⟨1, 1, .unknownFilter "array_keys"⟩] := by decide +kernel
    refine ⟨hcontext, by decide +kernel, htext, hfindings,
      ⟨1, 1, .unknownFilter "array_keys"⟩, ?_, Or.inl (by decide +kernel), ?_⟩
    · rw [htext, hfindings]
      exact List.mem_cons_self
    · rw [Denies, hcontext]
      exact Or.inl ⟨_, rfl, Or.inl rfl⟩
  · have hcontext : contextAt "\x7b% i".toList = .tag := by decide +kernel
    have htext : accepted [] [] "\x7b% i".toList (.keyword ⟨"in", "Used in for loops"⟩) =
        "{% in%}".toList := by decide +kernel
    have hfindings : (analyze .standard "{% in%}".toList).findings =
        [⟨1, 1, .unknownTag "in"⟩] := by decide +kernel
    refine ⟨hcontext, by decide +kernel, htext, hfindings, ⟨1, 1, .unknownTag "in"⟩, ?_,
      Or.inl (by decide +kernel), ?_⟩
    · rw [htext, hfindings]
      exact List.mem_cons_self
    · rw [Denies, hcontext]
      exact ⟨_, Or.inl rfl⟩

end Offered

end TwigTemplate.Completion
