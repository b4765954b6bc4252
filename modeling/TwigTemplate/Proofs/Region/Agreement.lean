import TwigTemplate.Proofs.Nesting
import TwigTemplate.Proofs.Region.Places
import TwigTemplate.Proofs.Text.Lines

/-!
# Line by line or all at once

A document is scanned as a whole when it is laid out, and line by line when it is
analysed or folded.  The two scans differ only in regions that span lines: an unclosed
opener gives up its line in both, and no quote, backslash or brace is looked at across a
newline.

* `LineEnd`: the two ways to end a line.  `agrees_append_end`: a line end ends all that
  began on its line.
* `agrees_ofLinesFrom`: scanning a text so that no region leaves its line is scanning its
  lines.
* `ofDocument_agrees_ofLines`: **a document without regions that span lines is scanned
  alike as a whole and line by line**.
-/

namespace TwigTemplate.Region

open List (Forall₂)
open Text (isBlank)

/-! ### Line ends -/

/-- A newline, with or without a carriage return before it. -/
def LineEnd (e : List Char) : Prop :=
  e = ['\n'] ∨ e = ['\r', '\n']

theorem exists_lineEnd (l : List Char) :
    ∃ e, LineEnd e ∧ l ++ ['\n'] = Text.dropReturn l ++ e := by
  rcases Text.eq_dropReturn l with hl | hl
  · exact ⟨['\n'], Or.inl rfl, by rw [← hl]⟩
  · refine ⟨['\r', '\n'], Or.inr rfl, ?_⟩
    conv_lhs => rw [hl]
    rw [List.append_assoc]
    rfl

section LineEnd

variable {e m : List Char}

theorem literalRest?_append_end {q : Char} (hq : isQuote q = true) (he : LineEnd e)
    (hm : '\n' ∉ m) (ds : List Char) : literalRest? q (m ++ (e ++ ds)) = literalRest? q m := by
  have hreturn : literalRest? q (m ++ ['\r']) = literalRest? q m := by
    have hblank : ∀ c ∈ ['\r'], isBlank c = true := List.forall_mem_singleton.mpr (by decide)
    have hnone : literalRest? q ['\r'] = none := literalRest?_blank hq hblank
    fun_induction literalRest? q m with
    | case1 => exact hnone
    | case2 =>
      rw [List.singleton_append,
        literalRest?_backslash hq fun c hc => hblank c (List.mem_of_mem_head? hc), hnone]
      rfl
    | case3 => simp at hm
    | case4 c r hc ih =>
      rw [List.mem_cons, List.mem_cons, not_or, not_or] at hm
      rw [List.cons_append, List.cons_append, literalRest?_escape hc, ih hm.2.2]
    | case5 => simp at hm
    | case6 => exact literalRest?_close hq _
    | case7 c r hlast hescape hnl hc ih =>
      rw [List.mem_cons, not_or] at hm
      rw [List.cons_append, literalRest?_char (ne_backslash hlast hescape) hnl hc, ih hm.2]
  rcases he with rfl | rfl
  · exact literalRest?_append_newline hm ds
  · have hfree : '\n' ∉ m ++ ['\r'] := by simpa using hm
    rw [← hreturn, ← literalRest?_append_newline hfree ds, List.append_assoc]
    rfl

theorem literal?_append_end {c : Char} (he : LineEnd e) (hm : '\n' ∉ m) (ds : List Char) :
    literal? (c :: (m ++ (e ++ ds))) = literal? (c :: m) := by
  rw [literal?, literal?]
  split
  · next hq => rw [literalRest?_append_end hq he hm]
  · rfl

theorem detached_end (he : LineEnd e) (hm : '\n' ∉ m) (ds : List Char) :
    Detached .line m (e ++ ds) := by
  refine ⟨fun _ _ hr => literal?_append_end he
    (fun hmem => hm (hr.subset (List.mem_cons_of_mem _ hmem))) ds, ?_, fun _ => hm⟩
  rcases he with rfl | rfl <;> simp

theorem expressionLength?_end {form : Form} (he : LineEnd e) (ds : List Char) :
    expressionLength? .line form 0 (e ++ ds) = none := by
  have hnewline : expressionLength? .line form 0 ('\n' :: ds) = none :=
    expressionLength?_stop (literal?_of_isBlank (by decide) _) (closing?_of_isBlank (by decide) _) rfl
  rcases he with rfl | rfl
  · exact hnewline
  · rw [List.cons_append, expressionLength?_pass (literal?_of_isBlank (by decide) _)
      (closing?_of_isBlank (by decide) _) (by decide), List.singleton_append, hnewline]
    rfl

theorem commentLength?_end (he : LineEnd e) (ds : List Char) :
    commentLength? .line (e ++ ds) = none := by
  have hnewline : commentLength? .line ('\n' :: ds) = none :=
    commentLength?_stop (fun h => absurd h (by decide)) rfl
  rcases he with rfl | rfl
  · exact hnewline
  · rw [List.cons_append, commentLength?_pass (fun h => absurd h (by decide)) (by decide),
      List.singleton_append, hnewline]
    rfl

/-- **No opener looks past its line.** -/
theorem lengthAfterOpener?_append_end (form : Form) (he : LineEnd e) (hm : '\n' ∉ m)
    (ds : List Char) :
    lengthAfterOpener? .line form (m ++ (e ++ ds)) = lengthAfterOpener? .line form m := by
  have hend : lengthAfterOpener? .line form (e ++ ds) = none := by
    cases form with
    | comment => exact commentLength?_end he ds
    | output => exact expressionLength?_end he ds
    | statement => exact expressionLength?_end he ds
  rw [lengthAfterOpener?_append (detached_end he hm ds), hend]
  exact Option.or_none

theorem opening?_append_end {c : Char} (he : LineEnd e) (m ds : List Char) :
    Form.opening? (c :: (m ++ (e ++ ds))) = Form.opening? (c :: m) := by
  rw [opening?_eq, opening?_eq]
  cases m with
  | nil => rcases he with rfl | rfl <;> rfl
  | cons d m => rfl

end LineEnd

/-! ### Regions that agree -/

/-- Points on one line and column, counted in texts that start at different places. -/
structure SamePlace (p q : Point) : Prop where
  line : p.line = q.line
  column : p.column = q.column

theorem SamePlace.step {p q : Point} (h : SamePlace p q) (c : Char) :
    SamePlace (p.step c) (q.step c) := by
  obtain ⟨hline, hcolumn⟩ := h
  rw [Point.step, Point.step]
  split
  · exact ⟨congrArg (· + 1) hline, rfl⟩
  · exact ⟨hline, congrArg (· + 1) hcolumn⟩

theorem SamePlace.advance {p q : Point} (h : SamePlace p q) (cs : List Char) :
    SamePlace (p.advance cs) (q.advance cs) := by
  induction cs generalizing p q with
  | nil => exact h
  | cons c cs ih => exact ih (h.step c)

/-- Two regions of one kind that start at the same place and say the same.  When they are
closed, they are the same text; an unclosed one may hold the carriage return of its line or
not. -/
structure Agrees (r s : Region) : Prop where
  kind : r.kind = s.kind
  line : r.line = s.line
  column : r.column = s.column
  content : r.content = s.content
  raw : r.kind.isTemplate = true → r.raw = s.raw

/-- The regions that begin with an opener, closed or not. -/
def opened (rs : List Region) : List Region :=
  rs.filter (·.kind ≠ .text)

theorem opened_append (rs ss : List Region) : opened (rs ++ ss) = opened rs ++ opened ss :=
  List.filter_append ..

theorem opened_locate_addText (start : Point) (c : Char) (ps : List Piece) :
    opened (locate start (Piece.addText c ps)) = opened (locate (start.step c) ps) := by
  unfold Piece.addText
  split
  · rfl
  · rfl

theorem opened_locate_cons {p : Piece} (hp : p.kind ≠ .text) (start : Point) (ps : List Piece) :
    opened (locate start (p :: ps)) =
      ⟨p.kind, start, start.advance p.raw, p.raw⟩ ::
        opened (locate (start.advance p.raw) ps) := by
  rw [locate, opened, List.filter_cons_of_pos (by simpa using hp)]
  rfl

theorem agrees_locate {p q : Point} (h : SamePlace p q) (ps : List Piece) :
    Forall₂ Agrees (opened (locate p ps)) (opened (locate q ps)) := by
  induction ps generalizing p q with
  | nil => exact .nil
  | cons piece ps ih =>
    by_cases hkind : piece.kind = .text
    · obtain ⟨kind, raw⟩ := piece
      obtain rfl : kind = .text := hkind
      exact ih (h.advance raw)
    · rw [opened_locate_cons hkind, opened_locate_cons hkind]
      exact .cons ⟨rfl, h.line, h.column, rfl, fun _ => rfl⟩ (ih (h.advance piece.raw))

theorem trim_body_append_blank {form : Form} {cs w : List Char} (hcs : 2 ≤ cs.length)
    (hw : ∀ c ∈ w, isBlank c = true) :
    Text.trim (body (.unterminated form) (cs ++ w)) =
      Text.trim (body (.unterminated form) cs) := by
  have hdrop : (cs ++ w).drop 2 = cs.drop 2 ++ w := List.drop_append_of_le_length hcs
  rw [body, body, hdrop, Text.trim_eq_trimBy, Text.trim_eq_trimBy]
  cases hrest : cs.drop 2 with
  | nil =>
    have hfree : w.head?.any isMarker = false := by
      cases w with
      | nil => rfl
      | cons c w => exact not_isMarker_of_isBlank (hw c List.mem_cons_self)
    rw [List.nil_append, dropMarker_of_free hfree, Text.trimBy_eq_nil_iff.mpr hw]
    rfl
  | cons d rest =>
    have hmarker : dropMarker (d :: rest ++ w) = dropMarker (d :: rest) ++ w := by
      rw [dropMarker, dropMarker, List.cons_append, List.head?_cons, List.head?_cons]
      split <;> rfl
    rw [hmarker, Text.trimBy_append_right _ hw]

theorem LineEnd.exists_blanks {e : List Char} (he : LineEnd e) :
    ∃ w, (∀ c ∈ w, isBlank c = true ∧ c ≠ '\n') ∧ e = w ++ ['\n'] := by
  rcases he with rfl | rfl
  · exact ⟨[], by simp, rfl⟩
  · exact ⟨['\r'], List.forall_mem_singleton.mpr (by decide), rfl⟩

theorem opened_locate_end {e : List Char} (he : LineEnd e) (start : Point) (ds : List Char) :
    opened (locate start (pieces .line (e ++ ds))) =
      opened (locate (start.advance e) (pieces .line ds)) := by
  rcases he with rfl | rfl
  · rw [List.singleton_append, pieces_char rfl, opened_locate_addText]
    rfl
  · rw [List.cons_append, pieces_char rfl, opened_locate_addText, List.singleton_append,
      pieces_char rfl, opened_locate_addText]
    rfl

/-- A region that is left open takes the blanks of the line end along. -/
theorem pieces_leftOpen_end {form : Form} {body w : List Char} (he : LineEnd (w ++ ['\n']))
    (hw : '\n' ∉ w) (hbody : '\n' ∉ body) (hlen : lengthAfterOpener? .line form body = none)
    (ds : List Char) :
    pieces .line (form.opener ++ (body ++ (w ++ ['\n'] ++ ds))) =
      ⟨.unterminated form, form.opener ++ (body ++ w)⟩ :: pieces .line ('\n' :: ds) := by
  have hline : '\n' ∉ body ++ w := fun hmem => (List.mem_append.mp hmem).elim hbody hw
  have htext : body ++ (w ++ ['\n'] ++ ds) = (body ++ w) ++ '\n' :: ds := by simp
  have hopen : lengthAfterOpener? .line form ((body ++ w) ++ '\n' :: ds) = none := by
    rw [← htext, lengthAfterOpener?_append_end form he hbody, hlen]
  rw [htext, pieces_leftOpen hline (by simp) hopen]

/-- **A line end ends all that began on its line**: what follows is scanned by itself. -/
theorem agrees_append_end {e m : List Char} (he : LineEnd e) (hm : '\n' ∉ m) {ds : List Char}
    {p q : Point} (hpq : SamePlace p q) {rs : List Region}
    (hrest : Forall₂ Agrees (opened (locate (p.advance (m ++ e)) (pieces .line ds))) rs) :
    Forall₂ Agrees (opened (locate p (pieces .line (m ++ (e ++ ds)))))
      (opened (locate q (pieces .line m)) ++ rs) := by
  induction m using pieces_induction .line generalizing p q with
  | nil =>
    rw [List.nil_append, opened_locate_end he, pieces]
    exact hrest
  | char c m hopen ih =>
    rw [List.mem_cons, not_or] at hm
    rw [List.cons_append, pieces_char ((opening?_append_end he m ds).trans hopen),
      pieces_char hopen, opened_locate_addText, opened_locate_addText]
    exact ih hm.2 (hpq.step c) hrest
  | code form body back hlen ih =>
    rw [List.mem_append, not_or] at hm
    have hback : '\n' ∉ back := fun hmem => hm.2 (List.mem_append_right _ hmem)
    have hstay : lengthAfterOpener? .line form (body ++ (back ++ (e ++ ds))) =
        some body.length := by
      rw [← List.append_assoc, lengthAfterOpener?_append_end form he hm.2, hlen]
    have hpoint : p.advance (form.opener ++ (body ++ back) ++ e) =
        (p.advance (form.opener ++ body)).advance (back ++ e) := by
      rw [← Point.advance_append, List.append_assoc, List.append_assoc, List.append_assoc]
    rw [hpoint] at hrest
    rw [List.append_assoc, List.append_assoc, pieces_code hstay, pieces_code hlen,
      opened_locate_cons (by simp), opened_locate_cons (by simp)]
    exact .cons ⟨rfl, hpq.line, hpq.column, rfl, fun _ => rfl⟩ (ih hback (hpq.advance _) hrest)
  | leftOpen form body back hbody hback hlen =>
    rw [List.mem_append, not_or] at hm
    obtain rfl := eq_nil_of_line hback fun hmem => hm.2 (List.mem_append_right _ hmem)
    rw [List.append_nil] at hlen hrest ⊢
    obtain ⟨w, hw, rfl⟩ := he.exists_blanks
    have hpoint : p.advance (form.opener ++ body ++ (w ++ ['\n'])) =
        (p.advance (form.opener ++ (body ++ w))).step '\n' := by
      rw [← List.append_assoc, Point.advance_append, List.append_assoc]
      rfl
    rw [hpoint] at hrest
    rw [List.append_assoc, pieces_leftOpen_end he (fun hmem => (hw _ hmem).2 rfl) hbody hlen,
      pieces_leftOpen_last hbody hlen, pieces_char rfl, opened_locate_cons (by simp),
      opened_locate_cons (by simp), opened_locate_addText]
    refine .cons ⟨rfl, hpq.line, hpq.column, ?_, fun h => absurd h (by simp [Kind.isTemplate])⟩
      hrest
    show Text.trim (Region.body _ (form.opener ++ (body ++ w))) = _
    rw [← List.append_assoc]
    exact trim_body_append_blank (by simp [Form.opener]) fun c hc => (hw c hc).1

/-! ### All lines -/

theorem flatten_ofLinesFrom_lines {l : List Char} (h : '\n' ∉ l) (first : Nat) :
    (ofLinesFrom first (Text.lines l)).flatten = ofLine l first := by
  rw [Text.lines_of_not_mem h]
  split
  · next hempty =>
    rw [List.isEmpty_iff.mp hempty, ofLine, pieces]
    rfl
  · rw [ofLinesFrom, ofLinesFrom, List.flatten_cons, List.flatten_nil, List.append_nil]

/-- **Scanning a text so that no region leaves its line is scanning its lines.** -/
theorem agrees_ofLinesFrom (cs : List Char) {p : Point} (hcolumn : p.column = 1) :
    Forall₂ Agrees (opened (locate p (pieces .line cs)))
      (opened (ofLinesFrom p.line (Text.lines cs)).flatten) := by
  induction cs using Text.line_induction generalizing p with
  | last cs hfree =>
    have hplace : SamePlace p ⟨p.line, 1, 0⟩ := ⟨rfl, hcolumn⟩
    rw [flatten_ofLinesFrom_lines hfree]
    exact agrees_locate hplace _
  | line l cs hfree ih =>
    obtain ⟨e, he, hcut⟩ := exists_lineEnd l
    have hm : '\n' ∉ Text.dropReturn l := fun hmem => hfree (Text.mem_of_mem_dropReturn hmem)
    have htext : l ++ '\n' :: cs = Text.dropReturn l ++ (e ++ cs) := by
      rw [← List.append_assoc, ← hcut, List.append_assoc, List.singleton_append]
    have hline : (p.advance (Text.dropReturn l ++ e)).line = p.line + 1 := by
      rw [← hcut, Point.advance_line, Text.newlineCount_append, Text.newlineCount_eq_zero.mpr hfree]
      rfl
    have hnext : (p.advance (Text.dropReturn l ++ e)).column = 1 := by
      rw [← hcut, Point.advance_append]
      rfl
    have hplace : SamePlace p ⟨p.line, 1, 0⟩ := ⟨rfl, hcolumn⟩
    rw [Text.lines_append_newline hfree, ofLinesFrom, List.flatten_cons, opened_append, htext,
      ← hline]
    exact agrees_append_end he hm hplace (ih hnext)

/-! ### The document -/

theorem events_opened (rs : List Region) : Nesting.events (opened rs) = Nesting.events rs := by
  apply Nesting.events_filter
  intro r _ hkind
  have hnone : r.kind ≠ .template .statement := fun h => by simp [h] at hkind
  rw [Nesting.Event.ofRegion?, if_neg hnone]

/-- Regions that agree are the same events. -/
theorem events_agrees {rs ss : List Region} (h : Forall₂ Agrees rs ss) :
    Nesting.events rs = Nesting.events ss := by
  induction h with
  | nil => rfl
  | @cons r s rs ss hrs _ ih =>
    have hevent : Nesting.Event.ofRegion? r = Nesting.Event.ofRegion? s := by
      rw [Nesting.Event.ofRegion?, Nesting.Event.ofRegion?, hrs.kind, hrs.content]
    rw [Nesting.events_cons, Nesting.events_cons, hevent, ih]

theorem agrees_of_free {cs : List Char}
    (h : ∀ p ∈ pieces .document cs, p.kind.isTemplate = true → '\n' ∉ p.raw) :
    Forall₂ Agrees (opened (ofDocument cs)) (opened (ofLines cs).flatten) := by
  rw [ofDocument, ← pieces_line_eq_document h]
  exact agrees_ofLinesFrom cs rfl

/-- **A document without regions that span lines is scanned alike as a whole and line by
line**: the same openers are found at the same lines and columns, closed or not, with the
same content, and the closed ones are the same text.  So its blocks are opened, branched and
closed by the same events. -/
theorem ofDocument_agrees_ofLines {cs : List Char}
    (h : ∀ r ∈ ofDocument cs, r.kind.isTemplate = true → r.spansLines = false) :
    Forall₂ Agrees (opened (ofDocument cs)) (opened (ofLines cs).flatten) ∧
      Nesting.events (ofDocument cs) = Nesting.events (ofLines cs).flatten := by
  have hfree : ∀ p ∈ pieces .document cs, p.kind.isTemplate = true → '\n' ∉ p.raw := by
    intro p hp htemplate
    rw [← map_piece_locate .origin (pieces .document cs)] at hp
    obtain ⟨r, hr, rfl⟩ := List.mem_map.mp hp
    have hspan := h r hr htemplate
    have hstop := (mem_locate hr).2
    rw [spansLines, bne_eq_false_iff_eq, hstop, Point.advance_line] at hspan
    have hcount : Text.newlineCount r.raw = 0 := by omega
    exact Text.newlineCount_eq_zero.mp hcount
  have hagrees := agrees_of_free hfree
  refine ⟨hagrees, ?_⟩
  rw [← events_opened, events_agrees hagrees, events_opened]

/-- A quote and an opener are left open at the ends of lines, and the block that follows is
opened all the same. -/
theorem ofDocument_agrees_lone_quote :
    (∀ r ∈ ofDocument "\x7b\x7b a \x7d\x7d\"\r\n\x7b\x7b- b '\r\n\x7b% if x %\x7d".toList,
        r.kind.isTemplate = true → r.spansLines = false) ∧
      Forall₂ Agrees
        (opened (ofDocument "\x7b\x7b a \x7d\x7d\"\r\n\x7b\x7b- b '\r\n\x7b% if x %\x7d".toList))
        (opened
          (ofLines "\x7b\x7b a \x7d\x7d\"\r\n\x7b\x7b- b '\r\n\x7b% if x %\x7d".toList).flatten) ∧
      Nesting.events
        (ofLines "\x7b\x7b a \x7d\x7d\"\r\n\x7b\x7b- b '\r\n\x7b% if x %\x7d".toList).flatten =
          [.opens .conditional] := by
  have h : ∀ r ∈ ofDocument "\x7b\x7b a \x7d\x7d\"\r\n\x7b\x7b- b '\r\n\x7b% if x %\x7d".toList,
      r.kind.isTemplate = true → r.spansLines = false := by decide +kernel
  obtain ⟨hagrees, hevents⟩ := ofDocument_agrees_ofLines h
  refine ⟨h, hagrees, ?_⟩
  rw [← hevents]
  decide +kernel

end TwigTemplate.Region
