import TwigTemplate.Proofs.Region.Rescanning
import TwigTemplate.Proofs.Text.Ink

/-!
# Scanning by lines and as a whole

A document whose lines are scanned one by one, and every opener of each line is
closed on it, is scanned as a whole to the same regions: a newline ends every
literal, so no region looks past its line.

* `lengthAfterOpener?_onLine`, `lengthAfterOpener?_line_none`: the search for a closer that
  stops at a newline finds what the other search finds before one, and nothing else.
* `pieces_line_eq_document`: **both ways of scanning cut a text alike** when no region spans
  lines; on a single line they always do (`pieces_line_eq`).
* `scans_append_newline`: a line whose openers are all closed can be put in front of a document.
* `tokens_pieces_document`: **the scan of the document is the scans of its lines
  laid end to end**.
-/

namespace TwigTemplate.Region

/-! ### Closers on the same line -/

theorem expressionLength?_onLine {form : Form} {skip : Nat} {cs : List Char} {n : Nat}
    (h : expressionLength? .document form skip cs = some n) (hn : '\n' ∉ cs.take n) :
    expressionLength? .line form skip cs = some n := by
  generalize hreach : Reach.document = reach at h
  fun_induction expressionLength? reach form skip cs generalizing n with
  | case1 => simp at h
  | case2 skip c r ih =>
    obtain ⟨m, hm, rfl⟩ := Option.map_eq_some_iff.mp h
    rw [List.take_succ_cons, List.mem_cons, not_or] at hn
    rw [expressionLength?, ih hn.2 hm]
    rfl
  | case3 c r k hk ih =>
    obtain ⟨m, hm, rfl⟩ := Option.map_eq_some_iff.mp h
    rw [List.take_succ_cons, List.mem_cons, not_or] at hn
    rw [expressionLength?_literal hk, ih hn.2 hm]
    rfl
  | case4 c r hlit hclose =>
    rw [expressionLength?_close hlit hclose]
    exact h
  | case5 c r hlit other hclose hother ih =>
    obtain ⟨m, hm, rfl⟩ := Option.map_eq_some_iff.mp h
    rw [List.take_succ_cons, List.mem_cons, not_or] at hn
    rw [expressionLength?_pair hlit hclose hother, ih hn.2 hm]
    rfl
  | case6 => simp at h
  | case7 c r hlit hclose _ ih =>
    obtain ⟨m, hm, rfl⟩ := Option.map_eq_some_iff.mp h
    rw [List.take_succ_cons, List.mem_cons, not_or] at hn
    rw [expressionLength?_pass hlit hclose (by simpa [Reach.stopsAt] using Ne.symm hn.1),
      ih hn.2 hm]
    rfl

theorem commentLength?_onLine {cs : List Char} {n : Nat}
    (h : commentLength? .document cs = some n) (hn : '\n' ∉ cs.take n) :
    commentLength? .line cs = some n := by
  generalize hreach : Reach.document = reach at h
  fun_induction commentLength? reach cs generalizing n with
  | case1 => simp at h
  | case2 r =>
    rw [commentLength?_close]
    exact h
  | case3 => simp at h
  | case4 c r hpair _ ih =>
    obtain ⟨m, hm, rfl⟩ := Option.map_eq_some_iff.mp h
    rw [List.take_succ_cons, List.mem_cons, not_or] at hn
    rw [commentLength?_pass (head?_ne_of_not_pair hpair)
      (by simpa [Reach.stopsAt] using Ne.symm hn.1), ih hn.2 hm]
    rfl

theorem lengthAfterOpener?_onLine {form : Form} {cs : List Char} {n : Nat}
    (h : lengthAfterOpener? .document form cs = some n) (hn : '\n' ∉ cs.take n) :
    lengthAfterOpener? .line form cs = some n := by
  cases form with
  | comment => exact commentLength?_onLine h hn
  | output => exact expressionLength?_onLine h hn
  | statement => exact expressionLength?_onLine h hn

theorem expressionLength?_line_none {form : Form} {skip : Nat} {cs : List Char}
    (h : expressionLength? .document form skip cs = none) :
    expressionLength? .line form skip cs = none := by
  generalize hreach : Reach.document = reach at h
  fun_induction expressionLength? reach form skip cs with
  | case1 => rw [expressionLength?]
  | case2 skip c r ih =>
    rw [expressionLength?, ih (Option.map_eq_none_iff.mp h)]
    rfl
  | case3 c r k hk ih =>
    rw [expressionLength?_literal hk, ih (Option.map_eq_none_iff.mp h)]
    rfl
  | case4 => simp at h
  | case5 c r hlit other hclose hother ih =>
    rw [expressionLength?_pair hlit hclose hother, ih (Option.map_eq_none_iff.mp h)]
    rfl
  | case6 c r hlit hclose hstop =>
    subst hreach
    exact absurd hstop (by simp [Reach.stopsAt])
  | case7 c r hlit hclose _ ih =>
    cases hstop : Reach.line.stopsAt c with
    | true => exact expressionLength?_stop hlit hclose hstop
    | false =>
      rw [expressionLength?_pass hlit hclose hstop, ih (Option.map_eq_none_iff.mp h)]
      rfl

theorem commentLength?_line_none {cs : List Char} (h : commentLength? .document cs = none) :
    commentLength? .line cs = none := by
  generalize hreach : Reach.document = reach at h
  fun_induction commentLength? reach cs with
  | case1 => rw [commentLength?]
  | case2 => simp at h
  | case3 c r _ hstop =>
    subst hreach
    exact absurd hstop (by simp [Reach.stopsAt])
  | case4 c r hpair _ ih =>
    cases hstop : Reach.line.stopsAt c with
    | true => exact commentLength?_stop (head?_ne_of_not_pair hpair) hstop
    | false =>
      rw [commentLength?_pass (head?_ne_of_not_pair hpair) hstop, ih (Option.map_eq_none_iff.mp h)]
      rfl

theorem lengthAfterOpener?_line_none {form : Form} {cs : List Char}
    (h : lengthAfterOpener? .document form cs = none) :
    lengthAfterOpener? .line form cs = none := by
  cases form with
  | comment => exact commentLength?_line_none h
  | output => exact expressionLength?_line_none h
  | statement => exact expressionLength?_line_none h

theorem template_mem_addText {c : Char} {ps : List Piece} {p : Piece}
    (hp : p.kind.isTemplate = true) : p ∈ Piece.addText c ps ↔ p ∈ ps := by
  have htext : ∀ raw : List Char, p ≠ ⟨.text, raw⟩ := by
    rintro raw rfl
    exact absurd hp (by simp [Kind.isTemplate])
  unfold Piece.addText
  split
  · rw [List.mem_cons, List.mem_cons, or_iff_right (htext _), or_iff_right (htext _)]
  · rw [List.mem_cons, or_iff_right (htext _)]

/-- **Both ways of scanning cut a text alike** when none of its regions spans lines. -/
theorem pieces_line_eq_document {cs : List Char}
    (h : ∀ p ∈ pieces .document cs, p.kind.isTemplate = true → '\n' ∉ p.raw) :
    pieces .line cs = pieces .document cs := by
  induction cs using pieces_induction .document with
  | nil => rw [pieces, pieces]
  | char c cs hopen ih =>
    rw [pieces_char hopen] at h ⊢
    rw [pieces_char hopen, ih fun p hp htemplate =>
      h p ((template_mem_addText htemplate).mpr hp) htemplate]
  | code form body back hlen ih =>
    rw [pieces_code hlen] at h ⊢
    have hfree := h _ List.mem_cons_self rfl
    rw [List.mem_append, not_or] at hfree
    have hline := lengthAfterOpener?_onLine hlen (by rw [List.take_left]; exact hfree.2)
    rw [pieces_code hline, ih fun p hp => h p (List.mem_cons_of_mem _ hp)]
  | leftOpen form body back hbody hback hlen ih =>
    rw [pieces_leftOpen hbody hback hlen] at h ⊢
    rw [pieces_leftOpen hbody hback (lengthAfterOpener?_line_none hlen),
      ih fun p hp => h p (List.mem_cons_of_mem _ hp)]

/-- On a single line the two ways of scanning are one. -/
theorem pieces_line_eq {cs : List Char} (hcs : '\n' ∉ cs) :
    pieces .line cs = pieces .document cs := by
  apply pieces_line_eq_document
  intro p hp _ hmem
  apply hcs
  rw [← spell_pieces .document cs]
  exact List.mem_flatMap.mpr ⟨p, hp, hmem⟩

/-! ### A newline after a line -/

theorem literalRest?_append_newline {q : Char} {cs : List Char} (hcs : '\n' ∉ cs)
    (ds : List Char) : literalRest? q (cs ++ '\n' :: ds) = literalRest? q cs := by
  fun_induction literalRest? q cs with
  | case1 => exact literalRest?_newline q ds
  | case2 => exact literalRest?_escape_newline ds
  | case3 r => simp at hcs
  | case4 c r hc ih =>
    rw [List.mem_cons, List.mem_cons, not_or, not_or] at hcs
    rw [List.cons_append, List.cons_append, literalRest?_escape hc, ih hcs.2.2]
  | case5 => simp at hcs
  | case6 r hlast hescape hnl => exact literalRest?_partner (ne_backslash hlast hescape) hnl _
  | case7 c r hlast hescape hnl hc ih =>
    rw [List.mem_cons, not_or] at hcs
    rw [List.cons_append, literalRest?_char (ne_backslash hlast hescape) hnl hc, ih hcs.2]

theorem literal?_append_newline {c : Char} {cs : List Char} (hcs : '\n' ∉ cs) (ds : List Char) :
    literal? (c :: (cs ++ '\n' :: ds)) = literal? (c :: cs) := by
  rw [literal?, literal?, literalRest?_append_newline hcs]

theorem detached_newline {cs : List Char} (hcs : '\n' ∉ cs) (ds : List Char) :
    Detached .document cs ('\n' :: ds) :=
  ⟨fun _ _ hr => literal?_append_newline
    (fun hmem => hcs (hr.subset (List.mem_cons_of_mem _ hmem))) ds, by simp, by simp⟩

theorem lengthAfterOpener?_append_newline {form : Form} {cs : List Char} {n : Nat}
    (hcs : '\n' ∉ cs) (ds : List Char)
    (h : lengthAfterOpener? .document form cs = some n) :
    lengthAfterOpener? .document form (cs ++ '\n' :: ds) = some n := by
  rw [lengthAfterOpener?_append (detached_newline hcs ds), h]
  rfl

/-- **A line whose openers are all closed can be put in front of a document.** -/
theorem scans_append_newline {loose : Bool} {ts us : List Token} (h : Scans false ts)
    (hts : '\n' ∉ tell ts) (hus : Scans loose us) :
    Scans loose (ts ++ Token.newline :: us) := by
  induction h with
  | nil => exact .char rfl hus
  | @char c ts hopen _ ih =>
    rw [tell_char_cons, List.mem_cons, not_or] at hts
    rw [List.cons_append]
    refine .char ?_ (ih hts.2)
    rw [tell_append, Token.newline, tell_char_cons, opening?_eq]
    rw [opening?_eq] at hopen
    split
    · next hc =>
      rw [if_pos hc] at hopen
      cases htell : tell ts with
      | nil => rfl
      | cons d ds =>
        rw [htell] at hopen
        exact hopen
    · rfl
  | @code form body ts hlen _ ih =>
    rw [tell_code_cons, List.mem_append, not_or, List.mem_append, not_or] at hts
    rw [List.cons_append]
    refine .code ?_ (ih hts.2)
    rw [tell_append, Token.newline, tell_char_cons, ← List.append_assoc]
    apply lengthAfterOpener?_append_newline _ _ hlen
    rw [List.mem_append, not_or]
    exact ⟨hts.1.2, hts.2⟩
  | unterminated hloose => exact absurd hloose (by simp)

/-! ### All lines -/

/-- The tokens of a line. -/
def lineTokens (cs : List Char) : List Token :=
  tokens (pieces .document cs)

theorem tell_lineTokens (cs : List Char) : tell (lineTokens cs) = cs := by
  rw [lineTokens, tell_pieces]

/-- Lines whose openers are all closed, laid end to end. -/
theorem scans_intercalate {ls : List (List Char)}
    (h : ∀ l ∈ ls, '\n' ∉ l ∧ Closed (pieces .document l)) :
    Scans false ([Token.newline].intercalate (ls.map lineTokens)) ∧
      tell ([Token.newline].intercalate (ls.map lineTokens)) = ['\n'].intercalate ls := by
  induction ls with
  | nil => exact ⟨.nil, rfl⟩
  | cons l ls ih =>
    obtain ⟨hfree, hclosed⟩ := h l List.mem_cons_self
    obtain ⟨hscan, htell⟩ := ih fun m hm => h m (List.mem_cons_of_mem _ hm)
    have hl : Scans false (lineTokens l) := scans_of_closed hclosed
    by_cases hls : ls = []
    · subst hls
      rw [List.map_cons, List.map_nil, List.intercalate_singleton, List.intercalate_singleton,
        tell_lineTokens]
      exact ⟨hl, rfl⟩
    · rw [List.map_cons, List.intercalate_cons_of_ne_nil (by simpa using hls),
        List.intercalate_cons_of_ne_nil hls, List.append_assoc, List.append_assoc,
        List.singleton_append, List.singleton_append, tell_append, Token.newline, tell_char_cons,
        ← Token.newline, htell, tell_lineTokens]
      exact ⟨scans_append_newline hl (by rw [tell_lineTokens]; exact hfree) hscan, rfl⟩

/-- **The scan of a document is the scans of its lines**, when every opener is
closed on its line. -/
theorem tokens_pieces_document {cs : List Char}
    (h : ∀ l ∈ cs.splitOn '\n', Closed (pieces .line l)) :
    tokens (pieces .document cs) =
      [Token.newline].intercalate ((cs.splitOn '\n').map lineTokens) := by
  have hls : ∀ l ∈ cs.splitOn '\n', '\n' ∉ l ∧ Closed (pieces .document l) := by
    intro l hl
    have hfree := Text.not_mem_of_mem_splitOn hl
    rw [← pieces_line_eq hfree]
    exact ⟨hfree, h l hl⟩
  obtain ⟨hscan, htell⟩ := scans_intercalate hls
  have hpieces := (tokens_pieces_of_scans hscan).1
  rw [htell, List.intercalate_splitOn] at hpieces
  exact hpieces

end TwigTemplate.Region
