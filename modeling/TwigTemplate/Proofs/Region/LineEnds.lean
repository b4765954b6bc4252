import TwigTemplate.Proofs.Region.Places
import TwigTemplate.Proofs.Text.Marks

/-!
# The end of the first line of a row

When the first line of a row loses the blanks at its end, these are blanks at the
end of the row, or stand inside the first region of the row that spans lines.

* `clipLine`: a text without the blanks at the end of its first line.
* `clipRow`: the same for a row of tokens; `tell_clipRow`.
* `map_fronts_clipRow`: the regions that start on the first line stay.
* `alike_clipLine`: the change is one that a scan does not notice.
* `scans_of_ink`: **rows with the same ink are scanned alike**.
-/

namespace TwigTemplate.Region

open Text (isBlank newlineCount Gap Inner)

/-- A text without the blanks at the end of its first line. -/
def clipLine (cs : List Char) : List Char :=
  Text.trimEnd (cs.takeWhile (· ≠ '\n')) ++ cs.dropWhile (· ≠ '\n')

/-- A token on one line. -/
def Token.oneLine : Token → Bool
  | .char _ => true
  | .code raw => !raw.contains '\n'

/-- The first region that spans lines, clipped. -/
def clipSpan : List Token → List Token
  | [] => []
  | .char c :: ts => .char c :: clipSpan ts
  | .code raw :: ts =>
    if '\n' ∈ raw then .code (clipLine raw) :: ts else .code raw :: clipSpan ts

/-- A row without the blanks at the end of its first line. -/
def clipRow (row : List Token) : List Token :=
  if row.all Token.oneLine then row.rdropWhile Token.isBlank else clipSpan row

/-! ### Texts -/

theorem cut_line {l : List Char} (h : '\n' ∉ l) (rest : List Char) :
    (l ++ '\n' :: rest).takeWhile (· ≠ '\n') = l ∧
      (l ++ '\n' :: rest).dropWhile (· ≠ '\n') = '\n' :: rest :=
  takeWhile_newline h (by simp)

theorem cut_last {l : List Char} (h : '\n' ∉ l) :
    l.takeWhile (· ≠ '\n') = l ∧ l.dropWhile (· ≠ '\n') = [] := by
  have hcut : (l ++ []).takeWhile (· ≠ '\n') = l ∧ (l ++ []).dropWhile (· ≠ '\n') = [] :=
    takeWhile_newline h (by simp)
  rwa [List.append_nil] at hcut

theorem clipLine_of_not_mem {cs : List Char} (h : '\n' ∉ cs) : clipLine cs = Text.trimEnd cs := by
  rw [clipLine, (cut_last h).1, (cut_last h).2, List.append_nil]

theorem clipLine_line {l : List Char} (h : '\n' ∉ l) (cs : List Char) :
    clipLine (l ++ '\n' :: cs) = Text.trimEnd l ++ '\n' :: cs := by
  rw [clipLine, (cut_line h cs).1, (cut_line h cs).2]

/-- A text with a newline, cut before the blanks at the end of its first line. -/
theorem exists_clip {cs : List Char} (h : '\n' ∈ cs) :
    ∃ l u rest, cs = l ++ (u ++ '\n' :: rest) ∧ clipLine cs = l ++ '\n' :: rest ∧
      '\n' ∉ l ∧ '\n' ∉ u ∧ (∀ c ∈ u, isBlank c = true) ∧ l = Text.trimEnd (l ++ u) := by
  obtain ⟨l, rest, rfl, hl⟩ := List.eq_append_cons_of_mem h
  obtain ⟨u, hu, hall⟩ := Text.exists_eq_rdropWhile_append isBlank l
  have hfree : '\n' ∉ l.rdropWhile isBlank ∧ '\n' ∉ u := by
    rw [hu, List.mem_append, not_or] at hl
    exact hl
  refine ⟨l.rdropWhile isBlank, u, rest, ?_, ?_, hfree.1, hfree.2, hall, ?_⟩
  · rw [← List.append_assoc, ← hu]
  · rw [clipLine_line hl, Text.trimEnd_eq_rdropWhile]
  · rw [← hu, Text.trimEnd_eq_rdropWhile]

theorem clipLine_append_of_mem {cs : List Char} (h : '\n' ∈ cs) (ds : List Char) :
    clipLine (cs ++ ds) = clipLine cs ++ ds := by
  obtain ⟨l, rest, rfl, hl⟩ := List.eq_append_cons_of_mem h
  rw [List.append_assoc, List.cons_append, clipLine_line hl, clipLine_line hl, List.append_assoc,
    List.cons_append]

theorem clipLine_append_of_ink {cs ds : List Char} (hds : '\n' ∉ ds)
    (h : ∃ c ∈ cs.takeWhile (· ≠ '\n'), isBlank c = false) :
    clipLine (ds ++ cs) = ds ++ clipLine cs := by
  by_cases hnl : '\n' ∈ cs
  · obtain ⟨l, rest, rfl, hl⟩ := List.eq_append_cons_of_mem hnl
    rw [(cut_line hl rest).1] at h
    have hfree : '\n' ∉ ds ++ l := by
      rw [List.mem_append, not_or]
      exact ⟨hds, hl⟩
    rw [clipLine_line hl, ← List.append_assoc, clipLine_line hfree, Text.trimEnd_eq_rdropWhile,
      Text.rdropWhile_append_of_ink h, List.append_assoc, ← Text.trimEnd_eq_rdropWhile]
  · rw [(cut_last hnl).1] at h
    have hfree : '\n' ∉ ds ++ cs := by
      rw [List.mem_append, not_or]
      exact ⟨hds, hnl⟩
    rw [clipLine_of_not_mem hnl, clipLine_of_not_mem hfree, Text.trimEnd_eq_rdropWhile,
      Text.rdropWhile_append_of_ink h, ← Text.trimEnd_eq_rdropWhile]

theorem newline_mem_clipLine {cs : List Char} (h : '\n' ∈ cs) : '\n' ∈ clipLine cs := by
  obtain ⟨l, u, rest, -, hclip, -⟩ := exists_clip h
  rw [hclip]
  exact List.mem_append_right _ List.mem_cons_self

theorem clipLine_clipLine (cs : List Char) : clipLine (clipLine cs) = clipLine cs := by
  have htrim : ∀ l : List Char, Text.trimEnd (Text.trimEnd l) = Text.trimEnd l := by
    intro l
    rw [Text.trimEnd_eq_rdropWhile, Text.trimEnd_eq_rdropWhile, List.rdropWhile_idempotent]
  by_cases h : '\n' ∈ cs
  · obtain ⟨l, rest, rfl, hl⟩ := List.eq_append_cons_of_mem h
    have hfree : '\n' ∉ Text.trimEnd l := fun hmem =>
      hl ((List.rdropWhile_prefix isBlank l).subset hmem)
    rw [clipLine_line hl, clipLine_line hfree, htrim]
  · have hfree : '\n' ∉ Text.trimEnd cs := fun hmem =>
      h ((List.rdropWhile_prefix isBlank cs).subset hmem)
    rw [clipLine_of_not_mem h, clipLine_of_not_mem hfree, htrim]

theorem inner_clipLine {cs : List Char} (h : '\n' ∈ cs) : Inner cs (clipLine cs) := by
  obtain ⟨l, u, rest, hcs, hclip, -, -, hu, -⟩ := exists_clip h
  have hgap : Gap isBlank '\n' (u ++ ['\n']) ['\n'] := by
    refine ⟨?_, List.forall_mem_singleton.mpr (by decide), by simp, by simp, by simp⟩
    intro c hc
    rcases List.mem_append.mp hc with hc | hc
    · exact hu c hc
    · obtain rfl := List.mem_singleton.mp hc
      decide
  have hinner : Inner (l ++ (u ++ ['\n'] ++ rest)) (l ++ (['\n'] ++ rest)) :=
    (Inner.refl l).append (hgap.inner.append (Inner.refl rest))
  rw [List.append_assoc, List.singleton_append] at hinner
  rw [hclip, hcs]
  exact hinner

/-! ### Rows -/

/-- A row is on one line, or a region of it is the first that spans lines. -/
theorem row_cases (row : List Token) :
    row.all Token.oneLine = true ∨ ∃ front raw back, row = front ++ .code raw :: back ∧
      front.all Token.oneLine = true ∧ '\n' ∈ raw := by
  induction row with
  | nil => exact Or.inl rfl
  | cons t row ih =>
    by_cases ht : t.oneLine = true
    · rcases ih with hall | ⟨front, raw, back, rfl, hfront, hraw⟩
      · exact Or.inl (by rw [List.all_cons, ht, hall]; rfl)
      · exact Or.inr ⟨t :: front, raw, back, rfl, by rw [List.all_cons, ht, hfront]; rfl, hraw⟩
    · cases t with
      | char c => exact absurd rfl ht
      | code raw =>
        refine Or.inr ⟨[], raw, row, rfl, rfl, ?_⟩
        simpa [Token.oneLine] using ht

section Row

variable {front back row : List Token} {raw : List Char}

theorem newline_not_mem_of_oneLine (h : Token.oneLine (.code raw) = true) : '\n' ∉ raw := by
  simpa [Token.oneLine] using h

theorem oneLine_of_mem (h : row.all Token.oneLine = true) {t : Token} (ht : t ∈ row) :
    t.oneLine = true :=
  List.all_eq_true.mp h t ht

theorem not_all_oneLine (hraw : '\n' ∈ raw) :
    ¬ (front ++ .code raw :: back).all Token.oneLine = true := by
  intro h
  have hone : Token.oneLine (.code raw) = true := oneLine_of_mem h (by simp)
  exact newline_not_mem_of_oneLine hone hraw

theorem clipSpan_append (hfront : front.all Token.oneLine = true) (hraw : '\n' ∈ raw) :
    clipSpan (front ++ .code raw :: back) = front ++ .code (clipLine raw) :: back := by
  induction front with
  | nil => rw [List.nil_append, clipSpan, if_pos hraw, List.nil_append]
  | cons t front ih =>
    rw [List.all_cons, Bool.and_eq_true] at hfront
    cases t with
    | char c => rw [List.cons_append, clipSpan, ih hfront.2, List.cons_append]
    | code other =>
      rw [List.cons_append, clipSpan, if_neg (newline_not_mem_of_oneLine hfront.1), ih hfront.2,
        List.cons_append]

theorem clipSpan_of_oneLine (h : row.all Token.oneLine = true) : clipSpan row = row := by
  induction row with
  | nil => rfl
  | cons t row ih =>
    rw [List.all_cons, Bool.and_eq_true] at h
    cases t with
    | char c => rw [clipSpan, ih h.2]
    | code other => rw [clipSpan, if_neg (newline_not_mem_of_oneLine h.1), ih h.2]

theorem clipRow_append (hfront : front.all Token.oneLine = true) (hraw : '\n' ∈ raw) :
    clipRow (front ++ .code raw :: back) = front ++ .code (clipLine raw) :: back := by
  rw [clipRow, if_neg (not_all_oneLine hraw), clipSpan_append hfront hraw]

theorem clipRow_of_oneLine (h : row.all Token.oneLine = true) :
    clipRow row = row.rdropWhile Token.isBlank := by
  rw [clipRow, if_pos h]

theorem fronts_append (hfront : front.all Token.oneLine = true) (ts : List Token) :
    fronts (front ++ ts) = codesOf front ++ fronts ts := by
  induction front with
  | nil => rfl
  | cons t front ih =>
    rw [List.all_cons, Bool.and_eq_true] at hfront
    cases t with
    | char c => exact ih hfront.2
    | code other =>
      rw [List.cons_append, fronts, if_neg (newline_not_mem_of_oneLine hfront.1), ih hfront.2]
      rfl

theorem fronts_of_oneLine (h : row.all Token.oneLine = true) : fronts row = codesOf row := by
  have happ := fronts_append h []
  rwa [List.append_nil, fronts, List.append_nil] at happ

theorem oneLine_of_blank {w : List Token} (hw : ∀ t ∈ w, t.isBlank = true) :
    w.all Token.oneLine = true := by
  rw [List.all_eq_true]
  intro t ht
  cases t with
  | char c => rfl
  | code other => exact absurd (hw _ ht) (by simp [Token.isBlank])

theorem fronts_blank_append {w : List Token} (hw : ∀ t ∈ w, t.isBlank = true) (ts : List Token) :
    fronts (w ++ ts) = fronts ts := by
  rw [fronts_append (oneLine_of_blank hw), codesOf_blank hw, List.nil_append]

theorem fronts_append_blank {w : List Token} (hw : ∀ t ∈ w, t.isBlank = true) (ts : List Token) :
    fronts (ts ++ w) = fronts ts := by
  induction ts with
  | nil => rw [List.nil_append, fronts_of_oneLine (oneLine_of_blank hw), codesOf_blank hw]; rfl
  | cons t ts ih =>
    cases t with
    | char c => exact ih
    | code other => rw [List.cons_append, fronts, fronts, ih]

theorem fronts_trimBy (ts : List Token) : fronts (Text.trimBy Token.isBlank ts) = fronts ts := by
  obtain ⟨u, v, hcut, hu, hv⟩ := Text.exists_eq_append_trimBy Token.isBlank ts
  conv_rhs => rw [hcut]
  rw [fronts_blank_append hu, fronts_append_blank hv]

theorem map_fronts_clipRow {β : Type} {g : List Char → β}
    (hg : ∀ raw, .code raw ∈ row → '\n' ∈ raw → g (clipLine raw) = g raw) :
    (fronts (clipRow row)).map g = (fronts row).map g := by
  rcases row_cases row with hall | ⟨front, raw, back, rfl, hfront, hraw⟩
  · obtain ⟨w, hw, hblank⟩ := Text.exists_eq_rdropWhile_append Token.isBlank row
    rw [clipRow_of_oneLine hall]
    conv_rhs => rw [hw]
    rw [fronts_append_blank hblank]
  · rw [clipRow_append hfront hraw, fronts_append hfront, fronts_append hfront, fronts, fronts,
      if_pos hraw, if_pos (newline_mem_clipLine hraw), List.map_append, List.map_append,
      List.map_singleton, List.map_singleton, hg raw (by simp) hraw]

/-! ### Clipping and trimming -/

theorem clipRow_trimBy_clipRow (row : List Token) :
    clipRow (Text.trimBy Token.isBlank (clipRow row)) =
      Text.trimBy Token.isBlank (clipRow row) := by
  rcases row_cases row with hall | ⟨front, raw, back, rfl, hfront, hraw⟩
  · rw [clipRow_of_oneLine hall]
    have hone : (Text.trimBy Token.isBlank (row.rdropWhile Token.isBlank)).all Token.oneLine =
        true := by
      rw [List.all_eq_true]
      intro t ht
      exact oneLine_of_mem hall
        ((List.rdropWhile_prefix Token.isBlank row).subset (Text.mem_of_mem_trimBy ht))
    rw [clipRow_of_oneLine hone, Text.trimBy, List.rdropWhile_idempotent]
  · have hone : (front.dropWhile Token.isBlank).all Token.oneLine = true := by
      rw [List.all_eq_true]
      intro t ht
      exact oneLine_of_mem hfront ((List.dropWhile_suffix Token.isBlank).subset ht)
    rw [clipRow_append hfront hraw, Text.trimBy_append_ink rfl,
      clipRow_append hone (newline_mem_clipLine hraw), clipLine_clipLine]

theorem clipRow_append_left {w : List Token} (hw : w.all Token.oneLine = true)
    (hrow : ∃ t ∈ row, t.isBlank = false) : clipRow (w ++ row) = w ++ clipRow row := by
  rcases row_cases row with hall | ⟨front, raw, back, rfl, hfront, hraw⟩
  · have hone : (w ++ row).all Token.oneLine = true := by
      rw [List.all_append, hw, hall]
      rfl
    rw [clipRow_of_oneLine hone, clipRow_of_oneLine hall, Text.rdropWhile_append_of_ink hrow]
  · have hone : (w ++ front).all Token.oneLine = true := by
      rw [List.all_append, hw, hfront]
      rfl
    rw [← List.append_assoc, clipRow_append hone hraw, clipRow_append hfront hraw,
      List.append_assoc]

theorem exists_clipRow_cons {t : Token} (ht : t.isBlank = false) (row : List Token) :
    ∃ u us, clipRow (t :: row) = u :: us ∧ u.isBlank = false := by
  rcases row_cases (t :: row) with hall | ⟨front, raw, back, hrow, hfront, hraw⟩
  · refine ⟨t, row.rdropWhile Token.isBlank, ?_, ht⟩
    rw [clipRow_of_oneLine hall, Text.rdropWhile_cons_of_ink ht]
  · rw [hrow, clipRow_append hfront hraw]
    cases front with
    | nil => exact ⟨_, _, rfl, rfl⟩
    | cons s front =>
      obtain rfl : t = s := (List.cons.inj hrow).1
      exact ⟨t, _, rfl, ht⟩

theorem map_isBlank_clipSpan (row : List Token) :
    (clipSpan row).map Token.isBlank = row.map Token.isBlank := by
  rcases row_cases row with hall | ⟨front, raw, back, rfl, hfront, hraw⟩
  · rw [clipSpan_of_oneLine hall]
  · rw [clipSpan_append hfront hraw, List.map_append, List.map_append]
    rfl

/-- Clipping a row changes a region of it, or blanks at its end. -/
theorem trimBy_clipRow (row : List Token) :
    Text.trimBy Token.isBlank (clipRow row) = Text.trimBy Token.isBlank (clipSpan row) := by
  rcases row_cases row with hall | ⟨front, raw, back, rfl, hfront, hraw⟩
  · obtain ⟨w, hw, hblank⟩ := Text.exists_eq_rdropWhile_append Token.isBlank row
    rw [clipRow_of_oneLine hall, clipSpan_of_oneLine hall]
    conv_rhs => rw [hw]
    rw [Text.trimBy_append_right _ hblank]
  · rw [clipRow_append hfront hraw, clipSpan_append hfront hraw]

end Row

/-! ### Telling a clipped row -/

section Tell

variable {row : List Token}

theorem Shaped.tail {t : Token} (h : Shaped (t :: row)) : Shaped row :=
  fun raw hraw => h raw (List.mem_cons_of_mem _ hraw)

theorem tell_dropWhile (h : Shaped row) :
    tell (row.dropWhile Token.isBlank) = (tell row).dropWhile isBlank := by
  induction row with
  | nil => rfl
  | cons t row ih =>
    cases t with
    | char c =>
      by_cases hc : isBlank c = true
      · rw [List.dropWhile_cons_of_pos (show Token.isBlank (.char c) = true from hc), ih h.tail,
          tell_char_cons, List.dropWhile_cons_of_pos hc]
      · rw [List.dropWhile_cons_of_neg (show ¬ Token.isBlank (.char c) = true from hc),
          tell_char_cons, List.dropWhile_cons_of_neg hc]
    | code raw =>
      obtain ⟨form, inner, rfl⟩ := h raw List.mem_cons_self
      rw [List.dropWhile_cons_of_neg (by simp [Token.isBlank]), tell_code_cons, Form.opener,
        List.cons_append, List.cons_append, List.dropWhile_cons_of_neg (by decide)]

theorem tell_rdropWhile (h : Shaped row) :
    tell (row.rdropWhile Token.isBlank) = (tell row).rdropWhile isBlank := by
  induction row using List.reverseRecOn with
  | nil => rfl
  | append_singleton row t ih =>
    have hrow : Shaped row := h.of_mem fun _ ht => List.mem_append_left _ ht
    rw [List.rdropWhile_concat, tell_append]
    cases t with
    | char c =>
      rw [tell_char_cons, tell_nil, List.rdropWhile_concat]
      by_cases hc : isBlank c = true
      · rw [if_pos (show Token.isBlank (.char c) = true from hc), if_pos hc, ih hrow]
      · rw [if_neg (show ¬ Token.isBlank (.char c) = true from hc), if_neg hc, tell_append]
        rfl
    | code raw =>
      obtain ⟨form, inner, rfl⟩ := h raw (by simp)
      rw [if_neg (by simp [Token.isBlank]), tell_append, tell_code_cons, tell_nil, List.append_nil,
        eq_comm, List.rdropWhile_eq_self_iff]
      intro hne
      have hlast : (tell row ++ (form.opener ++ (inner ++ form.closer))).getLast? = some '}' := by
        rw [List.getLast?_append_of_ne_nil _ (by simp [Form.opener]), ← List.append_assoc,
          getLast?_closer]
      rw [List.getLast?_eq_some_getLast hne] at hlast
      rw [Option.some.inj hlast]
      decide

theorem newline_not_mem_tell {ts : List Token} (h : Token.newline ∉ ts)
    (hone : ts.all Token.oneLine = true) : '\n' ∉ tell ts := by
  intro hmem
  obtain ⟨t, ht, hnl⟩ := List.mem_flatMap.mp hmem
  cases t with
  | char c =>
    obtain rfl : '\n' = c := List.mem_singleton.mp hnl
    exact h ht
  | code raw => exact newline_not_mem_of_oneLine (oneLine_of_mem hone ht) hnl

/-- **A clipped row says what the row says, clipped.** -/
theorem tell_clipRow (hrow : Token.newline ∉ row) (h : Shaped row) :
    tell (clipRow row) = clipLine (tell row) := by
  rcases row_cases row with hall | ⟨front, raw, back, rfl, hfront, hraw⟩
  · rw [clipRow_of_oneLine hall, tell_rdropWhile h,
      clipLine_of_not_mem (newline_not_mem_tell hrow hall), Text.trimEnd_eq_rdropWhile]
  · have hfree : '\n' ∉ tell front :=
      newline_not_mem_tell (fun hmem => hrow (List.mem_append_left _ hmem)) hfront
    have hink : ∃ c ∈ (raw ++ tell back).takeWhile (· ≠ '\n'), isBlank c = false := by
      obtain ⟨form, inner, rfl⟩ := h raw (by simp)
      exact ⟨'{', List.mem_cons_self, by decide⟩
    rw [clipRow_append hfront hraw, tell_append, tell_append, tell_code_cons, tell_code_cons,
      clipLine_append_of_ink hfree hink, clipLine_append_of_mem hraw]

end Tell

/-! ### Clipped regions -/

section Regions

variable {form : Form} {inner : List Char}

theorem newline_mem_inner (h : '\n' ∈ form.opener ++ (inner ++ form.closer)) : '\n' ∈ inner := by
  rcases List.mem_append.mp h with h | h
  · exact absurd h (newline_not_mem_opener form)
  · exact (List.mem_append.mp h).resolve_right (newline_not_mem_closer form)

theorem clipLine_append_left {l cs : List Char} (hl : '\n' ∉ l)
    (hlast : ∀ c ∈ l.getLast?, isBlank c = false) (hcs : '\n' ∈ cs) :
    clipLine (l ++ cs) = l ++ clipLine cs := by
  obtain ⟨m, rest, rfl, hm⟩ := List.eq_append_cons_of_mem hcs
  have hfree : '\n' ∉ l ++ m := by
    rw [List.mem_append, not_or]
    exact ⟨hl, hm⟩
  have htrim : Text.trimEnd (l ++ m) = l ++ Text.trimEnd m := by
    rw [Text.trimEnd_eq_rdropWhile, Text.trimEnd_eq_rdropWhile]
    by_cases hblank : ∀ c ∈ m, isBlank c = true
    · have hnone : ([] ++ m).rdropWhile isBlank = [].rdropWhile isBlank :=
        Text.rdropWhile_append_of_all [] hblank
      rw [List.nil_append, List.rdropWhile_nil] at hnone
      rw [Text.rdropWhile_append_of_all _ hblank, hnone, List.append_nil,
        List.rdropWhile_eq_self_iff]
      intro hne
      rw [hlast _ (List.getLast?_eq_some_getLast hne)]
      simp
    · exact Text.rdropWhile_append_of_ink (by simpa using hblank) l
  rw [clipLine_line hm, ← List.append_assoc, clipLine_line hfree, htrim, List.append_assoc]

theorem clipLine_region (h : '\n' ∈ inner) :
    clipLine (form.opener ++ (inner ++ form.closer)) =
      form.opener ++ (clipLine inner ++ form.closer) := by
  have hlast : ∀ c ∈ form.opener.getLast?, isBlank c = false := by
    intro c hc
    obtain rfl := Option.some.inj hc
    cases form <;> decide
  rw [clipLine_append_left (newline_not_mem_opener form) hlast (List.mem_append_left _ h),
    clipLine_append_of_mem h]

/-- **Clipping a region is a change of blanks that a scan does not notice.** -/
theorem alike_clipLine (h : '\n' ∈ form.opener ++ (inner ++ form.closer)) :
    Token.Alike (.code (form.opener ++ (inner ++ form.closer)))
      (.code (clipLine (form.opener ++ (inner ++ form.closer)))) := by
  have hinner := newline_mem_inner h
  rw [clipLine_region hinner]
  refine .code ((inner_clipLine hinner).append (Inner.refl _)) ?_
  intro c hc
  rw [getLast?_closer] at hc
  obtain rfl := Option.some.inj hc
  decide

/-! ### What a clipped region says -/

theorem marks_clipLine (cs : List Char) :
    Text.marks isBlank '\n' (clipLine cs) = Text.marks isBlank '\n' cs := by
  have hnl : isBlank '\n' = true := by decide
  have htrim : ∀ l : List Char,
      Text.marks isBlank '\n' (Text.trimEnd l) = Text.marks isBlank '\n' l := by
    intro l
    obtain ⟨w, hw, hall⟩ := Text.exists_eq_rdropWhile_append isBlank l
    conv_rhs => rw [hw]
    rw [Text.marks, Text.marks, Text.marksFrom_append_blank hall, Text.trimEnd_eq_rdropWhile]
  by_cases h : '\n' ∈ cs
  · obtain ⟨l, rest, rfl, hl⟩ := List.eq_append_cons_of_mem h
    rw [clipLine_line hl, Text.marks, Text.marks, Text.marksFrom_newline hnl,
      Text.marksFrom_newline hnl]
    exact congrArg (· ++ _) (htrim l)
  · rw [clipLine_of_not_mem h, htrim]

theorem Frame.clipLine {left core right : List Char} (h : Frame left core right)
    (hcore : '\n' ∈ core) : Frame left (Region.clipLine core) right := by
  have hmarker : isMarker '\n' = false := by decide
  obtain ⟨l, u, rest, rfl, hclip, -, -, hu, -⟩ := exists_clip hcore
  rw [hclip]
  have hleft : ((l ++ '\n' :: rest) ++ right).head?.any isMarker =
      ((l ++ (u ++ '\n' :: rest)) ++ right).head?.any isMarker := by
    cases l with
    | cons c l => rfl
    | nil =>
      cases u with
      | nil => rfl
      | cons c u =>
        have hc := not_isMarker_of_isBlank (hu c List.mem_cons_self)
        simp [hmarker, hc]
  have hright : (l ++ '\n' :: rest).getLast?.any isMarker =
      (l ++ (u ++ '\n' :: rest)).getLast?.any isMarker := by
    rw [List.getLast?_append_of_ne_nil _ (by simp), ← List.append_assoc,
      List.getLast?_append_of_ne_nil _ (by simp)]
  refine ⟨?_, ?_⟩
  · rw [hleft]
    exact h.left
  · rw [hright]
    exact h.right

theorem getLast?_opener {left core right : List Char} (h : Frame left core right) (form : Form) :
    ∀ c ∈ (form.opener ++ left).getLast?, isBlank c = false := by
  intro d hd
  rcases h.left with ⟨rfl, -⟩ | ⟨c, hc, rfl⟩
  · rw [List.append_nil] at hd
    obtain rfl := Option.some.inj hd
    cases form <;> decide
  · rw [List.getLast?_append_of_ne_nil _ (by simp)] at hd
    obtain rfl : c = d := Option.some.inj hd
    rw [← Bool.not_eq_true]
    intro hblank
    rw [not_isMarker_of_isBlank hblank] at hc
    exact absurd hc (by simp)

theorem clipLine_framed {left core right : List Char} (h : Frame left core right)
    (hcore : '\n' ∈ core) :
    Region.clipLine (framed form left core right) =
      framed form left (Region.clipLine core) right := by
  have hfree : '\n' ∉ form.opener ++ left := by
    rw [List.mem_append, not_or]
    exact ⟨newline_not_mem_opener form, h.newline_not_mem.1⟩
  have hlast := getLast?_opener h form
  rw [framed, ← List.append_assoc, clipLine_append_left hfree hlast (List.mem_append_left _ hcore),
    clipLine_append_of_mem hcore, List.append_assoc, framed]

/-- The newlines of a region stand in its core. -/
theorem newline_mem_core {left core right : List Char} (hframe : Frame left core right)
    (h : '\n' ∈ framed form left core right) : '\n' ∈ core := by
  rw [framed_eq] at h
  have hinner := newline_mem_inner h
  rw [List.mem_append, List.mem_append] at hinner
  obtain ⟨hleft, hright⟩ := hframe.newline_not_mem
  exact (hinner.resolve_left hleft).resolve_right hright

/-- **A clipped region has the form it had, and says the same but for blanks before
a newline.** -/
theorem reading_clipLine (h : '\n' ∈ form.opener ++ (inner ++ form.closer)) :
    (reading (clipLine (form.opener ++ (inner ++ form.closer)))).1 =
        (reading (form.opener ++ (inner ++ form.closer))).1 ∧
      Text.marks isBlank '\n' (reading (clipLine (form.opener ++ (inner ++ form.closer)))).2 =
        Text.marks isBlank '\n' (reading (form.opener ++ (inner ++ form.closer))).2 := by
  obtain ⟨left, core, right, hraw, hframe⟩ := exists_framed form inner
  have hcore := newline_mem_core hframe (hraw ▸ h)
  have hread : ∀ core', Frame left core' right →
      reading (framed form left core' right) = (.template form, Text.trim core') := by
    intro core' hframe'
    have hbody : body (.template form) (framed form left core' right) = core' :=
      body_frame hframe'
    rw [framed] at hbody
    rw [framed, reading_eq, hbody]
  rw [hraw, clipLine_framed hframe hcore, hread _ (hframe.clipLine hcore), hread _ hframe]
  refine ⟨rfl, ?_⟩
  rw [Text.trim_eq_trimBy, Text.trim_eq_trimBy, Text.marks_trimBy, Text.marks_trimBy,
    marks_clipLine]

end Regions

/-! ### Scanning again -/

section Scans

variable {loose : Bool} {ts us : List Token}

/-- **A row with other blanks between its lines is scanned as it stands.** -/
theorem scans_of_ink (h : Scans loose ts) (hshape : Shaped ts)
    (hink : Text.inkBy Token.isBlank Token.newline ts = Text.inkBy Token.isBlank Token.newline us) :
    Scans loose us := by
  have hmarks := Text.marks_eq_of_ink (by decide) hink
  have hresp : RespacedTokens (ts.dropWhile Token.isBlank) (us.dropWhile Token.isBlank) :=
    Text.respaced_of_marks hmarks fun t ht _ => hshape.alike ht
  have hfront : ∀ vs : List Token, ∀ t ∈ vs.takeWhile Token.isBlank, t.isBlank = true :=
    fun _ _ ht => List.mem_takeWhile_imp ht
  rw [← List.takeWhile_append_dropWhile (p := Token.isBlank) (l := ts)] at h
  rw [← List.takeWhile_append_dropWhile (p := Token.isBlank) (l := us)]
  exact (scans_blank_append (hfront us)).mpr
    (scans_respaced ((scans_blank_append (hfront ts)).mp h) hresp)

/-- A token, or a region in its place whose blanks a scan does not notice. -/
def Near (t u : Token) : Prop :=
  t = u ∨ t.isBlank = false ∧ u.isBlank = false ∧ Token.Alike t u

theorem respaced_of_near (hshape : Shaped ts) (h : List.Forall₂ Near ts us) :
    RespacedTokens ts us := by
  induction h with
  | nil => exact .blank (by simp) (by simp)
  | @cons t u ts us htu _ ih =>
    have hrest := ih hshape.tail
    rcases htu with rfl | ⟨ht, hu, halike⟩
    · cases hblank : t.isBlank with
      | true => exact .gap (Gap.refl (List.forall_mem_singleton.mpr hblank) (by simp)) hrest
      | false => exact .same hblank hblank (hshape.alike List.mem_cons_self) hrest
    · exact .same ht hu halike hrest

theorem near_refl (ts : List Token) : List.Forall₂ Near ts ts :=
  List.forall₂_same.mpr fun _ _ => Or.inl rfl

theorem near_clipSpan {row : List Token} (hshape : Shaped row) :
    List.Forall₂ Near row (clipSpan row) := by
  induction row with
  | nil => exact .nil
  | cons t row ih =>
    cases t with
    | char c => exact .cons (Or.inl rfl) (ih hshape.tail)
    | code raw =>
      rw [clipSpan]
      split
      · next hraw =>
        obtain ⟨form, inner, rfl⟩ := hshape raw List.mem_cons_self
        exact .cons (Or.inr ⟨rfl, rfl, alike_clipLine hraw⟩) (near_refl row)
      · exact .cons (Or.inl rfl) (ih hshape.tail)

theorem near_intercalate {rs : List (List Token)} (hshape : ∀ row ∈ rs, Shaped row) :
    List.Forall₂ Near ([Token.newline].intercalate rs)
      ([Token.newline].intercalate (rs.map clipSpan)) := by
  induction rs with
  | nil => exact .nil
  | cons row rs ih =>
    have hrow := near_clipSpan (hshape row List.mem_cons_self)
    by_cases hrs : rs = []
    · rw [hrs, List.map_cons, List.map_nil, List.intercalate_singleton, List.intercalate_singleton]
      exact hrow
    · rw [List.map_cons, List.intercalate_cons_of_ne_nil hrs,
        List.intercalate_cons_of_ne_nil (by simpa using hrs)]
      refine List.rel_append (List.rel_append hrow (near_refl _)) ?_
      exact ih fun r hr => hshape r (List.mem_cons_of_mem _ hr)

end Scans

end TwigTemplate.Region
