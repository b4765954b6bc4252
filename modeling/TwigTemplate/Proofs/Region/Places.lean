import TwigTemplate.Proofs.Point
import TwigTemplate.Proofs.Region.Rereading

/-!
# The lines that regions stand on

A document falls into rows where a newline stands outside its regions.  A row is
one line, or several when a region of it spans lines.

* `rows`: the rows of a document.
* `places`: the regions of a row of tokens with the lines on which they start.
* `places_ofDocument`: these are the lines that a scan gives.
* `fronts`: the regions that start on the first line of a row; `front_places`.
* `exists_place`: **every other line of a row begins inside a region**.
-/

namespace TwigTemplate.Region

open Text (newlineCount newlineCount_append newlineCount_eq_zero)

/-- The rows of a document: its tokens between the newlines outside its regions. -/
def rows (cs : List Char) : List (List Token) :=
  (tokens (pieces .document cs)).splitOn Token.newline

theorem rows_ne_nil (cs : List Char) : rows cs ≠ [] :=
  List.splitOn_ne_nil _ _

theorem intercalate_rows (cs : List Char) :
    [Token.newline].intercalate (rows cs) = tokens (pieces .document cs) :=
  List.intercalate_splitOn _

theorem tell_intercalate_rows (cs : List Char) :
    tell ([Token.newline].intercalate (rows cs)) = cs := by
  rw [intercalate_rows, tell_pieces]

/-- The regions of tokens that start on a line with the given number, each with
the number of its own first line. -/
def places (line : Nat) : List Token → List (Nat × List Char)
  | [] => []
  | .char c :: ts => places (if c = '\n' then line + 1 else line) ts
  | .code raw :: ts => (line, raw) :: places (line + newlineCount raw) ts

/-- The regions that start before any line ends. -/
def fronts : List Token → List (List Char)
  | [] => []
  | .char _ :: ts => fronts ts
  | .code raw :: ts => raw :: if '\n' ∈ raw then [] else fronts ts

/-! ### Counting lines -/

theorem newlineCount_tell_char (c : Char) (ts : List Token) (line : Nat) :
    line + newlineCount (tell (.char c :: ts)) =
      (if c = '\n' then line + 1 else line) + newlineCount (tell ts) := by
  rw [tell_char_cons, newlineCount, newlineCount]
  by_cases hc : c = '\n'
  · rw [if_pos hc, hc, List.count_cons_self]
    omega
  · rw [if_neg hc, List.count_cons_of_ne hc]

theorem newlineCount_tell_code (raw : List Char) (ts : List Token) :
    newlineCount (tell (.code raw :: ts)) = newlineCount raw + newlineCount (tell ts) := by
  rw [tell_code_cons, newlineCount_append]

theorem places_append (line : Nat) (ts us : List Token) :
    places line (ts ++ us) = places line ts ++ places (line + newlineCount (tell ts)) us := by
  induction ts generalizing line with
  | nil => rfl
  | cons t ts ih =>
    cases t with
    | char c =>
      rw [List.cons_append, places, ih, newlineCount_tell_char]
      rfl
    | code raw =>
      rw [List.cons_append, places, ih, newlineCount_tell_code, Nat.add_assoc]
      rfl

theorem places_map_char (line : Nat) (cs : List Char) : places line (cs.map .char) = [] := by
  induction cs generalizing line with
  | nil => rfl
  | cons c cs ih => exact ih _

/-- A region stands within the lines of its row. -/
theorem bounds_of_mem_places {line l : Nat} {raw : List Char} {ts : List Token}
    (h : (l, raw) ∈ places line ts) :
    line ≤ l ∧ l + newlineCount raw ≤ line + newlineCount (tell ts) := by
  induction ts generalizing line with
  | nil => simp [places] at h
  | cons t ts ih =>
    cases t with
    | char c =>
      obtain ⟨hle, hend⟩ := ih h
      rw [newlineCount_tell_char]
      refine ⟨Nat.le_trans ?_ hle, hend⟩
      split <;> omega
    | code raw' =>
      rw [newlineCount_tell_code]
      rcases List.mem_cons.mp h with he | h
      · obtain ⟨rfl, rfl⟩ := Prod.mk.inj he
        omega
      · obtain ⟨hle, hend⟩ := ih h
        omega

/-! ### Rows -/

section Row

variable {line : Nat} {row : List Token}

theorem newline_not_mem_of_char {c : Char} (h : Token.newline ∉ Token.char c :: row) :
    c ≠ '\n' ∧ Token.newline ∉ row := by
  rw [List.mem_cons, not_or] at h
  refine ⟨fun hc => h.1 ?_, h.2⟩
  rw [hc]
  rfl

/-- **Every line of a row but the first begins inside a region.** -/
theorem exists_place (hrow : Token.newline ∉ row) {j : Nat} (hpos : 0 < j)
    (hj : j ≤ newlineCount (tell row)) :
    ∃ l raw, (l, raw) ∈ places line row ∧ l < line + j ∧ line + j ≤ l + newlineCount raw := by
  induction row generalizing line j with
  | nil =>
    have hzero : newlineCount (tell []) = 0 := rfl
    omega
  | cons t row ih =>
    cases t with
    | char c =>
      obtain ⟨hc, hfree⟩ := newline_not_mem_of_char hrow
      have hcount := newlineCount_tell_char c row 0
      rw [if_neg hc] at hcount
      have hplaces : places line (.char c :: row) = places line row := by
        rw [places, if_neg hc]
      rw [hplaces]
      exact ih hfree hpos (by omega)
    | code raw =>
      rw [List.mem_cons, not_or] at hrow
      rw [newlineCount_tell_code] at hj
      by_cases hle : j ≤ newlineCount raw
      · exact ⟨line, raw, List.mem_cons_self, by omega, by omega⟩
      · have hrest : ∃ l raw', (l, raw') ∈ places (line + newlineCount raw) row ∧
            l < line + newlineCount raw + (j - newlineCount raw) ∧
            line + newlineCount raw + (j - newlineCount raw) ≤ l + newlineCount raw' :=
          ih hrow.2 (by omega) (by omega)
        obtain ⟨l, raw', hmem, hlow, hhigh⟩ := hrest
        exact ⟨l, raw', List.mem_cons_of_mem _ hmem, by omega, by omega⟩

theorem front_places (hrow : Token.newline ∉ row) :
    ((places line row).filter (·.1 = line)).map Prod.snd = fronts row := by
  induction row generalizing line with
  | nil => rfl
  | cons t row ih =>
    cases t with
    | char c =>
      obtain ⟨hc, hfree⟩ := newline_not_mem_of_char hrow
      rw [places, if_neg hc, ih hfree, fronts]
    | code raw =>
      rw [List.mem_cons, not_or] at hrow
      rw [places, List.filter_cons_of_pos (by simp), List.map_cons, fronts]
      by_cases hraw : '\n' ∈ raw
      · have hpos : 0 < newlineCount raw := List.count_pos_iff.mpr hraw
        have hnone : (places (line + newlineCount raw) row).filter (·.1 = line) = [] := by
          rw [List.filter_eq_nil_iff]
          rintro ⟨l, raw'⟩ hmem
          have hbound := bounds_of_mem_places hmem
          rw [decide_eq_true_eq]
          dsimp only
          omega
        rw [hnone, if_pos hraw]
        rfl
      · have hzero := newlineCount_eq_zero.mpr hraw
        rw [hzero, Nat.add_zero, ih hrow.2, if_neg hraw]

end Row

/-! ### The scan of a document -/

theorem mem_locate {start : Point} {ps : List Piece} {r : Region} (h : r ∈ locate start ps) :
    ⟨r.kind, r.raw⟩ ∈ ps ∧ r.stop = r.start.advance r.raw := by
  induction ps generalizing start with
  | nil => simp [locate] at h
  | cons p ps ih =>
    rcases List.mem_cons.mp h with rfl | h
    · exact ⟨List.mem_cons_self, rfl⟩
    · obtain ⟨hmem, hstop⟩ := ih h
      exact ⟨List.mem_cons_of_mem _ hmem, hstop⟩

theorem places_locate (start : Point) (ps : List Piece) :
    ((locate start ps).filter (·.kind.isTemplate)).map (fun r => (r.line, r.raw)) =
      places start.line (tokens ps) := by
  induction ps generalizing start with
  | nil => rfl
  | cons p ps ih =>
    have hline : (start.advance p.raw).line = start.line + newlineCount p.raw :=
      Point.advance_line start p.raw
    rw [locate, tokens_cons, Piece.tokens]
    by_cases hp : p.kind.isTemplate = true
    · rw [if_pos hp, List.filter_cons_of_pos (by exact hp), List.map_cons, ih, hline]
      rfl
    · rw [if_neg hp, List.filter_cons_of_neg (by exact hp), ih, hline, places_append,
        places_map_char, List.nil_append, tell_map_char]

/-- **The regions of a document stand where its tokens say.** -/
theorem places_ofDocument (cs : List Char) :
    ((ofDocument cs).filter (·.kind.isTemplate)).map (fun r => (r.line, r.raw)) =
      places 1 (tokens (pieces .document cs)) :=
  places_locate .origin (pieces .document cs)

theorem reading_of_mem_ofDocument {cs : List Char} {r : Region}
    (h : r ∈ (ofDocument cs).filter (·.kind.isTemplate)) :
    reading r.raw = (r.kind, r.content) ∧ r.stop.line = r.line + newlineCount r.raw := by
  obtain ⟨hmem, htemplate⟩ := List.mem_filter.mp h
  obtain ⟨hpiece, hstop⟩ := mem_locate hmem
  constructor
  · cases hkind : r.kind with
    | text => rw [hkind] at htemplate; exact absurd htemplate (by simp [Kind.isTemplate])
    | unterminated form =>
      rw [hkind] at htemplate
      exact absurd htemplate (by simp [Kind.isTemplate])
    | template form =>
      obtain ⟨inner, hraw⟩ := shape_of_mem_pieces _ hpiece hkind
      dsimp only at hraw
      rw [content, hkind, if_neg (by simp), hraw, reading_eq]
  · rw [hstop, Point.advance_line]
    rfl

end TwigTemplate.Region
