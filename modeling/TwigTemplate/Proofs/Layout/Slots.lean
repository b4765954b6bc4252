import TwigTemplate.Layout.Protected
import TwigTemplate.Proofs.Region.Tiling
import TwigTemplate.Proofs.Text.Ink

/-!
# Documents with their template code taken out

A document is a row of slots: characters, and numbered places for its template
regions.  Writing different texts into the places gives the document itself, the
text that a printer sees, and the formatted document.

* `render f T`: the text of `T` with `f n` in the place with number `n`.
* `ofPieces`: the slots of a scanned document.
* `ink`: the lines of a row of slots that hold more than blanks, trimmed.  A
  layout changes everything else; `Relaid` says that two rows have the same ink.
* `render_cut`, `protect_text`: the document, and its protected text, are its
  slots with the regions, and the placeholders, written in.
-/

namespace TwigTemplate.Layout

open Text (isBlank trimBy inkBy inkOf)

/-- A character of a document, or the place of a template region. -/
inductive Slot where
  | plain (c : Char)
  | code (n : Nat)
  deriving DecidableEq, Repr

namespace Slot

/-- A place of a template region is never blank. -/
def isBlank : Slot → Bool
  | plain c => Text.isBlank c
  | code _ => false

def newline : Slot := plain '\n'

/-- The text of a slot when `f n` stands in the place with number `n`. -/
def write (f : Nat → List Char) : Slot → List Char
  | plain c => [c]
  | code n => f n

/-- The text of a row of slots. -/
def render (f : Nat → List Char) (T : List Slot) : List Char :=
  T.flatMap (write f)

/-- The numbers of the places in a row, in order. -/
def codes : List Slot → List Nat
  | [] => []
  | plain _ :: T => codes T
  | code n :: T => n :: codes T

/-- The lines of a row that hold more than blanks, trimmed. -/
def ink (T : List Slot) : List (List Slot) :=
  inkBy isBlank newline T

/-- Two rows that differ in their layout alone. -/
def Relaid (T U : List Slot) : Prop :=
  ink T = ink U

/-! ### Writing out -/

section Render

variable {f g : Nat → List Char}

@[simp] theorem render_nil : render f [] = [] := rfl

@[simp] theorem render_plain_cons (c : Char) (T : List Slot) :
    render f (plain c :: T) = c :: render f T := rfl

@[simp] theorem render_code_cons (n : Nat) (T : List Slot) :
    render f (code n :: T) = f n ++ render f T := rfl

theorem render_append (T U : List Slot) : render f (T ++ U) = render f T ++ render f U := by
  simp [render]

@[simp] theorem render_map_plain (cs : List Char) : render f (cs.map plain) = cs := by
  induction cs with
  | nil => rfl
  | cons c r ih => rw [List.map_cons, render_plain_cons, ih]

theorem codes_append (T U : List Slot) : codes (T ++ U) = codes T ++ codes U := by
  induction T with
  | nil => rfl
  | cons s T ih =>
    cases s with
    | plain c => exact ih
    | code n => exact congrArg (n :: ·) ih

@[simp] theorem codes_map_plain (cs : List Char) : codes (cs.map plain) = [] := by
  induction cs with
  | nil => rfl
  | cons c r ih => exact ih

theorem mem_codes {T : List Slot} {n : Nat} : n ∈ codes T ↔ code n ∈ T := by
  induction T with
  | nil => simp [codes]
  | cons s T ih =>
    cases s with
    | plain c => simp [codes, ih]
    | code m => simp [codes, ih]

theorem codes_filter (T : List Slot) : codes (T.filter (!isBlank ·)) = codes T := by
  induction T with
  | nil => rfl
  | cons s T ih =>
    cases s with
    | plain c =>
      rw [List.filter_cons]
      split
      · exact ih
      · exact ih
    | code n =>
      rw [List.filter_cons_of_pos (by simp [isBlank])]
      exact congrArg (n :: ·) ih

theorem eq_plain_or_code (T : List Slot) :
    (∃ u : List Char, T = u.map plain) ∨
      ∃ (u : List Char) (n : Nat) (U : List Slot), T = u.map plain ++ code n :: U := by
  induction T with
  | nil => exact Or.inl ⟨[], rfl⟩
  | cons s T ih =>
    cases s with
    | code n => exact Or.inr ⟨[], n, T, rfl⟩
    | plain c =>
      rcases ih with ⟨u, rfl⟩ | ⟨u, n, U, rfl⟩
      · exact Or.inl ⟨c :: u, rfl⟩
      · exact Or.inr ⟨c :: u, n, U, rfl⟩

end Render

/-! ### Texts with ink at both ends -/

/-- A text that begins and ends with a character that is not blank. -/
def Inked (cs : List Char) : Prop :=
  cs ≠ [] ∧ (∀ c ∈ cs.head?, Text.isBlank c = false) ∧ ∀ c ∈ cs.getLast?, Text.isBlank c = false

theorem trim_render {f : Nat → List Char} {T : List Slot} (hf : ∀ n ∈ codes T, Inked (f n)) :
    Text.trim (render f T) = render f (trimBy isBlank T) := by
  rw [Text.trim_eq_trimBy]
  refine Text.trimBy_flatMap ?_ ?_
  · intro s _ hs b hb
    cases s with
    | plain c =>
      obtain rfl := List.mem_singleton.mp hb
      exact hs
    | code n => exact absurd hs (by simp [isBlank])
  · intro s hmem hs
    cases s with
    | plain c =>
      refine ⟨by simp [write], fun b hb => ?_, fun b hb => ?_⟩
      · obtain rfl : c = b := by simpa [write] using hb
        exact hs
      · obtain rfl : c = b := by simpa [write] using hb
        exact hs
    | code n => exact hf n (mem_codes.mpr hmem)

theorem splitOn_render {f : Nat → List Char} {T : List Slot}
    (hf : ∀ n ∈ codes T, '\n' ∉ f n) :
    (render f T).splitOn '\n' = (T.splitOn newline).map (render f) := by
  induction T with
  | nil => rfl
  | cons s T ih =>
    cases s with
    | plain c =>
      rw [render_plain_cons, List.splitOn_cons_eq_if_modifyHead,
        List.splitOn_cons_eq_if_modifyHead, ih hf]
      by_cases hc : c = '\n'
      · simp [hc, newline]
      · have hne : ¬ (plain c == newline) = true := by simpa [newline] using hc
        rw [if_neg (by simpa using hc), if_neg hne]
        cases T.splitOn newline <;> rfl
    | code n =>
      have hn : newline ∉ [code n] := by simp [newline]
      rw [render_code_cons, Text.splitOn_append_of_not_mem (hf n List.mem_cons_self),
        ih fun m hm => hf m (List.mem_cons_of_mem _ hm), ← List.singleton_append,
        Text.splitOn_append_of_not_mem hn]
      cases T.splitOn newline <;> rfl

theorem mem_codes_of_mem_splitOn {T l : List Slot} (hl : l ∈ T.splitOn newline) {n : Nat}
    (hn : n ∈ codes l) : n ∈ codes T :=
  mem_codes.mpr (Text.mem_of_mem_splitOn hl (mem_codes.mp hn))

theorem mem_codes_of_mem_trimBy {T : List Slot} {n : Nat} (hn : n ∈ codes (trimBy isBlank T)) :
    n ∈ codes T :=
  mem_codes.mpr (Text.mem_of_mem_trimBy (mem_codes.mp hn))

theorem render_eq_nil_iff {f : Nat → List Char} {T : List Slot} (hf : ∀ n ∈ codes T, f n ≠ []) :
    render f T = [] ↔ T = [] := by
  constructor
  · intro h
    cases T with
    | nil => rfl
    | cons s T =>
      cases s with
      | plain c => simp at h
      | code n =>
        rw [render_code_cons, List.append_eq_nil_iff] at h
        exact absurd h.1 (hf n List.mem_cons_self)
  · rintro rfl
    rfl

/-- **The ink of the text is the ink of the row, written out**, as long as what is
written stays on one line. -/
theorem ink_render {f : Nat → List Char} {T : List Slot} (hline : ∀ n ∈ codes T, '\n' ∉ f n)
    (hf : ∀ n ∈ codes T, Inked (f n)) :
    inkBy Text.isBlank '\n' (render f T) = (ink T).map (render f) := by
  rw [inkBy, splitOn_render hline, List.map_map, ink, inkBy, ← List.filterMap_eq_filter,
    ← List.filterMap_eq_filter, List.map_filterMap, List.filterMap_map, List.filterMap_map]
  apply List.filterMap_congr
  intro l hl
  have hl' : ∀ n ∈ codes l, Inked (f n) := fun n hn => hf n (mem_codes_of_mem_splitOn hl hn)
  have htrim : ∀ n ∈ codes (trimBy isBlank l), f n ≠ [] := fun n hn =>
    (hl' n (mem_codes_of_mem_trimBy hn)).1
  have hrender : trimBy Text.isBlank (render f l) = render f (trimBy isBlank l) := trim_render hl'
  simp only [Function.comp_apply, hrender]
  cases hT : trimBy isBlank l with
  | nil => rfl
  | cons s rest =>
    have hne : render f (s :: rest) ≠ [] := fun he =>
      absurd ((render_eq_nil_iff (by rw [← hT]; exact htrim)).mp he) (by simp)
    simp [Option.guard, hne]

theorem solid_render (f : Nat → List Char) (T : List Slot) :
    Text.solid (render f T) =
      (T.filter (!isBlank ·)).flatMap fun s => Text.solid (write f s) := by
  induction T with
  | nil => rfl
  | cons s T ih =>
    cases s with
    | plain c =>
      rw [render_plain_cons, Text.solid, List.filter_cons, List.filter_cons]
      by_cases hc : Text.isBlank c = true
      · rw [if_neg (by simp [hc]), if_neg (by simp [isBlank, hc])]
        exact ih
      · rw [if_pos (by simpa using hc), if_pos (by simpa [isBlank] using hc), List.flatMap_cons,
          ← ih]
        simp [write, Text.solid, hc]
    | code n =>
      rw [render_code_cons, Text.solid, List.filter_append, List.filter_cons_of_pos (by rfl),
        List.flatMap_cons, ← ih]
      rfl

/-! ### Rows with the same ink -/

namespace Relaid

variable {T U : List Slot}

theorem filter_eq (h : Relaid T U) : T.filter (!isBlank ·) = U.filter (!isBlank ·) := by
  have hnl : isBlank newline = true := by decide
  rw [← Text.filter_flatten_inkBy hnl T, ← Text.filter_flatten_inkBy hnl U]
  exact congrArg (fun ls => List.filter _ (List.flatten ls)) h

theorem codes_eq (h : Relaid T U) : codes T = codes U := by
  rw [← codes_filter T, h.filter_eq, codes_filter]

/-- **A layout keeps all that is not blank.** -/
theorem solid_eq (h : Relaid T U) {f g : Nat → List Char}
    (hfg : ∀ n ∈ codes T, Text.solid (f n) = Text.solid (g n)) :
    Text.solid (render f T) = Text.solid (render g U) := by
  rw [solid_render, solid_render, ← h.filter_eq]
  apply List.flatMap_congr
  intro s hs
  cases s with
  | plain c => rfl
  | code n =>
    apply hfg n
    rw [← codes_filter T]
    exact mem_codes.mpr hs

theorem absent (h : Relaid T U) {w : List Slot} (hne : w ≠ [])
    (hw : ∀ s ∈ w, isBlank s = false) (hT : ¬ w <:+: T) : ¬ w <:+: U := by
  intro hU
  obtain ⟨l, hl, hin⟩ := Text.exists_mem_inkBy_infix (by decide : isBlank newline = true) hne hw hU
  apply hT
  have hmem : l ∈ ink T := by
    rw [show ink T = ink U from h]
    exact hl
  exact hin.trans (Text.infix_of_mem_inkBy hmem)

end Relaid

/-! ### The slots of a document -/

/-- The slots of pieces, the places numbered from `n` on. -/
def ofPieces (n : Nat) : List Region.Piece → List Slot
  | [] => []
  | p :: ps =>
    if p.kind.isTemplate then code n :: ofPieces (n + 1) ps
    else p.raw.map plain ++ ofPieces n ps

/-- The texts of the template regions among pieces, in order. -/
def codeTexts (ps : List Region.Piece) : List (List Char) :=
  (ps.filter (·.kind.isTemplate)).map (·.raw)

theorem codeTexts_cons_of_pos {p : Region.Piece} (hp : p.kind.isTemplate = true)
    (ps : List Region.Piece) : codeTexts (p :: ps) = p.raw :: codeTexts ps := by
  simp [codeTexts, hp]

theorem codeTexts_cons_of_neg {p : Region.Piece} (hp : ¬ p.kind.isTemplate = true)
    (ps : List Region.Piece) : codeTexts (p :: ps) = codeTexts ps := by
  simp [codeTexts, hp]

theorem codes_ofPieces (n : Nat) (ps : List Region.Piece) :
    codes (ofPieces n ps) = List.range' n (codeTexts ps).length := by
  induction ps generalizing n with
  | nil => rfl
  | cons p ps ih =>
    rw [ofPieces]
    by_cases hp : p.kind.isTemplate = true
    · rw [if_pos hp, codeTexts_cons_of_pos hp, List.length_cons, List.range'_succ, ← ih]
      rfl
    · rw [if_neg hp, codeTexts_cons_of_neg hp, codes_append, codes_map_plain, List.nil_append, ih]

/-- The texts of a list, by their numbers. -/
def fill (rs : List (List Char)) (n : Nat) : List Char :=
  rs.getD n []

theorem render_ofPieces_map {f : Nat → List Char} {g : List Char → List Char} {n : Nat}
    {ps : List Region.Piece}
    (hf : ∀ i, i < (codeTexts ps).length → f (n + i) = fill ((codeTexts ps).map g) i) :
    render f (ofPieces n ps) =
      ps.flatMap fun p => if p.kind.isTemplate then g p.raw else p.raw := by
  induction ps generalizing n with
  | nil => rfl
  | cons p ps ih =>
    rw [ofPieces, List.flatMap_cons]
    by_cases hp : p.kind.isTemplate = true
    · rw [codeTexts_cons_of_pos hp] at hf
      have hfirst : f n = g p.raw := hf 0 (by simp)
      rw [if_pos hp, if_pos hp, render_code_cons, hfirst, ih fun i hi => ?_]
      have := hf (i + 1) (by simpa using hi)
      rw [show n + 1 + i = n + (i + 1) by omega, this]
      rfl
    · rw [codeTexts_cons_of_neg hp] at hf
      rw [if_neg hp, if_neg hp, render_append, render_map_plain, ih hf]

theorem render_ofPieces {f : Nat → List Char} {n : Nat} {ps : List Region.Piece}
    (hf : ∀ i, i < (codeTexts ps).length → f (n + i) = fill (codeTexts ps) i) :
    render f (ofPieces n ps) = Region.spell ps := by
  rw [render_ofPieces_map (g := id) (by rwa [List.map_id])]
  simp [Region.spell]

/-- The slots of a scanned text. -/
def cut (reach : Region.Reach) (cs : List Char) : List Slot :=
  ofPieces 0 (Region.pieces reach cs)

/-- The texts of the template regions of a scanned text. -/
def regionTexts (reach : Region.Reach) (cs : List Char) : List (List Char) :=
  codeTexts (Region.pieces reach cs)

theorem codes_cut (reach : Region.Reach) (cs : List Char) :
    codes (cut reach cs) = List.range (regionTexts reach cs).length := by
  rw [cut, codes_ofPieces, List.range_eq_range']
  rfl

/-- **The document is its slots with the regions written in.** -/
theorem render_cut (reach : Region.Reach) (cs : List Char) :
    render (fill (regionTexts reach cs)) (cut reach cs) = cs := by
  rw [cut, render_ofPieces, Region.spell_pieces]
  intro i _
  rw [Nat.zero_add]
  rfl

theorem protectPieces_eq (tag : List Char) (n : Nat) (ps : List Region.Piece) :
    protectPieces tag n ps =
      (render (placeholder tag) (ofPieces n ps), (codeTexts ps).map Region.normalizeSpacing) := by
  induction ps generalizing n with
  | nil => rfl
  | cons p ps ih =>
    rw [protectPieces, ofPieces]
    by_cases hp : p.kind.isTemplate = true
    · rw [if_pos hp, if_pos hp, codeTexts_cons_of_pos hp, ih]
      rfl
    · rw [if_neg hp, if_neg hp, codeTexts_cons_of_neg hp, ih, render_append, render_map_plain]

/-- **The protected text is the document's slots with the placeholders written in.** -/
theorem protect_text (cs : List Char) :
    (protect cs).text = render (placeholder (protect cs).tag) (cut .document cs) := by
  rw [protect, protectPieces_eq]
  rfl

theorem protect_regions (cs : List Char) :
    (protect cs).regions = (regionTexts .document cs).map Region.normalizeSpacing := by
  rw [protect, protectPieces_eq]
  rfl

end Slot

end TwigTemplate.Layout
