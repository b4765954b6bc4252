import TwigTemplate.Proofs.Layout.Reformatting
import TwigTemplate.Proofs.Region.Rereading

/-!
# The lines of a reformatted document

A row of slots with its texts written in is a row of tokens.  So the ink of a
reformatted document is the ink of the tokens of the document, squeezed.

* `Slot.token`: a slot with its text; `map_token_cut`: the slots of a document are
  the tokens of its scan.
* `inkBy_reindent_printedText`: **the ink of a reformatted document whose openers are closed on
  their lines**, line by line.
-/

namespace TwigTemplate.Layout

open Text (isBlank trimBy inkBy inkOf)
open Region (Token tokens squeeze lineTokens Closed)

namespace Slot

variable {f : Nat → List Char}

/-- A slot with its text written in. -/
def token (f : Nat → List Char) : Slot → Token
  | plain c => .char c
  | code n => .code (f n)

theorem tell_map_token (T : List Slot) : Region.tell (T.map (token f)) = render f T := by
  induction T with
  | nil => rfl
  | cons s T ih =>
    cases s with
    | plain c => exact congrArg (c :: ·) ih
    | code n => exact congrArg (f n ++ ·) ih

theorem isBlank_token (s : Slot) : (token f s).isBlank = isBlank s := by
  cases s <;> rfl

theorem token_eq_newline (s : Slot) : token f s = Token.newline ↔ s = newline := by
  cases s with
  | plain c => simp [token, newline, Token.newline]
  | code n => simp [token, newline, Token.newline]

theorem inkBy_map_token (T : List Slot) :
    inkBy Token.isBlank Token.newline (T.map (token f)) = (ink T).map (List.map (token f)) :=
  Text.inkBy_map token_eq_newline isBlank_token T

theorem map_token_ofPieces {n : Nat} {ps : List Region.Piece}
    (hf : ∀ i, i < (codeTexts ps).length → f (n + i) = fill (codeTexts ps) i) :
    (ofPieces n ps).map (token f) = tokens ps := by
  induction ps generalizing n with
  | nil => rfl
  | cons p ps ih =>
    rw [ofPieces, Region.tokens_cons, Region.Piece.tokens]
    by_cases hp : p.kind.isTemplate = true
    · rw [if_pos hp, if_pos hp, List.map_cons]
      rw [codeTexts_cons_of_pos hp] at hf
      have hfirst : f n = p.raw := hf 0 (by simp)
      rw [ih fun i hi => ?_]
      · rw [token, hfirst]
        rfl
      have := hf (i + 1) (by simpa using hi)
      rw [show n + 1 + i = n + (i + 1) by omega, this]
      rfl
    · rw [codeTexts_cons_of_neg hp] at hf
      rw [if_neg hp, if_neg hp, List.map_append, ih hf, List.map_map]
      rfl

/-- **The slots of a document are the tokens of its scan.** -/
theorem map_token_cut (reach : Region.Reach) (cs : List Char) :
    (cut reach cs).map (token (fill (regionTexts reach cs))) =
      tokens (Region.pieces reach cs) := by
  apply map_token_ofPieces
  intro i _
  rw [Nat.zero_add]
  rfl

theorem squeeze_token {cs : List Char} {n : Nat} (hn : n ∈ codes (cut .document cs)) :
    fill (protect cs).regions n =
      Region.normalizeSpacing (fill (regionTexts .document cs) n) := by
  rw [codes_cut, List.mem_range] at hn
  rw [fill, fill, protect_regions, List.getD_eq_getElem?_getD, List.getD_eq_getElem?_getD,
    List.getElem?_map, List.getElem?_eq_getElem hn]
  rfl

/-- A row of a document with its squeezed regions. -/
theorem map_token_regions {cs : List Char} {T : List Slot}
    (hT : ∀ n ∈ codes T, n ∈ codes (cut .document cs)) :
    T.map (token (fill (protect cs).regions)) =
      (T.map (token (fill (regionTexts .document cs)))).map squeeze := by
  rw [List.map_map]
  apply List.map_congr_left
  intro s hs
  cases s with
  | plain c => rfl
  | code n => exact congrArg Token.code (squeeze_token (hT n (mem_codes.mpr hs)))

end Slot

/-! ### The ink of a reformatted document -/

open Slot (fill cut regionTexts)

theorem inked_region (form : Form) (inner : List Char) :
    Slot.Inked (form.opener ++ (inner ++ form.closer)) := by
  refine ⟨by simp [Form.opener], ?_, ?_⟩
  · intro c hc
    obtain rfl : '{' = c := Option.some.inj hc
    decide
  · intro c hc
    rw [← List.append_assoc, Region.getLast?_closer] at hc
    obtain rfl := Option.some.inj hc
    decide

/-- The regions of a document whose openers are closed on their lines are on one
line. -/
theorem newline_not_mem_of_code_mem {cs raw : List Char}
    (h : ∀ l ∈ cs.splitOn '\n', Closed (Region.pieces .line l))
    (hraw : .code raw ∈ tokens (Region.pieces .document cs)) : '\n' ∉ raw := by
  rw [Region.tokens_pieces_document h] at hraw
  have hmem : .code raw ∈ ((cs.splitOn '\n').map lineTokens).flatten := by
    have hin := List.mem_filter (p := (!Token.isBlank ·)).mpr ⟨hraw, rfl⟩
    rw [Text.filter_intercalate (by decide)] at hin
    exact (List.mem_filter.mp hin).1
  obtain ⟨row, hrow, hin⟩ := List.mem_flatten.mp hmem
  obtain ⟨l, hl, rfl⟩ := List.mem_map.mp hrow
  intro hnl
  apply Text.not_mem_of_mem_splitOn hl
  rw [← Region.tell_lineTokens l]
  exact List.mem_flatMap.mpr ⟨_, hin, hnl⟩

theorem code_mem_of_mem_codes {cs : List Char} {n : Nat}
    (hn : n ∈ Slot.codes (cut .document cs)) :
    .code (fill (regionTexts .document cs) n) ∈ tokens (Region.pieces .document cs) := by
  rw [← Slot.map_token_cut]
  exact List.mem_map.mpr ⟨.code n, Slot.mem_codes.mp hn, rfl⟩

theorem inked_of_mem_codes {cs : List Char}
    (h : ∀ l ∈ cs.splitOn '\n', Closed (Region.pieces .line l)) {n : Nat}
    (hn : n ∈ Slot.codes (cut .document cs)) :
    '\n' ∉ fill (protect cs).regions n ∧ Slot.Inked (fill (protect cs).regions n) := by
  have hcode := code_mem_of_mem_codes hn
  have hfree := newline_not_mem_of_code_mem h hcode
  obtain ⟨form, inner, hraw⟩ := Region.shape_of_mem_tokens hcode
  rw [Slot.squeeze_token hn]
  rw [hraw] at hfree ⊢
  obtain ⟨inner', hshape⟩ := Region.normalizeSpacing_shape form inner
  refine ⟨Region.newline_not_mem_normalizeSpacing fun hmem => hfree ?_, ?_⟩
  · exact List.mem_append_right _ (List.mem_append_left _ hmem)
  · rw [hshape]
    exact inked_region form inner'

/-- **The ink of a reformatted document is the ink of its lines, squeezed**, when
every opener is closed on its line. -/
theorem inkBy_reindent_printedText {o : PrinterOptions} {keepIndent : Bool} {cs : List Char}
    (h : ∀ l ∈ cs.splitOn '\n', Closed (Region.pieces .line l)) :
    inkBy isBlank '\n' (reindent o.indentUnit keepIndent (printedText o cs)) =
      (inkOf Token.isBlank ((cs.splitOn '\n').map lineTokens)).map
        fun ts => Region.tell (ts.map squeeze) := by
  have hcodes : Slot.codes (printedSlots o cs) = Slot.codes (cut .document cs) :=
    (relaid_printedSlots o cs).codes_eq.symm
  have hrelaid : Slot.ink (printedSlots o cs) = Slot.ink (cut .document cs) :=
    (relaid_printedSlots o cs).symm
  have hfree : ∀ l ∈ (cs.splitOn '\n').map lineTokens, Token.newline ∉ l := by
    intro row hrow hmem
    obtain ⟨l, hl, rfl⟩ := List.mem_map.mp hrow
    apply Text.not_mem_of_mem_splitOn hl
    rw [← Region.tell_lineTokens l]
    exact List.mem_flatMap.mpr ⟨_, hmem, List.mem_singleton.mpr rfl⟩
  rw [inkBy_reindent (isBlank_of_mem_indentUnit o) (newline_not_mem_indentUnit o), printedText,
    Slot.ink_render (fun n hn => (inked_of_mem_codes h (hcodes ▸ hn)).1)
      (fun n hn => (inked_of_mem_codes h (hcodes ▸ hn)).2),
    hrelaid, ← Text.inkBy_intercalate _ hfree, ← Region.tokens_pieces_document h,
    ← Slot.map_token_cut, Slot.inkBy_map_token, List.map_map]
  apply List.map_congr_left
  intro T hT
  have hsub : ∀ n ∈ Slot.codes T, n ∈ Slot.codes (cut .document cs) := fun n hn =>
    Slot.mem_codes.mpr ((Text.infix_of_mem_inkBy hT).subset (Slot.mem_codes.mp hn))
  rw [Function.comp_apply, ← Slot.map_token_regions hsub, Slot.tell_map_token]

end TwigTemplate.Layout
