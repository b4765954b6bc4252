import TwigTemplate.Proofs.Layout.Ends

/-!
# Documents with squeezed regions

Formatting squeezes the blanks inside a region that touch its delimiters.  If the
document comes out as it was, there was nothing to squeeze.  This is not seen in the
regions themselves: blanks that the printer moves could make up for those that are
squeezed.  It is seen in what leads up to each letter of the document.

* `normalizeSpacing_eq_of_printed`: **a document that is left alone has no blanks to
  squeeze**.
-/

namespace TwigTemplate.Layout

open Text (isBlank)
open Region (Token tell squeeze)

variable {o : PrinterOptions}

/-! ### Squeezing -/

/-- A text that ends with ink. -/
def InkedEnd (cs : List Char) : Prop :=
  cs ≠ [] ∧ ∀ c ∈ cs.getLast?, isBlank c = false

theorem InkedEnd.append {cs : List Char} (h : InkedEnd cs) (front : List Char) :
    InkedEnd (front ++ cs) := by
  refine ⟨List.append_ne_nil_of_right_ne_nil _ h.1, ?_⟩
  rw [List.getLast?_append_of_ne_nil _ h.1]
  exact h.2

section Marks

variable {a b core u : List Char} {x y : Char} {xs ys : List Char}

/-- Blanks between ink that a space stands for in a text with the same marks are that
space. -/
theorem space_eq_of_marks
    (h : Text.marks isBlank '\n' (a ++ (u ++ x :: xs)) =
      Text.marks isBlank '\n' (b ++ (Region.space u.isEmpty ++ y :: ys)))
    (hsolid : Text.solid a = Text.solid b) (ha : InkedEnd a) (hb : InkedEnd b)
    (hu : ∀ c ∈ u, isBlank c = true) (hx : isBlank x = false) (hy : isBlank y = false) :
    Region.space u.isEmpty = u := by
  have hlead := Text.lead_eq_of_marks h hsolid ha.1 hb.1 ha.2 hb.2 hu
    (Region.isBlank_of_mem_space _) hx hy
  rcases Text.lead_eq_iff.mp hlead with he | ⟨-, hmem⟩
  · exact he.symm
  · exact absurd hmem (Region.newline_not_mem_space _)

theorem squeezeEnds_eq_of_marks
    (h : Text.marks isBlank '\n' (a ++ (core ++ x :: xs)) =
      Text.marks isBlank '\n' (b ++ (Region.squeezeEnds core ++ y :: ys)))
    (hsolid : Text.solid a = Text.solid b) (ha : InkedEnd a) (hb : InkedEnd b)
    (hx : isBlank x = false) (hy : isBlank y = false) : Region.squeezeEnds core = core := by
  rcases Region.squeezeEnds_cases core with ⟨hblank, hsq⟩ |
    ⟨u, t, v, hcut, hu, hv, hne, -, hhead, hlast, hsq⟩
  · rw [hsq] at h ⊢
    exact space_eq_of_marks h hsolid ha hb hblank hx hy
  · rw [hsq, hcut] at h
    have hleft : Region.space u.isEmpty = u := by
      obtain ⟨z, zs, rfl⟩ := List.exists_cons_of_ne_nil hne
      have hz : isBlank z = false := hhead z rfl
      have hshape : ∀ e w ws : List Char,
          e ++ (z :: zs ++ w) ++ ws = e ++ z :: (zs ++ (w ++ ws)) := by
        simp
      rw [hshape, hshape] at h
      exact space_eq_of_marks h hsolid ha hb hu hz hz
    have hright : Region.space v.isEmpty = v := by
      have hshape : ∀ c e w ws : List Char,
          c ++ (e ++ (t ++ w) ++ ws) = (c ++ (e ++ t)) ++ (w ++ ws) := by
        simp
      have ht : ∀ c : List Char, InkedEnd (c ++ (u ++ t)) := fun c =>
        (InkedEnd.append ⟨hne, hlast⟩ u).append c
      rw [hshape, hshape, hleft] at h
      refine space_eq_of_marks h ?_ (ht a) (ht b) hv hx hy
      rw [Text.solid_append a, Text.solid_append b, hsolid]
    rw [hsq, hleft, hright, ← hcut]

end Marks

theorem exists_cons_of_frame {left core right : List Char} (h : Region.Frame left core right)
    (form : Form) (back : List Char) :
    ∃ x xs, right ++ (form.closer ++ back) = x :: xs ∧ isBlank x = false := by
  rcases h.right with ⟨rfl, -⟩ | ⟨c, hc, rfl⟩
  · cases form
    · exact ⟨_, _, rfl, by decide⟩
    · exact ⟨_, _, rfl, by decide⟩
    · exact ⟨_, _, rfl, by decide⟩
  · refine ⟨c, _, rfl, ?_⟩
    rw [← Bool.not_eq_true]
    intro hblank
    rw [Region.not_isMarker_of_isBlank hblank] at hc
    exact absurd hc (by simp)

/-- A region whose text is found again with its blanks squeezed has none to squeeze. -/
theorem normalizeSpacing_eq_of_marks {form : Form} {inner front back front' back' : List Char}
    (h : Text.marks isBlank '\n' (front ++ (form.opener ++ (inner ++ form.closer) ++ back)) =
      Text.marks isBlank '\n'
        (front' ++ (Region.normalizeSpacing (form.opener ++ (inner ++ form.closer)) ++ back')))
    (hfront : Text.solid front = Text.solid front') :
    Region.normalizeSpacing (form.opener ++ (inner ++ form.closer)) =
      form.opener ++ (inner ++ form.closer) := by
  obtain ⟨left, core, right, hraw, hframe⟩ := Region.exists_framed form inner
  rw [hraw, Region.normalizeSpacing_frame hframe] at h ⊢
  obtain ⟨x, xs, hx, hxink⟩ := exists_cons_of_frame hframe form back
  obtain ⟨y, ys, hy, hyink⟩ := exists_cons_of_frame hframe form back'
  have hsplit : ∀ before core' after : List Char,
      before ++ (Region.framed form left core' right ++ after) =
        (before ++ (form.opener ++ left)) ++ (core' ++ (right ++ (form.closer ++ after))) := by
    intro before core' after
    simp [Region.framed]
  have hend : InkedEnd (form.opener ++ left) :=
    ⟨by simp [Form.opener], Region.getLast?_opener hframe form⟩
  rw [hsplit, hsplit, hx, hy] at h
  have hcore : Region.squeezeEnds core = core := by
    refine squeezeEnds_eq_of_marks h ?_ (hend.append front) (hend.append front') hxink hyink
    rw [Text.solid_append front, Text.solid_append front', hfront]
  rw [hcore]

theorem solid_tell_filter (ts : List Token) :
    Text.solid (tell (ts.filter (!Token.isBlank ·))) = Text.solid (tell ts) := by
  induction ts with
  | nil => rfl
  | cons t ts ih =>
    have hcons : ∀ us : List Token, tell (t :: us) = t.text ++ tell us := fun _ => rfl
    by_cases ht : t.isBlank = true
    · rw [List.filter_cons_of_neg (by simp [ht]), ih, hcons, Text.solid_append]
      cases t with
      | char c => rw [Token.text, Text.solid_cons_of_blank ht]; rfl
      | code raw => exact absurd ht (by simp [Token.isBlank])
    · rw [List.filter_cons_of_pos (by simp [ht]), hcons, hcons, Text.solid_append, ih,
        Text.solid_append]

theorem solid_tell_map_squeeze (ts : List Token) :
    Text.solid (tell (ts.map squeeze)) = Text.solid (tell ts) := by
  induction ts with
  | nil => rfl
  | cons t ts ih =>
    have hcons : ∀ (u : Token) (us : List Token), tell (u :: us) = u.text ++ tell us :=
      fun _ _ => rfl
    rw [List.map_cons, hcons, hcons, Text.solid_append, Text.solid_append, ih]
    cases t with
    | char c => rfl
    | code raw => rw [squeeze, Token.text, Region.solid_normalizeSpacing, Token.text]

theorem exists_cut_of_filter {α : Type} {q : α → Bool} {xs front back : List α} {x : α}
    (h : xs.filter q = (front ++ x :: back).filter q) (hx : q x = true) :
    ∃ front' back', xs = front' ++ x :: back' ∧ front'.filter q = front.filter q := by
  rw [List.filter_append, List.filter_cons_of_pos hx] at h
  obtain ⟨a, b, rfl, ha, hb⟩ := List.filter_eq_append_iff.mp h
  obtain ⟨u, v, rfl, hu, -, -⟩ := List.filter_eq_cons_iff.mp hb
  refine ⟨a ++ u, v, by rw [List.append_assoc], ?_⟩
  rw [List.filter_append, ha, List.filter_eq_nil_iff.mpr hu, List.append_nil]

/-- **A document whose ink printing does not change has no blanks to squeeze.** -/
theorem normalizeSpacing_eq_of_printed {cs : List Char}
    (h : Text.inkBy isBlank '\n' (printedText o cs) = Text.inkBy isBlank '\n' cs) {raw : List Char}
    (hraw : .code raw ∈ Region.tokens (Region.pieces .document cs)) :
    Region.normalizeSpacing raw = raw := by
  obtain ⟨form, inner, rfl⟩ := Region.shape_of_mem_tokens hraw
  obtain ⟨front, back, hcut⟩ := List.append_of_mem hraw
  have htell := Region.tell_pieces .document cs
  have hnl : Token.newline.isBlank = true := by decide
  -- The region stands squeezed between the same letters.
  have hfilter := Text.filter_flatten_inkBy hnl
    (layOut o Token.isBlank Token.newline (o.indentUnit.map Token.char)
      (lineDeltas (protect cs).text) ((Region.tokens (Region.pieces .document cs)).map squeeze))
  rw [inkBy_layOut (Region.isBlank_of_mem_map_char (isBlank_of_mem_indentUnit o))
    (newline_not_mem_unit (newline_not_mem_indentUnit o)), Text.filter_flatten_inkBy hnl] at hfilter
  have hsqueezed : (Region.tokens (Region.pieces .document cs)).map squeeze = front.map squeeze ++
      .code (Region.normalizeSpacing (form.opener ++ (inner ++ form.closer))) ::
        back.map squeeze := by
    rw [hcut, List.map_append, List.map_cons, squeeze]
  obtain ⟨front', back', hlaid, hfront⟩ :=
    exists_cut_of_filter (hfilter.symm.trans (congrArg _ hsqueezed)) rfl
  have hmarks := Text.marks_eq_of_ink (by decide) h
  rw [printedText_eq, hlaid, Region.tell_append, Region.tell_code_cons] at hmarks
  rw [← htell, hcut, Region.tell_append, Region.tell_code_cons] at hmarks
  refine normalizeSpacing_eq_of_marks hmarks.symm ?_
  rw [← solid_tell_map_squeeze front, ← solid_tell_filter (front.map squeeze), ← hfront,
    solid_tell_filter]

end TwigTemplate.Layout
