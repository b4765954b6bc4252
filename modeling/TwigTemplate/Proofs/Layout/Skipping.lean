import TwigTemplate.Proofs.Layout.Passing

/-!
# Element tags around template code

The scan for tags reads a document with its template regions, or with words in their places.  It
comes to the same slots of the row, as long as it does not stop inside a region, passes each
region that it comes to as a whole, and takes nothing else for the start of one.  In a start tag it
may stop inside the regions of a quoted value when it comes to the end of the value all the same.

* `Passable`: such a row.
* `row_induction`: what passes from the rest of a row on to the row.
* `startTagEnd?_render`, `step_render`: **one tag, read in both texts**.
* `tagsFrom_render`: **both texts have the same tags**.
-/

namespace TwigTemplate.Layout.Slot

open Element (IsWordChar Step attributeLength codeLength endTag? following innerPlaces insides
  isNameChar isNameStart nextLine places searchEnd startTag startTagEnd? step tagAt tagPlaces
  tagsFrom)
open Text (startsWith)

/-! ### Rows and places -/

section Rows

variable {f g : Nat → List Char} {S : List Slot}

theorem infix_of_infix_word_append {c : Char} {r v cs : List Char} (hc : ¬ IsWordChar c)
    (hv : ∀ d ∈ v, IsWordChar d) (h : c :: r <:+: v ++ cs) : c :: r <:+: cs := by
  induction v with
  | nil => exact h
  | cons d v ih =>
    obtain ⟨hd, hv⟩ := List.forall_mem_cons.mp hv
    rw [List.cons_append, List.infix_cons_iff] at h
    rcases h with hpre | hin
    · exact absurd (by rwa [(List.cons_prefix_cons.mp hpre).1]) hc
    · exact ih hv hin

/-- A word without letters, digits and underscores that stands in the protected text stands in
the document. -/
theorem infix_render_of_infix_render (hfill : Filling f g S) {w : List Char} (hne : w ≠ [])
    (hw : ∀ c ∈ w, ¬ IsWordChar c) (h : w <:+: render g S) : w <:+: render f S := by
  induction S with
  | nil => exact absurd (List.infix_nil.mp h) hne
  | cons s S ih =>
    cases s with
    | plain d =>
      have hscore : '_' ∉ w := fun hmem => hw _ hmem (Or.inl rfl)
      rw [render_plain_cons, List.infix_cons_iff, ← render_plain_cons] at h
      rcases h with hpre | hin
      · obtain ⟨V, hV⟩ := (prefix_render_iff hfill.leads_word hscore).mp hpre
        rw [← hV, render_append, render_map_plain]
        exact (List.prefix_append _ _).isInfix
      · exact (ih hfill.tail hin).trans (List.suffix_cons d (render f S)).isInfix
    | code k =>
      obtain ⟨c, r, rfl⟩ := List.exists_cons_of_ne_nil hne
      have hin := infix_of_infix_word_append (hw c List.mem_cons_self)
        (hfill.word k List.mem_cons_self).2 h
      exact (ih hfill.tail hin).trans (List.suffix_append (f k) (render f S)).isInfix

end Rows

/-- A text that begins at a slot of the row. -/
def Bounds (f : Nat → List Char) (T : List Slot) (rest : List Char) : Prop :=
  ∃ A S, T = A ++ S ∧ rest = render f S

/-- A quoted value that the scan comes to the end of, even if a region in it holds the quote. -/
def Resumes (f : Nat → List Char) (c : Char) (S : List Slot) : Prop :=
  (c = '"' ∨ c = '\'') ∧ ∃ U V, S = U ++ plain c :: V ∧ plain c ∉ U ∧
    render f V ∈ innerPlaces 0 (c :: render f S)

/-- A row with regions in its places, and the places that a scan of its text comes to outside of
start tags and inside.  The scan passes the regions as a whole, and what else looks like template
code to it is not closed. -/
structure Passable (f g : Nat → List Char) (T : List Slot) (P I : List (List Char)) : Prop where
  fill : Filling f g T
  /-- A region does not follow a brace. -/
  braceless : ∀ U k V, T ≠ U ++ plain '\x7b' :: code k :: V
  outside : ∀ rest ∈ P, Bounds f T rest
  values : ∀ A c S, T = A ++ plain c :: S → c :: render f S ∈ I →
    Bounds f T ((c :: render f S).drop (attributeLength (c :: render f S))) ∨ Resumes f c S
  passes : ∀ A k S, T = A ++ code k :: S → f k ++ render f S ∈ P ++ I →
    ∀ form ∈ Form.opening? (f k), codeLength form ((f k ++ render f S).drop 2) + 2 = (f k).length
  opens : ∀ A c S, T = A ++ plain c :: S → c :: render f S ∈ P ++ I →
    ∀ form ∈ Form.opening? (c :: render f S), ¬ form.closer <:+: c :: render f S

section Walk

variable {f g : Nat → List Char} {T A S : List Slot} {P I : List (List Char)}

theorem Passable.suffix (h : Passable f g T P I) (hS : T = A ++ S) : Filling f g S :=
  h.fill.of_suffix ⟨A, hS.symm⟩

theorem Passable.bounds (h : Passable f g T P I) {rest : List Char} (hP : rest ≠ [] → rest ∈ P) :
    Bounds f T rest := by
  by_cases hnil : rest = []
  · exact ⟨T, [], (List.append_nil T).symm, hnil⟩
  · exact h.outside rest (hP hnil)

/-- **What begins at a slot does not begin inside a region.** -/
theorem Bounds.not_splits {m : Nat} (h : Bounds f T ((render f S).drop m)) (hS : T = A ++ S) :
    ¬ Splits f S m := by
  rintro ⟨U, k, V, rfl, hlow, hhigh⟩
  obtain ⟨B, W, hT, hW⟩ := h
  have hlength := congrArg List.length hW
  rw [List.length_drop, render_append, render_code_cons, List.length_append,
    List.length_append] at hlength
  rw [hS, ← List.append_assoc] at hT
  rcases List.append_eq_append_iff.mp hT with ⟨C, -, hC⟩ | ⟨C, -, rfl⟩
  · cases C with
    | nil =>
      obtain rfl : code k :: V = W := hC
      rw [render_code_cons, List.length_append] at hlength
      omega
    | cons s C =>
      obtain rfl : V = C ++ W := (List.cons.inj hC).2
      rw [render_append, List.length_append] at hlength
      omega
  · rw [render_append, render_code_cons, List.length_append, List.length_append] at hlength
    omega

/-- The scan passes the start of a row, and the rest decides. -/
def Advances (f : Nat → List Char) (R : List Char → Prop) (Q : List Slot → Prop)
    (S : List Slot) : Prop :=
  ∃ U V, S = U ++ V ∧ U ≠ [] ∧ R (render f V) ∧ (Q V → Q S)

/-- **What passes from the rest that a scan comes to on to the row holds of every row.** -/
theorem row_induction {R : List Char → Prop} {Q : List Slot → Prop} (nil : Q [])
    (cons : ∀ A s S, T = A ++ s :: S → R (render f (s :: S)) →
      Q (s :: S) ∨ Advances f R Q (s :: S))
    (hS : T = A ++ S) (hplaces : R (render f S)) : Q S := by
  generalize hn : S.length = n
  induction n using Nat.strongRecOn generalizing A S with
  | ind n ih =>
    cases S with
    | nil => exact nil
    | cons s S =>
      rcases cons A s S hS hplaces with hdone | ⟨U, V, hUV, hne, hV, hnext⟩
      · exact hdone
      · have hshort : V.length < n := by
          have hlength := congrArg List.length hUV
          have hpos := List.length_pos_iff.mpr hne
          rw [List.length_append] at hlength
          omega
        have hrest : T = (A ++ U) ++ V := by rw [hS, hUV, List.append_assoc]
        exact hnext (ih V.length hshort hrest hV rfl)

theorem opening?_render (h : Passable f g T P I) {c : Char} (hS : T = A ++ plain c :: S) :
    Form.opening? (c :: render f S) = Form.opening? (c :: render g S) := by
  by_cases hc : c = '\x7b'
  · subst hc
    cases S with
    | nil => rfl
    | cons s S =>
      cases s with
      | plain d => rfl
      | code k => exact absurd hS (h.braceless A k S)
  · rw [Element.opening?_of_ne hc, Element.opening?_of_ne hc]

/-- **Template code that is no region** reaches to the end of its line, in both texts. -/
theorem codeLength_render (h : Passable f g T P I) {c : Char} (hS : T = A ++ plain c :: S)
    (hplace : c :: render f S ∈ P ++ I) {form : Form}
    (hform : Form.opening? (c :: render f S) = some form) :
    ∃ d S', S = plain d :: S' ∧
      Aligned f g S' (codeLength form (render f S')) (codeLength form (render g S')) := by
  have hc : c = '\x7b' := by
    by_contra hc
    rw [Element.opening?_of_ne hc] at hform
    exact absurd hform (by simp)
  subst hc
  have hfree := h.opens A _ S hS hplace form hform
  cases S with
  | nil => exact absurd hform (by simp [Form.opening?])
  | cons s S =>
    cases s with
    | code k => exact absurd hS (h.braceless A k S)
    | plain d =>
      have hfill : Filling f g S := (h.suffix hS).tail.tail
      have hraw : ¬ form.closer <:+: render f S := fun hin =>
        hfree (hin.trans ⟨['\x7b', d], [], by simp⟩)
      have hword : ¬ form.closer <:+: render g S := fun hin =>
        hraw (infix_render_of_infix_render hfill (by cases form <;> simp [Form.closer])
          (fun c hc => Element.not_isWordChar_of_mem_closer hc) hin)
      refine ⟨d, S, rfl, ?_⟩
      rw [Element.codeLength_of_free hraw, Element.codeLength_of_free hword]
      exact searchEnd_newline hfill

/-! ### Start tags -/

/-- **What belongs together in a start tag** ends inside a region or at the same slot. -/
theorem attributeLength_render (h : Passable f g T P I) {c : Char} (hS : T = A ++ plain c :: S)
    (hplace : c :: render f S ∈ P ++ I) :
    Splits f (plain c :: S) (attributeLength (c :: render f S)) ∨
      Aligned f g (plain c :: S) (attributeLength (c :: render f S))
        (attributeLength (c :: render g S)) := by
  have hone : Aligned f g (plain c :: S) 1 1 := ⟨[plain c], S, rfl, rfl, rfl⟩
  rw [attributeLength, attributeLength]
  by_cases hquote : c = '"' ∨ c = '\''
  · have hmarkup : Markup [c] := by
      rcases hquote with rfl | rfl
      · exact ⟨⟨_, [], rfl, by decide⟩, by decide, by decide, by decide⟩
      · exact ⟨⟨_, [], rfl, by decide⟩, by decide, by decide, by decide⟩
    rw [if_pos hquote, if_pos hquote, Element.valueLength?_eq, Element.valueLength?_eq]
    rcases search_startsWith (h.suffix hS).tail hmarkup with ⟨hf, hg⟩ | ⟨U, V, rfl, hf, hg⟩ |
      ⟨i, hf, hsplits⟩
    · rw [hf, hg]
      exact Or.inr hone
    · rw [hf, hg]
      refine Or.inr ⟨plain c :: (U ++ [plain c]), V, ?_, ?_, ?_⟩
      · simp
      · rw [render_plain_cons, List.length_cons, render_append, List.length_append]
        rfl
      · rw [render_plain_cons, List.length_cons, render_append, List.length_append]
        rfl
    · rw [hf]
      have hsplit : Splits f ([plain c] ++ S) (1 + (i + 1)) := (hsplits 1 (by simp)).append
      rw [Nat.add_comm] at hsplit
      exact Or.inl hsplit
  · rw [if_neg hquote, if_neg hquote, ← opening?_render h hS]
    cases hform : Form.opening? (c :: render f S) with
    | none => exact Or.inr hone
    | some form =>
      obtain ⟨d, S', rfl, haligned⟩ := codeLength_render h hS hplace hform
      exact Or.inr (haligned.append (U := [plain c, plain d]))

/-- Both texts end a start tag at the same slot, or neither does. -/
def EndsAlike (f g : Nat → List Char) (S : List Slot) : Prop :=
  (startTagEnd? 0 (render f S) = none ∧ startTagEnd? 0 (render g S) = none) ∨
  ∃ kind U V, S = U ++ V ∧ startTagEnd? 0 (render f S) = some (kind, (render f U).length) ∧
    startTagEnd? 0 (render g S) = some (kind, (render g U).length)

theorem EndsAlike.append {U V : List Slot} (h : EndsAlike f g V)
    (hf : startTagEnd? 0 (render f (U ++ V)) =
      (startTagEnd? 0 (render f V)).map fun e => (e.1, e.2 + (render f U).length))
    (hg : startTagEnd? 0 (render g (U ++ V)) =
      (startTagEnd? 0 (render g V)).map fun e => (e.1, e.2 + (render g U).length)) :
    EndsAlike f g (U ++ V) := by
  rcases h with ⟨hfV, hgV⟩ | ⟨kind, A, B, rfl, hfV, hgV⟩
  · rw [hfV] at hf
    rw [hgV] at hg
    exact Or.inl ⟨hf, hg⟩
  · rw [hfV] at hf
    rw [hgV] at hg
    refine Or.inr ⟨kind, U ++ A, B, by rw [List.append_assoc], ?_, ?_⟩
    · rw [hf, render_append, List.length_append, Nat.add_comm]
      rfl
    · rw [hg, render_append, List.length_append, Nat.add_comm]
      rfl

theorem Passable.region_passes (h : Passable f g T P I) {k : Nat} (hS : T = A ++ code k :: S)
    (hplace : f k ++ render f S ∈ P ++ I) : ∃ d r form, f k = '\x7b' :: d :: r ∧
      Form.ofMark? d = some form ∧ codeLength form (r ++ render f S) = r.length := by
  obtain ⟨form, inner, hk⟩ := h.fill.region k (by rw [hS]; simp)
  have hk' : f k = '\x7b' :: form.mark :: (inner ++ form.closer) := hk
  have hmark : Form.ofMark? form.mark = some form := by cases form <;> rfl
  have hlength := h.passes A k S hS hplace form (by rw [hk']; exact hmark)
  rw [hk'] at hlength
  exact ⟨form.mark, _, form, hk', hmark, Nat.add_right_cancel hlength⟩

/-- A region in a start tag is passed as a whole. -/
theorem attributeLength_region (h : Passable f g T P I) {k : Nat} (hS : T = A ++ code k :: S)
    (hplace : f k ++ render f S ∈ P ++ I) :
    ∃ r, f k = '\x7b' :: r ∧ attributeLength ('\x7b' :: (r ++ render f S)) = (f k).length := by
  obtain ⟨d, r, form, hk, hmark, hlen⟩ := h.region_passes hS hplace
  have hform : Form.opening? ('\x7b' :: (d :: r ++ render f S)) = some form := hmark
  refine ⟨d :: r, hk, ?_⟩
  rw [attributeLength, if_neg (by decide), hform, hk]
  show 2 + codeLength form (r ++ render f S) = r.length + 1 + 1
  omega

theorem endsAlike_code (h : Passable f g T P I) {k : Nat} (hS : T = A ++ code k :: S)
    (hplaces : ∀ rest ∈ innerPlaces 0 (render f (code k :: S)), rest ∈ I) :
    Advances f (fun cs => ∀ rest ∈ innerPlaces 0 cs, rest ∈ I) (EndsAlike f g) (code k :: S) := by
  have hfill : Filling f g (code k :: S) := h.suffix hS
  have hk : code k ∈ code k :: S := List.mem_cons_self
  rw [render_code_cons] at hplaces
  have hplace := hplaces _ (Element.self_mem_innerPlaces (by simp [hfill.region_ne_nil hk]))
  obtain ⟨r, hregion, hattribute⟩ := attributeLength_region h hS (List.mem_append_right P hplace)
  have hself : ¬ startsWith ['/', '>'] ('\x7b' :: (r ++ render f S)) = true := by
    rw [Text.startsWith_iff, List.cons_prefix_cons]
    exact fun hpre => absurd hpre.1 (by decide)
  have hcons : f k ++ render f S = '\x7b' :: (r ++ render f S) := by rw [hregion]; rfl
  have hdrop : (f k ++ render f S).drop (f k).length = render f S := List.drop_left
  refine ⟨[code k], S, rfl, by simp, fun rest hrest => ?_, fun hS => ?_⟩
  · apply hplaces
    rw [hcons, Element.innerPlaces_cons (by decide) hself, hattribute, ← hcons, hdrop]
    exact List.mem_cons_of_mem _ hrest
  · refine EndsAlike.append (U := [code k]) hS ?_ ?_
    · show startTagEnd? 0 (f k ++ render f S) = _
      rw [hcons, Element.startTagEnd?_cons (by decide) hself, hattribute, ← hcons, hdrop]
      simp
    · show startTagEnd? 0 (g k ++ render g S) = _
      rw [Element.startTagEnd?_word (hfill.word k hk).2]
      simp

theorem endsAlike_value {c : Char} (hfill : Filling f g (plain c :: S))
    (hplaces : ∀ rest ∈ innerPlaces 0 (render f (plain c :: S)), rest ∈ I)
    (hvalue : Resumes f c S) :
    Advances f (fun cs => ∀ rest ∈ innerPlaces 0 cs, rest ∈ I) (EndsAlike f g) (plain c :: S) := by
  obtain ⟨hquote, U, V, rfl, hfree, hV⟩ := hvalue
  obtain ⟨⟨u, hu, hend⟩, hsub⟩ := Element.startTagEnd?_of_mem hV
  have hrow : plain c :: (U ++ plain c :: V) = (plain c :: (U ++ [plain c])) ++ V := by simp
  have hword : ¬ IsWordChar c := by rcases hquote with rfl | rfl <;> decide
  have hclose : c ≠ '>' := by rcases hquote with rfl | rfl <;> decide
  have hself : ∀ cs, ¬ startsWith ['/', '>'] (c :: cs) = true := fun cs h => by
    have hslash := (List.cons_prefix_cons.mp (Text.startsWith_iff.mp h)).1
    rcases hquote with rfl | rfl <;> exact absurd hslash (by decide)
  have hraw : (render f (plain c :: (U ++ [plain c]))).length = u.length := by
    have hall := congrArg List.length hu
    rw [← render_plain_cons, hrow, render_append, List.length_append, List.length_append] at hall
    exact Nat.add_right_cancel hall
  have hattribute : attributeLength (c :: render g (U ++ plain c :: V)) =
      (render g (plain c :: (U ++ [plain c]))).length := by
    rw [attributeLength, if_pos hquote, Element.valueLength?_eq,
      search_quote hword hfill.tail hfree, render_plain_cons, List.length_cons, render_append,
      List.length_append]
    rfl
  refine ⟨plain c :: (U ++ [plain c]), V, hrow, by simp, fun rest hrest => ?_, fun hends => ?_⟩
  · exact hplaces rest (hsub rest hrest)
  · rw [hrow]
    refine hends.append ?_ ?_
    · rw [← hrow, render_plain_cons, hend, hraw]
    · rw [← hrow, render_plain_cons, Element.startTagEnd?_cons hclose (hself _), hattribute,
        ← render_plain_cons, hrow, render_append, List.drop_left]

theorem endsAlike_plain (h : Passable f g T P I) {c : Char} (hS : T = A ++ plain c :: S)
    (hplaces : ∀ rest ∈ innerPlaces 0 (render f (plain c :: S)), rest ∈ I) :
    EndsAlike f g (plain c :: S) ∨
      Advances f (fun cs => ∀ rest ∈ innerPlaces 0 cs, rest ∈ I) (EndsAlike f g)
        (plain c :: S) := by
  have hfill : Filling f g (plain c :: S) := h.suffix hS
  have hplace : c :: render f S ∈ I :=
    hplaces _ (Element.self_mem_innerPlaces (List.cons_ne_nil _ _))
  have hsame : startsWith ['/', '>'] (c :: render f S) = startsWith ['/', '>'] (c :: render g S) :=
    hfill.startsWith_eq (by decide) (by decide)
  by_cases hclose : c = '>'
  · subst hclose
    exact Or.inl (Or.inr ⟨.opens, [plain '>'], S, rfl, rfl, rfl⟩)
  by_cases hself : startsWith ['/', '>'] (c :: render f S) = true
  · obtain ⟨V, hV⟩ := (prefix_render_iff hfill.leads_region (by decide)).mp
      (Text.startsWith_iff.mp hself)
    refine Or.inl (Or.inr ⟨.selfClosing, [plain '/', plain '>'], V, hV.symm, ?_, ?_⟩)
    · rw [render_plain_cons, startTagEnd?, if_neg hclose, if_pos hself]
      rfl
    · rw [render_plain_cons, startTagEnd?, if_neg hclose, if_pos (hsame ▸ hself)]
      rfl
  rcases h.values A c S hS hplace with hbounds | hvalue
  · have hself' : ¬ startsWith ['/', '>'] (c :: render g S) = true := hsame ▸ hself
    obtain ⟨U, V, hUV, hf, hg⟩ := (attributeLength_render h hS
      (List.mem_append_right P hplace)).resolve_left (hbounds.not_splits hS)
    have hdrop : ∀ e, (render e (plain c :: S)).drop (render e U).length = render e V := by
      intro e
      rw [hUV, render_append, List.drop_left]
    refine Or.inr ⟨U, V, hUV, ?_, fun rest hrest => ?_, fun hV => ?_⟩
    · rintro rfl
      exact absurd hf (Element.attributeLength_pos c _).ne'
    · apply hplaces
      rw [render_plain_cons, Element.innerPlaces_cons hclose hself, hf, ← render_plain_cons, hdrop]
      exact List.mem_cons_of_mem _ hrest
    · rw [hUV]
      refine hV.append ?_ ?_
      · rw [← hUV, render_plain_cons, Element.startTagEnd?_cons hclose hself, hf,
          ← render_plain_cons, hdrop]
      · rw [← hUV, render_plain_cons, Element.startTagEnd?_cons hclose hself', hg,
          ← render_plain_cons, hdrop]
  · exact Or.inr (endsAlike_value hfill hplaces hvalue)

/-- **A start tag ends at the same slot in both texts**, and in the same way. -/
theorem startTagEnd?_render (h : Passable f g T P I) (hS : T = A ++ S)
    (hplaces : ∀ rest ∈ innerPlaces 0 (render f S), rest ∈ I) : EndsAlike f g S := by
  refine row_induction (R := fun cs => ∀ rest ∈ innerPlaces 0 cs, rest ∈ I) (Or.inl ⟨rfl, rfl⟩)
    (fun A s S hS hplaces => ?_) hS hplaces
  cases s with
  | code k => exact Or.inr (endsAlike_code h hS hplaces)
  | plain c => exact endsAlike_plain h hS hplaces

/-! ### Steps -/

/-- What the scan reads in both texts: the same tag, and what belongs to it ends inside a region or
at the same slot. -/
structure StepsAlike (f g : Nat → List Char) (S : List Slot) (a b : Step) : Prop where
  tag : a.tag = b.tag
  length : Splits f S a.length ∨ Aligned f g S a.length b.length

theorem StepsAlike.skip {m n : Nat} (h : Splits f S m ∨ Aligned f g S m n) :
    StepsAlike f g S (.skip m) (.skip n) :=
  ⟨rfl, h⟩

theorem StepsAlike.skip_zero : StepsAlike f g S (.skip 0) (.skip 0) :=
  .skip (Or.inr ⟨[], S, rfl, rfl, rfl⟩)

theorem rawTextLength_render (hfill : Filling f g S) (kind : Element.Kind) (name : List Char) :
    let raw e := if kind = .opens ∧ Element.holdsRawText name then
      Element.rawTextLength name (render e S) else 0
    Splits f S (raw f) ∨ Aligned f g S (raw f) (raw g) := by
  intro raw
  by_cases hraw : kind = .opens ∧ Element.holdsRawText name
  · have hsearch : ∀ e, raw e = searchEnd (Element.closesRaw name) 0 (render e S) := fun e => by
      rw [← Element.rawTextLength_eq]
      exact if_pos hraw
    rw [hsearch, hsearch]
    exact searchEnd_closesRaw hfill hraw.2
  · have hzero : ∀ e, raw e = 0 := fun e => if_neg hraw
    rw [hzero, hzero]
    exact Or.inr ⟨[], S, rfl, rfl, rfl⟩

/-- **A start tag is read alike**, with the content of `script` and `style`. -/
theorem startTag_render (h : Passable f g T P I) (hS : T = A ++ S)
    (hplaces : ∀ rest ∈ innerPlaces 0 ((render f S).dropWhile isNameChar), rest ∈ I) :
    StepsAlike f g S (startTag (render f S)) (startTag (render g S)) := by
  obtain ⟨u, V, rfl, hft, hfd, hgt, hgd⟩ :=
    exists_takeWhile (h.suffix hS) (q := isNameChar) (by decide) (by decide)
  have hV : T = (A ++ u.map plain) ++ V := by rw [hS, List.append_assoc]
  rw [hfd] at hplaces
  unfold startTag
  dsimp only
  rw [hft, hfd, hgt, hgd]
  rcases startTagEnd?_render h hV hplaces with ⟨hf, hg⟩ | ⟨kind, U, W, rfl, hf, hg⟩
  · rw [hf, hg]
    exact .skip (Or.inr (.all f g _))
  · have hdrop : ∀ e, (render e (U ++ W)).drop (render e U).length = render e W := by
      intro e
      rw [render_append, List.drop_left]
    have hW : Filling f g W := h.suffix (hV.trans (List.append_assoc _ U W).symm)
    rw [hf, hg]
    refine ⟨rfl, ?_⟩
    dsimp only
    rw [hdrop, hdrop, Text.lowerAscii, List.length_map, Nat.add_assoc, Nat.add_assoc]
    rcases rawTextLength_render hW _ _ with hsplits | haligned
    · exact Or.inl hsplits.append.plain
    · exact Or.inr haligned.append.plain

/-- **An end tag is read alike.** -/
theorem endTag?_render (hfill : Filling f g S) :
    endTag? (render f S) = endTag? (render g S) ∧
      ∀ s ∈ endTag? (render f S), Aligned f g S s.length s.length := by
  obtain ⟨u, V, rfl, hft, hfd, hgt, hgd⟩ :=
    exists_takeWhile hfill (q := isNameChar) (by decide) (by decide)
  have hV : Filling f g V := hfill.of_suffix (List.suffix_append _ V)
  obtain ⟨v, W, rfl, hft', hfd', hgt', hgd'⟩ :=
    exists_takeWhile hV (q := Element.isGap) (by decide) (by decide)
  have hW : Filling f g W := hV.of_suffix (List.suffix_append _ W)
  rw [Element.endTag?_eq, Element.endTag?_eq, hft, hfd, hgt, hgd, hft', hfd', hgt', hgd',
    hW.startsWith_eq (by decide) (by decide)]
  refine ⟨rfl, fun s hs => ?_⟩
  by_cases hclose : startsWith ['>'] (render g W) = true
  · obtain ⟨W, rfl⟩ := (prefix_render_iff hW.leads_word (by decide)).mp
      (Text.startsWith_iff.mp hclose)
    rw [if_pos hclose] at hs
    obtain rfl := Option.mem_some_iff.mp hs
    show Aligned f g _ (u.length + v.length + 1) (u.length + v.length + 1)
    rw [Nat.add_assoc]
    exact Aligned.plain (Aligned.plain ⟨[plain '>'], W, rfl, rfl, rfl⟩)
  · rw [if_neg hclose] at hs
    exact absurd hs (by simp)

theorem step_bang_render (hfill : Filling f g S) :
    StepsAlike f g (plain '!' :: S) (step '<' ('!' :: render f S))
      (step '<' ('!' :: render g S)) := by
  have hf := prefix_render_iff hfill.leads_region (w := ['-', '-']) (by decide)
  have hg := prefix_render_iff hfill.leads_word (w := ['-', '-']) (by decide)
  by_cases hdash : ['-', '-'].map plain <+: S
  · obtain ⟨V, rfl⟩ := hdash
    have hV : Filling f g V := hfill.of_suffix (List.suffix_append _ V)
    have hmarkup : Markup ['-', '-', '>'] :=
      ⟨⟨'-', ['-', '>'], rfl, by decide⟩, by decide, by decide, by decide⟩
    have hstep : ∀ e, step '<' ('!' :: render e (['-', '-'].map plain ++ V)) =
        .skip (3 + searchEnd (startsWith ['-', '-', '>']) 3 (render e V)) := fun e => by
      rw [← Element.commentLength_eq]
      exact Element.step_comment _
    rw [hstep, hstep]
    rcases searchEnd_startsWith hV hmarkup with hsplits | haligned
    · exact .skip (Or.inl (hsplits.plain (u := ['!', '-', '-'])))
    · exact .skip (Or.inr (haligned.plain (u := ['!', '-', '-'])))
  · rw [Element.step_bang (mt hf.mp hdash), Element.step_bang (mt hg.mp hdash)]
    exact .skip_zero

theorem step_slash_render (hfill : Filling f g S) :
    StepsAlike f g (plain '/' :: S) (step '<' ('/' :: render f S))
      (step '<' ('/' :: render g S)) := by
  obtain ⟨htags, haligned⟩ := endTag?_render hfill
  rw [Element.step_slash, Element.step_slash, ← htags,
    hfill.head?_any_eq (q := isNameStart) (by decide) (by decide)]
  split
  · cases hend : endTag? (render f S) with
    | none => exact .skip_zero
    | some s =>
      have hlength := (haligned s hend).plain (u := ['/'])
      rw [Nat.add_comm] at hlength
      exact ⟨rfl, Or.inr hlength⟩
  · exact .skip_zero

/-- **One place of the scan, read in both texts.** -/
theorem step_render (h : Passable f g T P I) {c : Char} (hS : T = A ++ plain c :: S)
    (hplace : c :: render f S ∈ P) (hinner : ∀ rest ∈ tagPlaces c (render f S), rest ∈ I) :
    StepsAlike f g S (step c (render f S)) (step c (render g S)) := by
  have hfill : Filling f g S := (h.suffix hS).tail
  have hnext : T = (A ++ [plain c]) ++ S := by rw [hS, List.append_assoc]; rfl
  by_cases hc : c = '<'
  · subst hc
    have hname : (render f S).head?.any isNameStart = (render g S).head?.any isNameStart :=
      hfill.head?_any_eq (by decide) (by decide)
    by_cases hstart : (render f S).head?.any isNameStart = true
    · rw [tagPlaces, if_pos ⟨rfl, hstart⟩] at hinner
      rw [Element.step_name hstart, Element.step_name (hname ▸ hstart)]
      exact startTag_render h hnext hinner
    have hother : ∀ e, (render e S).head?.any isNameStart = (render f S).head?.any isNameStart →
        (render e S).head? ≠ some '!' → (render e S).head? ≠ some '/' →
        step '<' (render e S) = .skip 0 := fun e he hbang hslash =>
      Element.step_other hbang hslash (by rw [he]; exact Bool.eq_false_iff.mpr hstart)
    cases S with
    | nil => exact .skip_zero
    | cons s S =>
      cases s with
      | code k =>
        obtain ⟨r, hr⟩ := hfill.leads_region k List.mem_cons_self
        obtain ⟨w, hw⟩ := hfill.leads_word k List.mem_cons_self
        rw [hother f rfl (by simp [hr]) (by simp [hr]),
          hother g hname.symm (by simp [hw]) (by simp [hw])]
        exact .skip_zero
      | plain d =>
        by_cases hbang : d = '!'
        · subst hbang
          exact step_bang_render hfill.tail
        by_cases hslash : d = '/'
        · subst hslash
          exact step_slash_render hfill.tail
        rw [hother f rfl (by simpa using hbang) (by simpa using hslash),
          hother g hname.symm (by simpa using hbang) (by simpa using hslash)]
        exact .skip_zero
  · rw [Element.step_of_ne hc, Element.step_of_ne hc, ← opening?_render h hS]
    cases hform : Form.opening? (c :: render f S) with
    | none => exact .skip_zero
    | some form =>
      obtain ⟨d, S', rfl, haligned⟩ :=
        codeLength_render h hS (List.mem_append_left I hplace) hform
      exact .skip (Or.inr (haligned.append (U := [plain d])))

/-- A region between tags is passed as a whole. -/
theorem step_region (h : Passable f g T P I) {k : Nat} (hS : T = A ++ code k :: S)
    (hplace : f k ++ render f S ∈ P ++ I) :
    ∃ r, f k = '\x7b' :: r ∧ step '\x7b' (r ++ render f S) = .skip r.length := by
  obtain ⟨d, r, form, hk, hmark, hlen⟩ := h.region_passes hS hplace
  have hform : Form.opening? ('\x7b' :: (d :: r ++ render f S)) = some form := hmark
  refine ⟨d :: r, hk, ?_⟩
  rw [Element.step_of_ne (by decide), hform]
  show Step.skip (1 + codeLength form (r ++ render f S)) = .skip (r.length + 1)
  rw [hlen, Nat.add_comm]

/-- Both texts of a row have the same tags. -/
def SameTags (f g : Nat → List Char) (S : List Slot) : Prop :=
  ∀ line, tagsFrom line (render f S) = tagsFrom line (render g S)

/-- The scan of a text comes to known places. -/
structure Known (P I : List (List Char)) (cs : List Char) : Prop where
  outer : ∀ rest ∈ places cs, rest ∈ P
  inner : ∀ rest ∈ insides cs, rest ∈ I

theorem Known.following {c : Char} {r : List Char} (h : Known P I (c :: r)) :
    Known P I (following c r) where
  outer rest hrest := h.outer rest (by
    rw [Element.places_cons]
    exact List.mem_cons_of_mem _ hrest)
  inner rest hrest := h.inner rest (by
    rw [Element.insides_cons]
    exact List.mem_append_right _ hrest)

theorem Known.tag {c : Char} {r : List Char} (h : Known P I (c :: r)) :
    ∀ rest ∈ tagPlaces c r, rest ∈ I := fun rest hrest => h.inner rest (by
  rw [Element.insides_cons]
  exact List.mem_append_left _ hrest)

theorem sameTags_code (h : Passable f g T P I) {k : Nat} (hS : T = A ++ code k :: S)
    (hknown : Known P I (render f (code k :: S))) :
    Advances f (Known P I) (SameTags f g) (code k :: S) := by
  have hfill : Filling f g (code k :: S) := h.suffix hS
  have hk : code k ∈ code k :: S := List.mem_cons_self
  rw [render_code_cons] at hknown
  have hplace := hknown.outer _ (Element.self_mem_places (by simp [hfill.region_ne_nil hk]))
  obtain ⟨r, hregion, hstep⟩ := step_region h hS (List.mem_append_left I hplace)
  have hline : '\n' ∉ '\x7b' :: r := hregion ▸ hfill.line k hk
  have hfollowing : following '\x7b' (r ++ render f S) = render f S := by
    rw [following, hstep]
    exact List.drop_left
  refine ⟨[code k], S, rfl, by simp, ?_, fun hsame line => ?_⟩
  · rw [hregion, List.cons_append] at hknown
    exact hfollowing ▸ hknown.following
  · rw [render_code_cons, render_code_cons, hregion, List.cons_append,
      Element.tagsFrom_skip hstep hline, Element.tagsFrom_word (hfill.word k hk).2]
    exact hsame line

theorem sameTags_plain (h : Passable f g T P I) {c : Char} (hS : T = A ++ plain c :: S)
    (hknown : Known P I (render f (plain c :: S))) :
    Advances f (Known P I) (SameTags f g) (plain c :: S) := by
  have hnext : T = (A ++ [plain c]) ++ S := by rw [hS, List.append_assoc]; rfl
  rw [render_plain_cons] at hknown
  have hplace := hknown.outer _ (Element.self_mem_places (List.cons_ne_nil _ _))
  obtain ⟨htag, hlength⟩ := step_render h hS hplace hknown.tag
  have hbounds : Bounds f T (following c (render f S)) := h.bounds fun hne =>
    hknown.following.outer _ (Element.self_mem_places hne)
  obtain ⟨U, V, rfl, hf, hg⟩ := hlength.resolve_left (hbounds.not_splits hnext)
  have hfollowing : ∀ e, (step c (render e (U ++ V))).length = (render e U).length →
      following c (render e (U ++ V)) = render e V := by
    intro e he
    rw [following, he, render_append, List.drop_left]
  have hcount : Text.newlineCount (render f U) = Text.newlineCount (render g U) := by
    have hV : T = (A ++ [plain c] ++ U) ++ V := by rw [hnext, List.append_assoc _ U]
    have hall := (h.suffix hnext).newlineCount_eq
    have hrest := (h.suffix hV).newlineCount_eq
    rw [render_append, render_append, Text.newlineCount_append, Text.newlineCount_append] at hall
    omega
  have hlines : ∀ e line, (step c (render e (U ++ V))).length = (render e U).length →
      nextLine line c (render e (U ++ V)) =
        line + (Text.newlineCount [c] + Text.newlineCount (render e U)) := by
    intro e line he
    rw [nextLine, he, render_append, List.take_left, ← Text.newlineCount_append]
    rfl
  refine ⟨plain c :: U, V, rfl, by simp, ?_, fun hsame line => ?_⟩
  · exact hfollowing f hf ▸ hknown.following
  · rw [render_plain_cons, render_plain_cons, Element.tagsFrom_cons, Element.tagsFrom_cons,
      tagAt, tagAt, ← htag, hfollowing f hf, hfollowing g hg, hlines f line hf, hlines g line hg,
      hcount, hsame]

/-- **Both texts have the same tags**, on the same lines. -/
theorem tagsFrom_render (h : Passable f g T P I) (hS : T = A ++ S)
    (hknown : Known P I (render f S)) (line : Nat) :
    tagsFrom line (render f S) = tagsFrom line (render g S) := by
  have hsame : SameTags f g S := by
    refine row_induction (fun _ => rfl) (fun A s S hS hknown => Or.inr ?_) hS hknown
    cases s with
    | code k => exact sameTags_code h hS hknown
    | plain c => exact sameTags_plain h hS hknown
  exact hsame line

end Walk

end TwigTemplate.Layout.Slot
