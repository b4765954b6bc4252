import TwigTemplate.Proofs.Element.Places
import TwigTemplate.Proofs.Layout.Slots

/-!
# Searching a document and its protected text

The scan for tags looks for words of markup.  None of them reaches over the border of a template
region, and none stands in a placeholder.  So a search through the document and the same search
through the protected text end at the same slot, unless the first one ends inside a region.

* `Filling`: regions in the places of a row, and words to put there instead.
* `prefix_render_iff`: **a word of markup at the start of a text stands in the row**.
* `exists_takeWhile`: names and blanks at the start of both texts.
* `Found`, `search_render`: **a search through both texts**.
* `Aligned`, `Splits`: lengths that end at the same slot, and a length that ends inside a region.
-/

namespace TwigTemplate.Layout.Slot

open Element (IsWordChar searchLength? searchEnd)
open Text (startsWith)

/-- The texts in the places of a row: template regions of one line, and words. -/
structure Filling (f g : Nat → List Char) (T : List Slot) : Prop where
  region : ∀ k, code k ∈ T → ∃ (form : Form) (inner : List Char),
    f k = form.opener ++ (inner ++ form.closer)
  line : ∀ k, code k ∈ T → '\n' ∉ f k
  word : ∀ k, code k ∈ T → (∃ r, g k = '_' :: r) ∧ ∀ c ∈ g k, IsWordChar c

/-- A row with the same first character in all its places. -/
def Leads (h : Nat → List Char) (c : Char) (T : List Slot) : Prop :=
  ∀ k, code k ∈ T → ∃ r, h k = c :: r

section Lead

variable {h : Nat → List Char} {lead : Char} {S T : List Slot}

theorem Leads.of_suffix (hlead : Leads h lead T) (hS : S <:+ T) : Leads h lead S :=
  fun k hk => hlead k (hS.subset hk)

/-- **A word of markup at the start of a text stands in the row**: it does not begin as the
places do. -/
theorem prefix_render_iff (hlead : Leads h lead S) {w : List Char} (hw : lead ∉ w) :
    w <+: render h S ↔ w.map plain <+: S := by
  induction w generalizing S with
  | nil => simp
  | cons c w ih =>
    rw [List.mem_cons, not_or] at hw
    cases S with
    | nil => simp
    | cons s S =>
      have hrest : Leads h lead S := hlead.of_suffix (List.suffix_cons s S)
      cases s with
      | plain d =>
        rw [render_plain_cons, List.map_cons, List.cons_prefix_cons, List.cons_prefix_cons,
          ih hrest hw.2, plain.injEq]
      | code k =>
        obtain ⟨r, hr⟩ := hlead k List.mem_cons_self
        rw [render_code_cons, hr, List.cons_append, List.map_cons, List.cons_prefix_cons,
          List.cons_prefix_cons]
        constructor
        · exact fun hpre => absurd hpre.1.symm hw.1
        · exact fun hpre => absurd hpre.1 (by simp)

end Lead

section Fill

variable {f g : Nat → List Char} {S T : List Slot}

namespace Filling

theorem of_suffix (hfill : Filling f g T) (hS : S <:+ T) : Filling f g S where
  region k hk := hfill.region k (hS.subset hk)
  line k hk := hfill.line k (hS.subset hk)
  word k hk := hfill.word k (hS.subset hk)

theorem tail {s : Slot} (hfill : Filling f g (s :: S)) : Filling f g S :=
  hfill.of_suffix (List.suffix_cons s S)

theorem leads_region (hfill : Filling f g T) : Leads f '\x7b' T := by
  intro k hk
  obtain ⟨form, inner, heq⟩ := hfill.region k hk
  exact ⟨_, heq⟩

theorem region_ne_nil (hfill : Filling f g T) {k : Nat} (hk : code k ∈ T) : f k ≠ [] := by
  obtain ⟨r, hr⟩ := hfill.leads_region k hk
  rw [hr]
  exact List.cons_ne_nil _ r

theorem leads_word (hfill : Filling f g T) : Leads g '_' T :=
  fun k hk => (hfill.word k hk).1

theorem exists_region_concat (hfill : Filling f g T) {k : Nat} (hk : code k ∈ T) :
    ∃ front, f k = front ++ ['\x7d'] := by
  obtain ⟨form, inner, heq⟩ := hfill.region k hk
  refine ⟨form.opener ++ (inner ++ form.closer.dropLast), ?_⟩
  rw [heq]
  cases form <;> simp [Form.closer]

theorem startsWith_eq (hfill : Filling f g S) {w : List Char} (hbrace : '\x7b' ∉ w)
    (hscore : '_' ∉ w) : startsWith w (render f S) = startsWith w (render g S) := by
  rw [Bool.eq_iff_iff, Text.startsWith_iff, Text.startsWith_iff,
    prefix_render_iff hfill.leads_region hbrace, prefix_render_iff hfill.leads_word hscore]

theorem head?_any_eq (hfill : Filling f g S) {q : Char → Bool} (hbrace : q '\x7b' = false)
    (hscore : q '_' = false) : (render f S).head?.any q = (render g S).head?.any q := by
  cases S with
  | nil => rfl
  | cons s S =>
    cases s with
    | plain c => rfl
    | code k =>
      obtain ⟨r, hr⟩ := hfill.leads_region k List.mem_cons_self
      obtain ⟨w, hw⟩ := hfill.leads_word k List.mem_cons_self
      rw [render_code_cons, render_code_cons, hr, hw]
      show q '\x7b' = q '_'
      rw [hbrace, hscore]

theorem newlineCount_eq (hfill : Filling f g S) :
    Text.newlineCount (render f S) = Text.newlineCount (render g S) := by
  induction S with
  | nil => rfl
  | cons s S ih =>
    cases s with
    | plain c =>
      have happ : ∀ cs : List Char, Text.newlineCount (c :: cs) =
          Text.newlineCount [c] + Text.newlineCount cs := Text.newlineCount_append [c]
      rw [render_plain_cons, render_plain_cons, happ, happ (render g S), ih hfill.tail]
    | code k =>
      have hword : '\n' ∉ g k := fun hmem =>
        ((hfill.word k List.mem_cons_self).2 _ hmem).ne (by decide) (by decide) rfl
      rw [render_code_cons, render_code_cons, Text.newlineCount_append, Text.newlineCount_append,
        Text.newlineCount_eq_zero.mpr (hfill.line k List.mem_cons_self),
        Text.newlineCount_eq_zero.mpr hword, ih hfill.tail]

end Filling

/-- **Names and blanks at the start of both texts** are characters of the row. -/
theorem exists_takeWhile (hfill : Filling f g S) {q : Char → Bool} (hbrace : q '\x7b' = false)
    (hscore : q '_' = false) :
    ∃ u V, S = u.map plain ++ V ∧
      (render f S).takeWhile q = u ∧ (render f S).dropWhile q = render f V ∧
      (render g S).takeWhile q = u ∧ (render g S).dropWhile q = render g V := by
  induction S with
  | nil => exact ⟨[], [], rfl, rfl, rfl, rfl, rfl⟩
  | cons s S ih =>
    cases s with
    | plain c =>
      simp only [render_plain_cons, List.takeWhile_cons, List.dropWhile_cons]
      by_cases hc : q c = true
      · obtain ⟨u, V, rfl, hft, hfd, hgt, hgd⟩ := ih hfill.tail
        refine ⟨c :: u, V, rfl, ?_, ?_, ?_, ?_⟩
        · rw [if_pos hc, hft]
        · rw [if_pos hc, hfd]
        · rw [if_pos hc, hgt]
        · rw [if_pos hc, hgd]
      · exact ⟨[], plain c :: S, rfl, if_neg hc, if_neg hc, if_neg hc, if_neg hc⟩
    | code k =>
      obtain ⟨r, hr⟩ := hfill.leads_region k List.mem_cons_self
      obtain ⟨w, hw⟩ := hfill.leads_word k List.mem_cons_self
      refine ⟨[], code k :: S, rfl, ?_, ?_, ?_, ?_⟩ <;>
        simp [render_code_cons, hr, hw, hbrace, hscore]

/-! ### Searches -/

/-- A search goes on behind a word, or finds something in it. -/
theorem search_append (p : List Char → Bool) (w cs : List Char) :
    searchLength? p (w ++ cs) = (searchLength? p cs).map (· + w.length) ∨
      ∃ front back, w = front ++ back ∧ back ≠ [] ∧
        searchLength? p (w ++ cs) = some front.length ∧ p (back ++ cs) = true := by
  induction w with
  | nil => exact Or.inl (by simp)
  | cons c w ih =>
    rw [List.cons_append, searchLength?]
    by_cases hc : p (c :: (w ++ cs)) = true
    · exact Or.inr ⟨[], c :: w, rfl, by simp, if_pos hc, hc⟩
    · rw [if_neg hc]
      rcases ih with hnext | ⟨front, back, rfl, hne, hfound, hp⟩
      · refine Or.inl ?_
        rw [hnext, Option.map_map]
        rfl
      · exact Or.inr ⟨c :: front, back, rfl, hne, by rw [hfound]; rfl, hp⟩

theorem search_word {p : List Char → Bool} (hword : ∀ c cs, IsWordChar c → p (c :: cs) = false)
    {w : List Char} (hw : ∀ c ∈ w, IsWordChar c) (cs : List Char) :
    searchLength? p (w ++ cs) = (searchLength? p cs).map (· + w.length) := by
  rcases search_append p w cs with h | ⟨front, back, rfl, hne, -, hp⟩
  · exact h
  · obtain ⟨c, back, rfl⟩ := List.exists_cons_of_ne_nil hne
    rw [List.cons_append, hword c _ (hw c (by simp))] at hp
    exact absurd hp (by simp)

/-- What a search finds in both texts: nothing in either, the same slot in both, or a place inside a
region of the first. -/
def Found (p : List Char → Bool) (f g : Nat → List Char) (S : List Slot) (m n : Option Nat) :
    Prop :=
  (m = none ∧ n = none) ∨
  (∃ U V, S = U ++ V ∧ m = some (render f U).length ∧ n = some (render g U).length ∧
    p (render f V) = true) ∨
  ∃ U k V front back, S = U ++ code k :: V ∧ f k = front ++ back ∧ front ≠ [] ∧ back ≠ [] ∧
    m = some ((render f U).length + front.length) ∧ p (back ++ render f V) = true

/-- What is found behind a slot. -/
theorem Found.cons {p : List Char → Bool} {m n : Option Nat} (h : Found p f g S m n) (s : Slot) :
    Found p f g (s :: S) (m.map (· + (render f [s]).length)) (n.map (· + (render g [s]).length)) := by
  have hlength : ∀ (h : Nat → List Char) (U : List Slot),
      (render h (s :: U)).length = (render h U).length + (render h [s]).length := fun h U => by
    rw [← List.singleton_append, render_append, List.length_append, Nat.add_comm]
  rcases h with ⟨rfl, rfl⟩ | ⟨U, V, rfl, rfl, rfl, hfound⟩ |
    ⟨U, k, V, front, back, rfl, hk, hfront, hback, rfl, hfound⟩
  · exact Or.inl ⟨rfl, rfl⟩
  · exact Or.inr (Or.inl ⟨s :: U, V, rfl, congrArg some (hlength f U).symm,
      congrArg some (hlength g U).symm, hfound⟩)
  · refine Or.inr (Or.inr ⟨s :: U, k, V, front, back, rfl, hk, hfront, hback, ?_, hfound⟩)
    rw [Option.map_some, hlength f U]
    congr 1
    omega

/-- **A search through both texts** finds nothing in either, or the same slot in both, or a place
inside a region. -/
theorem search_render (hfill : Filling f g S) {p : List Char → Bool}
    (hsame : ∀ V, V <:+ S → p (render f V) = p (render g V))
    (hword : ∀ c cs, IsWordChar c → p (c :: cs) = false) (hbrace : ∀ cs, p ('\x7b' :: cs) = false) :
    Found p f g S (searchLength? p (render f S)) (searchLength? p (render g S)) := by
  induction S with
  | nil => exact Or.inl ⟨rfl, rfl⟩
  | cons s S ih =>
    have hnext := (ih hfill.tail fun V hV => hsame V (hV.trans (List.suffix_cons s S))).cons s
    cases s with
    | plain c =>
      have hhere := hsame (plain c :: S) (List.suffix_refl _)
      rw [render_plain_cons, render_plain_cons] at hhere ⊢
      rw [searchLength?, searchLength?, ← hhere]
      by_cases hp : p (c :: render f S) = true
      · exact Or.inr (Or.inl ⟨[], plain c :: S, rfl, if_pos hp, if_pos hp, hp⟩)
      · rw [if_neg hp, if_neg hp]
        exact hnext
    | code k =>
      rw [render_code_cons, render_nil, List.append_nil, render_code_cons, render_nil,
        List.append_nil] at hnext
      rw [render_code_cons, render_code_cons,
        search_word hword (hfill.word k List.mem_cons_self).2]
      rcases search_append p (f k) (render f S) with hf | ⟨front, back, hk, hback, hf, hfound⟩
      · rw [hf]
        exact hnext
      · refine Or.inr (Or.inr ⟨[], k, S, front, back, rfl, hk, ?_, hback, ?_, hfound⟩)
        · rintro rfl
          obtain ⟨r, hr⟩ := hfill.leads_region k List.mem_cons_self
          rw [List.nil_append] at hk
          rw [← hk, hr, List.cons_append, hbrace] at hfound
          exact absurd hfound (by simp)
        · rw [hf]
          simp

/-! ### Lengths -/

/-- Lengths of the two texts that end at the same slot. -/
def Aligned (f g : Nat → List Char) (S : List Slot) (m n : Nat) : Prop :=
  ∃ U V, S = U ++ V ∧ m = (render f U).length ∧ n = (render g U).length

/-- A length that ends inside a region. -/
def Splits (f : Nat → List Char) (S : List Slot) (m : Nat) : Prop :=
  ∃ U k V, S = U ++ code k :: V ∧ (render f U).length < m ∧ m < (render f U).length + (f k).length

theorem Aligned.append {U V : List Slot} {m n : Nat} (h : Aligned f g V m n) :
    Aligned f g (U ++ V) ((render f U).length + m) ((render g U).length + n) := by
  obtain ⟨A, B, rfl, rfl, rfl⟩ := h
  exact ⟨U ++ A, B, by rw [List.append_assoc], by rw [render_append, List.length_append],
    by rw [render_append, List.length_append]⟩

theorem Splits.append {U V : List Slot} {m : Nat} (h : Splits f V m) :
    Splits f (U ++ V) ((render f U).length + m) := by
  obtain ⟨A, k, B, rfl, hlow, hhigh⟩ := h
  refine ⟨U ++ A, k, B, by rw [List.append_assoc], ?_, ?_⟩
  · rw [render_append, List.length_append]
    omega
  · rw [render_append, List.length_append]
    omega

/-- A word of markup: it begins with no letter or digit and holds no brace and no underscore. -/
structure Markup (w : List Char) : Prop where
  head : ∃ c r, w = c :: r ∧ ¬ IsWordChar c
  opens : '\x7b' ∉ w
  closes : '\x7d' ∉ w
  score : '_' ∉ w

theorem search_startsWith (hfill : Filling f g S) {w : List Char} (hw : Markup w) :
    (searchLength? (startsWith w) (render f S) = none ∧
      searchLength? (startsWith w) (render g S) = none) ∨
    (∃ U V, S = U ++ (w.map plain ++ V) ∧
      searchLength? (startsWith w) (render f S) = some (render f U).length ∧
      searchLength? (startsWith w) (render g S) = some (render g U).length) ∨
    ∃ i, searchLength? (startsWith w) (render f S) = some i ∧
      ∀ width ≤ w.length, Splits f S (i + width) := by
  obtain ⟨c, r, rfl, hc⟩ := hw.head
  have hstart : ∀ d cs, d ≠ c → startsWith (c :: r) (d :: cs) = false := fun d cs hd => by
    rw [Bool.eq_false_iff]
    intro h
    exact hd (List.cons_prefix_cons.mp (Text.startsWith_iff.mp h)).1.symm
  rcases search_render hfill (p := startsWith (c :: r))
    (fun V hV => (hfill.of_suffix hV).startsWith_eq hw.opens hw.score)
    (fun d cs hd => hstart d cs (fun heq => hc (heq ▸ hd)))
    (fun cs => hstart _ cs fun heq => hw.opens (heq ▸ List.mem_cons_self)) with
    hnone | ⟨U, V, rfl, hf, hg, hfound⟩ | ⟨U, k, V, front, back, rfl, hk, hfront, hback, hf, hfound⟩
  · exact Or.inl hnone
  · have hfillV : Filling f g V := hfill.of_suffix (List.suffix_append U V)
    obtain ⟨V', rfl⟩ := (prefix_render_iff hfillV.leads_region hw.opens).mp
      (Text.startsWith_iff.mp hfound)
    exact Or.inr (Or.inl ⟨U, V', rfl, hf, hg⟩)
  · -- The word ends before the brace that ends the region.
    obtain ⟨init, hinit⟩ := hfill.exists_region_concat (k := k) (by simp)
    obtain ⟨back', rfl⟩ : ∃ back', back = back' ++ ['\x7d'] := by
      obtain ⟨back', d, rfl⟩ := (List.eq_nil_or_concat' back).resolve_left hback
      rw [hinit, ← List.append_assoc] at hk
      have hlast := (List.append_inj' hk rfl).2
      exact ⟨back', by rw [← hlast]⟩
    rw [List.append_assoc] at hfound
    have hshort := (Text.prefix_of_prefix_append_cons hw.closes
      (Text.startsWith_iff.mp hfound)).length_le
    have hpos := List.length_pos_iff.mpr hfront
    refine Or.inr (Or.inr ⟨_, hf, fun width hwidth => ⟨U, k, V, rfl, by omega, ?_⟩⟩)
    rw [hk, List.length_append, List.length_append, List.length_singleton]
    omega

theorem search_quote {c : Char} (hc : ¬ IsWordChar c) {U V : List Slot}
    (hfill : Filling f g (U ++ plain c :: V)) (hU : plain c ∉ U) :
    searchLength? (startsWith [c]) (render g (U ++ plain c :: V)) = some (render g U).length := by
  have hstart : ∀ d cs, startsWith [c] (d :: cs) = true ↔ d = c := fun d cs => by
    rw [Text.startsWith_iff, List.cons_prefix_cons]
    simp [eq_comm]
  induction U with
  | nil => exact if_pos ((hstart c _).mpr rfl)
  | cons s U ih =>
    rw [List.mem_cons, not_or] at hU
    have hnext := ih hfill.tail hU.2
    cases s with
    | plain d =>
      have hd : ¬ startsWith [c] (d :: render g (U ++ plain c :: V)) = true := fun h =>
        hU.1 (congrArg plain ((hstart d _).mp h).symm)
      rw [List.cons_append, render_plain_cons, searchLength?, if_neg hd, hnext]
      rfl
    | code k =>
      have hword : ∀ d cs, IsWordChar d → startsWith [c] (d :: cs) = false := fun d cs hd =>
        Bool.eq_false_iff.mpr fun h => hc ((hstart d cs).mp h ▸ hd)
      rw [List.cons_append, render_code_cons,
        search_word hword (hfill.word k List.mem_cons_self).2, hnext, render_code_cons,
        List.length_append, Nat.add_comm]
      rfl

theorem Aligned.all (f g : Nat → List Char) (S : List Slot) :
    Aligned f g S (render f S).length (render g S).length :=
  ⟨S, [], (List.append_nil S).symm, rfl, rfl⟩

theorem Aligned.plain {u : List Char} {V : List Slot} {m n : Nat} (h : Aligned f g V m n) :
    Aligned f g (u.map .plain ++ V) (u.length + m) (u.length + n) := by
  have happ := h.append (U := u.map .plain)
  rw [render_map_plain, render_map_plain] at happ
  exact happ

theorem Splits.plain {u : List Char} {V : List Slot} {m : Nat} (h : Splits f V m) :
    Splits f (u.map .plain ++ V) (u.length + m) := by
  have happ := h.append (U := u.map .plain)
  rw [render_map_plain] at happ
  exact happ

/-- **The end of a comment, or of a line**, lies inside a region or at the same slot. -/
theorem searchEnd_startsWith (hfill : Filling f g S) {w : List Char} (hw : Markup w) :
    Splits f S (searchEnd (startsWith w) w.length (render f S)) ∨
      Aligned f g S (searchEnd (startsWith w) w.length (render f S))
        (searchEnd (startsWith w) w.length (render g S)) := by
  rw [searchEnd, searchEnd]
  rcases search_startsWith hfill hw with ⟨hf, hg⟩ | ⟨U, V, rfl, hf, hg⟩ | ⟨i, hf, hsplits⟩
  · rw [hf, hg]
    exact Or.inr (.all f g S)
  · rw [hf, hg]
    refine Or.inr ⟨U ++ w.map plain, V, by rw [List.append_assoc], ?_, ?_⟩
    · rw [Option.map_some, Option.getD_some, render_append, List.length_append,
        render_map_plain]
    · rw [Option.map_some, Option.getD_some, render_append, List.length_append,
        render_map_plain]
  · rw [hf]
    exact Or.inl (hsplits _ (Nat.le_refl _))

/-- What stands before the place that a search comes to ends inside a region or at the same
slot. -/
theorem searchEnd_zero (hfill : Filling f g S) {p : List Char → Bool}
    (hsame : ∀ V, V <:+ S → p (render f V) = p (render g V))
    (hword : ∀ c cs, IsWordChar c → p (c :: cs) = false) (hbrace : ∀ cs, p ('\x7b' :: cs) = false) :
    Splits f S (searchEnd p 0 (render f S)) ∨
      Aligned f g S (searchEnd p 0 (render f S)) (searchEnd p 0 (render g S)) := by
  rw [searchEnd, searchEnd]
  rcases search_render hfill hsame hword hbrace with ⟨hf, hg⟩ | ⟨U, V, rfl, hf, hg, -⟩ |
    ⟨U, k, V, front, back, rfl, hk, hfront, hback, hf, -⟩
  · rw [hf, hg]
    exact Or.inr (.all f g S)
  · rw [hf, hg]
    exact Or.inr ⟨U, V, rfl, rfl, rfl⟩
  · have hleft := List.length_pos_iff.mpr hfront
    have hright := List.length_pos_iff.mpr hback
    rw [hf]
    refine Or.inl ⟨U, k, V, rfl, ?_, ?_⟩
    · show _ < (render f U).length + front.length + 0
      omega
    · show (render f U).length + front.length + 0 < _
      rw [hk, List.length_append]
      omega

/-- **The end of a line** lies at the same slot. -/
theorem searchEnd_newline (hfill : Filling f g S) :
    Aligned f g S (searchEnd (startsWith ['\n']) 0 (render f S))
      (searchEnd (startsWith ['\n']) 0 (render g S)) := by
  have hstart : ∀ c cs, startsWith ['\n'] (c :: cs) = true ↔ c = '\n' := fun c cs => by
    rw [Text.startsWith_iff, List.cons_prefix_cons]
    simp [eq_comm]
  have hother : ∀ c cs, c ≠ '\n' → startsWith ['\n'] (c :: cs) = false := fun c cs hc =>
    Bool.eq_false_iff.mpr fun h => hc ((hstart c cs).mp h)
  rw [searchEnd, searchEnd]
  rcases search_render hfill (p := startsWith ['\n'])
    (fun V hV => (hfill.of_suffix hV).startsWith_eq (by decide) (by decide))
    (fun c cs hc => hother c cs (hc.ne (by decide) (by decide)))
    (fun cs => hother _ cs (by decide)) with ⟨hf, hg⟩ | ⟨U, V, rfl, hf, hg, -⟩ |
    ⟨U, k, V, front, back, rfl, hk, -, hback, -, hfound⟩
  · rw [hf, hg]
    exact .all f g S
  · rw [hf, hg]
    exact ⟨U, V, rfl, rfl, rfl⟩
  · -- A region holds no newline.
    obtain ⟨c, back, rfl⟩ := List.exists_cons_of_ne_nil hback
    obtain rfl := (hstart c _).mp hfound
    refine absurd ?_ (hfill.line k (by simp))
    rw [hk]
    exact List.mem_append_right _ List.mem_cons_self

/-- A slot in small letters. -/
def lowered : Slot → Slot
  | plain c => plain c.toLower
  | code k => code k

theorem lowerAscii_render (h : Nat → List Char) (S : List Slot) :
    Text.lowerAscii (render h S) = render (fun k => Text.lowerAscii (h k)) (S.map lowered) := by
  induction S with
  | nil => rfl
  | cons s S ih =>
    cases s with
    | plain c =>
      rw [List.map_cons, lowered, render_plain_cons, render_plain_cons, ← ih]
      rfl
    | code k =>
      rw [List.map_cons, lowered, render_code_cons, render_code_cons, ← ih]
      exact List.map_append

theorem Leads.lower {h : Nat → List Char} {c : Char} (hlead : Leads h c S) :
    Leads (fun k => Text.lowerAscii (h k)) c.toLower (S.map lowered) := by
  intro k hk
  obtain ⟨s, hs, heq⟩ := List.mem_map.mp hk
  cases s with
  | plain d => exact absurd heq (by simp [lowered])
  | code n =>
    obtain rfl : n = k := by simpa [lowered] using heq
    obtain ⟨r, hr⟩ := hlead n hs
    exact ⟨Text.lowerAscii r, congrArg Text.lowerAscii hr⟩

/-- **The content of a raw text element** ends inside a region or at the same slot. -/
theorem searchEnd_closesRaw (hfill : Filling f g S) {name : List Char}
    (hname : Element.holdsRawText name = true) :
    Splits f S (searchEnd (Element.closesRaw name) 0 (render f S)) ∨
      Aligned f g S (searchEnd (Element.closesRaw name) 0 (render f S))
        (searchEnd (Element.closesRaw name) 0 (render g S)) := by
  have hfree : '\x7b' ∉ '<' :: '/' :: name ∧ '_' ∉ '<' :: '/' :: name := by
    rw [Element.holdsRawText, Bool.or_eq_true, decide_eq_true_eq, decide_eq_true_eq] at hname
    rcases hname with rfl | rfl <;> decide
  refine searchEnd_zero hfill (fun V hV => ?_)
    (fun c cs hc => Element.closesRaw_of_ne (hc.ne (by decide) (by decide)) name cs)
    (fun cs => Element.closesRaw_of_ne (by decide) name cs)
  have hV := hfill.of_suffix hV
  rw [Element.closesRaw, Element.closesRaw, Bool.eq_iff_iff, Text.startsWith_iff,
    Text.startsWith_iff, lowerAscii_render, lowerAscii_render,
    prefix_render_iff hV.leads_region.lower (by simpa using hfree.1),
    prefix_render_iff hV.leads_word.lower (by simpa using hfree.2)]

end Fill

end TwigTemplate.Layout.Slot
