import TwigTemplate.Proofs.Region.Closing
import TwigTemplate.Proofs.Region.Framing
import TwigTemplate.Proofs.Region.Quiet

/-!
# A squeezed region by itself

Squeezing looks at the characters of a region alone, not at the search that found its end.  The two
agree: blanks behind the opener are passed by every search, and blanks before the closer make, with
that closer, an end that nothing before them reaches into.  This holds also when a newline is
squeezed away, as no quote stands behind it in the region.

* `squeezeEnds_spaced`: ink between single spaces is squeezed.
* `closes_squeezeEnds`: **squeezing the core of a region does not move its closer**.
* `exists_frame_of_mem`: a region of a document ends where its closer stands, whatever follows.
* `ofDocument_of_closed`: a text that is closed at its end is one region.
* `Spaced`: the runs of blanks of a region.
* `normalizeSpacing_alone`: **a squeezed region is still the same region**.
-/

namespace TwigTemplate.Region

open Text (isBlank)

variable {form : Form} {x t v w : List Char} {c : Char}

/-! ### Squeezed cores -/

/-- **Ink between spaces is squeezed.** -/
theorem squeezeEnds_spaced (hne : t ≠ []) (hhead : ∀ c ∈ t.head?, isBlank c = false)
    (hlast : ∀ c ∈ t.getLast?, isBlank c = false) (a b : Bool) :
    squeezeEnds (space a ++ (t ++ space b)) = space a ++ (t ++ space b) := by
  have htrim : Text.trim (space a ++ (t ++ space b)) = t := by
    rw [Text.trim_eq_trimBy, Text.trimBy_append_left (isBlank_of_mem_space a),
      Text.trimBy_append_right _ (isBlank_of_mem_space b), Text.trimBy_eq_self hhead hlast]
  have hstart : Text.startsBlank (space a ++ (t ++ space b)) = !a := by
    cases a with
    | true =>
      obtain ⟨c, r, rfl⟩ := List.exists_cons_of_ne_nil hne
      exact hhead c rfl
    | false => rfl
  have hend : Text.endsBlank (space a ++ (t ++ space b)) = !b := by
    rw [Text.endsBlank, ← List.append_assoc]
    generalize space a = front
    cases b with
    | true =>
      have hmem := List.getLast?_eq_some_getLast hne
      rw [space, if_pos rfl, List.append_nil, List.getLast?_append_of_ne_nil _ hne, hmem]
      exact hlast _ hmem
    | false =>
      have hspace : space false = [' '] := rfl
      rw [hspace, List.getLast?_append_of_ne_nil _ (by simp)]
      rfl
  have hempty : ¬ (space a ++ (t ++ space b)).isEmpty = true := by simp [hne]
  have hink : ¬ Text.allBlank (space a ++ (t ++ space b)) = true := by
    intro hall
    obtain ⟨c, r, rfl⟩ := List.exists_cons_of_ne_nil hne
    have hblank : isBlank c = true := List.all_eq_true.mp hall c (by simp)
    rw [hhead c rfl] at hblank
    exact absurd hblank (by simp)
  rw [squeezeEnds, if_neg hempty, if_neg hink, htrim, hstart, hend, List.append_assoc]
  cases a <;> cases b <;> rfl

theorem squeezeEnds_space : ∀ b : Bool, squeezeEnds (space b) = space b := by decide

theorem squeezeEnds_squeezeEnds (core : List Char) :
    squeezeEnds (squeezeEnds core) = squeezeEnds core := by
  rcases squeezeEnds_cases core with ⟨-, hsq⟩ | ⟨u, t, v, -, -, -, hne, -, hhead, hlast, hsq⟩
  · rw [hsq, squeezeEnds_space]
  · rw [hsq]
    exact squeezeEnds_spaced hne hhead hlast u.isEmpty v.isEmpty

/-! ### Squeezed ends -/

theorem lengthAfterOpener?_gap {u : List Char} (hu : ∀ c ∈ u, isBlank c = true) (x : List Char) :
    lengthAfterOpener? .document form (u ++ x) =
      (lengthAfterOpener? .document form x).map (· + u.length) := by
  cases form with
  | comment => exact commentLength?_gap hu x
  | output => exact expressionLength?_gap hu x
  | statement => exact expressionLength?_gap hu x

theorem closes_blank_append {u : List Char} (hu : ∀ c ∈ u, isBlank c = true) :
    lengthAfterOpener? .document form (u ++ x) = some (u ++ x).length ↔
      lengthAfterOpener? .document form x = some x.length := by
  rw [lengthAfterOpener?_gap hu, List.length_append]
  cases lengthAfterOpener? .document form x with
  | none => simp
  | some k =>
    rw [Option.map_some, Option.some.injEq, Option.some.injEq]
    omega

/-- Blanks and a closer end a text quietly. -/
theorem quiet_blank_append (hv : ∀ c ∈ v, isBlank c = true) (hne : v ≠ [])
    (hw : ∀ c ∈ w, isQuote c = false) : Quiet (v ++ w) := by
  obtain ⟨d, v, rfl⟩ := List.exists_cons_of_ne_nil hne
  constructor
  · intro c hc
    rcases List.mem_append.mp hc with hc | hc
    · exact isQuote_of_isBlank (hv c hc)
    · exact hw c hc
  · intro hbrace
    obtain rfl : d = '}' := Option.some.inj hbrace
    exact absurd (hv '}' List.mem_cons_self) (by decide)

/-- **Other blanks before the closer do not move it**, be there a newline among them or none. -/
theorem closes_blank_end {v v' : List Char} (hv : ∀ c ∈ v, isBlank c = true)
    (hv' : ∀ c ∈ v', isBlank c = true) (hne : v = [] ↔ v' = [])
    (hw : ∀ c ∈ w, isQuote c = false)
    (h : lengthAfterOpener? .document form (t ++ (v ++ w)) = some (t ++ (v ++ w)).length) :
    lengthAfterOpener? .document form (t ++ (v' ++ w)) = some (t ++ (v' ++ w)).length := by
  by_cases hnil : v = []
  · rw [hne.mp hnil]
    rwa [hnil] at h
  · have hreach : Reach.document = .line → '\n' ∉ t := fun he => absurd he (by decide)
    rw [lengthAfterOpener?_append_quiet (quiet_blank_append hv hnil hw) hreach,
      Option.or_eq_some_iff] at h
    rcases h with h | ⟨hnone, h⟩
    · -- The closer would stand before the blanks.
      have hbound := (lengthAfterOpener?_bound h).1
      have hpos := List.length_pos_iff.mpr hnil
      rw [List.length_append, List.length_append] at hbound
      omega
    · obtain ⟨k, hk, hlen⟩ := Option.map_eq_some_iff.mp h
      obtain rfl : k = (v ++ w).length := by
        rw [List.length_append] at hlen
        omega
      have hquiet := quiet_blank_append hv' (fun he => hnil (hne.mpr he)) hw
      have hcloses := (closes_blank_append hv').mpr ((closes_blank_append hv).mp hk)
      rw [lengthAfterOpener?_append_quiet hquiet hreach, hnone, Option.none_or, hcloses,
        Option.map_some, Nat.add_comm, ← List.length_append]

/-! ### Squeezed regions -/

section Regions

variable {left core right inner : List Char}

theorem normalizeSpacing_eq_self_iff (h : Frame left core right) :
    normalizeSpacing (framed form left core right) = framed form left core right ↔
      squeezeEnds core = core := by
  rw [normalizeSpacing_frame h, framed, framed, List.append_cancel_left_eq,
    List.append_cancel_left_eq, List.append_cancel_right_eq]

theorem Frame.isQuote (h : Frame left core right) (form : Form) :
    ∀ c ∈ right ++ form.closer, isQuote c = false := by
  intro c hc
  rcases List.mem_append.mp hc with hc | hc
  · rcases h.right with ⟨rfl, -⟩ | ⟨d, hd, rfl⟩
    · exact absurd hc List.not_mem_nil
    · obtain rfl := List.mem_singleton.mp hc
      exact isQuote_of_isMarker hd
  · exact isQuote_of_mem_closer form c hc

theorem Frame.lengthAfterOpener? (h : Frame left core right) (form : Form) (x : List Char) :
    lengthAfterOpener? .document form (left ++ x) = some (left ++ x).length ↔
      lengthAfterOpener? .document form x = some x.length := by
  rcases h.left with ⟨rfl, -⟩ | ⟨d, hd, rfl⟩
  · exact Iff.rfl
  · rw [List.singleton_append, lengthAfterOpener?_marker hd, List.length_cons]
    cases Region.lengthAfterOpener? .document form x <;> simp

/-- **Squeezing the core of a region does not move its closer.** -/
theorem closes_squeezeEnds (hw : ∀ c ∈ w, isQuote c = false)
    (h : lengthAfterOpener? .document form (core ++ w) = some (core ++ w).length) :
    lengthAfterOpener? .document form (squeezeEnds core ++ w) =
      some (squeezeEnds core ++ w).length := by
  rcases squeezeEnds_cases core with ⟨hblank, hsq⟩ | ⟨u, t, v, rfl, hu, hv, -, -, -, -, hsq⟩
  · rw [closes_blank_append hblank] at h
    rw [hsq, closes_blank_append (isBlank_of_mem_space _)]
    exact h
  · have hempty : v = [] ↔ space v.isEmpty = [] := by
      cases v <;> simp
    rw [List.append_assoc, List.append_assoc, closes_blank_append hu] at h
    rw [hsq, List.append_assoc, List.append_assoc, closes_blank_append (isBlank_of_mem_space _)]
    exact closes_blank_end hv (isBlank_of_mem_space _) hempty hw h

theorem exists_frame_of_mem {cs : List Char} {r : Region} (hr : r ∈ ofDocument cs)
    (htemplate : r.kind.isTemplate = true) :
    ∃ form left core right, r.kind = .template form ∧ Frame left core right ∧
      r.raw = framed form left core right ∧
      lengthAfterOpener? .document form (left ++ (core ++ (right ++ form.closer))) =
        some (left ++ (core ++ (right ++ form.closer))).length := by
  obtain ⟨hmem, -⟩ := mem_locate hr
  obtain ⟨form, hkind⟩ : ∃ form, r.kind = .template form := by
    cases hk : r.kind with
    | template form => exact ⟨form, rfl⟩
    | text => exact absurd htemplate (by rw [hk]; decide)
    | unterminated form => exact absurd htemplate (by rw [hk]; simp [Kind.isTemplate])
  obtain ⟨inner, hraw⟩ := shape_of_mem_pieces _ hmem hkind
  have hcode : Token.code r.raw ∈ tokens (pieces .document cs) := by
    refine List.mem_flatMap.mpr ⟨_, hmem, ?_⟩
    rw [Piece.tokens, if_pos htemplate]
    exact List.mem_singleton_self _
  obtain ⟨front, back, hcut⟩ := List.append_of_mem hcode
  obtain ⟨⟨form', body, hbody, hlength⟩, -⟩ := (hcut ▸ scans_document cs).of_code
  obtain ⟨left, core, right, hframed, hframe⟩ := exists_framed form inner
  dsimp only at hraw
  rw [hframed] at hraw
  obtain ⟨rfl, rfl⟩ := opener_inj (hbody.symm.trans hraw)
  exact ⟨form', left, core, right, hkind, hframe, hraw, lengthAfterOpener?_of_append hlength le_rfl⟩

/-- **A text that is closed at its end is one region.** -/
theorem ofDocument_of_closed {body : List Char}
    (h : lengthAfterOpener? .document form body = some body.length) :
    ofDocument (form.opener ++ body) =
      [⟨.template form, .origin, Point.origin.advance (form.opener ++ body),
        form.opener ++ body⟩] := by
  have hclosed : lengthAfterOpener? .document form (body ++ []) = some body.length := by
    rw [List.append_nil, h]
  have hpieces := pieces_code hclosed
  rw [List.append_nil] at hpieces
  rw [ofDocument, hpieces, pieces]
  rfl

end Regions

/-- How a region is spaced: between its delimiters, markers included, stands what it says, with
blanks before and behind. -/
structure Spaced (r : Region) (form : Form) (left u v right : List Char) : Prop where
  kind : r.kind = .template form
  raw : r.raw = framed form left (u ++ (r.content ++ v)) right
  /-- The delimiters take the markers beside them along. -/
  frame : Frame left (u ++ (r.content ++ v)) right
  before : ∀ c ∈ u, isBlank c = true
  behind : ∀ c ∈ v, isBlank c = true
  /-- What the region says takes no blanks of either run along. -/
  head : ∀ c ∈ r.content.head?, isBlank c = false
  last : ∀ c ∈ r.content.getLast?, isBlank c = false
  /-- Blanks alone are one run. -/
  empty : r.content = [] → v = []

/-- **A region stays the same region when it is squeezed**: scanned by itself it is one region of
its kind that says the same, squeezing it once more changes nothing, and all that is new is that
each of its runs of blanks is one space. -/
theorem normalizeSpacing_alone (cs : List Char) :
    ∀ r ∈ ofDocument cs, r.kind.isTemplate = true →
      (∃ s, ofDocument (normalizeSpacing r.raw) = [s] ∧ s.kind = r.kind ∧
        s.raw = normalizeSpacing r.raw ∧ s.content = r.content) ∧
      normalizeSpacing (normalizeSpacing r.raw) = normalizeSpacing r.raw ∧
      ∃ form left u v right, Spaced r form left u v right ∧
        normalizeSpacing r.raw =
          framed form left (space u.isEmpty ++ (r.content ++ space v.isEmpty)) right := by
  intro r hr htemplate
  obtain ⟨form, left, core, right, hkind, hframe, hraw, hclosed⟩ :=
    exists_frame_of_mem hr htemplate
  have hsq : normalizeSpacing r.raw = framed form left (squeezeEnds core) right := by
    rw [hraw, normalizeSpacing_frame hframe]
  have hcontent : r.content = Text.trim core := by
    rw [content, hkind, if_neg (by simp), hraw, body_frame hframe]
  refine ⟨?_, ?_, ?_⟩
  · have hagain : lengthAfterOpener? .document form
        (left ++ (squeezeEnds core ++ (right ++ form.closer))) =
          some (left ++ (squeezeEnds core ++ (right ++ form.closer))).length := by
      rw [hframe.squeezeEnds.lengthAfterOpener?]
      rw [hframe.lengthAfterOpener?] at hclosed
      exact closes_squeezeEnds (hframe.isQuote form) hclosed
    rw [hsq, framed]
    refine ⟨_, ofDocument_of_closed hagain, hkind.symm, rfl, ?_⟩
    rw [content, if_neg (by simp), ← framed, body_frame hframe.squeezeEnds, trim_squeezeEnds,
      hcontent]
  · rw [hsq, normalizeSpacing_eq_self_iff hframe.squeezeEnds, squeezeEnds_squeezeEnds]
  · rcases squeezeEnds_cases core with ⟨hblank, hspace⟩ |
      ⟨u, t, v, rfl, hu, hv, hne, ht, hhead, hlast, hspace⟩
    · have hnil : r.content = [] := by
        rw [hcontent, Text.trim_eq_trimBy, Text.trimBy_eq_nil_iff]
        exact hblank
      have hcore : core ++ (r.content ++ []) = core := by simp [hnil]
      refine ⟨form, left, core, [], right, ⟨hkind, ?_, ?_, hblank, ?_, ?_, ?_, fun _ => rfl⟩, ?_⟩
      · rw [hcore, hraw]
      · rwa [hcore]
      · simp
      · simp [hnil]
      · simp [hnil]
      · rw [hsq, hspace, hnil]
        simp
    · have hread : r.content = t := hcontent.trans ht.symm
      refine ⟨form, left, u, v, right, ⟨hkind, ?_, ?_, hu, hv, ?_, ?_, ?_⟩, ?_⟩
      · rw [hread, hraw]
      · rwa [hread]
      · rwa [hread]
      · rwa [hread]
      · rw [hread]
        exact fun he => absurd he hne
      · rw [hread, hsq, hspace]

/-- The newline that ends a lone quote is squeezed away, and the quote is still alone. -/
theorem normalizeSpacing_alone_newline :
    ∃ r ∈ ofDocument "it's \x7b\x7b- '\n  \x7d\x7d".toList, r.kind.isTemplate = true ∧
      normalizeSpacing r.raw = "\x7b\x7b- ' \x7d\x7d".toList ∧
      ∃ s, ofDocument "\x7b\x7b- ' \x7d\x7d".toList = [s] ∧ s.kind = r.kind ∧
        s.raw = "\x7b\x7b- ' \x7d\x7d".toList ∧ s.content = r.content := by
  have hmem : (⟨.template .output, ⟨1, 6, 5⟩, ⟨2, 5, 15⟩,
      "\x7b\x7b- '\n  \x7d\x7d".toList⟩ : Region) ∈
        ofDocument "it's \x7b\x7b- '\n  \x7d\x7d".toList := by decide +kernel
  have hsq : normalizeSpacing "\x7b\x7b- '\n  \x7d\x7d".toList =
      "\x7b\x7b- ' \x7d\x7d".toList := by decide +kernel
  have halone := (normalizeSpacing_alone _ _ hmem rfl).1
  rw [hsq] at halone
  exact ⟨_, hmem, rfl, hsq, halone⟩

end TwigTemplate.Region
