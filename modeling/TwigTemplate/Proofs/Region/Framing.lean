import TwigTemplate.Proofs.Region.Rescanning
import TwigTemplate.Proofs.Region.Spacing
import TwigTemplate.Proofs.Text.Bytes
import TwigTemplate.Proofs.Text.Ink

/-!
# What a region says after squeezing

Between the delimiters of a region stand a marker or none, the core, and a marker
or none.  Squeezing rewrites the ends of the core and leaves the frame alone, so
that the region still says the same.

* `Frame`: a core between its markers; `exists_frame`: every text is framed.
* `normalizeSpacing_frame`, `body_frame`: squeezing and reading in terms of frames.
* `body_normalizeSpacing`: **squeezing keeps what a region says**.
* `alike_normalizeSpacing`: squeezing is a change of blanks that a scan does not
  notice, when no newline is squeezed.
-/

namespace TwigTemplate.Region

open Text (isBlank trimBy Gap Inner newlineCount newlineCount_append newlineCount_eq_zero)

/-- A core between markers.  The first character after the opener is a marker when
it can be one, and so is the last before the closer. -/
structure Frame (left core right : List Char) : Prop where
  left : left = [] ∧ (core ++ right).head?.any isMarker = false ∨ ∃ c, isMarker c ∧ left = [c]
  right : right = [] ∧ core.getLast?.any isMarker = false ∨ ∃ c, isMarker c ∧ right = [c]

theorem Frame.newline_not_mem {left core right : List Char} (h : Frame left core right) :
    '\n' ∉ left ∧ '\n' ∉ right := by
  have hmark : ∀ {c : Char}, isMarker c = true → '\n' ∉ [c] := by
    intro c hc hmem
    rw [← List.mem_singleton.mp hmem] at hc
    exact absurd hc (by decide)
  constructor
  · rcases h.left with ⟨rfl, -⟩ | ⟨c, hc, rfl⟩
    · simp
    · exact hmark hc
  · rcases h.right with ⟨rfl, -⟩ | ⟨c, hc, rfl⟩
    · simp
    · exact hmark hc

theorem dropMarker_eq (cs : List Char) :
    cs.head?.any isMarker = false ∧ dropMarker cs = cs ∨
      ∃ c, isMarker c ∧ cs = c :: dropMarker cs := by
  rw [dropMarker]
  cases cs with
  | nil => exact Or.inl ⟨rfl, rfl⟩
  | cons c r =>
    by_cases hc : isMarker c = true
    · rw [if_pos (by simpa using hc)]
      exact Or.inr ⟨c, hc, rfl⟩
    · rw [if_neg (by simpa using hc)]
      exact Or.inl ⟨by simpa using hc, rfl⟩

theorem dropMarker_of_free {cs : List Char} (h : cs.head?.any isMarker = false) :
    dropMarker cs = cs := by
  rw [dropMarker, if_neg (by rw [h]; simp)]

theorem dropMarker_cons {c : Char} (h : isMarker c = true) (cs : List Char) :
    dropMarker (c :: cs) = cs := by
  rw [dropMarker, if_pos (by simpa using h)]
  rfl

theorem exists_frame (inner : List Char) :
    ∃ left core right, inner = left ++ (core ++ right) ∧ Frame left core right := by
  obtain ⟨left, rest, rfl, hleft⟩ : ∃ left rest, inner = left ++ rest ∧
      (left = [] ∧ rest.head?.any isMarker = false ∨ ∃ c, isMarker c ∧ left = [c]) := by
    rcases dropMarker_eq inner with ⟨hfree, -⟩ | ⟨c, hc, hcut⟩
    · exact ⟨[], inner, rfl, Or.inl ⟨rfl, hfree⟩⟩
    · exact ⟨[c], dropMarker inner, hcut, Or.inr ⟨c, hc, rfl⟩⟩
  rcases dropMarker_eq rest.reverse with ⟨hfree, -⟩ | ⟨c, hc, hcut⟩
  · refine ⟨left, rest, [], by rw [List.append_nil], ?_, Or.inl ⟨rfl, ?_⟩⟩
    · rw [List.append_nil]
      exact hleft
    · rw [← List.head?_reverse]
      exact hfree
  · have hrest : rest = (dropMarker rest.reverse).reverse ++ [c] := by
      rw [← List.reverse_cons, ← hcut, List.reverse_reverse]
    refine ⟨left, (dropMarker rest.reverse).reverse, [c], by rw [← hrest], ?_, Or.inr ⟨c, hc, rfl⟩⟩
    rw [← hrest]
    exact hleft

section Frames

variable {form : Form} {left core right : List Char}

theorem head?_closer (form : Form) (cs : List Char) :
    (form.closer ++ cs).head?.any isMarker = false := by
  cases form <;> rfl

theorem newline_not_mem_closer (form : Form) : '\n' ∉ form.closer := by
  cases form <;> decide

theorem cutAtWidth_pair {c d : Char} (hc : c.utf8Size = 1) (hd : d.utf8Size = 1)
    (cs : List Char) : Text.cutAtWidth 2 (c :: d :: cs) = ([c, d], cs) := by
  have hzero : Text.cutAtWidth 0 cs = ([], cs) := by rw [Text.cutAtWidth]
  rw [Text.cutAtWidth, hc, Text.cutAtWidth, hd, hzero]

theorem cutAtWidth_opener (form : Form) (cs : List Char) :
    Text.cutAtWidth 2 (form.opener ++ cs) = (form.opener, cs) := by
  cases form <;> exact cutAtWidth_pair (by decide) (by decide) cs

theorem cutAtWidth_closer (form : Form) (cs : List Char) :
    Text.cutAtWidth 2 (form.closer.reverse ++ cs) = (form.closer.reverse, cs) := by
  cases form <;> exact cutAtWidth_pair (by decide) (by decide) cs

theorem cutOpener_eq {front rest : List Char} (hfront : Text.cutAtWidth 2 (front ++ rest) =
    (front, rest)) : (cutOpener (front ++ rest)).2 = dropMarker rest := by
  rw [cutOpener, hfront]
  cases rest with
  | nil => rfl
  | cons c r =>
    dsimp only
    by_cases hc : isMarker c = true
    · rw [if_pos hc, dropMarker_cons hc]
    · rw [if_neg hc, dropMarker_of_free (by simpa using hc)]

theorem dropMarker_frame (h : Frame left core right) (form : Form) :
    dropMarker (left ++ (core ++ (right ++ form.closer))) = core ++ (right ++ form.closer) := by
  rcases h.left with ⟨rfl, hfree⟩ | ⟨c, hc, rfl⟩
  · rw [List.nil_append]
    apply dropMarker_of_free
    rw [← List.append_assoc]
    cases hcore : core ++ right with
    | nil =>
      have := head?_closer form []
      rwa [List.append_nil] at this
    | cons d r =>
      rw [hcore] at hfree
      exact hfree
  · exact dropMarker_cons hc _

theorem dropMarker_reverse_frame (h : Frame left core right) :
    dropMarker (core ++ right).reverse = core.reverse := by
  rcases h.right with ⟨rfl, hfree⟩ | ⟨c, hc, rfl⟩
  · rw [List.append_nil]
    apply dropMarker_of_free
    rw [List.head?_reverse]
    exact hfree
  · rw [List.reverse_append]
    exact dropMarker_cons hc _

/-- The whole of a region with its frame. -/
def framed (form : Form) (left core right : List Char) : List Char :=
  form.opener ++ (left ++ (core ++ (right ++ form.closer)))

theorem framed_eq (form : Form) (left core right : List Char) :
    framed form left core right = form.opener ++ ((left ++ (core ++ right)) ++ form.closer) := by
  rw [framed, List.append_assoc, List.append_assoc]

theorem drop_framed (form : Form) (left core right : List Char) :
    (framed form left core right).drop 2 = left ++ (core ++ (right ++ form.closer)) := by
  rfl

theorem body_frame (h : Frame left core right) :
    body (.template form) (framed form left core right) = core := by
  have hclose : (core ++ (right ++ form.closer)).reverse.drop 2 = (core ++ right).reverse := by
    rw [← List.append_assoc, List.reverse_append]
    cases form <;> rfl
  rw [body, drop_framed, dropMarker_frame h, hclose, dropMarker_reverse_frame h,
    List.reverse_reverse]

/-- **Squeezing acts on the core alone.** -/
theorem normalizeSpacing_frame (h : Frame left core right) :
    normalizeSpacing (framed form left core right) =
      framed form left (squeezeEnds core) right := by
  have hrest : (cutOpener (framed form left core right)).2 = core ++ (right ++ form.closer) := by
    rw [framed, cutOpener_eq (cutAtWidth_opener form _), dropMarker_frame h]
  have hopener : (cutOpener (framed form left core right)).1 = form.opener ++ left := by
    have happ := cutOpener_append (framed form left core right)
    have hcut : (cutOpener (framed form left core right)).1 ++ (core ++ (right ++ form.closer)) =
        form.opener ++ left ++ (core ++ (right ++ form.closer)) := by
      rw [hrest] at happ
      rw [happ, framed, List.append_assoc]
    exact List.append_cancel_right hcut
  have hbody : (cutCloser (core ++ (right ++ form.closer))).1 = core := by
    rw [cutCloser, ← List.append_assoc, List.reverse_append]
    dsimp only
    rw [cutOpener_eq (cutAtWidth_closer form _), dropMarker_reverse_frame h, List.reverse_reverse]
  have hcloser : (cutCloser (core ++ (right ++ form.closer))).2 = right ++ form.closer := by
    have happ := cutCloser_append (core ++ (right ++ form.closer))
    rw [hbody] at happ
    exact List.append_cancel_left happ
  have hwidth : ¬ Text.width8 (core ++ (right ++ form.closer)) < 2 := by
    have htwo : Text.width8 form.closer = 2 := by cases form <;> rfl
    rw [Text.width8_append, Text.width8_append, htwo]
    omega
  rw [normalizeSpacing]
  dsimp only
  rw [hrest, hopener, if_neg hwidth, hbody, hcloser, framed, List.append_assoc, List.append_assoc]

end Frames

/-! ### The ends of the core -/

theorem not_isMarker_of_isBlank {c : Char} (hc : isBlank c = true) : isMarker c = false := by
  rw [isMarker, Bool.or_eq_false_iff, decide_eq_false_iff_not, decide_eq_false_iff_not]
  exact ⟨ne_of_isBlank hc (by decide), ne_of_isBlank hc (by decide)⟩

/-- What squeezing writes for blanks: a space, or nothing where there are none. -/
def space (b : Bool) : List Char :=
  if b then [] else [' ']

@[simp] theorem space_true : space true = [] := rfl

@[simp] theorem space_false : space false = [' '] := rfl

@[simp] theorem space_concat (u : List Char) (c : Char) : space (u ++ [c]).isEmpty = [' '] := by
  have hempty : (u ++ [c]).isEmpty = false := by simp
  rw [hempty, space_false]

theorem newline_not_mem_space : ∀ b : Bool, '\n' ∉ space b := by decide

theorem isBlank_of_mem_space (b : Bool) : ∀ c ∈ space b, isBlank c = true := by
  cases b with
  | true => exact fun c hc => absurd hc (by simp [space])
  | false => exact List.forall_mem_singleton.mpr (by decide)

/-- A text is blank, or squeezing writes a space for each end that is blank. -/
theorem squeezeEnds_cases (cs : List Char) :
    (∀ c ∈ cs, isBlank c = true) ∧ squeezeEnds cs = space cs.isEmpty ∨
      ∃ u t v, cs = u ++ (t ++ v) ∧ (∀ c ∈ u, isBlank c = true) ∧ (∀ c ∈ v, isBlank c = true) ∧
        t ≠ [] ∧ t = Text.trim cs ∧ (∀ c ∈ t.head?, isBlank c = false) ∧
        (∀ c ∈ t.getLast?, isBlank c = false) ∧
        squeezeEnds cs = space u.isEmpty ++ (t ++ space v.isEmpty) := by
  by_cases hblank : ∀ c ∈ cs, isBlank c = true
  · refine Or.inl ⟨hblank, ?_⟩
    rw [squeezeEnds, if_pos (show Text.allBlank cs = true from List.all_eq_true.mpr hblank)]
    rfl
  · right
    obtain ⟨u, v, hcut, hu, hv⟩ := Text.exists_eq_append_trimBy isBlank cs
    have hne : trimBy isBlank cs ≠ [] := fun he => hblank (Text.trimBy_eq_nil_iff.mp he)
    have hhead : ∀ c ∈ (trimBy isBlank cs).head?, isBlank c = false := Text.head?_trimBy
    have hlast : ∀ c ∈ (trimBy isBlank cs).getLast?, isBlank c = false := Text.getLast?_trimBy
    have hstart : Text.startsBlank cs = !u.isEmpty := by
      rw [Text.startsBlank, hcut]
      cases u with
      | nil =>
        obtain ⟨c, r, htrim⟩ := List.exists_cons_of_ne_nil hne
        rw [htrim] at hhead ⊢
        simpa using hhead c rfl
      | cons c u => simpa using hu c List.mem_cons_self
    have hend : Text.endsBlank cs = !v.isEmpty := by
      rw [Text.endsBlank, hcut, ← List.append_assoc]
      cases v using List.reverseRecOn with
      | nil =>
        rw [List.append_nil, List.getLast?_append_of_ne_nil _ hne]
        have := hlast _ (List.getLast?_eq_some_getLast hne)
        rw [List.getLast?_eq_some_getLast hne]
        simpa using this
      | append_singleton v c =>
        rw [← List.append_assoc, List.getLast?_append_of_ne_nil _ (by simp)]
        have := hv c (by simp)
        simp [this]
    refine ⟨u, trimBy isBlank cs, v, hcut, hu, hv, hne, rfl, hhead, hlast, ?_⟩
    have hempty : ¬ cs.isEmpty = true := by
      intro he
      rw [List.isEmpty_iff.mp he] at hblank
      exact hblank (by simp)
    have hnot : ¬ Text.allBlank cs = true := fun h => hblank (List.all_eq_true.mp h)
    rw [squeezeEnds, if_neg hempty, if_neg hnot, hstart, hend,
      Text.trim_eq_trimBy, List.append_assoc]
    cases u <;> cases v <;> rfl

theorem trim_squeezeEnds (cs : List Char) : Text.trim (squeezeEnds cs) = Text.trim cs := by
  rw [Text.trim_eq_trimBy, Text.trim_eq_trimBy]
  rcases squeezeEnds_cases cs with ⟨hblank, hsq⟩ | ⟨u, t, v, hcut, hu, hv, -, -, -, -, hsq⟩
  · rw [hsq, Text.trimBy_eq_nil_iff.mpr hblank, Text.trimBy_eq_nil_iff]
    exact isBlank_of_mem_space _
  · rw [hsq, Text.trimBy_append_left (isBlank_of_mem_space _),
      Text.trimBy_append_right _ (isBlank_of_mem_space _), hcut, Text.trimBy_append_left hu,
      Text.trimBy_append_right _ hv]

theorem any_head?_squeezeEnds (cs ds : List Char) :
    (squeezeEnds cs ++ ds).head?.any isMarker = (cs ++ ds).head?.any isMarker := by
  have hspace : isMarker ' ' = false := by decide
  rcases squeezeEnds_cases cs with ⟨hblank, hsq⟩ | ⟨u, t, v, hcut, hu, -, hne, -, -, -, hsq⟩
  · rw [hsq]
    cases cs with
    | nil => rfl
    | cons c r => simpa [hspace] using (not_isMarker_of_isBlank (hblank c List.mem_cons_self)).symm
  · rw [hsq, hcut]
    obtain ⟨c, r, rfl⟩ := List.exists_cons_of_ne_nil hne
    cases u with
    | nil => rfl
    | cons d u => simpa [hspace] using (not_isMarker_of_isBlank (hu d List.mem_cons_self)).symm

theorem any_getLast?_squeezeEnds (cs : List Char) :
    (squeezeEnds cs).getLast?.any isMarker = cs.getLast?.any isMarker := by
  have hspace : isMarker ' ' = false := by decide
  rcases squeezeEnds_cases cs with ⟨hblank, hsq⟩ | ⟨u, t, v, hcut, -, hv, hne, -, -, -, hsq⟩
  · rw [hsq]
    cases cs using List.reverseRecOn with
    | nil => rfl
    | append_singleton r c =>
      simpa [hspace] using (not_isMarker_of_isBlank (hblank c (by simp))).symm
  · rw [hsq, hcut, ← List.append_assoc, ← List.append_assoc]
    cases v using List.reverseRecOn with
    | nil => simp only [List.isEmpty_nil, space_true, List.append_nil,
        List.getLast?_append_of_ne_nil _ hne]
    | append_singleton v d =>
      have := not_isMarker_of_isBlank (hv d (by simp))
      rw [← List.append_assoc, List.getLast?_append_of_ne_nil _ (by simp),
        List.getLast?_append_of_ne_nil _ (by simp)]
      simp [hspace, this]

/-- The frame stays in place when the core is squeezed. -/
theorem Frame.squeezeEnds {left core right : List Char} (h : Frame left core right) :
    Frame left (Region.squeezeEnds core) right where
  left := by
    rw [any_head?_squeezeEnds]
    exact h.left
  right := by
    rw [any_getLast?_squeezeEnds]
    exact h.right

/-! ### Regions -/

theorem shape_of_mem_pieces {reach : Reach} {cs : List Char} {form : Form} :
    ∀ p ∈ pieces reach cs, p.kind = .template form →
      ∃ inner, p.raw = form.opener ++ (inner ++ form.closer) := by
  intro p hp hkind
  obtain ⟨text, back, hcode⟩ := exists_cutsCode_of_mem hp (by simp [hkind])
  cases hcode with
  | @code other body back hlen =>
    obtain rfl : other = form := by simpa using hkind
    obtain ⟨inner, rest, hcut, hlength⟩ := lengthAfterOpener?_closer hlen
    have htwo : body.length = (inner ++ other.closer).length := by
      rw [hlength]
      cases other <;> simp [Form.closer]
    rw [← List.append_assoc] at hcut
    exact ⟨inner, congrArg (other.opener ++ ·) (List.append_inj hcut htwo).1⟩
  | leftOpen => simp at hkind

theorem exists_framed (form : Form) (inner : List Char) :
    ∃ left core right, form.opener ++ (inner ++ form.closer) = framed form left core right ∧
      Frame left core right := by
  obtain ⟨left, core, right, rfl, hframe⟩ := exists_frame inner
  exact ⟨left, core, right, (framed_eq form left core right).symm, hframe⟩

/-- **Squeezing keeps what a region says.** -/
theorem body_normalizeSpacing (form : Form) (inner : List Char) :
    Text.trim (body (.template form) (normalizeSpacing (form.opener ++ (inner ++ form.closer)))) =
      Text.trim (body (.template form) (form.opener ++ (inner ++ form.closer))) := by
  obtain ⟨left, core, right, hraw, hframe⟩ := exists_framed form inner
  rw [hraw, normalizeSpacing_frame hframe, body_frame hframe.squeezeEnds, body_frame hframe,
    trim_squeezeEnds]

theorem newline_not_mem_squeezeEnds {cs : List Char} (h : '\n' ∉ cs) :
    '\n' ∉ squeezeEnds cs := by
  rcases squeezeEnds_cases cs with ⟨-, hsq⟩ | ⟨u, t, v, hcut, -, -, -, -, -, -, hsq⟩
  · rw [hsq]
    exact newline_not_mem_space _
  · rw [hsq, List.mem_append, List.mem_append, not_or, not_or]
    refine ⟨newline_not_mem_space _, fun hmem => h ?_, newline_not_mem_space _⟩
    rw [hcut]
    exact List.mem_append_right _ (List.mem_append_left _ hmem)

theorem newline_not_mem_normalizeSpacing {form : Form} {inner : List Char} (h : '\n' ∉ inner) :
    '\n' ∉ normalizeSpacing (form.opener ++ (inner ++ form.closer)) := by
  obtain ⟨left, core, right, rfl, hframe⟩ := exists_frame inner
  rw [List.mem_append, List.mem_append, not_or, not_or] at h
  rw [← framed_eq, normalizeSpacing_frame hframe, framed]
  simp only [List.mem_append, not_or]
  exact ⟨newline_not_mem_opener form, h.1, newline_not_mem_squeezeEnds h.2.1, h.2.2,
    newline_not_mem_closer form⟩

/-! ### Squeezing that keeps newlines -/

theorem inner_space {u : List Char} (hu : ∀ c ∈ u, isBlank c = true) (hnl : '\n' ∉ u) :
    Inner u (space u.isEmpty) := by
  by_cases hne : u = []
  · subst hne
    exact Inner.refl []
  · have hempty : u.isEmpty = false := by simpa using hne
    rw [hempty]
    refine Gap.inner ⟨hu, isBlank_of_mem_space false, hne, by simp [space], ?_⟩
    exact ⟨fun h => absurd h hnl, fun h => absurd h (newline_not_mem_space false)⟩

theorem newlineCount_space (b : Bool) : newlineCount (space b) = 0 :=
  newlineCount_eq_zero.mpr (newline_not_mem_space b)

theorem inner_squeezeEnds {cs : List Char} (h : newlineCount (squeezeEnds cs) = newlineCount cs) :
    Inner cs (squeezeEnds cs) := by
  rcases squeezeEnds_cases cs with ⟨hblank, hsq⟩ | ⟨u, t, v, hcut, hu, hv, -, -, -, -, hsq⟩
  · rw [hsq, newlineCount_space, eq_comm, newlineCount_eq_zero] at h
    rw [hsq]
    exact inner_space hblank h
  · have hcount : newlineCount u + (newlineCount t + newlineCount v) = newlineCount t := by
      rw [hsq, hcut] at h
      simp only [newlineCount_append, newlineCount_space] at h
      omega
    have hu' : '\n' ∉ u := newlineCount_eq_zero.mp (by omega)
    have hv' : '\n' ∉ v := newlineCount_eq_zero.mp (by omega)
    have huv : Inner (u ++ (t ++ v)) _ :=
      (inner_space hu hu').append ((Inner.refl t).append (inner_space hv hv'))
    rw [hsq]
    rwa [← hcut] at huv

/-- **Squeezing a region is a change of blanks that a scan does not notice**, when no
newline is squeezed. -/
theorem alike_normalizeSpacing {form : Form} {inner : List Char}
    (h : newlineCount (normalizeSpacing (form.opener ++ (inner ++ form.closer))) =
      newlineCount (form.opener ++ (inner ++ form.closer))) :
    Token.Alike (.code (form.opener ++ (inner ++ form.closer)))
      (.code (normalizeSpacing (form.opener ++ (inner ++ form.closer)))) := by
  obtain ⟨left, core, right, hraw, hframe⟩ := exists_framed form inner
  rw [hraw, normalizeSpacing_frame hframe] at h ⊢
  have hcore : newlineCount (squeezeEnds core) = newlineCount core := by
    simp only [framed, newlineCount_append] at h
    omega
  refine .code ((Inner.refl left).append ((inner_squeezeEnds hcore).append (Inner.refl _))) ?_
  intro c hc
  rw [← List.append_assoc, ← List.append_assoc, getLast?_closer] at hc
  obtain rfl := Option.some.inj hc
  decide

theorem newlineCount_normalizeSpacing {form : Form} {inner : List Char} (h : '\n' ∉ inner) :
    newlineCount (normalizeSpacing (form.opener ++ (inner ++ form.closer))) =
      newlineCount (form.opener ++ (inner ++ form.closer)) := by
  have hraw : '\n' ∉ form.opener ++ (inner ++ form.closer) := by
    rw [List.mem_append, List.mem_append, not_or, not_or]
    exact ⟨newline_not_mem_opener form, h, newline_not_mem_closer form⟩
  rw [newlineCount_eq_zero.mpr hraw, newlineCount_eq_zero]
  exact newline_not_mem_normalizeSpacing h

theorem normalizeSpacing_shape (form : Form) (inner : List Char) :
    ∃ inner', normalizeSpacing (form.opener ++ (inner ++ form.closer)) =
      form.opener ++ (inner' ++ form.closer) := by
  obtain ⟨left, core, right, hraw, hframe⟩ := exists_framed form inner
  refine ⟨left ++ (squeezeEnds core ++ right), ?_⟩
  rw [hraw, normalizeSpacing_frame hframe, framed, List.append_assoc, List.append_assoc]

/-! ### Words without blanks -/

/-- A word without blanks that stands in a text after squeezing a part of it stood
there before. -/
theorem infix_of_infix_space {w before u after : List Char} (hw : ∀ c ∈ w, isBlank c = false)
    (h : w <:+: before ++ (space u.isEmpty ++ after)) : w <:+: before ++ (u ++ after) := by
  cases u with
  | nil => exact h
  | cons c u =>
    have hspace : ' ' ∉ w := fun hmem => absurd (hw ' ' hmem) (by decide)
    rcases Text.infix_append_cons hspace h with hin | hin
    · exact hin.trans (List.prefix_append ..).isInfix
    · exact hin.trans ((List.suffix_append (c :: u) after).trans (List.suffix_append ..)).isInfix

theorem infix_of_infix_squeezeEnds {w before cs after : List Char}
    (hw : ∀ c ∈ w, isBlank c = false) (h : w <:+: before ++ (squeezeEnds cs ++ after)) :
    w <:+: before ++ (cs ++ after) := by
  rcases squeezeEnds_cases cs with ⟨-, hsq⟩ | ⟨u, t, v, hcut, -, -, -, -, -, -, hsq⟩
  · rw [hsq] at h
    exact infix_of_infix_space hw h
  · have hback : w <:+: (before ++ (space u.isEmpty ++ t)) ++ (space v.isEmpty ++ after) := by
      rw [hsq] at h
      simpa using h
    have hfront : w <:+: before ++ (space u.isEmpty ++ (t ++ (v ++ after))) := by
      simpa using infix_of_infix_space hw hback
    rw [hcut]
    simpa using infix_of_infix_space hw hfront

/-- **Squeezing a region makes no new word.** -/
theorem infix_of_infix_normalizeSpacing {w inner : List Char} {form : Form}
    (hw : ∀ c ∈ w, isBlank c = false)
    (h : w <:+: normalizeSpacing (form.opener ++ (inner ++ form.closer))) :
    w <:+: form.opener ++ (inner ++ form.closer) := by
  obtain ⟨left, core, right, hraw, hframe⟩ := exists_framed form inner
  rw [hraw, normalizeSpacing_frame hframe, framed, ← List.append_assoc] at h
  rw [hraw, framed, ← List.append_assoc]
  exact infix_of_infix_squeezeEnds hw h

end TwigTemplate.Region
