import TwigTemplate.Proofs.Element.Ahead
import TwigTemplate.Proofs.Text.Bytes

/-!
# Where tags stand

The scan for tags counts newlines on its way, and could count bytes just as well.  Whatever it
passes in one step, it has then counted all that stands before the next place, so that each tag
stands where its numbers say.

* `located`: the tags of a text, each with the number of bytes before its `<`.
* `exists_name_of_step`: a step that finds a tag begins at its opener, with its name behind.
* `standsAt_of_mem_locatedFrom`: **every tag stands at its offset, on its line**.
* `length_places_add_length_insides_le`: **the scan comes to no more places than the text has
  characters**.
-/

namespace TwigTemplate.Element

open Text (newlineCount width8)

/-! ### Tags with their offsets -/

/-- The tags of a text that starts at the given offset, on the given line, each with its offset. -/
def locatedFrom (offset line : Nat) : List Char → List (Nat × Element)
  | [] => []
  | c :: r =>
    (tagAt line c r).map (offset, ·) ++
      locatedFrom (offset + width8 (c :: r.take (step c r).length)) (nextLine line c r)
        (following c r)
termination_by cs => cs.length
decreasing_by exact Nat.lt_succ_of_le (length_following_le c r)

/-- The tags of a text, in order, each with the number of bytes before it. -/
def located (cs : List Char) : List (Nat × Element) :=
  locatedFrom 0 0 cs

theorem locatedFrom_nil (offset line : Nat) : locatedFrom offset line [] = [] := by
  rw [locatedFrom]

theorem locatedFrom_cons (offset line : Nat) (c : Char) (r : List Char) :
    locatedFrom offset line (c :: r) =
      (tagAt line c r).map (offset, ·) ++
        locatedFrom (offset + width8 (c :: r.take (step c r).length)) (nextLine line c r)
          (following c r) := by
  rw [locatedFrom]

theorem map_snd_locatedFrom (offset line : Nat) (cs : List Char) :
    (locatedFrom offset line cs).map Prod.snd = tagsFrom line cs := by
  induction line, cs using scan_induction generalizing offset with
  | nil line => rw [locatedFrom_nil, tagsFrom_nil, List.map_nil]
  | cons line c r ih =>
    rw [locatedFrom_cons, tagsFrom_cons, List.map_append, List.map_map, ih]
    exact congrArg (· ++ _) (List.map_id _)

theorem le_of_mem_locatedFrom {offset line : Nat} {cs : List Char} {t : Nat × Element}
    (h : t ∈ locatedFrom offset line cs) : offset ≤ t.1 := by
  induction line, cs using scan_induction generalizing offset with
  | nil line =>
    rw [locatedFrom_nil] at h
    exact absurd h List.not_mem_nil
  | cons line c r ih =>
    rw [locatedFrom_cons, List.mem_append] at h
    rcases h with h | h
    · obtain ⟨e, -, rfl⟩ := List.mem_map.mp h
      exact Nat.le_refl _
    · exact Nat.le_trans (Nat.le_add_right _ _) (ih h)

/-- **Offsets grow strictly**: a place is at least one byte behind the place before. -/
theorem pairwise_locatedFrom (offset line : Nat) (cs : List Char) :
    (locatedFrom offset line cs).Pairwise fun a b => a.1 < b.1 := by
  induction line, cs using scan_induction generalizing offset with
  | nil line =>
    rw [locatedFrom_nil]
    exact .nil
  | cons line c r ih =>
    rw [locatedFrom_cons, List.pairwise_append]
    refine ⟨?_, ih _, fun a ha b hb => ?_⟩
    · rw [tagAt]
      cases (step c r).tag with
      | none => exact .nil
      | some t => exact List.pairwise_singleton _ _
    · obtain ⟨e, -, rfl⟩ := List.mem_map.mp ha
      have hlater := le_of_mem_locatedFrom hb
      have hpos : 0 < c.utf8Size := c.utf8Size_pos
      rw [Text.width8_cons] at hlater
      dsimp only
      omega

/-! ### What a tag looks like -/

/-- What stands before the name of a tag. -/
def opener : Kind → List Char
  | .closes => ['<', '/']
  | _ => ['<']

/-- A tag stands at an offset of a text, in bytes, on its line: there its opener, and behind it, in
some letter case, all of its name. -/
def StandsAt (cs : List Char) (offset : Nat) (e : Element) : Prop :=
  ∃ before written after, cs = before ++ (opener e.kind ++ (written ++ after)) ∧
    width8 before = offset ∧ newlineCount before = e.line ∧
    Text.lowerAscii written = e.name ∧ written.head?.any isNameStart = true ∧
    (written ++ after).takeWhile isNameChar = written

theorem kind_ne_closes_of_startTagEnd? {skip n : Nat} {cs : List Char} {kind : Kind}
    (h : startTagEnd? skip cs = some (kind, n)) : kind ≠ .closes := by
  fun_induction startTagEnd? skip cs generalizing n with
  | case1 => exact absurd h (by simp)
  | case2 skip c r ih =>
    obtain ⟨⟨k, m⟩, hk, he⟩ := Option.map_eq_some_iff.mp h
    obtain ⟨rfl, -⟩ := Prod.mk.inj he
    exact ih hk
  | case3 r =>
    obtain ⟨rfl, -⟩ := Prod.mk.inj (Option.some.inj h)
    decide
  | case4 c r hclose hself =>
    obtain ⟨rfl, -⟩ := Prod.mk.inj (Option.some.inj h)
    decide
  | case5 c r hclose hself ih =>
    obtain ⟨⟨k, m⟩, hk, he⟩ := Option.map_eq_some_iff.mp h
    obtain ⟨rfl, -⟩ := Prod.mk.inj he
    exact ih hk

theorem tag_of_startTag {cs name : List Char} {kind : Kind}
    (h : (startTag cs).tag = some (name, kind)) :
    name = Text.lowerAscii (cs.takeWhile isNameChar) ∧ opener kind = ['<'] := by
  rw [startTag] at h
  dsimp only at h
  split at h
  · simp [Step.skip] at h
  · next end? n hend =>
    obtain ⟨rfl, rfl⟩ := Prod.mk.inj (Option.some.inj h)
    refine ⟨rfl, ?_⟩
    have hne : end? ≠ .closes := kind_ne_closes_of_startTagEnd? hend
    split
    · rfl
    · cases end? <;> first | rfl | exact absurd rfl hne

theorem exists_name {cs : List Char} (h : cs.head?.any isNameStart = true) :
    (cs.takeWhile isNameChar).head?.any isNameStart = true ∧
      (cs.takeWhile isNameChar ++ cs.dropWhile isNameChar).takeWhile isNameChar =
        cs.takeWhile isNameChar := by
  refine ⟨?_, by rw [List.takeWhile_append_dropWhile]⟩
  cases cs with
  | nil => simp at h
  | cons c r =>
    have hstart : isNameStart c = true := h
    have hchar : isNameChar c = true := by
      rw [isNameStart] at hstart
      simp [isNameChar, Char.isAlphanum, hstart]
    rw [List.takeWhile_cons_of_pos hchar]
    exact hstart

/-- **A step that finds a tag begins at its opener, with its name behind.** -/
theorem exists_name_of_step {c : Char} {r name : List Char} {kind : Kind}
    (h : (step c r).tag = some (name, kind)) :
    ∃ written after, c :: r = opener kind ++ (written ++ after) ∧
      Text.lowerAscii written = name ∧ written.head?.any isNameStart = true ∧
      (written ++ after).takeWhile isNameChar = written := by
  obtain rfl := eq_of_tag h
  by_cases hname : r.head?.any isNameStart = true
  · rw [step_name hname] at h
    obtain ⟨rfl, hopener⟩ := tag_of_startTag h
    refine ⟨r.takeWhile isNameChar, r.dropWhile isNameChar, ?_, rfl, exists_name hname⟩
    rw [hopener, List.takeWhile_append_dropWhile]
    rfl
  by_cases hslash : r.head? = some '/'
  · obtain ⟨r, rfl⟩ := List.head?_eq_some_iff.mp hslash
    rw [step_slash] at h
    split at h
    · next hstart =>
      rw [endTag?_eq] at h
      split at h
      · next s hs =>
        split at hs
        · obtain rfl := Option.some.inj hs
          obtain ⟨rfl, rfl⟩ := Prod.mk.inj (Option.some.inj h)
          refine ⟨r.takeWhile isNameChar, r.dropWhile isNameChar, ?_, rfl, exists_name hstart⟩
          rw [List.takeWhile_append_dropWhile]
          rfl
        · exact absurd hs (by simp)
      · simp [Step.skip] at h
    · simp [Step.skip] at h
  -- Comments and lone brackets are no tags.
  by_cases hbang : r.head? = some '!'
  · obtain ⟨r, rfl⟩ := List.head?_eq_some_iff.mp hbang
    by_cases hdash : ['-', '-'] <+: r
    · obtain ⟨r, rfl⟩ := hdash
      exact absurd h (by simp [step_comment, Step.skip])
    · rw [step_bang hdash] at h
      exact absurd h (by simp [Step.skip])
  · rw [step_other hbang hslash (by simpa using hname)] at h
    exact absurd h (by simp [Step.skip])

/-- **Every tag stands at its offset, on its line.** -/
theorem standsAt_of_mem_locatedFrom (front : List Char) {cs : List Char} {t : Nat × Element}
    (h : t ∈ locatedFrom (width8 front) (newlineCount front) cs) :
    StandsAt (front ++ cs) t.1 t.2 := by
  generalize hline : newlineCount front = line at h
  induction line, cs using scan_induction generalizing front with
  | nil line =>
    rw [locatedFrom_nil] at h
    exact absurd h List.not_mem_nil
  | cons line c r ih =>
    rw [locatedFrom_cons, List.mem_append] at h
    rcases h with h | h
    · obtain ⟨e, he, rfl⟩ := List.mem_map.mp h
      obtain ⟨⟨name, kind⟩, htag, rfl⟩ := Option.map_eq_some_iff.mp (Option.mem_toList.mp he)
      obtain ⟨written, after, hr, hname⟩ := exists_name_of_step htag
      exact ⟨front, written, after, by rw [hr], rfl, hline, hname⟩
    -- What the step passes stands before the tags that follow.
    · have hnext := ih (front ++ (c :: r.take (step c r).length))
      rw [Text.width8_append, Text.newlineCount_append, hline] at hnext
      have htag := hnext rfl h
      rwa [List.append_assoc, List.cons_append, following, List.take_append_drop] at htag

/-! ### The places of a scan -/

/-- A start tag has no more places than characters. -/
theorem length_innerPlaces_le (skip : Nat) (cs : List Char) :
    (innerPlaces skip cs).length ≤ cs.length := by
  fun_induction innerPlaces skip cs with
  | case1 => exact Nat.zero_le _
  | case2 skip c r ih => exact Nat.le_succ_of_le ih
  | case3 c r ih =>
    rw [List.length_cons, List.length_cons]
    split
    · exact Nat.succ_le_succ (Nat.zero_le _)
    split
    · exact Nat.succ_le_succ (Nat.zero_le _)
    · exact Nat.succ_le_succ ih

theorem length_innerPlaces_le_of_end {skip n : Nat} {cs : List Char} {kind : Kind}
    (h : startTagEnd? skip cs = some (kind, n)) : (innerPlaces skip cs).length + skip ≤ n := by
  fun_induction startTagEnd? skip cs generalizing n with
  | case1 => exact absurd h (by simp)
  | case2 skip c r ih =>
    obtain ⟨⟨k, m⟩, hk, he⟩ := Option.map_eq_some_iff.mp h
    obtain ⟨rfl, rfl⟩ := Prod.mk.inj he
    rw [innerPlaces]
    exact Nat.succ_le_succ (ih hk)
  | case3 r =>
    obtain ⟨-, rfl⟩ := Prod.mk.inj (Option.some.inj h)
    rw [innerPlaces, if_pos rfl]
    exact Nat.le_refl _
  | case4 c r hclose hself =>
    obtain ⟨-, rfl⟩ := Prod.mk.inj (Option.some.inj h)
    rw [innerPlaces, if_neg hclose, if_pos hself]
    exact Nat.le_succ _
  | case5 c r hclose hself ih =>
    obtain ⟨⟨k, m⟩, hk, he⟩ := Option.map_eq_some_iff.mp h
    obtain ⟨rfl, rfl⟩ := Prod.mk.inj he
    have hrest := ih hk
    rw [innerPlaces, if_neg hclose, if_neg hself, List.length_cons]
    omega

theorem length_tagPlaces_le (c : Char) (r : List Char) :
    (tagPlaces c r).length ≤ (step c r).length ∧ (tagPlaces c r).length ≤ r.length := by
  rw [tagPlaces]
  split
  · next hstart =>
    obtain ⟨rfl, hname⟩ := hstart
    have hall : (innerPlaces 0 (r.dropWhile isNameChar)).length ≤ r.length :=
      Nat.le_trans (length_innerPlaces_le 0 _) (List.dropWhile_suffix isNameChar).length_le
    refine ⟨?_, hall⟩
    rw [step_name hname, startTag]
    split
    · exact hall
    · next end? n hend =>
      have hread := length_innerPlaces_le_of_end hend
      dsimp only
      omega
  · exact ⟨Nat.zero_le _, Nat.zero_le _⟩

/-- **The scan comes to no more places than the text has characters**, those inside start tags
included. -/
theorem length_places_add_length_insides_le (cs : List Char) :
    (places cs).length + (insides cs).length ≤ cs.length := by
  induction cs using places.induct with
  | case1 => simp [places, insides]
  | case2 c r ih =>
    have htag := length_tagPlaces_le c r
    have hfollowing : (following c r).length = r.length - (step c r).length := List.length_drop
    rw [places_cons, insides_cons, List.length_cons, List.length_append, List.length_cons]
    omega

end TwigTemplate.Element
