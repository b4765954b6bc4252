import TwigTemplate.Proofs.Element.Tags
import TwigTemplate.Proofs.Text.Search

/-!
# The places that a scan for tags comes to

Besides the places between tags, the scan stops inside a start tag, at every quoted value, piece
of template code and other character in it.  Comments, quoted values and raw text are passed by
a search for their end.

* `searchLength?`: the search that `commentLength_eq`, `valueLength?_eq` and `rawTextLength_eq`
  are about.
* `innerPlaces`: the places inside a start tag; `places`, `insides`: the places of a whole scan
  outside of start tags, and inside.
* `startTagEnd?_of_mem`: **the scan of a start tag goes on from each of its places alike**.
* `tagsFrom_word`, `startTagEnd?_word`: **a word of letters, digits and underscores is passed
  without a trace**.
-/

namespace TwigTemplate.Element

open Text (startsWith)

/-! ### Searches -/

/-- The number of characters before the first place where a test holds. -/
def searchLength? (p : List Char → Bool) : List Char → Option Nat
  | [] => none
  | c :: r => if p (c :: r) then some 0 else (searchLength? p r).map (· + 1)

/-- The length of what a search passes: all of the text when nothing is found. -/
def searchEnd (p : List Char → Bool) (width : Nat) (cs : List Char) : Nat :=
  ((searchLength? p cs).map (· + width)).getD cs.length

theorem searchEnd_cons (p : List Char → Bool) (width : Nat) (c : Char) (r : List Char) :
    searchEnd p width (c :: r) = if p (c :: r) then width else searchEnd p width r + 1 := by
  rw [searchEnd, searchLength?]
  split
  · rw [Option.map_some, Option.getD_some, Nat.zero_add]
  · rw [searchEnd]
    cases searchLength? p r with
    | none => rfl
    | some n =>
      show n + 1 + width = n + width + 1
      omega

theorem commentLength_eq (cs : List Char) :
    commentLength cs = searchEnd (startsWith ['-', '-', '>']) 3 cs := by
  induction cs with
  | nil => rfl
  | cons c r ih => rw [commentLength, searchEnd_cons, ih]

theorem valueLength?_eq (quote : Char) (cs : List Char) :
    valueLength? quote cs = (searchLength? (startsWith [quote]) cs).map (· + 1) := by
  induction cs with
  | nil => rfl
  | cons c r ih =>
    have hstart : startsWith [quote] (c :: r) = true ↔ c = quote := by
      rw [Text.startsWith_iff, List.cons_prefix_cons]
      simp [eq_comm]
    rw [valueLength?, searchLength?, ih]
    by_cases hc : c = quote
    · rw [if_pos hc, if_pos (hstart.mpr hc)]
      rfl
    · rw [if_neg hc, if_neg fun h => hc (hstart.mp h)]

/-- What starts the closing tag of a raw text element. -/
def closesRaw (name cs : List Char) : Bool :=
  startsWith ('<' :: '/' :: name) (Text.lowerAscii cs)

theorem rawTextLength_eq (name cs : List Char) :
    rawTextLength name cs = searchEnd (closesRaw name) 0 cs := by
  induction cs with
  | nil => rfl
  | cons c r ih =>
    rw [rawTextLength, searchEnd_cons, ih]
    rfl

theorem holdsRawText_iff {name : List Char} :
    holdsRawText name = true ↔ name = "script".toList ∨ name = "style".toList := by
  rw [holdsRawText, Bool.or_eq_true, decide_eq_true_eq, decide_eq_true_eq]

theorem toLower_ne {c : Char} (h : c ≠ '<') : c.toLower ≠ '<' := by
  intro heq
  unfold Char.toLower at heq
  split at heq
  · next hupper =>
    have hval : c.val + 32 = 60 := congrArg Char.val heq
    have hlow : 65 ≤ c.val.toNat := UInt32.le_iff_toNat_le.mp hupper.1
    have hhigh : c.val.toNat ≤ 90 := UInt32.le_iff_toNat_le.mp hupper.2
    have hsum := congrArg UInt32.toNat hval
    rw [UInt32.toNat_add] at hsum
    have h32 : (32 : UInt32).toNat = 32 := rfl
    have h60 : (60 : UInt32).toNat = 60 := rfl
    omega
  · exact h heq

theorem closesRaw_of_ne {c : Char} (h : c ≠ '<') (name r : List Char) :
    closesRaw name (c :: r) = false := by
  rw [Bool.eq_false_iff]
  intro hcloses
  have hpre := Text.startsWith_iff.mp hcloses
  exact toLower_ne h (List.cons_prefix_cons.mp hpre).1.symm

theorem length_takeWhile_newline (cs : List Char) :
    (cs.takeWhile (· ≠ '\n')).length = searchEnd (startsWith ['\n']) 0 cs := by
  induction cs with
  | nil => rfl
  | cons c r ih =>
    have hstart : startsWith ['\n'] (c :: r) = true ↔ c = '\n' := by
      rw [Text.startsWith_iff, List.cons_prefix_cons]
      simp [eq_comm]
    rw [List.takeWhile_cons, searchEnd_cons]
    by_cases hc : c = '\n'
    · rw [if_neg (by simpa using hc), if_pos (hstart.mpr hc)]
      rfl
    · rw [if_pos (by simpa using hc), if_neg fun h => hc (hstart.mp h), List.length_cons, ih]

theorem codeLength?_of_free {closer : List Char} {cs : List Char} (h : ¬ closer <:+: cs)
    (quoted : Bool) (s : Literal.State) : codeLength? closer quoted s cs = none := by
  induction cs generalizing s with
  | nil => rfl
  | cons c r ih =>
    rw [List.infix_cons_iff, not_or] at h
    rw [codeLength?, if_neg fun hstart => h.1 (Text.startsWith_iff.mp hstart.2)]
    dsimp only
    rw [ih h.2]
    rfl

/-- **Code whose closer does not occur reaches to the end of its line.** -/
theorem codeLength_of_free {form : Form} {cs : List Char} (h : ¬ form.closer <:+: cs) :
    codeLength form cs = searchEnd (startsWith ['\n']) 0 cs := by
  rw [codeLength, codeLength?_of_free h, Option.getD_none, length_takeWhile_newline]

/-! ### Places -/

/-- The places inside a start tag, from a place behind its name on.  The first argument counts
the characters still to be passed over. -/
def innerPlaces : Nat → List Char → List (List Char)
  | _, [] => []
  | skip + 1, _ :: r => innerPlaces skip r
  | 0, c :: r =>
    (c :: r) ::
      if c = '>' then []
      else if startsWith ['/', '>'] (c :: r) then []
      else innerPlaces (attributeLength (c :: r) - 1) r

/-- The places inside the start tag that begins at `c`, which `r` follows, if one does. -/
def tagPlaces (c : Char) (r : List Char) : List (List Char) :=
  if c = '<' ∧ r.head?.any isNameStart then innerPlaces 0 (r.dropWhile isNameChar) else []

/-- The places that the scan for tags comes to outside of start tags. -/
def places : List Char → List (List Char)
  | [] => []
  | c :: r => (c :: r) :: places (following c r)
termination_by cs => cs.length
decreasing_by exact Nat.lt_succ_of_le (length_following_le c r)

/-- The places that it comes to inside start tags. -/
def insides : List Char → List (List Char)
  | [] => []
  | c :: r => tagPlaces c r ++ insides (following c r)
termination_by cs => cs.length
decreasing_by exact Nat.lt_succ_of_le (length_following_le c r)

theorem innerPlaces_skip (skip : Nat) (cs : List Char) :
    innerPlaces skip cs = innerPlaces 0 (cs.drop skip) := by
  induction skip generalizing cs with
  | zero => rfl
  | succ skip ih =>
    cases cs with
    | nil => rfl
    | cons c r => rw [innerPlaces, ih, List.drop_succ_cons]

theorem startTagEnd?_skip (skip : Nat) (cs : List Char) :
    startTagEnd? skip cs = (startTagEnd? 0 (cs.drop skip)).map fun e => (e.1, e.2 + skip) := by
  induction skip generalizing cs with
  | zero => rw [List.drop_zero]; simp
  | succ skip ih =>
    cases cs with
    | nil => rfl
    | cons c r =>
      rw [startTagEnd?, ih, List.drop_succ_cons, Option.map_map]
      rfl

theorem attributeLength_pos (c : Char) (r : List Char) : 0 < attributeLength (c :: r) := by
  rw [attributeLength]
  split
  · cases valueLength? c r <;> simp
  · split <;> omega

/-- **A start tag goes on behind the characters that belong together.** -/
theorem startTagEnd?_cons {c : Char} {r : List Char} (hclose : c ≠ '>')
    (hself : ¬ startsWith ['/', '>'] (c :: r) = true) :
    startTagEnd? 0 (c :: r) =
      (startTagEnd? 0 ((c :: r).drop (attributeLength (c :: r)))).map fun e =>
        (e.1, e.2 + attributeLength (c :: r)) := by
  obtain ⟨n, hn⟩ := Nat.exists_eq_add_one_of_ne_zero (attributeLength_pos c r).ne'
  rw [startTagEnd?, if_neg hclose, if_neg hself, startTagEnd?_skip, Option.map_map, hn]
  rfl

theorem innerPlaces_cons {c : Char} {r : List Char} (hclose : c ≠ '>')
    (hself : ¬ startsWith ['/', '>'] (c :: r) = true) :
    innerPlaces 0 (c :: r) =
      (c :: r) :: innerPlaces 0 ((c :: r).drop (attributeLength (c :: r))) := by
  obtain ⟨n, hn⟩ := Nat.exists_eq_add_one_of_ne_zero (attributeLength_pos c r).ne'
  rw [innerPlaces, if_neg hclose, if_neg hself, innerPlaces_skip, hn]
  rfl

theorem self_mem_innerPlaces {cs : List Char} (h : cs ≠ []) : cs ∈ innerPlaces 0 cs := by
  obtain ⟨c, r, rfl⟩ := List.exists_cons_of_ne_nil h
  rw [innerPlaces]
  exact List.mem_cons_self

/-- **The scan of a start tag goes on from each of its places alike.** -/
theorem startTagEnd?_of_mem {x y : List Char} (h : y ∈ innerPlaces 0 x) :
    (∃ u, x = u ++ y ∧
      startTagEnd? 0 x = (startTagEnd? 0 y).map fun e => (e.1, e.2 + u.length)) ∧
    ∀ rest ∈ innerPlaces 0 y, rest ∈ innerPlaces 0 x := by
  generalize hn : x.length = n
  induction n using Nat.strongRecOn generalizing x with
  | ind n ih =>
    have hself : (∃ u, x = u ++ x ∧
        startTagEnd? 0 x = (startTagEnd? 0 x).map fun e => (e.1, e.2 + u.length)) ∧
        ∀ rest ∈ innerPlaces 0 x, rest ∈ innerPlaces 0 x :=
      ⟨⟨[], rfl, by simp⟩, fun _ hrest => hrest⟩
    cases x with
    | nil => exact absurd h (by simp [innerPlaces])
    | cons c r =>
      by_cases hclose : c = '>'
      · rw [innerPlaces, if_pos hclose, List.mem_singleton] at h
        exact h ▸ hself
      by_cases hslash : startsWith ['/', '>'] (c :: r) = true
      · rw [innerPlaces, if_neg hclose, if_pos hslash, List.mem_singleton] at h
        exact h ▸ hself
      rw [innerPlaces_cons hclose hslash, List.mem_cons] at h
      rcases h with rfl | h
      · exact hself
      have hpos := attributeLength_pos c r
      have hdrop : ((c :: r).drop (attributeLength (c :: r))).length < n := by
        rw [← hn, List.length_drop, List.length_cons]
        omega
      obtain ⟨⟨u, hu, hend⟩, hsub⟩ := ih _ hdrop h rfl
      have hle : attributeLength (c :: r) ≤ (c :: r).length := by
        by_contra hlong
        rw [List.drop_of_length_le (by omega), innerPlaces] at h
        exact absurd h (by simp)
      refine ⟨⟨(c :: r).take (attributeLength (c :: r)) ++ u, ?_, ?_⟩, fun rest hrest => ?_⟩
      · rw [List.append_assoc, ← hu, List.take_append_drop]
      · rw [startTagEnd?_cons hclose hslash, hend, Option.map_map, List.length_append,
          List.length_take, Nat.min_eq_left hle]
        congr 1
        funext e
        exact congrArg (Prod.mk e.1) (by rw [Nat.add_assoc, Nat.add_comm u.length])
      · rw [innerPlaces_cons hclose hslash]
        exact List.mem_cons_of_mem _ (hsub rest hrest)

theorem places_cons (c : Char) (r : List Char) :
    places (c :: r) = (c :: r) :: places (following c r) := by
  rw [places]

theorem insides_cons (c : Char) (r : List Char) :
    insides (c :: r) = tagPlaces c r ++ insides (following c r) := by
  rw [insides]

theorem self_mem_places {cs : List Char} (h : cs ≠ []) : cs ∈ places cs := by
  obtain ⟨c, r, rfl⟩ := List.exists_cons_of_ne_nil h
  rw [places_cons]
  exact List.mem_cons_self

/-! ### Steps -/

theorem drop_length_takeWhile (q : Char → Bool) (cs : List Char) :
    cs.drop (cs.takeWhile q).length = cs.dropWhile q := by
  induction cs with
  | nil => rfl
  | cons c r ih =>
    rw [List.takeWhile_cons, List.dropWhile_cons]
    split
    · rw [List.length_cons, List.drop_succ_cons, ih]
    · rfl

/-- The blanks that may follow the name of an end tag. -/
def isGap (c : Char) : Bool :=
  c = ' ' || c = '\t'

theorem endTag?_eq (cs : List Char) :
    endTag? cs = if startsWith ['>'] ((cs.dropWhile isNameChar).dropWhile isGap) then
      some ⟨some (Text.lowerAscii (cs.takeWhile isNameChar), .closes),
        (cs.takeWhile isNameChar).length + ((cs.dropWhile isNameChar).takeWhile isGap).length + 1⟩
    else none := by
  have hdrop := drop_length_takeWhile isGap (cs.dropWhile isNameChar)
  unfold endTag?
  dsimp only
  split
  · next r heq =>
    have hstart : startsWith ['>'] ((cs.dropWhile isNameChar).dropWhile isGap) = true := by
      rw [Text.startsWith_iff]
      exact ⟨r, (hdrop.symm.trans heq).symm⟩
    exact (if_pos hstart).symm
  · next hother =>
    have hstart : ¬ startsWith ['>'] ((cs.dropWhile isNameChar).dropWhile isGap) = true := by
      rw [Text.startsWith_iff]
      rintro ⟨r, hr⟩
      exact hother r (hdrop.trans hr.symm)
    exact (if_neg hstart).symm

theorem step_of_ne {c : Char} (h : c ≠ '<') (r : List Char) :
    step c r = match Form.opening? (c :: r) with
      | some form => .skip (1 + codeLength form (r.drop 1))
      | none => .skip 0 := by
  unfold step
  exact if_neg h

theorem step_comment (r : List Char) :
    step '<' ('!' :: '-' :: '-' :: r) = .skip (3 + commentLength r) := rfl

theorem step_bang {r : List Char} (h : ¬ ['-', '-'] <+: r) : step '<' ('!' :: r) = .skip 0 := by
  unfold step
  rw [if_pos rfl]
  split
  · next heq =>
    obtain ⟨-, rfl⟩ := List.cons.inj heq
    exact absurd ⟨_, rfl⟩ h
  · next heq => exact absurd (List.cons.inj heq).1 (by decide)
  · next heq =>
    obtain ⟨rfl, -⟩ := List.cons.inj heq
    rfl
  · rfl

theorem step_slash (r : List Char) :
    step '<' ('/' :: r) = if r.head?.any isNameStart then
      match endTag? r with
      | some s => ⟨s.tag, s.length + 1⟩
      | none => .skip 0
    else .skip 0 := by
  cases r with
  | nil => rfl
  | cons d r => rfl

theorem step_name {r : List Char} (h : r.head?.any isNameStart = true) :
    step '<' r = startTag r := by
  have hne : r ≠ [] := by
    rintro rfl
    exact absurd h (by simp)
  obtain ⟨d, r, rfl⟩ := List.exists_cons_of_ne_nil hne
  have hname : isNameStart d = true := h
  have hbang : d ≠ '!' := by
    rintro rfl
    exact absurd hname (by decide)
  have hslash : d ≠ '/' := by
    rintro rfl
    exact absurd hname (by decide)
  unfold step
  rw [if_pos rfl]
  split
  · next heq => exact absurd (List.cons.inj heq).1 hbang
  · next heq => exact absurd (List.cons.inj heq).1 hslash
  · next heq =>
    obtain ⟨rfl, rfl⟩ := List.cons.inj heq
    exact if_pos hname
  · next heq => exact absurd heq (by simp)

theorem step_other {r : List Char} (hbang : r.head? ≠ some '!') (hslash : r.head? ≠ some '/')
    (hname : r.head?.any isNameStart = false) : step '<' r = .skip 0 := by
  unfold step
  rw [if_pos rfl]
  split
  · exact absurd rfl hbang
  · exact absurd rfl hslash
  · next d r _ _ =>
    exact if_neg (by simpa using hname)
  · rfl

/-! ### Words -/

/-- A character of a word that stands for template code. -/
def IsWordChar (c : Char) : Prop :=
  c = '_' ∨ c.isAlphanum = true

instance : DecidablePred IsWordChar := fun c =>
  inferInstanceAs (Decidable (c = '_' ∨ c.isAlphanum = true))

theorem not_isWordChar_of_mem_closer {form : Form} {c : Char} (h : c ∈ form.closer) :
    ¬ IsWordChar c := by
  have hall : form.closer.all fun c => !decide (IsWordChar c) := by cases form <;> rfl
  simpa using List.all_eq_true.mp hall c h

theorem IsWordChar.ne {c d : Char} (h : IsWordChar c) (hd : d.isAlphanum = false)
    (hscore : d ≠ '_') : c ≠ d := by
  rintro rfl
  rcases h with h | h
  · exact hscore h
  · rw [hd] at h
    exact absurd h (by simp)

theorem opening?_of_ne {c : Char} (h : c ≠ '\x7b') (r : List Char) :
    Form.opening? (c :: r) = none := by
  unfold Form.opening?
  split
  · next heq => exact absurd (List.cons.inj heq).1 h
  · rfl

/-- What a step passes without a tag and without a newline leaves no trace. -/
theorem tagsFrom_skip {c : Char} {u cs : List Char} (hstep : step c (u ++ cs) = .skip u.length)
    (hline : '\n' ∉ c :: u) (line : Nat) : tagsFrom line (c :: (u ++ cs)) = tagsFrom line cs := by
  have htake : (u ++ cs).take u.length = u := List.take_left
  have hdrop : (u ++ cs).drop u.length = cs := List.drop_left
  rw [tagsFrom_cons, tagAt, nextLine, following, hstep]
  show [] ++ tagsFrom (line + Text.newlineCount (c :: (u ++ cs).take u.length))
    ((u ++ cs).drop u.length) = _
  rw [htake, hdrop, Text.newlineCount_eq_zero.mpr hline, List.nil_append, Nat.add_zero]

theorem tagsFrom_word {w : List Char} (hw : ∀ c ∈ w, IsWordChar c) (line : Nat)
    (cs : List Char) : tagsFrom line (w ++ cs) = tagsFrom line cs := by
  induction w with
  | nil => rfl
  | cons c w ih =>
    obtain ⟨hc, hw⟩ := List.forall_mem_cons.mp hw
    have hstep : step c ([] ++ (w ++ cs)) = .skip 0 := by
      rw [step_of_ne (hc.ne (by decide) (by decide)),
        opening?_of_ne (hc.ne (by decide) (by decide))]
    have hline : '\n' ∉ [c] := fun h =>
      hc.ne (by decide) (by decide) (List.mem_singleton.mp h).symm
    exact (tagsFrom_skip hstep hline line).trans (ih hw)

theorem startTagEnd?_plain {w : List Char} (hw : ∀ c ∈ w, c ∉ ['>', '/', '"', '\'', '\x7b'])
    (cs : List Char) :
    startTagEnd? 0 (w ++ cs) = (startTagEnd? 0 cs).map fun e => (e.1, e.2 + w.length) := by
  induction w with
  | nil => simp
  | cons c w ih =>
    obtain ⟨hc, hw⟩ := List.forall_mem_cons.mp hw
    simp only [List.mem_cons, List.not_mem_nil, or_false, not_or] at hc
    obtain ⟨hclose, hslash, hdouble, hsingle, hbrace⟩ := hc
    have hself : ¬ startsWith ['/', '>'] (c :: (w ++ cs)) = true := by
      rw [Text.startsWith_iff, List.cons_prefix_cons]
      exact fun h => hslash h.1.symm
    have hone : attributeLength (c :: (w ++ cs)) = 1 := by
      rw [attributeLength, if_neg (not_or.mpr ⟨hdouble, hsingle⟩), opening?_of_ne hbrace]
    rw [List.cons_append, startTagEnd?_cons hclose hself, hone, List.drop_succ_cons,
      List.drop_zero, ih hw, Option.map_map]
    rfl

theorem startTagEnd?_word {w : List Char} (hw : ∀ c ∈ w, IsWordChar c) (cs : List Char) :
    startTagEnd? 0 (w ++ cs) = (startTagEnd? 0 cs).map fun e => (e.1, e.2 + w.length) := by
  refine startTagEnd?_plain (fun c hc hmem => ?_) cs
  have hnone : ∀ d ∈ ['>', '/', '"', '\'', '\x7b'], ¬ IsWordChar d := by simp [IsWordChar]
  exact hnone c hmem (hw c hc)

end TwigTemplate.Element
