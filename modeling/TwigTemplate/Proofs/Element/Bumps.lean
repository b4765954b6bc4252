import TwigTemplate.Proofs.Element.Offsets

/-!
# Jumps of the scan for tags

Behind the opener of template code, and behind the start tag of an element with raw text, the scan
looks for an end on its own and jumps there.  It counts the jump in bytes: those before the
characters that it reads of template code, and those before the first window of bytes that closes
the raw text.

* `codeWidth`, `rawWidth`: the bytes of a jump; `codeWidth_eq`, `rawWidth_eq`: they are those of the
  characters that belong together.
* `bumps`: the jumps of a whole scan.
* `lands_of_mem_bumps`: **every jump stays within the text and lands on a character**.
* `tags_located`: **tags are found where they say they stand, and the scan comes to an end**.
-/

namespace TwigTemplate.Element

open Text (IsAscii bytes findBytes? lowerAscii startsWith width8)

/-! ### The bytes of a jump -/

/-- The bytes of template code up to and including its closer, read from a character on that
begins at the given byte. -/
def codeWidth? (closer : List Char) (quoted : Bool) :
    Literal.State → Nat → List Char → Option Nat
  | _, _, [] => none
  | s, index, c :: r =>
    if s = .outside ∧ startsWith closer (c :: r) then some (index + width8 closer)
    else codeWidth? closer quoted (if quoted then codeStep s c else .outside)
      (index + c.utf8Size) r

/-- The bytes of template code of a form behind its opener: up to its closer, or the end of the
line. -/
def codeWidth (form : Form) (cs : List Char) : Nat :=
  (codeWidth? form.closer (form ≠ .comment) .outside 0 cs).getD
    (width8 (cs.takeWhile (· ≠ '\n')))

/-- The bytes of raw text: up to the first window of bytes that closes it, or all of them. -/
def rawWidth (name cs : List Char) : Nat :=
  (findBytes? (bytes ('<' :: '/' :: name)) (bytes cs)).getD (bytes cs).length

theorem codeWidth?_eq (closer : List Char) (quoted : Bool) (s : Literal.State) (index : Nat)
    (cs : List Char) : codeWidth? closer quoted s index cs =
      (codeLength? closer quoted s cs).map fun n => index + width8 (cs.take n) := by
  induction cs generalizing s index with
  | nil => rfl
  | cons c r ih =>
    rw [codeWidth?, codeLength?]
    split
    · next hclose =>
      obtain ⟨rest, hrest⟩ := Text.startsWith_iff.mp hclose.2
      rw [Option.map_some, ← hrest, List.take_left]
    · rw [ih]
      dsimp only
      rw [Option.map_map]
      congr 1
      funext n
      show _ = index + width8 ((c :: r).take (n + 1))
      rw [List.take_succ_cons, Text.width8_cons, Nat.add_assoc]

/-- **A jump over template code has the bytes of its characters.** -/
theorem codeWidth_eq (form : Form) (cs : List Char) :
    codeWidth form cs = width8 (cs.take (codeLength form cs)) := by
  rw [codeWidth, codeLength, codeWidth?_eq]
  cases codeLength? form.closer (form ≠ .comment) .outside cs with
  | none =>
    show width8 (cs.takeWhile (· ≠ '\n')) = width8 (cs.take (cs.takeWhile (· ≠ '\n')).length)
    rw [← List.prefix_iff_eq_take.mp (List.takeWhile_prefix _)]
  | some n => exact Nat.zero_add _

theorem findBytes?_eq {w : List Char} (hne : w ≠ []) (hw : ∀ c ∈ w, IsAscii c) (cs : List Char) :
    findBytes? (bytes w) (bytes cs) =
      (searchLength? (fun ds => startsWith (lowerAscii w) (lowerAscii ds)) cs).map fun n =>
        width8 (cs.take n) := by
  induction cs with
  | nil => rfl
  | cons c r ih =>
    rw [Text.findBytes?_bytes_cons hne hw, searchLength?, ih]
    split
    · rfl
    · rw [Option.map_map, Option.map_map]
      congr 1
      funext n
      show width8 (r.take n) + c.utf8Size = width8 ((c :: r).take (n + 1))
      rw [List.take_succ_cons, Text.width8_cons, Nat.add_comm]

/-- **A jump over raw text has the bytes of its characters**: no byte of a wider character is taken
for one of the closing tag. -/
theorem rawWidth_eq {name : List Char} (h : holdsRawText name = true) (cs : List Char) :
    rawWidth name cs = width8 (cs.take (rawTextLength name cs)) := by
  have hname : lowerAscii ('<' :: '/' :: name) = '<' :: '/' :: name ∧
      ('<' :: '/' :: name).all (IsAscii ·) = true := by
    rcases holdsRawText_iff.mp h with rfl | rfl <;> exact ⟨rfl, rfl⟩
  have hascii : ∀ c ∈ '<' :: '/' :: name, IsAscii c := fun c hc =>
    of_decide_eq_true (List.all_eq_true.mp hname.2 c hc)
  have hfind := findBytes?_eq (List.cons_ne_nil '<' ('/' :: name)) hascii cs
  rw [hname.1] at hfind
  rw [rawWidth, hfind, Text.length_bytes, rawTextLength_eq, searchEnd]
  show _ = width8 (cs.take (((searchLength? (closesRaw name) cs).map (· + 0)).getD cs.length))
  have hcloses : (fun ds => startsWith ('<' :: '/' :: name) (lowerAscii ds)) = closesRaw name := rfl
  rw [hcloses]
  cases searchLength? (closesRaw name) cs with
  | none => exact congrArg width8 List.take_length.symm
  | some n => rfl

/-! ### The jumps of a scan -/

/-- A jump: the text that lies ahead of it, and the number of bytes that are passed. -/
structure Bump where
  ahead : List Char
  width : Nat

/-- The jump behind the opener of template code, if one begins the text. -/
def codeBump? (cs : List Char) : Option Bump :=
  (Form.opening? cs).map fun form => ⟨cs.drop 2, codeWidth form (cs.drop 2)⟩

/-- The jump behind a start tag, if one begins the text and its element holds raw text. -/
def rawBump? : List Char → Option Bump
  | [] => none
  | c :: r =>
    let name := lowerAscii (r.takeWhile isNameChar)
    let rest := r.dropWhile isNameChar
    if c = '<' ∧ r.head?.any isNameStart then
      match startTagEnd? 0 rest with
      | some (end?, n) =>
        if end? = .opens ∧ ¬ Vocabulary.isVoidElement name ∧ holdsRawText name then
          some ⟨rest.drop n, rawWidth name (rest.drop n)⟩
        else none
      | none => none
    else none

/-- The jumps of the scan of a text: over template code, between tags and inside them, and over raw
text. -/
def bumps (cs : List Char) : List Bump :=
  (places cs ++ insides cs).filterMap codeBump? ++ (places cs).filterMap rawBump?

/-- A jump of the scan of a text passes whole characters of it, and the scan goes on behind them. -/
def Bump.Lands (cs : List Char) (b : Bump) : Prop :=
  ∃ before front back, cs = before ++ b.ahead ∧ b.ahead = front ++ back ∧
    b.width = width8 front ∧ (back = [] ∨ back ∈ places cs ++ insides cs)

/-! ### Places behind places -/

section Places

variable {cs p : List Char}

/-- **The scan goes on from each of its places alike**: the places of what stands there are its
places. -/
theorem suffix_of_mem_places (h : p ∈ places cs) :
    p <:+ cs ∧ ∀ q ∈ places p, q ∈ places cs := by
  induction cs using places.induct with
  | case1 =>
    rw [places] at h
    exact absurd h List.not_mem_nil
  | case2 c r ih =>
    rw [places_cons, List.mem_cons] at h
    rcases h with rfl | h
    · exact ⟨List.suffix_rfl, fun _ hq => hq⟩
    · obtain ⟨hsuffix, hplaces⟩ := ih h
      refine ⟨hsuffix.trans (following_suffix c r), fun q hq => ?_⟩
      rw [places_cons]
      exact List.mem_cons_of_mem _ (hplaces q hq)

theorem following_of_mem_places {c : Char} {r : List Char} (h : c :: r ∈ places cs) :
    following c r = [] ∨ following c r ∈ places cs := by
  by_cases hne : following c r = []
  · exact Or.inl hne
  · refine Or.inr ((suffix_of_mem_places h).2 _ ?_)
    rw [places_cons]
    exact List.mem_cons_of_mem _ (self_mem_places hne)

theorem suffix_of_mem_insides (h : p ∈ insides cs) :
    p <:+ cs ∧ ∀ q ∈ innerPlaces 0 p, q ∈ insides cs := by
  induction cs using insides.induct with
  | case1 =>
    rw [insides] at h
    exact absurd h List.not_mem_nil
  | case2 c r ih =>
    rw [insides_cons, List.mem_append] at h
    rcases h with h | h
    · rw [insides_cons]
      rw [tagPlaces] at h ⊢
      split at h
      · next hstart =>
        obtain ⟨⟨u, hu, -⟩, hsub⟩ := startTagEnd?_of_mem h
        have hsuffix : p <:+ r :=
          List.IsSuffix.trans ⟨u, hu.symm⟩ (List.dropWhile_suffix isNameChar)
        refine ⟨hsuffix.trans (List.suffix_cons c r), fun q hq => ?_⟩
        rw [if_pos hstart]
        exact List.mem_append_left _ (hsub q hq)
      · exact absurd h List.not_mem_nil
    · obtain ⟨hsuffix, hinner⟩ := ih h
      refine ⟨hsuffix.trans (following_suffix c r), fun q hq => ?_⟩
      rw [insides_cons]
      exact List.mem_append_right _ (hinner q hq)

end Places

/-! ### Where jumps land -/

section Lands

variable {cs : List Char} {b : Bump}

theorem eq_brace_of_opening? {c : Char} {r : List Char} {form : Form}
    (h : Form.opening? (c :: r) = some form) : c = '\x7b' := by
  by_contra hne
  rw [opening?_of_ne hne] at h
  exact absurd h (by simp)

/-- A jump over as many bytes as some characters have, when the scan goes on behind these. -/
theorem lands_of_width {n : Nat} {next : List Char} (hahead : b.ahead <:+ cs)
    (hwidth : b.width = width8 (b.ahead.take n)) (hdrop : b.ahead.drop n = next)
    (hnext : next = [] ∨ next ∈ places cs ++ insides cs) : b.Lands cs := by
  obtain ⟨before, hbefore⟩ := hahead
  refine ⟨before, b.ahead.take n, next, hbefore.symm, ?_, hwidth, hnext⟩
  rw [← hdrop, List.take_append_drop]

theorem lands_of_codeBump? {p : List Char} (hp : p ∈ places cs) (h : codeBump? p = some b) :
    b.Lands cs := by
  obtain ⟨form, hform, rfl⟩ := Option.map_eq_some_iff.mp h
  cases p with
  | nil => exact absurd hform (by simp [Form.opening?])
  | cons c r =>
    obtain rfl := eq_brace_of_opening? hform
    have hstep : step '\x7b' r = .skip (1 + codeLength form (r.drop 1)) := by
      rw [step_of_ne (by decide), hform]
    have hnext : following '\x7b' r = (r.drop 1).drop (codeLength form (r.drop 1)) := by
      rw [following, hstep, List.drop_drop]
      rfl
    exact lands_of_width ((List.drop_suffix 2 _).trans (suffix_of_mem_places hp).1)
      (codeWidth_eq form (r.drop 1)) hnext.symm
      ((following_of_mem_places hp).imp id (List.mem_append_left _))

theorem lands_of_inner_codeBump? {p : List Char} (hp : p ∈ insides cs)
    (h : codeBump? p = some b) : b.Lands cs := by
  obtain ⟨form, hform, rfl⟩ := Option.map_eq_some_iff.mp h
  obtain ⟨hsuffix, hinner⟩ := suffix_of_mem_insides hp
  cases p with
  | nil => exact absurd hform (by simp [Form.opening?])
  | cons c r =>
    obtain rfl := eq_brace_of_opening? hform
    have hlength : attributeLength ('\x7b' :: r) = 2 + codeLength form (r.drop 1) := by
      rw [attributeLength, if_neg (by decide), hform]
    have hdrop : ('\x7b' :: r).drop (attributeLength ('\x7b' :: r)) =
        (r.drop 1).drop (codeLength form (r.drop 1)) := by
      rw [hlength, ← List.drop_drop]
      rfl
    have hself : ¬ startsWith ['/', '>'] ('\x7b' :: r) = true := by
      rw [Text.startsWith_iff, List.cons_prefix_cons]
      exact fun h => absurd h.1 (by decide)
    refine lands_of_width ((List.drop_suffix 2 _).trans hsuffix) (codeWidth_eq form (r.drop 1))
      hdrop.symm ?_
    by_cases hne : ('\x7b' :: r).drop (attributeLength ('\x7b' :: r)) = []
    · exact Or.inl hne
    · refine Or.inr (List.mem_append_right _ (hinner _ ?_))
      rw [innerPlaces_cons (by decide) hself]
      exact List.mem_cons_of_mem _ (self_mem_innerPlaces hne)

theorem following_rawText {r : List Char} {n : Nat} (hname : r.head?.any isNameStart = true)
    (hend : startTagEnd? 0 (r.dropWhile isNameChar) = some (.opens, n))
    (hvoid : ¬ Vocabulary.isVoidElement (lowerAscii (r.takeWhile isNameChar)) = true)
    (hraw : holdsRawText (lowerAscii (r.takeWhile isNameChar)) = true) :
    following '<' r = ((r.dropWhile isNameChar).drop n).drop
      (rawTextLength (lowerAscii (r.takeWhile isNameChar)) ((r.dropWhile isNameChar).drop n)) := by
  have hlength : (step '<' r).length = (r.takeWhile isNameChar).length + n +
      rawTextLength (lowerAscii (r.takeWhile isNameChar)) ((r.dropWhile isNameChar).drop n) := by
    have hlower : (lowerAscii (r.takeWhile isNameChar)).length =
        (r.takeWhile isNameChar).length := List.length_map _
    have hkind : (if Kind.opens = .opens ∧
        Vocabulary.isVoidElement (lowerAscii (r.takeWhile isNameChar)) then Kind.void
        else .opens) = .opens := if_neg fun h => hvoid h.2
    rw [step_name hname, startTag, hend]
    dsimp only
    rw [hkind, if_pos ⟨rfl, hraw⟩, hlower]
  rw [following, hlength, ← List.drop_drop, ← List.drop_drop, drop_length_takeWhile]

theorem lands_of_rawBump? {p : List Char} (hp : p ∈ places cs) (h : rawBump? p = some b) :
    b.Lands cs := by
  cases p with
  | nil => exact absurd h (by simp [rawBump?])
  | cons c r =>
    rw [rawBump?] at h
    split at h
    · next hstart =>
      obtain ⟨rfl, hname⟩ := hstart
      split at h
      · next end? n hend =>
        split at h
        · next hraw =>
          obtain ⟨rfl, hvoid, hholds⟩ := hraw
          obtain rfl := Option.some.inj h
          refine lands_of_width (((List.drop_suffix n _).trans ?_).trans
            (suffix_of_mem_places hp).1) (rawWidth_eq hholds _)
            (following_rawText hname hend hvoid hholds).symm
            ((following_of_mem_places hp).imp id (List.mem_append_left _))
          exact (List.dropWhile_suffix isNameChar).trans (List.suffix_cons '<' r)
        · exact absurd h (by simp)
      · exact absurd h (by simp)
    · exact absurd h (by simp)

/-- **Every jump stays within the text and lands on a character.** -/
theorem lands_of_mem_bumps (h : b ∈ bumps cs) : b.Lands cs := by
  rcases List.mem_append.mp h with h | h
  · obtain ⟨p, hp, hb⟩ := List.mem_filterMap.mp h
    rcases List.mem_append.mp hp with hp | hp
    · exact lands_of_codeBump? hp hb
    · exact lands_of_inner_codeBump? hp hb
  · obtain ⟨p, hp, hb⟩ := List.mem_filterMap.mp h
    exact lands_of_rawBump? hp hb

end Lands

/-- **Tags are found where they say they stand.**  They come from strictly increasing offsets, each
with its opener and its name there and as many newlines before it as its line says.  The scan comes
to an end, and none of its jumps leaves the text or splits a character. -/
theorem tags_located (cs : List Char) :
    (located cs).map Prod.snd = tags cs ∧
      (located cs).Pairwise (fun a b => a.1 < b.1) ∧
      (∀ t ∈ located cs, StandsAt cs t.1 t.2) ∧
      (places cs).length + (insides cs).length ≤ cs.length ∧
      ∀ b ∈ bumps cs, b.Lands cs :=
  ⟨map_snd_locatedFrom 0 0 cs, pairwise_locatedFrom 0 0 cs,
    fun _ ht => standsAt_of_mem_locatedFrom [] ht,
    length_places_add_length_insides_le cs, fun _ hb => lands_of_mem_bumps hb⟩

/-- Code inside a start tag, and raw text with a wide character, closed in capitals. -/
example : located "é\n<style a=\x7b%'%\x7d'%\x7d>ü<</STYLE>".toList =
      [(3, ⟨"style".toList, .opens, 1⟩), (24, ⟨"style".toList, .closes, 1⟩)] ∧
    (bumps "é\n<style a=\x7b%'%\x7d'%\x7d>ü<</STYLE>".toList).map Bump.width = [6, 3] := by
  decide +kernel

end TwigTemplate.Element
