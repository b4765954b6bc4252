import Mathlib.Data.List.TakeWhile
import TwigTemplate.Completion.Expansion
import TwigTemplate.Proofs.Point
import TwigTemplate.Proofs.Text.Lines
import TwigTemplate.Proofs.Text.Search

/-!
# What a snippet becomes

The body of a snippet is read as stops `${n:text}` and single characters.  Its text is the body with
every stop filled in and an indentation behind every newline of the body, and the cursor is counted
along with it.  A newline in the text of a stop is neither indented nor counted.

* `stop?_eq_some_iff`, `Reads`: how a body is read.
* `indentBy`, `expand_eq`: **an indentation goes behind every newline** of the body.
* `hidden`: the newlines that are not counted.
* `Lowest`, `exists_lowest`: the stop that the cursor goes to.
* `expand_filled`: **the text and the cursor are true where no newline is hidden**, and only there.
* `expand_hidden`: a text that is not indented and a cursor on a wrong line.
-/

namespace TwigTemplate.Completion

variable {body indent : List Char} {ps : List Part}

/-! ### Reading a body -/

section Reading

variable {cs text rest : List Char} {n : Nat}

/-- A stop at the start of a text: its number, its text and what follows it. -/
def StopAt (cs : List Char) (n : Nat) (text rest : List Char) : Prop :=
  ∃ digits, digits ≠ [] ∧ (∀ c ∈ digits, c.isDigit = true) ∧ n = Nat.ofDigitChars 10 digits 0 ∧
    n < Nat.pow 2 64 ∧ '}' ∉ text ∧ cs = '$' :: '{' :: (digits ++ ':' :: (text ++ '}' :: rest))

/-- **A stop is found exactly where one stands.** -/
theorem stop?_eq_some_iff : stop? cs = some (n, text, rest) ↔ StopAt cs n text rest := by
  constructor
  · intro h
    simp only [stop?, Option.bind_eq_bind, Option.bind_eq_some_iff] at h
    obtain ⟨inside, hinside, h⟩ := h
    split at h
    · exact absurd h (by simp)
    next hne =>
    simp only [Option.pure_def] at h
    split at h
    · exact absurd h (by simp)
    next hnumber =>
    simp only [Option.bind_eq_some_iff, Prod.exists, Option.some.injEq, Prod.mk.injEq] at h
    obtain ⟨inner, hinner, text, rest, hcut, rfl, rfl, rfl⟩ := h
    obtain ⟨htext, rfl⟩ := Text.cutAt?_singleton_eq_some_iff.mp hcut
    have hdigits := List.prefix_iff_eq_append.mp (List.takeWhile_prefix Char.isDigit (l := inside))
    rw [Text.after?_eq_some_iff.mp hinner] at hdigits
    refine ⟨inside.takeWhile Char.isDigit, by simpa using hne,
      fun c hc => List.mem_takeWhile_imp hc, rfl, not_le.mp hnumber, htext, ?_⟩
    rw [Text.after?_eq_some_iff.mp hinside]
    exact congrArg (['$', '{'] ++ ·) hdigits.symm
  · rintro ⟨digits, hne, hdigits, rfl, hnumber, htext, rfl⟩
    have htake : (digits ++ ':' :: (text ++ '}' :: rest)).takeWhile Char.isDigit = digits := by
      rw [List.takeWhile_append_of_pos hdigits, List.takeWhile_cons_of_neg (by decide),
        List.append_nil]
    have hopen : Text.after? ['$', '{'] ('$' :: '{' :: (digits ++ ':' :: (text ++ '}' :: rest))) =
        some (digits ++ ':' :: (text ++ '}' :: rest)) := Text.after?_append ['$', '{'] _
    have hmark : Text.after? [':'] (':' :: (text ++ '}' :: rest)) = some (text ++ '}' :: rest) :=
      Text.after?_append [':'] _
    have hcut : Text.cutAt? ['}'] (text ++ '}' :: rest) = some (text, rest) :=
      Text.cutAt?_singleton_eq_some_iff.mpr ⟨htext, rfl⟩
    simp only [stop?, hopen, Option.bind_eq_bind, Option.bind_some, htake, List.drop_left, hmark,
      hcut, Option.pure_def]
    rw [if_neg (by simpa using hne)]
    exact if_neg (not_le.mpr hnumber)

/-- A body as its parts: a stop wherever one stands, and single characters elsewhere. -/
inductive Reads : List Char → List Part → Prop
  | nil : Reads [] []
  | stop {cs text rest : List Char} {n : Nat} {ps : List Part} (h : StopAt cs n text rest)
      (tail : Reads rest ps) : Reads cs (.stop n text :: ps)
  | char {c : Char} {cs : List Char} {ps : List Part}
      (h : ∀ n text rest, ¬ StopAt (c :: cs) n text rest) (tail : Reads cs ps) :
      Reads (c :: cs) (.char c :: ps)

theorem reads_parts (body : List Char) : Reads body (parts body) := by
  induction body using parts.induct with
  | case1 =>
    rw [parts]
    exact .nil
  | case2 c r n text after h ih =>
    rw [parts]
    split
    · next heq =>
      obtain ⟨rfl, rfl, rfl⟩ : n = _ ∧ text = _ ∧ after = _ := by simpa [h] using heq
      exact .stop (stop?_eq_some_iff.mp h) ih
    · next heq => exact absurd (h.symm.trans heq) (by simp)
  | case3 c r h ih =>
    rw [parts]
    split
    · next heq => exact absurd (h.symm.trans heq) (by simp)
    · refine .char (fun n text rest hstop => ?_) ih
      exact absurd (h.symm.trans (stop?_eq_some_iff.mpr hstop)) (by simp)

theorem not_stopAt_nil : ¬ StopAt [] n text rest := by
  rintro ⟨digits, -, -, -, -, -, hcut⟩
  exact absurd hcut (by simp)

/-- **A body is read in one way only.** -/
theorem Reads.unique {qs : List Part} (h : Reads body ps) (h' : Reads body qs) : ps = qs := by
  induction h generalizing qs with
  | nil =>
    cases h' with
    | nil => rfl
    | stop h _ => exact absurd h not_stopAt_nil
  | stop h _ ih =>
    cases h' with
    | nil => exact absurd h not_stopAt_nil
    | stop h' tail' =>
      have hsame := (stop?_eq_some_iff.mpr h).symm.trans (stop?_eq_some_iff.mpr h')
      obtain ⟨rfl, rfl, rfl⟩ := by simpa using hsame
      rw [ih tail']
    | char hno _ => exact absurd h (hno _ _ _)
  | char hno _ ih =>
    cases h' with
    | stop h' _ => exact absurd h' (hno _ _ _)
    | char _ tail' => rw [ih tail']

theorem reads_iff : Reads body ps ↔ ps = parts body :=
  ⟨fun h => h.unique (reads_parts body), fun h => h ▸ reads_parts body⟩

end Reading

/-! ### Indentation -/

/-- A text with an indentation behind every newline. -/
def indentBy (indent cs : List Char) : List Char :=
  cs.flatMap fun c => if c = '\n' then c :: indent else [c]

theorem indentBy_append (indent cs ds : List Char) :
    indentBy indent (cs ++ ds) = indentBy indent cs ++ indentBy indent ds :=
  List.flatMap_append

theorem indentBy_cons (indent : List Char) (c : Char) (cs : List Char) :
    indentBy indent (c :: cs) = (if c = '\n' then c :: indent else [c]) ++ indentBy indent cs :=
  List.flatMap_cons

theorem indentBy_of_not_mem (indent : List Char) {cs : List Char} (h : '\n' ∉ cs) :
    indentBy indent cs = cs := by
  induction cs with
  | nil => rfl
  | cons c cs ih =>
    rw [List.mem_cons, not_or] at h
    rw [indentBy_cons, if_neg (Ne.symm h.1), ih h.2]
    rfl

theorem indentBy_nil (cs : List Char) : indentBy [] cs = cs := by
  induction cs with
  | nil => rfl
  | cons c cs ih =>
    rw [indentBy_cons, ih]
    split <;> rfl

theorem length_indentBy (indent cs : List Char) :
    (indentBy indent cs).length = cs.length + Text.newlineCount cs * indent.length := by
  induction cs with
  | nil => simp [indentBy, Text.newlineCount]
  | cons c cs ih =>
    rw [indentBy_cons, List.length_append, ih, List.length_cons, Text.newlineCount,
      Text.newlineCount]
    split
    · next hc =>
      rw [hc, List.count_cons_self, Nat.add_mul, List.length_cons]
      omega
    · next hc =>
      rw [List.count_cons_of_ne hc, List.length_singleton]
      omega

/-! ### Filling in -/

/-- The text of a part. -/
def Part.text : Part → List Char
  | .char c => [c]
  | .stop _ text => text

/-- A body with every stop filled in. -/
def filled (ps : List Part) : List Char :=
  ps.flatMap Part.text

/-- The text of a stop stays on its line. -/
def Part.onLine : Part → Prop
  | .char _ => True
  | .stop _ text => '\n' ∉ text

instance : DecidablePred Part.onLine := fun part =>
  match part with
  | .char _ => inferInstanceAs (Decidable True)
  | .stop _ text => inferInstanceAs (Decidable ('\n' ∉ text))

/-- A part as it is written out: the text of a stop goes in as it is. -/
def Part.written (indent : List Char) : Part → List Char
  | .char c => indentBy indent [c]
  | .stop _ text => text

/-- How many newlines of a part are not indented. -/
def Part.hidden : Part → Nat
  | .char _ => 0
  | .stop _ text => Text.newlineCount text

/-- How many newlines of a body are not indented. -/
def hidden (ps : List Part) : Nat :=
  ps.foldr (fun part n => part.hidden + n) 0

theorem filled_cons (part : Part) (ps : List Part) : filled (part :: ps) = part.text ++ filled ps :=
  List.flatMap_cons

theorem hidden_cons (part : Part) (ps : List Part) :
    hidden (part :: ps) = part.hidden + hidden ps := rfl

theorem Part.hidden_eq_zero_iff {part : Part} : part.hidden = 0 ↔ part.onLine := by
  cases part with
  | char c => exact iff_of_true rfl trivial
  | stop n text => exact Text.newlineCount_eq_zero

theorem hidden_eq_zero_iff : hidden ps = 0 ↔ ∀ part ∈ ps, part.onLine := by
  induction ps with
  | nil => exact iff_of_true rfl (by simp)
  | cons part ps ih =>
    rw [hidden_cons, Nat.add_eq_zero_iff, Part.hidden_eq_zero_iff, ih, List.forall_mem_cons]

theorem Part.written_eq {part : Part} (h : part.onLine) (indent : List Char) :
    part.written indent = indentBy indent part.text := by
  cases part with
  | char c => rfl
  | stop n text => exact (indentBy_of_not_mem indent h).symm

theorem Part.length_indentBy_text (indent : List Char) (part : Part) :
    (indentBy indent part.text).length =
      (part.written indent).length + part.hidden * indent.length := by
  cases part with
  | char c => rw [Part.hidden, Nat.zero_mul, Nat.add_zero, Part.text, Part.written]
  | stop n text => exact length_indentBy indent text

/-- What the hidden newlines leave out. -/
theorem length_indentBy_filled (indent : List Char) (ps : List Part) :
    (indentBy indent (filled ps)).length =
      (ps.flatMap (Part.written indent)).length + hidden ps * indent.length := by
  induction ps with
  | nil => simp [filled, hidden, indentBy]
  | cons part ps ih =>
    rw [filled_cons, indentBy_append, List.length_append, Part.length_indentBy_text, ih,
      List.flatMap_cons, List.length_append, hidden_cons, Nat.add_mul]
    omega

theorem flatMap_written_of_onLine (indent : List Char) (h : ∀ part ∈ ps, part.onLine) :
    ps.flatMap (Part.written indent) = indentBy indent (filled ps) := by
  induction ps with
  | nil => rfl
  | cons part ps ih =>
    obtain ⟨hpart, hrest⟩ := List.forall_mem_cons.mp h
    rw [List.flatMap_cons, Part.written_eq hpart, ih hrest, filled_cons, indentBy_append]

/-- **Every newline is indented, unless some of them are hidden.** -/
theorem flatMap_written_eq_iff : ps.flatMap (Part.written indent) = indentBy indent (filled ps) ↔
    indent = [] ∨ ∀ part ∈ ps, part.onLine := by
  constructor
  · intro h
    have hlength := length_indentBy_filled indent ps
    rw [← h, Nat.left_eq_add, Nat.mul_eq_zero, List.length_eq_zero_iff,
      hidden_eq_zero_iff] at hlength
    exact hlength.symm
  · rintro (rfl | h)
    · have hwritten : Part.written [] = Part.text := by
        funext part
        cases part with
        | char c => exact indentBy_nil [c]
        | stop n text => rfl
      rw [indentBy_nil, hwritten, filled]
    · exact flatMap_written_of_onLine indent h

/-! ### Moving the cursor -/

/-- Where the cursor is counted to be behind a part. -/
def Part.step (indent : List Char) (place : Nat × Nat) : Part → Nat × Nat
  | .char c => if c = '\n' then (place.1 + 1, indent.length) else (place.1, place.2 + 1)
  | .stop _ text => (place.1, place.2 + text.length)

/-- The cursor that is preferred once a part has been read. -/
def Part.offer (place : Nat × Nat) (best : Option Cursor) : Part → Option Cursor
  | .char _ => best
  | .stop n _ => Cursor.prefer best ⟨n, place.1, place.2⟩

/-- **What one part adds** to the text and to the cursor. -/
theorem expandParts_cons (indent : List Char) (place : Nat × Nat) (best : Option Cursor)
    (part : Part) (ps : List Part) :
    expandParts indent place.1 place.2 best (part :: ps) =
      (part.written indent ++ (expandParts indent (part.step indent place).1
          (part.step indent place).2 (part.offer place best) ps).1,
        (expandParts indent (part.step indent place).1 (part.step indent place).2
          (part.offer place best) ps).2) := by
  cases part with
  | stop n text => rfl
  | char c =>
    rw [expandParts, Part.written, indentBy_cons, Part.step]
    split
    · rw [indentBy, List.flatMap_nil, List.append_nil]
      rfl
    · rfl

/-- **The text is that of the parts**, wherever the cursor goes. -/
theorem expandParts_text (indent : List Char) (place : Nat × Nat) (best : Option Cursor)
    (ps : List Part) :
    (expandParts indent place.1 place.2 best ps).1 = ps.flatMap (Part.written indent) := by
  induction ps generalizing place best with
  | nil => rfl
  | cons part ps ih => rw [expandParts_cons, List.flatMap_cons, ih]

/-- **An indentation goes behind every newline** of a snippet. -/
theorem expand_eq (indent : List Char) {body : List Char} (h : ∀ part ∈ parts body, part.onLine) :
    (expand indent body).1 = indentBy indent (expand [] body).1 := by
  have htext : ∀ indent, (expand indent body).1 = indentBy indent (filled (parts body)) :=
    fun indent => by
      rw [expand, expandParts_text indent (0, 0), flatMap_written_of_onLine indent h]
  rw [htext, htext [], indentBy_nil]

theorem foldl_step_line (indent : List Char) (place : Nat × Nat) (ps : List Part) :
    (ps.foldl (Part.step indent) place).1 + hidden ps =
      place.1 + Text.newlineCount (filled ps) := by
  induction ps generalizing place with
  | nil => rfl
  | cons part ps ih =>
    have hpart : (part.step indent place).1 + part.hidden =
        place.1 + Text.newlineCount part.text := by
      cases part with
      | stop n text => rfl
      | char c =>
        rw [Part.step, Part.hidden, Part.text, Text.newlineCount]
        split
        · next hc => simp [hc]
        · next hc => simp [hc]
    have hrest := ih (part.step indent place)
    rw [List.foldl_cons, hidden_cons, filled_cons, Text.newlineCount_append]
    omega

/-! ### The lowest stop -/

/-- A stop of a body that has the lowest number, the first one of equals. -/
structure Lowest (ps before : List Part) (n : Nat) (text : List Char) (after : List Part) :
    Prop where
  split : ps = before ++ .stop n text :: after
  before : ∀ m t, .stop m t ∈ before → n < m
  after : ∀ m t, .stop m t ∈ after → n ≤ m

theorem Lowest.le {before after : List Part} {n m : Nat} {text t : List Char}
    (h : Lowest ps before n text after) (hmem : .stop m t ∈ ps) : n ≤ m := by
  rw [h.split, List.mem_append, List.mem_cons] at hmem
  rcases hmem with hmem | heq | hmem
  · exact Nat.le_of_lt (h.before m t hmem)
  · obtain ⟨rfl, -⟩ := Part.stop.inj heq
    exact Nat.le_refl m
  · exact h.after m t hmem

theorem exists_lowest {m : Nat} {t : List Char} (h : .stop m t ∈ ps) :
    ∃ before n text after, Lowest ps before n text after := by
  induction ps generalizing m t with
  | nil => exact absurd h List.not_mem_nil
  | cons part ps ih =>
    by_cases hrest : ∃ k u, Part.stop k u ∈ ps ∧ ∀ i v, part = .stop i v → k < i
    · -- A lower one follows.
      obtain ⟨k, u, hmem, hlow⟩ := hrest
      obtain ⟨before, n, text, after, hlowest⟩ := ih hmem
      refine ⟨part :: before, n, text, after, by rw [hlowest.split]; rfl, fun i v hi => ?_,
        hlowest.after⟩
      rcases List.mem_cons.mp hi with heq | hi
      · exact Nat.lt_of_le_of_lt (hlowest.le hmem) (hlow i v heq.symm)
      · exact hlowest.before i v hi
    · obtain ⟨i, v, rfl⟩ : ∃ i v, part = .stop i v := by
        cases part with
        | stop i v => exact ⟨i, v, rfl⟩
        | char c =>
          have hmem : Part.stop m t ∈ ps := (List.mem_cons.mp h).resolve_left (by simp)
          exact absurd ⟨m, t, hmem, fun i v heq => absurd heq (by simp)⟩ hrest
      refine ⟨[], i, v, ps, rfl, fun _ _ hmem => absurd hmem List.not_mem_nil, fun k u hk => ?_⟩
      refine Nat.le_of_not_lt fun hlt => hrest ⟨k, u, hk, fun i' v' heq => ?_⟩
      obtain ⟨rfl, rfl⟩ := Part.stop.inj heq
      exact hlt

theorem cursor_of_no_stop (h : ∀ n t, .stop n t ∉ ps) (indent : List Char) (place : Nat × Nat)
    (best : Option Cursor) : (expandParts indent place.1 place.2 best ps).2 = best := by
  induction ps generalizing place with
  | nil => rfl
  | cons part ps ih =>
    rw [expandParts_cons]
    cases part with
    | stop n t => exact absurd List.mem_cons_self (h n t)
    | char c => exact ih (fun n t hmem => h n t (List.mem_cons_of_mem _ hmem)) _

/-- **A cursor is kept** while no stop has a lower number. -/
theorem cursor_of_le {b : Cursor} (h : ∀ n t, .stop n t ∈ ps → b.number ≤ n) (indent : List Char)
    (place : Nat × Nat) : (expandParts indent place.1 place.2 (some b) ps).2 = some b := by
  induction ps generalizing place with
  | nil => rfl
  | cons part ps ih =>
    have hoffer : part.offer place (some b) = some b := by
      cases part with
      | char c => rfl
      | stop n t => exact if_neg (Nat.not_lt.mpr (h n t List.mem_cons_self))
    rw [expandParts_cons, hoffer]
    exact ih (fun n t hmem => h n t (List.mem_cons_of_mem _ hmem)) _

theorem Part.lt_of_mem_offer {part : Part} {place : Nat × Nat} {best : Option Cursor} {n : Nat}
    (hpart : ∀ m t, part = .stop m t → n < m) (hbest : ∀ b ∈ best, n < b.number) :
    ∀ b ∈ part.offer place best, n < b.number := by
  intro b hb
  cases part with
  | char c => exact hbest b hb
  | stop m t =>
    have hlt := hpart m t rfl
    cases best with
    | none =>
      obtain rfl := Option.some.inj hb
      exact hlt
    | some b' =>
      rw [Part.offer, Cursor.prefer] at hb
      split at hb
      · obtain rfl := Option.some.inj hb
        exact hlt
      · exact hbest b hb

/-- **The cursor goes to the lowest stop**, where the count is when it is read. -/
theorem cursor_of_lowest {before after : List Part} {n : Nat} {text : List Char}
    {best : Option Cursor} (h : Lowest ps before n text after)
    (hbest : ∀ b ∈ best, n < b.number) (indent : List Char) (place : Nat × Nat) :
    (expandParts indent place.1 place.2 best ps).2 =
      some ⟨n, (before.foldl (Part.step indent) place).1,
        (before.foldl (Part.step indent) place).2⟩ := by
  obtain ⟨rfl, hbefore, hafter⟩ := h
  induction before generalizing place best with
  | nil =>
    have hoffer : (Part.stop n text).offer place best = some ⟨n, place.1, place.2⟩ := by
      cases best with
      | none => rfl
      | some b => exact if_pos (hbest b rfl)
    rw [List.nil_append, expandParts_cons, hoffer]
    exact cursor_of_le hafter indent _
  | cons part before ih =>
    rw [List.cons_append, expandParts_cons]
    refine ih (Part.lt_of_mem_offer (fun m t he => ?_) hbest) _ fun m t hmem =>
      hbefore m t (List.mem_cons_of_mem _ hmem)
    exact hbefore m t (he ▸ List.mem_cons_self)

/-! ### The place of the cursor -/

/-- A cursor stands right behind a text: its line and its column are those of the text's end,
counted from zero. -/
def Cursor.Behind (c : Cursor) (cs : List Char) : Prop :=
  (Point.origin.advance cs).line = c.line + 1 ∧ (Point.origin.advance cs).column = c.column + 1

instance (c : Cursor) (cs : List Char) : Decidable (c.Behind cs) :=
  inferInstanceAs (Decidable (_ ∧ _))

/-- A count from zero and a point that goes along with it. -/
def Counts (place : Nat × Nat) (p : Point) : Prop :=
  p.line = place.1 + 1 ∧ p.column = place.2 + 1

/-- **Counting a part moves past its text**, when that is on one line. -/
theorem Counts.step {place : Nat × Nat} {p : Point} {part : Part} (h : Counts place p)
    (hindent : '\n' ∉ indent) (hpart : part.onLine) :
    Counts (part.step indent place) (p.advance (indentBy indent part.text)) := by
  obtain ⟨hline, hcolumn⟩ := h
  cases part with
  | stop n text =>
    rw [Part.text, indentBy_of_not_mem indent hpart]
    have hzero := Text.newlineCount_eq_zero.mpr hpart
    refine ⟨?_, ?_⟩
    · rw [Point.advance_line, hline, hzero, Nat.add_zero, Part.step]
    · rw [Point.advance_column hpart, hcolumn, Part.step]
      dsimp only
      omega
  | char c =>
    by_cases hc : c = '\n'
    · have htext : indentBy indent (Part.char c).text = '\n' :: indent := by
        rw [Part.text, indentBy_cons, if_pos hc, hc]
        exact List.append_nil _
      have hzero := Text.newlineCount_eq_zero.mpr hindent
      rw [htext, Point.advance_cons, Point.step, if_pos rfl, Part.step, if_pos hc]
      refine ⟨?_, ?_⟩
      · rw [Point.advance_line, hline, hzero]
      · rw [Point.advance_column hindent]
        exact Nat.add_comm _ _
    · have htext : indentBy indent (Part.char c).text = [c] := by
        rw [Part.text, indentBy_cons, if_neg hc]
        rfl
      rw [htext, Point.advance_cons, Point.step, if_neg hc, Part.step, if_neg hc]
      exact ⟨hline, congrArg (· + 1) hcolumn⟩

/-- **Counting parts moves past their text**, when each is on one line. -/
theorem Counts.foldl {place : Nat × Nat} {p : Point} (h : Counts place p) (hindent : '\n' ∉ indent)
    (hps : ∀ part ∈ ps, part.onLine) :
    Counts (ps.foldl (Part.step indent) place) (p.advance (indentBy indent (filled ps))) := by
  induction ps generalizing place p with
  | nil => exact h
  | cons part ps ih =>
    obtain ⟨hpart, hrest⟩ := List.forall_mem_cons.mp hps
    rw [List.foldl_cons, filled_cons, indentBy_append, Point.advance_append]
    exact ih (h.step hindent hpart) hrest

theorem newlineCount_indentBy (hindent : '\n' ∉ indent) (cs : List Char) :
    Text.newlineCount (indentBy indent cs) = Text.newlineCount cs := by
  have hzero : indent.count '\n' = 0 := Text.newlineCount_eq_zero.mpr hindent
  induction cs with
  | nil => rfl
  | cons c cs ih =>
    rw [indentBy_cons, Text.newlineCount_append, ih]
    rw [Text.newlineCount, Text.newlineCount, Text.newlineCount, List.count_cons]
    split
    · next hc => simp [hc, hzero, Nat.add_comm]
    · next hc => simp [hc]

/-- **The counted place is the true one, unless a newline is hidden before it.** -/
theorem behind_iff (hindent : '\n' ∉ indent) (n : Nat) (before : List Part) :
    (⟨n, (before.foldl (Part.step indent) (0, 0)).1,
        (before.foldl (Part.step indent) (0, 0)).2⟩ : Cursor).Behind
      (indentBy indent (filled before)) ↔ ∀ part ∈ before, part.onLine := by
  constructor
  · rintro ⟨hline, -⟩
    have hcount := foldl_step_line indent (0, 0) before
    rw [Point.advance_line, newlineCount_indentBy hindent, Point.origin] at hline
    dsimp only at hline hcount
    have hzero : hidden before = 0 := by omega
    exact hidden_eq_zero_iff.mp hzero
  · exact fun h => Counts.foldl ⟨rfl, rfl⟩ hindent h

/-- **What a snippet becomes.**  Its text is the body with the stops filled in and an indentation
behind every newline, and its cursor stands where the text of the lowest stop begins; but neither
holds where the text of a stop has a newline, which is not indented, and does not count for the
stops behind it. -/
theorem expand_filled (hindent : '\n' ∉ indent) (body : List Char) :
    ∃ ps, (∀ qs, Reads body qs ↔ qs = ps) ∧
      (expand indent body).1 = ps.flatMap (Part.written indent) ∧
      ((expand indent body).1 = indentBy indent (filled ps) ↔
        indent = [] ∨ ∀ part ∈ ps, part.onLine) ∧
      ((expand indent body).2 = none ↔ ∀ n text, .stop n text ∉ ps) ∧
      ∀ c, (expand indent body).2 = some c → ∃ before text after,
        Lowest ps before c.number text after ∧
          (c.Behind (indentBy indent (filled before)) ↔ ∀ part ∈ before, part.onLine) := by
  have hcursor {before n text after} (h : Lowest (parts body) before n text after) :=
    cursor_of_lowest h (by simp : ∀ b ∈ (none : Option Cursor), n < b.number) indent (0, 0)
  have htext : (expand indent body).1 = (parts body).flatMap (Part.written indent) :=
    expandParts_text indent (0, 0) none (parts body)
  refine ⟨parts body, fun _ => reads_iff, htext, ?_, ⟨fun hnone n t hmem => ?_, fun h => ?_⟩,
    fun c hc => ?_⟩
  · rw [htext]
    exact flatMap_written_eq_iff
  · obtain ⟨before, n, text, after, hlowest⟩ := exists_lowest hmem
    exact absurd (hnone.symm.trans (hcursor hlowest)) (by simp)
  · exact cursor_of_no_stop h indent (0, 0) none
  · by_cases hstop : ∃ n t, .stop n t ∈ parts body
    · obtain ⟨n, t, hmem⟩ := hstop
      obtain ⟨before, n, text, after, hlowest⟩ := exists_lowest hmem
      obtain rfl := Option.some.inj (hc.symm.trans (hcursor hlowest))
      exact ⟨before, text, after, hlowest, behind_iff hindent n before⟩
    · have hnone := cursor_of_no_stop (fun n t hmem => hstop ⟨n, t, hmem⟩) indent (0, 0) none
      exact absurd (hc.symm.trans hnone) (by simp)

/-- Two stops with the lowest number, on an indented line: the cursor goes to the first one. -/
theorem expand_filled_repeated :
    '\n' ∉ "  ".toList ∧
      expand "  ".toList "$\x7b2:ab\x7d\n$\x7b1:c\x7d$\x7b1:d\x7d".toList =
        ("ab\n  cd".toList, some ⟨1, 1, 2⟩) ∧
      ∃ ps before text after, Reads "$\x7b2:ab\x7d\n$\x7b1:c\x7d$\x7b1:d\x7d".toList ps ∧
        Lowest ps before 1 text after ∧
        (⟨1, 1, 2⟩ : Cursor).Behind (indentBy "  ".toList (filled before)) := by
  have hindent : '\n' ∉ "  ".toList := by decide
  have hexpand : expand "  ".toList "$\x7b2:ab\x7d\n$\x7b1:c\x7d$\x7b1:d\x7d".toList =
      ("ab\n  cd".toList, some ⟨1, 1, 2⟩) := by decide +kernel
  have honLine : ∀ part ∈ parts "$\x7b2:ab\x7d\n$\x7b1:c\x7d$\x7b1:d\x7d".toList,
      part.onLine := by decide +kernel
  obtain ⟨ps, hps, -, -, -, hcursor⟩ := expand_filled hindent
    "$\x7b2:ab\x7d\n$\x7b1:c\x7d$\x7b1:d\x7d".toList
  obtain rfl := (hps _).mp (reads_parts _)
  obtain ⟨before, text, after, hlowest, hbehind⟩ := hcursor ⟨1, 1, 2⟩ (by rw [hexpand])
  refine ⟨hindent, hexpand, _, before, text, after, reads_parts _, hlowest, hbehind.mpr ?_⟩
  exact fun part hmem => honLine part (hlowest.split ▸ List.mem_append_left _ hmem)

/-- A newline in the text of a stop: it is not indented, and the cursor goes to the wrong line. -/
theorem expand_hidden :
    expand "  ".toList "$\x7b2:a\nb\x7d$\x7b1:c\x7d".toList = ("a\nbc".toList, some ⟨1, 0, 3⟩) ∧
      Reads "$\x7b2:a\nb\x7d$\x7b1:c\x7d".toList [.stop 2 "a\nb".toList, .stop 1 "c".toList] ∧
      Lowest [.stop 2 "a\nb".toList, .stop 1 "c".toList] [.stop 2 "a\nb".toList] 1 "c".toList [] ∧
      indentBy "  ".toList (filled [.stop 2 "a\nb".toList, .stop 1 "c".toList]) =
        "a\n  bc".toList ∧
      (⟨1, 1, 3⟩ : Cursor).Behind (indentBy "  ".toList (filled [.stop 2 "a\nb".toList])) ∧
      ¬ (⟨1, 0, 3⟩ : Cursor).Behind
        (indentBy "  ".toList (filled [.stop 2 "a\nb".toList])) := by
  refine ⟨by decide +kernel, reads_iff.mpr (by decide +kernel), ⟨rfl, ?_, ?_⟩, by decide +kernel,
    by decide +kernel, by decide +kernel⟩
  · intro m t hmem
    obtain ⟨rfl, -⟩ := Part.stop.inj (List.mem_singleton.mp hmem)
    decide
  · exact fun m t hmem => absurd hmem List.not_mem_nil

end TwigTemplate.Completion
