import TwigTemplate.Text.Search

/-!
# Expanding snippets

Every stop `${n:text}` becomes its text, and the indentation of the first line is put in front of
each later one. The cursor goes to the stop with the lowest number, the first of equals.
-/

namespace TwigTemplate.Completion

/-- A stop at the start of a text: its number, its text and what follows it. A number of 2⁶⁴ or more
makes no stop. -/
def stop? (cs : List Char) : Option (Nat × List Char × List Char) := do
  let rest ← Text.after? ['$', '{'] cs
  let digits := rest.takeWhile Char.isDigit
  if digits.isEmpty then none
  let number := digits.foldl (fun n d => 10 * n + (d.toNat - '0'.toNat)) 0
  if Nat.pow 2 64 ≤ number then none
  let inner ← Text.after? [':'] (rest.drop digits.length)
  let (text, after) ← Text.cutAt? ['}'] inner
  return (number, text, after)

/-- A piece of a snippet. -/
inductive Part where
  | char (c : Char)
  | stop (number : Nat) (text : List Char)
  deriving DecidableEq, Repr

theorem stop?_length_lt {cs text after : List Char} {n : Nat}
    (h : stop? cs = some (n, text, after)) : after.length < cs.length := by
  simp only [stop?, Option.bind_eq_bind, Option.bind_eq_some_iff] at h
  obtain ⟨rest, hrest, h⟩ := h
  split at h
  · simp at h
  simp only [Option.pure_def] at h
  split at h
  · simp at h
  simp only [Option.bind_eq_some_iff, Prod.exists, Option.some.injEq, Prod.mk.injEq] at h
  obtain ⟨inner, hinner, text', after', hcut, -, -, rfl⟩ := h
  have hopen := congrArg List.length (Text.eq_append_of_after? hrest)
  have hmark := congrArg List.length (Text.eq_append_of_after? hinner)
  have := Text.cutAt?_length_lt (by simp) hcut
  simp only [List.length_append, List.length_drop] at *
  omega

/-- The parts of a snippet body. -/
def parts : List Char → List Part
  | [] => []
  | c :: r =>
    match _h : stop? (c :: r) with
    | some (n, text, after) => .stop n text :: parts after
    | none => .char c :: parts r
termination_by cs => cs.length
decreasing_by
  · exact stop?_length_lt _h
  · simp

/-- A stop and the place where its text starts, counted from zero. -/
structure Cursor where
  number : Nat
  line : Nat
  column : Nat
  deriving DecidableEq, Repr

/-- The better of two cursors: the lower number, the first of equals. -/
def Cursor.prefer (best : Option Cursor) (next : Cursor) : Option Cursor :=
  match best with
  | none => some next
  | some b => if next.number < b.number then some next else some b

/-- The text of some parts, and the cursor, from a place on. A column counts the characters put
since the line was started by a newline of the body. -/
def expandParts (indent : List Char) (line column : Nat) (best : Option Cursor) :
    List Part → List Char × Option Cursor
  | [] => ([], best)
  | .stop n text :: rest =>
    let (out, cursor) := expandParts indent line (column + text.length)
      (Cursor.prefer best ⟨n, line, column⟩) rest
    (text ++ out, cursor)
  | .char c :: rest =>
    if c = '\n' then
      let (out, cursor) := expandParts indent (line + 1) indent.length best rest
      (c :: indent ++ out, cursor)
    else
      let (out, cursor) := expandParts indent line (column + 1) best rest
      (c :: out, cursor)

/-- A snippet body with its stops filled in, and where the cursor goes. -/
def expand (indent body : List Char) : List Char × Option Cursor :=
  expandParts indent 0 0 none (parts body)

end TwigTemplate.Completion
