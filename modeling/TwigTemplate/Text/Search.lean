/-!
# Looking for a text inside a text

`after?` is the one primitive: what follows `needle` at the start of a text. Occurrence, first
occurrence and endings are read off it.
-/

namespace TwigTemplate.Text

/-- What follows `needle` at the start of the text, if the text starts with it. -/
def after? : (needle cs : List Char) → Option (List Char)
  | [], cs => some cs
  | _ :: _, [] => none
  | n :: needle, c :: r => if n = c then after? needle r else none

def startsWith (needle cs : List Char) : Bool :=
  (after? needle cs).isSome

def endsWith (needle cs : List Char) : Bool :=
  startsWith needle.reverse cs.reverse

/-- The text occurs somewhere. -/
def occursIn (needle : List Char) : List Char → Bool
  | [] => needle.isEmpty
  | c :: r => startsWith needle (c :: r) || occursIn needle r

/-- The text before the first occurrence of `needle`, and the text after it. -/
def cutAt? (needle : List Char) : List Char → Option (List Char × List Char)
  | [] => if needle.isEmpty then some ([], []) else none
  | c :: r =>
    match after? needle (c :: r) with
    | some rest => some ([], rest)
    | none => (cutAt? needle r).map fun (before, rest) => (c :: before, rest)

/-- The text before the last occurrence of `needle`, and the text from it on. -/
def cutAtLast? (needle : List Char) : List Char → Option (List Char × List Char)
  | [] => if needle.isEmpty then some ([], []) else none
  | c :: r =>
    match cutAtLast? needle r with
    | some (before, rest) => some (c :: before, rest)
    | none => if startsWith needle (c :: r) then some ([], c :: r) else none

/-- The text with `A`–`Z` written small; other characters stay. -/
def lowerAscii (cs : List Char) : List Char :=
  cs.map Char.toLower

theorem eq_append_of_after? {needle cs rest : List Char} (h : after? needle cs = some rest) :
    cs = needle ++ rest := by
  induction needle generalizing cs with
  | nil => simpa [after?] using h
  | cons n needle ih =>
    cases cs with
    | nil => simp [after?] at h
    | cons c r =>
      simp only [after?] at h
      split at h
      · next hc => simp [hc, ih h]
      · simp at h

theorem length_le_of_occursIn {needle cs : List Char} (h : occursIn needle cs = true) :
    needle.length ≤ cs.length := by
  induction cs with
  | nil => simp_all [occursIn]
  | cons c r ih =>
    simp only [occursIn, Bool.or_eq_true] at h
    rcases h with h | h
    · obtain ⟨rest, hrest⟩ := Option.isSome_iff_exists.1 h
      have := congrArg List.length (eq_append_of_after? hrest)
      simp only [List.length_append] at this
      omega
    · exact Nat.le_succ_of_le (ih h)

theorem cutAt?_length_lt {needle cs before rest : List Char} (hneedle : needle ≠ [])
    (h : cutAt? needle cs = some (before, rest)) : rest.length < cs.length := by
  induction cs generalizing before with
  | nil => simp_all [cutAt?]
  | cons c r ih =>
    simp only [cutAt?] at h
    split at h
    · next rest' hrest =>
      simp only [Option.some.injEq, Prod.mk.injEq] at h
      have := congrArg List.length (eq_append_of_after? hrest)
      have := List.length_pos_iff.2 hneedle
      simp only [List.length_append] at *
      grind
    · obtain ⟨⟨before', rest'⟩, hcut, heq⟩ := Option.map_eq_some_iff.1 h
      simp only [Prod.mk.injEq] at heq
      obtain ⟨-, rfl⟩ := heq
      exact Nat.lt_succ_of_lt (ih hcut)

end TwigTemplate.Text
