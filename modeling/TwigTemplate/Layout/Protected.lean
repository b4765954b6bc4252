import TwigTemplate.Failure
import TwigTemplate.Region.Scan
import TwigTemplate.Region.Spacing
import TwigTemplate.Text.Search

/-!
# Protected documents

Before a document goes to a printer, each of its template regions is replaced by a placeholder: a
word with the region's number around a tag that occurs nowhere in the document. Afterwards every
placeholder must stand exactly once in what was printed, and is replaced by its region.
-/

namespace TwigTemplate.Layout

/-- The shortest lengthening of `tag` by `X` that does not occur in the text. -/
def freshTag (cs tag : List Char) : List Char :=
  if _h : Text.occursIn tag cs = true then freshTag cs (tag ++ ['X']) else tag
termination_by cs.length + 1 - tag.length
decreasing_by
  have := Text.length_le_of_occursIn _h
  simp only [List.length_append, List.length_cons, List.length_nil]
  omega

/-- A document with its regions taken out. -/
structure Protected where
  tag : List Char
  text : List Char
  /-- The regions with their spacing normalized, by the number of their placeholder. -/
  regions : List (List Char)
  deriving DecidableEq, Repr

/-- What every placeholder with this tag starts with. -/
def placeholderStart (tag : List Char) : List Char :=
  ['_', '_'] ++ tag ++ ['_']

/-- The placeholder with number `n`. -/
def placeholder (tag : List Char) (n : Nat) : List Char :=
  placeholderStart tag ++ Nat.toDigits 10 n ++ ['_', '_']

/-- The pieces of a document with template regions replaced by placeholders, numbered from `n` on,
and the regions. -/
def protectPieces (tag : List Char) (n : Nat) : List Region.Piece → List Char × List (List Char)
  | [] => ([], [])
  | p :: ps =>
    if p.kind.isTemplate then
      let (text, regions) := protectPieces tag (n + 1) ps
      (placeholder tag n ++ text, Region.normalizeSpacing p.raw :: regions)
    else
      let (text, regions) := protectPieces tag n ps
      (p.raw ++ text, regions)

/-- Take the terminated template regions out of a document. -/
def protect (cs : List Char) : Protected :=
  let tag := freshTag cs "TWIGKIT".toList
  let (text, regions) := protectPieces tag 0 (Region.pieces .document cs)
  ⟨tag, text, regions⟩

namespace Protected

def placeholders (p : Protected) : List (List Char) :=
  (List.range p.regions.length).map (placeholder p.tag)

/-- The number that a run of digits writes; none for no digits. -/
def number? (digits : List Char) : Option Nat :=
  if digits.isEmpty then none
  else some (digits.foldl (fun n d => 10 * n + (d.toNat - '0'.toNat)) 0)

/-- The number of the placeholder whose start has just been read, and the text after it. -/
def placeholderRest? (cs : List Char) : Option (Nat × List Char) := do
  let n ← number? (cs.takeWhile Char.isDigit)
  let rest ← Text.after? ['_', '_'] (cs.dropWhile Char.isDigit)
  return (n, rest)

theorem placeholderRest?_length_le {cs rest : List Char} {n : Nat}
    (h : placeholderRest? cs = some (n, rest)) : rest.length ≤ cs.length := by
  simp only [placeholderRest?, Option.bind_eq_bind, Option.bind_eq_some_iff,
    Option.pure_def, Option.some.injEq, Prod.mk.injEq] at h
  obtain ⟨m, -, r, hr, -, rfl⟩ := h
  have := congrArg List.length (Text.eq_append_of_after? hr)
  have := (List.dropWhile_sublist Char.isDigit (l := cs)).length_le
  simp only [List.length_append] at *
  omega

/-- The region whose placeholder has just been started, if it has not been put back before, with its
number and the text after the placeholder. -/
def claim? (p : Protected) (seen : List Nat) (cs : List Char) :
    Option (Nat × List Char × List Char) := do
  let (n, rest) ← placeholderRest? cs
  let region ← p.regions[n]?
  if seen.contains n then none else return (n, region, rest)

theorem claim?_length_le {p : Protected} {seen : List Nat} {cs region rest : List Char} {n : Nat}
    (h : claim? p seen cs = some (n, region, rest)) : rest.length ≤ cs.length := by
  simp only [claim?, Option.bind_eq_bind, Option.bind_eq_some_iff, Prod.exists] at h
  obtain ⟨m, r, hr, region', -, h⟩ := h
  split at h
  · simp at h
  · simp only [Option.pure_def, Option.some.injEq, Prod.mk.injEq] at h
    obtain ⟨-, -, rfl⟩ := h
    exact placeholderRest?_length_le hr

/-- Put the regions back for their placeholders. `seen` holds the numbers already put back; what is
no placeholder, or one that comes again, is left as it stands. -/
def putBack (p : Protected) (seen : List Nat) (cs : List Char) : List Char × List Nat :=
  match _hcut : Text.cutAt? (placeholderStart p.tag) cs with
  | none => (cs, seen)
  | some (before, rest) =>
    match _hclaim : claim? p seen rest with
    | some (n, region, after) =>
      let (out, all) := putBack p (n :: seen) after
      (before ++ region ++ out, all)
    | none =>
      let (out, all) := putBack p seen rest
      (before ++ placeholderStart p.tag ++ out, all)
termination_by cs.length
decreasing_by
  · exact Nat.lt_of_le_of_lt (claim?_length_le _hclaim)
      (Text.cutAt?_length_lt (by simp [placeholderStart]) _hcut)
  · exact Text.cutAt?_length_lt (by simp [placeholderStart]) _hcut

/-- The printed text with every region in the place of its placeholder. -/
def restore (p : Protected) (printed : List Char) : Except Failure (List Char) :=
  let (out, seen) := putBack p [] printed
  match (List.range p.regions.length).find? (!seen.contains ·) with
  | some n => .error (.placeholderLost (String.ofList (placeholder p.tag n)))
  | none => .ok out

end Protected

end TwigTemplate.Layout
