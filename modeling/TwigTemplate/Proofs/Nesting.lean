import TwigTemplate.Nesting

/-!
# Well-nested events

The blocks of a document nest when each is closed by an event of its own tag, after the
blocks inside it.  Reading the events with a stack of open blocks finds out.

* `WellNested`: words of events in which the blocks nest.
* `unwind`: the blocks left open by some events; none when a closing event has no block
  or the wrong one.
* `wellNested_iff`: **a word is well nested when it unwinds to nothing.**
-/

namespace TwigTemplate.Nesting

namespace Event

/-- An event that opens or closes a block. -/
def isBlock : Event → Bool
  | opens _ => true
  | closes _ => true
  | branch => false

def opened? : Event → Option Block
  | opens b => some b
  | _ => none

def closed? : Event → Option Block
  | closes b => some b
  | _ => none

end Event

theorem events_cons (r : Region) (rs : List Region) :
    events (r :: rs) = (Event.ofRegion? r).toList ++ events rs := by
  rw [events, List.filterMap_cons]
  cases Event.ofRegion? r <;> rfl

theorem events_filter {p : Region → Bool} {rs : List Region}
    (h : ∀ r ∈ rs, p r = false → Event.ofRegion? r = none) : events (rs.filter p) = events rs := by
  induction rs with
  | nil => rfl
  | cons r rs ih =>
    have hrest := ih fun s hs => h s (List.mem_cons_of_mem _ hs)
    cases hp : p r with
    | true => rw [List.filter_cons_of_pos hp, events_cons, events_cons, hrest]
    | false =>
      rw [List.filter_cons_of_neg (by simp [hp]), events_cons, h r List.mem_cons_self hp, hrest]
      rfl

/-- A word in which the blocks nest: it is empty, or begins with a block and what stands
in it, and goes on after the event that closes this block. -/
inductive WellNested : List Event → Prop
  | nil : WellNested []
  | block {b : Block} {inner rest : List Event} : WellNested inner → WellNested rest →
      WellNested (.opens b :: (inner ++ .closes b :: rest))

/-- The blocks that some events leave open, the innermost first; none if a closing event
finds another block, or no block. -/
def unwind : List Block → List Event → Option (List Block)
  | stack, [] => some stack
  | stack, .opens b :: es => unwind (b :: stack) es
  | [], .closes _ :: _ => none
  | a :: stack, .closes b :: es => if a = b then unwind stack es else none
  | stack, .branch :: es => unwind stack es

/-- A well-nested word leaves the open blocks as they are. -/
theorem WellNested.unwind_append {es : List Event} (h : WellNested es) (stack : List Block)
    (rest : List Event) : unwind stack (es ++ rest) = unwind stack rest := by
  induction h generalizing stack rest with
  | nil => rfl
  | @block b inner after _ _ ihInner ihAfter =>
    rw [List.cons_append, unwind, List.append_assoc, ihInner, List.cons_append, unwind, if_pos rfl,
      ihAfter]

/-- A word that closes the open blocks one after the other, with well-nested words between. -/
def Closes : List Block → List Event → Prop
  | [], es => WellNested es
  | b :: stack, es => ∃ inner rest, es = inner ++ .closes b :: rest ∧ WellNested inner ∧
      Closes stack rest

theorem Closes.cons_block {b : Block} {inner es : List Event} {stack : List Block}
    (hinner : WellNested inner) (h : Closes stack es) :
    Closes stack (.opens b :: (inner ++ .closes b :: es)) := by
  cases stack with
  | nil => exact WellNested.block hinner h
  | cons a stack =>
    obtain ⟨before, rest, rfl, hbefore, hrest⟩ := h
    exact ⟨.opens b :: (inner ++ .closes b :: before), rest, by simp, WellNested.block hinner hbefore,
      hrest⟩

/-- **What unwinds to nothing closes the open blocks**, once the branches are left out. -/
theorem closes_of_unwind {stack : List Block} {es : List Event} (h : unwind stack es = some []) :
    Closes stack (es.filter Event.isBlock) := by
  induction es generalizing stack with
  | nil =>
    obtain rfl : stack = [] := by simpa [unwind] using h
    exact .nil
  | cons e es ih =>
    cases e with
    | opens b =>
      rw [unwind] at h
      obtain ⟨inner, rest, hcut, hinner, hrest⟩ := ih h
      rw [List.filter_cons_of_pos (by rfl), hcut]
      exact hrest.cons_block hinner
    | closes b =>
      cases stack with
      | nil => exact absurd h (by simp [unwind])
      | cons a stack =>
        rw [unwind] at h
        split at h
        · next hab =>
          subst hab
          rw [List.filter_cons_of_pos (by rfl)]
          exact ⟨[], _, rfl, .nil, ih h⟩
        · exact absurd h (by simp)
    | branch =>
      rw [unwind] at h
      rw [List.filter_cons_of_neg (by simp [Event.isBlock])]
      exact ih h

theorem unwind_filter (stack : List Block) (es : List Event) :
    unwind stack (es.filter Event.isBlock) = unwind stack es := by
  induction es generalizing stack with
  | nil => rfl
  | cons e es ih =>
    cases e with
    | opens b => rw [List.filter_cons_of_pos (by rfl), unwind, unwind, ih]
    | closes b =>
      rw [List.filter_cons_of_pos (by rfl)]
      cases stack with
      | nil => rw [unwind, unwind]
      | cons a stack => rw [unwind, unwind, ih]
    | branch => rw [List.filter_cons_of_neg (by simp [Event.isBlock]), ih, unwind]

/-- **Events are well nested, branches left out, when they unwind to nothing.** -/
theorem wellNested_iff {es : List Event} :
    WellNested (es.filter Event.isBlock) ↔ unwind [] es = some [] := by
  constructor
  · intro h
    have hempty := h.unwind_append [] []
    rwa [List.append_nil, unwind_filter] at hempty
  · exact closes_of_unwind

end TwigTemplate.Nesting
