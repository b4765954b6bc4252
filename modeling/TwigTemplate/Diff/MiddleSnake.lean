import TwigTemplate.Diff.Line

/-!
# The middle of a shortest edit script

Two lists of lines span a grid: a step right drops a line of the first, a step down adds a line of
the second, and a diagonal step keeps a line. From both corners at once the furthest points are found
that `d` steps off the diagonals reach, for `d = 0, 1, …`. Where the two searches meet, a shortest
script passes, and the grid is cut in two there.

Diagonal `k` holds the points with `x - y = k`.
-/

namespace TwigTemplate.Diff

/-- The furthest `x` reached on each diagonal from `-offset` on; zero where nothing is known. -/
structure Frontier where
  offset : Nat
  reached : Array Nat

namespace Frontier

def start (bound : Nat) : Frontier :=
  ⟨bound, Array.replicate (2 * bound + 2) 0⟩

def get (v : Frontier) (k : Int) : Nat :=
  v.reached.getD (k + v.offset).toNat 0

def set (v : Frontier) (k : Int) (x : Nat) : Frontier :=
  ⟨v.offset, v.reached.setIfInBounds (k + v.offset).toNat x⟩

/-- Where a path of `d` steps off the diagonals enters diagonal `k`. -/
def entry (v : Frontier) (d k : Int) : Nat :=
  if k = -d ∨ (k ≠ d ∧ v.get (k - 1) < v.get (k + 1)) then v.get (k + 1) else v.get (k - 1) + 1

end Frontier

/-- How many lines may be kept from the point `(x, y)` on. -/
def slide (a b : Array Line) (x y : Nat) : Nat :=
  if h : x < a.size ∧ y < b.size then
    if a[x] = b[y] then slide a b (x + 1) (y + 1) + 1 else 0
  else 0
termination_by a.size - x

/-- A way along a diagonal, possibly of no length. -/
structure Snake where
  x₀ : Nat
  y₀ : Nat
  x : Nat
  y : Nat

/-- The diagonals that `d` steps can end on, the highest first. -/
def diagonals (d : Nat) : List Int :=
  (List.range (d + 1)).map fun i : Nat => (d : Int) - 2 * i

/-- Move the frontier by one step on each diagonal, until a snake meets the other search. -/
def sweep (a b : Array Line) (d : Int) (meets : Int → Nat → Bool) :
    List Int → Frontier → Frontier × Option Snake
  | [], v => (v, none)
  | k :: ks, v =>
    let x₀ := v.entry d k
    let y₀ := (x₀ - k).toNat
    let n := slide a b x₀ y₀
    let v := v.set k (x₀ + n)
    if meets k (x₀ + n) then (v, some ⟨x₀, y₀, x₀ + n, y₀ + n⟩) else sweep a b d meets ks v

/-- Sweep from both corners for `d`, `d + 1`, … until the searches meet; the lists with the letter
`r` are the lines read backwards. -/
def searchFrom (a b ra rb : Array Line) (forth back : Frontier) :
    (d fuel : Nat) → Option (Nat × Nat)
  | _, 0 => none
  | d, fuel + 1 =>
    let delta : Int := a.size - b.size
    let odd := delta % 2 != 0
    let meetsBack (k : Int) (x : Nat) : Bool :=
      odd && (k - delta).natAbs < d && a.size ≤ x + back.get (delta - k)
    match sweep a b d meetsBack (diagonals d) forth with
    | (_, some s) => some (s.x₀, s.y₀)
    | (forth, none) =>
      let meetsForth (k : Int) (x : Nat) : Bool :=
        !odd && (k - delta).natAbs ≤ d && a.size ≤ x + forth.get (delta - k)
      match sweep ra rb d meetsForth (diagonals d) back with
      | (_, some s) => some (a.size - s.x, b.size - s.y)
      | (back, none) => searchFrom a b ra rb forth back (d + 1) fuel

/-- The point where two lists of lines are cut. -/
def middle? (a b : List Line) : Option (Nat × Nat) :=
  let bound := (a.length + b.length + 1) / 2 + 1
  searchFrom a.toArray b.toArray a.reverse.toArray b.reverse.toArray (.start bound) (.start bound)
    0 bound

end TwigTemplate.Diff
