/-!
# Counting depths in one pass

A tracker keeps the depth of every key at once. A line that leaves a key open waits for the depth of
that key to fall back to what it was before the line; the line on which it does ends it.
-/

namespace TwigTemplate.Fold

/-- Values by key, the one put last in front. -/
abbrev Table (κ ν : Type) := List (κ × ν)

namespace Table

variable {κ ν : Type} [DecidableEq κ]

def get? (t : Table κ ν) (key : κ) : Option ν :=
  (t.find? (·.1 = key)).map (·.2)

def put (t : Table κ ν) (key : κ) (value : ν) : Table κ ν :=
  (key, value) :: t.filter (·.1 ≠ key)

theorem get?_put (t : Table κ ν) (key key' : κ) (value : ν) :
    (t.put key value).get? key' = if key' = key then some value else t.get? key' := by
  unfold get? put
  by_cases h : key' = key
  · simp [h]
  · have hne : ¬ key = key' := fun heq => h heq.symm
    simp only [List.find?_cons, hne, decide_false, h, if_false]
    congr 1
    rw [List.find?_filter]
    congr 1
    funext a
    by_cases ha : a.1 = key' <;> simp_all

end Table

/-- A line that waits for a depth. -/
structure Waiting where
  depth : Int
  line : Nat
  deriving DecidableEq, Repr

structure Tracker (κ : Type) where
  depths : Table κ Int
  /-- The waiting lines of each key, the last one in front. -/
  waiting : Table κ (List Waiting)
  /-- Lines that have ended, each with the line that ended it. -/
  ends : List (Nat × Nat)

namespace Tracker

variable {κ : Type} [DecidableEq κ]

def empty : Tracker κ := ⟨[], [], []⟩

def depth (t : Tracker κ) (key : κ) : Int :=
  (t.depths.get? key).getD 0

/-- The lines that wait for a key. -/
def waitingFor (t : Tracker κ) (key : κ) : List Waiting :=
  (t.waiting.get? key).getD []

/-- Change the depth of a key on a line. A fall ends the line waiting last, if it waits for the
depth that is reached. -/
def step (line : Nat) (t : Tracker κ) (key : κ) (delta : Int) : Tracker κ :=
  if delta = 0 then t
  else
    let depth := t.depth key + delta
    let depths := t.depths.put key depth
    match t.waitingFor key with
    | w :: ws =>
      if delta < 0 ∧ w.depth = depth then ⟨depths, t.waiting.put key ws, (w.line, line) :: t.ends⟩
      else ⟨depths, t.waiting, t.ends⟩
    | [] => ⟨depths, t.waiting, t.ends⟩

def wait (t : Tracker κ) (key : κ) (w : Waiting) : Tracker κ :=
  ⟨t.depths, t.waiting.put key (w :: t.waitingFor key), t.ends⟩

/-- Read the changes of one line, which may leave a key open. -/
def readLine (line : Nat) (opener : Option κ) (changes : List (κ × Int)) (t : Tracker κ) :
    Tracker κ :=
  let after := changes.foldl (fun t (key, delta) => t.step line key delta) t
  match opener with
  | some key => after.wait key ⟨t.depth key, line⟩
  | none => after

/-- Read consecutive lines, each with the key it leaves open and its changes. -/
def readLines (line : Nat) (t : Tracker κ) : List (Option κ × List (κ × Int)) → Tracker κ
  | [] => t
  | (opener, changes) :: rest => readLines (line + 1) (t.readLine line opener changes) rest

/-- The line on which a line has ended. -/
def endOf? (t : Tracker κ) (line : Nat) : Option Nat :=
  (t.ends.find? (·.1 = line)).map (·.2)

end Tracker

end TwigTemplate.Fold
