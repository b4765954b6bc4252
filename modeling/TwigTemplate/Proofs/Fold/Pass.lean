/-!
# Passes over lines

A pass reads lines one after the other.  A line may begin to wait for something, and a later
line ends the wait.  The search from one line on follows what this line waits for and looks at
nothing else.

* `Pass`: how a pass reads a line, and what a search follows.
* `Pass.Laws`: a pass that keeps the lines that wait apart.
* `Pass.searchFrom?_of_take`: a search reads the lines up to the one on which it ends.
* `Pass.Laws.endOf?_readLines`: **a pass ends every line where the search from it on stops**.
-/

namespace TwigTemplate.Fold

/-- A pass over lines of type `ρ` with states of type `σ`.  What a line waits for is of
type `β`. -/
structure Pass (σ ρ β : Type) where
  /-- Read a line with its number. -/
  read : Nat → ρ → σ → σ
  /-- The line on which a line has ended. -/
  endOf? : σ → Nat → Option Nat
  /-- What a line begins to wait for. -/
  opening? : ρ → Option β
  /-- What is waited for after a line; `none` if the line ends the wait. -/
  next? : β → ρ → Option β

namespace Pass

variable {σ ρ β : Type} (p : Pass σ ρ β)

/-- Read consecutive lines. -/
def readLines (line : Nat) (s : σ) : List ρ → σ
  | [] => s
  | r :: rs => readLines (line + 1) (p.read line r s) rs

/-- How many lines on a wait ends. -/
def search? : β → List ρ → Option Nat
  | _, [] => none
  | b, r :: rs =>
    match p.next? b r with
    | none => some 0
    | some b => (search? b rs).map (· + 1)

/-- How many lines on the first line ends. -/
def searchFrom? : List ρ → Option Nat
  | [] => none
  | r :: rs => (p.opening? r).bind fun b => (p.search? b rs).map (· + 1)

theorem search?_of_take {b : β} {rs rs' : List ρ} {k : Nat} (h : p.search? b rs = some k)
    (hsame : rs'.take (k + 1) = rs.take (k + 1)) : p.search? b rs' = some k := by
  induction rs generalizing b rs' k with
  | nil => exact absurd h (by simp [search?])
  | cons r rs ih =>
    cases rs' with
    | nil => exact absurd hsame (by simp)
    | cons r' rs' =>
      rw [List.take_succ_cons, List.take_succ_cons, List.cons.injEq] at hsame
      obtain ⟨rfl, hsame⟩ := hsame
      rw [search?] at h ⊢
      split at h
      · exact h
      · obtain ⟨j, hj, rfl⟩ := Option.map_eq_some_iff.mp h
        rw [ih hj hsame]
        rfl

/-- **A search from a line reads up to the line on which it ends.** -/
theorem searchFrom?_of_take {rs rs' : List ρ} {k : Nat} (h : p.searchFrom? rs = some k)
    (hsame : rs'.take (k + 1) = rs.take (k + 1)) : p.searchFrom? rs' = some k := by
  cases rs with
  | nil => exact absurd h (by simp [searchFrom?])
  | cons r rs =>
    cases rs' with
    | nil => exact absurd hsame (by simp)
    | cons r' rs' =>
      rw [List.take_succ_cons, List.take_succ_cons, List.cons.injEq] at hsame
      obtain ⟨rfl, hsame⟩ := hsame
      rw [searchFrom?] at h ⊢
      obtain ⟨b, hb, hk⟩ := Option.bind_eq_some_iff.mp h
      obtain ⟨j, hj, rfl⟩ := Option.map_eq_some_iff.mp hk
      rw [hb, Option.bind_some, p.search?_of_take hj hsame]
      rfl

/-- A pass that keeps the lines that wait apart: no line waits under a number that is `Clear`,
and a line that `Waits` goes its own way, whatever else the pass reads. -/
structure Laws (Good : σ → Prop) (Fits : ρ → Prop) (Clear : Nat → σ → Prop)
    (Waits : σ → Nat → β → Prop) : Prop where
  good : ∀ {s r} (line : Nat), Good s → Fits r → Good (p.read line r s)
  clear : ∀ {s first line} (r : ρ), Clear first s → line ≠ first →
    Clear first (p.read line r s) ∧ p.endOf? (p.read line r s) first = p.endOf? s first
  opens : ∀ {s r line b}, Clear line s → p.endOf? s line = none → p.opening? r = some b →
    Waits (p.read line r s) line b
  idles : ∀ {s r line}, Clear line s → p.endOf? s line = none → p.opening? r = none →
    Clear line (p.read line r s) ∧ p.endOf? (p.read line r s) line = none
  waits : ∀ {s r first line b next}, Good s → Fits r → Waits s first b → line ≠ first →
    p.next? b r = some next → Waits (p.read line r s) first next
  ends : ∀ {s r first line b}, Good s → Fits r → Waits s first b → line ≠ first →
    p.next? b r = none → Clear first (p.read line r s) ∧
      p.endOf? (p.read line r s) first = some line
  pending : ∀ {s first b}, Waits s first b → p.endOf? s first = none

namespace Laws

variable {p} {Good : σ → Prop} {Fits : ρ → Prop} {Clear : Nat → σ → Prop}
  {Waits : σ → Nat → β → Prop} {s : σ} {first n : Nat} {rs : List ρ}

theorem endOf?_of_clear (h : p.Laws Good Fits Clear Waits) (hclear : Clear first s)
    (hn : first < n) : p.endOf? (p.readLines n s rs) first = p.endOf? s first := by
  induction rs generalizing s n with
  | nil => rfl
  | cons r rs ih =>
    obtain ⟨hclear', hend⟩ := h.clear r hclear (Nat.ne_of_gt hn)
    rw [readLines, ih hclear' (Nat.lt_succ_of_lt hn), hend]

theorem endOf?_of_waits (h : p.Laws Good Fits Clear Waits) (hgood : Good s)
    (hrs : ∀ r ∈ rs, Fits r) {b : β} (hwaits : Waits s first b) (hn : first < n) :
    p.endOf? (p.readLines n s rs) first = (p.search? b rs).map (n + ·) := by
  induction rs generalizing s n b with
  | nil => exact h.pending hwaits
  | cons r rs ih =>
    obtain ⟨hr, hrest⟩ := List.forall_mem_cons.mp hrs
    rw [readLines, search?]
    cases hnext : p.next? b r with
    | none =>
      obtain ⟨hclear, hend⟩ := h.ends hgood hr hwaits (Nat.ne_of_gt hn) hnext
      rw [h.endOf?_of_clear hclear (Nat.lt_succ_of_lt hn), hend]
      rfl
    | some next =>
      have hwaits' := h.waits hgood hr hwaits (Nat.ne_of_gt hn) hnext
      rw [ih (h.good n hgood hr) hrest hwaits' (Nat.lt_succ_of_lt hn), Option.map_map]
      congr 1
      funext i
      rw [Function.comp_apply]
      omega

/-- **A pass ends every line where the search from it on stops.** -/
theorem endOf?_readLines (h : p.Laws Good Fits Clear Waits) (hgood : Good s)
    (hrs : ∀ r ∈ rs, Fits r)
    (hfresh : ∀ line, n ≤ line → Clear line s ∧ p.endOf? s line = none) (i : Nat) :
    p.endOf? (p.readLines n s rs) (n + i) = (p.searchFrom? (rs.drop i)).map (n + i + ·) := by
  induction rs generalizing s n i with
  | nil =>
    rw [List.drop_nil]
    exact (hfresh _ (Nat.le_add_right n i)).2
  | cons r rs ih =>
    obtain ⟨hr, hrest⟩ := List.forall_mem_cons.mp hrs
    have hgood' := h.good n hgood hr
    rw [readLines]
    cases i with
    | zero =>
      obtain ⟨hclear, hend⟩ := hfresh n (Nat.le_refl n)
      simp only [Nat.add_zero, List.drop_zero, searchFrom?]
      cases hopening : p.opening? r with
      | none =>
        obtain ⟨hclear', hend'⟩ := h.idles hclear hend hopening
        rw [h.endOf?_of_clear hclear' (Nat.lt_succ_self n), hend']
        rfl
      | some b =>
        have hwaits := h.opens hclear hend hopening
        rw [h.endOf?_of_waits hgood' hrest hwaits (Nat.lt_succ_self n), Option.bind_some,
          Option.map_map]
        congr 1
        funext k
        rw [Function.comp_apply]
        omega
    | succ i =>
      have hlater : ∀ line, n + 1 ≤ line →
          Clear line (p.read n r s) ∧ p.endOf? (p.read n r s) line = none := fun line hline => by
        obtain ⟨hclear, hend⟩ := hfresh line (by omega)
        obtain ⟨hclear', hend'⟩ := h.clear r hclear (show n ≠ line by omega)
        exact ⟨hclear', hend'.trans hend⟩
      rw [List.drop_succ_cons, show n + (i + 1) = n + 1 + i by omega]
      exact ih hgood' hrest hlater i

theorem endOf?_readLines_zero (h : p.Laws Good Fits Clear Waits) (hgood : Good s)
    (hrs : ∀ r ∈ rs, Fits r) (hfresh : ∀ line, Clear line s ∧ p.endOf? s line = none)
    (line : Nat) :
    p.endOf? (p.readLines 0 s rs) line = (p.searchFrom? (rs.drop line)).map (line + ·) := by
  have hpass := h.endOf?_readLines hgood hrs (fun line (_ : 0 ≤ line) => hfresh line) line
  rwa [Nat.zero_add] at hpass

end Laws

end Pass

end TwigTemplate.Fold
