import TwigTemplate.Element.Scan
import TwigTemplate.Proofs.Ordered
import TwigTemplate.Proofs.Text.Lines

/-!
# The tags of a text in order

The scan for tags goes from one place to the next and passes over what belongs together: a
comment, template code, a start tag, the content of `script` and `style`.

* `line_of_mem_tagsFrom`, `pairwise_tagsFrom`: the tags stand on lines of the text, in order.
* `tagsFrom_add`: the number of the first line is only added to the numbers of the others.
* `stops`: the places that the scan comes to.
* `filter_tagsFrom`: **when the scan comes to the start of a line, the tags from this line on
  are the tags of what follows**.
-/

namespace TwigTemplate.Element

/-- The tag that starts at a place, if any. -/
def tagAt (line : Nat) (c : Char) (r : List Char) : List Element :=
  ((step c r).tag.map fun t => (⟨t.1, t.2, line⟩ : Element)).toList

/-- The line of the next place. -/
def nextLine (line : Nat) (c : Char) (r : List Char) : Nat :=
  line + Text.newlineCount (c :: r.take (step c r).length)

/-- What follows at the next place. -/
def following (c : Char) (r : List Char) : List Char :=
  r.drop (step c r).length

theorem length_following_le (c : Char) (r : List Char) : (following c r).length ≤ r.length := by
  rw [following, List.length_drop]
  omega

theorem following_suffix (c : Char) (r : List Char) : following c r <:+ c :: r :=
  (List.drop_suffix _ r).trans (List.suffix_cons c r)

theorem tagsFrom_nil (line : Nat) : tagsFrom line [] = [] := by
  rw [tagsFrom]

/-- **The scan goes from one place to the next.** -/
theorem tagsFrom_cons (line : Nat) (c : Char) (r : List Char) :
    tagsFrom line (c :: r) =
      tagAt line c r ++ tagsFrom (nextLine line c r) (following c r) := by
  rw [tagsFrom, tagAt, nextLine, following]
  cases (step c r).tag with
  | none => rfl
  | some t => rfl

/-- What holds of the places that follow holds of the place itself. -/
@[elab_as_elim]
theorem scan_induction {motive : Nat → List Char → Prop} (line : Nat) (cs : List Char)
    (nil : ∀ line, motive line [])
    (cons : ∀ line c r, motive (nextLine line c r) (following c r) → motive line (c :: r)) :
    motive line cs := by
  generalize hn : cs.length = n
  induction n using Nat.strongRecOn generalizing line cs with
  | ind n ih =>
    cases cs with
    | nil => exact nil line
    | cons c r =>
      refine cons line c r (ih _ ?_ _ _ rfl)
      have := length_following_le c r
      rw [← hn, List.length_cons]
      omega

theorem line_of_mem_tagAt {line : Nat} {c : Char} {r : List Char} {e : Element}
    (h : e ∈ tagAt line c r) : e.line = line := by
  obtain ⟨t, -, rfl⟩ := Option.map_eq_some_iff.mp (Option.mem_toList.mp h)
  rfl

theorem line_of_mem_tagsFrom {line : Nat} {cs : List Char} {e : Element}
    (h : e ∈ tagsFrom line cs) : line ≤ e.line ∧ e.line < line + (Text.lines cs).length := by
  induction line, cs using scan_induction with
  | nil line =>
    rw [tagsFrom_nil] at h
    exact absurd h (by simp)
  | cons line c r ih =>
    rw [tagsFrom_cons] at h
    rcases List.mem_append.mp h with h | h
    · have hpos := Text.lines_length_pos (List.cons_ne_nil c r)
      rw [line_of_mem_tagAt h]
      omega
    · have hlines := Text.newlineCount_add_length_lines (c :: r.take (step c r).length)
        (following c r)
      rw [following, List.cons_append, List.take_append_drop] at hlines
      have hlater := ih h
      rw [nextLine, following] at hlater
      omega

theorem line_le_of_mem_tagsFrom {line : Nat} {cs : List Char} {e : Element}
    (h : e ∈ tagsFrom line cs) : e.line ≤ line + Text.newlineCount cs := by
  induction line, cs using scan_induction with
  | nil line =>
    rw [tagsFrom_nil] at h
    exact absurd h (by simp)
  | cons line c r ih =>
    rw [tagsFrom_cons] at h
    rcases List.mem_append.mp h with h | h
    · rw [line_of_mem_tagAt h]
      omega
    · have hcount := Text.newlineCount_append (c :: r.take (step c r).length) (following c r)
      rw [following, List.cons_append, List.take_append_drop] at hcount
      have hlater := ih h
      rw [nextLine, following] at hlater
      omega

theorem pairwise_tagsFrom (line : Nat) (cs : List Char) :
    (tagsFrom line cs).Pairwise fun a b => a.line ≤ b.line := by
  induction line, cs using scan_induction with
  | nil line =>
    rw [tagsFrom_nil]
    exact .nil
  | cons line c r ih =>
    rw [tagsFrom_cons, List.pairwise_append]
    refine ⟨?_, ih, fun a ha b hb => ?_⟩
    · rw [tagAt]
      cases (step c r).tag with
      | none => exact .nil
      | some t => exact List.pairwise_singleton _ _
    · rw [line_of_mem_tagAt ha]
      exact Nat.le_trans (Nat.le_add_right _ _) (line_of_mem_tagsFrom hb).1

/-- A tag some lines further down. -/
def lower (n : Nat) (e : Element) : Element :=
  { e with line := n + e.line }

theorem tagsFrom_add (n line : Nat) (cs : List Char) :
    tagsFrom (n + line) cs = (tagsFrom line cs).map (lower n) := by
  induction line, cs using scan_induction with
  | nil line =>
    rw [tagsFrom_nil, tagsFrom_nil]
    rfl
  | cons line c r ih =>
    have hnext : nextLine (n + line) c r = n + nextLine line c r := Nat.add_assoc _ _ _
    have htag : tagAt (n + line) c r = (tagAt line c r).map (lower n) := by
      rw [tagAt, tagAt]
      cases (step c r).tag <;> rfl
    rw [tagsFrom_cons, tagsFrom_cons, List.map_append, hnext, ih, htag]

/-! ### The places of a scan -/

/-- The places that the scan for tags comes to, each with its line. -/
def stops (line : Nat) : List Char → List (Nat × List Char)
  | [] => [(line, [])]
  | c :: r => (line, c :: r) :: stops (nextLine line c r) (following c r)
termination_by cs => cs.length
decreasing_by exact Nat.lt_succ_of_le (length_following_le c r)

/-- A text that ends with a newline, or is empty. -/
def EndsLine (cs : List Char) : Prop :=
  cs = [] ∨ cs.getLast? = some '\n'

theorem exists_before_stop {line stop : Nat} {cs rest : List Char}
    (h : (stop, rest) ∈ stops line cs) :
    ∃ front, cs = front ++ rest ∧ stop = line + Text.newlineCount front := by
  induction line, cs using scan_induction with
  | nil line =>
    rw [stops, List.mem_singleton] at h
    obtain ⟨rfl, rfl⟩ := Prod.mk.inj h
    exact ⟨[], rfl, rfl⟩
  | cons line c r ih =>
    rw [stops] at h
    rcases List.mem_cons.mp h with h | h
    · obtain ⟨rfl, rfl⟩ := Prod.mk.inj h
      exact ⟨[], rfl, rfl⟩
    · obtain ⟨front, hfront, hstop⟩ := ih h
      refine ⟨(c :: r.take (step c r).length) ++ front, ?_, ?_⟩
      · rw [List.append_assoc, ← hfront, following, List.cons_append, List.take_append_drop]
      · rw [hstop, nextLine, Text.newlineCount_append, Nat.add_assoc]

/-- **When the scan comes to the start of a line, the tags from this line on are the tags of
what follows.** -/
theorem filter_tagsFrom {line stop : Nat} {front rest : List Char} (hfront : EndsLine front)
    (h : (stop, rest) ∈ stops line (front ++ rest)) :
    (tagsFrom line (front ++ rest)).filter (stop ≤ ·.line) = tagsFrom stop rest := by
  generalize hcs : front ++ rest = cs at h ⊢
  induction line, cs using scan_induction generalizing front with
  | nil line =>
    rw [(List.append_eq_nil_iff.mp hcs).2, tagsFrom_nil, tagsFrom_nil]
    rfl
  | cons line c r ih =>
    rw [stops] at h
    rcases List.mem_cons.mp h with h | h
    · obtain ⟨rfl, rfl⟩ := Prod.mk.inj h
      rw [List.filter_eq_self]
      intro e he
      rw [decide_eq_true_eq]
      exact (line_of_mem_tagsFrom he).1
    · -- The place is reached behind a newline, so what the scan passes over holds one.
      obtain ⟨front', hfollowing, hstop⟩ := exists_before_stop h
      obtain rfl : front = (c :: r.take (step c r).length) ++ front' := by
        apply (List.append_left_inj rest).mp
        rw [hcs, List.append_assoc, ← hfollowing, following, List.cons_append,
          List.take_append_drop]
      have hlast : ((c :: r.take (step c r).length) ++ front').getLast? = some '\n' :=
        hfront.resolve_left (by simp)
      have hcount : 0 < Text.newlineCount ((c :: r.take (step c r).length) ++ front') :=
        List.count_pos_iff.mpr (List.mem_of_getLast? hlast)
      rw [Text.newlineCount_append] at hcount
      rw [nextLine] at hstop
      have hends : EndsLine front' := by
        by_cases hnil : front' = []
        · exact Or.inl hnil
        · rw [List.getLast?_append_of_ne_nil _ hnil] at hlast
          exact Or.inr hlast
      have hnone : (tagAt line c r).filter (stop ≤ ·.line) = [] := by
        rw [List.filter_eq_nil_iff]
        intro e he
        rw [decide_eq_true_eq, line_of_mem_tagAt he]
        omega
      rw [tagsFrom_cons, List.filter_append, hnone, List.nil_append]
      exact ih hends hfollowing.symm h

end TwigTemplate.Element
