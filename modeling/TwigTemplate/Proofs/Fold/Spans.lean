import TwigTemplate.Proofs.Fold.Blocks
import TwigTemplate.Proofs.Fold.Local

/-!
# The spans of a document

The spans that are found for all lines at once come in the order of their lines, and each reaches
over later lines of the document.  The folds of blocks are counted by tag.  A count that starts on
a line inside a fold of the same tag stays below the count of this fold, so it comes to zero first:
such folds lie one inside the other, or one behind the other.

* `Span.Fits`: a span that fits into the lines of a document.
* `exists_blockEnd?_le`: **a lower count ends first**.
* `BlockFold`, `BlockFold.nested`: **two folds of one tag never cross**.
* `ranges_laminar`: all spans fit, in order, and the folds of a tag never cross.
-/

namespace TwigTemplate.Fold

/-! ### Spans that fit -/

/-- A span that begins where a line begins and ends where a later line of the document ends. -/
structure Span.Fits (lines : List (List Char)) (s : Span) : Prop where
  fromColumn : s.fromColumn = 0
  forward : s.fromLine < s.toLine
  inside : s.toLine < lines.length
  toColumn : lines[s.toLine]?.map List.length = some s.toColumn

theorem fits_of_mem_ranges {cs : List Char} {s : Span} (h : s ∈ ranges cs) :
    s.Fits (Text.lines cs) := by
  obtain ⟨line, -, hspan⟩ := mem_ranges_iff.mp h
  obtain ⟨hend, closing, hclosing, heq⟩ := spanAt?_eq_some_iff.mp hspan
  have hfrom : s.fromLine = line := fromLine_of_spanAt? hspan
  refine ⟨congrArg Span.fromColumn heq, hfrom ▸ lt_of_endAt? hend,
    (List.getElem?_eq_some_iff.mp hclosing).1, ?_⟩
  rw [hclosing, Option.map_some, congrArg Span.toColumn heq]
  rfl

theorem pairwise_ranges (cs : List Char) :
    (ranges cs).Pairwise fun s t => s.fromLine < t.fromLine := by
  refine List.Pairwise.filterMap _ (fun i j hlt s hs t ht => ?_) List.pairwise_lt_range
  obtain ⟨last, -, hs⟩ := Option.bind_eq_some_iff.mp hs
  obtain ⟨closing, -, hs⟩ := Option.bind_eq_some_iff.mp hs
  obtain ⟨last', -, ht⟩ := Option.bind_eq_some_iff.mp ht
  obtain ⟨closing', -, ht⟩ := Option.bind_eq_some_iff.mp ht
  obtain rfl := Option.some.inj hs
  obtain rfl := Option.some.inj ht
  exact hlt

/-! ### Counting from different depths -/

section Count

variable {tag : Block} {depth next : Int} {events : List Nesting.Event}

theorem neg_one_le_eventDelta (tag : Block) (e : Nesting.Event) : -1 ≤ eventDelta tag e := by
  rcases blockChange?_cases e with ⟨-, hzero⟩ | ⟨b, delta, -, hgentle, hdelta⟩
  · rw [hzero]
    decide
  · rw [hdelta]
    split
    · exact hgentle.1
    · decide

theorem eq_of_depthAfter? (h : depthAfter? tag depth events = some next) :
    next = depth + blockBalance tag events := by
  induction events generalizing depth with
  | nil => exact (Option.some.inj h).symm.trans (Int.add_zero _).symm
  | cons e es ih =>
    rw [depthAfter?] at h
    split at h
    · exact absurd h (by simp)
    · rw [ih h, blockBalance_cons, Int.add_assoc]

theorem depthAfter?_add (hdepth : 0 < depth) {more : Int} (hmore : 0 ≤ more)
    (h : depthAfter? tag depth events = some next) :
    depthAfter? tag (depth + more) events = some (next + more) := by
  induction events generalizing depth with
  | nil => exact congrArg (fun d => some (d + more)) (Option.some.inj h)
  | cons e es ih =>
    have hdelta := neg_one_le_eventDelta tag e
    rw [depthAfter?] at h ⊢
    split at h
    · exact absurd h (by simp)
    · rw [if_neg (by omega), Int.add_right_comm]
      exact ih (by omega) h

/-- **A lower count ends first**, on the same line at the latest. -/
theorem exists_blockEnd?_le (hdepth : 0 < depth) {more : Int} (hmore : 0 ≤ more)
    {ls : List (List Char)} {k : Nat} (h : blockEnd? tag (depth + more) ls = some k) :
    ∃ j ≤ k, blockEnd? tag depth ls = some j := by
  induction ls generalizing depth k with
  | nil => exact absurd h (by simp [blockEnd?])
  | cons l ls ih =>
    rw [blockEnd?]
    cases hafter : depthAfter? tag depth (lineEvents l) with
    | none => exact ⟨0, Nat.zero_le k, rfl⟩
    | some next =>
      have hnext := (depthPast?_blockChanges hdepth (lineEvents l)).2 next hafter
      rw [blockEnd?, depthAfter?_add hdepth hmore hafter] at h
      obtain ⟨k, hk, rfl⟩ := Option.map_eq_some_iff.mp h
      obtain ⟨j, hj, hend⟩ := ih hnext hk
      exact ⟨j + 1, Nat.succ_le_succ hj, Option.map_eq_some_iff.mpr ⟨j, hend, rfl⟩⟩

theorem exists_blockEnd?_behind (hdepth : 0 < depth) {front ls : List (List Char)} {l : List Char}
    {k : Nat} (h : blockEnd? tag depth (front ++ l :: ls) = some k) (hk : front.length < k) :
    ∃ above, 0 < above ∧
      blockEnd? tag (above + blockBalance tag (lineEvents l)) ls =
        some (k - (front.length + 1)) := by
  induction front generalizing depth k with
  | nil =>
    rw [List.nil_append, blockEnd?] at h
    split at h
    · obtain rfl := Option.some.inj h
      exact absurd hk (Nat.lt_irrefl 0)
    · next next hafter =>
      obtain ⟨k, hend, rfl⟩ := Option.map_eq_some_iff.mp h
      exact ⟨depth, hdepth, eq_of_depthAfter? hafter ▸ hend⟩
  | cons m front ih =>
    rw [List.cons_append, blockEnd?] at h
    split at h
    · obtain rfl := Option.some.inj h
      exact absurd hk (Nat.not_lt_zero _)
    · next next hafter =>
      obtain ⟨k, hend, rfl⟩ := Option.map_eq_some_iff.mp h
      rw [List.length_cons] at hk
      obtain ⟨above, habove, hlater⟩ :=
        ih ((depthPast?_blockChanges hdepth (lineEvents m)).2 next hafter) hend (by omega)
      refine ⟨above, habove, ?_⟩
      rw [hlater, List.length_cons]
      congr 1
      omega

end Count

/-! ### Folds of blocks -/

/-- The line `first` leaves a block open that starts with the tag, and the query that reads from
there on finds the end of it on the line `last`. -/
def BlockFold (cs : List Char) (tag : Block) (first last : Nat) : Prop :=
  ∃ rest offset, fromLine? first cs = some rest ∧
    ((Text.lines rest).head?.bind fun l => blockOpener? (lineEvents l)) = some tag ∧
    matchBlock? (Text.lines rest) = some offset ∧ last = first + offset

section Blocks

variable {cs : List Char} {tag : Block} {first last first' last' : Nat}

/-- A fold of a block is where counting on from the balance of its line ends. -/
theorem BlockFold.count (h : BlockFold cs tag first last) :
    ∃ l k, (Text.lines cs)[first]? = some l ∧ 0 < blockBalance tag (lineEvents l) ∧
      blockEnd? tag (blockBalance tag (lineEvents l)) ((Text.lines cs).drop (first + 1)) = some k ∧
      last = first + 1 + k := by
  obtain ⟨rest, offset, hrest, htag, hmatch, rfl⟩ := h
  obtain ⟨-, -, -, hlines⟩ := fromLine?_spec hrest
  obtain ⟨l, hl, hopener⟩ := Option.bind_eq_some_iff.mp htag
  obtain ⟨ls, hls⟩ := List.head?_eq_some_iff.mp hl
  rw [hls, matchBlock?_cons, hopener, Option.bind_some] at hmatch
  obtain ⟨k, hend, rfl⟩ := Option.map_eq_some_iff.mp hmatch
  rw [hls] at hlines
  refine ⟨l, k, ?_, blockBalance_pos hopener, ?_, by omega⟩
  · rw [← List.head?_drop, ← hlines, List.head?_cons]
  · rw [← List.tail_drop, ← hlines, List.tail_cons]
    exact hend

/-- **Two folds of one tag never cross**: the second one begins behind the first, or ends inside
it. -/
theorem BlockFold.nested (h : BlockFold cs tag first last) (h' : BlockFold cs tag first' last')
    (hlt : first < first') : last ≤ first' ∨ last' ≤ last := by
  obtain ⟨l, k, -, hpos, hend, rfl⟩ := h.count
  obtain ⟨l', k', hl', hpos', hend', rfl⟩ := h'.count
  by_cases hinside : first' < first + 1 + k
  · -- The first count comes to the second line above zero, so it stays above the second count.
    obtain ⟨hlen, rfl⟩ := List.getElem?_eq_some_iff.mp hl'
    have hcut : (Text.lines cs).drop (first + 1) =
        ((Text.lines cs).drop (first + 1)).take (first' - (first + 1)) ++
          (Text.lines cs)[first'] :: (Text.lines cs).drop (first' + 1) := by
      conv_lhs => rw [← List.take_append_drop (first' - (first + 1)) (List.drop _ _)]
      rw [List.drop_drop, show first + 1 + (first' - (first + 1)) = first' by omega,
        List.drop_eq_getElem_cons hlen]
    have hfront : (((Text.lines cs).drop (first + 1)).take (first' - (first + 1))).length =
        first' - (first + 1) := by
      rw [List.length_take, List.length_drop]
      omega
    rw [hcut] at hend
    obtain ⟨above, habove, hlater⟩ := exists_blockEnd?_behind hpos hend (by omega)
    rw [Int.add_comm] at hlater
    obtain ⟨j, hj, hfirst⟩ := exists_blockEnd?_le hpos' (Int.le_of_lt habove) hlater
    obtain rfl := Option.some.inj (hfirst.symm.trans hend')
    rw [hfront] at hj
    exact Or.inr (by omega)
  · exact Or.inl (by omega)

end Blocks

/-- **The spans of a document** stand in the order of their first lines and fit into its lines, and
the folds of blocks with the same tag never cross. -/
theorem ranges_laminar (cs : List Char) :
    ((ranges cs).Pairwise fun s t => s.fromLine < t.fromLine) ∧
    (∀ s ∈ ranges cs, s.Fits (Text.lines cs)) ∧
    ∀ tag first last first' last', BlockFold cs tag first last → BlockFold cs tag first' last' →
      first < first' → last ≤ first' ∨ last' ≤ last :=
  ⟨pairwise_ranges cs, fun _ => fits_of_mem_ranges, fun _ _ _ _ _ h h' => h.nested h'⟩

/-- A line that closes one block and opens two of its tag: the fold of the first block ends on this
line, and the fold of the line follows the inner one of the two. -/
theorem ranges_laminar_reopened :
    BlockFold "{% if a %}\n{% endif %}{% if b %}{% if c %}\n{% endif %}\n{% endif %}".toList
        .conditional 0 1 ∧
      BlockFold "{% if a %}\n{% endif %}{% if b %}{% if c %}\n{% endif %}\n{% endif %}".toList
        .conditional 1 2 ∧ (1 ≤ 1 ∨ 2 ≤ 1) := by
  have hfirst : BlockFold
      "{% if a %}\n{% endif %}{% if b %}{% if c %}\n{% endif %}\n{% endif %}".toList
        .conditional 0 1 :=
    ⟨_, 1, fromLine?_zero _, by decide +kernel, by decide +kernel, rfl⟩
  have hsecond : BlockFold
      "{% if a %}\n{% endif %}{% if b %}{% if c %}\n{% endif %}\n{% endif %}".toList
        .conditional 1 2 :=
    ⟨"{% endif %}{% if b %}{% if c %}\n{% endif %}\n{% endif %}".toList, 1, by decide +kernel,
      by decide +kernel, by decide +kernel, rfl⟩
  exact ⟨hfirst, hsecond, (ranges_laminar _).2.2 _ _ _ _ _ hfirst hsecond Nat.one_pos⟩

end TwigTemplate.Fold
