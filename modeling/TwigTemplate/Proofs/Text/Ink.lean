import TwigTemplate.Proofs.Text.Trimming
import TwigTemplate.Text.Lines

/-!
# The ink of a text

A layout moves lines up and down and to and fro.  What it leaves alone is the
**ink**: the lines that hold more than blanks, trimmed.  Like trimming, cutting
into lines and the ink are stated over any alphabet.

* `inkBy`: the ink of a list.
* `inkBy_intercalate`: the ink of lines laid end to end, read off the lines.
* `filter_flatten_inkBy`: the ink holds all that is not blank, in order.
* `infix_of_mem_inkBy`, `exists_mem_inkBy_infix`: a stretch without blanks stands
  in the text when it stands in a line of the ink.
-/

namespace TwigTemplate.Text

variable {α : Type}

/-! ### Cutting into lines -/

theorem splitAt_eq_splitOn (sep : Char) (cs : List Char) : splitAt sep cs = cs.splitOn sep := by
  induction cs with
  | nil => rfl
  | cons c r ih =>
    rw [splitAt, List.splitOn_cons_eq_if_modifyHead, ih]
    by_cases hc : c = sep
    · simp [hc]
    · cases h : r.splitOn sep with
      | nil => exact absurd h (List.splitOn_ne_nil sep r)
      | cons part parts => simp [hc]

theorem newlineCount_append (cs ds : List Char) :
    newlineCount (cs ++ ds) = newlineCount cs + newlineCount ds := by
  rw [newlineCount, newlineCount, newlineCount, List.count_append]

theorem newlineCount_eq_zero {cs : List Char} : newlineCount cs = 0 ↔ '\n' ∉ cs := by
  rw [newlineCount, List.count_eq_zero]

theorem length_splitOn_eq_count [BEq α] [LawfulBEq α] (sep : α) (xs : List α) :
    (xs.splitOn sep).length = xs.count sep + 1 := by
  induction xs with
  | nil => rfl
  | cons x xs ih =>
    rw [List.splitOn_cons_eq_if_modifyHead]
    by_cases hx : x = sep
    · rw [if_pos (by simpa using hx), List.length_cons, ih, hx, List.count_cons_self]
    · rw [if_neg (by simpa using hx), List.length_modifyHead, ih, List.count_cons_of_ne hx]

theorem length_splitOn (cs : List Char) : (cs.splitOn '\n').length = newlineCount cs + 1 :=
  length_splitOn_eq_count '\n' cs

theorem not_mem_of_mem_splitOn [BEq α] [LawfulBEq α] {sep : α} {xs l : List α}
    (h : l ∈ xs.splitOn sep) : sep ∉ l := by
  induction xs generalizing l with
  | nil =>
    rw [List.splitOn_nil, List.mem_singleton] at h
    simp [h]
  | cons x xs ih =>
    rw [List.splitOn_cons_eq_if_modifyHead] at h
    split at h
    · rcases List.mem_cons.mp h with rfl | h
      · simp
      · exact ih h
    · next hx =>
      cases hsplit : xs.splitOn sep with
      | nil => exact absurd hsplit (List.splitOn_ne_nil sep xs)
      | cons part parts =>
        rw [hsplit, List.modifyHead_cons] at h
        rcases List.mem_cons.mp h with rfl | h
        · rw [List.mem_cons, not_or]
          refine ⟨fun he => hx (by simp [he]), ih ?_⟩
          rw [hsplit]
          exact List.mem_cons_self
        · apply ih
          rw [hsplit]
          exact List.mem_cons_of_mem _ h

theorem splitOn_append_of_not_mem [BEq α] [LawfulBEq α] {sep : α} {u : List α} (hu : sep ∉ u)
    (xs : List α) : (u ++ xs).splitOn sep = (xs.splitOn sep).modifyHead (u ++ ·) := by
  induction u with
  | nil =>
    rw [List.nil_append]
    cases xs.splitOn sep <;> rfl
  | cons x u ih =>
    rw [List.mem_cons, not_or] at hu
    rw [List.cons_append, List.splitOn_cons_eq_if_modifyHead, ih hu.2,
      if_neg (by simpa using Ne.symm hu.1)]
    cases xs.splitOn sep <;> rfl

theorem infix_intercalate_of_mem {sep l : List α} {ls : List (List α)} (h : l ∈ ls) :
    l <:+: sep.intercalate ls := by
  induction ls with
  | nil => simp at h
  | cons m ls ih =>
    by_cases hls : ls = []
    · subst hls
      obtain rfl := List.mem_singleton.mp h
      simp only [List.intercalate_singleton, List.infix_refl]
    · rw [List.intercalate_cons_of_ne_nil hls]
      rcases List.mem_cons.mp h with rfl | h
      · exact ⟨[], sep ++ sep.intercalate ls, by simp⟩
      · exact (ih h).trans (List.suffix_append _ _).isInfix

theorem mem_of_mem_intercalate {nl x : α} {ls : List (List α)} (h : x ∈ [nl].intercalate ls) :
    x = nl ∨ ∃ l ∈ ls, x ∈ l := by
  induction ls with
  | nil => simp at h
  | cons l ls ih =>
    by_cases hls : ls = []
    · rw [hls, List.intercalate_singleton] at h
      exact Or.inr ⟨l, List.mem_cons_self, h⟩
    · rw [List.intercalate_cons_of_ne_nil hls, List.append_assoc] at h
      rcases List.mem_append.mp h with h | h
      · exact Or.inr ⟨l, List.mem_cons_self, h⟩
      · rcases List.mem_cons.mp h with h | h
        · exact Or.inl h
        · rcases ih h with h | ⟨m, hm, hx⟩
          · exact Or.inl h
          · exact Or.inr ⟨m, List.mem_cons_of_mem _ hm, hx⟩

theorem mem_of_mem_splitOn [BEq α] [LawfulBEq α] {sep x : α} {xs l : List α}
    (h : l ∈ xs.splitOn sep) (hx : x ∈ l) : x ∈ xs := by
  rw [← @List.intercalate_splitOn _ xs _ _ sep]
  exact (infix_intercalate_of_mem h).subset hx

theorem exists_mem_splitOn_infix [BEq α] [LawfulBEq α] {sep : α} {w xs : List α} (hw : sep ∉ w)
    (h : w <:+: xs) : ∃ l ∈ xs.splitOn sep, w <:+: l := by
  induction xs with
  | nil => exact ⟨[], by simp, h⟩
  | cons x xs ih =>
    rcases List.infix_cons_iff.mp h with ⟨v, hv⟩ | hin
    · rw [← hv, splitOn_append_of_not_mem hw]
      cases hsplit : v.splitOn sep with
      | nil => exact absurd hsplit (List.splitOn_ne_nil sep v)
      | cons part parts => exact ⟨w ++ part, List.mem_cons_self, ⟨[], part, by simp⟩⟩
    · obtain ⟨l, hl, hwl⟩ := ih hin
      rw [List.splitOn_cons_eq_if_modifyHead]
      split
      · exact ⟨l, List.mem_cons_of_mem _ hl, hwl⟩
      · cases hsplit : xs.splitOn sep with
        | nil => exact absurd hsplit (List.splitOn_ne_nil sep xs)
        | cons part parts =>
          rw [hsplit] at hl
          rcases List.mem_cons.mp hl with rfl | hl
          · exact ⟨x :: l, List.mem_cons_self, hwl.trans (List.suffix_cons x l).isInfix⟩
          · exact ⟨l, List.mem_cons_of_mem _ hl, hwl⟩

/-! ### The ink -/

/-- The lines of a list that hold more than blanks, trimmed. -/
def inkBy [BEq α] (p : α → Bool) (nl : α) (xs : List α) : List (List α) :=
  ((xs.splitOn nl).map (trimBy p)).filter (!·.isEmpty)

/-- The lines that hold more than blanks, of a text that is cut into lines already. -/
def inkOf (p : α → Bool) (lines : List (List α)) : List (List α) :=
  (lines.map (trimBy p)).filter (!·.isEmpty)

theorem inkOf_nil (p : α → Bool) : inkOf p [] = [] := rfl

theorem inkOf_congr {p : α → Bool} {ls ms : List (List α)}
    (h : ls.map (trimBy p) = ms.map (trimBy p)) : inkOf p ls = inkOf p ms := by
  rw [inkOf, h]
  rfl

theorem inkOf_append (p : α → Bool) (ls ms : List (List α)) :
    inkOf p (ls ++ ms) = inkOf p ls ++ inkOf p ms := by
  simp [inkOf]

theorem inkOf_cons_of_blank {p : α → Bool} {l : List α} (hl : ∀ x ∈ l, p x = true)
    (ls : List (List α)) : inkOf p (l :: ls) = inkOf p ls := by
  rw [inkOf, List.map_cons, trimBy_eq_nil_iff.mpr hl]
  rfl

theorem inkOf_cons_of_ink {p : α → Bool} {l : List α} (hl : trimBy p l ≠ [])
    (ls : List (List α)) : inkOf p (l :: ls) = trimBy p l :: inkOf p ls := by
  rw [inkOf, List.map_cons, List.filter_cons_of_pos (by simpa using hl)]
  rfl

/-- **The ink of lines laid end to end is the ink of the lines.** -/
theorem inkBy_intercalate [BEq α] [LawfulBEq α] (p : α → Bool) {nl : α} {ls : List (List α)}
    (hls : ∀ l ∈ ls, nl ∉ l) : inkBy p nl ([nl].intercalate ls) = inkOf p ls := by
  cases ls with
  | nil =>
    rw [List.intercalate_nil, inkBy, List.splitOn_nil]
    rfl
  | cons l ls => rw [inkBy, List.splitOn_intercalate nl hls (by simp)]; rfl

theorem filter_flatten_inkOf (p : α → Bool) (ls : List (List α)) :
    (inkOf p ls).flatten.filter (!p ·) = ls.flatten.filter (!p ·) := by
  induction ls with
  | nil => rfl
  | cons l ls ih =>
    rw [List.flatten_cons, List.filter_append, ← ih]
    by_cases hl : ∀ x ∈ l, p x = true
    · rw [inkOf_cons_of_blank hl, filter_eq_nil_of_all hl, List.nil_append]
    · rw [inkOf_cons_of_ink fun he => hl (trimBy_eq_nil_iff.mp he), List.flatten_cons,
        List.filter_append, filter_trimBy]

theorem filter_intercalate {q : α → Bool} {nl : α} (hnl : q nl = false) (ls : List (List α)) :
    ([nl].intercalate ls).filter q = ls.flatten.filter q := by
  induction ls with
  | nil => rfl
  | cons l ls ih =>
    by_cases hls : ls = []
    · rw [hls, List.intercalate_singleton, List.flatten_cons, List.flatten_nil, List.append_nil]
    · rw [List.intercalate_cons_of_ne_nil hls, List.filter_append, List.filter_append, ih,
        List.flatten_cons, List.filter_append]
      simp [hnl]

/-- **The ink of a text is all that is not blank.** -/
theorem filter_flatten_inkBy [BEq α] [LawfulBEq α] {p : α → Bool} {nl : α} (hnl : p nl = true)
    (xs : List α) : (inkBy p nl xs).flatten.filter (!p ·) = xs.filter (!p ·) := by
  conv_rhs => rw [← @List.intercalate_splitOn _ xs _ _ nl]
  rw [filter_intercalate (by simp [hnl])]
  exact filter_flatten_inkOf p _

theorem infix_of_mem_inkBy [BEq α] [LawfulBEq α] {p : α → Bool} {nl : α} {xs l : List α}
    (h : l ∈ inkBy p nl xs) : l <:+: xs := by
  obtain ⟨part, hpart, rfl⟩ := List.mem_map.mp (List.mem_filter.mp h).1
  obtain ⟨u, v, hcut, -⟩ := exists_eq_append_trimBy p part
  have hin : part <:+: xs := by
    have h : part <:+: [nl].intercalate (xs.splitOn nl) := infix_intercalate_of_mem hpart
    rwa [List.intercalate_splitOn] at h
  refine List.IsInfix.trans ⟨u, v, ?_⟩ hin
  rw [List.append_assoc]
  exact hcut.symm

theorem exists_mem_inkBy_infix [BEq α] [LawfulBEq α] {p : α → Bool} {nl : α} {w xs : List α}
    (hnl : p nl = true) (hne : w ≠ []) (hw : ∀ x ∈ w, p x = false) (h : w <:+: xs) :
    ∃ l ∈ inkBy p nl xs, w <:+: l := by
  have hfree : nl ∉ w := fun hmem => by
    have := hw nl hmem
    rw [hnl] at this
    exact absurd this (by simp)
  obtain ⟨part, hpart, hin⟩ := exists_mem_splitOn_infix hfree h
  have htrim := infix_trimBy hne hw hin
  refine ⟨trimBy p part, List.mem_filter.mpr ⟨List.mem_map_of_mem hpart, ?_⟩, htrim⟩
  have : trimBy p part ≠ [] := fun he => by
    rw [he] at htrim
    exact hne (List.infix_nil.mp htrim)
  simpa using this

theorem splitOn_map {β : Type} [BEq α] [LawfulBEq α] [BEq β] [LawfulBEq β] {g : α → β} {nl : α}
    {nl' : β} (h : ∀ a, g a = nl' ↔ a = nl) (xs : List α) :
    (xs.map g).splitOn nl' = (xs.splitOn nl).map (List.map g) := by
  induction xs with
  | nil => rfl
  | cons x xs ih =>
    rw [List.map_cons, List.splitOn_cons_eq_if_modifyHead, List.splitOn_cons_eq_if_modifyHead, ih]
    by_cases hx : x = nl
    · rw [if_pos (by simpa using (h x).mpr hx), if_pos (by simpa using hx)]
      rfl
    · rw [if_neg (by simpa using fun he => hx ((h x).mp he)), if_neg (by simpa using hx)]
      cases xs.splitOn nl <;> rfl

theorem inkBy_map {β : Type} [BEq α] [LawfulBEq α] [BEq β] [LawfulBEq β] {g : α → β}
    {p : α → Bool} {q : β → Bool} {nl : α} {nl' : β} (hnl : ∀ a, g a = nl' ↔ a = nl)
    (hp : ∀ a, q (g a) = p a) (xs : List α) :
    inkBy q nl' (xs.map g) = (inkBy p nl xs).map (List.map g) := by
  rw [inkBy, inkBy, splitOn_map hnl, List.map_map, List.filter_map, List.filter_map, List.map_map]
  have htrim : ∀ l, (trimBy q ∘ List.map g) l = (List.map g ∘ trimBy p) l := fun l =>
    trimBy_map hp l
  rw [List.map_congr_left fun l _ => htrim l]
  congr 1
  apply List.filter_congr
  intro l _
  simp only [Function.comp_apply, trimBy_map hp, List.isEmpty_map]

end TwigTemplate.Text
