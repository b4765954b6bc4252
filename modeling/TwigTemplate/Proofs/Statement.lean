import TwigTemplate.Proofs.Text.Marks
import TwigTemplate.Statement

/-!
# What a statement does is told by its marks

The keyword of a statement is a word, and of its arguments it only matters whether
there are any and whether an `=` is among them.  So blanks that stand for each
other make no difference.

* `role_eq_of_marks`: **statements with the same marks do the same to the nesting**.
-/

namespace TwigTemplate

namespace Text

theorem RespacedBy.takeWhile {α : Type} {p q : α → Bool} {nl : α} {xs ys : List α}
    (hq : ∀ x, p x = true → q x = false) (h : RespacedBy p nl Eq xs ys) :
    xs.takeWhile q = ys.takeWhile q ∧
      RespacedBy p nl Eq (xs.dropWhile q) (ys.dropWhile q) := by
  have hstop : ∀ {zs : List α}, (∀ z ∈ zs.head?, p z = true) →
      zs.takeWhile q = [] ∧ zs.dropWhile q = zs := by
    intro zs hzs
    cases zs with
    | nil => exact ⟨rfl, rfl⟩
    | cons z zs =>
      have hz : ¬ q z = true := by
        rw [hq z (hzs z rfl)]
        simp
      rw [List.takeWhile_cons_of_neg hz, List.dropWhile_cons_of_neg hz]
      exact ⟨rfl, rfl⟩
  induction h with
  | @blank xs ys hx hy =>
    have hxs := hstop fun z hz => hx z (List.mem_of_mem_head? hz)
    have hys := hstop fun z hz => hy z (List.mem_of_mem_head? hz)
    rw [hxs.1, hxs.2, hys.1, hys.2]
    exact ⟨rfl, .blank hx hy⟩
  | @same x y xs ys hx hy hxy hrest ih =>
    subst hxy
    by_cases hqx : q x = true
    · rw [List.takeWhile_cons_of_pos hqx, List.takeWhile_cons_of_pos hqx,
        List.dropWhile_cons_of_pos hqx, List.dropWhile_cons_of_pos hqx, ih.1]
      exact ⟨rfl, ih.2⟩
    · rw [List.takeWhile_cons_of_neg hqx, List.takeWhile_cons_of_neg hqx,
        List.dropWhile_cons_of_neg hqx, List.dropWhile_cons_of_neg hqx]
      exact ⟨rfl, .same hx hy rfl hrest⟩
  | @gap u v xs ys hgap hrest _ =>
    have hfront : ∀ {w : List α}, w ≠ [] → (∀ z ∈ w, p z = true) → ∀ zs : List α,
        ∀ z ∈ (w ++ zs).head?, p z = true := by
      intro w hne hw zs z hz
      obtain ⟨c, w, rfl⟩ := List.exists_cons_of_ne_nil hne
      obtain rfl : c = z := Option.some.inj hz
      exact hw c List.mem_cons_self
    have hu := hstop (hfront hgap.left_ne_nil hgap.left xs)
    have hv := hstop (hfront hgap.right_ne_nil hgap.right ys)
    rw [hu.1, hu.2, hv.1, hv.2]
    exact ⟨rfl, .gap hgap hrest⟩

theorem isWordChar_of_isBlank {c : Char} (hc : isBlank c = true) : isWordChar c = false := by
  have hrange : ∀ {a b : UInt32}, c.val ≥ a ∧ c.val ≤ b → a.toNat ≤ c.toNat ∧ c.toNat ≤ b.toNat :=
    fun h => ⟨UInt32.le_iff_toNat_le.mp h.1, UInt32.le_iff_toNat_le.mp h.2⟩
  rw [← Bool.not_eq_true, isWordChar]
  delta Char.isAlphanum Char.isAlpha Char.isUpper Char.isLower Char.isDigit
  simp only [Bool.or_eq_true, Bool.and_eq_true, decide_eq_true_eq]
  simp only [isBlank, Bool.or_eq_true, Bool.and_eq_true, decide_eq_true_eq, beq_iff_eq] at hc
  rintro (((h | h) | h) | h)
  · have hnat : 65 ≤ c.toNat ∧ c.toNat ≤ 90 := hrange h
    omega
  · have hnat : 97 ≤ c.toNat ∧ c.toNat ≤ 122 := hrange h
    omega
  · have hnat : 48 ≤ c.toNat ∧ c.toNat ≤ 57 := hrange h
    omega
  · rw [h] at hc
    exact absurd hc (by decide)

theorem trim_eq_nil_iff_solid (cs : List Char) : trim cs = [] ↔ solid cs = [] := by
  rw [trim_eq_trimBy, trimBy_eq_nil_iff]
  exact ⟨fun h => filter_eq_nil_of_all h, all_blank_of_solid_eq_nil⟩

theorem mem_trim_iff {c : Char} (hc : isBlank c = false) (cs : List Char) :
    c ∈ trim cs ↔ c ∈ solid cs := by
  rw [trim_eq_trimBy, solid, ← filter_trimBy, List.mem_filter, hc]
  simp

theorem respaced_trim {cs ds : List Char} (h : marks isBlank '\n' cs = marks isBlank '\n' ds) :
    Respaced (trim cs) (trim ds) := by
  have hhead : ∀ es : List Char, (trim es).dropWhile isBlank = trim es := by
    intro es
    cases htrim : trim es with
    | nil => rfl
    | cons c r =>
      have hmem : c ∈ (trimBy isBlank es).head? := by
        rw [← trim_eq_trimBy, htrim]
        rfl
      have hc : isBlank c = false := head?_trimBy c hmem
      rw [List.dropWhile_cons_of_neg (by simp [hc])]
  have hmarks : marks isBlank '\n' (trim cs) = marks isBlank '\n' (trim ds) := by
    rw [trim_eq_trimBy, trim_eq_trimBy, marks_trimBy, marks_trimBy, h]
  have hresp := respaced_of_marks hmarks fun _ _ _ => rfl
  rwa [hhead, hhead] at hresp

end Text

namespace Statement

open Text (isBlank solid trim)

theorem role_congr {s t : Statement} (hkeyword : s.keyword = t.keyword)
    (hargs : (s.args = [] ∨ '=' ∈ s.args) ↔ (t.args = [] ∨ '=' ∈ t.args)) : s.role = t.role := by
  rw [role, role, ← hkeyword]
  cases Text.after? endMark s.keyword with
  | some base => rfl
  | none =>
    dsimp only
    rw [openingRole, openingRole]
    cases Block.ofKeyword? s.keyword with
    | none => rfl
    | some b => simp only [hargs]

theorem args_iff {cs ds : List Char} (h : solid cs = solid ds) :
    (trim cs = [] ∨ '=' ∈ trim cs) ↔ (trim ds = [] ∨ '=' ∈ trim ds) := by
  have hink : isBlank '=' = false := by decide
  rw [Text.trim_eq_nil_iff_solid, Text.trim_eq_nil_iff_solid, Text.mem_trim_iff hink,
    Text.mem_trim_iff hink, h]

/-- **Statements with the same marks do the same to the nesting.** -/
theorem role_eq_of_marks {cs ds : List Char}
    (h : Text.marks isBlank '\n' cs = Text.marks isBlank '\n' ds) :
    (ofContent cs).role = (ofContent ds).role := by
  have hresp := Text.respaced_trim h
  obtain ⟨hword, hrest⟩ := hresp.takeWhile (q := Text.isWordChar)
    fun _ hc => Text.isWordChar_of_isBlank hc
  rw [ofContent, ofContent, Text.leadingWord, Text.leadingWord, ← hword]
  dsimp only
  by_cases hempty : (trim cs).takeWhile Text.isWordChar = []
  · -- Without a word in front the keyword reaches to the first blank.
    obtain ⟨hkeyword, hafter⟩ := hresp.takeWhile (q := (!isBlank ·)) fun c hc => by simp [hc]
    have hdrop : ∀ es : List Char, solid ((es.dropWhile (!isBlank ·)).drop 1) =
        solid (es.dropWhile (!isBlank ·)) := by
      intro es
      cases hes : es.dropWhile (!isBlank ·) with
      | nil => rfl
      | cons c r =>
        have hc : ¬ (!isBlank c) = true := by
          have hne : es.dropWhile (!isBlank ·) ≠ [] := by rw [hes]; simp
          have hhead := List.head_dropWhile_not (!isBlank ·) hne
          simpa [hes] using hhead
        rw [List.drop_one, List.tail_cons, Text.solid_cons_of_blank (by simpa using hc)]
    rw [if_pos (by simpa using hempty), if_pos (by simpa using hempty)]
    refine role_congr hkeyword (args_iff ?_)
    rw [Text.cutAtBlank, Text.cutAtBlank, hdrop, hdrop, Text.solid_eq_of_respaced hafter]
  · rw [if_neg (by simpa using hempty), if_neg (by simpa using hempty)]
    exact role_congr rfl (args_iff (Text.solid_eq_of_respaced hrest))

end Statement

end TwigTemplate
