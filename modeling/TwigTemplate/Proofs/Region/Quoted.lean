import Mathlib.Data.List.DropRight
import TwigTemplate.Proofs.Region.Respacing

/-!
# String literals from outside

The search of `literalRest?` goes through a literal from its first quote on, two characters at a
time behind a backslash.  Seen from outside, a quote is escaped when the backslashes right before
it are odd in number, and a literal ends at the first equal quote of its line that is not.

* `Quoted`: what stands between the quotes of a literal.
* `literalRest?_of_quoted`, `exists_quoted_of_literalRest?`: **the search ends right behind the first
  quote that is not escaped**.
* `literal?_eq_none_iff`: there is no literal exactly when no such quote stands on the line.
-/

namespace TwigTemplate.Region

/-! ### Escaped quotes -/

/-- Behind this text a quote is escaped: the backslashes at its end are odd in number. -/
def EndsEscape (cs : List Char) : Prop :=
  (cs.rtakeWhile (· = '\\')).length % 2 = 1

instance : DecidablePred EndsEscape := fun cs =>
  inferInstanceAs (Decidable ((cs.rtakeWhile (· = '\\')).length % 2 = 1))

theorem length_rtakeWhile_le (p : Char → Bool) (cs : List Char) :
    (cs.rtakeWhile p).length ≤ cs.length :=
  (List.rtakeWhile_suffix p cs).length_le

/-- A backslash in front counts only if nothing but backslashes follows it. -/
theorem length_rtakeWhile_cons (c : Char) (cs : List Char) :
    ((c :: cs).rtakeWhile (· = '\\')).length =
      (cs.rtakeWhile (· = '\\')).length +
        if (cs.rtakeWhile (· = '\\')).length = cs.length ∧ c = '\\' then 1 else 0 := by
  rw [List.rtakeWhile, List.rtakeWhile, List.length_reverse, List.length_reverse,
    List.reverse_cons, List.takeWhile_append, List.length_reverse]
  by_cases hall : (cs.reverse.takeWhile (· = '\\')).length = cs.length
  · rw [if_pos hall, List.length_append, List.length_reverse, hall]
    by_cases hc : c = '\\' <;> simp [hc]
  · rw [if_neg hall, if_neg fun h => hall h.1, Nat.add_zero]

theorem endsEscape_cons {c : Char} (hc : c ≠ '\\') (cs : List Char) :
    EndsEscape (c :: cs) ↔ EndsEscape cs := by
  rw [EndsEscape, length_rtakeWhile_cons, if_neg fun h => hc h.2, Nat.add_zero, EndsEscape]

theorem endsEscape_escape (c : Char) (cs : List Char) :
    EndsEscape ('\\' :: c :: cs) ↔ EndsEscape cs := by
  have hle := length_rtakeWhile_le (· = '\\') cs
  rw [EndsEscape, length_rtakeWhile_cons, length_rtakeWhile_cons, List.length_cons, EndsEscape]
  by_cases hall : (cs.rtakeWhile (· = '\\')).length = cs.length
  · by_cases hc : c = '\\'
    · rw [if_pos ⟨hall, hc⟩, if_pos ⟨by rw [hall], rfl⟩]
      omega
    · rw [if_neg fun h => hc h.2, if_neg fun h => by omega]
      rfl
  · rw [if_neg fun h => hall h.1, if_neg fun h => by omega]
    rfl

/-! ### Between the quotes -/

/-- A text that makes a literal when `quote` stands on either side of it: it holds no newline, every
`quote` in it is escaped, and the one behind it is not. -/
structure Quoted (quote : Char) (inner : List Char) : Prop where
  isQuote : isQuote quote = true
  oneLine : '\n' ∉ inner
  escaped : ∀ front back, inner = front ++ quote :: back → EndsEscape front
  closed : ¬ EndsEscape inner

section Quoted

variable {q c : Char} {inner : List Char}

theorem quoted_nil (hq : isQuote q = true) : Quoted q [] :=
  ⟨hq, List.not_mem_nil, fun _ _ h => absurd h (by simp), by decide⟩

theorem Quoted.head_ne (h : Quoted q (c :: inner)) : c ≠ q := by
  rintro rfl
  exact absurd (h.escaped [] inner rfl) (by decide)

theorem quoted_escape_iff (hc : c ≠ '\n') : Quoted q ('\\' :: c :: inner) ↔ Quoted q inner := by
  constructor
  · intro h
    have hline := h.oneLine
    rw [List.mem_cons, List.mem_cons, not_or, not_or] at hline
    refine ⟨h.isQuote, hline.2.2, fun front back hcut => ?_, fun hends => ?_⟩
    · exact (endsEscape_escape c front).mp
        (h.escaped ('\\' :: c :: front) back (by rw [hcut]; rfl))
    · exact h.closed ((endsEscape_escape c inner).mpr hends)
  · intro h
    refine ⟨h.isQuote, ?_, fun front back hcut => ?_, fun hends => ?_⟩
    · rw [List.mem_cons, List.mem_cons, not_or, not_or]
      exact ⟨by decide, Ne.symm hc, h.oneLine⟩
    · match front, hcut with
      | [], hcut => exact absurd (List.cons.inj hcut).1.symm (ne_backslash_of_isQuote h.isQuote)
      | [d], hcut =>
        obtain rfl := (List.cons.inj hcut).1
        decide
      | d :: e :: front, hcut =>
        obtain ⟨rfl, htail⟩ := List.cons.inj hcut
        exact (endsEscape_escape _ _).mpr (h.escaped front back (List.cons.inj htail).2)
    · exact h.closed ((endsEscape_escape c inner).mp hends)

theorem quoted_cons_iff (hslash : c ≠ '\\') (hnl : c ≠ '\n') (hc : c ≠ q) :
    Quoted q (c :: inner) ↔ Quoted q inner := by
  constructor
  · intro h
    refine ⟨h.isQuote, fun hmem => h.oneLine (List.mem_cons_of_mem _ hmem),
      fun front back hcut => ?_, fun hends => h.closed ((endsEscape_cons hslash _).mpr hends)⟩
    exact (endsEscape_cons hslash front).mp (h.escaped (c :: front) back (by rw [hcut]; rfl))
  · intro h
    refine ⟨h.isQuote, fun hmem => (List.mem_cons.mp hmem).elim (fun he => hnl he.symm) h.oneLine,
      fun front back hcut => ?_, fun hends => h.closed ((endsEscape_cons hslash _).mp hends)⟩
    cases front with
    | nil => exact absurd (List.cons.inj hcut).1 hc
    | cons d front =>
      obtain ⟨rfl, htail⟩ := List.cons.inj hcut
      exact (endsEscape_cons hslash front).mpr (h.escaped front back htail)

end Quoted

/-! ### The search for the last quote -/

section Search

variable {q : Char} {cs : List Char} {n : Nat}

theorem literalRest?_of_quoted {inner : List Char} (h : Quoted q inner) (rest : List Char) :
    literalRest? q (inner ++ q :: rest) = some (inner.length + 1) := by
  have hq := h.isQuote
  fun_induction literalRest? q inner with
  | case1 => exact literalRest?_close hq rest
  | case2 => exact absurd h.closed (by decide)
  | case3 r => exact absurd (List.mem_cons_of_mem _ List.mem_cons_self) h.oneLine
  | case4 c r hc ih =>
    rw [List.cons_append, List.cons_append, literalRest?_escape hc,
      ih ((quoted_escape_iff hc).mp h)]
    rfl
  | case5 => exact absurd List.mem_cons_self h.oneLine
  | case6 => exact absurd rfl h.head_ne
  | case7 c r hlast hpair hnl hc ih =>
    have hslash := ne_backslash hlast hpair
    rw [List.cons_append, literalRest?_char hslash hnl hc,
      ih ((quoted_cons_iff hslash hnl hc).mp h)]
    rfl

theorem exists_quoted_of_literalRest? (hq : isQuote q = true) (h : literalRest? q cs = some n) :
    ∃ inner rest, cs = inner ++ q :: rest ∧ Quoted q inner ∧ n = inner.length + 1 := by
  fun_induction literalRest? q cs generalizing n with
  | case1 => exact absurd h (by simp)
  | case2 => exact absurd h (by simp)
  | case3 => exact absurd h (by simp)
  | case4 c r hc ih =>
    obtain ⟨m, hm, rfl⟩ := Option.map_eq_some_iff.mp h
    obtain ⟨inner, rest, rfl, hquoted, rfl⟩ := ih hm
    exact ⟨'\\' :: c :: inner, rest, rfl, (quoted_escape_iff hc).mpr hquoted, rfl⟩
  | case5 => exact absurd h (by simp)
  | case6 r =>
    obtain rfl := Option.some.inj h
    exact ⟨[], r, rfl, quoted_nil hq, rfl⟩
  | case7 c r hlast hpair hnl hc ih =>
    obtain ⟨m, hm, rfl⟩ := Option.map_eq_some_iff.mp h
    obtain ⟨inner, rest, rfl, hquoted, rfl⟩ := ih hm
    have hslash : c ≠ '\\' := by
      rintro rfl
      cases hrest : inner ++ q :: rest with
      | nil => exact hlast rfl hrest
      | cons d s => exact hpair d s rfl hrest
    exact ⟨c :: inner, rest, rfl, (quoted_cons_iff hslash hnl hc).mpr hquoted, rfl⟩

/-- A literal begins the text. -/
def StartsLiteral (cs : List Char) : Prop :=
  ∃ q inner rest, cs = q :: (inner ++ q :: rest) ∧ Quoted q inner

theorem literal?_of_quoted {inner : List Char} (h : Quoted q inner) (rest : List Char) :
    literal? (q :: (inner ++ q :: rest)) = some (inner.length + 2) := by
  rw [literal?, if_pos h.isQuote, literalRest?_of_quoted h]
  rfl

theorem exists_quoted_of_literal? (h : literal? cs = some n) :
    ∃ q inner rest, cs = q :: (inner ++ q :: rest) ∧ Quoted q inner ∧ n = inner.length + 2 := by
  cases cs with
  | nil => exact absurd h (by simp [literal?])
  | cons c r =>
    rw [literal?] at h
    split at h
    · next hq =>
      obtain ⟨m, hm, rfl⟩ := Option.map_eq_some_iff.mp h
      obtain ⟨inner, rest, rfl, hquoted, rfl⟩ := exists_quoted_of_literalRest? hq hm
      exact ⟨c, inner, rest, rfl, hquoted, rfl⟩
    · exact absurd h (by simp)

/-- **There is no literal exactly when no quote that is not escaped follows on the line.** -/
theorem literal?_eq_none_iff : literal? cs = none ↔ ¬ StartsLiteral cs := by
  constructor
  · rintro h ⟨q, inner, rest, rfl, hquoted⟩
    rw [literal?_of_quoted hquoted] at h
    exact absurd h (by simp)
  · intro h
    rw [Option.eq_none_iff_forall_ne_some]
    intro n hn
    obtain ⟨q, inner, rest, hcut, hquoted, -⟩ := exists_quoted_of_literal? hn
    exact h ⟨q, inner, rest, hcut, hquoted⟩

theorem StartsLiteral.isQuote {c : Char} {r : List Char} (h : StartsLiteral (c :: r)) :
    Region.isQuote c = true := by
  obtain ⟨q, inner, rest, hcut, hquoted⟩ := h
  rw [(List.cons.inj hcut).1]
  exact hquoted.isQuote

end Search

end TwigTemplate.Region
