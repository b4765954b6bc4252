import Mathlib.Data.List.Basic
import TwigTemplate.Proofs.Text.Search
import TwigTemplate.Text.Measure

/-!
# The bytes of a text

A search that ignores the case of ASCII letters may look at bytes instead of characters: all bytes
of a wider character are above those of ASCII, so a word of ASCII characters is only ever found
where a character begins.

* `bytes`: the UTF-8 form of a text; `length_bytes`: its length is the width of the text.
* `map_lowerByte_prefix_iff`: an ASCII word begins the bytes of a text when it begins the text.
* `findBytes?_bytes_cons`: **a search of the bytes for an ASCII word goes from character to
  character**.
-/

namespace TwigTemplate.Text

/-! ### The UTF-8 form -/

/-- The UTF-8 form of a text. -/
def bytes (cs : List Char) : List UInt8 :=
  cs.flatMap String.utf8EncodeChar

theorem bytes_cons (c : Char) (cs : List Char) :
    bytes (c :: cs) = String.utf8EncodeChar c ++ bytes cs := List.flatMap_cons

theorem width8_cons (c : Char) (cs : List Char) : width8 (c :: cs) = c.utf8Size + width8 cs := rfl

theorem width8_append (cs ds : List Char) : width8 (cs ++ ds) = width8 cs + width8 ds := by
  induction cs with
  | nil => exact (Nat.zero_add _).symm
  | cons c cs ih => rw [List.cons_append, width8_cons, width8_cons, ih, Nat.add_assoc]

theorem length_bytes (cs : List Char) : (bytes cs).length = width8 cs := by
  induction cs with
  | nil => rfl
  | cons c cs ih =>
    rw [bytes_cons, List.length_append, String.length_utf8EncodeChar, ih, width8_cons]

/-- A character that is one byte wide. -/
def IsAscii (c : Char) : Prop :=
  c.toNat < 128

instance : DecidablePred IsAscii := fun c => inferInstanceAs (Decidable (c.toNat < 128))

section Character

variable {c d : Char}

theorem utf8EncodeChar_of_isAscii (h : IsAscii c) :
    String.utf8EncodeChar c = [UInt8.ofNat c.toNat] := by
  have hle : c.val.toNat ≤ 127 := Nat.le_of_lt_succ h
  rw [String.utf8EncodeChar, if_pos hle]
  rfl

theorem utf8Size_of_isAscii (h : IsAscii c) : c.utf8Size = 1 := by
  rw [← String.length_utf8EncodeChar, utf8EncodeChar_of_isAscii h]
  rfl

theorem le_of_mem_utf8EncodeChar (h : ¬ IsAscii c) {b : UInt8} (hb : b ∈ String.utf8EncodeChar c) :
    128 ≤ b.toNat := by
  have hgt : ¬ c.val.toNat ≤ 127 := fun hle => h (Nat.lt_succ_of_le hle)
  have hbyte : ∀ n, 128 ≤ n → n < 256 → 128 ≤ (UInt8.ofNat n).toNat := by
    intro n hlow hhigh
    rwa [UInt8.toNat_ofNat_of_lt' hhigh]
  simp only [String.utf8EncodeChar, if_neg hgt] at hb
  -- Each byte is a remainder on top of the mark of a leading or a following byte.
  split at hb
  · rcases List.mem_pair.mp hb with rfl | rfl <;> exact hbyte _ (by omega) (by omega)
  split at hb
  all_goals
    simp only [List.mem_cons, List.not_mem_nil, or_false] at hb
  · rcases hb with rfl | rfl | rfl <;> exact hbyte _ (by omega) (by omega)
  · rcases hb with rfl | rfl | rfl | rfl <;> exact hbyte _ (by omega) (by omega)

end Character

/-! ### Letter case -/

/-- The byte of an ASCII capital written small. -/
def lowerByte (b : UInt8) : UInt8 :=
  if 65 ≤ b.toNat ∧ b.toNat ≤ 90 then b + 32 else b

theorem le_lowerByte {b : UInt8} (h : 128 ≤ b.toNat) : 128 ≤ (lowerByte b).toNat := by
  rw [lowerByte, if_neg (by omega)]
  exact h

section Lower

variable {c d : Char}

theorem lowerByte_of_isAscii (h : IsAscii c) :
    lowerByte (UInt8.ofNat c.toNat) = UInt8.ofNat c.toLower.toNat ∧ IsAscii c.toLower := by
  have hall : ∀ n < 128, lowerByte (UInt8.ofNat n) = UInt8.ofNat (Char.ofNat n).toLower.toNat ∧
      IsAscii (Char.ofNat n).toLower := by decide +kernel
  have hc := hall c.toNat h
  rwa [Char.ofNat_toNat] at hc

theorem toLower_of_not_isAscii (h : ¬ IsAscii c) : c.toLower = c := by
  unfold Char.toLower
  rw [dif_neg]
  rintro ⟨-, hle⟩
  have hle : c.val.toNat ≤ 90 := UInt32.le_iff_toNat_le.mp hle
  exact h (Nat.lt_of_le_of_lt hle (by decide))

theorem ofNat_toNat_inj (hc : IsAscii c) (hd : IsAscii d) :
    UInt8.ofNat c.toNat = UInt8.ofNat d.toNat ↔ c = d := by
  constructor
  · intro h
    have hlt : ∀ e : Char, IsAscii e → (UInt8.ofNat e.toNat).toNat = e.toNat := by
      intro e he
      exact UInt8.toNat_ofNat_of_lt' (Nat.lt_trans he (by decide))
    have hnat : c.toNat = d.toNat := by rw [← hlt c hc, ← hlt d hd, h]
    rw [← Char.ofNat_toNat c, hnat, Char.ofNat_toNat]
  · rintro rfl
    rfl

end Lower

/-! ### Words -/

/-- **An ASCII word begins the bytes of a text when it begins the text**, in any letter case. -/
theorem map_lowerByte_prefix_iff {w : List Char} (hw : ∀ c ∈ w, IsAscii c) (cs : List Char) :
    (bytes w).map lowerByte <+: (bytes cs).map lowerByte ↔ lowerAscii w <+: lowerAscii cs := by
  induction w generalizing cs with
  | nil => exact iff_of_true List.nil_prefix List.nil_prefix
  | cons a w ih =>
    obtain ⟨ha, hw⟩ := List.forall_mem_cons.mp hw
    have hbytes : (bytes (a :: w)).map lowerByte =
        UInt8.ofNat a.toLower.toNat :: (bytes w).map lowerByte := by
      rw [bytes_cons, utf8EncodeChar_of_isAscii ha, List.singleton_append, List.map_cons,
        (lowerByte_of_isAscii ha).1]
    rw [hbytes]
    cases cs with
    | nil => exact iff_of_false (by simp [bytes]) (by simp [lowerAscii])
    | cons c r =>
      have hchars : lowerAscii (a :: w) <+: lowerAscii (c :: r) ↔
          a.toLower = c.toLower ∧ lowerAscii w <+: lowerAscii r := List.cons_prefix_cons
      rw [hchars]
      by_cases hc : IsAscii c
      · rw [bytes_cons, utf8EncodeChar_of_isAscii hc, List.singleton_append, List.map_cons,
          (lowerByte_of_isAscii hc).1, List.cons_prefix_cons,
          ofNat_toNat_inj (lowerByte_of_isAscii ha).2 (lowerByte_of_isAscii hc).2, ih hw]
      -- The first byte of a wider character is none of ASCII.
      · obtain ⟨b, bs, hb⟩ := List.exists_cons_of_ne_nil
          (String.utf8EncodeChar_ne_nil : String.utf8EncodeChar c ≠ [])
        have hwide : 128 ≤ (lowerByte b).toNat :=
          le_lowerByte (le_of_mem_utf8EncodeChar hc (by rw [hb]; exact List.mem_cons_self))
        have hsmall : IsAscii a.toLower := (lowerByte_of_isAscii ha).2
        have hlt : (UInt8.ofNat a.toLower.toNat).toNat < 128 := by
          rw [UInt8.toNat_ofNat_of_lt' (Nat.lt_trans hsmall (by decide))]
          exact hsmall
        rw [bytes_cons, hb, List.cons_append, List.map_cons, List.cons_prefix_cons,
          toLower_of_not_isAscii hc]
        refine iff_of_false (fun h => ?_) (fun h => hc (h.1 ▸ hsmall))
        rw [h.1] at hlt
        omega

/-- The number of bytes before the first place where a word stands, in any letter case. -/
def findBytes? (word : List UInt8) : List UInt8 → Option Nat
  | [] => none
  | b :: r =>
    if (word.map lowerByte).isPrefixOf ((b :: r).map lowerByte) then some 0
    else (findBytes? word r).map (· + 1)

theorem findBytes?_wide {b : UInt8} {word u : List UInt8} (hb : (lowerByte b).toNat < 128)
    (hu : ∀ x ∈ u, 128 ≤ x.toNat) (bs : List UInt8) :
    findBytes? (b :: word) (u ++ bs) = (findBytes? (b :: word) bs).map (· + u.length) := by
  induction u with
  | nil => simp
  | cons x u ih =>
    obtain ⟨hx, hu⟩ := List.forall_mem_cons.mp hu
    have hwide : 128 ≤ (lowerByte x).toNat := le_lowerByte hx
    have hne :
        ¬ ((b :: word).map lowerByte).isPrefixOf ((x :: (u ++ bs)).map lowerByte) = true := by
      rw [List.isPrefixOf_iff_prefix, List.map_cons, List.map_cons, List.cons_prefix_cons]
      rintro ⟨he, -⟩
      rw [he] at hb
      omega
    rw [List.cons_append, findBytes?, if_neg hne, ih hu, Option.map_map]
    rfl

/-- **A search of the bytes for an ASCII word goes from character to character.** -/
theorem findBytes?_bytes_cons {w : List Char} (hne : w ≠ []) (hw : ∀ c ∈ w, IsAscii c) (c : Char)
    (r : List Char) :
    findBytes? (bytes w) (bytes (c :: r)) =
      if startsWith (lowerAscii w) (lowerAscii (c :: r)) then some 0
      else (findBytes? (bytes w) (bytes r)).map (· + c.utf8Size) := by
  have hstart : ((bytes w).map lowerByte).isPrefixOf ((bytes (c :: r)).map lowerByte) = true ↔
      startsWith (lowerAscii w) (lowerAscii (c :: r)) = true := by
    rw [List.isPrefixOf_iff_prefix, map_lowerByte_prefix_iff hw, startsWith_iff]
  by_cases hc : IsAscii c
  · have hbytes : bytes (c :: r) = UInt8.ofNat c.toNat :: bytes r := by
      rw [bytes_cons, utf8EncodeChar_of_isAscii hc, List.singleton_append]
    rw [utf8Size_of_isAscii hc]
    rw [hbytes] at hstart ⊢
    rw [findBytes?]
    exact if_congr hstart rfl rfl
  · obtain ⟨a, w, rfl⟩ := List.exists_cons_of_ne_nil hne
    have ha : IsAscii a := hw a List.mem_cons_self
    have hlower : IsAscii a.toLower := (lowerByte_of_isAscii ha).2
    have hsmall : (lowerByte (UInt8.ofNat a.toNat)).toNat < 128 := by
      rw [(lowerByte_of_isAscii ha).1,
        UInt8.toNat_ofNat_of_lt' (Nat.lt_trans hlower (by decide))]
      exact hlower
    have hno : ¬ startsWith (lowerAscii (a :: w)) (lowerAscii (c :: r)) = true := by
      rw [startsWith_iff]
      intro h
      have hhead : a.toLower = c.toLower := (List.cons_prefix_cons.mp h).1
      rw [toLower_of_not_isAscii hc] at hhead
      exact hc (hhead ▸ hlower)
    rw [if_neg hno, bytes_cons c, bytes_cons a, utf8EncodeChar_of_isAscii ha,
      List.singleton_append, findBytes?_wide hsmall fun b hb => le_of_mem_utf8EncodeChar hc hb,
      String.length_utf8EncodeChar]

end TwigTemplate.Text
