import TwigTemplate.Proofs.Text.Trimming

/-!
# Texts that differ in their blanks

Two texts are respaced when they say the same thing with other blanks between:
where one has a run of blanks the other has one too, and a newline stands in both
runs or in neither.  Blanks at the end of the text are free.

* `RespacedBy`: the relation, over any alphabet; `Respaced` is it for texts.
* `Inner`: what may be exchanged inside a text.
* `Matches`: two texts are read alike up to two places; `FoundAlike`: so they are up to what two
  searches find.
* `eq_of_solid_eq`: a front that ends with ink is known from what is not blank.
-/

namespace TwigTemplate.Text

variable {α : Type}

/-- Two runs of blanks that stand for each other. -/
structure Gap (p : α → Bool) (nl : α) (u v : List α) : Prop where
  left : ∀ x ∈ u, p x = true
  right : ∀ x ∈ v, p x = true
  left_ne_nil : u ≠ []
  right_ne_nil : v ≠ []
  newline : nl ∈ u ↔ nl ∈ v

/-- Two lists with the same ink, up to `S`, and blanks that stand for each other. -/
inductive RespacedBy (p : α → Bool) (nl : α) (S : α → α → Prop) : List α → List α → Prop
  | blank {xs ys : List α} : (∀ x ∈ xs, p x = true) → (∀ y ∈ ys, p y = true) →
      RespacedBy p nl S xs ys
  | same {x y : α} {xs ys : List α} : p x = false → p y = false → S x y →
      RespacedBy p nl S xs ys → RespacedBy p nl S (x :: xs) (y :: ys)
  | gap {u v xs ys : List α} : Gap p nl u v → RespacedBy p nl S xs ys →
      RespacedBy p nl S (u ++ xs) (v ++ ys)

section General

variable {p : α → Bool} {nl : α} {S : α → α → Prop}

theorem Gap.symm {u v : List α} (h : Gap p nl u v) : Gap p nl v u :=
  ⟨h.right, h.left, h.right_ne_nil, h.left_ne_nil, h.newline.symm⟩

theorem Gap.refl {u : List α} (hu : ∀ x ∈ u, p x = true) (hne : u ≠ []) : Gap p nl u u :=
  ⟨hu, hu, hne, hne, Iff.rfl⟩

theorem RespacedBy.symm (hS : ∀ x y, S x y → S y x) {xs ys : List α}
    (h : RespacedBy p nl S xs ys) : RespacedBy p nl S ys xs := by
  induction h with
  | blank hx hy => exact .blank hy hx
  | same hx hy hxy _ ih => exact .same hy hx (hS _ _ hxy) ih
  | gap hgap _ ih => exact .gap hgap.symm ih

theorem Gap.head_left {u v : List α} (h : Gap p nl u v) {xs : List α} :
    ∀ x ∈ (u ++ xs).head?, p x = true := by
  obtain ⟨x, u, rfl⟩ := List.exists_cons_of_ne_nil h.left_ne_nil
  intro y hy
  obtain rfl := Option.some.inj hy
  exact h.left x List.mem_cons_self

theorem Gap.head_right {u v : List α} (h : Gap p nl u v) {ys : List α} :
    ∀ y ∈ (v ++ ys).head?, p y = true :=
  h.symm.head_left

theorem RespacedBy.cons_left {x : α} {xs ys : List α} (h : RespacedBy p nl S (x :: xs) ys)
    (hx : p x = false) :
    ∃ y ys', ys = y :: ys' ∧ p y = false ∧ S x y ∧ RespacedBy p nl S xs ys' := by
  generalize hcs : x :: xs = cs at h
  cases h with
  | blank hall _ =>
    have := hall x (by rw [← hcs]; exact List.mem_cons_self)
    rw [hx] at this
    exact absurd this (by simp)
  | same hx' hy hxy hrest =>
    obtain ⟨rfl, rfl⟩ := List.cons.inj hcs
    exact ⟨_, _, rfl, hy, hxy, hrest⟩
  | gap hgap _ =>
    obtain ⟨c, u, rfl⟩ := List.exists_cons_of_ne_nil hgap.left_ne_nil
    obtain ⟨rfl, -⟩ := List.cons.inj hcs
    have := hgap.left x List.mem_cons_self
    rw [hx] at this
    exact absurd this (by simp)

/-- A list that breaks off before a newline or at the end, respaced part by part. -/
structure BreaksOff (p : α → Bool) (nl : α) (S : α → α → Prop) (as bs as' bs' : List α) : Prop where
  line : nl ∉ as'
  head : ∀ y ∈ bs'.head?, y = nl
  front : RespacedBy p nl S as as'
  back : RespacedBy p nl S bs bs'

theorem BreaksOff.gap {u v as bs as' bs' : List α} (h : BreaksOff p nl S as bs as' bs')
    (hgap : Gap p nl u v) (hu : nl ∉ u) : BreaksOff p nl S (u ++ as) bs (v ++ as') bs' where
  line := by
    rw [List.mem_append, not_or]
    exact ⟨mt hgap.newline.mpr hu, h.line⟩
  head := h.head
  front := .gap hgap h.front
  back := h.back

/-- A list breaks off in a run of blanks, before the newline that the other one holds there. -/
theorem Gap.breaksOff {as t v xs ys : List α} (hgap : Gap p nl (as ++ nl :: t) v)
    (hrest : RespacedBy p nl S xs ys) :
    ∃ as' bs', v ++ ys = as' ++ bs' ∧ BreaksOff p nl S as (nl :: t ++ xs) as' bs' := by
  obtain ⟨as', bs', rfl, hfree⟩ := List.eq_append_cons_of_mem
    (hgap.newline.mp (List.mem_append_right _ List.mem_cons_self))
  have hfront : ∀ x ∈ as, p x = true := fun x h => hgap.left x (List.mem_append_left _ h)
  have hfront' : ∀ y ∈ as', p y = true := fun y h => hgap.right y (List.mem_append_left _ h)
  have hback : Gap p nl (nl :: t) (nl :: bs') :=
    ⟨fun x h => hgap.left x (List.mem_append_right _ h),
      fun y h => hgap.right y (List.mem_append_right _ h), by simp, by simp, by simp⟩
  exact ⟨as', nl :: bs' ++ ys, by simp, hfree, fun y h => (Option.some.inj h).symm,
    .blank hfront hfront', .gap hback hrest⟩

/-- **A respaced list breaks off where the other does**, before a newline or at
the end. -/
theorem RespacedBy.split (hnl : p nl = true) {as bs ys : List α}
    (h : RespacedBy p nl S (as ++ bs) ys) (ha : nl ∉ as) (hb : ∀ x ∈ bs.head?, x = nl) :
    ∃ as' bs', ys = as' ++ bs' ∧ BreaksOff p nl S as bs as' bs' := by
  generalize hxs : as ++ bs = xs at h
  induction h generalizing as with
  | @blank xs ys hx hy =>
    have hleft : ∀ x ∈ as, p x = true := fun x h => hx x (hxs ▸ List.mem_append_left _ h)
    have hright : ∀ x ∈ bs, p x = true := fun x h => hx x (hxs ▸ List.mem_append_right _ h)
    by_cases hmem : nl ∈ ys
    · obtain ⟨as', bs', rfl, hfree⟩ := List.eq_append_cons_of_mem hmem
      exact ⟨as', nl :: bs', rfl, hfree, fun y h => (Option.some.inj h).symm,
        .blank hleft fun y h => hy y (List.mem_append_left _ h),
        .blank hright fun y h => hy y (List.mem_append_right _ h)⟩
    · exact ⟨ys, [], (List.append_nil ys).symm, hmem, by simp, .blank hleft hy,
        .blank hright (by simp)⟩
  | @same x y xs ys hx hy hxy hrest ih =>
    have hne : ∀ {z}, p z = false → z ≠ nl := by
      rintro z hz rfl
      exact absurd (hnl.symm.trans hz) (by simp)
    cases as with
    | nil =>
      obtain rfl : bs = x :: xs := hxs
      exact absurd (hb x rfl) (hne hx)
    | cons a as =>
      obtain ⟨rfl, htail⟩ := List.cons.inj hxs
      rw [List.mem_cons, not_or] at ha
      obtain ⟨as', bs', rfl, hoff⟩ := ih ha.2 htail
      refine ⟨y :: as', bs', rfl, ?_, hoff.head, .same hx hy hxy hoff.front, hoff.back⟩
      rw [List.mem_cons, not_or]
      exact ⟨(hne hy).symm, hoff.line⟩
  | @gap u v xs ys hgap hrest ih =>
    rcases List.append_eq_append_iff.mp hxs with ⟨t, rfl, rfl⟩ | ⟨t, rfl, rfl⟩
    · cases t with
      | nil =>
        -- The newline stands behind this run of blanks.
        obtain ⟨as', bs', rfl, hoff⟩ := ih List.not_mem_nil (List.nil_append xs)
        rw [List.append_nil] at hgap
        refine ⟨v ++ as', bs', (List.append_assoc ..).symm, ?_⟩
        simpa using hoff.gap hgap ha
      | cons z t =>
        obtain rfl : z = nl := hb z rfl
        exact hgap.breaksOff hrest
    · rw [List.mem_append, not_or] at ha
      obtain ⟨as', bs', rfl, hoff⟩ := ih ha.2 rfl
      exact ⟨v ++ as', bs', (List.append_assoc ..).symm, hoff.gap hgap ha.1⟩

theorem RespacedBy.mem_right {xs ys : List α} (h : RespacedBy p nl S xs ys) {y : α}
    (hy : y ∈ ys) : p y = true ∨ ∃ x ∈ xs, S x y := by
  induction h with
  | blank _ hall => exact Or.inl (hall y hy)
  | same _ _ hxy _ ih =>
    rcases List.mem_cons.mp hy with rfl | hy
    · exact Or.inr ⟨_, List.mem_cons_self, hxy⟩
    · rcases ih hy with hp | ⟨x, hx, hxy⟩
      · exact Or.inl hp
      · exact Or.inr ⟨x, List.mem_cons_of_mem _ hx, hxy⟩
  | gap hgap _ ih =>
    rcases List.mem_append.mp hy with hy | hy
    · exact Or.inl (hgap.right y hy)
    · rcases ih hy with hp | ⟨x, hx, hxy⟩
      · exact Or.inl hp
      · exact Or.inr ⟨x, List.mem_append_right _ hx, hxy⟩

theorem RespacedBy.append_map {g : α → α} {xs us vs : List α}
    (hblank : ∀ x ∈ xs, p x = true → g x = x)
    (hink : ∀ x ∈ xs, p x = false → p (g x) = false ∧ S x (g x))
    (h : RespacedBy p nl S us vs) : RespacedBy p nl S (xs ++ us) (xs.map g ++ vs) := by
  induction xs with
  | nil => exact h
  | cons x xs ih =>
    have hrest := ih (fun y hy => hblank y (List.mem_cons_of_mem _ hy))
      (fun y hy => hink y (List.mem_cons_of_mem _ hy))
    rw [List.map_cons, List.cons_append, List.cons_append]
    cases hx : p x with
    | true =>
      rw [hblank x List.mem_cons_self hx]
      have hall : ∀ y ∈ [x], p y = true := by simpa using hx
      exact .gap (Gap.refl hall (by simp)) hrest
    | false =>
      obtain ⟨hgx, hxg⟩ := hink x List.mem_cons_self hx
      exact .same hx hgx hxg hrest

end General

/-! ### Respaced texts -/

/-- Texts that differ in their blanks alone, no newline coming or going between
two words. -/
abbrev Respaced (cs ds : List Char) : Prop :=
  RespacedBy isBlank '\n' Eq cs ds

theorem respaced_symm {cs ds : List Char} (h : Respaced cs ds) : Respaced ds cs :=
  h.symm fun _ _ he => he.symm

theorem solid_cons_of_blank {c : Char} (hc : isBlank c = true) (cs : List Char) :
    solid (c :: cs) = solid cs := by
  simp [solid, hc]

theorem solid_cons_of_ink {c : Char} (hc : isBlank c = false) (cs : List Char) :
    solid (c :: cs) = c :: solid cs := by
  simp [solid, hc]

theorem solid_eq_nil {cs : List Char} (h : ∀ c ∈ cs, isBlank c = true) : solid cs = [] :=
  filter_eq_nil_of_all h

theorem all_blank_of_solid_eq_nil {cs : List Char} (h : solid cs = []) :
    ∀ c ∈ cs, isBlank c = true := by
  intro c hc
  have := List.filter_eq_nil_iff.mp h c hc
  simpa using this

/-- **Respaced texts say the same.** -/
theorem solid_eq_of_respaced {cs ds : List Char} (h : Respaced cs ds) : solid cs = solid ds := by
  induction h with
  | blank hx hy => rw [solid_eq_nil hx, solid_eq_nil hy]
  | same hx hy hxy _ ih => rw [solid_cons_of_ink hx, solid_cons_of_ink hy, ih, hxy]
  | gap hgap _ ih => rw [solid_append, solid_append, solid_eq_nil hgap.left,
      solid_eq_nil hgap.right, ih]

/-- Two texts that may be exchanged in front of anything. -/
def Inner (a b : List Char) : Prop :=
  ∀ cs ds, Respaced cs ds → Respaced (a ++ cs) (b ++ ds)

theorem Inner.append {a b a' b' : List Char} (h : Inner a b) (h' : Inner a' b') :
    Inner (a ++ a') (b ++ b') := by
  intro cs ds hcs
  rw [List.append_assoc, List.append_assoc]
  exact h _ _ (h' cs ds hcs)

theorem Inner.refl (a : List Char) : Inner a a := by
  intro cs ds h
  have happ : Respaced (a ++ cs) (a.map id ++ ds) :=
    RespacedBy.append_map (fun _ _ _ => rfl) (fun _ _ hx => ⟨hx, rfl⟩) h
  rwa [List.map_id] at happ

theorem Gap.inner {u v : List Char} (h : Gap isBlank '\n' u v) : Inner u v :=
  fun _ _ hcs => .gap h hcs

theorem Inner.solid_eq {a b : List Char} (h : Inner a b) : solid a = solid b := by
  have := solid_eq_of_respaced (h [] [] (.blank (by simp) (by simp)))
  rwa [List.append_nil, List.append_nil] at this

/-- **A front that ends with ink is known from what is not blank in it.** -/
theorem eq_of_solid_eq {a b r s : List Char} (h : a ++ r = b ++ s) (hsolid : solid a = solid b)
    (ha : ∀ c ∈ a.getLast?, isBlank c = false) (hb : ∀ c ∈ b.getLast?, isBlank c = false) :
    a = b := by
  have key : ∀ {a t : List Char}, solid (a ++ t) = solid a →
      (∀ c ∈ (a ++ t).getLast?, isBlank c = false) → t = [] := by
    intro a t hs hlast
    by_contra hne
    rw [solid_append] at hs
    have hblank := all_blank_of_solid_eq_nil (List.append_right_eq_self.mp hs)
    have hmem := List.getLast_mem hne
    have hlast' := hlast (t.getLast hne) (by
      rw [List.getLast?_append_of_ne_nil _ hne, List.getLast?_eq_some_getLast hne]
      rfl)
    rw [hblank _ hmem] at hlast'
    exact absurd hlast' (by simp)
  rcases List.append_eq_append_iff.mp h with ⟨t, rfl, -⟩ | ⟨t, rfl, -⟩
  · rw [key hsolid.symm hb, List.append_nil]
  · rw [key hsolid ha, List.append_nil]

/-! ### Read alike -/

/-- The texts are read alike up to `n` and `m`, and respaced after that. -/
def Matches (cs ds : List Char) (n m : Nat) : Prop :=
  solid (cs.take n) = solid (ds.take m) ∧ Respaced (cs.drop n) (ds.drop m)

theorem Matches.cons {c : Char} {cs ds : List Char} {n m : Nat} (h : Matches cs ds n m) :
    Matches (c :: cs) (c :: ds) (n + 1) (m + 1) := by
  refine ⟨?_, h.2⟩
  cases hc : isBlank c with
  | true => rw [List.take_succ_cons, List.take_succ_cons, solid_cons_of_blank hc,
      solid_cons_of_blank hc, h.1]
  | false => rw [List.take_succ_cons, List.take_succ_cons, solid_cons_of_ink hc,
      solid_cons_of_ink hc, h.1]

theorem Matches.gap {u v cs ds : List Char} {n m : Nat} (hgap : Gap isBlank '\n' u v)
    (h : Matches cs ds n m) : Matches (u ++ cs) (v ++ ds) (n + u.length) (m + v.length) := by
  constructor
  · rw [Nat.add_comm, List.take_length_add_append, Nat.add_comm, List.take_length_add_append,
      solid_append, solid_append, solid_eq_nil hgap.left, solid_eq_nil hgap.right, h.1]
  · rw [Nat.add_comm, List.drop_length_add_append, Nat.add_comm, List.drop_length_add_append]
    exact h.2

theorem Matches.trans {cs ds : List Char} {n m k l : Nat} (h : Matches cs ds n m)
    (h' : Matches (cs.drop n) (ds.drop m) k l) : Matches cs ds (k + n) (l + m) := by
  constructor
  · rw [Nat.add_comm k, Nat.add_comm l, List.take_add, List.take_add, solid_append, solid_append,
      h.1, h'.1]
  · have hdrop := h'.2
    rw [List.drop_drop, List.drop_drop] at hdrop
    rw [Nat.add_comm k, Nat.add_comm l]
    exact hdrop

theorem Matches.start {cs ds : List Char} (h : Respaced cs ds) : Matches cs ds 0 0 :=
  ⟨rfl, h⟩

/-- What is found in the first text is found at the matching place of the second. -/
def FoundAlike (cs ds : List Char) (found found' : Option Nat) : Prop :=
  ∀ n, found = some n → ∃ m, found' = some m ∧ Matches cs ds n m

section FoundAlike

variable {cs ds : List Char} {found found' : Option Nat}

theorem FoundAlike.of_none : FoundAlike cs ds none found' :=
  fun _ h => absurd h (by simp)

theorem FoundAlike.of_some {n m : Nat} (h : Matches cs ds n m) :
    FoundAlike cs ds (some n) (some m) :=
  fun _ hn => ⟨m, rfl, Option.some.inj hn ▸ h⟩

theorem FoundAlike.map {cs' ds' : List Char} {k l : Nat} (h : FoundAlike cs ds found found')
    (hpassed : ∀ {n m}, Matches cs ds n m → Matches cs' ds' (n + k) (m + l)) :
    FoundAlike cs' ds' (found.map (· + k)) (found'.map (· + l)) := by
  intro i hi
  obtain ⟨n, hn, rfl⟩ := Option.map_eq_some_iff.mp hi
  obtain ⟨m, rfl, hmatch⟩ := h n hn
  exact ⟨m + l, rfl, hpassed hmatch⟩

theorem FoundAlike.eq_none (h : FoundAlike cs ds found found') (hnone : found' = none) :
    found = none := by
  by_contra hsome
  obtain ⟨n, hn⟩ := Option.ne_none_iff_exists'.mp hsome
  obtain ⟨m, hm, -⟩ := h n hn
  exact absurd (hnone.symm.trans hm) (by simp)

end FoundAlike

end TwigTemplate.Text
