import Mathlib.Data.List.TakeWhile
import TwigTemplate.Proofs.Region.Extent

/-!
# How the scan cuts a text

The scan goes through a text from left to right.  It passes a character that opens nothing, takes a
region up to its closer, or takes an opener that is left open up to the end of its line.

* `pieces_char`, `pieces_code`, `pieces_leftOpen`: these three steps.
* `pieces_induction`: **what they carry over holds of every text**.
* `spell_pieces`: the pieces laid end to end are the text.
* `CutsCode`, `exists_cutsCode`: what a piece of code is cut from.
-/

namespace TwigTemplate.Region

/-! ### Openers and lines -/

theorem opening?_opener (form : Form) (r : List Char) :
    Form.opening? (form.opener ++ r) = some form := by
  cases form <;> rfl

theorem ne_nil_of_opening? {c : Char} {cs : List Char} {form : Form}
    (h : Form.opening? (c :: cs) = some form) : cs ≠ [] := by
  rintro rfl
  exact absurd h (by simp [Form.opening?])

theorem newline_not_mem_opener (form : Form) : '\n' ∉ form.opener := by
  cases form <;> decide

theorem opening?_cons_eq_some {c : Char} {r : List Char} {form : Form}
    (h : Form.opening? (c :: r) = some form) : c :: r = form.opener ++ r.drop 1 := by
  cases r with
  | nil => simp [Form.opening?] at h
  | cons d r =>
    unfold Form.opening? at h
    split at h
    · next e _ heq =>
      obtain ⟨rfl, rfl, rfl⟩ : c = '{' ∧ d = e ∧ r = _ := by simpa using heq
      unfold Form.ofMark? at h
      split at h
      · next hd => obtain rfl := Option.some.inj h; simp [hd, Form.opener, Form.mark]
      · split at h
        · next hd => obtain rfl := Option.some.inj h; simp [hd, Form.opener, Form.mark]
        · split at h
          · next hd => obtain rfl := Option.some.inj h; simp [hd, Form.opener, Form.mark]
          · simp at h
    · simp at h

theorem takeWhile_newline {cs ds : List Char} (hcs : '\n' ∉ cs)
    (hds : ∀ c ∈ ds.head?, c = '\n') :
    (cs ++ ds).takeWhile (· ≠ '\n') = cs ∧ (cs ++ ds).dropWhile (· ≠ '\n') = ds := by
  have hall : ∀ c ∈ cs, decide (c ≠ '\n') = true := by
    intro c hc
    rw [decide_eq_true_eq]
    rintro rfl
    exact hcs hc
  rw [List.takeWhile_append_of_pos hall, List.dropWhile_append_of_pos hall]
  cases ds with
  | nil => simp
  | cons d ds =>
    obtain rfl : d = '\n' := hds d rfl
    simp

theorem head?_dropWhile_newline {cs : List Char} {c : Char}
    (h : c ∈ (cs.dropWhile (· ≠ '\n')).head?) : c = '\n' := by
  have := List.head?_dropWhile_not (fun x : Char => decide (x ≠ '\n')) cs
  rw [Option.mem_def.mp h] at this
  simpa using this

theorem eq_nil_of_line {cs : List Char} (h : ∀ c ∈ cs.head?, c = '\n') (hcs : '\n' ∉ cs) :
    cs = [] := by
  cases cs with
  | nil => rfl
  | cons c cs => exact absurd (h c rfl ▸ List.mem_cons_self) hcs

/-! ### Pieces in a row -/

/-- The text that pieces make, laid end to end. -/
def spell (ps : List Piece) : List Char :=
  ps.flatMap (·.raw)

@[simp] theorem spell_nil : spell [] = [] := rfl

@[simp] theorem spell_cons (p : Piece) (ps : List Piece) : spell (p :: ps) = p.raw ++ spell ps := by
  simp [spell]

theorem spell_append (ps qs : List Piece) : spell (ps ++ qs) = spell ps ++ spell qs :=
  List.flatMap_append

@[simp] theorem spell_addText (c : Char) (ps : List Piece) :
    spell (Piece.addText c ps) = c :: spell ps := by
  unfold Piece.addText
  split <;> simp

/-- A piece of code was there before a character of text was put in front, and what stands before
it too. -/
theorem exists_of_addText_eq {c : Char} {qs before after : List Piece} {p : Piece}
    (hp : p.kind ≠ .text) (h : Piece.addText c qs = before ++ p :: after) :
    ∃ front, qs = front ++ p :: after ∧ before = Piece.addText c front := by
  cases before with
  | nil =>
    unfold Piece.addText at h
    split at h <;> exact absurd (congrArg Piece.kind (List.cons.inj h).1).symm hp
  | cons q before =>
    unfold Piece.addText at h
    split at h
    · next raw more =>
      obtain ⟨rfl, rfl⟩ := List.cons.inj h
      exact ⟨⟨.text, raw⟩ :: before, rfl, rfl⟩
    · next hstart =>
      obtain ⟨rfl, rfl⟩ := List.cons.inj h
      refine ⟨before, rfl, ?_⟩
      unfold Piece.addText
      split
      · exact absurd rfl (hstart _ _)
      · rfl

/-! ### The steps of the scan -/

section Steps

variable {reach : Reach} {form : Form} {c : Char} {cs body back : List Char}

theorem pieces_char (h : Form.opening? (c :: cs) = none) :
    pieces reach (c :: cs) = Piece.addText c (pieces reach cs) := by
  rw [pieces]
  simp only [h]

theorem pieces_code
    (h : lengthAfterOpener? reach form (body ++ back) = some body.length) :
    pieces reach (form.opener ++ (body ++ back)) =
      ⟨.template form, form.opener ++ body⟩ :: pieces reach back := by
  have hopen := opening?_opener form (body ++ back)
  rw [Form.opener] at hopen ⊢
  rw [List.cons_append, List.cons_append, List.nil_append] at hopen ⊢
  rw [pieces]
  simp only [hopen, List.drop_succ_cons, List.drop_zero, h]
  simp

theorem pieces_unterminated (hopen : Form.opening? (c :: cs) = some form)
    (h : lengthAfterOpener? reach form (cs.drop 1) = none) :
    pieces reach (c :: cs) =
      ⟨.unterminated form, c :: cs.takeWhile (· ≠ '\n')⟩ ::
        pieces reach (cs.dropWhile (· ≠ '\n')) := by
  rw [pieces]
  simp only [hopen, h]

/-- An opener that is left open takes the rest of its line along. -/
theorem pieces_leftOpen (hbody : '\n' ∉ body) (hback : ∀ c ∈ back.head?, c = '\n')
    (h : lengthAfterOpener? reach form (body ++ back) = none) :
    pieces reach (form.opener ++ (body ++ back)) =
      ⟨.unterminated form, form.opener ++ body⟩ :: pieces reach back := by
  have hline : '\n' ∉ form.mark :: body :=
    fun hmem => (List.mem_cons.mp hmem).elim (by cases form <;> decide) hbody
  obtain ⟨htake, hdrop⟩ := takeWhile_newline hline hback
  have hopen : Form.opening? ('{' :: (form.mark :: body ++ back)) = some form :=
    opening?_opener form (body ++ back)
  calc pieces reach (form.opener ++ (body ++ back))
      = pieces reach ('{' :: (form.mark :: body ++ back)) := rfl
    _ = ⟨.unterminated form, form.opener ++ body⟩ :: pieces reach back := by
      rw [pieces_unterminated hopen h, htake, hdrop]
      rfl

theorem pieces_code_last (h : lengthAfterOpener? reach form body = some body.length) :
    pieces reach (form.opener ++ body) = [⟨.template form, form.opener ++ body⟩] := by
  have hcut := @pieces_code reach form body [] (by rwa [List.append_nil])
  rwa [pieces, List.append_nil] at hcut

theorem pieces_leftOpen_last (hbody : '\n' ∉ body) (h : lengthAfterOpener? reach form body = none) :
    pieces reach (form.opener ++ body) = [⟨.unterminated form, form.opener ++ body⟩] := by
  have hcut := @pieces_leftOpen reach form body [] hbody (by simp) (by rwa [List.append_nil])
  rwa [pieces, List.append_nil] at hcut

/-- **Induction along the scan.**  What holds behind a character that opens nothing, behind a region
and behind a line that is left open, holds before it. -/
@[elab_as_elim]
theorem pieces_induction (reach : Reach) {motive : List Char → Prop} (cs : List Char)
    (nil : motive [])
    (char : ∀ c cs, Form.opening? (c :: cs) = none → motive cs → motive (c :: cs))
    (code : ∀ form body back, lengthAfterOpener? reach form (body ++ back) = some body.length →
      motive back → motive (form.opener ++ (body ++ back)))
    (leftOpen : ∀ form body back, '\n' ∉ body → (∀ c ∈ back.head?, c = '\n') →
      lengthAfterOpener? reach form (body ++ back) = none → motive back →
      motive (form.opener ++ (body ++ back))) : motive cs := by
  fun_induction pieces reach cs with
  | case1 => exact nil
  | case2 c r hopen ih => exact char c r hopen ih
  | case3 c r form hopen n hlen ih =>
    have hbody : ((r.drop 1).take n).length = n := by
      rw [List.length_take, Nat.min_eq_left (lengthAfterOpener?_bound hlen).1]
    have hcut : (r.drop 1).take n ++ r.drop (n + 1) = r.drop 1 := by
      rw [Nat.add_comm n 1, ← List.drop_drop, List.take_append_drop]
    rw [opening?_cons_eq_some hopen, ← hcut]
    exact code form _ _ (by rw [hcut, hlen, hbody]) ih
  | case4 c r form hopen hlen ih =>
    obtain ⟨d, r, rfl⟩ := List.exists_cons_of_ne_nil (ne_nil_of_opening? hopen)
    have hpair : [c, d] ++ r = form.opener ++ r := opening?_cons_eq_some hopen
    have hd : d ≠ '\n' := by
      rintro rfl
      apply newline_not_mem_opener form
      rw [← List.append_cancel_right hpair]
      exact List.mem_cons_of_mem _ List.mem_cons_self
    rw [List.dropWhile_cons_of_pos (by simpa using hd)] at ih
    rw [opening?_cons_eq_some hopen]
    rw [List.drop_succ_cons, List.drop_zero] at hlen ⊢
    have hcut := List.takeWhile_append_dropWhile (p := (· ≠ '\n')) (l := r)
    rw [← hcut] at hlen ⊢
    refine leftOpen form _ _ (fun hmem => ?_) (fun c hc => head?_dropWhile_newline hc) hlen ih
    simpa using List.mem_takeWhile_imp hmem

end Steps

/-- **Nothing is lost**: the pieces of a text are the text. -/
theorem spell_pieces (reach : Reach) (cs : List Char) : spell (pieces reach cs) = cs := by
  fun_induction pieces reach cs with
  | case1 => rfl
  | case2 c r _ ih => rw [spell_addText, ih]
  | case3 c r form _ n _ ih =>
    rw [spell_cons, ih]
    simp
  | case4 c r form _ _ ih =>
    rw [spell_cons, ih]
    simp

/-! ### Code -/

/-- What the scan makes of an opener and the text behind it, and where it goes on: a region that a
closer ends, or one that is left open and ends with its line. -/
inductive CutsCode (reach : Reach) : List Char → Piece → List Char → Prop
  | code {form : Form} {body back : List Char} :
      lengthAfterOpener? reach form (body ++ back) = some body.length →
      CutsCode reach (body ++ back) ⟨.template form, form.opener ++ body⟩ back
  | leftOpen {form : Form} {body back : List Char} : '\n' ∉ body →
      (∀ c ∈ back.head?, c = '\n') → lengthAfterOpener? reach form (body ++ back) = none →
      CutsCode reach (body ++ back) ⟨.unterminated form, form.opener ++ body⟩ back

/-- **Every piece of code is cut where its opener stands**, and what follows is scanned anew. -/
theorem exists_cutsCode {reach : Reach} {cs : List Char} {before after : List Piece} {p : Piece}
    (hcut : pieces reach cs = before ++ p :: after) (hp : p.kind ≠ .text) :
    ∃ text back, CutsCode reach text p back ∧ after = pieces reach back := by
  induction cs using pieces_induction reach generalizing before with
  | nil => simp [pieces] at hcut
  | char c cs hopen ih =>
    rw [pieces_char hopen] at hcut
    obtain ⟨front, hfront, -⟩ := exists_of_addText_eq hp hcut
    exact ih hfront
  | code form body back hlen ih =>
    rw [pieces_code hlen] at hcut
    cases before with
    | nil =>
      obtain ⟨rfl, rfl⟩ := List.cons.inj hcut
      exact ⟨body ++ back, back, .code hlen, rfl⟩
    | cons q before => exact ih (List.cons.inj hcut).2
  | leftOpen form body back hbody hback hlen ih =>
    rw [pieces_leftOpen hbody hback hlen] at hcut
    cases before with
    | nil =>
      obtain ⟨rfl, rfl⟩ := List.cons.inj hcut
      exact ⟨body ++ back, back, .leftOpen hbody hback hlen, rfl⟩
    | cons q before => exact ih (List.cons.inj hcut).2

theorem exists_cutsCode_of_mem {reach : Reach} {cs : List Char} {p : Piece}
    (h : p ∈ pieces reach cs) (hp : p.kind ≠ .text) : ∃ text back, CutsCode reach text p back := by
  obtain ⟨before, after, hcut⟩ := List.append_of_mem h
  obtain ⟨text, back, hcode, -⟩ := exists_cutsCode hcut hp
  exact ⟨text, back, hcode⟩

end TwigTemplate.Region
