import TwigTemplate.Proofs.Region.Tiling

/-!
# Scanning as a relation

The scan of a document, described from the side of its result: a row of tokens,
each a character outside the regions or a whole region.  The relation `Scans` says
that such a row is what the scan makes of its own text.

* `Scans`: the relation.  Its first argument allows openers that are never closed.
* `scans_tokens_pieces`: what the scan makes of a text is such a row.
* `tokens_pieces_of_scans`: **and no other row is**.
* `Scans.of_code`: the regions in such a row.
-/

namespace TwigTemplate.Region

/-- A character outside the regions, or a region. -/
inductive Token where
  | char (c : Char)
  | code (raw : List Char)
  deriving DecidableEq, Repr

namespace Token

/-- A region is never blank. -/
def isBlank : Token → Bool
  | char c => Text.isBlank c
  | code _ => false

def newline : Token := char '\n'

def text : Token → List Char
  | char c => [c]
  | code raw => raw

end Token

/-- The text of a row of tokens. -/
def tell (ts : List Token) : List Char :=
  ts.flatMap Token.text

@[simp] theorem tell_nil : tell [] = [] := rfl

@[simp] theorem tell_char_cons (c : Char) (ts : List Token) :
    tell (.char c :: ts) = c :: tell ts := rfl

@[simp] theorem tell_code_cons (raw : List Char) (ts : List Token) :
    tell (.code raw :: ts) = raw ++ tell ts := rfl

theorem tell_append (ts us : List Token) : tell (ts ++ us) = tell ts ++ tell us := by
  simp [tell]

@[simp] theorem tell_map_char (cs : List Char) : tell (cs.map Token.char) = cs := by
  induction cs with
  | nil => rfl
  | cons c cs ih => rw [List.map_cons, tell_char_cons, ih]

/-- The tokens of a piece: of template code one, of other text its characters. -/
def Piece.tokens (p : Piece) : List Token :=
  if p.kind.isTemplate then [.code p.raw] else p.raw.map .char

def tokens (ps : List Piece) : List Token :=
  ps.flatMap Piece.tokens

@[simp] theorem tokens_nil : tokens [] = [] := rfl

theorem tokens_cons (p : Piece) (ps : List Piece) : tokens (p :: ps) = p.tokens ++ tokens ps := by
  simp [tokens]

theorem tokens_addText (c : Char) (ps : List Piece) :
    tokens (Piece.addText c ps) = .char c :: tokens ps := by
  unfold Piece.addText
  split
  · rw [tokens_cons, tokens_cons]
    rfl
  · rw [tokens_cons]
    rfl

theorem tokens_code (form : Form) (raw : List Char) (ps : List Piece) :
    tokens (⟨.template form, raw⟩ :: ps) = .code raw :: tokens ps := by
  rw [tokens_cons]
  rfl

theorem tokens_unterminated (form : Form) (raw : List Char) (ps : List Piece) :
    tokens (⟨.unterminated form, raw⟩ :: ps) = raw.map .char ++ tokens ps := by
  rw [tokens_cons]
  rfl

theorem tell_tokens (ps : List Piece) : tell (tokens ps) = spell ps := by
  induction ps with
  | nil => rfl
  | cons p ps ih =>
    rw [tokens_cons, tell_append, spell_cons, ih, Piece.tokens]
    split
    · simp
    · simp

/-- **The tokens of a text spell it.** -/
theorem tell_pieces (reach : Reach) (cs : List Char) : tell (tokens (pieces reach cs)) = cs := by
  rw [tell_tokens, spell_pieces]

/-! ### The relation -/

/-- A row of tokens that the scan of its own text makes.  Openers that are never
closed occur only in a loose row. -/
inductive Scans (loose : Bool) : List Token → Prop
  | nil : Scans loose []
  | char {c : Char} {ts : List Token} : Form.opening? (c :: tell ts) = none → Scans loose ts →
      Scans loose (.char c :: ts)
  | code {form : Form} {body : List Char} {ts : List Token} :
      lengthAfterOpener? .document form (body ++ tell ts) = some body.length → Scans loose ts →
      Scans loose (.code (form.opener ++ body) :: ts)
  | unterminated {form : Form} {c : Char} {cs : List Char} {ts : List Token} : loose = true →
      Form.opening? (c :: (cs ++ tell ts)) = some form →
      lengthAfterOpener? .document form ((cs ++ tell ts).drop 1) = none →
      '\n' ∉ cs → (∀ t ∈ ts.head?, t = Token.newline) → Scans loose ts →
      Scans loose (.char c :: (cs.map .char ++ ts))

/-- Pieces without an opener that is never closed. -/
def Closed (ps : List Piece) : Prop :=
  ∀ p ∈ ps, ∀ form : Form, p.kind ≠ .unterminated form

theorem closed_addText {c : Char} {ps : List Piece} :
    Closed (Piece.addText c ps) ↔ Closed ps := by
  unfold Piece.addText
  split
  · simp [Closed]
  · simp [Closed]

theorem head?_tokens_pieces {reach : Reach} {cs : List Char} (h : ∀ c ∈ cs.head?, c = '\n') :
    ∀ t ∈ (tokens (pieces reach cs)).head?, t = Token.newline := by
  cases cs with
  | nil =>
    rw [pieces]
    simp
  | cons c cs =>
    obtain rfl := h c rfl
    rw [pieces_char rfl, tokens_addText]
    intro t ht
    exact (Option.some.inj ht).symm

/-- **What the scan makes of a text is such a row.** -/
theorem scans_tokens_pieces {loose : Bool} {cs : List Char}
    (h : loose = false → Closed (pieces .document cs)) :
    Scans loose (tokens (pieces .document cs)) := by
  induction cs using pieces_induction .document with
  | nil =>
    rw [pieces]
    exact .nil
  | char c cs hopen ih =>
    rw [pieces_char hopen] at h ⊢
    rw [tokens_addText]
    refine .char ?_ (ih fun hl => closed_addText.mp (h hl))
    rw [tell_pieces]
    exact hopen
  | code form body back hlen ih =>
    rw [pieces_code hlen] at h ⊢
    rw [tokens_code]
    refine .code ?_ (ih fun hl p hp => h hl p (List.mem_cons_of_mem _ hp))
    rw [tell_pieces]
    exact hlen
  | leftOpen form body back hbody hback hlen ih =>
    rw [pieces_leftOpen hbody hback hlen] at h ⊢
    have hloose : loose = true := by
      cases loose with
      | true => rfl
      | false => exact absurd rfl (h rfl _ List.mem_cons_self form)
    have hline : '\n' ∉ form.mark :: body := by
      rw [List.mem_cons, not_or]
      exact ⟨fun he => newline_not_mem_opener form (List.mem_cons_of_mem _ (he ▸ List.mem_cons_self)),
        hbody⟩
    have htell : tell (tokens (pieces .document back)) = back := tell_pieces .document back
    have hopen : Form.opening? ('{' :: (form.mark :: body ++ tell (tokens (pieces .document back)))) =
        some form := opening?_opener form _
    rw [tokens_unterminated]
    refine .unterminated hloose hopen ?_ hline (head?_tokens_pieces hback)
      (ih fun hl p hp => h hl p (List.mem_cons_of_mem _ hp))
    rw [htell]
    exact hlen

/-- Every document is scanned as it stands, when openers may be left open. -/
theorem scans_document (cs : List Char) : Scans true (tokens (pieces .document cs)) :=
  scans_tokens_pieces fun h => absurd h (by simp)

theorem scans_of_closed {cs : List Char} (h : Closed (pieces .document cs)) :
    Scans false (tokens (pieces .document cs)) :=
  scans_tokens_pieces fun _ => h

/-- **The scan of the text of such a row makes the row.** -/
theorem tokens_pieces_of_scans {loose : Bool} {ts : List Token} (h : Scans loose ts) :
    tokens (pieces .document (tell ts)) = ts ∧
      (loose = false → Closed (pieces .document (tell ts))) := by
  induction h with
  | nil =>
    rw [tell_nil, pieces]
    exact ⟨rfl, fun _ p hp => absurd hp (by simp)⟩
  | char hopen _ ih =>
    rw [tell_char_cons, pieces_char hopen, tokens_addText, ih.1]
    exact ⟨rfl, fun hl => closed_addText.mpr (ih.2 hl)⟩
  | code hlen _ ih =>
    rw [tell_code_cons, List.append_assoc, pieces_code hlen, tokens_code, ih.1]
    refine ⟨rfl, fun hl p hp => ?_⟩
    rcases List.mem_cons.mp hp with rfl | hp
    · simp
    · exact ih.2 hl p hp
  | @unterminated form c cs ts hloose hopen hlen hcs hhead _ ih =>
    have hnl : ∀ d ∈ (tell ts).head?, d = '\n' := by
      cases ts with
      | nil => simp
      | cons t ts =>
        obtain rfl := hhead t rfl
        intro d hd
        exact (Option.some.inj hd).symm
    obtain ⟨htake, hdrop⟩ := takeWhile_newline hcs hnl
    rw [tell_char_cons, tell_append, tell_map_char, pieces_unterminated hopen hlen, htake, hdrop,
      tokens_unterminated, ih.1]
    refine ⟨rfl, fun hl => ?_⟩
    rw [hloose] at hl
    exact absurd hl (by simp)

theorem forall_getLast?_cons {α : Type} {p : α → Prop} {a : α} {as : List α}
    (ha : as = [] → p a) (has : ∀ x ∈ as.getLast?, p x) : ∀ x ∈ (a :: as).getLast?, p x := by
  intro x hx
  cases as with
  | nil => exact Option.some.inj hx ▸ ha rfl
  | cons b as => exact has x (by rwa [List.getLast?_cons_cons] at hx)

/-- **The regions of a row are cut as the scan of their text cuts them**, and none follows a
brace. -/
theorem Scans.of_code {loose : Bool} {front back : List Token} {raw : List Char}
    (h : Scans loose (front ++ .code raw :: back)) :
    (∃ (form : Form) (body : List Char), raw = form.opener ++ body ∧
      lengthAfterOpener? .document form (body ++ tell back) = some body.length) ∧
      ∀ t ∈ front.getLast?, t ≠ .char '{' := by
  generalize hts : front ++ .code raw :: back = ts at h
  induction h generalizing front with
  | nil => exact absurd hts (by simp)
  | @char c ts hopen _ ih =>
    cases front with
    | nil => exact absurd (List.cons.inj hts).1 (by simp)
    | cons t front =>
      obtain ⟨rfl, rfl⟩ := List.cons.inj hts
      obtain ⟨hcut, hlast⟩ := ih rfl
      refine ⟨hcut, forall_getLast?_cons (fun hfront hbrace => ?_) hlast⟩
      subst hfront
      obtain ⟨form, body, rfl, -⟩ := hcut
      obtain rfl := Token.char.inj hbrace
      exact absurd hopen (by simp [Form.opening?, Form.ofMark?, Form.opener])
  | @code form body ts hlength _ ih =>
    cases front with
    | nil =>
      obtain ⟨hraw, rfl⟩ := List.cons.inj hts
      exact ⟨⟨form, body, Token.code.inj hraw, hlength⟩, fun t ht => absurd ht (by simp)⟩
    | cons t front =>
      obtain ⟨rfl, rfl⟩ := List.cons.inj hts
      obtain ⟨hcut, hlast⟩ := ih rfl
      exact ⟨hcut, forall_getLast?_cons (fun _ => by simp) hlast⟩
  | @unterminated form c cs ts _ _ _ _ hhead _ ih =>
    have hsplit : front ++ .code raw :: back = (c :: cs).map .char ++ ts := hts
    have hnewline : ts ≠ .code raw :: back := by
      rintro rfl
      exact absurd (hhead _ rfl) (by simp [Token.newline])
    rcases List.append_eq_append_iff.mp hsplit with ⟨mid, hmid, hback⟩ | ⟨mid, rfl, hmid⟩
    · -- A region is no character of an opener's line.
      cases mid with
      | nil => exact absurd hback.symm hnewline
      | cons u mid =>
        obtain ⟨rfl, -⟩ := List.cons.inj hback
        have hmem : Token.code raw ∈ (c :: cs).map Token.char := by
          rw [hmid]
          exact List.mem_append_right _ List.mem_cons_self
        obtain ⟨d, -, hd⟩ := List.mem_map.mp hmem
        exact absurd hd (by simp)
    · obtain ⟨hcut, hlast⟩ := ih hmid.symm
      refine ⟨hcut, fun t ht => ?_⟩
      cases mid with
      | nil => exact absurd hmid hnewline
      | cons u mid =>
        rw [List.getLast?_append_of_ne_nil _ (List.cons_ne_nil u mid)] at ht
        exact hlast t ht

end TwigTemplate.Region
