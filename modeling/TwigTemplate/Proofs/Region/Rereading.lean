import TwigTemplate.Proofs.Region.Framing
import TwigTemplate.Proofs.Region.Lines

/-!
# Reading a line again

A line that is indented anew, trimmed, and whose regions are squeezed has the
same regions in the same order, and each says what it said.

* `squeeze`: a token with the spacing of its region squeezed.
* `lineTokens_relaid`: **the line has the tokens of the line before, squeezed**.
* `codesOf`: the regions in a row of tokens; `reading`: what one says.
* `readings_relaid`: **and it says the same**.
-/

namespace TwigTemplate.Region

open Text (isBlank trimBy RespacedBy)

/-! ### Blanks and ink of a line -/

theorem lineTokens_of_blank {l : List Char} (h : ∀ c ∈ l, isBlank c = true) :
    lineTokens l = l.map .char := by
  have hscan := (tokens_pieces_of_scans (scans_blank true (isBlank_of_mem_map_char h))).1
  rw [tell_map_char] at hscan
  exact hscan

theorem blank_lineTokens_iff (l : List Char) :
    (∀ t ∈ lineTokens l, t.isBlank = true) ↔ ∀ c ∈ l, isBlank c = true := by
  constructor
  · intro h
    obtain ⟨cs, hcs, hall⟩ := exists_eq_map_char h
    have htell := tell_lineTokens l
    rw [hcs, tell_map_char] at htell
    rw [← htell]
    exact hall
  · intro h t ht
    rw [lineTokens_of_blank h] at ht
    obtain ⟨c, hc, rfl⟩ := List.mem_map.mp ht
    exact h c hc

theorem trim_lineTokens_eq_nil_iff (l : List Char) :
    trimBy Token.isBlank (lineTokens l) = [] ↔ trimBy isBlank l = [] := by
  rw [Text.trimBy_eq_nil_iff, Text.trimBy_eq_nil_iff, blank_lineTokens_iff]

/-! ### The same line with other blanks -/

/-- **A line with the same ink has the same tokens between its outer blanks**, up to
a change `g` that a scan does not notice. -/
theorem scans_relaid {loose : Bool} {ts : List Token} {g : Token → Token} (h : Scans loose ts)
    (hg : ∀ t ∈ ts, t.isBlank = true → g t = t)
    (hink : ∀ t ∈ ts, t.isBlank = false → (g t).isBlank = false ∧ Token.Alike t (g t))
    {u v : List Token} (hu : ∀ t ∈ u, t.isBlank = true) (hv : ∀ t ∈ v, t.isBlank = true) :
    Scans loose (u ++ ((trimBy Token.isBlank ts).map g ++ v)) := by
  obtain ⟨a, b, hcut, ha, hb⟩ := Text.exists_eq_append_trimBy Token.isBlank ts
  rw [hcut] at h
  refine (scans_blank_append hu).mpr (scans_respaced ((scans_blank_append ha).mp h) ?_)
  apply RespacedBy.append_map
  · exact fun t ht => hg t (Text.mem_of_mem_trimBy ht)
  · exact fun t ht => hink t (Text.mem_of_mem_trimBy ht)
  · exact .blank hb hv

/-- A token with the spacing of its region squeezed. -/
def squeeze : Token → Token
  | .char c => .char c
  | .code raw => .code (normalizeSpacing raw)

theorem shape_of_mem_tokens {reach : Reach} {cs raw : List Char}
    (h : .code raw ∈ tokens (pieces reach cs)) :
    ∃ form inner, raw = form.opener ++ (inner ++ Form.closer form) := by
  obtain ⟨p, hp, hmem⟩ := List.mem_flatMap.mp h
  rw [Piece.tokens] at hmem
  split at hmem
  · next hkind =>
    obtain rfl : raw = p.raw := by simpa using hmem
    cases hk : p.kind with
    | text => rw [hk] at hkind; exact absurd hkind (by simp [Kind.isTemplate])
    | template form =>
      obtain ⟨inner, hinner⟩ := shape_of_mem_pieces p hp hk
      exact ⟨form, inner, hinner⟩
    | unterminated form => rw [hk] at hkind; exact absurd hkind (by simp [Kind.isTemplate])
  · simp at hmem

/-- Every region of a row stands between delimiters. -/
def Shaped (ts : List Token) : Prop :=
  ∀ raw, .code raw ∈ ts → ∃ (form : Form) (inner : List Char),
    raw = form.opener ++ (inner ++ form.closer)

theorem shaped_tokens (reach : Reach) (cs : List Char) : Shaped (tokens (pieces reach cs)) :=
  fun _ h => shape_of_mem_tokens h

theorem Shaped.of_mem {ts us : List Token} (h : Shaped ts) (hus : ∀ t ∈ us, t ∈ ts) : Shaped us :=
  fun raw hraw => h raw (hus _ hraw)

theorem Shaped.alike {ts : List Token} (h : Shaped ts) {t : Token} (ht : t ∈ ts) :
    Token.Alike t t := by
  cases t with
  | char c => exact .char c
  | code raw =>
    obtain ⟨form, inner, rfl⟩ := h raw ht
    refine .code (Text.Inner.refl _) fun c hc => ?_
    rw [getLast?_closer] at hc
    obtain rfl := Option.some.inj hc
    decide

theorem squeeze_alike {l : List Char} (hl : '\n' ∉ l) {t : Token} (ht : t ∈ lineTokens l)
    (hink : t.isBlank = false) : (squeeze t).isBlank = false ∧ Token.Alike t (squeeze t) := by
  cases t with
  | char c => exact ⟨hink, .char c⟩
  | code raw =>
    obtain ⟨form, inner, rfl⟩ := shape_of_mem_tokens ht
    refine ⟨rfl, alike_normalizeSpacing (newlineCount_normalizeSpacing fun hmem => hl ?_)⟩
    rw [← tell_lineTokens l]
    refine List.mem_flatMap.mpr ⟨_, ht, ?_⟩
    exact List.mem_append_right _ (List.mem_append_left _ hmem)

theorem squeeze_of_blank {t : Token} (h : t.isBlank = true) : squeeze t = t := by
  cases t with
  | char c => rfl
  | code raw => exact absurd h (by simp [Token.isBlank])

/-- **A line laid out anew has the tokens of the line before, squeezed.** -/
theorem lineTokens_relaid {l w : List Char} (hl : '\n' ∉ l) (hclosed : Closed (pieces .document l))
    (hw : trimBy isBlank w = tell ((trimBy Token.isBlank (lineTokens l)).map squeeze)) :
    (∃ u v : List Token, lineTokens w =
        u ++ ((trimBy Token.isBlank (lineTokens l)).map squeeze ++ v) ∧
      (∀ t ∈ u, t.isBlank = true) ∧ ∀ t ∈ v, t.isBlank = true) ∧
      Closed (pieces .document w) := by
  obtain ⟨a, b, hcut, ha, hb⟩ := Text.exists_eq_append_trimBy isBlank w
  have ha' := isBlank_of_mem_map_char ha
  have hb' := isBlank_of_mem_map_char hb
  have hscan := scans_relaid (scans_of_closed hclosed)
    (fun t _ => squeeze_of_blank) (fun t => squeeze_alike hl) ha' hb'
  have htell : tell (a.map .char ++
      ((trimBy Token.isBlank (tokens (pieces .document l))).map squeeze ++ b.map .char)) = w := by
    rw [tell_append, tell_append, tell_map_char, tell_map_char, ← lineTokens, ← hw, ← hcut]
  obtain ⟨hrow, hclosed'⟩ := tokens_pieces_of_scans hscan
  rw [htell] at hrow hclosed'
  exact ⟨⟨a.map .char, b.map .char, hrow, ha', hb'⟩, hclosed' rfl⟩

theorem lineTokens_append_blank {l b : List Char} (hclosed : Closed (pieces .document l))
    (hb : ∀ c ∈ b, isBlank c = true) :
    lineTokens (l ++ b) = lineTokens l ++ b.map .char ∧ Closed (pieces .document (l ++ b)) := by
  have hblank : ∀ t ∈ b.map Token.char, t.isBlank = true := isBlank_of_mem_map_char hb
  obtain ⟨u, v, hcut, hu, hv⟩ := Text.exists_eq_append_trimBy Token.isBlank (lineTokens l)
  have hend : ∀ t ∈ v ++ b.map Token.char, t.isBlank = true := by
    intro t ht
    exact (List.mem_append.mp ht).elim (hv t) (hblank t)
  have hscan := scans_relaid (g := id) (scans_of_closed hclosed)
    (fun _ _ _ => rfl) (fun t ht hink => ⟨hink, (shaped_tokens .document l).alike ht⟩) hu hend
  have hrow : u ++ ((trimBy Token.isBlank (lineTokens l)).map id ++ (v ++ b.map .char)) =
      lineTokens l ++ b.map .char := by
    conv_rhs => rw [hcut]
    rw [List.map_id, List.append_assoc, List.append_assoc]
  rw [← lineTokens, hrow] at hscan
  obtain ⟨htokens, hclosed'⟩ := tokens_pieces_of_scans hscan
  rw [tell_append, tell_map_char, tell_lineTokens] at htokens hclosed'
  exact ⟨htokens, hclosed' rfl⟩

/-! ### What regions say -/

/-- The regions in a row of tokens. -/
def codesOf : List Token → List (List Char)
  | [] => []
  | .char _ :: ts => codesOf ts
  | .code raw :: ts => raw :: codesOf ts

theorem codesOf_append (ts us : List Token) : codesOf (ts ++ us) = codesOf ts ++ codesOf us := by
  induction ts with
  | nil => rfl
  | cons t ts ih =>
    cases t with
    | char c => exact ih
    | code raw => exact congrArg (raw :: ·) ih

theorem codesOf_map_char (cs : List Char) : codesOf (cs.map Token.char) = [] := by
  induction cs with
  | nil => rfl
  | cons c cs ih => exact ih

theorem codesOf_blank {ts : List Token} (h : ∀ t ∈ ts, t.isBlank = true) : codesOf ts = [] := by
  obtain ⟨cs, rfl, -⟩ := exists_eq_map_char h
  exact codesOf_map_char cs

theorem codesOf_trimBy (ts : List Token) : codesOf (trimBy Token.isBlank ts) = codesOf ts := by
  obtain ⟨u, v, hcut, hu, hv⟩ := Text.exists_eq_append_trimBy Token.isBlank ts
  conv_rhs => rw [hcut]
  rw [codesOf_append, codesOf_append, codesOf_blank hu, codesOf_blank hv, List.append_nil,
    List.nil_append]

theorem codesOf_map_squeeze (ts : List Token) :
    codesOf (ts.map squeeze) = (codesOf ts).map normalizeSpacing := by
  induction ts with
  | nil => rfl
  | cons t ts ih =>
    cases t with
    | char c => exact ih
    | code raw => exact congrArg (normalizeSpacing raw :: ·) ih

theorem mem_codesOf {raw : List Char} {ts : List Token} : raw ∈ codesOf ts ↔ .code raw ∈ ts := by
  induction ts with
  | nil => simp [codesOf]
  | cons t ts ih =>
    cases t with
    | char c => simp [codesOf, ih]
    | code r => simp [codesOf, ih]

/-- The form that a region begins with, and what it says. -/
def reading (raw : List Char) : Kind × List Char :=
  let kind := Kind.template ((Form.opening? raw).getD .output)
  (kind, Text.trim (body kind raw))

theorem reading_eq (form : Form) (rest : List Char) :
    reading (form.opener ++ rest) =
      (.template form, Text.trim (body (.template form) (form.opener ++ rest))) := by
  rw [reading, opening?_opener]
  rfl

/-- **Squeezing keeps what a region says.** -/
theorem reading_normalizeSpacing {form : Form} {inner : List Char} :
    reading (normalizeSpacing (form.opener ++ (inner ++ form.closer))) =
      reading (form.opener ++ (inner ++ form.closer)) := by
  have hbody := body_normalizeSpacing form inner
  obtain ⟨left, core, right, hraw, hframe⟩ := exists_framed form inner
  rw [hraw, normalizeSpacing_frame hframe] at hbody ⊢
  rw [framed, reading_eq, ← framed, hbody, framed, reading_eq]

theorem readings_relaid {l w : List Char} (hl : '\n' ∉ l) (hclosed : Closed (pieces .document l))
    (hw : trimBy isBlank w = tell ((trimBy Token.isBlank (lineTokens l)).map squeeze)) :
    (codesOf (lineTokens w)).map reading = (codesOf (lineTokens l)).map reading := by
  obtain ⟨⟨u, v, hrow, hu, hv⟩, -⟩ := lineTokens_relaid hl hclosed hw
  rw [hrow, codesOf_append, codesOf_append, codesOf_blank hu, codesOf_blank hv, List.append_nil,
    List.nil_append, codesOf_map_squeeze, codesOf_trimBy, List.map_map]
  apply List.map_congr_left
  intro raw hraw
  obtain ⟨form, inner, rfl⟩ := shape_of_mem_tokens (mem_codesOf.mp hraw)
  exact reading_normalizeSpacing

end TwigTemplate.Region
