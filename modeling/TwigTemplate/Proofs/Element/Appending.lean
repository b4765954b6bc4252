import TwigTemplate.Proofs.Element.Places

/-!
# Tags before the end of a text

What follows a text can change how the text is read: it may close template code that the text leaves
open, or hold the partner of a quote.  Then what stands between is no markup.  A text that leaves
nothing of this kind open and ends with `>` is read as it is, whatever follows.

* `EndsTag`: a text that ends with `>`.  No search of the scan goes on over this character.
* `Complete`: all template code and all quoted values that the scan comes to end in the text.
* `startTagEnd?_append`, `step_append`: **start tags and single steps are read alike**.
* `tagsFrom_append`: **the tags of a complete text stay when more text follows**.
-/

namespace TwigTemplate.Element

open Text (startsWith)

/-! ### Texts that end with `>` -/

/-- A text that ends with `>`, or is empty. -/
def EndsTag (cs : List Char) : Prop :=
  cs = [] ∨ cs.getLast? = some '>'

section EndsTag

variable {c : Char} {cs r : List Char}

theorem EndsTag.last (h : EndsTag cs) (hne : cs ≠ []) : cs.getLast? = some '>' :=
  h.resolve_left hne

theorem EndsTag.drop (h : EndsTag cs) (n : Nat) : EndsTag (cs.drop n) := by
  rw [EndsTag, List.getLast?_drop]
  by_cases hn : cs.length ≤ n
  · exact Or.inl (List.drop_of_length_le hn)
  · rw [if_neg hn]
    refine Or.inr (h.last ?_)
    rintro rfl
    exact hn (Nat.zero_le n)

theorem endsTag_drop (h : cs.getLast? = some '>') (n : Nat) : EndsTag (cs.drop n) :=
  EndsTag.drop (Or.inr h) n

theorem endsTag_of_cons (h : (c :: r).getLast? = some '>') : EndsTag r :=
  endsTag_drop h 1

theorem last_of_cons (h : (c :: r).getLast? = some '>') (hc : c ≠ '>') : r.getLast? = some '>' := by
  refine (endsTag_of_cons h).last ?_
  rintro rfl
  exact hc (Option.some.inj h)

theorem startsWith_append {needle : List Char} (h : cs.getLast? = some '>')
    (hneedle : '>' ∉ needle.dropLast) (rest : List Char) :
    startsWith needle (cs ++ rest) = startsWith needle cs := by
  rw [Bool.eq_iff_iff, Text.startsWith_iff, Text.startsWith_iff]
  refine ⟨fun hpre => ?_, fun hpre => hpre.trans (List.prefix_append cs rest)⟩
  rcases List.prefix_or_prefix_of_prefix hpre (List.prefix_append cs rest) with hpre | ⟨tail, rfl⟩
  · exact hpre
  · by_cases htail : tail = []
    · subst htail
      exact ⟨[], by simp⟩
    · rw [List.dropLast_append_of_ne_nil htail] at hneedle
      exact absurd (List.mem_append_left _ (List.mem_of_getLast? h)) hneedle

theorem mem_of_last (h : cs.getLast? = some '>') {p : Char → Bool} (hp : p '>' = false) :
    ∃ d ∈ cs, ¬ p d = true :=
  ⟨'>', List.mem_of_getLast? h, by rw [hp]; exact Bool.false_ne_true⟩

theorem takeWhile_append_of_exists {p : Char → Bool} (h : ∃ d ∈ cs, ¬ p d = true)
    (rest : List Char) : (cs ++ rest).takeWhile p = cs.takeWhile p ∧
      (cs ++ rest).dropWhile p = cs.dropWhile p ++ rest := by
  induction cs with
  | nil => exact absurd h (by simp)
  | cons d cs ih =>
    rw [List.cons_append, List.takeWhile_cons, List.takeWhile_cons, List.dropWhile_cons,
      List.dropWhile_cons]
    by_cases hd : p d = true
    · obtain ⟨e, he, hpe⟩ := h
      have hmem : e ∈ cs := (List.mem_cons.mp he).resolve_left fun heq => hpe (heq ▸ hd)
      obtain ⟨htake, hdrop⟩ := ih ⟨e, hmem, hpe⟩
      rw [if_pos hd, if_pos hd, if_pos hd, if_pos hd, htake, hdrop]
      exact ⟨rfl, rfl⟩
    · rw [if_neg hd, if_neg hd, if_neg hd, if_neg hd]
      exact ⟨rfl, rfl⟩

theorem last_dropWhile (h : cs.getLast? = some '>') {p : Char → Bool} (hp : p '>' = false) :
    (cs.dropWhile p).getLast? = some '>' := by
  rw [← drop_length_takeWhile]
  refine (endsTag_drop h _).last fun hnil => ?_
  rw [drop_length_takeWhile] at hnil
  obtain ⟨d, hd, hpd⟩ := mem_of_last h hp
  exact hpd (by simpa using List.dropWhile_eq_nil_iff.mp hnil d hd)

end EndsTag

/-! ### Searches -/

/-- Two numbers of characters that a text and more text passed from its start: the same, or all of
the text and beyond. -/
def Passes (cs : List Char) (m n : Nat) : Prop :=
  m = n ∨ cs.length ≤ m ∧ cs.length ≤ n

section Search

variable {cs : List Char}

theorem Passes.shift {ds : List Char} {k m n : Nat} (h : Passes ds m n)
    (hlength : ds.length + k = cs.length) : Passes cs (k + m) (k + n) := by
  rcases h with rfl | ⟨hm, hn⟩
  · exact Or.inl rfl
  · exact Or.inr ⟨by omega, by omega⟩

theorem searchLength?_append (h : EndsTag cs) {p : List Char → Bool} {rest : List Char}
    (hp : ∀ s : List Char, s.getLast? = some '>' → p (s ++ rest) = p s) :
    searchLength? p (cs ++ rest) =
      (searchLength? p cs).or ((searchLength? p rest).map (· + cs.length)) := by
  induction cs with
  | nil => cases hrest : searchLength? p rest <;> simp [searchLength?, hrest]
  | cons c r ih =>
    have hlast := h.last (List.cons_ne_nil c r)
    have hstart : p (c :: (r ++ rest)) = p (c :: r) := hp (c :: r) hlast
    rw [List.cons_append, searchLength?, hstart, searchLength?, ih (endsTag_of_cons hlast)]
    split
    · rfl
    · cases searchLength? p r with
      | some n => rfl
      | none =>
        cases searchLength? p rest with
        | none => rfl
        | some n => exact congrArg some (Nat.add_assoc n r.length 1)

/-- **A search passes the same characters, or all of the text.** -/
theorem passes_searchEnd (h : EndsTag cs) {p : List Char → Bool} {rest : List Char}
    (hp : ∀ s : List Char, s.getLast? = some '>' → p (s ++ rest) = p s) (width : Nat) :
    Passes cs (searchEnd p width cs) (searchEnd p width (cs ++ rest)) := by
  rw [searchEnd, searchEnd, searchLength?_append h hp]
  cases searchLength? p cs with
  | some n => exact Or.inl rfl
  | none =>
    refine Or.inr ⟨Nat.le_refl _, ?_⟩
    cases searchLength? p rest with
    | none => simp
    | some n =>
      show cs.length ≤ n + cs.length + width
      omega

theorem passes_commentLength (h : EndsTag cs) (rest : List Char) :
    Passes cs (commentLength cs) (commentLength (cs ++ rest)) := by
  rw [commentLength_eq, commentLength_eq]
  exact passes_searchEnd h (fun s hs => startsWith_append hs (by decide) rest) 3

theorem passes_rawTextLength (h : EndsTag cs) {name : List Char} (hname : holdsRawText name = true)
    (rest : List Char) : Passes cs (rawTextLength name cs) (rawTextLength name (cs ++ rest)) := by
  rw [rawTextLength_eq, rawTextLength_eq]
  refine passes_searchEnd h (fun s hs => ?_) 0
  have hfree : '>' ∉ ('<' :: '/' :: name).dropLast := by
    rcases holdsRawText_iff.mp hname with rfl | rfl <;> decide
  have hlast : (Text.lowerAscii s).getLast? = some '>' := by
    rw [Text.lowerAscii, List.getLast?_map, hs]
    rfl
  rw [closesRaw, closesRaw, Text.lowerAscii, List.map_append, ← Text.lowerAscii]
  exact startsWith_append hlast hfree _

theorem passes_raw (h : EndsTag cs) (kind : Kind) (name rest : List Char) :
    Passes cs (if kind = .opens ∧ holdsRawText name then rawTextLength name cs else 0)
      (if kind = .opens ∧ holdsRawText name then rawTextLength name (cs ++ rest) else 0) := by
  by_cases hraw : kind = .opens ∧ holdsRawText name
  · rw [if_pos hraw, if_pos hraw]
    exact passes_rawTextLength h hraw.2 rest
  · rw [if_neg hraw, if_neg hraw]
    exact Or.inl rfl

end Search

/-! ### Code and values -/

/-- Template code that begins the text ends in it. -/
def codeEnds : List Char → Bool
  | [] => true
  | c :: r =>
    match Form.opening? (c :: r) with
    | some form => (codeLength? form.closer (form ≠ .comment) .outside (r.drop 1)).isSome
    | none => true

/-- A quoted value that begins the text ends in it. -/
def valueEnds : List Char → Bool
  | [] => true
  | c :: r => !(c = '"' || c = '\'') || (valueLength? c r).isSome

/-- All template code that the scan comes to ends in the text, and inside of start tags all quoted
values do. -/
structure Complete (cs : List Char) : Prop where
  outside : ∀ place ∈ places cs, codeEnds place = true
  inside : ∀ place ∈ insides cs, codeEnds place = true ∧ valueEnds place = true

theorem Complete.following {c : Char} {r : List Char} (h : Complete (c :: r)) :
    Complete (following c r) where
  outside place hplace := h.outside place (by rw [places_cons]; exact List.mem_cons_of_mem _ hplace)
  inside place hplace :=
    h.inside place (by rw [insides_cons]; exact List.mem_append_right _ hplace)

section Code

variable {c : Char} {r : List Char}

theorem codeLength?_append {form : Form} {quoted : Bool} {s : Literal.State} {cs : List Char}
    {n : Nat} (hlast : cs.getLast? = some '>') (rest : List Char)
    (h : codeLength? form.closer quoted s cs = some n) :
    codeLength? form.closer quoted s (cs ++ rest) = some n ∧ n < cs.length := by
  have hfree : '>' ∉ form.closer.dropLast := by cases form <;> decide
  induction cs generalizing s n with
  | nil => exact absurd hlast (by simp)
  | cons c r ih =>
    have hstart : startsWith form.closer (c :: (r ++ rest)) = startsWith form.closer (c :: r) :=
      startsWith_append hlast hfree rest
    rw [codeLength?] at h
    rw [List.cons_append, codeLength?, hstart]
    split at h
    · next hclose =>
      obtain rfl := Option.some.inj h
      obtain ⟨tail, htail⟩ := Text.startsWith_iff.mp hclose.2
      refine ⟨if_pos hclose, ?_⟩
      rw [← htail, List.length_append]
      refine Nat.lt_add_of_pos_right (List.length_pos_iff.mpr ?_)
      -- The closer is not the end of the text.
      rintro rfl
      rw [← htail, List.append_nil] at hlast
      cases form <;> exact absurd hlast (by decide)
    · next hclose =>
      obtain ⟨m, hm, rfl⟩ := Option.map_eq_some_iff.mp h
      have hne : r ≠ [] := by
        rintro rfl
        exact absurd hm (by simp [codeLength?])
      obtain ⟨hmore, hlt⟩ := ih ((endsTag_of_cons hlast).last hne) hm
      rw [if_neg hclose]
      dsimp only
      rw [hmore]
      exact ⟨rfl, Nat.succ_lt_succ hlt⟩

theorem valueLength?_append {quote : Char} (hquote : quote ≠ '>') {cs : List Char} {n : Nat}
    (hlast : cs.getLast? = some '>') (rest : List Char) (h : valueLength? quote cs = some n) :
    valueLength? quote (cs ++ rest) = some n ∧ n < cs.length := by
  induction cs generalizing n with
  | nil => exact absurd hlast (by simp)
  | cons c r ih =>
    rw [valueLength?] at h
    rw [List.cons_append, valueLength?]
    split at h
    · next hc =>
      obtain rfl := Option.some.inj h
      have hr := last_of_cons hlast (hc ▸ hquote)
      have hne : r ≠ [] := List.ne_nil_of_mem (List.mem_of_getLast? hr)
      exact ⟨if_pos hc, Nat.succ_lt_succ (List.length_pos_iff.mpr hne)⟩
    · next hc =>
      obtain ⟨m, hm, rfl⟩ := Option.map_eq_some_iff.mp h
      have hne : r ≠ [] := by
        rintro rfl
        exact absurd hm (by simp [valueLength?])
      obtain ⟨hmore, hlt⟩ := ih ((endsTag_of_cons hlast).last hne) hm
      rw [if_neg hc, hmore]
      exact ⟨rfl, Nat.succ_lt_succ hlt⟩

theorem opening?_append (hr : r ≠ []) (rest : List Char) :
    Form.opening? (c :: (r ++ rest)) = Form.opening? (c :: r) := by
  obtain ⟨d, r, rfl⟩ := List.exists_cons_of_ne_nil hr
  by_cases hc : c = '\x7b'
  · subst hc
    rfl
  · rw [opening?_of_ne hc, opening?_of_ne hc]

theorem codeLength_append {form : Form} (hlast : (c :: r).getLast? = some '>')
    (hopen : Form.opening? (c :: r) = some form) (hcode : codeEnds (c :: r) = true)
    (rest : List Char) : codeLength form ((r ++ rest).drop 1) = codeLength form (r.drop 1) ∧
      codeLength form (r.drop 1) + 1 < r.length := by
  simp only [codeEnds, hopen] at hcode
  obtain ⟨n, hn⟩ := Option.isSome_iff_exists.mp hcode
  cases r with
  | nil => exact absurd hopen (by simp [Form.opening?])
  | cons d r =>
    rw [List.drop_succ_cons, List.drop_zero] at hn
    have hne : r ≠ [] := by
      rintro rfl
      exact absurd hn (by simp [codeLength?])
    have hr : r.getLast? = some '>' := (endsTag_drop hlast 2).last hne
    obtain ⟨hmore, hlt⟩ := codeLength?_append hr rest hn
    rw [List.cons_append, List.drop_succ_cons, List.drop_zero, List.drop_succ_cons, List.drop_zero,
      codeLength, codeLength, hmore, hn]
    exact ⟨rfl, Nat.succ_lt_succ hlt⟩

/-- **What belongs together inside a start tag is passed alike**, and does not end the text. -/
theorem attributeLength_append (hlast : (c :: r).getLast? = some '>') (hc : c ≠ '>')
    (hcode : codeEnds (c :: r) = true) (hvalue : valueEnds (c :: r) = true) (rest : List Char) :
    attributeLength (c :: (r ++ rest)) = attributeLength (c :: r) ∧
      attributeLength (c :: r) < (c :: r).length := by
  have hr := last_of_cons hlast hc
  have hne : r ≠ [] := List.ne_nil_of_mem (List.mem_of_getLast? hr)
  rw [attributeLength, attributeLength, opening?_append hne]
  by_cases hquote : c = '"' ∨ c = '\''
  · rw [if_pos hquote, if_pos hquote]
    have heither : (c = '"' || c = '\'') = true := by simpa using hquote
    rw [valueEnds, heither, Bool.not_true, Bool.false_or] at hvalue
    obtain ⟨n, hn⟩ := Option.isSome_iff_exists.mp hvalue
    obtain ⟨hmore, hlt⟩ := valueLength?_append hc hr rest hn
    rw [hmore, hn]
    exact ⟨rfl, Nat.succ_lt_succ hlt⟩
  · rw [if_neg hquote, if_neg hquote]
    cases hopen : Form.opening? (c :: r) with
    | none => exact ⟨rfl, Nat.succ_lt_succ (List.length_pos_iff.mpr hne)⟩
    | some form =>
      obtain ⟨hmore, hlt⟩ := codeLength_append hlast hopen hcode rest
      dsimp only
      rw [hmore, List.length_cons]
      exact ⟨rfl, by omega⟩

end Code

/-! ### Tags -/

/-- **A start tag is read alike**, and it is one. -/
theorem startTagEnd?_append {cs : List Char} (hlast : cs.getLast? = some '>')
    (hinside : ∀ place ∈ innerPlaces 0 cs, codeEnds place = true ∧ valueEnds place = true)
    (rest : List Char) : ∃ kind n, startTagEnd? 0 cs = some (kind, n) ∧
      startTagEnd? 0 (cs ++ rest) = some (kind, n) ∧ n ≤ cs.length := by
  generalize hn : cs.length = l
  induction l using Nat.strongRecOn generalizing cs with
  | ind l ih =>
    cases cs with
    | nil => exact absurd hlast (by simp)
    | cons c r =>
      rw [List.length_cons] at hn
      by_cases hc : c = '>'
      · subst hc
        exact ⟨.opens, 1, rfl, rfl, by omega⟩
      have hstart : startsWith ['/', '>'] (c :: (r ++ rest)) = startsWith ['/', '>'] (c :: r) :=
        startsWith_append hlast (by decide) rest
      by_cases hself : startsWith ['/', '>'] (c :: r) = true
      · refine ⟨.selfClosing, 2, ?_, ?_, ?_⟩
        · rw [startTagEnd?, if_neg hc, if_pos hself]
        · rw [List.cons_append, startTagEnd?, if_neg hc, hstart, if_pos hself]
        · have hle := (Text.startsWith_iff.mp hself).length_le
          simp only [List.length_cons, List.length_nil] at hle
          omega
      have hplace := hinside _ (self_mem_innerPlaces (List.cons_ne_nil c r))
      obtain ⟨hmore, hlt⟩ := attributeLength_append hlast hc hplace.1 hplace.2 rest
      have hpos := attributeLength_pos c r
      have hdrop : (c :: r).drop (attributeLength (c :: r)) ≠ [] := fun hnil =>
        absurd (List.drop_eq_nil_iff.mp hnil) (Nat.not_le_of_lt hlt)
      have hlater : ((c :: r).drop (attributeLength (c :: r))).length < l := by
        rw [List.length_drop, List.length_cons]
        omega
      obtain ⟨kind, m, hend, hend', hle⟩ := ih _ hlater
        ((endsTag_drop hlast _).last hdrop)
        (fun place hplace => hinside place (by
          rw [innerPlaces_cons hc hself]
          exact List.mem_cons_of_mem _ hplace)) rfl
      rw [List.length_drop, List.length_cons] at hle
      refine ⟨kind, m + attributeLength (c :: r), ?_, ?_, ?_⟩
      · rw [startTagEnd?_cons hc hself, hend]
        rfl
      · rw [List.cons_append, startTagEnd?_cons hc (by rwa [hstart]), hmore, ← List.cons_append,
          List.drop_append_of_le_length (Nat.le_of_lt hlt), hend']
        rfl
      · rw [List.length_cons] at hlt
        omega

/-- What the scan reads at a place of a text: the same tag, and the same characters or all of the
text. -/
structure StepsOver (cs : List Char) (a b : Step) : Prop where
  tag : a.tag = b.tag
  length : Passes cs a.length b.length

theorem StepsOver.skip {cs : List Char} {m n : Nat} (h : Passes cs m n) :
    StepsOver cs (.skip m) (.skip n) :=
  ⟨rfl, h⟩

theorem StepsOver.same (cs : List Char) (s : Step) : StepsOver cs s s :=
  ⟨rfl, Or.inl rfl⟩

theorem startTag_append {cs : List Char} (hlast : cs.getLast? = some '>')
    (hinside : ∀ place ∈ innerPlaces 0 (cs.dropWhile isNameChar),
      codeEnds place = true ∧ valueEnds place = true) (rest : List Char) :
    StepsOver cs (startTag cs) (startTag (cs ++ rest)) := by
  obtain ⟨htake, hdrop⟩ := takeWhile_append_of_exists (mem_of_last hlast (p := isNameChar) rfl) rest
  obtain ⟨kind, n, hend, hend', hle⟩ :=
    startTagEnd?_append (last_dropWhile hlast (p := isNameChar) rfl) hinside rest
  have hlength := congrArg List.length (List.takeWhile_append_dropWhile (p := isNameChar) (l := cs))
  rw [List.length_append] at hlength
  unfold startTag
  dsimp only
  rw [htake, hdrop, hend, hend']
  refine ⟨rfl, ?_⟩
  dsimp only
  have hends : EndsTag ((cs.dropWhile isNameChar).drop n) :=
    endsTag_drop (last_dropWhile hlast (p := isNameChar) rfl) n
  rw [List.drop_append_of_le_length hle, Text.lowerAscii, List.length_map]
  refine (passes_raw hends _ _ rest).shift ?_
  rw [List.length_drop]
  omega

theorem endTag?_append {cs : List Char} (hlast : cs.getLast? = some '>') (rest : List Char) :
    endTag? (cs ++ rest) = endTag? cs := by
  have hname := last_dropWhile hlast (p := isNameChar) rfl
  obtain ⟨htake, hdrop⟩ := takeWhile_append_of_exists (mem_of_last hlast (p := isNameChar) rfl) rest
  obtain ⟨htake', hdrop'⟩ := takeWhile_append_of_exists (mem_of_last hname (p := isGap) rfl) rest
  rw [endTag?_eq, endTag?_eq, htake, hdrop, htake', hdrop',
    startsWith_append (last_dropWhile hname (p := isGap) rfl) (by decide)]

theorem step_append_bang {r : List Char} (hlast : r.getLast? = some '>') (rest : List Char) :
    StepsOver ('!' :: r) (step '<' ('!' :: r)) (step '<' ('!' :: (r ++ rest))) := by
  by_cases hdashes : ['-', '-'] <+: r
  · obtain ⟨body, rfl⟩ := hdashes
    have hbody : EndsTag body := endsTag_drop hlast 2
    have hpasses := passes_commentLength hbody rest
    simp only [List.cons_append, List.nil_append, step_comment]
    exact .skip (hpasses.shift (by simp))
  · have hdashes' : ¬ ['-', '-'] <+: r ++ rest := by
      rwa [← Text.startsWith_iff, startsWith_append hlast (by decide), Text.startsWith_iff]
    rw [step_bang hdashes, step_bang hdashes']
    exact .same _ _

theorem step_append_slash {r : List Char} (hlast : r.getLast? = some '>') (rest : List Char) :
    StepsOver ('/' :: r) (step '<' ('/' :: r)) (step '<' ('/' :: (r ++ rest))) := by
  have hhead : (r ++ rest).head? = r.head? := by
    obtain ⟨e, r, rfl⟩ :=
      List.exists_cons_of_ne_nil (List.ne_nil_of_mem (List.mem_of_getLast? hlast))
    rfl
  rw [step_slash, step_slash, hhead, endTag?_append hlast]
  exact .same _ _

theorem step_append_angle {r : List Char} (hlast : r.getLast? = some '>')
    (hinside : ∀ place ∈ tagPlaces '<' r, codeEnds place = true ∧ valueEnds place = true)
    (rest : List Char) : StepsOver r (step '<' r) (step '<' (r ++ rest)) := by
  obtain ⟨d, r, rfl⟩ :=
    List.exists_cons_of_ne_nil (List.ne_nil_of_mem (List.mem_of_getLast? hlast))
  rw [List.cons_append]
  by_cases hbang : d = '!'
  · subst hbang
    exact step_append_bang (last_of_cons hlast (by decide)) rest
  by_cases hslash : d = '/'
  · subst hslash
    exact step_append_slash (last_of_cons hlast (by decide)) rest
  by_cases hname : isNameStart d = true
  · have htag : tagPlaces '<' (d :: r) = innerPlaces 0 ((d :: r).dropWhile isNameChar) :=
      if_pos ⟨rfl, hname⟩
    rw [htag] at hinside
    rw [step_name (r := d :: r) hname, step_name (r := d :: (r ++ rest)) hname]
    exact startTag_append hlast hinside rest
  · have hnone : ∀ s : List Char, (d :: s).head?.any isNameStart = false := fun s => by
      simpa using hname
    rw [step_other (by simpa using hbang) (by simpa using hslash) (hnone r),
      step_other (by simpa using hbang) (by simpa using hslash) (hnone (r ++ rest))]
    exact .same _ _

/-- **One step of the scan is the same**, or passes all of the text. -/
theorem step_append {c : Char} {r : List Char} (hlast : (c :: r).getLast? = some '>')
    (hcode : codeEnds (c :: r) = true)
    (hinside : ∀ place ∈ tagPlaces c r, codeEnds place = true ∧ valueEnds place = true)
    (rest : List Char) : StepsOver r (step c r) (step c (r ++ rest)) := by
  by_cases hend : r = []
  · subst hend
    obtain rfl : c = '>' := Option.some.inj hlast
    rw [step_of_ne (by decide), step_of_ne (by decide), opening?_of_ne (by decide),
      opening?_of_ne (by decide)]
    exact .same _ _
  by_cases hc : c = '<'
  · subst hc
    exact step_append_angle (last_of_cons hlast (by decide)) hinside rest
  · rw [step_of_ne hc, step_of_ne hc, opening?_append hend]
    cases hopen : Form.opening? (c :: r) with
    | none => exact .same _ _
    | some form =>
      dsimp only
      rw [(codeLength_append hlast hopen hcode rest).1]
      exact .same _ _

/-- **The tags of a complete text stay when more text follows.**  Those that are read then stand on
its last line or below. -/
theorem tagsFrom_append {line : Nat} {cs : List Char} (hcs : Complete cs) (hend : EndsTag cs)
    (rest : List Char) : ∃ more, tagsFrom line (cs ++ rest) = tagsFrom line cs ++ more ∧
      ∀ e ∈ more, line + Text.newlineCount cs ≤ e.line := by
  induction line, cs using scan_induction with
  | nil line =>
    rw [tagsFrom_nil]
    exact ⟨tagsFrom line rest, rfl, fun e he => (line_of_mem_tagsFrom he).1⟩
  | cons line c r ih =>
    have hstep := step_append (hend.last (List.cons_ne_nil c r))
      (hcs.outside _ (self_mem_places (List.cons_ne_nil c r)))
      (fun place hplace => hcs.inside place (by
        rw [insides_cons]
        exact List.mem_append_left _ hplace)) rest
    have htag : tagAt line c (r ++ rest) = tagAt line c r := by rw [tagAt, tagAt, hstep.tag]
    rw [List.cons_append, tagsFrom_cons, tagsFrom_cons, htag]
    by_cases hbeyond : r.length ≤ (step c r).length ∧ r.length ≤ (step c (r ++ rest)).length
    · -- The step passes all of the text, so that the rest of the scan reads what follows.
      have hnil : following c r = [] := List.drop_of_length_le hbeyond.1
      have hline : line + Text.newlineCount (c :: r) ≤ nextLine line c (r ++ rest) := by
        rw [nextLine, List.take_append, List.take_of_length_le hbeyond.2, ← List.cons_append,
          Text.newlineCount_append]
        omega
      rw [hnil, tagsFrom_nil, List.append_nil]
      exact ⟨_, rfl, fun e he => Nat.le_trans hline (line_of_mem_tagsFrom he).1⟩
    · have hlength : (step c r).length = (step c (r ++ rest)).length :=
        hstep.length.resolve_right hbeyond
      have hle : (step c r).length ≤ r.length := by omega
      have hnext : nextLine line c (r ++ rest) = nextLine line c r := by
        rw [nextLine, ← hlength, List.take_append_of_le_length hle, nextLine]
      have hfollowing : following c (r ++ rest) = following c r ++ rest := by
        rw [following, ← hlength, List.drop_append_of_le_length hle, following]
      obtain ⟨more, hmore, hlines⟩ := ih hcs.following
        (EndsTag.drop (endsTag_of_cons (hend.last (List.cons_ne_nil c r))) _)
      refine ⟨more, by rw [hnext, hfollowing, hmore, List.append_assoc], fun e he => ?_⟩
      have hcount : Text.newlineCount (c :: r) =
          Text.newlineCount (c :: r.take (step c r).length) +
            Text.newlineCount (following c r) := by
        rw [← Text.newlineCount_append, following, List.cons_append, List.take_append_drop]
      have hlater := hlines e he
      rw [nextLine] at hlater
      omega

end TwigTemplate.Element
