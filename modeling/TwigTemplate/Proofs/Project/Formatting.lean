import TwigTemplate.Project.Formatting
import TwigTemplate.Proofs.FileTree

/-!
# Formatting all files or none

Formatting reads every file from the tree as it was found, and the first file that is rejected
is the result as a whole.  What is to be written is worked out before the first write, so a
file that is named twice, or reached over a link as well, gets the same text twice.

* `Rejected`: why a file keeps a project from being formatted.
* `formatFiles_cases`: **either some file is rejected, or each has its update**.
* `Written`: a tree in which updates have been carried out.
* `exists_writeUpdates`: **updates of files that can be read are carried out**.
* `Formatted`, `Written.formatted`: carrying them out formats the files of a project.
-/

namespace TwigTemplate.Project

open FileTree (Alike)

/-! ### Working out the updates -/

section Files

variable (t : FileTree) (limit : Nat) (printer : Layout.Printer) (o : Layout.ReflowOptions)

/-- Why a file keeps a project from being formatted: it cannot be read, it is too large, the
printer fails on it, or a placeholder is lost. -/
inductive Rejected (path : Path) : Prop
  | unreadable (h : t.read? path = none)
  | tooLarge (size : Nat) (h : t.size? path = some size) (hlimit : limit < size)
  | printer (cs : List Char) (f : Failure) (h : t.read? path = some (.text cs))
      (hprint : printer o.printer (Layout.protect (Text.unifyNewlines cs)).text = .error f)
  | placeholder (cs printed : List Char) (f : Failure) (h : t.read? path = some (.text cs))
      (hprint : printer o.printer (Layout.protect (Text.unifyNewlines cs)).text = .ok printed)
      (hrestore : (Layout.protect (Text.unifyNewlines cs)).restore printed = .error f)

/-- The update that a file needs: its text and the formatted text, when they differ. -/
def update? (path : Path) : Option Update :=
  match t.read? path with
  | some (.text cs) =>
    match formatText printer o cs with
    | .ok formatted => if formatted = cs then none else some ⟨path, cs, formatted⟩
    | .error _ => none
  | _ => none

variable {t limit printer o} {path : Path} {cs : List Char}

theorem size?_of_read? {content : Content} (h : t.read? path = some content) :
    t.size? path = some content.size := by
  obtain ⟨place, hplace, hnode⟩ := FileTree.read?_eq_some_iff.mp h
  rw [FileTree.size?, hplace, Option.bind_some, hnode]

/-- The text that a file holds, if it holds text. -/
def textOf? : Content → Option (List Char)
  | .text cs => some cs
  | .binary _ => none

theorem readTemplate_of_read? {content : Content} (h : t.read? path = some content) :
    readTemplate t limit path =
      if limit < content.size then .error (.fileTooLarge path.text content.size limit)
      else .ok (textOf? content) := by
  rw [readTemplate, size?_of_read? h, h]
  cases content <;> rfl

/-- **Reading a template** fails when the file cannot be read or is too large. -/
theorem readTemplate_error_iff :
    (∃ f, readTemplate t limit path = .error f) ↔
      t.read? path = none ∨ ∃ size, t.size? path = some size ∧ limit < size := by
  cases hread : t.read? path with
  | none =>
    refine ⟨fun _ => Or.inl rfl, fun _ => ?_⟩
    rw [readTemplate, hread]
    split
    · exact ⟨_, rfl⟩
    · split <;> exact ⟨_, rfl⟩
  | some content =>
    rw [readTemplate_of_read? hread, size?_of_read? hread]
    by_cases hlimit : limit < content.size
    · rw [if_pos hlimit]
      exact ⟨fun _ => Or.inr ⟨_, rfl, hlimit⟩, fun _ => ⟨_, rfl⟩⟩
    · rw [if_neg hlimit]
      simp [hlimit]

theorem formatText_error_iff :
    (∃ f, formatText printer o cs = .error f) ↔
      (∃ f, printer o.printer (Layout.protect (Text.unifyNewlines cs)).text = .error f) ∨
      ∃ printed f, printer o.printer (Layout.protect (Text.unifyNewlines cs)).text = .ok printed ∧
        (Layout.protect (Text.unifyNewlines cs)).restore printed = .error f := by
  rw [formatText, Layout.reformat, Layout.printAround]
  generalize Layout.protect (Text.unifyNewlines cs) = p
  cases hprint : printer o.printer p.text with
  | error f => exact ⟨fun _ => Or.inl ⟨f, rfl⟩, fun _ => ⟨f, rfl⟩⟩
  | ok printed =>
    have hbind : ∀ g : List Char → Except Failure (List Char × List Char),
        (Except.ok printed >>= g) = g printed := fun _ => rfl
    simp only [hbind, reduceCtorEq, exists_false, false_or, Except.ok.injEq, exists_and_left,
      exists_eq_left']
    cases p.restore printed with
    | error f => exact ⟨fun _ => ⟨f, rfl⟩, fun _ => ⟨f, rfl⟩⟩
    | ok restored =>
      constructor
      · rintro ⟨f, hf⟩
        exact absurd hf (by simp [bind, Except.bind, pure, Except.pure])
      · rintro ⟨f, hf⟩
        exact absurd hf (by simp)

theorem rejected_iff : Rejected t limit printer o path ↔
    (∃ f, readTemplate t limit path = .error f) ∨
      ∃ cs, t.read? path = some (.text cs) ∧ ∃ f, formatText printer o cs = .error f := by
  constructor
  · intro h
    cases h with
    | unreadable h => exact Or.inl (readTemplate_error_iff.mpr (Or.inl h))
    | tooLarge size h hlimit => exact Or.inl (readTemplate_error_iff.mpr (Or.inr ⟨size, h, hlimit⟩))
    | printer cs f h hprint =>
      exact Or.inr ⟨cs, h, formatText_error_iff.mpr (Or.inl ⟨f, hprint⟩)⟩
    | placeholder cs printed f h hprint hrestore =>
      exact Or.inr ⟨cs, h, formatText_error_iff.mpr (Or.inr ⟨printed, f, hprint, hrestore⟩)⟩
  · rintro (h | ⟨cs, h, hf⟩)
    · rcases readTemplate_error_iff.mp h with h | ⟨size, h, hlimit⟩
      · exact .unreadable h
      · exact .tooLarge size h hlimit
    · rcases formatText_error_iff.mp hf with ⟨f, hprint⟩ | ⟨printed, f, hprint, hrestore⟩
      · exact .printer cs f h hprint
      · exact .placeholder cs printed f h hprint hrestore

variable (t limit printer o)

/-- **One more file** is rejected, or adds its update to those of the rest. -/
theorem formatFiles_cons (path : Path) (rest : List Path) :
    (Rejected t limit printer o path ∧
      ∃ f, formatFiles t limit printer o (path :: rest) = .error f) ∨
    (¬ Rejected t limit printer o path ∧ ∃ add : Formatting → Formatting,
      (∀ f, (add f).updates = (update? t printer o path).toList ++ f.updates) ∧
      formatFiles t limit printer o (path :: rest) =
        (formatFiles t limit printer o rest).map add) := by
  rw [rejected_iff, formatFiles]
  cases htemplate : readTemplate t limit path with
  | error f => exact Or.inl ⟨Or.inl ⟨f, rfl⟩, f, rfl⟩
  | ok cs? =>
    have hread : ∃ content, t.read? path = some content ∧ cs? = textOf? content := by
      cases hread : t.read? path with
      | none =>
        obtain ⟨f, hf⟩ := readTemplate_error_iff.mpr (Or.inl hread)
        rw [htemplate] at hf
        exact absurd hf (by simp)
      | some content =>
        rw [readTemplate_of_read? hread] at htemplate
        split at htemplate
        · exact absurd htemplate (by simp)
        · exact ⟨content, rfl, (Except.ok.inj htemplate).symm⟩
    obtain ⟨content, hread, rfl⟩ := hread
    cases content with
    | binary bytes =>
      refine Or.inr ⟨by simp [hread], id, fun f => ?_, ?_⟩
      · rw [update?, hread]
        rfl
      · show formatFiles t limit printer o rest = _
        cases formatFiles t limit printer o rest <;> rfl
    | text cs =>
      cases hformat : formatText printer o cs with
      | error f =>
        refine Or.inl ⟨Or.inr ⟨cs, hread, f, hformat⟩, f, ?_⟩
        show (formatText printer o cs >>= _) = _
        rw [hformat]
        rfl
      | ok formatted =>
        refine Or.inr ⟨by simp [hread, hformat], Formatting.addFile path cs formatted,
          fun f => ?_, ?_⟩
        · rw [update?, hread, Formatting.addFile]
          simp only [hformat]
          split <;> rfl
        · show (formatText printer o cs >>= _) = _
          rw [hformat]
          show (formatFiles t limit printer o rest >>= _) = _
          cases formatFiles t limit printer o rest <;> rfl

/-- **Either some file is rejected, or each has its update.** -/
theorem formatFiles_cases (paths : List Path) :
    ((∃ path ∈ paths, Rejected t limit printer o path) ∧
      ∃ f, formatFiles t limit printer o paths = .error f) ∨
    ((∀ path ∈ paths, ¬ Rejected t limit printer o path) ∧
      ∃ f, formatFiles t limit printer o paths = .ok f ∧
        f.updates = paths.filterMap (update? t printer o)) := by
  induction paths with
  | nil => exact Or.inr ⟨by simp, .empty, rfl, rfl⟩
  | cons path rest ih =>
    rcases formatFiles_cons t limit printer o path rest with
      ⟨hrejected, hf⟩ | ⟨hkept, add, hadd, hcons⟩
    · exact Or.inl ⟨⟨path, List.mem_cons_self, hrejected⟩, hf⟩
    · rw [hcons]
      rcases ih with ⟨⟨q, hq, hrejected⟩, f, hf⟩ | ⟨hrest, f, hf, hupdates⟩
      · exact Or.inl ⟨⟨q, List.mem_cons_of_mem _ hq, hrejected⟩, f, by rw [hf]; rfl⟩
      · refine Or.inr ⟨List.forall_mem_cons.mpr ⟨hkept, hrest⟩, add f, by rw [hf]; rfl, ?_⟩
        rw [hadd, hupdates, List.filterMap_cons]
        cases update? t printer o path <;> rfl

variable {t limit printer o}

/-- **The update of a file** is its text and what formatting makes of it, when this differs. -/
theorem update?_eq_some_iff {u : Update} : update? t printer o path = some u ↔
    u.path = path ∧ t.read? path = some (.text u.current) ∧
      formatText printer o u.current = .ok u.formatted ∧ u.formatted ≠ u.current := by
  rw [update?]
  constructor
  · intro h
    split at h
    · next cs hread =>
      split at h
      · next formatted hformat =>
        split at h
        · exact absurd h (by simp)
        · next hne =>
          obtain rfl := Option.some.inj h
          exact ⟨rfl, hread, hformat, hne⟩
      · exact absurd h (by simp)
    · exact absurd h (by simp)
  · rintro ⟨rfl, hread, hformat, hne⟩
    rw [hread]
    simp only [hformat, if_neg hne]

end Files

/-! ### Writing the updates -/

/-- A tree in which updates have been carried out: the files that they lead to hold a formatted
text, and everything else is as it was. -/
structure Written (t : FileTree) (us : List Update) (s : FileTree) : Prop where
  alike : Alike t s
  holds : ∀ u ∈ us, ∀ place, t.resolve? u.path = some place →
    ∃ v ∈ us, t.resolve? v.path = some place ∧ s.node? place = some (.file (.text v.formatted))
  kept : ∀ place, (∀ u ∈ us, t.resolve? u.path ≠ some place) → s.node? place = t.node? place

theorem Written.cons {t s : FileTree} {u : Update} {us : List Update} {place : Location}
    {old : Content} (hplace : t.resolve? u.path = some place)
    (hnode : t.node? place = some (.file old))
    (h : Written (t.put place (.file (.text u.formatted))) us s) : Written t (u :: us) s := by
  have hput : Alike t (t.put place (.file (.text u.formatted))) := FileTree.alike_put hnode
  have hnew := FileTree.node?_put t (FileTree.place_ne_nil hnode) (.file (.text u.formatted))
  refine ⟨hput.trans h.alike, fun v hv q hq => ?_, fun q hq => ?_⟩
  · by_cases hlater : ∃ w ∈ us, t.resolve? w.path = some q
    · obtain ⟨w, hw, hwq⟩ := hlater
      obtain ⟨x, hx, hxq, hhold⟩ := h.holds w hw q ((hput.resolve? _).trans hwq)
      exact ⟨x, List.mem_cons_of_mem _ hx, (hput.resolve? _).symm.trans hxq, hhold⟩
    · -- No later update leads there, so this is the one that was just carried out.
      have hnone : ∀ w ∈ us, t.resolve? w.path ≠ some q := fun w hw hwq => hlater ⟨w, hw, hwq⟩
      obtain rfl : v = u := (List.mem_cons.mp hv).resolve_right fun hv => hnone v hv hq
      obtain rfl : place = q := Option.some.inj (hplace.symm.trans hq)
      refine ⟨v, List.mem_cons_self, hplace, ?_⟩
      rw [h.kept place fun w hw => by rw [hput.resolve?]; exact hnone w hw, hnew, if_pos rfl]
  · obtain ⟨hu, hus⟩ := List.forall_mem_cons.mp hq
    have hne : q ≠ place := fun heq => hu (heq ▸ hplace)
    rw [h.kept q fun w hw => by rw [hput.resolve?]; exact hus w hw, hnew, if_neg hne]

/-- **Updates of files that can be read are carried out**, all of them. -/
theorem exists_writeUpdates {t : FileTree} {us : List Update}
    (h : ∀ u ∈ us, ∃ content, t.read? u.path = some content) :
    ∃ s, writeUpdates t us = (s, true) ∧ Written t us s := by
  induction us generalizing t with
  | nil => exact ⟨t, rfl, .refl t, by simp, fun _ _ => rfl⟩
  | cons u us ih =>
    obtain ⟨⟨old, hold⟩, hus⟩ := List.forall_mem_cons.mp h
    obtain ⟨place, hplace, hnode, hwrite⟩ :=
      FileTree.exists_write? hold (.text u.formatted)
    have hput : Alike t (t.put place (.file (.text u.formatted))) := FileTree.alike_put hnode
    obtain ⟨s, hs, hwritten⟩ := ih fun v hv => by
      obtain ⟨content, hread⟩ := hus v hv
      exact hput.exists_read? hread
    refine ⟨s, ?_, hwritten.cons hplace hnode⟩
    rw [writeUpdates, hwrite]
    exact hs

/-! ### The files of a project -/

/-- A tree in which the text files of a project hold their formatted texts, and everything else
is as it was. -/
structure Formatted (t : FileTree) (p : Project) (printer : Layout.Printer) (s : FileTree) :
    Prop where
  /-- Paths lead to where they led. -/
  alike : Alike t s
  holds : ∀ path ∈ p.files, ∀ cs, t.read? path = some (.text cs) →
    ∃ formatted, Layout.reformat printer p.config.reflowOptions (Text.unifyNewlines cs) =
      .ok formatted ∧ s.read? path = some (.text formatted)
  kept : ∀ place, (∀ path ∈ p.files, ∀ cs, t.read? path = some (.text cs) →
    t.resolve? path ≠ some place) → s.node? place = t.node? place

section Formatted

variable {t s : FileTree} {p : Project} {printer : Layout.Printer} {us : List Update}

theorem node?_of_mem_updates {u : Update} {place : Location}
    (hu : u ∈ p.files.filterMap (update? t printer p.config.reflowOptions))
    (hplace : t.resolve? u.path = some place) :
    t.node? place = some (.file (.text u.current)) ∧
      formatText printer p.config.reflowOptions u.current = .ok u.formatted ∧
      u.formatted ≠ u.current := by
  obtain ⟨path, -, hu⟩ := List.mem_filterMap.mp hu
  obtain ⟨rfl, hread, hformat, hne⟩ := update?_eq_some_iff.mp hu
  obtain ⟨q, hq, hnode⟩ := FileTree.read?_eq_some_iff.mp hread
  obtain rfl := Option.some.inj (hq.symm.trans hplace)
  exact ⟨hnode, hformat, hne⟩

/-- **Carrying out the updates of a project formats its files.** -/
theorem Written.formatted
    (hkept : ∀ path ∈ p.files,
      ¬ Rejected t p.config.files.maxFileSize printer p.config.reflowOptions path)
    (h : Written t (p.files.filterMap (update? t printer p.config.reflowOptions)) s) :
    Formatted t p printer s := by
  refine ⟨h.alike, fun path hpath cs hread => ?_, fun place hplace => ?_⟩
  · cases hformat : formatText printer p.config.reflowOptions cs with
    | error f => exact absurd (rejected_iff.mpr (Or.inr ⟨cs, hread, f, hformat⟩)) (hkept path hpath)
    | ok formatted =>
      obtain ⟨place, hplace, hnode⟩ := FileTree.read?_eq_some_iff.mp hread
      -- Every update that leads to the same place has the same texts.
      have hsame : ∀ u ∈ p.files.filterMap (update? t printer p.config.reflowOptions),
          t.resolve? u.path = some place → u.formatted = formatted ∧ cs ≠ formatted :=
        fun u hu hat => by
          obtain ⟨hcurrent, hformat', hne⟩ := node?_of_mem_updates hu hat
          obtain rfl : cs = u.current := by
            rw [hnode] at hcurrent
            simpa using hcurrent
          obtain rfl : formatted = u.formatted := by
            rw [hformat] at hformat'
            simpa using hformat'
          exact ⟨rfl, hne.symm⟩
      refine ⟨formatted, hformat, FileTree.read?_eq_some_iff.mpr
        ⟨place, (h.alike.resolve? path).trans hplace, ?_⟩⟩
      by_cases heq : formatted = cs
      · rw [h.kept place fun u hu hat => (hsame u hu hat).2 heq.symm, hnode, heq]
      · have hmem : (⟨path, cs, formatted⟩ : Update) ∈
            p.files.filterMap (update? t printer p.config.reflowOptions) :=
          List.mem_filterMap.mpr
            ⟨path, hpath, update?_eq_some_iff.mpr ⟨rfl, hread, hformat, heq⟩⟩
        obtain ⟨v, hv, hat, hholds⟩ := h.holds _ hmem place hplace
        rw [hholds, (hsame v hv hat).1]
  · refine h.kept place fun u hu => ?_
    obtain ⟨path, hpath, hu⟩ := List.mem_filterMap.mp hu
    obtain ⟨rfl, hread, -, -⟩ := update?_eq_some_iff.mp hu
    exact hplace u.path hpath u.current hread

/-- **Something changes exactly when there is an update.** -/
theorem Written.changes_iff
    (h : Written t (p.files.filterMap (update? t printer p.config.reflowOptions)) s) :
    (∃ place, s.node? place ≠ t.node? place) ↔
      p.files.filterMap (update? t printer p.config.reflowOptions) ≠ [] := by
  constructor
  · rintro ⟨place, hchanged⟩ hempty
    exact hchanged (h.kept place fun u hu => by simp [hempty] at hu)
  · intro hne
    obtain ⟨u, hu⟩ := List.exists_mem_of_ne_nil _ hne
    obtain ⟨path, -, hupdate⟩ := List.mem_filterMap.mp hu
    obtain ⟨rfl, hread, -, -⟩ := update?_eq_some_iff.mp hupdate
    obtain ⟨place, hplace, -⟩ := FileTree.read?_eq_some_iff.mp hread
    obtain ⟨v, hv, hat, hholds⟩ := h.holds u hu place hplace
    obtain ⟨hcurrent, -, hdiffers⟩ := node?_of_mem_updates hv hat
    refine ⟨place, ?_⟩
    rw [hholds, hcurrent]
    simpa using hdiffers

end Formatted

end TwigTemplate.Project
