import TwigTemplate.Editor.Edit
import TwigTemplate.Proofs.Project.Formatting
import TwigTemplate.Proofs.Text.Ink
import TwigTemplate.Proofs.Text.Units

/-!
# Formatting in an editor and on disk

An editor replaces the whole text by what formatting makes of it, from the first position to the
one after the last character.  Formatting a project makes the same of the file, unless the file is
too large for it: the editor has no limit.

* `Position.cut?`, `applyEdits`: what positions and edits mean.
* `append_of_cut?`: **a position cuts a text and loses nothing**.
* `cut?_start`, `cut?_endPosition`: **the edit of an editor covers the whole text**.
* `Project.formatFiles_append`: **the files of a project are formatted one by one**.
* `formatEdits_spec`: **an editor makes of a text what formatting the project makes of its file**.
-/

namespace TwigTemplate

/-! ### What positions and edits mean -/

namespace Editor

/-- A text before and after a position: lines end at newlines, and a column is the number of UTF-16
units before it. -/
def Position.cut? (p : Position) (cs : List Char) : Option (List Char × List Char) :=
  let lines := Text.splitAt '\n' cs
  lines[p.line]?.map fun line =>
    let (front, back) := Text.cutAt16 p.character line
    (Text.joinWith ['\n'] (lines.take p.line ++ [front]),
      Text.joinWith ['\n'] (back :: lines.drop (p.line + 1)))

/-- The text with the range of an edit replaced. -/
def Edit.replace? (e : Edit) (cs : List Char) : Option (List Char) := do
  let (before, _) ← e.range.start.cut? cs
  let (_, after) ← e.range.stop.cut? cs
  return before ++ e.newText ++ after

/-- The text with edits carried out, the last one first, so that positions stay valid. -/
def applyEdits (edits : List Edit) (cs : List Char) : Option (List Char) :=
  edits.foldrM Edit.replace? cs

end Editor

namespace Text

theorem joinWith_append_joinWith (sep front back : List Char) (before after : List (List Char)) :
    joinWith sep (before ++ [front]) ++ joinWith sep (back :: after) =
      joinWith sep (before ++ (front ++ back) :: after) := by
  induction before with
  | nil =>
    rw [List.nil_append, List.nil_append, joinWith, joinWith, joinWith, List.intercalate_singleton]
    by_cases hafter : after = []
    · rw [hafter, List.intercalate_singleton, List.intercalate_singleton]
    · rw [List.intercalate_cons_of_ne_nil hafter, List.intercalate_cons_of_ne_nil hafter,
        List.append_assoc, List.append_assoc, List.append_assoc]
  | cons part before ih =>
    have hleft : before ++ [front] ≠ [] := by simp
    have hright : before ++ (front ++ back) :: after ≠ [] := by simp
    simp only [joinWith] at ih ⊢
    rw [List.cons_append, List.cons_append, List.intercalate_cons_of_ne_nil hleft,
      List.intercalate_cons_of_ne_nil hright, List.append_assoc, ih]

end Text

namespace Editor

variable {cs : List Char}

/-- **A position cuts a text and loses nothing.** -/
theorem append_of_cut? {p : Position} {before after : List Char}
    (h : p.cut? cs = some (before, after)) : before ++ after = cs := by
  obtain ⟨line, hline, hcut⟩ := Option.map_eq_some_iff.mp h
  obtain ⟨hlt, hget⟩ := List.getElem?_eq_some_iff.mp hline
  have hparts := Prod.mk.inj hcut
  rw [← hparts.1, ← hparts.2, Text.joinWith_append_joinWith, Text.cutAt16_append, ← hget,
    List.getElem_cons_drop, List.take_append_drop, Text.joinWith, Text.splitAt_eq_splitOn,
    List.intercalate_splitOn]

theorem cut?_start (cs : List Char) : (⟨0, 0⟩ : Position).cut? cs = some ([], cs) := by
  obtain ⟨line, lines, hlines⟩ : ∃ line lines, Text.splitAt '\n' cs = line :: lines := by
    rw [Text.splitAt_eq_splitOn]
    exact List.exists_cons_of_ne_nil (List.splitOn_ne_nil '\n' cs)
  obtain ⟨after, hcut⟩ : ∃ after, (⟨0, 0⟩ : Position).cut? cs = some ([], after) := by
    rw [Position.cut?, hlines]
    simp [Text.cutAt16, Text.joinWith]
  rw [hcut, ← append_of_cut? hcut, List.nil_append]

/-- **The end position is behind the whole text.** -/
theorem cut?_endPosition (cs : List Char) : (endPosition cs).cut? cs = some (cs, []) := by
  obtain ⟨front, last, hlines⟩ : ∃ front last, Text.splitAt '\n' cs = front ++ [last] := by
    rw [Text.splitAt_eq_splitOn]
    obtain ⟨front, last, hlines⟩ :=
      ((cs.splitOn '\n').eq_nil_or_concat).resolve_left (List.splitOn_ne_nil '\n' cs)
    exact ⟨front, last, hlines.trans (List.concat_eq_append)⟩
  have hcount : front.length = Text.newlineCount cs := by
    have hlength := Text.length_splitOn cs
    rw [← Text.splitAt_eq_splitOn, hlines, List.length_append, List.length_singleton] at hlength
    omega
  have hend : endPosition cs = ⟨front.length, Text.width16 last⟩ := by
    rw [endPosition, hcount, hlines, List.getLast?_concat]
    rfl
  obtain ⟨before, hcut⟩ : ∃ before, (endPosition cs).cut? cs = some (before, []) := by
    refine ⟨Text.joinWith ['\n'] (front ++ [last]), ?_⟩
    rw [hend, Position.cut?, hlines]
    simp [Text.cutAt16_width16, Text.joinWith]
  rw [hcut, ← append_of_cut? hcut, List.append_nil]

theorem replace?_whole (cs text : List Char) :
    Edit.replace? ⟨⟨⟨0, 0⟩, endPosition cs⟩, text⟩ cs = some text := by
  rw [Edit.replace?, cut?_start, cut?_endPosition]
  simp

end Editor

/-! ### Formatting the files of a project -/

namespace Project

/-- What formatting some files and then some others comes to. -/
def Formatting.append (f g : Formatting) : Formatting :=
  ⟨f.updates ++ g.updates, f.unchanged + g.unchanged⟩

section Files

variable {t : FileTree} {limit : Nat} {printer : Layout.Printer} {o : Layout.ReflowOptions}

theorem addFile_append (path : Path) (current formatted : List Char) (f g : Formatting) :
    (f.append g).addFile path current formatted =
      (f.addFile path current formatted).append g := by
  rw [Formatting.addFile, Formatting.addFile]
  split
  · rw [Formatting.append, Formatting.append, Nat.add_right_comm]
  · rfl

/-- **The files of a project are formatted one by one**, and the first that fails is the result. -/
theorem formatFiles_append (before after : List Path) :
    formatFiles t limit printer o (before ++ after) = (do
      let f ← formatFiles t limit printer o before
      let g ← formatFiles t limit printer o after
      return f.append g) := by
  induction before with
  | nil =>
    rw [List.nil_append]
    show _ = (formatFiles t limit printer o after).map (Formatting.append .empty)
    cases formatFiles t limit printer o after with
    | error e => rfl
    | ok g =>
      show Except.ok g = .ok (Formatting.empty.append g)
      rw [Formatting.append, Formatting.empty, Nat.zero_add]
      rfl
  | cons path before ih =>
    rw [List.cons_append, formatFiles, formatFiles, ih]
    cases readTemplate t limit path with
    | error e => rfl
    | ok cs? =>
      cases cs? with
      | none => rfl
      | some cs =>
        show (formatText printer o cs >>= fun formatted => _) =
          ((formatText printer o cs >>= fun formatted => _) >>= _)
        cases formatText printer o cs with
        | error e => rfl
        | ok formatted =>
          cases formatFiles t limit printer o before with
          | error e => rfl
          | ok f =>
            cases formatFiles t limit printer o after with
            | error e => rfl
            | ok g => exact congrArg Except.ok (addFile_append path cs formatted f g)

theorem formatFiles_singleton {path : Path} {cs : List Char}
    (hread : t.read? path = some (.text cs)) (hsize : Text.width8 cs ≤ limit) :
    formatFiles t limit printer o [path] =
      (formatText printer o cs).map fun formatted => Formatting.empty.addFile path cs formatted := by
  have htemplate : readTemplate t limit path = .ok (some cs) := by
    have hlimit : ¬ limit < (Content.text cs).size := Nat.not_lt.mpr hsize
    rw [readTemplate_of_read? hread, if_neg hlimit]
    rfl
  rw [formatFiles, htemplate]
  show (formatText printer o cs >>= fun formatted => _) = _
  cases formatText printer o cs <;> rfl

end Files

/-- Formatting a project formats each of its files that is text and small enough. -/
theorem format_of_mem {run : Path → String → Layout.Printer} {t : FileTree} {p : Project}
    {before after : List Path} {path : Path} {printer : Layout.Printer} {f g : Formatting}
    {cs : List Char} (hfiles : p.files = before ++ path :: after)
    (hprinter : p.config.printer (run p.root) = .ok printer)
    (hread : t.read? path = some (.text cs))
    (hsize : Text.width8 cs ≤ p.config.files.maxFileSize)
    (hbefore : (p.withFiles before).format run t = .ok f)
    (hafter : (p.withFiles after).format run t = .ok g) :
    p.format run t = (formatText printer p.config.reflowOptions cs).map fun formatted =>
      (f.append (Formatting.empty.addFile path cs formatted)).append g := by
  have hformat : ∀ files, (p.withFiles files).format run t =
      formatFiles t p.config.files.maxFileSize printer p.config.reflowOptions files := by
    intro files
    show (p.config.printer (run p.root) >>= _) = _
    rw [hprinter]
    rfl
  have hself : p.format run t = (p.withFiles p.files).format run t := rfl
  rw [hformat] at hbefore hafter
  rw [hself, hformat, hfiles, List.append_cons, formatFiles_append, formatFiles_append, hbefore,
    hafter, formatFiles_singleton hread hsize]
  cases formatText printer p.config.reflowOptions cs <;> rfl

end Project

namespace Editor

open Project (Formatting)

variable {cs : List Char}

/-- The edits that replace a text by another: none if it stays as it is. -/
def replacing (cs text : List Char) : List Edit :=
  if text = cs then [] else [⟨⟨⟨0, 0⟩, endPosition cs⟩, text⟩]

theorem replacing_eq_nil_iff {text : List Char} : replacing cs text = [] ↔ text = cs := by
  rw [replacing]
  split <;> simp [*]

theorem length_replacing_le (cs text : List Char) : (replacing cs text).length ≤ 1 := by
  rw [replacing]
  split <;> simp

theorem applyEdits_replacing (cs text : List Char) :
    applyEdits (replacing cs text) cs = some text := by
  rw [replacing]
  split
  · next hsame => rw [hsame]; rfl
  · rw [applyEdits, List.foldrM_cons, List.foldrM_nil, pure_bind, replace?_whole]

/-- An editor replaces a text by what formatting makes of it. -/
theorem formatEdits_eq (printer : Layout.Printer) (o : Layout.ReflowOptions) (cs : List Char) :
    formatEdits printer o cs = (Project.formatText printer o cs).map (replacing cs) := by
  rw [formatEdits]
  cases Project.formatText printer o cs <;> rfl

/-- **An editor makes of a text what formatting the project makes of its file.**  It fails when
formatting fails on the file because of the printer or a placeholder, and with the same failure.
Otherwise its edits, at most one, give the formatted text; they are none exactly when formatting
counts the file as unchanged, and else it stores that text for the file.  The file has to be within
the limit for files; an editor has none. -/
theorem formatEdits_spec {run : Path → String → Layout.Printer} {t : FileTree} {p : Project}
    {before after : List Path} {path : Path} {printer : Layout.Printer} {f g : Formatting}
    (hfiles : p.files = before ++ path :: after)
    (hprinter : p.config.printer (run p.root) = .ok printer)
    (hread : t.read? path = some (.text cs))
    (hsize : Text.width8 cs ≤ p.config.files.maxFileSize)
    (hbefore : (p.withFiles before).format run t = .ok f)
    (hafter : (p.withFiles after).format run t = .ok g) :
    (∀ e, formatEdits printer p.config.reflowOptions cs = .error e ↔
      p.format run t = .error e) ∧
    ((∃ e, formatEdits printer p.config.reflowOptions cs = .error e) ↔
      (∃ e, printer p.config.reflowOptions.printer
        (Layout.protect (Text.unifyNewlines cs)).text = .error e) ∨
      ∃ printed e, printer p.config.reflowOptions.printer
        (Layout.protect (Text.unifyNewlines cs)).text = .ok printed ∧
          (Layout.protect (Text.unifyNewlines cs)).restore printed = .error e) ∧
    ∀ edits, formatEdits printer p.config.reflowOptions cs = .ok edits → ∃ formatted,
      Layout.reformat printer p.config.reflowOptions (Text.unifyNewlines cs) = .ok formatted ∧
      applyEdits edits cs = some formatted ∧ edits.length ≤ 1 ∧
      (edits = [] ↔ p.format run t = .ok ((f.append ⟨[], 1⟩).append g)) ∧
      (edits ≠ [] →
        p.format run t = .ok ((f.append ⟨[⟨path, cs, formatted⟩], 0⟩).append g)) := by
  rw [Project.format_of_mem hfiles hprinter hread hsize hbefore hafter, formatEdits_eq,
    ← Project.formatText_error_iff]
  cases hformat : Project.formatText printer p.config.reflowOptions cs with
  | error e =>
    refine ⟨fun e' => by simp [Except.map], by simp [Except.map], fun edits hedits => ?_⟩
    exact absurd hedits (by simp [Except.map])
  | ok formatted =>
    refine ⟨fun e => by simp [Except.map], by simp [Except.map], fun edits hedits => ?_⟩
    obtain rfl : replacing cs formatted = edits := Except.ok.inj hedits
    refine ⟨formatted, hformat, applyEdits_replacing cs formatted,
      length_replacing_le cs formatted, ?_⟩
    rw [ne_eq, replacing_eq_nil_iff, Except.map, Formatting.addFile]
    by_cases hsame : formatted = cs
    · rw [if_pos hsame]
      exact ⟨iff_of_true hsame rfl, fun hne => absurd hsame hne⟩
    · rw [if_neg hsame]
      refine ⟨iff_of_false hsame fun hcount => ?_, fun _ => rfl⟩
      have hunchanged := congrArg Formatting.unchanged (Except.ok.inj hcount)
      simp [Formatting.append, Formatting.empty] at hunchanged

/-- A text with a carriage return, a character of two units and no newline at its end, formatted in
an editor and on disk. -/
theorem formatEdits_astral :
    ∃ (t : FileTree) (p : Project), t = ⟨[(["a.twig"], .file (.text "a\r\n𝄞".toList))], []⟩ ∧
      p = ⟨.here, .standard, [⟨[".", "a.twig"]⟩]⟩ ∧
      formatEdits .builtin Config.standard.reflowOptions "a\r\n𝄞".toList =
        .ok [⟨⟨⟨0, 0⟩, ⟨1, 2⟩⟩, "a\n𝄞\n".toList⟩] ∧
      p.format (fun _ _ => .builtin) t =
        .ok ⟨[⟨⟨[".", "a.twig"]⟩, "a\r\n𝄞".toList, "a\n𝄞\n".toList⟩], 0⟩ := by
  refine ⟨_, _, rfl, rfl, ?_⟩
  generalize ht : (⟨[(["a.twig"], .file (.text "a\r\n𝄞".toList))], []⟩ : FileTree) = t
  generalize hp : (⟨.here, .standard, [⟨[".", "a.twig"]⟩]⟩ : Project) = p
  have hread : t.read? ⟨[".", "a.twig"]⟩ = some (.text "a\r\n𝄞".toList) := by
    subst ht
    decide +kernel
  have hconfig : p.config = .standard := by rw [← hp]
  have hfiles : p.files = [] ++ ⟨[".", "a.twig"]⟩ :: [] := by rw [← hp]; rfl
  have hprinter : p.config.printer ((fun _ _ => .builtin) p.root) = .ok .builtin := by
    rw [hconfig]
    rfl
  have hsize : Text.width8 "a\r\n𝄞".toList ≤ p.config.files.maxFileSize := by
    rw [hconfig]
    decide
  have hnone : (p.withFiles []).format (fun _ _ => .builtin) t = .ok .empty := by
    rw [← hp]
    rfl
  have hedits : formatEdits .builtin p.config.reflowOptions "a\r\n𝄞".toList =
      .ok [⟨⟨⟨0, 0⟩, ⟨1, 2⟩⟩, "a\n𝄞\n".toList⟩] := by
    rw [hconfig]
    decide +kernel
  have happlied : applyEdits [⟨⟨⟨0, 0⟩, ⟨1, 2⟩⟩, "a\n𝄞\n".toList⟩] "a\r\n𝄞".toList =
      some "a\n𝄞\n".toList := by
    decide
  obtain ⟨formatted, -, happly, -, -, hformat⟩ :=
    (formatEdits_spec hfiles hprinter hread hsize hnone hnone).2.2 _ hedits
  obtain rfl := Option.some.inj (happlied.symm.trans happly)
  exact ⟨hconfig ▸ hedits, hformat (by simp)⟩

/-- A file over the limit is refused by the project and formatted by an editor. -/
theorem formatEdits_over_limit :
    ∃ (t : FileTree) (p : Project), t = ⟨[(["a.twig"], .file (.text "a\n".toList))], []⟩ ∧
      p = ⟨.here, { Config.standard with files := ⟨["twig"], 1⟩ }, [Path.here.child "a.twig"]⟩ ∧
      formatEdits .builtin p.config.reflowOptions "a\n".toList = .ok [] ∧
      p.format (fun _ _ => .builtin) t = .error (.fileTooLarge "./a.twig" 2 1) := by
  refine ⟨_, _, rfl, rfl, ?_, ?_⟩
  · decide +kernel
  · decide +kernel

end Editor

end TwigTemplate
