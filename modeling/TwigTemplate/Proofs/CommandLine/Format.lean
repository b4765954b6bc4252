import TwigTemplate.CommandLine.Run
import TwigTemplate.Libraries.Standard
import TwigTemplate.Proofs.Project.Collecting
import TwigTemplate.Proofs.Project.Formatting

/-!
# Formatting from the command line

An invocation of `format` scans the project, works out every update, and only then shows the
updates or writes them.

* `Refused`: what keeps an invocation from going that far.
* `format_cases`: **an invocation is refused, or its updates are shown or written**.
* `format_allOrNothing`: **it changes no file, or formats all that it lists**.
-/

namespace TwigTemplate.CommandLine

open Project (Formatted Rejected Written update? writeUpdates)

/-- What keeps the listed files from being formatted: the project cannot be scanned, its printer
is unknown, or one of the files is rejected. -/
inductive Refused [Libraries] (run : Runner) (t : FileTree) (i : Invocation) (files : List String) :
    Prop
  | scan (f : Failure) (h : Project.scan t (rootOf t i) = .error f)
  | printer (p : Project) (f : Failure) (hscan : Project.scan t (rootOf t i) = .ok p)
      (h : p.config.printer (run t p.root) = .error f)
  | file (p : Project) (printer : Layout.Printer) (path : Path)
      (hscan : Project.scan t (rootOf t i) = .ok p)
      (hprinter : p.config.printer (run t p.root) = .ok printer)
      (hpath : path ∈ (projectOf (rootOf t i) p files).files)
      (h : Rejected t p.config.files.maxFileSize printer p.config.reflowOptions path)

theorem Refused.exists_rejected [Libraries] {run : Runner} {t : FileTree} {i : Invocation}
    {files : List String} {p : Project} {printer : Layout.Printer}
    (h : Refused run t i files) (hscan : Project.scan t (rootOf t i) = .ok p)
    (hprinter : p.config.printer (run t p.root) = .ok printer) :
    ∃ path ∈ (projectOf (rootOf t i) p files).files,
      Rejected t p.config.files.maxFileSize printer p.config.reflowOptions path := by
  cases h with
  | scan f hfail => exact absurd (hscan.symm.trans hfail) (by simp)
  | printer q f hq hfail =>
    obtain rfl := Except.ok.inj (hscan.symm.trans hq)
    exact absurd (hprinter.symm.trans hfail) (by simp)
  | file q other path hq hother hpath hrejected =>
    obtain rfl := Except.ok.inj (hscan.symm.trans hq)
    obtain rfl := Except.ok.inj (hprinter.symm.trans hother)
    exact ⟨path, hpath, hrejected⟩

section Format

variable (run : Runner) (t : FileTree) (i : Invocation) (files : List String)

theorem config_projectOf (root : Path) (p : Project) (files : List String) :
    (projectOf root p files).config = p.config ∧ (projectOf root p files).root = p.root := by
  rw [projectOf]
  split <;> exact ⟨rfl, rfl⟩

theorem format_of_scan [Libraries] {p : Project} (h : Project.scan t (rootOf t i) = .ok p) :
    ∃ lines, ∀ check diff, format run t i files check diff =
      Outcome.after lines (match (projectOf (rootOf t i) p files).format (run t) t with
        | .error f => .fail t (.failure f)
        | .ok f => if check || diff then preview t (rootOf t i) diff f
          else writeBack t i (rootOf t i) f) := by
  have hproject : ∀ next, withProject t i files next =
      (next (rootOf t i) (projectOf (rootOf t i) p files)).after (if i.verbose then
        ["Scanned project: " ++ toString p.files.length ++ " template file(s)"] else []) :=
    fun next => by
      rw [withProject]
      simp only [h]
  exact ⟨_, fun check diff => hproject _⟩

/-- **An invocation is refused, or its updates are shown or written.** -/
theorem format_cases [Libraries] :
    (Refused run t i files ∧ ∀ check diff, (format run t i files check diff).status = 2 ∧
      (format run t i files check diff).tree = t) ∨
    (¬ Refused run t i files ∧ ∃ p printer f lines,
      Project.scan t (rootOf t i) = .ok p ∧ p.config.printer (run t p.root) = .ok printer ∧
      (∀ path ∈ (projectOf (rootOf t i) p files).files,
        ¬ Rejected t p.config.files.maxFileSize printer p.config.reflowOptions path) ∧
      f.updates = (projectOf (rootOf t i) p files).files.filterMap
        (update? t printer p.config.reflowOptions) ∧
      ∀ check diff, format run t i files check diff = Outcome.after lines
        (if check || diff then preview t (rootOf t i) diff f
          else writeBack t i (rootOf t i) f)) := by
  cases hscan : Project.scan t (rootOf t i) with
  | error f =>
    refine Or.inl ⟨.scan f hscan, fun check diff => ?_⟩
    rw [format, withProject]
    simp only [hscan]
    exact ⟨rfl, rfl⟩
  | ok p =>
    obtain ⟨lines, hformat⟩ := format_of_scan run t i files hscan
    obtain ⟨hconfig, hroot⟩ := config_projectOf (rootOf t i) p files
    rw [Project.format, hconfig, hroot] at hformat
    cases hprinter : p.config.printer (run t p.root) with
    | error f =>
      refine Or.inl ⟨.printer p f hscan hprinter, fun check diff => ?_⟩
      rw [hformat, hprinter]
      exact ⟨rfl, rfl⟩
    | ok printer =>
      have hbind : ∀ g : Layout.Printer → Except Failure Project.Formatting,
          (Except.ok printer >>= g) = g printer := fun _ => rfl
      rw [hprinter, hbind] at hformat
      rcases Project.formatFiles_cases t p.config.files.maxFileSize printer
        p.config.reflowOptions (projectOf (rootOf t i) p files).files with
        ⟨⟨path, hpath, hrejected⟩, f, hf⟩ | ⟨hkept, f, hf, hupdates⟩
      · refine Or.inl ⟨.file p printer path hscan hprinter hpath hrejected, fun check diff => ?_⟩
        rw [hformat, hf]
        exact ⟨rfl, rfl⟩
      · rw [hf] at hformat
        refine Or.inr ⟨fun hrefused => ?_, p, printer, f, lines, rfl, hprinter, hkept, hupdates,
          hformat⟩
        obtain ⟨path, hpath, hrejected⟩ := hrefused.exists_rejected hscan hprinter
        exact hkept path hpath hrejected

/-- Showing updates changes nothing, and says whether there are any. -/
theorem preview_spec (root : Path) (diff : Bool) (f : Project.Formatting) :
    (preview t root diff f).tree = t ∧
      ((preview t root diff f).status = 1 ↔ f.updates ≠ []) := by
  rw [preview, Project.Formatting.isClean]
  cases f.updates with
  | nil => exact ⟨rfl, by simp [Outcome.ok]⟩
  | cons u us => exact ⟨rfl, by simp⟩

theorem writeBack_of_writeUpdates (root : Path) {f : Project.Formatting} {s : FileTree}
    (h : writeUpdates t f.updates = (s, true)) :
    (writeBack t i root f).status = 0 ∧ (writeBack t i root f).tree = s := by
  rw [writeBack, Project.Formatting.isClean]
  split
  · next hempty =>
    rw [List.isEmpty_iff.mp hempty] at h
    exact ⟨rfl, (Prod.mk.inj h).1⟩
  · rw [h]
    exact ⟨rfl, rfl⟩

/-- Writing updates of files that can be read carries them out. -/
theorem writeBack_spec (root : Path) {f : Project.Formatting}
    (h : ∀ u ∈ f.updates, ∃ content, t.read? u.path = some content) :
    (writeBack t i root f).status = 0 ∧ Written t f.updates (writeBack t i root f).tree := by
  obtain ⟨s, hs, hwritten⟩ := Project.exists_writeUpdates h
  obtain ⟨hstatus, htree⟩ := writeBack_of_writeUpdates t i root hs
  exact ⟨hstatus, htree.symm ▸ hwritten⟩

/-- **All or nothing.**  An invocation of `format` changes no file with `--check` or `--diff`, and
none when it is refused, which ends it with status 2.  Otherwise it formats the files that it
lists and no others.  With `--check` its status is 1 exactly when it would change a file. -/
theorem format_allOrNothing [Libraries] (check diff : Bool) :
    let outcome := fun check diff =>
      ({ i with command := some (.format files check diff) } : Invocation).run run t
    ((check || diff) = true → (outcome check diff).tree = t) ∧
    (Refused run t i files → (outcome check diff).status = 2 ∧ (outcome check diff).tree = t) ∧
    (¬ Refused run t i files → (outcome false false).status = 0 ∧ ∃ p printer,
      Project.scan t (rootOf t i) = .ok p ∧ p.config.printer (run t p.root) = .ok printer ∧
      Formatted t (projectOf (rootOf t i) p files) printer (outcome false false).tree) ∧
    ((outcome true diff).status = 1 ↔
      ∃ place, (outcome false false).tree.node? place ≠ t.node? place) := by
  intro outcome
  have houtcome : ∀ check diff, outcome check diff = format run t i files check diff :=
    fun _ _ => rfl
  simp only [houtcome]
  rcases format_cases run t i files with ⟨hrefused, hfail⟩ |
    ⟨hgoes, p, printer, f, lines, hscan, hprinter, hkept, hupdates, hformat⟩
  · refine ⟨fun _ => (hfail check diff).2, fun _ => hfail check diff,
      fun hgoes => absurd hrefused hgoes, ?_⟩
    rw [(hfail true diff).1, (hfail false false).2]
    simp
  · obtain ⟨hconfig, -⟩ := config_projectOf (rootOf t i) p files
    rw [← hconfig] at hkept hupdates
    have hread : ∀ u ∈ f.updates, ∃ content, t.read? u.path = some content := fun u hu => by
      rw [hupdates] at hu
      obtain ⟨path, -, hu⟩ := List.mem_filterMap.mp hu
      obtain ⟨rfl, hread, -, -⟩ := Project.update?_eq_some_iff.mp hu
      exact ⟨_, hread⟩
    obtain ⟨hstatus, hwritten⟩ := writeBack_spec t i (rootOf t i) hread
    rw [hupdates] at hwritten
    have htree : (format run t i files false false).tree =
        (writeBack t i (rootOf t i) f).tree := by
      rw [hformat]
      rfl
    refine ⟨fun hdry => ?_, fun hrefused => absurd hrefused hgoes,
      fun _ => ⟨?_, p, printer, hscan, hprinter, ?_⟩, ?_⟩
    · rw [hformat, if_pos hdry]
      exact (preview_spec t (rootOf t i) diff f).1
    · rw [hformat]
      exact hstatus
    · rw [htree]
      exact hwritten.formatted hkept
    · rw [htree, hwritten.changes_iff, ← hupdates, hformat]
      exact (preview_spec t (rootOf t i) diff f).2

/-- A file that is named, and named again over a link, is formatted, and the link stays. -/
theorem format_over_link :
    ∃ t i, t = (⟨[(["a.twig"], .file (.text "\x7b\x7ba\x7d\x7d".toList)),
        (["b.twig"], .link ["a.twig"])], []⟩ : FileTree) ∧
      ¬ Refused run t i ["a.twig", "b.twig"] ∧
      (format run t i ["a.twig", "b.twig"] false false).tree.nodes =
        [(["a.twig"], .file (.text "\x7b\x7ba\x7d\x7d\n".toList)),
          (["b.twig"], .link ["a.twig"])] ∧
      (format run t i ["a.twig", "b.twig"] true true).status = 1 := by
  refine ⟨_, ⟨none, none, false, false⟩, rfl, ?_⟩
  generalize ht : (⟨[(["a.twig"], .file (.text "\x7b\x7ba\x7d\x7d".toList)),
    (["b.twig"], .link ["a.twig"])], []⟩ : FileTree) = t
  generalize hi : (⟨none, none, false, false⟩ : Invocation) = i
  generalize hpaths : ([⟨["", "a.twig"]⟩, ⟨["", "b.twig"]⟩] : List Path) = paths
  obtain ⟨after, hafter⟩ : ∃ after : FileTree,
      after = ⟨[(["a.twig"], .file (.text "\x7b\x7ba\x7d\x7d\n".toList)),
        (["b.twig"], .link ["a.twig"])], []⟩ := ⟨_, rfl⟩
  have hroot : rootOf t i = ⟨["", ""]⟩ := by
    subst ht hi
    rfl
  have hload : Config.load t ⟨["", ""]⟩ = .ok none := by
    subst ht
    decide +kernel
  obtain ⟨s, hs, hentries, hwants⟩ : ∃ s,
      Project.Selection.make t ⟨["", ""]⟩ (.ofConfig .standard) = .ok s ∧
      (t.directoryAt? ⟨["", ""]⟩ = some [] ∧ Project.Walk.entries t s [] ⟨["", ""]⟩ =
        [(⟨["", "a.twig"]⟩, false), (⟨["", "b.twig"]⟩, false)]) ∧
      s.wants ⟨["", "a.twig"]⟩ = true ∧ s.wants ⟨["", "b.twig"]⟩ = true := by
    subst ht
    exact ⟨_, rfl, by decide +kernel, by decide +kernel⟩
  have hdirectories : t.directories = [[]] := by
    subst ht
    rfl
  obtain ⟨p, hscan, hproject⟩ : ∃ p, Project.scan t (rootOf t i) = .ok p ∧
      projectOf (rootOf t i) p ["a.twig", "b.twig"] = ⟨⟨["", ""]⟩, .standard, paths⟩ := by
    refine ⟨⟨⟨["", ""]⟩, .standard, Path.sort paths⟩, ?_, ?_⟩
    · rw [hroot, Project.scan, hload]
      show (Project.collect t ⟨["", ""]⟩ (.ofConfig .standard) >>= _) = _
      rw [Project.collect_eq hs]
      simp [Project.Walk.run, Project.Walk.next, Project.Walk.found, hentries, hwants,
        hdirectories, ← hpaths, bind, Except.bind, pure, Except.pure, Except.map]
    · rw [hroot, ← hpaths]
      decide +kernel
  obtain ⟨f, hformat, hwrite⟩ : ∃ f,
      Project.format (run t) t ⟨⟨["", ""]⟩, .standard, paths⟩ = .ok f ∧
      writeUpdates t f.updates = (after, true) := by
    refine ⟨⟨paths.map (⟨·, "\x7b\x7ba\x7d\x7d".toList, "\x7b\x7ba\x7d\x7d\n".toList⟩), 0⟩, ?_, ?_⟩
    · show Project.formatFiles t Config.standard.files.maxFileSize .builtin
        Config.standard.reflowOptions paths = _
      subst ht hpaths
      decide +kernel
    · subst ht hpaths hafter
      decide +kernel
  obtain ⟨lines, hformats⟩ := format_of_scan run t i ["a.twig", "b.twig"] hscan
  rw [hproject, hformat] at hformats
  obtain ⟨hstatus, htree⟩ : (format run t i ["a.twig", "b.twig"] false false).status = 0 ∧
      (format run t i ["a.twig", "b.twig"] false false).tree = after := by
    rw [hformats]
    exact writeBack_of_writeUpdates t i (rootOf t i) hwrite
  refine ⟨fun h => ?_, htree ▸ congrArg FileTree.nodes hafter,
    (format_allOrNothing run t i ["a.twig", "b.twig"] true true).2.2.2.mpr
      ⟨["a.twig"], fun hsame => ?_⟩⟩
  · have hfail := (format_allOrNothing run t i ["a.twig", "b.twig"] false false).2.1 h
    exact absurd (hstatus.symm.trans hfail.1) (by decide)
  · have hnode := (congrArg (·.node? ["a.twig"]) htree).symm.trans hsame
    subst ht hafter
    exact absurd hnode (by decide +kernel)

end Format

end TwigTemplate.CommandLine
