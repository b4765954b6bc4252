import TwigTemplate.Proofs.Project.Collecting

/-!
# Projects inside a project

A directory with a configuration of its own is a project of its own, and a scan of the project
around it is to leave its files alone.  The walk goes into such a directory only from the root.

* `LiesIn`: a file lies in or below a directory below the root.
* `SetApart`: **no file lies in or below a project inside the project**.
* `Walk.Reaches.length_le_one`: on the way of a walk, only the first directory can be a project.
* `setApart_iff`: **the files of a scan are set apart exactly when no project lies directly in the
  root with files that are selected**.
* `collect_project_in_root`: the files of a project directly in the root are collected.
-/

namespace TwigTemplate.Project

open Walk
open FileTree (WellFormed)

variable {t : FileTree} {s : Selection} {root : Path} {o : ScanOptions}

/-- The directory lies below the root, at any depth, and the file lies in it or below it. -/
def LiesIn (root dir path : Path) : Prop :=
  ∃ above names, (∀ name ∈ above ++ names, Path.IsName name) ∧ above ≠ [] ∧ names ≠ [] ∧
    dir = root.descend above ∧ path = dir.descend names

/-- No file lies in or below a directory, other than the root, that holds a configuration. -/
def SetApart (t : FileTree) (root : Path) (files : List Path) : Prop :=
  ∀ path ∈ files, ∀ dir, LiesIn root dir path → ¬ HoldsConfig t dir

/-- On the way of a walk only the first directory below the root can hold a configuration. -/
theorem Walk.Reaches.length_le_one (ht : t.WellFormed) {dir : Path} (h : Reaches t s dir)
    {above names : List String} (hnames : ∀ name ∈ above ++ names, Path.IsName name)
    (hdir : dir = s.root.descend (above ++ names))
    (hconfig : HoldsConfig t (s.root.descend above)) : above.length ≤ 1 := by
  induction h generalizing names with
  | root hroot =>
    have hnil : [] = above ++ names :=
      Path.descend_inj (by simp) hnames (congrArg Path.components hdir)
    rw [(List.append_eq_nil_iff.mp hnil.symm).1]
    exact Nat.zero_le 1
  | @entry dir place name h hplace hname hinto ih =>
    obtain ⟨before, hbefore, rfl⟩ := h.exists_names ht
    have hall : ∀ n ∈ before ++ [name], Path.IsName n := fun n hn =>
      (List.mem_append.mp hn).elim (hbefore n) fun hn =>
        List.mem_singleton.mp hn ▸ ht.isName hname
    rw [← Path.descend_concat] at hdir
    have hsplit : before ++ [name] = above ++ names :=
      Path.descend_inj hall hnames (congrArg Path.components hdir)
    rcases names.eq_nil_or_concat with rfl | ⟨front, last, rfl⟩
    · -- The entry itself holds the configuration, so it lies directly in the root.
      rw [List.append_nil] at hsplit
      rw [← hsplit, Path.descend_concat] at hconfig
      have hbeforeRoot : before = [] := by
        have hroot := hinto.own hconfig
        exact Path.descend_inj hbefore (by simp) (congrArg Path.components hroot)
      rw [← hsplit, hbeforeRoot]
      exact Nat.le_refl 1
    · rw [List.concat_eq_append, ← List.append_assoc] at hsplit
      have hfront := (List.append_inj' hsplit rfl).1
      have habove : ∀ n ∈ above ++ front, Path.IsName n := hfront ▸ hbefore
      exact ih habove (by rw [hfront])

theorem exists_child_of_liesIn (ht : t.WellFormed) {dir path : Path} (hpath : Selected t s path)
    (hin : LiesIn s.root dir path) (hconfig : HoldsConfig t dir) :
    ∃ name, dir = s.root.child name := by
  obtain ⟨above, names, hnames, habove, hne, rfl, rfl⟩ := hin
  obtain ⟨dir, place, name, hdir, hplace, hname, hchild, -⟩ := hpath
  obtain ⟨before, hbefore, rfl⟩ := hdir.exists_names ht
  obtain ⟨front, last, rfl⟩ := names.eq_nil_or_concat.resolve_left hne
  rw [List.concat_eq_append] at hnames hchild
  have hsplit : before ++ [name] = above ++ front ++ [last] := by
    refine Path.descend_inj (fun n hn => ?_) (by rwa [List.append_assoc]) (p := s.root) ?_
    · exact (List.mem_append.mp hn).elim (hbefore n) fun hn =>
        List.mem_singleton.mp hn ▸ ht.isName hname
    · rw [List.append_assoc, Path.descend_append _ above, hchild, Path.descend_concat]
  have hfront := (List.append_inj' hsplit rfl).1
  have hlength := hdir.length_le_one ht (hfront ▸ hbefore) (by rw [hfront]) hconfig
  obtain ⟨name, rest, rfl⟩ := List.exists_cons_of_ne_nil habove
  rw [List.length_cons] at hlength
  obtain rfl : rest = [] := List.length_eq_zero_iff.mp (by omega)
  exact ⟨name, rfl⟩

/-- **The files of a scan are set apart** from the projects inside the project exactly when no
project lies directly in the root and has files that are selected in it or below it. -/
theorem setApart_iff [Libraries] (ht : t.WellFormed) (hs : Selection.make t root o = .ok s)
    {files : List Path} (hfiles : collect t root o = .ok files) : SetApart t root files ↔
      ∀ name, HoldsConfig t (root.child name) →
        ∀ path, Selected t s path → ¬ LiesIn root (root.child name) path := by
  obtain rfl := root_of_make hs
  constructor
  · intro hapart name hconfig path hpath hin
    exact hapart path ((mem_collect ht hs hfiles path).mpr hpath) _ hin hconfig
  · intro hroot path hmem dir hin hconfig
    have hpath := (mem_collect ht hs hfiles path).mp hmem
    obtain ⟨name, rfl⟩ := exists_child_of_liesIn ht hpath hin hconfig
    exact hroot name hconfig path hpath hin

/-- A project two directories below the root is left to itself. -/
theorem setApart_deep :
    ∃ t, t = (⟨[(["a"], .directory), (["a", "b"], .directory),
        (["a", "b", "twigkit.toml"], .file (.text [])), (["a", "b", "c.twig"], .file (.text [])),
        (["a", "d.twig"], .file (.text []))], []⟩ : FileTree) ∧
      collect t .here .standard = .ok [⟨[".", "a", "d.twig"]⟩] ∧
      HoldsConfig t ⟨[".", "a", "b"]⟩ ∧ SetApart t .here [⟨[".", "a", "d.twig"]⟩] := by
  refine ⟨_, rfl, ?_⟩
  generalize ht : (⟨[(["a"], .directory), (["a", "b"], .directory),
    (["a", "b", "twigkit.toml"], .file (.text [])), (["a", "b", "c.twig"], .file (.text [])),
    (["a", "d.twig"], .file (.text []))], []⟩ : FileTree) = t
  have hwell : t.WellFormed := by
    subst ht
    exact ⟨by decide, by decide⟩
  obtain ⟨s, hs, hroot, ha, hwants⟩ : ∃ s, Selection.make t .here .standard = .ok s ∧
      (t.directoryAt? .here = some [] ∧ entries t s [] .here = [(⟨[".", "a"]⟩, true)]) ∧
      (t.directoryAt? ⟨[".", "a"]⟩ = some ["a"] ∧ entries t s ["a"] ⟨[".", "a"]⟩ =
        [(⟨[".", "a", "b"]⟩, true), (⟨[".", "a", "d.twig"]⟩, false)]) ∧
      s.wants ⟨[".", "a", "d.twig"]⟩ = true := by
    subst ht
    exact ⟨_, rfl, by decide +kernel, by decide +kernel, by decide +kernel⟩
  have hdirectories : t.directories = [[], ["a"], ["a", "b"]] := by
    subst ht
    rfl
  have hconfig : HoldsConfig t ⟨[".", "a", "b"]⟩ := by
    refine ⟨["twigkit.toml"], by decide, ?_⟩
    subst ht
    decide +kernel
  have hnone : Config.find? t ⟨[".", "a"]⟩ = none := by
    subst ht
    decide +kernel
  have hfiles : collect t .here .standard = .ok [⟨[".", "a", "d.twig"]⟩] := by
    have hown : Config.find? t ⟨[".", "a", "b"]⟩ ≠ none := fun h =>
      (find?_isNone_iff _).mp (Option.isNone_iff_eq_none.mpr h) hconfig
    rw [collect_eq hs]
    simp [Walk.run, next, found, hroot, ha, hwants, hown, hdirectories, bind, Except.bind, pure,
      Except.pure, Except.map, Path.sort]
  refine ⟨hfiles, hconfig, (setApart_iff hwell hs hfiles).mpr ?_⟩
  intro name hown path hpath hin
  obtain rfl := List.mem_singleton.mp ((mem_collect hwell hs hfiles path).mpr hpath)
  obtain ⟨above, names, hnames, habove, hne, hdir, hpath⟩ := hin
  rw [hdir, ← Path.descend_append] at hpath
  have hsplit : ["a", "d.twig"] = above ++ names :=
    Path.descend_inj (p := .here) (by decide) hnames (congrArg Path.components hpath)
  -- The only directory between the root and the file is `a`, and it holds no configuration.
  obtain ⟨first, rest, rfl⟩ := List.exists_cons_of_ne_nil habove
  obtain ⟨hfirst, hrest⟩ := List.cons.inj hsplit
  have hlength : 1 = (rest ++ names).length := congrArg List.length hrest
  have hpos := List.length_pos_of_ne_nil hne
  rw [List.length_append] at hlength
  obtain rfl : rest = [] := List.length_eq_zero_iff.mp (by omega)
  rw [hdir, ← hfirst] at hown
  exact (find?_isNone_iff _).mp (Option.isNone_iff_eq_none.mpr hnone) hown

/-- The files of a project that lies directly in the root are collected. -/
theorem collect_project_in_root :
    ∃ t, t = (⟨[(["sub"], .directory), (["sub", "twigkit.toml"], .file (.text [])),
        (["sub", "a.twig"], .file (.text ['x']))], []⟩ : FileTree) ∧
      t.WellFormed ∧ collect t .here .standard = .ok [⟨[".", "sub", "a.twig"]⟩] ∧
      ¬ SetApart t .here [⟨[".", "sub", "a.twig"]⟩] := by
  refine ⟨_, rfl, ⟨by decide, by decide⟩, ?_⟩
  generalize ht : (⟨[(["sub"], .directory), (["sub", "twigkit.toml"], .file (.text [])),
    (["sub", "a.twig"], .file (.text ['x']))], []⟩ : FileTree) = t
  obtain ⟨s, hs, hroot, hsub, hwants⟩ : ∃ s, Selection.make t .here .standard = .ok s ∧
      (t.directoryAt? .here = some [] ∧ entries t s [] .here = [(⟨[".", "sub"]⟩, true)]) ∧
      (t.directoryAt? ⟨[".", "sub"]⟩ = some ["sub"] ∧ entries t s ["sub"] ⟨[".", "sub"]⟩ =
        [(⟨[".", "sub", "twigkit.toml"]⟩, false), (⟨[".", "sub", "a.twig"]⟩, false)]) ∧
      s.wants ⟨[".", "sub", "twigkit.toml"]⟩ = false ∧
      s.wants ⟨[".", "sub", "a.twig"]⟩ = true := by
    subst ht
    exact ⟨_, rfl, by decide +kernel, by decide +kernel, by decide +kernel⟩
  have hdirectories : t.directories = [[], ["sub"]] := by
    subst ht
    rfl
  have hcollect : collect t .here .standard = .ok [⟨[".", "sub", "a.twig"]⟩] := by
    rw [collect_eq hs]
    simp [Walk.run, next, found, hroot, hsub, hwants, hdirectories, bind, Except.bind, pure,
      Except.pure, Except.map, Path.sort]
  have hconfig : HoldsConfig t ⟨[".", "sub"]⟩ := by
    refine ⟨["twigkit.toml"], by decide, ?_⟩
    subst ht
    decide +kernel
  have hin : LiesIn .here ⟨[".", "sub"]⟩ ⟨[".", "sub", "a.twig"]⟩ :=
    ⟨["sub"], ["a.twig"], by decide, by simp, by simp, rfl, rfl⟩
  exact ⟨hcollect, fun hapart => hapart _ List.mem_cons_self _ hin hconfig⟩

end TwigTemplate.Project
