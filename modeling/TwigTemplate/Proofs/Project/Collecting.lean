import Mathlib.Data.List.Perm.Subperm
import TwigTemplate.Libraries.Standard
import TwigTemplate.Proofs.Project.Walk

/-!
# What a scan collects

A scan ends well exactly when no directory is come to by two paths.  It then lists the wanted files
in the directories that the walk comes to, each once and in order.  All of this is said without the
walk, so none of it depends on the order in which directories list their entries.

* `exists_mem_entered`: a walk that ends well has entered what it comes to.
* `collect_ok_iff`: **a scan ends well exactly when each directory is come to by one path**.
* `mem_collect`, `pairwise_collect`: **its files are those that are selected, strictly in order**.
* `selected_reordered`: what is selected does not depend on the order of entries.
* `collect_spec`: **a scan ends, reads a directory at most once, and gives the same in any order**.
-/

namespace TwigTemplate.Project

open Walk
open FileTree (Reordered WellFormed)

variable {t u : FileTree} {s : Selection} {root : Path} {o : ScanOptions}

/-! ### A scan and its walk -/

theorem root_of_make [Libraries] (hs : Selection.make t root o = .ok s) : s.root = root := by
  rw [Selection.make] at hs
  cases hexcluded : Selection.readExcluded root o.excluded with
  | error f =>
    rw [hexcluded] at hs
    exact absurd hs (by simp [bind, Except.bind])
  | ok excluded =>
    rw [hexcluded] at hs
    rw [← Except.ok.inj hs]

/-- A scan gives the files of its walk in order. -/
theorem collect_eq [Libraries] (hs : Selection.make t root o = .ok s) :
    collect t root o = (Walk.run t s [] [⟨root, true⟩]).map Path.sort := by
  rw [collect, hs]
  show (Walk.run t s [] [⟨root, true⟩] >>= fun files => .ok (Path.sort files)) = _
  cases Walk.run t s [] [⟨root, true⟩] <;> rfl

theorem exists_collect [Libraries] (hs : Selection.make t root o = .ok s) : ∃ entered failure,
    Enters t s [] [⟨s.root, true⟩] entered failure ∧
      collect t root o = (outcome t s entered failure).map Path.sort := by
  obtain ⟨entered, failure, h, hrun⟩ := exists_enters t s [] [⟨s.root, true⟩]
  exact ⟨entered, failure, h, by rw [← hrun, root_of_make hs, collect_eq hs]⟩

section Entered

variable {entered : List (Location × Visit)} {failure : Option Failure}

theorem due_of_mem (ht : t.WellFormed) (h : Enters t s [] [⟨s.root, true⟩] entered failure)
    {e : Location × Visit} (he : e ∈ entered) : Due t s e.2 :=
  h.due ht (List.forall_mem_singleton.mpr (due_root t s)) e he

theorem reaches_of_mem (ht : t.WellFormed) (h : Enters t s [] [⟨s.root, true⟩] entered failure)
    {e : Location × Visit} (he : e ∈ entered) : Reaches t s e.2.path :=
  (due_of_mem ht h he).reaches (isDirectory_iff.mpr ⟨e.1, h.directoryAt? e he⟩)

theorem exists_mem_entered (ht : t.WellFormed)
    (h : Enters t s [] [⟨s.root, true⟩] entered none) {dir : Path} (hdir : Reaches t s dir)
    {place : Location} (hplace : t.directoryAt? dir = some place) :
    ∃ v : Visit, v.path = dir ∧ (place, v) ∈ entered := by
  obtain ⟨hpending, hnext⟩ := h.closed rfl
  induction hdir generalizing place with
  | root hroot => exact ⟨_, rfl, hpending _ List.mem_cons_self place hplace⟩
  | @entry dir q name hdir hq hname hinto ih =>
    obtain ⟨v, rfl, hv⟩ := ih hq
    have hmem : (⟨v.path.child name, false⟩ : Visit) ∈ next t s q v :=
      (mem_next_iff (due_of_mem ht h hv).isRoot).mpr ⟨name, hname, hinto, rfl⟩
    exact ⟨_, rfl, hnext _ hv _ hmem place hplace⟩

/-- A walk that ends well comes to each directory by one path. -/
theorem eq_of_directoryAt? (ht : t.WellFormed) (h : Enters t s [] [⟨s.root, true⟩] entered none)
    {dir other : Path} (hdir : Reaches t s dir) (hother : Reaches t s other)
    (heq : t.directoryAt? dir = t.directoryAt? other) : dir = other := by
  obtain ⟨place, hplace⟩ := isDirectory_iff.mp hdir.isDirectory
  obtain ⟨v, rfl, hv⟩ := exists_mem_entered ht h hdir hplace
  obtain ⟨w, rfl, hw⟩ := exists_mem_entered ht h hother (heq.symm.trans hplace)
  have hsame := List.inj_on_of_nodup_map h.nodup.1 hv hw rfl
  rw [(Prod.mk.inj hsame).2]

theorem mem_found_entered (ht : t.WellFormed) (h : Enters t s [] [⟨s.root, true⟩] entered none)
    (path : Path) : path ∈ entered.flatMap (fun e => found t s e.1 e.2) ↔ Selected t s path := by
  rw [List.mem_flatMap, Selected]
  constructor
  · rintro ⟨e, he, hpath⟩
    obtain ⟨name, hname, hselected⟩ := mem_found_iff.mp hpath
    exact ⟨e.2.path, e.1, name, reaches_of_mem ht h he, h.directoryAt? e he, hname, hselected⟩
  · rintro ⟨dir, place, name, hdir, hplace, hname, hselected⟩
    obtain ⟨v, rfl, hv⟩ := exists_mem_entered ht h hdir hplace
    exact ⟨_, hv, mem_found_iff.mpr ⟨name, hname, hselected⟩⟩

/-- No two files of a walk have the same components. -/
theorem nodup_found_entered (ht : t.WellFormed)
    (h : Enters t s [] [⟨s.root, true⟩] entered failure) :
    ((entered.flatMap fun e => found t s e.1 e.2).map Path.components).Nodup := by
  rw [List.map_flatMap, List.nodup_flatMap]
  refine ⟨fun e he => ?_, ?_⟩
  · rw [List.Nodup, List.pairwise_map, found, List.pairwise_filterMap]
    have hentries : (t.entries e.1).Pairwise fun a b =>
        (e.2.path.child a).components ≠ (e.2.path.child b).components := by
      refine (ht.nodup_entries e.1).imp_of_mem fun {a b} ha hb hne heq => hne ?_
      rw [Path.components_child (ht.isName ha), Path.components_child (ht.isName hb)] at heq
      simpa using heq
    refine (pairwise_entries (R := fun a b => a.components ≠ b.components) hentries).imp
      fun {x y} hne p hp q hq => ?_
    simp only [Option.ite_none_right_eq_some, Option.some.injEq] at hp hq
    rw [← hp.2, ← hq.2]
    exact hne
  · refine (List.pairwise_map.mp h.nodup.1).imp_of_mem fun {e f} he hf hne => ?_
    refine List.disjoint_left.mpr ?_
    intro components hmem hmem'
    obtain ⟨p, hp, rfl⟩ := List.mem_map.mp hmem
    obtain ⟨q, hq, heq⟩ := List.mem_map.mp hmem'
    obtain ⟨a, ha, rfl, -⟩ := mem_found_iff.mp hp
    obtain ⟨b, hb, rfl, -⟩ := mem_found_iff.mp hq
    rw [Path.components_child (ht.isName ha), Path.components_child (ht.isName hb)] at heq
    have hpath := (reaches_of_mem ht h hf).eq_of_components ht (reaches_of_mem ht h he)
      (List.append_inj_left' heq rfl)
    have hplaces := (h.directoryAt? f hf).symm.trans (hpath ▸ h.directoryAt? e he)
    exact hne (Option.some.inj hplaces).symm

end Entered

/-! ### What is collected -/

/-- **A scan ends well exactly when each directory is come to by one path.** -/
theorem collect_ok_iff [Libraries] (ht : t.WellFormed) (hs : Selection.make t root o = .ok s) :
    (∃ files, collect t root o = .ok files) ↔ ∀ dir other, Reaches t s dir → Reaches t s other →
      t.directoryAt? dir = t.directoryAt? other → dir = other := by
  obtain ⟨entered, failure, h, hcollect⟩ := exists_collect hs
  rw [hcollect]
  cases failure with
  | none => exact iff_of_true ⟨_, rfl⟩ fun dir other => eq_of_directoryAt? ht h
  | some f =>
    obtain ⟨dir, other, hne, hdir, hother, heq⟩ := h.exists_twice ht
      (List.forall_mem_singleton.mpr (due_root t s)) (List.pairwise_singleton _ _)
      (fun place hplace => absurd hplace List.not_mem_nil) (by simp)
    refine iff_of_false ?_ fun honce => hne (honce dir other hdir hother heq)
    rintro ⟨files, hfiles⟩
    exact absurd hfiles (by simp [outcome, Except.map])

theorem linkCycle_of_collect [Libraries] (hs : Selection.make t root o = .ok s) {f : Failure}
    (hf : collect t root o = .error f) : ∃ path, f = .linkCycle path := by
  obtain ⟨entered, failure, h, hcollect⟩ := exists_collect hs
  rw [hcollect] at hf
  cases failure with
  | none => exact absurd hf (by simp [outcome, Except.map])
  | some g =>
    obtain rfl : g = f := Except.error.inj hf
    exact h.linkCycle g rfl

/-- **The files of a scan are those that are selected.** -/
theorem mem_collect [Libraries] (ht : t.WellFormed) (hs : Selection.make t root o = .ok s)
    {files : List Path} (hfiles : collect t root o = .ok files) (path : Path) :
    path ∈ files ↔ Selected t s path := by
  obtain ⟨entered, failure, h, hcollect⟩ := exists_collect hs
  rw [hcollect] at hfiles
  cases failure with
  | some f => exact absurd hfiles (by simp [outcome, Except.map])
  | none =>
    obtain rfl := Except.ok.inj hfiles
    rw [Path.sort, List.mem_mergeSort, mem_found_entered ht h]

/-- **The files of a scan stand strictly in order.** -/
theorem pairwise_collect [Libraries] (ht : t.WellFormed) (hs : Selection.make t root o = .ok s)
    {files : List Path} (hfiles : collect t root o = .ok files) :
    files.Pairwise Path.Before := by
  obtain ⟨entered, failure, h, hcollect⟩ := exists_collect hs
  rw [hcollect] at hfiles
  cases failure with
  | some f => exact absurd hfiles (by simp [outcome, Except.map])
  | none =>
    obtain rfl := Except.ok.inj hfiles
    exact Path.pairwise_sort (nodup_found_entered ht h)

/-! ### Other orders of entries -/

section Reordered

theorem isDirectory_reordered (h : t.Reordered u) (ht : t.WellFormed) (p : Path) :
    u.isDirectory p = t.isDirectory p := by
  rw [FileTree.isDirectory, FileTree.isDirectory, h.directoryAt? ht]

theorem holdsConfig_reordered (h : t.Reordered u) (ht : t.WellFormed) (dir : Path) :
    HoldsConfig u dir ↔ HoldsConfig t dir := by
  simp only [HoldsConfig, FileTree.isFile, h.read? ht]

theorem make_reordered [Libraries] (h : t.Reordered u) (ht : t.WellFormed) :
    Selection.make u root o = Selection.make t root o := by
  simp only [Selection.make, Selection.readIgnored, h.read? ht]

theorem goesInto_reordered (h : t.Reordered u) (ht : t.WellFormed) {dir : Path} {name : String}
    (hinto : GoesInto t s dir name) : GoesInto u s dir name :=
  ⟨(isDirectory_reordered h ht _).trans hinto.directory, hinto.named, hinto.kept,
    fun hconfig => hinto.own ((holdsConfig_reordered h ht _).mp hconfig)⟩

theorem reaches_reordered (h : t.Reordered u) (ht : t.WellFormed) {dir : Path}
    (hdir : Reaches t s dir) : Reaches u s dir := by
  induction hdir with
  | root hroot => exact .root ((isDirectory_reordered h ht _).trans hroot)
  | entry hdir hplace hname hinto ih =>
    exact .entry ih ((h.directoryAt? ht _).trans hplace) ((h.entries _).mem_iff.mpr hname)
      (goesInto_reordered h ht hinto)

theorem selected_reordered (h : t.Reordered u) (ht : t.WellFormed) {path : Path}
    (hpath : Selected t s path) : Selected u s path := by
  obtain ⟨dir, place, name, hdir, hplace, hname, hchild, hfile, hkept⟩ := hpath
  exact ⟨dir, place, name, reaches_reordered h ht hdir, (h.directoryAt? ht _).trans hplace,
    (h.entries _).mem_iff.mpr hname, hchild, (isDirectory_reordered h ht _).trans hfile, hkept⟩

theorem collect_reordered [Libraries] (h : t.Reordered u) (ht : t.WellFormed)
    (hs : Selection.make t root o = .ok s) {files : List Path}
    (hfiles : collect t root o = .ok files) : collect u root o = .ok files := by
  have hu := ht.reordered h
  have hsu : Selection.make u root o = .ok s := (make_reordered h ht).trans hs
  have honce := (collect_ok_iff ht hs).mp ⟨files, hfiles⟩
  obtain ⟨others, hothers⟩ := (collect_ok_iff hu hsu).mpr fun dir other hdir hother heq => by
    rw [h.directoryAt? ht, h.directoryAt? ht] at heq
    exact honce dir other (reaches_reordered h.symm hu hdir) (reaches_reordered h.symm hu hother) heq
  have hsame : ∀ path, path ∈ others ↔ path ∈ files := fun path => by
    rw [mem_collect hu hsu hothers, mem_collect ht hs hfiles]
    exact ⟨selected_reordered h.symm hu, selected_reordered h ht⟩
  have hsorted := pairwise_collect ht hs hfiles
  have hothersSorted := pairwise_collect hu hsu hothers
  have hne : ∀ {p q : Path}, p.Before q → p ≠ q := fun hbefore heq => hbefore.2 (heq ▸ rfl)
  have hperm : others.Perm files :=
    (List.perm_ext_iff_of_nodup (hothersSorted.imp hne) (hsorted.imp hne)).mpr hsame
  rw [hothers, hperm.eq_of_pairwise (fun p q _ _ hpq hqp => absurd hqp hpq.asymm) hothersSorted
    hsorted]

end Reordered

/-- **A scan** ends, and reads no directory twice.  In any order of entries it gives the same files
or comes to a directory again.  Its files are those that are selected, strictly in order. -/
theorem collect_spec [Libraries] (ht : t.WellFormed) (hs : Selection.make t root o = .ok s) :
    (∃ entered failure, Enters t s [] [⟨root, true⟩] entered failure ∧
      collect t root o = (outcome t s entered failure).map Path.sort ∧
      (entered.map Prod.fst).Nodup ∧ (∀ e ∈ entered, e.1 ∈ t.directories) ∧
      entered.length ≤ t.directories.length) ∧
    (∀ u, t.Reordered u →
      (∃ files, collect t root o = .ok files ∧ collect u root o = .ok files) ∨
      ∃ path other, collect t root o = .error (.linkCycle path) ∧
        collect u root o = .error (.linkCycle other)) ∧
    ∀ files, collect t root o = .ok files →
      files.Pairwise Path.Before ∧ ∀ path, path ∈ files ↔ Selected t s path := by
  refine ⟨?_, fun u h => ?_, fun files hfiles =>
    ⟨pairwise_collect ht hs hfiles, mem_collect ht hs hfiles⟩⟩
  · obtain ⟨entered, failure, h, hcollect⟩ := exists_collect hs
    have hdirectories : ∀ e ∈ entered, e.1 ∈ t.directories :=
      fun e he => FileTree.mem_directories (h.directoryAt? e he)
    have hlength := (List.subperm_of_subset h.nodup.1 fun place hplace => by
      obtain ⟨e, he, rfl⟩ := List.mem_map.mp hplace
      exact hdirectories e he).length_le
    rw [List.length_map] at hlength
    exact ⟨entered, failure, root_of_make hs ▸ h, hcollect, h.nodup.1, hdirectories, hlength⟩
  · have hsu : Selection.make u root o = .ok s := (make_reordered h ht).trans hs
    cases hcollect : collect t root o with
    | ok files => exact Or.inl ⟨files, rfl, collect_reordered h ht hs hcollect⟩
    | error f =>
      obtain ⟨path, rfl⟩ := linkCycle_of_collect hs hcollect
      cases hother : collect u root o with
      | ok files =>
        have hfiles := collect_reordered h.symm (ht.reordered h) hsu hother
        exact absurd (hcollect.symm.trans hfiles) (by simp)
      | error g =>
        obtain ⟨other, rfl⟩ := linkCycle_of_collect hsu hother
        exact Or.inr ⟨path, other, rfl, rfl⟩

/-- A directory that is come to over a link as well fails the scan in both orders, each time at the
path that comes second. -/
theorem collect_over_link :
    ∃ t u, t = (⟨[(["a"], .directory), (["b"], .link ["a"])], []⟩ : FileTree) ∧
      u = ⟨[(["b"], .link ["a"]), (["a"], .directory)], []⟩ ∧
      collect t .here .standard = .error (.linkCycle "./b") ∧
      ∃ path, collect u .here .standard = .error (.linkCycle path) := by
  refine ⟨_, _, rfl, rfl, ?_⟩
  generalize ht : (⟨[(["a"], .directory), (["b"], .link ["a"])], []⟩ : FileTree) = t
  have hwell : t.WellFormed := by
    subst ht
    exact ⟨by decide, by decide⟩
  obtain ⟨s, hs, hroot, ha, hb⟩ : ∃ s, Selection.make t .here .standard = .ok s ∧
      (t.directoryAt? .here = some [] ∧
        entries t s [] .here = [(⟨[".", "a"]⟩, true), (⟨[".", "b"]⟩, true)]) ∧
      (t.directoryAt? ⟨[".", "a"]⟩ = some ["a"] ∧ entries t s ["a"] ⟨[".", "a"]⟩ = []) ∧
      t.directoryAt? ⟨[".", "b"]⟩ = some ["a"] := by
    subst ht
    exact ⟨_, rfl, by decide +kernel, by decide +kernel, by decide +kernel⟩
  have hdirectories : t.directories = [[], ["a"]] := by
    subst ht
    rfl
  have hfail : collect t .here .standard = .error (.linkCycle "./b") := by
    rw [collect_eq hs]
    simp [Walk.run, next, hroot, ha, hb, hdirectories, bind, Except.bind, Except.map, Path.text]
  have hreordered : t.Reordered ⟨[(["b"], .link ["a"]), (["a"], .directory)], []⟩ := by
    subst ht
    exact ⟨rfl, List.Perm.swap _ _ _⟩
  refine ⟨hfail, ?_⟩
  rcases (collect_spec hwell hs).2.1 _ hreordered with ⟨files, hfiles, -⟩ | ⟨-, path, -, hpath⟩
  · exact absurd (hfail.symm.trans hfiles) (by simp)
  · exact ⟨path, hpath⟩

end TwigTemplate.Project
