import Mathlib.Logic.Relation
import TwigTemplate.Proofs.Project.Collecting

/-!
# Links in a circle

A walk that comes to a directory again fails, and says that links form a cycle.  They do when it is
still inside that directory: it could go around for ever.  But the walk fails as well when it has
left the directory and comes to it over another path, aside of the first one.

* `Walk.Inside`: the directories that a walk is inside of when it comes to one.
* `inside_iff`: **those are the directories on the way to it**.
* `LoopsBack`, `MeetsAside`: a directory is come to from inside itself, or over two paths apart.
* `collect_linkCycle_iff`: **a scan fails exactly when one of the two happens**.
* `cyclesReported_iff`: **a failed scan tells of a cycle, unless paths only meet aside**.
* `collect_beside_link`: a link to a directory beside it fails a scan without any cycle.
-/

namespace TwigTemplate.Project

open FileTree (WellFormed)

variable {t : FileTree} {s : Selection} {root : Path} {o : ScanOptions}

namespace Walk

/-! ### Inside a directory -/

/-- A walk goes from a directory into one that is listed in it. -/
inductive Step (t : FileTree) (s : Selection) (dir : Path) : Path → Prop
  | into {place : Location} {name : String} (hplace : t.directoryAt? dir = some place)
      (hname : name ∈ t.entries place) (hinto : GoesInto t s dir name) :
      Step t s dir (dir.child name)

/-- A walk comes to the second directory while it is inside the first one. -/
def Inside (t : FileTree) (s : Selection) : Path → Path → Prop :=
  Relation.TransGen (Step t s)

theorem Reaches.step {dir child : Path} (hdir : Reaches t s dir) (h : Step t s dir child) :
    Reaches t s child := by
  cases h with
  | into hplace hname hinto => exact .entry hdir hplace hname hinto

/-- A directory that lies directly in the root is come to, be it a project or not. -/
theorem reaches_child [Libraries] (hs : Selection.make t root o = .ok s) {top place : Location}
    {name : String} (htop : t.directoryAt? root = some top) (hname : name ∈ t.entries top)
    (hplace : t.directoryAt? (root.child name) = some place)
    (hnamed : Selection.isSkippedName name = false)
    (hkept : s.leavesOut (root.child name) true = false) : Reaches t s (root.child name) := by
  obtain rfl := root_of_make hs
  exact .entry (.root (isDirectory_iff.mpr ⟨top, htop⟩)) htop hname
    ⟨isDirectory_iff.mpr ⟨place, hplace⟩, hnamed, hkept, fun _ => rfl⟩

theorem Reaches.of_inside {dir path : Path} (hdir : Reaches t s dir) (h : Inside t s dir path) :
    Reaches t s path := by
  induction h with
  | single hstep => exact hdir.step hstep
  | tail _ hstep ih => exact ih.step hstep

theorem Inside.above (ht : t.WellFormed) {dir path : Path} (h : Inside t s dir path) :
    dir.components <+: path.components ∧ dir.components.length < path.components.length := by
  have hstep : ∀ {dir child : Path}, Step t s dir child → ∃ name,
      child.components = dir.components ++ [.name name] := fun h => by
    cases h with
    | into hplace hname hinto => exact ⟨_, Path.components_child (ht.isName hname) _⟩
  induction h with
  | single h =>
    obtain ⟨name, hname⟩ := hstep h
    rw [hname, List.length_append, List.length_singleton]
    exact ⟨List.prefix_append _ _, Nat.lt_succ_self _⟩
  | tail _ h ih =>
    obtain ⟨name, hname⟩ := hstep h
    rw [hname, List.length_append, List.length_singleton]
    exact ⟨ih.1.trans (List.prefix_append _ _), ih.2.trans (Nat.lt_succ_self _)⟩

theorem Reaches.inside (ht : t.WellFormed) {path : Path} (h : Reaches t s path)
    {above names : List String} (hnames : ∀ name ∈ above ++ names, Path.IsName name)
    (hne : names ≠ []) (hpath : path = s.root.descend (above ++ names)) :
    Inside t s (s.root.descend above) path := by
  induction h generalizing names with
  | root hroot =>
    have hnil : [] = above ++ names :=
      Path.descend_inj (by simp) hnames (congrArg Path.components hpath)
    exact absurd (List.append_eq_nil_iff.mp hnil.symm).2 hne
  | @entry dir place name h hplace hname hinto ih =>
    obtain ⟨before, hbefore, rfl⟩ := h.exists_names ht
    obtain ⟨front, last, rfl⟩ := names.eq_nil_or_concat.resolve_left hne
    rw [List.concat_eq_append, ← List.append_assoc] at hpath hnames
    have hall : ∀ n ∈ before ++ [name], Path.IsName n := fun n hn =>
      (List.mem_append.mp hn).elim (hbefore n) fun hn =>
        List.mem_singleton.mp hn ▸ ht.isName hname
    rw [← Path.descend_concat] at hpath
    have hsplit : before ++ [name] = above ++ front ++ [last] :=
      Path.descend_inj hall hnames (congrArg Path.components hpath)
    obtain rfl : before = above ++ front := (List.append_inj' hsplit rfl).1
    have hstep : Step t s (s.root.descend (above ++ front)) _ := .into hplace hname hinto
    by_cases hfront : front = []
    · rw [hfront, List.append_nil] at hstep ⊢
      exact .single hstep
    · exact .tail (ih hbefore hfront rfl) hstep

/-- **A walk is inside the directories on the way** to the one that it comes to. -/
theorem inside_iff (ht : t.WellFormed) {dir path : Path} (hdir : Reaches t s dir)
    (hpath : Reaches t s path) :
    Inside t s dir path ↔ dir.components <+: path.components ∧ dir ≠ path := by
  constructor
  · intro h
    refine ⟨(h.above ht).1, fun heq => ?_⟩
    exact absurd (h.above ht).2 (heq ▸ Nat.lt_irrefl _)
  · rintro ⟨habove, hne⟩
    obtain ⟨names, hnames, rfl⟩ := hdir.exists_names ht
    obtain ⟨more, hmore, hdescend⟩ := hpath.exists_names ht
    rw [hdescend, Path.components_descend hnames, Path.components_descend hmore,
      List.prefix_append_right_inj] at habove
    obtain ⟨rest, rfl⟩ : names <+: more :=
      (List.prefix_map_iff_of_injective fun _ _ => Path.Component.name.inj).mp habove
    refine hpath.inside ht hmore (fun hrest => hne ?_) hdescend
    rw [hdescend, hrest, List.append_nil]

end Walk

open Walk

/-! ### Two ways to fail -/

/-- A walk comes to a directory while it is inside that directory: links lead around in a circle. -/
def LoopsBack (t : FileTree) (s : Selection) : Prop :=
  ∃ dir path, Reaches t s dir ∧ Inside t s dir path ∧ t.directoryAt? dir = t.directoryAt? path

/-- A walk comes to a directory over two paths, neither of which leads through the other. -/
def MeetsAside (t : FileTree) (s : Selection) : Prop :=
  ∃ dir other, Reaches t s dir ∧ Reaches t s other ∧ Apart dir other ∧
    t.directoryAt? dir = t.directoryAt? other

section Reordered

variable {u : FileTree}

theorem step_reordered (h : t.Reordered u) (ht : t.WellFormed) {dir child : Path}
    (hstep : Step t s dir child) : Step u s dir child := by
  cases hstep with
  | into hplace hname hinto =>
    exact .into ((h.directoryAt? ht _).trans hplace) ((h.entries _).mem_iff.mpr hname)
      (goesInto_reordered h ht hinto)

theorem loopsBack_reordered (h : t.Reordered u) (ht : t.WellFormed) (hloops : LoopsBack t s) :
    LoopsBack u s := by
  obtain ⟨dir, path, hdir, hinside, heq⟩ := hloops
  refine ⟨dir, path, reaches_reordered h ht hdir,
    Relation.TransGen.mono (fun _ _ => step_reordered h ht) _ _ hinside, ?_⟩
  rw [h.directoryAt? ht, h.directoryAt? ht, heq]

theorem meetsAside_reordered (h : t.Reordered u) (ht : t.WellFormed) (hmeets : MeetsAside t s) :
    MeetsAside u s := by
  obtain ⟨dir, other, hdir, hother, hapart, heq⟩ := hmeets
  refine ⟨dir, other, reaches_reordered h ht hdir, reaches_reordered h ht hother, hapart, ?_⟩
  rw [h.directoryAt? ht, h.directoryAt? ht, heq]

end Reordered

/-- A directory is come to over two paths from inside itself or aside. -/
theorem exists_twice_iff (ht : t.WellFormed) :
    (∃ dir other, Reaches t s dir ∧ Reaches t s other ∧
      t.directoryAt? dir = t.directoryAt? other ∧ dir ≠ other) ↔
      LoopsBack t s ∨ MeetsAside t s := by
  constructor
  · rintro ⟨dir, other, hdir, hother, heq, hne⟩
    by_cases hinside : Inside t s dir other
    · exact Or.inl ⟨dir, other, hdir, hinside, heq⟩
    · by_cases hinside' : Inside t s other dir
      · exact Or.inl ⟨other, dir, hother, hinside', heq.symm⟩
      · refine Or.inr ⟨dir, other, hdir, hother, ⟨fun habove => ?_, fun habove => ?_⟩, heq⟩
        · exact hinside ((inside_iff ht hdir hother).mpr ⟨habove, hne⟩)
        · exact hinside' ((inside_iff ht hother hdir).mpr ⟨habove, hne.symm⟩)
  · rintro (⟨dir, path, hdir, hinside, heq⟩ | ⟨dir, other, hdir, hother, hapart, heq⟩)
    · have hpath := hdir.of_inside hinside
      exact ⟨dir, path, hdir, hpath, heq, ((inside_iff ht hdir hpath).mp hinside).2⟩
    · exact ⟨dir, other, hdir, hother, heq, fun hsame => hapart.1 (hsame ▸ List.prefix_rfl)⟩

/-- **A scan fails over a link exactly when the walk loops back or meets aside.** -/
theorem collect_linkCycle_iff [Libraries] (ht : t.WellFormed)
    (hs : Selection.make t root o = .ok s) :
    (∃ path, collect t root o = .error (.linkCycle path)) ↔ LoopsBack t s ∨ MeetsAside t s := by
  have hfails : (∃ path, collect t root o = .error (.linkCycle path)) ↔
      ¬ ∃ files, collect t root o = .ok files := by
    constructor
    · rintro ⟨path, hpath⟩ ⟨files, hfiles⟩
      exact absurd (hpath.symm.trans hfiles) (by simp)
    · intro hnone
      cases hcollect : collect t root o with
      | ok files => exact absurd ⟨files, hcollect⟩ hnone
      | error f =>
        obtain ⟨path, rfl⟩ := linkCycle_of_collect hs hcollect
        exact ⟨path, rfl⟩
  rw [hfails, collect_ok_iff ht hs, ← exists_twice_iff ht]
  push Not
  rfl

/-! ### What a failed scan tells -/

/-- A scan fails over a link exactly when links lead around in a circle, and ends well on any other
tree. -/
def CyclesReported [Libraries] (t : FileTree) (s : Selection) (root : Path) (o : ScanOptions) :
    Prop :=
  ((∃ path, collect t root o = .error (.linkCycle path)) ↔ LoopsBack t s) ∧
    (¬ LoopsBack t s → ∃ files, collect t root o = .ok files)

/-- **A failed scan tells of a cycle** on every tree, unless the walk meets aside and nowhere loops
back. -/
theorem cyclesReported_iff [Libraries] (ht : t.WellFormed) (hs : Selection.make t root o = .ok s) :
    CyclesReported t s root o ↔ (MeetsAside t s → LoopsBack t s) := by
  rw [CyclesReported, collect_linkCycle_iff ht hs]
  constructor
  · exact fun h haside => h.1.mp (Or.inr haside)
  · intro h
    have hiff : LoopsBack t s ∨ MeetsAside t s ↔ LoopsBack t s := ⟨fun hor => hor.elim id h, Or.inl⟩
    refine ⟨hiff, fun hnone => ?_⟩
    cases hcollect : collect t root o with
    | ok files => exact ⟨files, rfl⟩
    | error f =>
      obtain ⟨path, rfl⟩ := linkCycle_of_collect hs hcollect
      exact absurd (hiff.mp ((collect_linkCycle_iff ht hs).mp ⟨path, hcollect⟩)) hnone

/-- A link from a directory to itself is reported. -/
theorem cyclesReported_loop :
    ∃ t, t = (⟨[(["a"], .directory), (["a", "loop"], .link ["a"])], []⟩ : FileTree) ∧
      ∃ s, Selection.make t .here .standard = .ok s ∧ CyclesReported t s .here .standard ∧
        ∃ path, collect t .here .standard = .error (.linkCycle path) := by
  refine ⟨_, rfl, ?_⟩
  generalize ht : (⟨[(["a"], .directory), (["a", "loop"], .link ["a"])], []⟩ : FileTree) = t
  obtain ⟨a, ha⟩ : ∃ a, a = Path.here.child "a" := ⟨_, rfl⟩
  obtain ⟨loop, hloop⟩ : ∃ loop, loop = a.child "loop" := ⟨_, rfl⟩
  have hwell : t.WellFormed := by
    subst ht
    exact ⟨by decide, by decide⟩
  obtain ⟨s, hs, hkept⟩ : ∃ s, Selection.make t .here .standard = .ok s ∧
      s.leavesOut a true = false ∧ s.leavesOut loop true = false := by
    subst ht hloop ha
    exact ⟨_, rfl, by decide +kernel, by decide +kernel⟩
  have hplaces : t.directoryAt? .here = some [] ∧ t.directoryAt? a = some ["a"] ∧
      t.directoryAt? loop = some ["a"] := by
    subst ht hloop ha
    exact ⟨by decide +kernel, by decide +kernel, by decide +kernel⟩
  have hnames : t.entries [] = ["a"] ∧ t.entries ["a"] = ["loop"] := by
    subst ht
    exact ⟨by decide +kernel, by decide +kernel⟩
  have hconfig : Config.find? t loop = none := by
    subst ht hloop ha
    decide +kernel
  have hdir : Reaches t s a := by
    rw [ha] at hplaces hkept ⊢
    exact reaches_child hs hplaces.1 (hnames.1 ▸ List.mem_cons_self) hplaces.2.1
      (by decide +kernel) hkept.1
  have hinside : Inside t s a loop := by
    have hown : ¬ HoldsConfig t loop :=
      (find?_isNone_iff _).mp (Option.isNone_iff_eq_none.mpr hconfig)
    rw [hloop] at hplaces hkept hown ⊢
    exact .single (.into hplaces.2.1 (hnames.2 ▸ List.mem_cons_self)
      ⟨isDirectory_iff.mpr ⟨_, hplaces.2.2⟩, by decide +kernel, hkept.2, fun h => absurd h hown⟩)
  have hloops : LoopsBack t s := ⟨a, loop, hdir, hinside, hplaces.2.1.trans hplaces.2.2.symm⟩
  have hreported := (cyclesReported_iff hwell hs).mpr fun _ => hloops
  exact ⟨s, hs, hreported, hreported.1.mpr hloops⟩

/-- A link to a directory beside it fails a scan, in whatever order entries are listed, and no link
leads back. -/
theorem collect_beside_link :
    ∃ t, t = (⟨[(["a"], .directory), (["a", "x.twig"], .file (.text ['x'])),
        (["b"], .link ["a"])], []⟩ : FileTree) ∧ t.WellFormed ∧
      ∀ u, t.Reordered u → ∃ s, Selection.make u .here .standard = .ok s ∧
        (∃ path, collect u .here .standard = .error (.linkCycle path)) ∧ ¬ LoopsBack u s ∧
        ¬ CyclesReported u s .here .standard := by
  have hwell : FileTree.WellFormed ⟨[(["a"], .directory), (["a", "x.twig"], .file (.text ['x'])),
    (["b"], .link ["a"])], []⟩ := ⟨by decide, by decide⟩
  refine ⟨_, rfl, hwell, ?_⟩
  generalize ht : (⟨[(["a"], .directory), (["a", "x.twig"], .file (.text ['x'])),
    (["b"], .link ["a"])], []⟩ : FileTree) = t at hwell
  obtain ⟨a, ha⟩ : ∃ a, a = Path.here.child "a" := ⟨_, rfl⟩
  obtain ⟨b, hb⟩ : ∃ b, b = Path.here.child "b" := ⟨_, rfl⟩
  obtain ⟨s, hs, hkept⟩ : ∃ s, Selection.make t .here .standard = .ok s ∧
      s.leavesOut a true = false ∧ s.leavesOut b true = false := by
    subst ht ha hb
    exact ⟨_, rfl, by decide +kernel, by decide +kernel⟩
  have hplaces : t.directoryAt? .here = some [] ∧ t.directoryAt? a = some ["a"] ∧
      t.directoryAt? b = some ["a"] := by
    subst ht ha hb
    exact ⟨by decide +kernel, by decide +kernel, by decide +kernel⟩
  have hnames : t.entries [] = ["a", "b"] ∧ t.entries ["a"] = ["x.twig"] := by
    subst ht
    exact ⟨by decide +kernel, by decide +kernel⟩
  have hfiles : t.isDirectory (a.child "x.twig") = false ∧
      t.isDirectory (b.child "x.twig") = false := by
    subst ht ha hb
    exact ⟨by decide +kernel, by decide +kernel⟩
  -- The walk goes from the root into `a` and into `b`, and from there no further.
  have hstep : ∀ {dir child}, dir = .here ∨ dir = a ∨ dir = b → Step t s dir child →
      dir = .here ∧ (child = a ∨ child = b) := by
    rintro dir child hdir ⟨hplace, hname, hinto⟩
    have hdirectory := hinto.directory
    rcases hdir with rfl | rfl | rfl
    · obtain rfl := Option.some.inj (hplaces.1.symm.trans hplace)
      rw [hnames.1] at hname
      rcases List.mem_pair.mp hname with rfl | rfl
      · exact ⟨rfl, Or.inl ha.symm⟩
      · exact ⟨rfl, Or.inr hb.symm⟩
    · obtain rfl := Option.some.inj (hplaces.2.1.symm.trans hplace)
      obtain rfl := List.mem_singleton.mp (hnames.2 ▸ hname)
      exact absurd (hfiles.1.symm.trans hdirectory) Bool.false_ne_true
    · obtain rfl := Option.some.inj (hplaces.2.2.symm.trans hplace)
      obtain rfl := List.mem_singleton.mp (hnames.2 ▸ hname)
      exact absurd (hfiles.2.symm.trans hdirectory) Bool.false_ne_true
  have hreaches : ∀ {dir}, Reaches t s dir → dir = .here ∨ dir = a ∨ dir = b := fun h => by
    induction h with
    | root hroot => exact Or.inl (root_of_make hs)
    | entry _ hplace hname hinto ih => exact Or.inr (hstep ih (.into hplace hname hinto)).2
  have hnone : ¬ LoopsBack t s := by
    rintro ⟨dir, path, hdir, hinside, heq⟩
    obtain ⟨first, hfirst, -⟩ := Relation.TransGen.head'_iff.mp hinside
    obtain rfl := (hstep (hreaches hdir) hfirst).1
    have hpath := hdir.of_inside hinside
    rcases hreaches hpath with rfl | rfl | rfl
    · exact ((inside_iff hwell hdir hpath).mp hinside).2 rfl
    · exact absurd (hplaces.1.symm.trans (heq.trans hplaces.2.1)) (by simp)
    · exact absurd (hplaces.1.symm.trans (heq.trans hplaces.2.2)) (by simp)
  have hmeets : MeetsAside t s := by
    have heq := hplaces.2.1.trans hplaces.2.2.symm
    rw [ha, hb] at hplaces hkept heq
    refine ⟨_, _, ?_, ?_, ⟨by decide, by decide⟩, heq⟩
    · exact reaches_child hs hplaces.1 (hnames.1 ▸ List.mem_cons_self) hplaces.2.1
        (by decide +kernel) hkept.1
    · exact reaches_child hs hplaces.1 (hnames.1 ▸ List.mem_cons_of_mem _ List.mem_cons_self)
        hplaces.2.2 (by decide +kernel) hkept.2
  intro u h
  have hu := hwell.reordered h
  have hsu : Selection.make u .here .standard = .ok s := (make_reordered h hwell).trans hs
  have hfails := (collect_linkCycle_iff hu hsu).mpr (Or.inr (meetsAside_reordered h hwell hmeets))
  have hnoneLeft : ¬ LoopsBack u s := fun hloops => hnone (loopsBack_reordered h.symm hu hloops)
  exact ⟨s, hsu, hfails, hnoneLeft, fun hreported => hnoneLeft (hreported.1.mp hfails)⟩

end TwigTemplate.Project
