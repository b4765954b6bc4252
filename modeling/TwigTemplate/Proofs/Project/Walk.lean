import TwigTemplate.Project.Walk
import TwigTemplate.Proofs.FileTree.Listing

/-!
# What a walk comes to

The directories that a walk comes to do not depend on the walk: they are the root, and whatever it
may go into from one of them.  The walk enters each of them once, or it comes to one by a second
path and fails.

* `Enters`: a walk with the directories that it enters, in order.
* `exists_enters`: **the result of a walk is what it finds in them**, or the failure that ends it.
* `Reaches`: the directories that a walk comes to.
* `Enters.nodup`, `Enters.due`: **it enters each at most once**, and no others.
* `Enters.closed`: **a walk that ends well has entered all of them**.
* `LeftBehind`: the directories that no path to come leads through.
* `Enters.exists_twice`: **a walk that fails has come to one by two paths**.
-/

namespace TwigTemplate.Project.Walk

variable {t : FileTree} {s : Selection}

/-! ### The walk and its record -/

/-- A walk that enters the given directories and then ends, well or with a failure. -/
inductive Enters (t : FileTree) (s : Selection) :
    List Location → List Visit → List (Location × Visit) → Option Failure → Prop
  | done {visited : List Location} : Enters t s visited [] [] none
  | skip {visited : List Location} {v : Visit} {pending : List Visit}
      {entered : List (Location × Visit)} {failure : Option Failure}
      (hv : t.directoryAt? v.path = none) (h : Enters t s visited pending entered failure) :
      Enters t s visited (v :: pending) entered failure
  | cycle {visited : List Location} {v : Visit} {pending : List Visit} {place : Location}
      (hv : t.directoryAt? v.path = some place) (hold : place ∈ visited) :
      Enters t s visited (v :: pending) [] (some (.linkCycle v.path.text))
  | enter {visited : List Location} {v : Visit} {pending : List Visit} {place : Location}
      {entered : List (Location × Visit)} {failure : Option Failure}
      (hv : t.directoryAt? v.path = some place) (hnew : place ∉ visited)
      (h : Enters t s (place :: visited) (next t s place v ++ pending) entered failure) :
      Enters t s visited (v :: pending) ((place, v) :: entered) failure

/-- What a walk gives: the files that are wanted in the directories it entered, if it ended well. -/
def outcome (t : FileTree) (s : Selection) (entered : List (Location × Visit)) :
    Option Failure → Except Failure (List Path)
  | none => .ok (entered.flatMap fun e => found t s e.1 e.2)
  | some f => .error f

/-- **The result of a walk is what it finds in the directories that it enters.** -/
theorem exists_enters (t : FileTree) (s : Selection) (visited : List Location)
    (pending : List Visit) : ∃ entered failure, Enters t s visited pending entered failure ∧
      run t s visited pending = outcome t s entered failure := by
  induction visited, pending using run.induct (t := t) (s := s) with
  | case1 visited => exact ⟨[], none, .done, by rw [run]; rfl⟩
  | case2 visited v pending hv ih =>
    obtain ⟨entered, failure, h, hrun⟩ := ih
    refine ⟨entered, failure, .skip hv h, ?_⟩
    rw [run, hv]
    exact hrun
  | case3 visited v pending place hv hold =>
    refine ⟨[], some (.linkCycle v.path.text), .cycle hv hold, ?_⟩
    rw [run, hv]
    exact if_pos hold
  | case4 visited v pending place hv hnew hdirectory ih =>
    obtain ⟨entered, failure, h, hrun⟩ := ih
    refine ⟨(place, v) :: entered, failure, .enter hv hnew h, ?_⟩
    rw [run, hv]
    simp only [if_neg hnew, if_pos hdirectory, hrun]
    cases failure <;> rfl
  | case5 visited v pending place hv hnew hdirectory =>
    exact absurd (FileTree.mem_directories hv) hdirectory

namespace Enters

variable {visited : List Location} {pending : List Visit} {entered : List (Location × Visit)}
  {failure : Option Failure}

/-- **No directory is entered twice**, nor one that was visited before. -/
theorem nodup (h : Enters t s visited pending entered failure) :
    (entered.map Prod.fst).Nodup ∧ ∀ e ∈ entered, e.1 ∉ visited := by
  induction h with
  | done => simp
  | skip hv h ih => exact ih
  | cycle hv hold => simp
  | enter hv hnew h ih =>
    obtain ⟨hnodup, hfresh⟩ := ih
    refine ⟨List.nodup_cons.mpr ⟨fun hmem => ?_, hnodup⟩,
      List.forall_mem_cons.mpr ⟨hnew, fun e he hold => hfresh e he (List.mem_cons_of_mem _ hold)⟩⟩
    obtain ⟨e, he, heq⟩ := List.mem_map.mp hmem
    exact hfresh e he (heq ▸ List.mem_cons_self)

theorem directoryAt? (h : Enters t s visited pending entered failure) :
    ∀ e ∈ entered, t.directoryAt? e.2.path = some e.1 := by
  induction h with
  | done => simp
  | skip hv h ih => exact ih
  | cycle hv hold => simp
  | enter hv hnew h ih => exact List.forall_mem_cons.mpr ⟨hv, ih⟩

theorem linkCycle (h : Enters t s visited pending entered failure) :
    ∀ f ∈ failure, ∃ path, f = .linkCycle path := by
  induction h with
  | done => simp
  | skip hv h ih => exact ih
  | @cycle visited v pending place hv hold => exact fun f hf => ⟨_, (Option.some.inj hf).symm⟩
  | enter hv hnew h ih => exact ih

/-- **A walk that ends well has entered every directory that it came to.** -/
theorem closed (h : Enters t s visited pending entered failure) (hfailure : failure = none) :
    (∀ v ∈ pending, ∀ place, t.directoryAt? v.path = some place → (place, v) ∈ entered) ∧
    ∀ e ∈ entered, ∀ w ∈ next t s e.1 e.2, ∀ place, t.directoryAt? w.path = some place →
      (place, w) ∈ entered := by
  induction h with
  | done => simp
  | skip hv h ih =>
    obtain ⟨hpending, hnext⟩ := ih hfailure
    refine ⟨List.forall_mem_cons.mpr ⟨fun place hplace => ?_, hpending⟩, hnext⟩
    exact absurd (hv.symm.trans hplace) (by simp)
  | cycle hv hold => exact absurd hfailure (by simp)
  | @enter visited v pending place entered failure hv hnew h ih =>
    obtain ⟨hpending, hnext⟩ := ih hfailure
    have hlater : ∀ w ∈ next t s place v ++ pending, ∀ q, t.directoryAt? w.path = some q →
        (q, w) ∈ (place, v) :: entered :=
      fun w hw q hq => List.mem_cons_of_mem _ (hpending w hw q hq)
    refine ⟨List.forall_mem_cons.mpr ⟨fun q hq => ?_, fun w hw =>
      hlater w (List.mem_append_right _ hw)⟩, List.forall_mem_cons.mpr ⟨fun w hw =>
      hlater w (List.mem_append_left _ hw), fun e he w hw q hq =>
      List.mem_cons_of_mem _ (hnext e he w hw q hq)⟩⟩
    obtain rfl := Option.some.inj (hv.symm.trans hq)
    exact List.mem_cons_self

end Enters

/-! ### What a directory leads to -/

/-- The directory is a project of its own. -/
def HoldsConfig (t : FileTree) (dir : Path) : Prop :=
  ∃ segments ∈ Config.fileCandidates, t.isFile (dir.join ⟨segments⟩) = true

theorem find?_isNone_iff (dir : Path) :
    (Config.find? t dir).isNone = true ↔ ¬ HoldsConfig t dir := by
  rw [Option.isNone_iff_eq_none, Config.find?, List.find?_eq_none, HoldsConfig]
  simp

/-- A walk goes from a directory into an entry: it is a directory, its name is not passed over, no
rule leaves it out, and it is no project of its own or lies directly in the root. -/
structure GoesInto (t : FileTree) (s : Selection) (dir : Path) (name : String) : Prop where
  directory : t.isDirectory (dir.child name) = true
  named : Selection.isSkippedName name = false
  kept : s.leavesOut (dir.child name) true = false
  own : HoldsConfig t (dir.child name) → dir = s.root

/-- The directories that a walk comes to. -/
inductive Reaches (t : FileTree) (s : Selection) : Path → Prop
  | root (h : t.isDirectory s.root = true) : Reaches t s s.root
  | entry {dir : Path} {place : Location} {name : String} (h : Reaches t s dir)
      (hplace : t.directoryAt? dir = some place) (hname : name ∈ t.entries place)
      (hinto : GoesInto t s dir name) : Reaches t s (dir.child name)

/-- The files that a walk is to find: entries of the directories that it comes to which are no
directories, which no rule leaves out and which are wanted. -/
def Selected (t : FileTree) (s : Selection) (path : Path) : Prop :=
  ∃ dir place name, Reaches t s dir ∧ t.directoryAt? dir = some place ∧
    name ∈ t.entries place ∧ path = dir.child name ∧ t.isDirectory path = false ∧
    s.leavesOut path false = false ∧ s.wants path = true

theorem mem_entries_iff {place : Location} {path : Path} {e : Path × Bool} :
    e ∈ entries t s place path ↔ ∃ name ∈ t.entries place,
      e = (path.child name, t.isDirectory (path.child name)) ∧
      (e.2 = true → Selection.isSkippedName name = false) ∧ s.leavesOut e.1 e.2 = false := by
  rw [entries, List.mem_filterMap]
  constructor
  · rintro ⟨_, hmem, h⟩
    obtain ⟨name, hname, rfl⟩ := List.mem_map.mp hmem
    simp only at h
    split at h
    · exact absurd h (by simp)
    · next hnamed =>
      split at h
      · exact absurd h (by simp)
      · next hkept =>
        obtain rfl := Option.some.inj h
        refine ⟨name, hname, rfl, fun hdirectory => ?_, by simpa using hkept⟩
        have hdirectory : t.isDirectory (path.child name) = true := hdirectory
        simpa [hdirectory] using hnamed
  · rintro ⟨name, hname, rfl, hnamed, hkept⟩
    refine ⟨_, List.mem_map_of_mem hname, ?_⟩
    have hskipped : ¬ (t.isDirectory (path.child name) && Selection.isSkippedName name) = true := by
      rw [Bool.and_eq_true]
      rintro ⟨hdirectory, hskipped⟩
      exact absurd (hskipped.symm.trans (hnamed hdirectory)) (by simp)
    simp only [if_neg hskipped]
    exact if_neg (by simpa using hkept)

theorem mem_next_iff {place : Location} {v w : Visit}
    (hroot : v.isRoot = true ↔ v.path = s.root) : w ∈ next t s place v ↔
      ∃ name ∈ t.entries place, GoesInto t s v.path name ∧ w = ⟨v.path.child name, false⟩ := by
  rw [next, List.mem_filterMap]
  constructor
  · rintro ⟨e, he, h⟩
    obtain ⟨name, hname, rfl, hnamed, hkept⟩ := mem_entries_iff.mp he
    simp only [Option.ite_none_right_eq_some, Bool.and_eq_true, Bool.or_eq_true, hroot,
      find?_isNone_iff] at h
    obtain ⟨⟨hdirectory, hown⟩, heq⟩ := h
    rw [hdirectory] at hkept
    exact ⟨name, hname, ⟨hdirectory, hnamed hdirectory, hkept, fun hconfig =>
      hown.resolve_right (not_not_intro hconfig)⟩, (Option.some.inj heq).symm⟩
  · rintro ⟨name, hname, hinto, rfl⟩
    refine ⟨_, mem_entries_iff.mpr ⟨name, hname, rfl, fun _ => hinto.named, ?_⟩, ?_⟩
    · rw [hinto.directory]
      exact hinto.kept
    · simp only [Option.ite_none_right_eq_some, Bool.and_eq_true, Bool.or_eq_true, hroot,
        find?_isNone_iff]
      exact ⟨⟨hinto.directory, or_iff_not_imp_right.mpr fun hconfig =>
        hinto.own (not_not.mp hconfig)⟩, trivial⟩

theorem mem_found_iff {place : Location} {v : Visit} {path : Path} : path ∈ found t s place v ↔
    ∃ name ∈ t.entries place, path = v.path.child name ∧ t.isDirectory path = false ∧
      s.leavesOut path false = false ∧ s.wants path = true := by
  rw [found, List.mem_filterMap]
  constructor
  · rintro ⟨e, he, h⟩
    obtain ⟨name, hname, rfl, -, hkept⟩ := mem_entries_iff.mp he
    simp only [Option.ite_none_right_eq_some, Bool.and_eq_true, Bool.not_eq_true'] at h
    obtain ⟨⟨hfile, hwanted⟩, heq⟩ := h
    obtain rfl := Option.some.inj heq
    rw [hfile] at hkept
    exact ⟨name, hname, rfl, hfile, hkept, hwanted⟩
  · rintro ⟨name, hname, rfl, hfile, hkept, hwanted⟩
    refine ⟨_, mem_entries_iff.mpr ⟨name, hname, rfl, fun hdirectory => ?_, ?_⟩, ?_⟩
    · exact absurd (hfile.symm.trans hdirectory) (by simp)
    · rw [hfile]
      exact hkept
    · simp only [hfile, hwanted, Bool.not_false, Bool.and_self, if_true]

theorem pairwise_entries {R : Path → Path → Prop} {place : Location} {path : Path}
    (h : (t.entries place).Pairwise fun a b => R (path.child a) (path.child b)) :
    (entries t s place path).Pairwise fun e f => R e.1 f.1 := by
  rw [entries, List.pairwise_filterMap, List.pairwise_map]
  refine h.imp fun {a b} hab e he f hf => ?_
  simp only [Option.ite_none_left_eq_some, Option.some.injEq] at he hf
  obtain ⟨-, -, rfl⟩ := he
  obtain ⟨-, -, rfl⟩ := hf
  exact hab

/-! ### The paths of a walk -/

theorem Reaches.exists_names (ht : t.WellFormed) {dir : Path} (h : Reaches t s dir) :
    ∃ names, (∀ name ∈ names, Path.IsName name) ∧ dir = s.root.descend names := by
  induction h with
  | root h => exact ⟨[], by simp, rfl⟩
  | @entry dir place name h hplace hname hinto ih =>
    obtain ⟨names, hnames, rfl⟩ := ih
    refine ⟨names ++ [name], fun n hn => ?_, (Path.descend_concat _ _ _).symm⟩
    rcases List.mem_append.mp hn with hn | hn
    · exact hnames n hn
    · exact List.mem_singleton.mp hn ▸ ht.isName hname

theorem Reaches.isDirectory {dir : Path} (h : Reaches t s dir) : t.isDirectory dir = true := by
  cases h with
  | root h => exact h
  | entry h hplace hname hinto => exact hinto.directory

theorem Reaches.eq_of_components (ht : t.WellFormed) {dir other : Path} (h : Reaches t s dir)
    (hother : Reaches t s other) (heq : dir.components = other.components) : dir = other := by
  obtain ⟨names, hnames, rfl⟩ := h.exists_names ht
  obtain ⟨more, hmore, rfl⟩ := hother.exists_names ht
  rw [Path.descend_inj hnames hmore heq]

/-- A visit that a walk may have before it: to a directory that it comes to, if to any. -/
structure Due (t : FileTree) (s : Selection) (v : Visit) : Prop where
  reaches : t.isDirectory v.path = true → Reaches t s v.path
  isRoot : v.isRoot = true ↔ v.path = s.root

theorem due_root (t : FileTree) (s : Selection) : Due t s ⟨s.root, true⟩ :=
  ⟨.root, by simp⟩

theorem isDirectory_iff {p : Path} :
    t.isDirectory p = true ↔ ∃ place, t.directoryAt? p = some place :=
  Option.isSome_iff_exists

theorem Due.next (ht : t.WellFormed) {place : Location} {v w : Visit} (h : Due t s v)
    (hv : t.directoryAt? v.path = some place) (hw : w ∈ next t s place v) : Due t s w := by
  obtain ⟨name, hname, hinto, rfl⟩ := (mem_next_iff h.isRoot).mp hw
  have hreaches := h.reaches (isDirectory_iff.mpr ⟨place, hv⟩)
  refine ⟨fun _ => .entry hreaches hv hname hinto, iff_of_false Bool.false_ne_true fun heq => ?_⟩
  obtain ⟨names, hnames, hpath⟩ := hreaches.exists_names ht
  have hlength := congrArg (List.length ∘ Path.components) heq
  rw [hpath, Function.comp_apply, Function.comp_apply, Path.components_child (ht.isName hname),
    Path.components_descend hnames, List.length_append, List.length_append,
    List.length_singleton] at hlength
  omega

/-- **A walk enters only directories that it comes to.** -/
theorem Enters.due {visited : List Location} {pending : List Visit}
    {entered : List (Location × Visit)} {failure : Option Failure} (ht : t.WellFormed)
    (h : Enters t s visited pending entered failure) (hdue : ∀ v ∈ pending, Due t s v) :
    ∀ e ∈ entered, Due t s e.2 := by
  induction h with
  | done => simp
  | skip hv h ih => exact ih (List.forall_mem_cons.mp hdue).2
  | cycle hv hold => simp
  | enter hv hnew h ih =>
    obtain ⟨hfirst, hpending⟩ := List.forall_mem_cons.mp hdue
    refine List.forall_mem_cons.mpr ⟨hfirst, ih fun w hw => ?_⟩
    rcases List.mem_append.mp hw with hw | hw
    · exact hfirst.next ht hv hw
    · exact hpending w hw

/-! ### Coming to a directory twice -/

/-- Neither path leads through the other. -/
def Apart (p q : Path) : Prop :=
  ¬ p.components <+: q.components ∧ ¬ q.components <+: p.components

theorem Apart.child {p q : Path} {name : String} (hname : Path.IsName name) (h : Apart p q) :
    Apart (p.child name) q := by
  rw [Apart, Path.components_child hname]
  refine ⟨fun hbefore => h.1 ((List.prefix_append _ _).trans hbefore), fun hafter => ?_⟩
  rcases List.prefix_concat_iff.mp hafter with heq | hafter
  · exact h.1 (heq ▸ List.prefix_append _ _)
  · exact h.2 hafter

theorem apart_children {p : Path} {name other : String} (hname : Path.IsName name)
    (hother : Path.IsName other) (hne : name ≠ other) : Apart (p.child name) (p.child other) := by
  rw [Apart, Path.components_child hname, Path.components_child hother]
  exact ⟨fun h => hne (by simpa using h), fun h => hne.symm (by simpa using h)⟩

theorem exists_child_of_mem_next (ht : t.WellFormed) {place : Location} {v w : Visit}
    (hw : w ∈ next t s place v) : ∃ name, Path.IsName name ∧ w.path = v.path.child name := by
  obtain ⟨e, he, h⟩ := List.mem_filterMap.mp hw
  obtain ⟨name, hname, rfl, -, -⟩ := mem_entries_iff.mp he
  obtain ⟨-, heq⟩ := Option.ite_none_right_eq_some.mp h
  exact ⟨name, ht.isName hname, by rw [← Option.some.inj heq]⟩

/-- The visits to be made stay apart when one of them is made. -/
theorem pairwise_apart_next (ht : t.WellFormed) {place : Location} {v : Visit}
    {pending : List Visit}
    (h : (v :: pending).Pairwise fun u w => Apart u.path w.path) :
    (next t s place v ++ pending).Pairwise fun u w => Apart u.path w.path := by
  obtain ⟨hfirst, hpending⟩ := List.pairwise_cons.mp h
  refine List.pairwise_append.mpr ⟨?_, hpending, fun u hu w hw => ?_⟩
  · have hentries : (t.entries place).Pairwise fun a b =>
        Apart (v.path.child a) (v.path.child b) :=
      (ht.nodup_entries place).imp_of_mem fun ha hb hne =>
        apart_children (ht.isName ha) (ht.isName hb) hne
    rw [next, List.pairwise_filterMap]
    refine (pairwise_entries hentries).imp fun {e f} hapart u hu w hw => ?_
    simp only [Option.ite_none_right_eq_some, Option.some.injEq] at hu hw
    rw [← hu.2, ← hw.2]
    exact hapart
  · obtain ⟨name, hname, hpath⟩ := exists_child_of_mem_next ht hu
    rw [hpath]
    exact (hfirst w hw).child hname

theorem exists_components_of_mem_next (ht : t.WellFormed) {place : Location} {v w : Visit}
    (hw : w ∈ next t s place v) :
    ∃ name, w.path.components = v.path.components ++ [.name name] := by
  obtain ⟨name, hname, hpath⟩ := exists_child_of_mem_next ht hw
  exact ⟨name, hpath ▸ Path.components_child hname _⟩

/-- The walk has come to the directory by a path that leads through none of those to come. -/
def LeftBehind (t : FileTree) (s : Selection) (pending : List Visit) (place : Location) : Prop :=
  ∃ dir, Reaches t s dir ∧ t.directoryAt? dir = some place ∧
    ∀ v ∈ pending, ¬ v.path.components <+: dir.components

theorem LeftBehind.skip {v : Visit} {pending : List Visit} {place : Location}
    (h : LeftBehind t s (v :: pending) place) : LeftBehind t s pending place := by
  obtain ⟨dir, hdir, hat, hbefore⟩ := h
  exact ⟨dir, hdir, hat, (List.forall_mem_cons.mp hbefore).2⟩

theorem LeftBehind.next (ht : t.WellFormed) {v : Visit} {pending : List Visit}
    {place old : Location} (h : LeftBehind t s (v :: pending) old) :
    LeftBehind t s (Walk.next t s place v ++ pending) old := by
  obtain ⟨dir, hdir, hat, hbefore⟩ := h
  obtain ⟨hfirst, hothers⟩ := List.forall_mem_cons.mp hbefore
  refine ⟨dir, hdir, hat, fun w hw => (List.mem_append.mp hw).elim (fun hw hlater => ?_) (hothers w)⟩
  obtain ⟨name, hpath⟩ := exists_components_of_mem_next ht hw
  exact hfirst ((hpath ▸ List.prefix_append _ _).trans hlater)

theorem leftBehind_entered (ht : t.WellFormed) {v : Visit} {pending : List Visit}
    {place : Location} (hv : t.directoryAt? v.path = some place) (hreach : Reaches t s v.path)
    (hapart : (v :: pending).Pairwise fun u w => Apart u.path w.path) :
    LeftBehind t s (next t s place v ++ pending) place := by
  refine ⟨v.path, hreach, hv, fun w hw => (List.mem_append.mp hw).elim (fun hw hlater => ?_)
    fun hw => ((List.pairwise_cons.mp hapart).1 w hw).2⟩
  obtain ⟨name, hpath⟩ := exists_components_of_mem_next ht hw
  have hlength := hlater.length_le
  rw [hpath, List.length_append, List.length_singleton] at hlength
  omega

/-- **A walk that fails has come to a directory by two paths.** -/
theorem Enters.exists_twice {visited : List Location} {pending : List Visit}
    {entered : List (Location × Visit)} {failure : Option Failure} (ht : t.WellFormed)
    (h : Enters t s visited pending entered failure) (hdue : ∀ v ∈ pending, Due t s v)
    (hapart : pending.Pairwise fun u w => Apart u.path w.path)
    (hvisited : ∀ place ∈ visited, LeftBehind t s pending place)
    (hfailure : failure ≠ none) : ∃ dir other, dir ≠ other ∧ Reaches t s dir ∧
      Reaches t s other ∧ t.directoryAt? dir = t.directoryAt? other := by
  induction h with
  | done => exact absurd rfl hfailure
  | skip hv h ih =>
    exact ih (List.forall_mem_cons.mp hdue).2 (List.pairwise_cons.mp hapart).2
      (fun place hplace => (hvisited place hplace).skip) hfailure
  | @cycle visited v pending place hv hold =>
    obtain ⟨dir, hdir, hat, hbefore⟩ := hvisited place hold
    refine ⟨dir, v.path, fun heq => ?_, hdir,
      (hdue v List.mem_cons_self).reaches (isDirectory_iff.mpr ⟨place, hv⟩), hat.trans hv.symm⟩
    exact hbefore v List.mem_cons_self (heq ▸ List.prefix_rfl)
  | @enter visited v pending place entered failure hv hnew h ih =>
    obtain ⟨hfirst, hpending⟩ := List.forall_mem_cons.mp hdue
    have hreach := hfirst.reaches (isDirectory_iff.mpr ⟨place, hv⟩)
    refine ih (fun w hw => ?_) (pairwise_apart_next ht hapart)
      (List.forall_mem_cons.mpr ⟨leftBehind_entered ht hv hreach hapart,
        fun old hold => (hvisited old hold).next ht⟩) hfailure
    exact (List.mem_append.mp hw).elim (hfirst.next ht hv) (hpending w)

end TwigTemplate.Project.Walk
