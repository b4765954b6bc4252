import Mathlib.Data.List.Basic
import TwigTemplate.Fold.Tracker
import TwigTemplate.Proofs.Fold.Pass

/-!
# What a tracker finds in one pass

A tracker keeps the depths of all keys while it reads the lines once.  A line that leaves a
key open waits until the depth of this key falls back, and this is where a search from that
line on would stop.

* `step_cases`: **what one change does**.
* `Stacked`: the lines that wait for a key wait for ever smaller depths, all of them below the
  depth of the key.
* `Clear`, `Waits`: a line that is not waited for, and one that waits for a key.
* `laws_pass`: **a tracker keeps the lines that wait apart**.
* `endOf?_readLines`: in one pass every line ends where the search from it on stops.
-/

namespace TwigTemplate.Fold.Tracker

variable {κ : Type}

/-! ### One change -/

theorem endOf?_of_ends {t u : Tracker κ} {first last : Nat}
    (h : t.ends = (first, last) :: u.ends) (line : Nat) :
    t.endOf? line = if first = line then some last else u.endOf? line := by
  rw [endOf?, h, List.find?_cons]
  by_cases hline : first = line
  · rw [decide_eq_true hline, if_pos hline]
    rfl
  · rw [decide_eq_false hline, if_neg hline]
    rfl

theorem endOf?_congr {t u : Tracker κ} (h : t.ends = u.ends) (line : Nat) :
    t.endOf? line = u.endOf? line := by
  rw [endOf?, h, endOf?]

variable [DecidableEq κ]

theorem depth_of_put {t u : Tracker κ} {key : κ} {depth : Int}
    (h : t.depths = u.depths.put key depth) (key' : κ) :
    t.depth key' = if key' = key then depth else u.depth key' := by
  rw [Tracker.depth, h, Table.get?_put]
  split <;> rfl

theorem waitingFor_of_put {t u : Tracker κ} {key : κ} {ws : List Waiting}
    (h : t.waiting = u.waiting.put key ws) (key' : κ) :
    t.waitingFor key' = if key' = key then ws else u.waitingFor key' := by
  rw [waitingFor, h, Table.get?_put]
  split <;> rfl

theorem waitingFor_wait (t : Tracker κ) (key key' : κ) (w : Waiting) :
    (t.wait key w).waitingFor key' =
      if key' = key then w :: t.waitingFor key else t.waitingFor key' :=
  waitingFor_of_put rfl key'

theorem depth_wait (t : Tracker κ) (key key' : κ) (w : Waiting) :
    (t.wait key w).depth key' = t.depth key' := rfl

theorem endOf?_wait (t : Tracker κ) (key : κ) (w : Waiting) (line : Nat) :
    (t.wait key w).endOf? line = t.endOf? line := rfl

theorem depths_step {delta : Int} (h : delta ≠ 0) (line : Nat) (t : Tracker κ) (key : κ) :
    (t.step line key delta).depths = t.depths.put key (t.depth key + delta) := by
  rw [step, if_neg h]
  dsimp only
  split
  · split <;> rfl
  · rfl

theorem depth_step (line : Nat) (t : Tracker κ) (key key' : κ) (delta : Int) :
    (t.step line key delta).depth key' = t.depth key' + if key = key' then delta else 0 := by
  by_cases hdelta : delta = 0
  · rw [step, if_pos hdelta, hdelta, ite_self, Int.add_zero]
  · rw [depth_of_put (depths_step hdelta line t key)]
    by_cases hkey : key = key'
    · rw [if_pos hkey.symm, if_pos hkey, hkey]
    · rw [if_neg (Ne.symm hkey), if_neg hkey, Int.add_zero]

/-- **One change** ends the line waiting last for its key, or leaves all that wait. -/
theorem step_cases (line : Nat) (t : Tracker κ) (key : κ) (delta : Int) :
    (∃ w ws, t.waitingFor key = w :: ws ∧ delta < 0 ∧ w.depth = t.depth key + delta ∧
        (t.step line key delta).ends = (w.line, line) :: t.ends ∧
        ∀ key', (t.step line key delta).waitingFor key' =
          if key' = key then ws else t.waitingFor key') ∨
      ((∀ w ∈ (t.waitingFor key).head?, delta < 0 → w.depth ≠ t.depth key + delta) ∧
        (t.step line key delta).ends = t.ends ∧
        ∀ key', (t.step line key delta).waitingFor key' = t.waitingFor key') := by
  rw [step]
  split
  · next hdelta => exact Or.inr ⟨fun w _ hneg => absurd hdelta (by omega), rfl, fun _ => rfl⟩
  · dsimp only
    split
    · next w ws hws =>
      split
      · next hfall =>
        exact Or.inl ⟨w, ws, hws, hfall.1, hfall.2, rfl, waitingFor_of_put rfl⟩
      · next hstay =>
        rw [hws]
        refine Or.inr ⟨fun v hv hneg => ?_, rfl, fun _ => rfl⟩
        obtain rfl := Option.some.inj hv
        exact fun he => hstay ⟨hneg, he⟩
    · next hws =>
      rw [hws]
      exact Or.inr ⟨fun v hv => absurd hv (by simp), rfl, fun _ => rfl⟩

/-- The lines that wait for a key wait for ever smaller depths below its depth. -/
def Stacked (t : Tracker κ) : Prop :=
  ∀ key, (t.depth key :: (t.waitingFor key).map (·.depth)).Pairwise fun a b => b < a

theorem stacked_empty : Stacked (empty : Tracker κ) := fun _ => List.pairwise_singleton _ _

/-- Depths change by one at most. -/
def Gentle (delta : Int) : Prop :=
  -1 ≤ delta ∧ delta ≤ 1

theorem Stacked.step {t : Tracker κ} (h : Stacked t) {delta : Int} (hdelta : Gentle delta)
    (line : Nat) (key : κ) : Stacked (t.step line key delta) := by
  intro key'
  obtain ⟨hlow, hhigh⟩ := hdelta
  have hstack := h key'
  rw [depth_step]
  by_cases hkey : key = key'
  · subst hkey
    rw [if_pos rfl]
    rcases step_cases line t key delta with ⟨w, ws, hws, -, hw, -, hwaiting⟩ |
      ⟨hhead, -, hwaiting⟩
    · rw [hws, List.map_cons] at hstack
      rw [hwaiting, if_pos rfl, ← hw]
      exact (List.pairwise_cons.mp hstack).2
    · rw [hwaiting]
      cases hws : t.waitingFor key with
      | nil => exact List.pairwise_singleton _ _
      | cons w ws =>
        rw [hws] at hstack hhead
        have hne := hhead w rfl
        obtain ⟨hbelow, htail⟩ := List.pairwise_cons.mp hstack
        have hfront := hbelow w.depth List.mem_cons_self
        have hnext : w.depth < t.depth key + delta := by
          by_cases hneg : delta < 0
          · have := hne hneg
            omega
          · omega
        refine List.pairwise_cons.mpr ⟨fun d hd => ?_, htail⟩
        rcases List.mem_cons.mp hd with rfl | hd
        · exact hnext
        · exact Int.lt_trans ((List.pairwise_cons.mp htail).1 d hd) hnext
  · have hsame : (t.step line key delta).waitingFor key' = t.waitingFor key' := by
      rcases step_cases line t key delta with ⟨w, ws, -, -, -, -, hwaiting⟩ | ⟨-, -, hwaiting⟩
      · rw [hwaiting, if_neg (Ne.symm hkey)]
      · exact hwaiting key'
    rwa [if_neg hkey, Int.add_zero, hsame]

/-! ### One line that waits -/

/-- No line waits under this number. -/
def Clear (line : Nat) (t : Tracker κ) : Prop :=
  ∀ key, ∀ w ∈ t.waitingFor key, w.line ≠ line

/-- A line waits for one key to fall back to a depth, and for nothing else. -/
structure Waits (t : Tracker κ) (line : Nat) (key : κ) (depth : Int) : Prop where
  mem : ⟨depth, line⟩ ∈ t.waitingFor key
  only : ∀ key', ∀ w ∈ t.waitingFor key', w.line = line → key' = key ∧ w.depth = depth
  pending : t.endOf? line = none

section Step

variable {t : Tracker κ} {first : Nat} {key : κ} {target : Int}

theorem Clear.step (h : Clear first t) (line : Nat) (key' : κ) (delta : Int) :
    Clear first (t.step line key' delta) ∧
      (t.step line key' delta).endOf? first = t.endOf? first := by
  rcases step_cases line t key' delta with ⟨w, ws, hws, -, -, hends, hwaiting⟩ | ⟨-, hends, hwaiting⟩
  · have hmem : ∀ v ∈ w :: ws, v.line ≠ first := fun v hv => h key' v (by rwa [hws])
    constructor
    · intro k v hv
      rw [hwaiting] at hv
      split at hv
      · exact hmem v (List.mem_cons_of_mem _ hv)
      · exact h k v hv
    · rw [endOf?_of_ends hends, if_neg (hmem w List.mem_cons_self)]
  · refine ⟨fun k v hv => ?_, endOf?_congr hends first⟩
    rw [hwaiting] at hv
    exact h k v hv

theorem Waits.depth_lt (h : Waits t first key target) (hstack : Stacked t) :
    target < t.depth key :=
  (List.pairwise_cons.mp (hstack key)).1 target (List.mem_map_of_mem h.mem)

theorem Waits.step (h : Waits t first key target) (line : Nat) {key' : κ} {delta : Int}
    (hstay : ¬(key = key' ∧ t.depth key + delta = target)) :
    Waits (t.step line key' delta) first key target := by
  rcases step_cases line t key' delta with ⟨w, ws, hws, -, hw, hends, hwaiting⟩ |
    ⟨-, hends, hwaiting⟩
  · have hline : w.line ≠ first := fun he => by
      obtain ⟨rfl, hdepth⟩ := h.only key' w (by rw [hws]; exact List.mem_cons_self) he
      exact hstay ⟨rfl, by rw [← hw, hdepth]⟩
    refine ⟨?_, fun k v hv he => ?_, ?_⟩
    · rw [hwaiting]
      split
      · next hkey =>
        have hmem := h.mem
        rw [hkey, hws] at hmem
        rcases List.mem_cons.mp hmem with rfl | hmem
        · exact absurd rfl hline
        · exact hmem
      · exact h.mem
    · rw [hwaiting] at hv
      split at hv
      · next hkey =>
        exact h.only k v (by rw [hkey, hws]; exact List.mem_cons_of_mem _ hv) he
      · exact h.only k v hv he
    · rw [endOf?_of_ends hends, if_neg hline]
      exact h.pending
  · refine ⟨?_, fun k v hv he => ?_, ?_⟩
    · rw [hwaiting]
      exact h.mem
    · rw [hwaiting] at hv
      exact h.only k v hv he
    · rw [endOf?_congr hends]
      exact h.pending

theorem Waits.step_end (h : Waits t first key target) (hstack : Stacked t) (line : Nat)
    {delta : Int} (hdelta : Gentle delta) (hfall : t.depth key + delta = target) :
    Clear first (t.step line key delta) ∧ (t.step line key delta).endOf? first = some line := by
  have hlt := h.depth_lt hstack
  obtain ⟨hbelow, hpairs⟩ := List.pairwise_cons.mp (hstack key)
  have hmem := h.mem
  -- The line waits for the depth just below, so it is the last that waits.
  obtain ⟨ws, hws⟩ : ∃ ws, t.waitingFor key = ⟨target, first⟩ :: ws := by
    cases hws : t.waitingFor key with
    | nil => rw [hws] at hmem; exact absurd hmem (by simp)
    | cons w ws =>
      rw [hws] at hmem hbelow hpairs
      rcases List.mem_cons.mp hmem with rfl | hmem
      · exact ⟨ws, rfl⟩
      · have hfront := hbelow w.depth List.mem_cons_self
        have hlast := (List.pairwise_cons.mp hpairs).1 target (List.mem_map_of_mem hmem)
        have hlow := hdelta.1
        dsimp only at hfront hlast
        omega
  rw [hws] at hpairs
  rcases step_cases line t key delta with ⟨w, ws', hws', -, hw, hends, hwaiting⟩ | ⟨hhead, -, -⟩
  · rw [hws] at hws'
    obtain ⟨rfl, rfl⟩ := List.cons.inj hws'
    refine ⟨fun k v hv he => ?_, ?_⟩
    · rw [hwaiting] at hv
      split at hv
      · have hdepth := (h.only key v (by rw [hws]; exact List.mem_cons_of_mem _ hv) he).2
        have := (List.pairwise_cons.mp hpairs).1 v.depth (List.mem_map_of_mem hv)
        dsimp only at this
        omega
      · next hkey => exact hkey (h.only k v hv he).1
    · rw [endOf?_of_ends hends, if_pos rfl]
  · rw [hws] at hhead
    exact absurd hfall.symm (hhead _ rfl (by omega))

end Step

/-! ### One line -/

/-- What some changes add to the depth of a key. -/
def balance (key : κ) (changes : List (κ × Int)) : Int :=
  changes.foldr (fun c n => (if c.1 = key then c.2 else 0) + n) 0

/-- The depth of a key after some changes; `none` as soon as it is zero. -/
def depthPast? (key : κ) : Int → List (κ × Int) → Option Int
  | depth, [] => some depth
  | depth, c :: cs =>
    if c.1 = key then
      if depth + c.2 = 0 then none else depthPast? key (depth + c.2) cs
    else depthPast? key depth cs

/-- Make the changes of one line. -/
def steps (line : Nat) (t : Tracker κ) (changes : List (κ × Int)) : Tracker κ :=
  changes.foldl (fun t c => t.step line c.1 c.2) t

theorem readLine_some (line : Nat) (t : Tracker κ) (key : κ) (changes : List (κ × Int)) :
    t.readLine line (some key) changes = (t.steps line changes).wait key ⟨t.depth key, line⟩ := rfl

theorem readLine_none (line : Nat) (t : Tracker κ) (changes : List (κ × Int)) :
    t.readLine line none changes = t.steps line changes := rfl

section Steps

variable {t : Tracker κ} {first line : Nat} {key : κ} {target : Int} {changes : List (κ × Int)}

theorem depth_steps (line : Nat) (t : Tracker κ) (key : κ) (changes : List (κ × Int)) :
    (t.steps line changes).depth key = t.depth key + balance key changes := by
  induction changes generalizing t with
  | nil => exact (Int.add_zero _).symm
  | cons c cs ih =>
    have hrest := ih (t.step line c.1 c.2)
    rw [depth_step, Int.add_assoc] at hrest
    exact hrest

theorem waitingFor_steps (line : Nat) (t : Tracker κ) (key : κ) (changes : List (κ × Int)) :
    (t.steps line changes).waitingFor key <:+ t.waitingFor key := by
  induction changes generalizing t with
  | nil => exact List.suffix_refl _
  | cons c cs ih =>
    refine (ih (t.step line c.1 c.2)).trans ?_
    rcases step_cases line t c.1 c.2 with ⟨w, ws, hws, -, -, -, hwaiting⟩ | ⟨-, -, hwaiting⟩
    · rw [hwaiting]
      split
      · next hkey =>
        rw [hkey, hws]
        exact List.suffix_cons _ _
      · exact List.suffix_refl _
    · exact hwaiting key ▸ List.suffix_refl _

theorem Stacked.steps (h : Stacked t) (hchanges : ∀ c ∈ changes, Gentle c.2) (line : Nat) :
    Stacked (t.steps line changes) := by
  induction changes generalizing t with
  | nil => exact h
  | cons c cs ih =>
    obtain ⟨hc, hcs⟩ := List.forall_mem_cons.mp hchanges
    exact ih (h.step hc line c.1) hcs

theorem Clear.steps (h : Clear first t) (line : Nat) (changes : List (κ × Int)) :
    Clear first (t.steps line changes) ∧ (t.steps line changes).endOf? first = t.endOf? first := by
  induction changes generalizing t with
  | nil => exact ⟨h, rfl⟩
  | cons c cs ih =>
    obtain ⟨hclear, hend⟩ := h.step line c.1 c.2
    obtain ⟨hclear', hend'⟩ := ih hclear
    exact ⟨hclear', hend'.trans hend⟩

/-- **The changes of a line end a line that waits, or move the depth of its key.** -/
theorem Waits.steps (h : Waits t first key target) (hstack : Stacked t)
    (hchanges : ∀ c ∈ changes, Gentle c.2) (line : Nat) :
    (depthPast? key (t.depth key - target) changes = none →
        Clear first (t.steps line changes) ∧ (t.steps line changes).endOf? first = some line) ∧
      ∀ depth, depthPast? key (t.depth key - target) changes = some depth →
        Waits (t.steps line changes) first key target ∧
          (t.steps line changes).depth key - target = depth := by
  induction changes generalizing t with
  | nil =>
    refine ⟨fun hnone => absurd hnone (by simp [depthPast?]), fun depth hdepth => ⟨h, ?_⟩⟩
    exact Option.some.inj hdepth
  | cons c cs ih =>
    obtain ⟨hc, hcs⟩ := List.forall_mem_cons.mp hchanges
    have hnext := hstack.step hc line c.1
    have hdepth := depth_step line t c.1 key c.2
    rw [depthPast?]
    by_cases hkey : c.1 = key
    · rw [if_pos hkey] at hdepth
      rw [if_pos hkey]
      by_cases hfall : t.depth key + c.2 = target
      · rw [if_pos (by omega)]
        refine ⟨fun _ => ?_, fun depth hnone => absurd hnone (by simp)⟩
        obtain ⟨hclear, hend⟩ := h.step_end hstack line hc hfall
        rw [← hkey] at hclear hend
        obtain ⟨hclear', hend'⟩ := hclear.steps line cs
        exact ⟨hclear', hend'.trans hend⟩
      · have hstays : Waits (t.step line c.1 c.2) first key target :=
          h.step line fun he => hfall he.2
        have hrest := ih hstays hnext hcs
        rw [hdepth, show t.depth key + c.2 - target = t.depth key - target + c.2 by omega] at hrest
        rw [if_neg (by omega)]
        exact hrest
    · rw [if_neg hkey, Int.add_zero] at hdepth
      have hstays : Waits (t.step line c.1 c.2) first key target :=
        h.step line fun he => hkey he.1.symm
      have hrest := ih hstays hnext hcs
      rw [hdepth] at hrest
      rw [if_neg hkey]
      exact hrest

end Steps

/-- A line of changes by one at most, which leaves the key open that it says it does. -/
structure Proper (row : Option κ × List (κ × Int)) : Prop where
  gentle : ∀ c ∈ row.2, Gentle c.2
  opens : ∀ key, row.1 = some key → 0 < balance key row.2

section Line

variable {t : Tracker κ} {first line : Nat} {key : κ} {target : Int}
  {row : Option κ × List (κ × Int)}

theorem Stacked.readLine (h : Stacked t) (hrow : Proper row) (line : Nat) :
    Stacked (t.readLine line row.1 row.2) := by
  have hafter := h.steps hrow.gentle line
  cases hopener : row.1 with
  | none => exact hafter
  | some key =>
    intro key'
    rw [readLine_some, depth_wait, waitingFor_wait]
    by_cases hkey : key' = key
    · subst hkey
      obtain ⟨hbelow, hpairs⟩ := List.pairwise_cons.mp (hafter key')
      have hdepth := depth_steps line t key' row.2
      have hopens := hrow.opens key' hopener
      rw [if_pos rfl, List.map_cons]
      refine List.pairwise_cons.mpr ⟨?_, List.pairwise_cons.mpr ⟨fun d hd => ?_, hpairs⟩⟩
      · refine List.forall_mem_cons.mpr ⟨?_, hbelow⟩
        dsimp only
        omega
      · exact (List.pairwise_cons.mp (h key')).1 d
          (((waitingFor_steps line t key' row.2).map _).subset hd)
    · rw [if_neg hkey]
      exact hafter key'

theorem Clear.readLine (h : Clear first t) (hne : line ≠ first)
    (row : Option κ × List (κ × Int)) :
    Clear first (t.readLine line row.1 row.2) ∧
      (t.readLine line row.1 row.2).endOf? first = t.endOf? first := by
  obtain ⟨hclear, hend⟩ := h.steps line row.2
  cases row.1 with
  | none => exact ⟨hclear, hend⟩
  | some key =>
    rw [readLine_some, endOf?_wait]
    refine ⟨fun k w hw => ?_, hend⟩
    rw [waitingFor_wait] at hw
    split at hw
    · rcases List.mem_cons.mp hw with rfl | hw
      · exact hne
      · exact hclear key w hw
    · exact hclear k w hw

theorem Waits.readLine (h : Waits t first key target) (hstack : Stacked t) (hrow : Proper row)
    (hne : line ≠ first) :
    (depthPast? key (t.depth key - target) row.2 = none →
        Clear first (t.readLine line row.1 row.2) ∧
          (t.readLine line row.1 row.2).endOf? first = some line) ∧
      ∀ depth, depthPast? key (t.depth key - target) row.2 = some depth →
        Waits (t.readLine line row.1 row.2) first key target ∧
          (t.readLine line row.1 row.2).depth key - target = depth := by
  obtain ⟨hends, hwaits⟩ := h.steps hstack hrow.gentle line
  cases row.1 with
  | none => exact ⟨hends, hwaits⟩
  | some opener =>
    rw [readLine_some, endOf?_wait, depth_wait]
    refine ⟨fun hnone => ?_, fun depth hdepth => ?_⟩
    · obtain ⟨hclear, hend⟩ := hends hnone
      refine ⟨fun k w hw => ?_, hend⟩
      rw [waitingFor_wait] at hw
      split at hw
      · rcases List.mem_cons.mp hw with rfl | hw
        · exact hne
        · exact hclear opener w hw
      · exact hclear k w hw
    · obtain ⟨hwait, hmoved⟩ := hwaits depth hdepth
      refine ⟨⟨?_, fun k w hw he => ?_, hwait.pending⟩, hmoved⟩
      · rw [waitingFor_wait]
        split
        · next hkey => exact List.mem_cons_of_mem _ (hkey ▸ hwait.mem)
        · exact hwait.mem
      · rw [waitingFor_wait] at hw
        split at hw
        · next hkey =>
          rcases List.mem_cons.mp hw with rfl | hw
          · exact absurd he hne
          · exact hkey ▸ hwait.only opener w hw he
        · exact hwait.only k w hw he

/-- A line that leaves a key open begins to wait for it. -/
theorem waits_readLine (h : Clear line t) (hend : t.endOf? line = none) (hopener : row.1 = some key) :
    Waits (t.readLine line row.1 row.2) line key (t.depth key) ∧
      (t.readLine line row.1 row.2).depth key - t.depth key = balance key row.2 := by
  obtain ⟨hclear, hsame⟩ := h.steps line row.2
  rw [hopener, readLine_some, depth_wait, depth_steps]
  refine ⟨⟨?_, fun k w hw he => ?_, hsame.trans hend⟩, by omega⟩
  · rw [waitingFor_wait, if_pos rfl]
    exact List.mem_cons_self
  · rw [waitingFor_wait] at hw
    split at hw
    · next hkey =>
      rcases List.mem_cons.mp hw with rfl | hw
      · exact ⟨hkey, rfl⟩
      · exact absurd he (hclear key w hw)
    · exact absurd he (hclear k w hw)

end Line

/-! ### The pass -/

variable (κ) in
/-- The pass of a tracker.  A line waits for a key, at a number of levels above its depth before
the line. -/
def pass : Pass (Tracker κ) (Option κ × List (κ × Int)) (κ × Int) where
  read line row t := t.readLine line row.1 row.2
  endOf? := endOf?
  opening? row := row.1.map fun key => (key, balance key row.2)
  next? b row := (depthPast? b.1 b.2 row.2).map (b.1, ·)

theorem readLines_eq (line : Nat) (t : Tracker κ) (rows : List (Option κ × List (κ × Int))) :
    readLines line t rows = (pass κ).readLines line t rows := by
  induction rows generalizing line t with
  | nil => rfl
  | cons row rows ih => exact ih _ _

/-- **A tracker keeps the lines that wait apart.** -/
theorem laws_pass : (pass κ).Laws Stacked Proper Clear fun t first b =>
    ∃ target, Waits t first b.1 target ∧ t.depth b.1 - target = b.2 where
  good line hstack hrow := hstack.readLine hrow line
  clear row hclear hne := hclear.readLine hne row
  opens {t row line b} hclear hend hopening := by
    obtain ⟨key, hkey, rfl⟩ := Option.map_eq_some_iff.mp hopening
    exact ⟨t.depth key, waits_readLine hclear hend hkey⟩
  idles {t row line} hclear hend hopening := by
    obtain ⟨hclear', hend'⟩ := hclear.steps line row.2
    have hread : (pass κ).read line row t = t.steps line row.2 := by
      show t.readLine line row.1 row.2 = _
      rw [Option.map_eq_none_iff.mp hopening, readLine_none]
    rw [hread]
    exact ⟨hclear', hend'.trans hend⟩
  waits {t row first line b next} hstack hrow hwaits hne hnext := by
    obtain ⟨target, hwait, hdepth⟩ := hwaits
    obtain ⟨depth, hpast, rfl⟩ := Option.map_eq_some_iff.mp hnext
    rw [← hdepth] at hpast
    exact ⟨target, (hwait.readLine hstack hrow hne).2 depth hpast⟩
  ends {t row first line b} hstack hrow hwaits hne hnext := by
    obtain ⟨target, hwait, hdepth⟩ := hwaits
    have hpast := Option.map_eq_none_iff.mp hnext
    rw [← hdepth] at hpast
    exact (hwait.readLine hstack hrow hne).1 hpast
  pending {t first b} hwaits := by
    obtain ⟨target, hwait, -⟩ := hwaits
    exact hwait.pending

/-- **In one pass every line ends where the search from it on stops.** -/
theorem endOf?_readLines {rows : List (Option κ × List (κ × Int))}
    (hrows : ∀ row ∈ rows, Proper row) (line : Nat) :
    (readLines 0 .empty rows).endOf? line =
      ((pass κ).searchFrom? (rows.drop line)).map (line + ·) := by
  rw [readLines_eq]
  exact laws_pass.endOf?_readLines_zero stacked_empty hrows
    (fun _ => ⟨fun _ _ hw => absurd hw (by simp [waitingFor, empty, Table.get?]), rfl⟩) line

end TwigTemplate.Fold.Tracker
