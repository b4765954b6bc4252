import Mathlib.Logic.Function.Basic
import TwigTemplate.Editor.Session
import TwigTemplate.Libraries.Standard

/-!
# What an editor shows

An editor shows for every document the marks that it was sent last.  Every event is answered with
the marks of each document whose marks it changed, and all marks that are sent are those of the
session after the event.  So the editor shows the marks of the session, in whatever order the
notices of one event arrive.

* `Screen`: what an editor shows, and what notices make of it.
* `Shows`: an editor that was told of a history and has taken what it was sent.
* `Event.says?`, `document?_handle`: **an event changes the text of its own document only**.
* `eq_publish_of_mem`, `publish_mem_handle`: **what is sent is up to date, and is sent when it
  is due**.
* `config_handle`: **only saving the configuration changes it**, and only if it can be read.
* `shows_iff`: **after every history, the editor shows the marks of the open texts**.
-/

namespace TwigTemplate.Editor

/-- What an editor shows for each document. -/
abbrev Screen := String → List Mark

namespace Screen

/-- Nothing is marked. -/
def empty : Screen := fun _ => []

/-- The marks of a document take the place of those shown before. -/
def take (screen : Screen) : Notice → Screen
  | .marks uri marks => Function.update screen uri marks
  | .failed _ => screen
  | .started => screen

/-- What is shown after some notices. -/
def after (screen : Screen) (notices : List Notice) : Screen :=
  notices.foldl take screen

/-- If all marks that are sent are those that `f` gives, the ones shown are among them, or no marks
were sent for the document. -/
theorem after_eq {f : Screen} {notices : List Notice}
    (h : ∀ notice ∈ notices, ∃ uri, notice = .marks uri (f uri)) (screen : Screen) (uri : String) :
    screen.after notices uri = f uri ∨
      screen.after notices uri = screen uri ∧ Notice.marks uri (f uri) ∉ notices := by
  induction notices generalizing screen with
  | nil => exact Or.inr ⟨rfl, List.not_mem_nil⟩
  | cons notice notices ih =>
    obtain ⟨⟨u, rfl⟩, hnotices⟩ := List.forall_mem_cons.mp h
    rcases ih hnotices (screen.take (.marks u (f u))) with hlast | ⟨hkept, hnone⟩
    · exact Or.inl hlast
    · have hfirst : screen.after (.marks u (f u) :: notices) uri =
          Function.update screen u (f u) uri := hkept
      by_cases heq : uri = u
      · subst heq
        rw [Function.update_self] at hfirst
        exact Or.inl hfirst
      · rw [Function.update_of_ne heq] at hfirst
        refine Or.inr ⟨hfirst, fun hmem => ?_⟩
        rcases List.mem_cons.mp hmem with hsame | hmem
        · exact heq (Notice.marks.inj hsame).1
        · exact hnone hmem

end Screen

/-! ### What events say -/

namespace Event

/-- The document that an event is about. -/
def uri : Event → String
  | .opened uri _ => uri
  | .changed uri _ => uri
  | .saved uri _ => uri
  | .closed uri => uri

/-- What an event says about the text of a document, if it says anything: the text that is open from
then on, or that none is. -/
def says? [Libraries] (uri : String) (e : Event) : Option (Option (List Char)) :=
  if e.uri ≠ uri then none
  else match e with
    | .opened _ text => some (some text)
    | .changed _ texts => texts.getLast?.map some
    | .saved uri text => if Session.isConfig uri then none else text.map some
    | .closed _ => some none

/-- The text of a document that is open after some events: the last text that one of them gives,
unless the document was closed after that. -/
def textAfter? [Libraries] (uri : String) (events : List Event) : Option (List Char) :=
  (events.filterMap (says? uri)).getLast?.join

end Event

namespace Session

open FileTree (lookup_cons_eq)

variable {t : FileTree} {s : Session} {uri : String}

/-! ### Documents -/

theorem document?_put (s : Session) (u : String) (text : List Char) (uri : String) :
    (s.put u text).document? uri = if uri = u then some text else s.document? uri := by
  show (putIn u text s.documents).lookup uri = if uri = u then some text else s.documents.lookup uri
  induction s.documents with
  | nil => rw [putIn, lookup_cons_eq]
  | cons entry documents ih =>
    obtain ⟨v, old⟩ := entry
    rw [putIn, lookup_cons_eq]
    by_cases hv : v = u
    · subst hv
      rw [if_pos rfl, lookup_cons_eq]
      split <;> rfl
    · rw [if_neg hv, lookup_cons_eq, ih]
      by_cases huri : uri = v
      · rw [if_pos huri, if_pos huri, if_neg (huri ▸ hv)]
      · rw [if_neg huri, if_neg huri]

theorem document?_remove (s : Session) (u uri : String) :
    (s.remove u).document? uri = if uri = u then none else s.document? uri := by
  show (s.documents.filter (·.1 ≠ u)).lookup uri = if uri = u then none else s.documents.lookup uri
  induction s.documents with
  | nil => simp
  | cons entry documents ih =>
    obtain ⟨v, old⟩ := entry
    rw [List.filter_cons, lookup_cons_eq]
    by_cases hv : v = u
    · subst hv
      rw [if_neg (by simp), ih]
      split <;> rfl
    · rw [if_pos (by simpa using hv), lookup_cons_eq, ih]
      by_cases huri : uri = v
      · rw [if_pos huri, if_pos huri, if_neg (huri ▸ hv)]
      · rw [if_neg huri, if_neg huri]

theorem mem_documents {cs : List Char} (h : s.document? uri = some cs) :
    (uri, cs) ∈ s.documents := by
  obtain ⟨before, after, hdocuments, -⟩ := List.lookup_eq_some_iff.mp h
  rw [hdocuments]
  exact List.mem_append_right _ List.mem_cons_self

theorem marksOf_eq (s : Session) (uri : String) :
    s.marksOf uri = (s.document? uri).elim [] (marks s.config.lint.options) := by
  rw [marksOf]
  cases s.document? uri <;> rfl

section Handling

variable [Libraries]

theorem exists_reload (t : FileTree) (s : Session) :
    ∃ config, s.reload t = { s with config } := by
  rw [reload]
  split
  · exact ⟨s.config, rfl⟩
  · split
    · exact ⟨_, rfl⟩
    · exact ⟨s.config, rfl⟩

/-- **A configuration that cannot be read leaves the one before.** -/
theorem reload_of_error {root : Path} {f : Failure} (hroot : s.root = some root)
    (hload : Config.load t root = .error f) : s.reload t = s := by
  rw [reload, hroot]
  simp only [hload]

/-! ### One event -/

/-- What an event does to a session that has not been stopped. -/
inductive Handles (t : FileTree) (s : Session) : Event → Session × List Notice → Prop
  | text {e : Event} {text : List Char} (h : e.says? e.uri = some (some text)) :
      Handles t s e (s.update e.uri text)
  | noText {uri : String} : Handles t s (.changed uri []) (s, [])
  | config {uri : String} {text : Option (List Char)} (h : isConfig uri = true) :
      Handles t s (.saved uri text)
        (s.reload t, (s.reload t).documents.map fun (uri, _) => (s.reload t).publish uri)
  | saved {uri : String} (h : isConfig uri = false) :
      Handles t s (.saved uri none) (s, [s.publish uri])
  | closed {uri : String} : Handles t s (.closed uri) (s.remove uri, [.marks uri []])

theorem handles (hs : s.stopped = false) (t : FileTree) (e : Event) :
    Handles t s e (s.handle t e) := by
  unfold handle
  rw [if_neg (by simp [hs])]
  cases e with
  | opened uri text => exact .text (e := .opened uri text) (by simp [Event.says?, Event.uri])
  | changed uri texts =>
    rcases texts.eq_nil_or_concat with rfl | ⟨before, text, rfl⟩
    · exact .noText
    · have hlast : (before.concat text).getLast? = some text := by simp
      simp only [hlast]
      exact .text (e := .changed uri _) (by simp [Event.says?, Event.uri])
  | saved uri text =>
    by_cases hconfig : isConfig uri = true
    · simp only [if_pos hconfig]
      exact .config hconfig
    · simp only [if_neg hconfig]
      have hconfig : isConfig uri = false := Bool.eq_false_iff.mpr hconfig
      cases text with
      | none => exact .saved hconfig
      | some text =>
        exact .text (e := .saved uri (some text)) (by simp [Event.says?, Event.uri, hconfig])
  | closed uri => exact .closed

/-- An event neither stops a session nor moves it to another workspace. -/
theorem kept_handle (hs : s.stopped = false) (t : FileTree) (e : Event) :
    (s.handle t e).1.stopped = false ∧ (s.handle t e).1.root = s.root := by
  have h := handles hs t e
  obtain ⟨config, hreload⟩ := exists_reload t s
  generalize s.handle t e = r at h
  cases h with
  | text h => exact ⟨hs, rfl⟩
  | noText => exact ⟨hs, rfl⟩
  | config h => rw [hreload]; exact ⟨hs, rfl⟩
  | saved h => exact ⟨hs, rfl⟩
  | closed => exact ⟨hs, rfl⟩

/-- **An event changes the text of its own document only**, and as it says. -/
theorem document?_handle (hs : s.stopped = false) (t : FileTree) (e : Event) (uri : String) :
    (s.handle t e).1.document? uri = (e.says? uri).getD (s.document? uri) := by
  have h := handles hs t e
  obtain ⟨config, hreload⟩ := exists_reload t s
  generalize s.handle t e = r at h
  have hother : e.uri ≠ uri → e.says? uri = none := fun hne => if_pos hne
  by_cases huri : e.uri = uri
  · subst huri
    cases h with
    | text h => rw [h]; exact (document?_put s _ _ _).trans (if_pos rfl)
    | noText => simp [Event.says?]
    | config h => rw [hreload]; simp [Event.says?, Event.uri, h, document?]
    | saved h => simp [Event.says?]
    | closed => simp [Event.says?, Event.uri, document?_remove]
  · rw [hother huri]
    cases h with
    | text h => exact (document?_put s _ _ _).trans (if_neg (Ne.symm huri))
    | noText => rfl
    | config h => rw [hreload]; rfl
    | saved h => rfl
    | closed => exact (document?_remove s _ _).trans (if_neg (Ne.symm huri))

/-- **Only saving the configuration changes it**, by reading it again. -/
theorem config_handle (hs : s.stopped = false) (t : FileTree) (e : Event) :
    (s.handle t e).1.config = s.config ∨
      (∃ uri text, e = .saved uri text ∧ isConfig uri = true) ∧
        (s.handle t e).1 = s.reload t := by
  have h := handles hs t e
  generalize s.handle t e = r at h
  cases h with
  | text h => exact Or.inl rfl
  | noText => exact Or.inl rfl
  | @config uri text h => exact Or.inr ⟨⟨uri, text, rfl, h⟩, rfl⟩
  | saved h => exact Or.inl rfl
  | closed => exact Or.inl rfl

/-- **All marks that are sent are up to date.** -/
theorem eq_publish_of_mem (hs : s.stopped = false) (t : FileTree) (e : Event) :
    ∀ notice ∈ (s.handle t e).2, ∃ uri, notice = (s.handle t e).1.publish uri := by
  have h := handles hs t e
  generalize s.handle t e = r at h
  intro notice hmem
  cases h with
  | text h => exact ⟨_, List.mem_singleton.mp hmem⟩
  | noText => exact absurd hmem List.not_mem_nil
  | config h =>
    obtain ⟨entry, -, rfl⟩ := List.mem_map.mp hmem
    exact ⟨entry.1, rfl⟩
  | saved h => exact ⟨_, List.mem_singleton.mp hmem⟩
  | @closed uri =>
    obtain rfl := List.mem_singleton.mp hmem
    refine ⟨uri, ?_⟩
    rw [publish, marksOf_eq, document?_remove, if_pos rfl]
    rfl

/-- **Marks that an event changed are sent.** -/
theorem publish_mem_handle (hs : s.stopped = false) (t : FileTree) (e : Event) {uri : String}
    (hnew : (s.handle t e).1.marksOf uri ≠ s.marksOf uri) :
    (s.handle t e).1.publish uri ∈ (s.handle t e).2 := by
  have h := handles hs t e
  generalize s.handle t e = r at h hnew
  cases h with
  | text h =>
    obtain rfl : uri = e.uri := by
      by_contra hne
      refine hnew ?_
      rw [update, marksOf_eq, marksOf_eq, document?_put, if_neg hne]
      rfl
    exact List.mem_cons_self
  | noText => exact absurd rfl hnew
  | config h =>
    obtain ⟨config, hreload⟩ := exists_reload t s
    cases hdocument : (s.reload t).document? uri with
    | none =>
      -- A document that is not open had no marks before either.
      refine absurd ?_ hnew
      have hold : s.document? uri = none := by
        rw [hreload] at hdocument
        exact hdocument
      rw [marksOf_eq, marksOf_eq, hdocument, hold]
      rfl
    | some cs => exact List.mem_map.mpr ⟨_, mem_documents hdocument, rfl⟩
  | saved h => exact absurd rfl hnew
  | @closed u =>
    obtain rfl : uri = u := by
      by_contra hne
      refine hnew ?_
      rw [marksOf_eq, marksOf_eq, document?_remove, if_neg hne]
      rfl
    rw [publish, marksOf_eq, document?_remove, if_pos rfl]
    exact List.mem_cons_self

/-! ### A history of events -/

/-- The session after a history: what the editor told, each with the files as they were then. -/
def afterEvents (s : Session) : List (FileTree × Event) → Session
  | [] => s
  | (t, e) :: history => (s.handle t e).1.afterEvents history

/-- An editor that shows `shown` after a history.  The notices of one event come in any order. -/
inductive Shows : Session → Screen → List (FileTree × Event) → Screen → Prop
  | done {s : Session} {screen : Screen} : Shows s screen [] screen
  | event {s : Session} {screen shown : Screen} {t : FileTree} {e : Event}
      {history : List (FileTree × Event)} {notices : List Notice}
      (hnotices : notices.Perm (s.handle t e).2)
      (h : Shows (s.handle t e).1 (screen.after notices) history shown) :
      Shows s screen ((t, e) :: history) shown

/-- The editor shows the marks of the session. -/
def UpToDate (s : Session) (screen : Screen) : Prop :=
  ∀ uri, screen uri = s.marksOf uri

/-- An event and its notices leave the editor up to date. -/
theorem UpToDate.handle {screen : Screen} (h : UpToDate s screen) (hs : s.stopped = false)
    (t : FileTree) (e : Event) {notices : List Notice} (hnotices : notices.Perm (s.handle t e).2) :
    UpToDate (s.handle t e).1 (screen.after notices) := by
  intro uri
  have hsent : ∀ notice ∈ notices, ∃ u, notice = .marks u ((s.handle t e).1.marksOf u) :=
    fun notice hmem => eq_publish_of_mem hs t e notice (hnotices.mem_iff.mp hmem)
  rcases Screen.after_eq hsent screen uri with hnew | ⟨hkept, hnone⟩
  · exact hnew
  · rw [hkept, h uri]
    by_contra hne
    exact hnone (hnotices.mem_iff.mpr (publish_mem_handle hs t e (Ne.symm hne)))

theorem Shows.upToDate {screen shown : Screen} {history : List (FileTree × Event)}
    (h : Shows s screen history shown) (hs : s.stopped = false) (hscreen : UpToDate s screen) :
    UpToDate (s.afterEvents history) shown := by
  induction h with
  | done => exact hscreen
  | event hnotices h ih => exact ih (kept_handle hs _ _).1 (hscreen.handle hs _ _ hnotices)

theorem exists_shows (s : Session) (screen : Screen) (history : List (FileTree × Event)) :
    ∃ shown, Shows s screen history shown := by
  induction history generalizing s screen with
  | nil => exact ⟨screen, .done⟩
  | cons event history ih =>
    obtain ⟨shown, h⟩ := ih (s.handle event.1 event.2).1 (screen.after (s.handle event.1 event.2).2)
    exact ⟨shown, .event (List.Perm.refl _) h⟩

/-- **The text of a document is the last that an event gave**, unless it was closed after that. -/
theorem document?_afterEvents (hs : s.stopped = false) (history : List (FileTree × Event))
    (uri : String) : (s.afterEvents history).document? uri =
      (((history.map Prod.snd).filterMap (Event.says? uri)).getLast?).getD (s.document? uri) := by
  induction history generalizing s with
  | nil => rfl
  | cons event history ih =>
    obtain ⟨t, e⟩ := event
    rw [afterEvents, ih (kept_handle hs t e).1, document?_handle hs, List.map_cons,
      List.filterMap_cons]
    cases e.says? uri with
    | none => rfl
    | some said => rw [List.getLast?_cons]; rfl

theorem kept_afterEvents (hs : s.stopped = false) (history : List (FileTree × Event)) :
    (s.afterEvents history).stopped = false ∧ (s.afterEvents history).root = s.root := by
  induction history generalizing s with
  | nil => exact ⟨hs, rfl⟩
  | cons event history ih =>
    obtain ⟨hstopped, hroot⟩ := kept_handle hs event.1 event.2
    exact ⟨(ih hstopped).1, (ih hstopped).2.trans hroot⟩

theorem exists_start (t : FileTree) (root : Option Path) :
    ∃ config, start t root = ⟨root, config, [], false⟩ :=
  exists_reload t _

/-- **After every history the editor shows the marks of the open texts** under the configuration of
the session, and none for other documents.  The open text of a document is the last one that was
given since the document was closed, no event changes that of another document, and a configuration
that cannot be read leaves the one before. -/
theorem shows_iff (t₀ : FileTree) (root : Option Path) (history : List (FileTree × Event)) :
    let s := (start t₀ root).afterEvents history
    (∀ shown, Shows (start t₀ root) .empty history shown ↔
      ∀ uri, shown uri = match s.document? uri with
        | some cs => marks s.config.lint.options cs
        | none => []) ∧
    (∀ uri, s.document? uri = Event.textAfter? uri (history.map Prod.snd)) ∧
    (∀ t e uri, e.uri ≠ uri → (s.handle t e).1.document? uri = s.document? uri) ∧
    (∀ dir f, root = some dir → Config.load t₀ dir = .error f →
      (start t₀ root).config = .standard) ∧
    ∀ t e dir f, root = some dir → Config.load t dir = .error f →
      (s.handle t e).1.config = s.config := by
  intro s
  obtain ⟨config, hstart⟩ := exists_start t₀ root
  have hstopped : (start t₀ root).stopped = false := by rw [hstart]
  have hempty : UpToDate (start t₀ root) .empty := by
    rw [hstart]
    exact fun uri => rfl
  obtain ⟨hs, hroot⟩ := kept_afterEvents hstopped history
  refine ⟨fun shown => ⟨fun h => h.upToDate hstopped hempty, fun h => ?_⟩, fun uri => ?_,
    fun t e uri huri => ?_, fun dir f hdir hload => ?_, fun t e dir f hdir hload => ?_⟩
  · obtain ⟨last, hlast⟩ := exists_shows (start t₀ root) .empty history
    have heq : shown = last := funext fun uri =>
      (h uri).trans (hlast.upToDate hstopped hempty uri).symm
    rw [heq]
    exact hlast
  · rw [document?_afterEvents hstopped history uri, hstart, Event.textAfter?]
    cases ((history.map Prod.snd).filterMap (Event.says? uri)).getLast? <;> rfl
  · have hother : e.says? uri = none := if_pos huri
    rw [document?_handle hs t e uri, hother]
    rfl
  · rw [start, reload_of_error hdir hload]
  · have hroot : s.root = some dir := by
      rw [hroot, hstart]
      exact hdir
    rcases config_handle hs t e with hkept | ⟨-, hreload⟩
    · exact hkept
    · rw [hreload, reload_of_error hroot hload]

end Handling

/-- The marks of an open document go when a check is turned off in the configuration. -/
theorem shows_after_save :
    ∃ history : List (FileTree × Event), history =
        [(⟨[], []⟩, .opened "file:///a.twig" "\x7b\x7b \x7d\x7d".toList),
          (⟨[(["twigkit.toml"], .file (.text "[lint]\nempty_expression = false\n".toList))], []⟩,
            .saved "file:///twigkit.toml" none)] ∧
      (∀ shown, Shows (start ⟨[], []⟩ (some .here)) .empty (history.take 1) shown →
        (shown "file:///a.twig").length = 1) ∧
      ∀ shown, Shows (start ⟨[], []⟩ (some .here)) .empty history shown →
        shown "file:///a.twig" = [] := by
  refine ⟨_, rfl, ?_⟩
  generalize ht : (⟨[(["twigkit.toml"], .file (.text "[lint]\nempty_expression = false\n".toList))],
    []⟩ : FileTree) = t
  have hstart : start ⟨[], []⟩ (some .here) = ⟨some .here, .standard, [], false⟩ := by
    decide +kernel
  obtain ⟨path, hfind, hread⟩ : ∃ path, Config.find? t .here = some path ∧
      t.read? path = some (.text "[lint]\nempty_expression = false\n".toList) := by
    subst ht
    exact ⟨Path.here.child "twigkit.toml", by decide +kernel, by decide +kernel⟩
  have hset : Libraries.config? "[lint]\nempty_expression = false\n".toList =
      some { Config.standard with lint := ⟨⟨true, false⟩, false⟩ } := by decide +kernel
  have hload : Config.load t .here =
      .ok (some { Config.standard with lint := ⟨⟨true, false⟩, false⟩ }) := by
    rw [Config.load, hfind]
    simp only [hread, Config.ofText, hset]
    rfl
  have hconfig : isConfig "file:///twigkit.toml" = true := by decide +kernel
  have hsaved (s : Session) (hroot : s.root = some .here) (hs : s.stopped = false) :
      (s.handle t (.saved "file:///twigkit.toml" none)).1.config.lint.options = ⟨true, false⟩ := by
    have h := handles hs t (.saved "file:///twigkit.toml" none)
    generalize s.handle t (.saved "file:///twigkit.toml" none) = r at h
    cases h with
    | text h => exact absurd h (by simp [Event.says?, Event.uri, hconfig])
    | config h => simp [reload, hroot, hload]
    | saved h => exact absurd (hconfig.symm.trans h) (by decide)
  constructor
  · intro shown hshown
    rw [((shows_iff ⟨[], []⟩ (some .here) _).1 shown).mp hshown "file:///a.twig", hstart]
    show (marks .standard "\x7b\x7b \x7d\x7d".toList).length = 1
    decide +kernel
  · intro shown hshown
    rw [((shows_iff ⟨[], []⟩ (some .here) _).1 shown).mp hshown "file:///a.twig",
      (shows_iff ⟨[], []⟩ (some .here) _).2.1 "file:///a.twig", hstart]
    show marks (Session.handle t ⟨some .here, .standard,
      [("file:///a.twig", "\x7b\x7b \x7d\x7d".toList)], false⟩
        (.saved "file:///twigkit.toml" none)).1.config.lint.options "\x7b\x7b \x7d\x7d".toList = []
    rw [hsaved _ rfl rfl]
    decide +kernel

end Session

end TwigTemplate.Editor
