import TwigTemplate.Proofs.Report.Appending

/-!
# Names that are reported as unknown

The semantic findings are the names that are in no vocabulary.  A tag is unknown by the keyword of
its statement, a filter by its name behind a pipe of an output.

* `exists_region_of_semantic`: **an unknown name stands at a region**.
* `exists_finding_of_mem`: what is wrong with a region is reported.
* `role_of_statementCauses`, `exists_call_of_outputCauses`: **what is unknown there**.
* `unknownTag_mem_statementCauses`, `unknownFilter_mem_outputCauses`: an unknown name is reported.
* `Known`: a region in which no name is unknown.
-/

namespace TwigTemplate.Analysis

variable {options : LintOptions}

/-- **An unknown name stands at a region**: what is left open at the end is something else. -/
theorem exists_region_of_semantic {cs : List Char} {f : Finding}
    (hf : f ∈ (analyze options cs).findings) (hname : f.cause.category = .semantic) :
    ∃ r ∈ (Region.ofLines cs).flatten, ∃ st, f.line = r.line ∧ f.column = r.column ∧
      f.cause ∈ (regionCauses options r st).2 := by
  rcases List.mem_append.mp (List.mem_mergeSort.mp hf) with hf | hf
  · exact exists_region_of_mem_run f hf
  · obtain ⟨frame, -, hf⟩ := List.mem_flatMap.mp hf
    rw [Frame.leftover] at hf
    rcases List.mem_append.mp hf with hf | hf
    · split at hf
      · obtain rfl := List.mem_singleton.mp hf
        exact absurd hname (by simp [Cause.category])
      · exact absurd hf List.not_mem_nil
    · obtain rfl := List.mem_singleton.mp hf
      exact absurd hname (by simp [Cause.category])

theorem category_operatorCauses {content : List Char} :
    ∀ c ∈ operatorCauses options content, c.category ≠ .semantic := by
  rw [operatorCauses]
  split
  · exact List.forall_mem_map.mpr fun _ _ => by simp [Cause.category]
  · exact fun c hc => absurd hc List.not_mem_nil

theorem category_argumentCauses {s : Statement} {content : List Char} :
    ∀ c ∈ argumentCauses s content, c.category ≠ .semantic := by
  rw [argumentCauses]
  split_ifs <;> simp [Cause.category]

/-- **What is wrong with a region is reported** at its place. -/
theorem exists_finding_of_mem {cs : List Char} {r : Region}
    (hr : r ∈ (Region.ofLines cs).flatten) : ∃ st, ∀ c ∈ (regionCauses options r st).2,
      ⟨r.line, r.column, c⟩ ∈ (analyze options cs).findings := by
  obtain ⟨st, hst⟩ := exists_finding_of_mem_run hr []
  exact ⟨st, fun c hc => List.mem_mergeSort.mpr (List.mem_append_left _ (hst c hc))⟩

theorem eq_of_mem_nest {r : Region} {role : Role} {name : List Char} {stack : List Frame} :
    ∀ c ∈ (nest r role name stack).2, c.category = .semantic →
      role = .unknown ∧ c = .unknownTag (String.ofList name) := by
  cases role with
  | unknown => exact List.forall_mem_singleton.mpr fun _ => ⟨rfl, rfl⟩
  | opens b => exact fun c hc => absurd hc List.not_mem_nil
  | closes b =>
    cases stack with
    | nil => exact List.forall_mem_singleton.mpr fun h => absurd h (by simp [Cause.category])
    | cons frame rest =>
      rw [nest]
      split
      · exact fun c hc => absurd hc List.not_mem_nil
      · exact List.forall_mem_singleton.mpr fun h => absurd h (by simp [Cause.category])
  | branch => exact fun c hc => absurd hc List.not_mem_nil
  | inline => exact fun c hc => absurd hc List.not_mem_nil

/-- **An unknown name in a statement is that of its tag.** -/
theorem role_of_statementCauses {r : Region} {content : List Char} {st : List Frame} :
    ∀ c ∈ (statementCauses options r content st).2, c.category = .semantic →
      (Statement.ofContent content).role = .unknown ∧
        c = .unknownTag (String.ofList (Statement.ofContent content).reportedName) := by
  intro c hc hname
  rw [statementCauses] at hc
  split at hc
  · exact absurd hname (by rw [List.mem_singleton.mp hc]; decide)
  · rcases List.mem_append.mp hc with hc | hc
    · rcases List.mem_append.mp hc with hc | hc
      · obtain ⟨hrole, hc⟩ := eq_of_mem_nest c hc hname
        exact ⟨hrole, hc⟩
      · exact absurd hname (category_argumentCauses c hc)
    · exact absurd hname (category_operatorCauses c hc)

theorem unknownTag_mem_statementCauses {r : Region} {content : List Char} (hne : content ≠ [])
    (hrole : (Statement.ofContent content).role = .unknown) (st : List Frame) :
    .unknownTag (String.ofList (Statement.ofContent content).reportedName) ∈
      (statementCauses options r content st).2 := by
  rw [statementCauses, if_neg (by simpa using hne)]
  dsimp only
  rw [hrole, nest]
  exact List.mem_append_left _ (List.mem_append_left _ List.mem_cons_self)

/-- **An unknown name in an output is that of a filter.** -/
theorem exists_call_of_outputCauses {content : List Char} :
    ∀ c ∈ outputCauses options content, c.category = .semantic →
      ∃ call ∈ Literal.filterCalls content, Vocabulary.isFilter call.name = false ∧
        c = .unknownFilter (String.ofList call.name) := by
  intro c hc hname
  rw [outputCauses] at hc
  split at hc
  · split at hc
    · exact absurd hname (by rw [List.mem_singleton.mp hc]; decide)
    · exact absurd hc List.not_mem_nil
  · rcases List.mem_append.mp hc with hc | hc
    · obtain ⟨call, hcall, hc⟩ := List.mem_filterMap.mp hc
      rw [filterCause?] at hc
      split_ifs at hc with hempty hfilter
      · exact absurd hname (by rw [← Option.some.inj hc]; decide)
      · exact ⟨call, hcall, by simpa using hfilter, (Option.some.inj hc).symm⟩
    · exact absurd hname (category_operatorCauses c hc)

theorem unknownFilter_mem_outputCauses {content : List Char} {call : Literal.FilterCall}
    (hcall : call ∈ Literal.filterCalls content) (hne : call.name ≠ [])
    (hunknown : Vocabulary.isFilter call.name = false) :
    .unknownFilter (String.ofList call.name) ∈ outputCauses options content := by
  have hcontent : content ≠ [] := by
    rintro rfl
    exact absurd hcall List.not_mem_nil
  have hcause : filterCause? call = some (.unknownFilter (String.ofList call.name)) := by
    rw [filterCause?, if_neg (by simpa using hne), if_neg (by simp [hunknown])]
  rw [outputCauses, if_neg (by simpa using hcontent)]
  exact List.mem_append_left _ (List.mem_filterMap.mpr ⟨call, hcall, hcause⟩)

/-- A piece in which no name is unknown: plain text, or a statement with a known keyword. -/
def Known (p : Region.Piece) : Prop :=
  p.kind = .text ∨ p.kind = .template .statement ∧
    (Statement.ofContent (Text.trim (Region.body p.kind p.raw))).role ≠ .unknown

instance (p : Region.Piece) : Decidable (Known p) :=
  inferInstanceAs (Decidable (_ ∨ _))

theorem Known.category_ne {r : Region} (h : Known (Region.piece r)) {st : List Frame} :
    ∀ c ∈ (regionCauses options r st).2, c.category ≠ .semantic := by
  intro c hc hname
  rcases h with hkind | ⟨hkind, hrole⟩
  · have hkind : r.kind = .text := hkind
    rw [regionCauses, hkind] at hc
    exact absurd hc List.not_mem_nil
  · have hkind : r.kind = .template .statement := hkind
    rw [regionCauses, hkind] at hc
    have hcontent : r.content = Text.trim (Region.body r.kind r.raw) := by
      rw [Region.content, if_neg (by rw [hkind]; simp)]
    exact hrole (hcontent ▸ (role_of_statementCauses c hc hname).1)

end TwigTemplate.Analysis
