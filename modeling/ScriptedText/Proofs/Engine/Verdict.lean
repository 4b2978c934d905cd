import ScriptedText.Proofs.Engine.Construction
import ScriptedText.Proofs.Engine.InFlow
import ScriptedText.Proofs.Engine.Retaining

/-!
What the construction of a document results in: an executable that holds just what is written, or a fault that tells where
something is wrong.
-/

namespace ScriptedText

theorem collapsed_ne_nil (forms : FormTable) (tag : String) (segments : List RawSegment) :
    collapsed forms tag segments ≠ [] := by
  simp only [collapsed]
  split
  · exact List.cons_ne_nil _ _
  · next hne => exact hne

theorem PlacedSegment.Resolves.eq {p q : PlacedSegment} (h : p.Resolves q) (hp : p.program = none) :
    q = { p with program := if p.isProgram then some p.text else none } := by
  cases hprogram : p.isProgram with
  | false =>
      simp only [Resolves, hprogram] at h
      rw [h, ← hp]
      rfl
  | true =>
      simp only [Resolves, hprogram, attach, hp] at h
      cases h
      rfl

namespace Executable.IsBuilt

variable {x : Executable} {registry : Registry} {o : Draft} {k : Nat} (h : x.IsBuilt registry o k)

include h

theorem segments_eq : x.segments = (placeAll (o.laid registry k)).map fun p =>
    { p with program := if p.isProgram then some p.text else none } := by
  have hsegments := h.segments
  have hnone (p : PlacedSegment) (hp : p ∈ placeAll (o.laid registry k)) : p.program = none :=
    (program_of_mem_placeAll hp).1
  generalize placeAll (o.laid registry k) = placed at hsegments hnone ⊢
  generalize x.segments = segments at hsegments ⊢
  induction hsegments with
  | nil => rfl
  | cons hq _ ih =>
      rw [List.map_cons, ← hq.eq (hnone _ (List.mem_cons_self ..))]
      exact congrArg _ (ih fun p hp => hnone p (List.mem_cons_of_mem _ hp))

theorem map_toSegment : x.segments.map PlacedSegment.toSegment = o.laid registry k := by
  rw [h.segments_eq, List.map_map]
  exact map_toSegment_placeAll (o.laid registry k)

theorem ne_nil : x.segments ≠ [] := by
  intro hnil
  have hlaid := h.map_toSegment
  rw [hnil] at hlaid
  exact collapsed_ne_nil _ _ _ hlaid.symm

theorem positions : x.segments.map PlacedSegment.position = List.range x.segments.length := by
  have hplaces : (placeAll (o.laid registry k)).map PlacedSegment.position = List.range (o.laid registry k).length := by
    simp only [placeAll, List.map_map]
    rw [List.range_eq_range']
    exact List.zipIdx_map_snd 0 (o.laid registry k)
  have hlength : x.segments.length = (o.laid registry k).length := by
    rw [← h.map_toSegment, List.length_map]
  rw [hlength, ← hplaces, h.segments_eq, List.map_map]
  rfl

theorem program_eq : ∀ p ∈ x.segments, p.program = if p.isProgram then some p.text else none := by
  rw [h.segments_eq]
  intro p hp
  obtain ⟨q, -, rfl⟩ := List.mem_map.1 hp
  rfl

end Executable.IsBuilt

/-- The construction of a document comes to an end. It succeeds just if all scriptlets in it are closed and all programs
accepted, also those of the bodies inside. Then there is at least one segment, each in its place, and each program is made
from just its text; and all names of bodies are in the cache, unless something was registered before under a name that was
still to come, and led to another one. Otherwise it is told where something is wrong. -/
theorem compilation_ends_built_or_traced {w : World} {o : Draft} (hstyles : ∀ d ∈ o.styles, d.opening ≠ "" ∧ d.closing ≠ "")
    (hbare : ∀ a ∈ w.registry.adapters, a.FailsBare) :
    ((∃ w' e, w.compile o = (w', .ok e)) ↔ o.AllSound w.registry w.inFlowCount) ∧
    (∀ w' e, w.compile o = (w', .ok e) →
      e.index < w'.executables.length ∧ (w'.executable e).IsBuilt w.registry o w.inFlowCount ∧
      (w'.executable e).segments ≠ [] ∧
      (w'.executable e).segments.map PlacedSegment.position = List.range (w'.executable e).segments.length ∧
      (∀ p ∈ (w'.executable e).segments, p.program = if p.isProgram then some p.text else none) ∧
      ∀ s, o.source = some s → s.index < w.sources.length → w.Unclaimed s →
        ∀ name ∈ o.names w.inFlowCount, (w'.cached? s name).isSome = true) ∧
    ∀ w' f, w.compile o = (w', .error f) → o.Traced w.registry w.inFlowCount f := by
  have hsettles := settles_compileWithin hbare (o.text.length + 1) hstyles (Nat.lt_succ_self _)
  have hperform {w' : World} {r : Except Failure ExecutableId} (h : w.compile o = (w', r)) :
      (compileWithin (o.text.length + 1) o).perform w = (r, w') := by
    rw [World.compile_eq_perform] at h
    cases h
    rfl
  have herror (w' : World) (f : Failure) (h : w.compile o = (w', .error f)) : o.Traced w.registry w.inFlowCount f :=
    hsettles.error w f w' rfl (hperform h)
  refine ⟨⟨?_, fun hsound => ?_⟩, fun w' e h => ?_, herror⟩
  · rintro ⟨w', e, h⟩
    exact (hsettles.ok w e w' rfl (hperform h)).1
  · cases hr : (w.compile o).2 with
    | ok e => exact ⟨(w.compile o).1, e, Prod.ext rfl hr⟩
    | error f => exact absurd hsound (not_allSound_of_traced (herror (w.compile o).1 f (Prod.ext rfl hr)))
  · obtain ⟨-, -, hlt, hbuilt⟩ := hsettles.ok w e w' rfl (hperform h)
    refine ⟨hlt, hbuilt, hbuilt.ne_nil, hbuilt.positions, hbuilt.program_eq, fun s ho hs hw name hname => ?_⟩
    rw [← hbuilt.dependencies] at hname
    exact cached_compile ho hs hw h e rfl name hname

theorem failsBare_quotingAdapter (tag : String) : (quotingAdapter tag).FailsBare := by
  rintro source f (h | h) <;> cases h

/-- Two bodies are made documents. Where the second one is in a language that nobody knows, that is told with its own site
and that of its scriptlet. -/
theorem compilation_ends_built_or_traced_of_bodies :
    let o : Draft := { tag := "a", document := "doc", registered := "doc", text := "<%: b x%><%: b y%>", source := some ⟨0⟩ }
    let broken : Draft := { o with text := "<%: b x%><%: c y%>" }
    (o.AllSound quotingWorld.registry 0 ∧ o.names 0 = ["_IN_FLOW_0", "_IN_FLOW_1"] ∧
      ∃ w' e, quotingWorld.compile o = (w', .ok e) ∧ ∀ name ∈ o.names 0, (w'.cached? ⟨0⟩ name).isSome = true) ∧
    ∃ w' f, quotingWorld.compile broken = (w', .error f) ∧ broken.Traced quotingWorld.registry 0 f ∧
      f.sites = [⟨"doc/_IN_FLOW_1", 1, 1⟩, ⟨"doc", 1, 10⟩] := by
  intro o broken
  have hstyles : ∀ d ∈ o.styles, d.opening ≠ "" ∧ d.closing ≠ "" := by decide
  have hbare : ∀ a ∈ quotingWorld.registry.adapters, a.FailsBare := by
    intro a ha
    have ha : a ∈ [quotingAdapter "a", quotingAdapter "b"] := ha
    rcases List.mem_cons.1 ha with rfl | ha
    · exact failsBare_quotingAdapter "a"
    · cases List.mem_singleton.1 ha
      exact failsBare_quotingAdapter "b"
  constructor
  · have hbuilt : (quotingWorld.compile o).2.toOption.any (fun e =>
        ((quotingWorld.compile o).1.executable e).dependencies = ["_IN_FLOW_0", "_IN_FLOW_1"]) = true := by
      decide +kernel
    obtain ⟨e, he, hdependencies⟩ := (Option.any_eq_true _ _).1 hbuilt
    have hok : (quotingWorld.compile o).2 = .ok e := by
      cases hr : (quotingWorld.compile o).2 <;> rw [hr] at he <;> cases he
      rfl
    have hcompile : quotingWorld.compile o = ((quotingWorld.compile o).1, .ok e) := Prod.ext rfl hok
    obtain ⟨hsound, hright, -⟩ := compilation_ends_built_or_traced hstyles hbare
    obtain ⟨-, hbuilt, -, -, -, hcached⟩ := hright _ e hcompile
    refine ⟨hsound.1 ⟨_, e, hcompile⟩, ?_, _, e, hcompile, ?_⟩
    · exact hbuilt.dependencies.symm.trans (of_decide_eq_true hdependencies)
    · exact hcached ⟨0⟩ rfl Nat.zero_lt_one (Course.fresh_quotingWorld.kempt.unclaimed ⟨0⟩)
  · have hsites : (quotingWorld.compile broken).2.mapError Failure.sites =
        .error [⟨"doc/_IN_FLOW_1", 1, 1⟩, ⟨"doc", 1, 10⟩] := by
      decide +kernel
    cases hr : (quotingWorld.compile broken).2 with
    | ok e =>
        rw [hr] at hsites
        cases hsites
    | error f =>
        rw [hr] at hsites
        have hcompile : quotingWorld.compile broken = ((quotingWorld.compile broken).1, .error f) := Prod.ext rfl hr
        obtain ⟨-, -, htraced⟩ := compilation_ends_built_or_traced (o := broken) hstyles hbare
        exact ⟨_, f, hcompile, htraced _ f hcompile, Except.error.inj hsites⟩

end ScriptedText
