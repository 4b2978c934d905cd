import Std.Data.String.ToNat
import ScriptedText.Engine.Retrieval
import ScriptedText.Proofs.Engine.Act
import ScriptedText.Proofs.Engine.Registration

/-!
What a compilation that fails leaves behind in the source of its document: nothing if no scriptlet body was made a
document before it failed, and otherwise a document that the source did not keep, or a name that it kept no more.
-/

namespace ScriptedText

theorem Document.inFlowName_inj {j k : Nat} : inFlowName j = inFlowName k ↔ j = k := by
  unfold inFlowName
  rw [String.append_right_inj]
  exact Nat.repr_inj

theorem Document.inFlowName_ne_empty (k : Nat) : inFlowName k ≠ "" := by
  unfold inFlowName inFlowMark
  intro h
  have := congrArg String.length h
  simp at this

namespace World

variable {w w₁ w₂ : World} {s : SourceId}

/-- What every compilation does to a world: tables only grow, and names that are not given out meanwhile are found to
have no other document. -/
structure Grows (s : SourceId) (w w' : World) : Prop where
  sources : w'.sources.length = w.sources.length
  counter : w.inFlowCount ≤ w'.inFlowCount
  documents : w.documents.length ≤ w'.documents.length
  executables : w.executables.length ≤ w'.executables.length
  names : ∀ k, k < w.inFlowCount ∨ w'.inFlowCount ≤ k →
    w'.cached? s (Document.inFlowName k) = none ∨
      w'.cached? s (Document.inFlowName k) = w.cached? s (Document.inFlowName k)

/-- A world that only grows, and whose source shows every new executable under a name that was given out for it. -/
structure Marks (s : SourceId) (w w' : World) : Prop extends Grows s w w' where
  still : w'.executables.length = w.executables.length →
    w'.executables = w.executables ∧ w'.sources = w.sources ∧ w'.documents = w.documents
  mark : s.index < w.sources.length → w.executables.length < w'.executables.length →
    ∃ k, w.inFlowCount ≤ k ∧ Changed s (Document.inFlowName k) w w'

theorem cached?_eq_of_sources (h : w₁.sources = w.sources) (s : SourceId) (name : String) :
    w₁.cached? s name = w.cached? s name := by
  unfold cached? source
  rw [h]

theorem document_eq_of_documents (h : w₁.documents = w.documents) (d : DocumentId) :
    w₁.document d = w.document d := by
  unfold document
  rw [h]

namespace Grows

theorem trans (h₁ : Grows s w w₁) (h₂ : Grows s w₁ w₂) : Grows s w w₂ where
  sources := h₂.sources.trans h₁.sources
  counter := Nat.le_trans h₁.counter h₂.counter
  documents := Nat.le_trans h₁.documents h₂.documents
  executables := Nat.le_trans h₁.executables h₂.executables
  names k hk := by
    have hlater : k < w₁.inFlowCount ∨ w₂.inFlowCount ≤ k := hk.imp_left (Nat.lt_of_lt_of_le · h₁.counter)
    have hearlier : k < w.inFlowCount ∨ w₁.inFlowCount ≤ k := hk.imp_right (Nat.le_trans h₂.counter)
    rcases h₂.names k hlater with h | h
    · exact .inl h
    · rw [h]
      exact h₁.names k hearlier

end Grows

namespace Marks

/-- Steps that leave the tables alone. -/
theorem of_eq (hs : w₁.sources = w.sources) (hd : w₁.documents = w.documents)
    (he : w₁.executables = w.executables) (hc : w.inFlowCount ≤ w₁.inFlowCount) : Marks s w w₁ where
  sources := by rw [hs]
  counter := hc
  documents := Nat.le_of_eq (by rw [hd])
  executables := Nat.le_of_eq (by rw [he])
  names k _ := .inr (cached?_eq_of_sources hs s _)
  still _ := ⟨he, hs, hd⟩
  mark _ h := by
    rw [he] at h
    exact absurd h (Nat.lt_irrefl _)

theorem refl (s : SourceId) (w : World) : Marks s w w := of_eq rfl rfl rfl (Nat.le_refl _)

theorem trans (h₁ : Marks s w w₁) (h₂ : Marks s w₁ w₂) : Marks s w w₂ where
  toGrows := h₁.toGrows.trans h₂.toGrows
  still h := by
    have hle₁ := h₁.executables
    have hle₂ := h₂.executables
    obtain ⟨he₁, hs₁, hd₁⟩ := h₁.still (by omega)
    obtain ⟨he₂, hs₂, hd₂⟩ := h₂.still (by omega)
    exact ⟨he₂.trans he₁, hs₂.trans hs₁, hd₂.trans hd₁⟩
  mark hs h := by
    by_cases hlt : w₁.executables.length < w₂.executables.length
    · obtain ⟨k, hk, hch⟩ := h₂.mark (h₁.sources ▸ hs) hlt
      refine ⟨k, Nat.le_trans h₁.counter hk, ?_⟩
      rcases hch with ⟨d, hd, hle, hn⟩ | ⟨hnone, hsome⟩
      · exact .inl ⟨d, hd, Nat.le_trans h₁.documents hle, hn⟩
      · refine .inr ⟨hnone, ?_⟩
        rcases h₁.names k (.inr hk) with h' | h'
        · exact absurd h' hsome
        · exact h' ▸ hsome
    · have hle₂ := h₂.executables
      obtain ⟨-, hs₂, hd₂⟩ := h₂.still (by omega)
      obtain ⟨k, hk, hch⟩ := h₁.mark hs (by omega)
      refine ⟨k, hk, ?_⟩
      rcases hch with ⟨d, hd, hle, hn⟩ | ⟨hnone, hsome⟩
      · refine .inl ⟨d, ?_, hle, ?_⟩
        · rw [cached?_eq_of_sources hs₂, hd]
        · rw [document_eq_of_documents hd₂, hn]
      · refine .inr ⟨?_, hsome⟩
        rw [cached?_eq_of_sources hs₂, hnone]

end Marks

theorem Marks.ofRegistration {w₀ : World} (hnext : w₀ = { w with inFlowCount := w.inFlowCount + 1 })
    (hinner : Grows s w₀ w₁) (hlt : w₀.executables.length < w₁.executables.length)
    (hreg : Registers s (Document.inFlowName w.inFlowCount) w₁ w₂) : Marks s w w₂ where
  sources := by
    rw [hreg.sources, hinner.sources, hnext]
  counter := by
    have := hinner.counter
    rw [hreg.counter]
    subst hnext
    exact Nat.le_trans (Nat.le_succ _) this
  documents := by
    have := hinner.documents
    rw [hreg.documents]
    subst hnext
    exact Nat.le_trans this (Nat.le_succ _)
  executables := by
    rw [hreg.executables]
    subst hnext
    exact hinner.executables
  names k hk := by
    subst hnext
    rw [hreg.counter] at hk
    have hcount : w.inFlowCount + 1 ≤ w₁.inFlowCount := hinner.counter
    have hne : Document.inFlowName k ≠ Document.inFlowName w.inFlowCount := by
      rw [Ne, Document.inFlowName_inj]
      omega
    rcases hreg.others _ hne with h | h
    · exact .inl h
    · rw [h]
      exact hinner.names k (hk.imp_left Nat.lt_succ_of_lt)
  still h := by
    subst hnext
    rw [hreg.executables] at h
    exact absurd h (Nat.ne_of_gt hlt)
  mark hs _ := by
    subst hnext
    refine ⟨w.inFlowCount, Nat.le_refl _, ?_⟩
    rcases hreg.own (hinner.sources ▸ hs) with ⟨d, hd, hle, hn⟩ | ⟨hnone, hsome⟩
    · exact .inl ⟨d, hd, Nat.le_trans hinner.documents hle, hn⟩
    · refine .inr ⟨hnone, ?_⟩
      rcases hinner.names w.inFlowCount (.inl (Nat.lt_succ_self _)) with h | h
      · exact absurd h hsome
      · exact h ▸ hsome

end World

open World Act

variable {s : SourceId}

/-- A success adds an executable, which may not show yet; what a failure added shows. -/
def Act.Compiles (s : SourceId) (x : Act ExecutableId) : Prop :=
  ∀ w, match (x.perform w).1 with
    | .ok _ => Grows s w (x.perform w).2 ∧ w.executables.length < (x.perform w).2.executables.length
    | .error _ => Marks s w (x.perform w).2

theorem marks_emit (w : World) (e : Event) : Marks s w (w.emit e) := .of_eq rfl rfl rfl (Nat.le_refl _)

theorem marks_trans (w₁ w₂ w₃ : World) (h₁ : Marks s w₁ w₂) (h₂ : Marks s w₂ w₃) : Marks s w₁ w₃ := h₁.trans h₂

theorem perform_nextInFlowName (w : World) :
    nextInFlowName.perform w =
      (.ok (Document.inFlowName w.inFlowCount), { w with inFlowCount := w.inFlowCount + 1 }) := rfl

theorem marks_placeRequest {inner : Draft → Act ExecutableId} {o : Draft} (ho : o.source = some s)
    (hinner : ∀ o : Draft, o.source = some s → (inner o).Compiles s) (r : Request) :
    Relates (Marks s) (placeRequest inner o r) := by
  intro w
  unfold placeRequest
  rw [perform_bind, perform_nextInFlowName]
  dsimp only
  generalize hw₀ : ({ w with inFlowCount := w.inFlowCount + 1 } : World) = w₀
  have hstart : Marks s w w₀ := hw₀ ▸ .of_eq rfl rfl rfl (Nat.le_succ _)
  have hbody := hinner (o.body r (Document.inFlowName w.inFlowCount)) ho w₀
  rw [perform_bind, perform_tryCatch]
  cases hr : ((inner (o.body r (Document.inFlowName w.inFlowCount))).perform w₀).1 with
  | error f =>
      rw [hr] at hbody
      exact hstart.trans hbody
  | ok e =>
      rw [hr] at hbody
      simp only [ho]
      exact .ofRegistration hw₀.symm hbody.1 hbody.2 (registers_setDocument s _ _ _ _ _)

theorem marks_construct {inner : Draft → Act ExecutableId} {o : Draft} (ho : o.source = some s)
    (hinner : ∀ o : Draft, o.source = some s → (inner o).Compiles s) : Relates (Marks s) (construct inner o) :=
  relates_construct (Marks.refl s) marks_trans (fun w e _ => marks_emit w e) (marks_placeRequest ho hinner)

theorem compiles_compileWith {inner : Draft → Act ExecutableId} {o : Draft} (ho : o.source = some s)
    (hinner : ∀ o : Draft, o.source = some s → (inner o).Compiles s) : (compileWith inner o).Compiles s := by
  intro w
  have hconstruct := marks_construct ho hinner w
  unfold compileWith
  rw [perform_bind, perform_tryCatch]
  cases hr : ((construct inner o).perform w).1 with
  | error f => exact hconstruct.trans (relates_reportFailure (Marks.refl s) (fun w e _ => marks_emit w e) o.document f _)
  | ok x =>
      dsimp only
      rw [perform_modifyGet]
      have hadd (w : World) : Grows s w ((w.addExecutable x).1.emit (.compiled o.document x.segments.length)) :=
        ⟨rfl, Nat.le_refl _, Nat.le_refl _, by simp [addExecutable, emit], fun _ _ => .inr rfl⟩
      refine ⟨hconstruct.toGrows.trans (hadd _), ?_⟩
      have hle := hconstruct.executables
      simpa [addExecutable, emit] using Nat.lt_succ_of_le hle

/-- By induction on how deep bodies are nested. -/
theorem compiles_compileWithin (depth : Nat) {o : Draft} (ho : o.source = some s) :
    (compileWithin depth o).Compiles s := by
  induction depth generalizing o with
  | zero => exact fun w => .refl s w
  | succ depth ih => exact compiles_compileWith ho fun _ => ih

/-- The source keeps the same documents under the same names, and each as it was. -/
def World.KeepsCache (s : SourceId) (w w' : World) : Prop :=
  (∀ name, w'.cached? s name = w.cached? s name) ∧
    ∀ name d, w.cached? s name = some d → w'.document d = w.document d

theorem keepsCache_iff_of_marks {w w' : World} (h : Marks s w w') (hs : s.index < w.sources.length) :
    KeepsCache s w w' ↔ w'.executables = w.executables := by
  constructor
  · rintro ⟨hnames, hsame⟩
    by_cases hlt : w.executables.length < w'.executables.length
    · obtain ⟨k, -, hch⟩ := h.mark hs hlt
      exfalso
      rcases hch with ⟨d, hd, hle, hn⟩ | ⟨hnone, hsome⟩
      · rw [hnames] at hd
        rw [hsame _ d hd] at hn
        refine Document.inFlowName_ne_empty k (hn.symm.trans ?_)
        unfold World.document
        rw [List.getElem?_eq_none hle]
        rfl
      · exact hsome ((hnames _).symm.trans hnone)
    · exact (h.still (Nat.le_antisymm (Nat.le_of_not_lt hlt) h.executables)).1
  · intro he
    obtain ⟨-, hsources, hdocuments⟩ := h.still (congrArg List.length he)
    exact ⟨cached?_eq_of_sources hsources s, fun _ d _ => document_eq_of_documents hdocuments d⟩

theorem marks_of_compile {w w' : World} {o : Draft} {f : Failure} (ho : o.source = some s)
    (h : w.compile o = (w', .error f)) : Marks s w w' := by
  have hc := compiles_compileWithin (o.text.length + 1) ho w
  rw [World.compile_eq_perform] at h
  obtain ⟨hw, hr⟩ := Prod.mk.inj h
  rw [hr, hw] at hc
  exact hc

/-- A document that fails to compile, also where it is one that the source keeps without an executable. -/
inductive FailsToCompile (s : SourceId) (w : World) : World → Prop
  | direct {o : Draft} {f : Failure} {w' : World} (ho : o.source = some s) (h : w.compile o = (w', .error f)) :
      FailsToCompile s w w'
  | kept {name : String} {d : DocumentId} {isText : Bool} {compilation : Compilation} {f : Failure} {w' : World}
      (h : Move.afterCreating w s name d isText compilation = Move.refuse w' f) : FailsToCompile s w w'

theorem compile_of_afterCreating {w w' : World} {name : String} {d : DocumentId} {isText : Bool}
    {compilation : Compilation} {f : Failure}
    (h : Move.afterCreating w s name d isText compilation = Move.refuse w' f) :
    w.compile (Move.draftOf w s name d isText compilation) = (w', .error f) := by
  unfold Move.afterCreating at h
  split at h
  · cases congrArg Move.control h
  · split at h
    · next hc => 
        rw [hc]
        have hw := congrArg Move.world h
        have hf := congrArg Move.control h
        simp only [Move.refuse, Move.settle, Control.settled.injEq, Except.error.injEq] at hw hf
        rw [hw, hf]
    · cases congrArg Move.control h

/-- A compilation that fails leaves the cache of the source as it was exactly if nothing had been compiled by then:
neither the document nor any scriptlet body in it. -/
theorem failed_compilation_keeps_cache_iff {w w' : World} (hs : s.index < w.sources.length)
    (h : FailsToCompile s w w') : KeepsCache s w w' ↔ w'.executables = w.executables := by
  cases h with
  | direct ho h => exact keepsCache_iff_of_marks (marks_of_compile ho h) hs
  | kept h => exact keepsCache_iff_of_marks (marks_of_compile rfl (compile_of_afterCreating h)) hs

/-- A language of the tag `b` whose programs do nothing. -/
def idleAdapter : Adapter where
  info := ⟨"b", "", "b", ["b"], [], "b", ""⟩
  threadSafe := true
  forms _ := ⟨id, id, id⟩
  prepare _ := .ok ()
  run _ _ := .done ()

/-- A world with that language and a memory source that keeps nothing. -/
def idleWorld : World :=
  { tree := { origin := "" }, registry := .ofAdapters [idleAdapter], sources := [{ storage := .memory "" }] }

/-- A body in the language `b`, and then a scriptlet that is not closed. -/
def unclosedBehindBody : Draft :=
  { tag := "a", document := "doc", registered := "doc", text := "<%: b nop;%><%a nop", source := some ⟨0⟩ }

theorem exists_error_of_toBool {α ε β : Type} {r : α × Except ε β} (h : r.2.toBool = false) :
    ∃ f, r = (r.1, .error f) := by
  obtain ⟨a, x⟩ := r
  cases x with
  | ok _ => cases h
  | error f => exact ⟨f, rfl⟩

theorem failed_compilation_keeps_body :
    FailsToCompile ⟨0⟩ idleWorld (idleWorld.compile unclosedBehindBody).1 ∧
      idleWorld.cached? ⟨0⟩ "_IN_FLOW_0" = none ∧
      (idleWorld.compile unclosedBehindBody).1.cached? ⟨0⟩ "_IN_FLOW_0" = some ⟨0⟩ ∧
      ¬ KeepsCache ⟨0⟩ idleWorld (idleWorld.compile unclosedBehindBody).1 := by
  have hfalse : (idleWorld.compile unclosedBehindBody).2.toBool = false := by decide +kernel
  have hlength : (idleWorld.compile unclosedBehindBody).1.executables.length = 1 := by decide +kernel
  have hcached : (idleWorld.compile unclosedBehindBody).1.cached? ⟨0⟩ "_IN_FLOW_0" = some ⟨0⟩ := by decide +kernel
  obtain ⟨f, hf⟩ := exists_error_of_toBool hfalse
  have hfails : FailsToCompile ⟨0⟩ idleWorld (idleWorld.compile unclosedBehindBody).1 := .direct rfl hf
  generalize (idleWorld.compile unclosedBehindBody).1 = w' at *
  refine ⟨hfails, by decide +kernel, hcached, fun hkeeps => ?_⟩
  rw [(failed_compilation_keeps_cache_iff (by decide) hfails).1 hkeeps] at hlength
  exact absurd hlength (by decide)

end ScriptedText
