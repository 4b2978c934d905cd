import ScriptedText.Document.Collapse
import ScriptedText.Proofs.Engine.Reentry

/-!
Collapsing keeps the effects of a list of segments, for languages in which programs can be put together.
-/

namespace ScriptedText

variable {id : TaskId} {run : Run} {w w' w₁ w₂ v : World} {o : Outcome} {registry : Registry} {exposed : String}
  {a : AdapterId} {adapter : Adapter} {sources : String → Prop}

/-- Programs of a language put together run one after the other, the second one if the first has succeeded; and the
form of a literal writes exactly that literal. -/
structure Adapter.Composes (id : TaskId) (registry : Registry) (exposed : String) (a : AdapterId) (adapter : Adapter)
    (sources : String → Prop) : Prop where
  append : ∀ s t, sources s → sources t → sources (s ++ t)
  literal : ∀ t, sources ((adapter.forms exposed).literal t)
  run_append : ∀ w sp s t w' o, w.registry = registry → sp.adapter = a → sources s → sources t →
    ((adapter.run (s ++ t) exposed).Says id w sp w' o ↔
      (∃ f, o = .error f ∧ (adapter.run s exposed).Says id w sp w' (.error f)) ∨
        ∃ w₁, (adapter.run s exposed).Says id w sp w₁ (.ok .nothing) ∧ (adapter.run t exposed).Says id w₁ sp w' o)
  run_literal : ∀ w sp t w' o, w.registry = registry → sp.adapter = a →
    ((adapter.run ((adapter.forms exposed).literal t) exposed).Says id w sp w' o ↔
      w' = w.modifyContext sp.context (·.write .out t) ∧ o = .ok .nothing)

/-- If it succeeds, it leaves the exposed service where it found it. -/
def Dialogue.LeavesService (id : TaskId) (registry : Registry) (exposed : String) (a : AdapterId) (d : Dialogue Unit) :
    Prop :=
  ∀ w sp w' previous h, w.registry = registry → sp.adapter = a → (w.context sp.context).Reexposes exposed previous h →
    d.Says id w sp w' (.ok .nothing) → (w'.context sp.context).Reexposes exposed previous h

def Adapter.LeavesService (id : TaskId) (registry : Registry) (exposed : String) (a : AdapterId) (adapter : Adapter)
    (sources : String → Prop) : Prop :=
  ∀ s, sources s → (adapter.run s exposed).LeavesService id registry exposed a

/-- In every language of a registry, by its tag, programs can be put together. -/
def Registry.Composes (id : TaskId) (registry : Registry) (exposed : String) (sources : String → String → Prop) :
    Prop :=
  ∀ tag r a adapter, registry.registration? tag = some r → registry.forTag? tag = some a →
    registry.adapter? a = some adapter → adapter.Composes id registry exposed a (sources tag)

def Registry.LeavesService (id : TaskId) (registry : Registry) (exposed : String) (sources : String → String → Prop) :
    Prop :=
  ∀ tag r a adapter, registry.registration? tag = some r → registry.forTag? tag = some a →
    registry.adapter? a = some adapter → adapter.LeavesService id registry exposed a (sources tag)

/-- The text of a program is a source of its language. -/
def Segment.IsSource (registry : Registry) (sources : String → String → Prop) (s : Segment) : Prop :=
  s.isProgram → ∀ adapter, registry.adapterForTag? s.tag = some adapter → sources s.tag s.text

theorem Dialogue.plain (s : Speaker) (d : Dialogue Reply) : Task.Plain ⟨[], .talking s d⟩ :=
  ⟨fun _ => List.not_mem_nil, rfl⟩

theorem Dialogue.Says.of_bare {s : Speaker} {d : Dialogue Unit} (h : d.Says id w s w' o) (hv : v.bare = w.bare) :
    ∃ v', d.Says id v s v' o ∧ v'.bare = w'.bare := Task.Ends.of_bare h (Dialogue.plain s _) hv

namespace World

variable {s : Segment} {r : RegistrationId}

theorem locksRest_entered (h : w.LocksRest) : (w.entered run s r a adapter).LocksRest := by
  intro r' hr'
  rw [lock_entered, lock_taken] at hr' ⊢
  by_cases ht : w.takes run r adapter = true ∧ r' = r
  · rw [if_pos ht] at hr'
    cases hr'
  · rw [if_neg ht] at hr' ⊢
    exact h r' hr'

/-- A program that has succeeded is still inside. -/
theorem inside_of_says {d : Dialogue Unit} (hw : w.Suits registry exposed run)
    (hs : d.Says id (w.entered run s r a adapter) (run.speaker a) w₁ (.ok .nothing))
    (hservice : ∀ previous h, ((w.entered run s r a adapter).context run.context).Reexposes exposed previous h →
      (w₁.context run.context).Reexposes exposed previous h) :
    Inside run s r a adapter w w₁ where
  keeps := Task.Ends.keeps hs (Dialogue.plain _ _)
  locks := (Task.Ends.givesBack hs (Dialogue.plain _ _) ⟨locksRest_entered hw.rest, List.nodup_nil, nofun⟩).2
  service hm := by
    rw [hw.exposed]
    refine hservice _ _ ?_
    rw [context_entered hm hw.context, hw.exposed]
    exact reexposes_setService _ exposed run.handle

end World

/-- The adapter that runs a program, and its registration. -/
structure Segment.RunBy (registry : Registry) (s : Segment) (r : RegistrationId) (a : AdapterId) (adapter : Adapter) :
    Prop where
  isProgram : s.isProgram = true
  registration : registry.registration? s.tag = some r
  owner : registry.forTag? s.tag = some a
  adapter : registry.adapter? a = some adapter

theorem Segment.ends_program {s : Segment} {r : RegistrationId} (hw : w.Suits registry exposed run)
    (hrun : s.RunBy registry r a adapter) :
    s.Ends id run w w' o ↔
      (w.takes run r adapter = true → (w.lock r).locked = false) ∧
        ∃ w₁ o₁, (adapter.run s.text exposed).Says id (w.entered run s r a adapter) (run.speaker a) w₁ o₁ ∧
          w' = w.seenOut run r adapter w₁ ∧ o = s.outcome (w.executable run.executable).name o₁ := by
  have hready : s.ready.program = some s.ready.text := by simp [Segment.ready, hrun.isProgram]
  obtain ⟨rfl, -, rfl, -, -⟩ := hw
  exact Move.ends_runSegment_program hrun.isProgram hrun.registration hrun.owner hrun.adapter hready

theorem simulates_of_same {A B : List Segment}
    (h : ∀ w w' r, w.Suits registry exposed run → RunsTo id run w A w' r →
      ∃ v' r', RunsTo id run w B v' r' ∧ v'.bare = w'.bare ∧ siteless r' = siteless r) :
    Simulates id registry exposed run A B := by
  intro w v w' r hw hv hA
  obtain ⟨w₁, r₁, hB, hbare, hr⟩ := h w w' r hw hA
  obtain ⟨v₁, hB', hbare'⟩ := hB.of_bare hv
  exact ⟨v₁, r₁, hB', hbare'.trans hbare, hr⟩

theorem bare_seenOut (w : World) (run : Run) (r : RegistrationId) (adapter : Adapter) (h : w₁.bare = w₂.bare) :
    (w.seenOut run r adapter w₁).bare = (w.seenOut run r adapter w₂).bare := by
  unfold World.seenOut
  rw [World.bare_left, World.bare_concealed, h, ← World.bare_concealed, ← World.bare_left]

theorem siteless_outcome (s s' : Segment) (document document' : String) (o : Outcome) :
    siteless ((s.outcome document o).map fun _ => ()) = siteless ((s'.outcome document' o).map fun _ => ()) := by
  cases o with
  | ok _ => rfl
  | error f => cases f <;> rfl

section merging

variable {r : RegistrationId} {s s' : Segment} {t : String} {sources' : String → String → Prop}

/-- Running a segment after a program `s` was seen out comes to what running the text `t` inside comes to, right
behind that program. -/
def RunsBehind (id : TaskId) (registry : Registry) (exposed : String) (run : Run) (r : RegistrationId) (a : AdapterId)
    (adapter : Adapter) (s s' : Segment) (t : String) : Prop :=
  ∀ w w₁, w.Suits registry exposed run → World.Inside run s r a adapter w w₁ →
    (w.seenOut run r adapter w₁).Suits registry exposed run →
    (w.takes run r adapter = true → (w.lock r).locked = false) →
    (∀ w₂ o, (adapter.run t exposed).Says id w₁ (run.speaker a) w₂ o →
      ∃ v' o', s'.Ends id run (w.seenOut run r adapter w₁) v' o' ∧
        v'.bare = (w.seenOut run r adapter w₂).bare ∧
        siteless (o'.map fun _ => ()) = siteless ((s.outcome (w.executable run.executable).name o).map fun _ => ())) ∧
    (∀ v' o', s'.Ends id run (w.seenOut run r adapter w₁) v' o' →
      ∃ w₂ o, (adapter.run t exposed).Says id w₁ (run.speaker a) w₂ o ∧
        (w.seenOut run r adapter w₂).bare = v'.bare ∧
        siteless ((s.outcome (w.executable run.executable).name o).map fun _ => ()) = siteless (o'.map fun _ => ()))

theorem runsBehind_program (hrun : s'.RunBy registry r a adapter) :
    RunsBehind id registry exposed run r a adapter s s' s'.text := by
  intro w w₁ hw hin hrest hfree
  obtain ⟨htakes, hfree'⟩ := hin.takes_seenOut hw hfree
  have hbare := hin.bare_entered_seenOut hw hfree s'
  have hswap := hin.swap?_seenOut hw
  have hout (w₂ : World) :
      (w.seenOut run r adapter w₁).seenOut run r adapter w₂ = w.seenOut run r adapter w₂ := by
    unfold World.seenOut at hswap htakes ⊢
    rw [hswap, htakes]
  constructor
  · intro w₂ o hs
    obtain ⟨v₂, hs', hv₂⟩ := hs.of_bare hbare
    refine ⟨_, _, (Segment.ends_program hrest hrun).2 ⟨?_, v₂, o, hs', rfl, rfl⟩, ?_, ?_⟩
    · rw [htakes]
      exact hfree'
    · rw [hout]
      exact bare_seenOut w run r adapter hv₂
    · exact siteless_outcome _ _ _ _ o
  · intro v' o' he
    obtain ⟨-, v₂, o, hs', rfl, rfl⟩ := (Segment.ends_program hrest hrun).1 he
    obtain ⟨w₂, hs, hw₂⟩ := hs'.of_bare hbare.symm
    refine ⟨w₂, o, hs, ?_, siteless_outcome _ _ _ _ o⟩
    rw [hout]
    exact bare_seenOut w run r adapter hw₂

/-- What is written after a program was seen out might have been written inside. -/
theorem seenOut_write (w w₁ : World) (run : Run) (r : RegistrationId) (adapter : Adapter) (text : String) :
    (w.seenOut run r adapter w₁).modifyContext run.context (·.write .out text) =
      w.seenOut run r adapter (w₁.modifyContext run.context (·.write .out text)) := by
  have hleft (v : World) (b : Bool) : (v.left r b).modifyContext run.context (·.write .out text) =
      (v.modifyContext run.context (·.write .out text)).left r b := by
    cases b <;> rfl
  have hconcealed (swap : Option Swap) : (w₁.concealed run swap).modifyContext run.context (·.write .out text) =
      (w₁.modifyContext run.context (·.write .out text)).concealed run swap := by
    cases swap with
    | none => rfl
    | some swap =>
        simp only [World.concealed, World.modifyContext_modifyContext]
        congr 1
        funext c
        cases swap.previous <;> rfl
  unfold World.seenOut
  rw [hleft, hconcealed]

theorem runsBehind_literal (hlanguage : adapter.Composes id registry exposed a sources) (hlit : s'.isProgram = false) :
    RunsBehind id registry exposed run r a adapter s s' ((adapter.forms exposed).literal s'.text) := by
  intro w w₁ hw hin hrest hfree
  have hregistry : w₁.registry = registry := by
    rw [hin.keeps.registry, World.registry_entered, hw.registry]
  constructor
  · intro w₂ o hs
    obtain ⟨rfl, rfl⟩ := (hlanguage.run_literal w₁ _ _ w₂ o hregistry rfl).1 hs
    exact ⟨_, _, (Move.ends_runSegment_literal (p := s'.ready) hlit).2 ⟨rfl, rfl⟩,
      congrArg World.bare (seenOut_write w w₁ run r adapter s'.text), rfl⟩
  · intro v' o' he
    obtain ⟨rfl, rfl⟩ := (Move.ends_runSegment_literal (p := s'.ready) hlit).1 he
    exact ⟨_, _, (hlanguage.run_literal w₁ _ _ _ _ hregistry rfl).2 ⟨rfl, rfl⟩,
      congrArg World.bare (seenOut_write w w₁ run r adapter s'.text).symm, rfl⟩

section taking

variable (hrun : s.RunBy registry r a adapter) (hlanguage : adapter.Composes id registry exposed a sources)
  (hs : sources s.text) (ht : sources t)

include hrun hlanguage hs ht in
/-- A program with more text behind it fails where it does by itself, or goes on to that text. -/
theorem Segment.ends_append (hw : w.Suits registry exposed run) :
    (s.append t).Ends id run w w' o ↔ (w.takes run r adapter = true → (w.lock r).locked = false) ∧
      ∃ w₂ o₂, ((∃ f, o₂ = .error f ∧
            (adapter.run s.text exposed).Says id (w.entered run s r a adapter) (run.speaker a) w₂ (.error f)) ∨
          ∃ w₁, (adapter.run s.text exposed).Says id (w.entered run s r a adapter) (run.speaker a) w₁ (.ok .nothing) ∧
            (adapter.run t exposed).Says id w₁ (run.speaker a) w₂ o₂) ∧
        w' = w.seenOut run r adapter w₂ ∧ o = s.outcome (w.executable run.executable).name o₂ := by
  have happended : (s.append t).RunBy registry r a adapter :=
    ⟨hrun.isProgram, hrun.registration, hrun.owner, hrun.adapter⟩
  have hsplit (w₂ : World) (o₂ : Outcome) :=
    hlanguage.run_append (w.entered run s r a adapter) (run.speaker a) s.text t w₂ o₂
      (World.registry_entered.trans hw.registry) rfl hs ht
  simp only [← hsplit]
  exact Segment.ends_program hw happended

variable (hservice : adapter.LeavesService id registry exposed a sources)

include hs hservice in
theorem inside_of_source (hw : w.Suits registry exposed run)
    (h : (adapter.run s.text exposed).Says id (w.entered run s r a adapter) (run.speaker a) w₁ (.ok .nothing)) :
    World.Inside run s r a adapter w w₁ := by
  refine World.inside_of_says hw h fun previous handle hre => ?_
  exact hservice s.text hs _ _ _ previous handle (World.registry_entered.trans hw.registry) rfl hre h

variable (hbehind : RunsBehind id registry exposed run r a adapter s s' t)

include hrun hlanguage hs ht hservice hbehind

theorem simulates_append_of_runsBehind : Simulates id registry exposed run [s.append t] [s, s'] := by
  refine simulates_of_same fun w w' r' hw h => ?_
  obtain ⟨o, hc, rfl⟩ := runsTo_singleton.1 h
  obtain ⟨hfree, w₂, o₂, hsays, rfl, rfl⟩ := (Segment.ends_append hrun hlanguage hs ht hw).1 hc
  rcases hsays with ⟨f, rfl, hf⟩ | ⟨w₁, hs₁, hs₂⟩
  · exact ⟨_, _, .fail ((Segment.ends_program hw hrun).2 ⟨hfree, _, _, hf, rfl, rfl⟩) [s'], rfl, rfl⟩
  · have hends : s.Ends id run w (w.seenOut run r adapter w₁) (.ok .nothing) :=
      (Segment.ends_program hw hrun).2 ⟨hfree, w₁, _, hs₁, rfl, rfl⟩
    have hinside := inside_of_source hs hservice hw hs₁
    obtain ⟨v', o', he, hbare, ho⟩ := (hbehind w w₁ hw hinside (hw.keeps hends.keeps) hfree).1 w₂ o₂ hs₂
    exact ⟨v', _, .cons hends (runsTo_singleton.2 ⟨o', he, rfl⟩), hbare, ho⟩

theorem append_simulates_of_runsBehind : Simulates id registry exposed run [s, s'] [s.append t] := by
  refine simulates_of_same fun w w' r' hw h => ?_
  cases h with
  | fail he =>
      obtain ⟨hfree, w₁, o₁, hs₁, rfl, ho⟩ := (Segment.ends_program hw hrun).1 he
      cases o₁ with
      | ok _ => cases ho
      | error f₁ =>
          have hends := (Segment.ends_append hrun hlanguage hs ht hw).2 ⟨hfree, w₁, _, .inl ⟨f₁, rfl, hs₁⟩, rfl, rfl⟩
          refine ⟨_, _, runsTo_singleton.2 ⟨_, hends, rfl⟩, rfl, ?_⟩
          rw [← ho]
          rfl
  | cons he hrest =>
      obtain ⟨hfree, w₁, o₁, hs₁, rfl, ho⟩ := (Segment.ends_program hw hrun).1 he
      cases o₁ with
      | error _ => cases ho
      | ok reply =>
          cases Dialogue.eq_nothing_of_says hs₁
          obtain ⟨o', he', rfl⟩ := runsTo_singleton.1 hrest
          have hinside := inside_of_source hs hservice hw hs₁
          obtain ⟨w₂, o₂, hs₂, hbare, ho₂⟩ := (hbehind w w₁ hw hinside (hw.keeps he.keeps) hfree).2 _ o' he'
          have hends :=
            (Segment.ends_append hrun hlanguage hs ht hw).2 ⟨hfree, w₂, o₂, .inr ⟨w₁, hs₁, hs₂⟩, rfl, rfl⟩
          exact ⟨_, _, runsTo_singleton.2 ⟨_, hends, rfl⟩, hbare, ho₂⟩

/-- A program that takes up the text of what follows it. -/
theorem alike_append_of_runsBehind : Alike id registry exposed run [s.append t] [s, s'] :=
  ⟨simulates_append_of_runsBehind hrun hlanguage hs ht hservice hbehind,
    append_simulates_of_runsBehind hrun hlanguage hs ht hservice hbehind⟩

end taking

theorem exists_of_adapterForTag? {tag : String} (h : registry.adapterForTag? tag = some adapter) :
    ∃ r a, registry.registration? tag = some r ∧ registry.forTag? tag = some a ∧
      registry.adapter? a = some adapter := by
  unfold Registry.adapterForTag? Registry.forTag? at *
  obtain ⟨a, ha, hadapter⟩ := Option.bind_eq_some_iff.1 h
  obtain ⟨r, hr, -⟩ := Option.bind_eq_some_iff.1 ha
  exact ⟨r, a, hr, ha, hadapter⟩

/-- Without an adapter a program fails as it starts, with more text behind it or not. -/
theorem alike_append_of_missing (hprog : s.isProgram = true) (hnone : registry.adapterForTag? s.tag = none)
    (t : String) (s' : Segment) : Alike id registry exposed run [s.append t] [s, s'] := by
  have hends {w w' : World} {o : Outcome} (hw : w.Suits registry exposed run) :
      (s.append t).Ends id run w w' o ↔ s.Ends id run w w' o := by
    obtain ⟨rfl, -, -, -, -⟩ := hw
    exact (Move.ends_runSegment_missing (p := (s.append t).ready) hprog hnone).trans
      (Move.ends_runSegment_missing (p := s.ready) hprog hnone).symm
  have hfails {w w' : World} {o : Outcome} (hw : w.Suits registry exposed run) (h : s.Ends id run w w' o) :
      ∃ f, o = .error f := by
    obtain ⟨rfl, -, -, -, -⟩ := hw
    exact ⟨_, ((Move.ends_runSegment_missing (p := s.ready) hprog hnone).1 h).2⟩
  constructor
  · refine simulates_of_same fun w w' r hw h => ?_
    obtain ⟨o, hc, rfl⟩ := runsTo_singleton.1 h
    have hs := (hends hw).1 hc
    obtain ⟨f, rfl⟩ := hfails hw hs
    exact ⟨w', _, .fail hs [s'], rfl, rfl⟩
  · refine simulates_of_same fun w w' r hw h => ?_
    cases h with
    | fail hs => exact ⟨w', _, .fail ((hends hw).2 hs) [], rfl, rfl⟩
    | cons hs _ =>
        obtain ⟨f, hf⟩ := hfails hw hs
        cases hf

/-- Two programs of one language and the one that they are together. -/
theorem alike_append_programs (hcomposes : registry.Composes id exposed sources')
    (hleaves : registry.LeavesService id exposed sources') (hprog : s.isProgram = true)
    (hprog' : s'.isProgram = true) (htag : s.tag = s'.tag) (hs : s.IsSource registry sources')
    (hs' : s'.IsSource registry sources') : Alike id registry exposed run [s.append s'.text] [s, s'] := by
  cases hnone : registry.adapterForTag? s.tag with
  | none => exact alike_append_of_missing hprog hnone s'.text s'
  | some adapter =>
      obtain ⟨r, a, hr, ha, hadapter⟩ := exists_of_adapterForTag? hnone
      have hlanguage := hcomposes s.tag r a adapter hr ha hadapter
      have hservice := hleaves s.tag r a adapter hr ha hadapter
      have hsource' : sources' s.tag s'.text := htag ▸ hs' hprog' adapter (htag ▸ hnone)
      exact alike_append_of_runsBehind ⟨hprog, hr, ha, hadapter⟩ hlanguage (hs hprog adapter hnone) hsource' hservice
        (runsBehind_program ⟨hprog', htag ▸ hr, htag ▸ ha, hadapter⟩)

/-- A program and the literal that it takes up in the form of its language. -/
theorem alike_append_literal (hcomposes : registry.Composes id exposed sources')
    (hleaves : registry.LeavesService id exposed sources') (hprog : s.isProgram = true)
    (hlit : s'.isProgram = false) (hs : s.IsSource registry sources')
    (hadapter : registry.adapterForTag? s.tag = some adapter) :
    Alike id registry exposed run [s.append ((adapter.forms exposed).literal s'.text)] [s, s'] := by
  obtain ⟨r, a, hr, ha, hadapter'⟩ := exists_of_adapterForTag? hadapter
  have hlanguage := hcomposes s.tag r a adapter hr ha hadapter'
  have hservice := hleaves s.tag r a adapter hr ha hadapter'
  exact alike_append_of_runsBehind ⟨hprog, hr, ha, hadapter'⟩ hlanguage (hs hprog adapter hadapter)
    (hlanguage.literal s'.text) hservice (runsBehind_literal hlanguage hlit)

theorem Segment.ends_literal (hlit : s.isProgram = false) :
    s.Ends id run w w' o ↔ w' = w.modifyContext run.context (·.write .out s.text) ∧ o = .ok .nothing :=
  Move.ends_runSegment_literal hlit

theorem runsTo_literal (hlit : s.isProgram = false) (w : World) :
    RunsTo id run w [s] (w.modifyContext run.context (·.write .out s.text)) (.ok ()) :=
  .cons ((Segment.ends_literal hlit).2 ⟨rfl, rfl⟩) (.nil _)

theorem eq_of_runsTo_literal {r : Except Failure Unit} (hlit : s.isProgram = false) (h : RunsTo id run w [s] w' r) :
    w' = w.modifyContext run.context (·.write .out s.text) ∧ r = .ok () := by
  obtain ⟨o, he, rfl⟩ := runsTo_singleton.1 h
  obtain ⟨rfl, rfl⟩ := (Segment.ends_literal hlit).1 he
  exact ⟨rfl, rfl⟩

theorem alike_append_literals (hlit : s.isProgram = false) (hlit' : s'.isProgram = false) :
    Alike id registry exposed run [s.append s'.text] [s, s'] := by
  have hwrite (w : World) : (w.modifyContext run.context (·.write .out s.text)).modifyContext run.context
      (·.write .out s'.text) = w.modifyContext run.context (·.write .out (s.text ++ s'.text)) := by
    rw [World.modifyContext_modifyContext]
    congr 1
    funext c
    simp [Context.write, String.append_assoc]
  constructor
  · refine simulates_of_same fun w w' r _ h => ?_
    obtain ⟨rfl, rfl⟩ := eq_of_runsTo_literal (s := s.append s'.text) hlit h
    exact ⟨_, _, .cons ((Segment.ends_literal hlit).2 ⟨rfl, rfl⟩) (runsTo_literal hlit' _),
      congrArg World.bare (hwrite w), rfl⟩
  · refine simulates_of_same fun w w' r _ h => ?_
    cases h with
    | fail he => cases ((Segment.ends_literal hlit).1 he).2
    | cons he hrest =>
        obtain ⟨rfl, -⟩ := (Segment.ends_literal hlit).1 he
        obtain ⟨rfl, rfl⟩ := eq_of_runsTo_literal hlit' hrest
        exact ⟨_, _, runsTo_literal (s := s.append s'.text) hlit w, congrArg World.bare (hwrite w).symm, rfl⟩

end merging

/-! Both passes glue neighbours that have the same effects together as apart. -/

section gluing

variable {sources : String → String → Prop}

theorem alike_glueFrom {absorb : Segment → Segment → Option Segment} {P : Segment → Prop}
    (h : ∀ s s' c, P s → P s' → absorb s s' = some c → P c ∧ Alike id registry exposed run [c] [s, s'])
    {current : Segment} {rest : List Segment} (hcurrent : P current) (hrest : ∀ s ∈ rest, P s) :
    (∀ s ∈ glueFrom absorb current rest, P s) ∧
      Alike id registry exposed run (glueFrom absorb current rest) (current :: rest) := by
  induction rest generalizing current with
  | nil => exact ⟨by simpa [glueFrom] using hcurrent, .refl _⟩
  | cons s rest ih =>
      have hs : P s := hrest s (List.mem_cons_self ..)
      have hrest' : ∀ x ∈ rest, P x := fun x hx => hrest x (List.mem_cons_of_mem _ hx)
      unfold glueFrom
      cases habsorb : absorb current s with
      | some c =>
          obtain ⟨hc, hpair⟩ := h current s c hcurrent hs habsorb
          obtain ⟨hall, halike⟩ := ih hc hrest'
          exact ⟨hall, halike.trans (hpair.append (.refl rest))⟩
      | none =>
          obtain ⟨hall, halike⟩ := ih hs hrest'
          refine ⟨fun x hx => ?_, (Alike.refl [current]).append halike⟩
          rcases List.mem_cons.1 hx with rfl | hx
          · exact hcurrent
          · exact hall x hx

theorem alike_glue {absorb : Segment → Segment → Option Segment} {P : Segment → Prop}
    (h : ∀ s s' c, P s → P s' → absorb s s' = some c → P c ∧ Alike id registry exposed run [c] [s, s'])
    {segments : List Segment} (hall : ∀ s ∈ segments, P s) :
    (∀ s ∈ glue absorb segments, P s) ∧ Alike id registry exposed run (glue absorb segments) segments := by
  cases segments with
  | nil => exact ⟨nofun, .refl []⟩
  | cons s rest =>
      exact alike_glueFrom h (hall s (List.mem_cons_self ..)) fun x hx => hall x (List.mem_cons_of_mem _ hx)

theorem isSource_append (hcomposes : registry.Composes id exposed sources) {s s' : Segment}
    (hprog' : s'.isProgram = true) (htag : s.tag = s'.tag) (hs : s.IsSource registry sources)
    (hs' : s'.IsSource registry sources) : (s.append s'.text).IsSource registry sources := by
  intro hprog adapter hadapter
  obtain ⟨r, a, hr, ha, hadapter'⟩ := exists_of_adapterForTag? hadapter
  have hsource' : sources s.tag s'.text := htag ▸ hs' hprog' adapter (htag ▸ hadapter)
  exact (hcomposes _ r a adapter hr ha hadapter').append _ _ (hs hprog adapter hadapter) hsource'

theorem alike_joinAlike (hcomposes : registry.Composes id exposed sources)
    (hleaves : registry.LeavesService id exposed sources) (s s' c : Segment)
    (hs : s.IsSource registry sources) (hs' : s'.IsSource registry sources) (hc : s.joinAlike s' = some c) :
    c.IsSource registry sources ∧ Alike id registry exposed run [c] [s, s'] := by
  unfold Segment.joinAlike at hc
  split at hc
  · next h =>
      obtain ⟨hkind, htag⟩ := h
      cases hc
      cases hprog : s.isProgram with
      | true =>
          have hprog' : s'.isProgram = true := hkind ▸ hprog
          exact ⟨isSource_append hcomposes hprog' htag hs hs',
            alike_append_programs hcomposes hleaves hprog hprog' htag hs hs'⟩
      | false =>
          refine ⟨fun h => ?_, alike_append_literals hprog (hkind ▸ hprog)⟩
          exact absurd (hprog.symm.trans h) nofun
  · cases hc

theorem alike_takeUp (hcomposes : registry.Composes id exposed sources)
    (hleaves : registry.LeavesService id exposed sources) (s s' c : Segment)
    (hs : s.IsSource registry sources) (hs' : s'.IsSource registry sources)
    (hc : s.takeUp (registry.forms exposed) s' = some c) :
    c.IsSource registry sources ∧ Alike id registry exposed run [c] [s, s'] := by
  unfold Segment.takeUp at hc
  split at hc
  · next h =>
      obtain ⟨hprog, htag⟩ := h
      split at hc
      · next hprog' =>
          cases hc
          exact ⟨isSource_append hcomposes hprog' htag hs hs',
            alike_append_programs hcomposes hleaves hprog hprog' htag hs hs'⟩
      · next hlit =>
          obtain ⟨f, hf, rfl⟩ := Option.map_eq_some_iff.1 hc
          obtain ⟨adapter, hadapter, rfl⟩ := Option.map_eq_some_iff.1 hf
          rw [← htag] at hadapter
          refine ⟨fun _ adapter' hadapter' => ?_,
            alike_append_literal hcomposes hleaves hprog (Bool.eq_false_iff.2 hlit) hs hadapter⟩
          cases hadapter.symm.trans hadapter'
          obtain ⟨r, a, hr, ha, hfound⟩ := exists_of_adapterForTag? hadapter
          have hlanguage := hcomposes s.tag r a adapter hr ha hfound
          exact hlanguage.append _ _ (hs hprog adapter hadapter) (hlanguage.literal _)
  · cases hc

theorem alike_collapse (hcomposes : registry.Composes id exposed sources)
    (hleaves : registry.LeavesService id exposed sources) {segments : List Segment}
    (hall : ∀ s ∈ segments, s.IsSource registry sources) :
    Alike id registry exposed run (collapse (registry.forms exposed) segments) segments := by
  obtain ⟨hmerged, halike⟩ : (∀ s ∈ mergeAdjacent segments, s.IsSource registry sources) ∧
      Alike id registry exposed run (mergeAdjacent segments) segments :=
    alike_glue (alike_joinAlike hcomposes hleaves) hall
  have hfolded : Alike id registry exposed run (collapse (registry.forms exposed) segments)
      (mergeAdjacent segments) := (alike_glue (alike_takeUp hcomposes hleaves) hmerged).2
  exact hfolded.trans halike

theorem alike_empty (tag : String) (line column : Nat) :
    Alike id registry exposed run [⟨false, tag, line, column, ""⟩] [] := by
  have hnothing (w : World) : w.modifyContext run.context (·.write .out "") = w := by
    refine World.modifyContext_eq_self ?_
    simp [Context.write]
  constructor
  · refine simulates_of_same fun w w' r _ h => ?_
    obtain ⟨rfl, rfl⟩ := eq_of_runsTo_literal rfl h
    rw [hnothing]
    exact ⟨w, _, .nil w, rfl, rfl⟩
  · refine simulates_of_same fun w w' r _ h => ?_
    cases h
    have hlit : RunsTo id run w [⟨false, tag, line, column, ""⟩]
        (w.modifyContext run.context (·.write .out "")) (.ok ()) := runsTo_literal rfl w
    rw [hnothing] at hlit
    exact ⟨w, _, hlit, rfl, rfl⟩

theorem alike_collapsed (hcomposes : registry.Composes id exposed sources)
    (hleaves : registry.LeavesService id exposed sources) (tag : String) {segments : List RawSegment}
    (hall : ∀ s ∈ segments.map (RawSegment.lower (registry.forms exposed)), s.IsSource registry sources) :
    Alike id registry exposed run (collapsed (registry.forms exposed) tag segments)
      (segments.map (RawSegment.lower (registry.forms exposed))) := by
  have halike : Alike id registry exposed run
      (collapse (registry.forms exposed) (segments.map (RawSegment.lower (registry.forms exposed))))
      (segments.map (RawSegment.lower (registry.forms exposed))) := alike_collapse hcomposes hleaves hall
  unfold collapsed
  split
  · next h =>
      rw [h] at halike
      exact (alike_empty tag 1 1).trans halike
  · exact halike

end gluing

end ScriptedText
