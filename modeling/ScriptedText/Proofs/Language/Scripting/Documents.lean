import ScriptedText.Proofs.Engine.Meaning
import ScriptedText.Proofs.Engine.Verdict
import ScriptedText.Proofs.Language.Scripting.Seams

/-!
Documents that print: what they write as they are written, and what they write once their segments are collapsed.
-/

namespace ScriptedText

variable {id : TaskId} {run : Run} {w w' w₁ : World} {o : Outcome} {registry : Registry} {exposed tag text : String}
  {r : RegistrationId} {a : AdapterId} {adapter : Adapter} {s : Segment} {segments : List Segment}

/-- The segments of a document as they run without being collapsed. -/
def Draft.lowered (registry : Registry) (d : Draft) (k : Nat) : List Segment :=
  (d.raw k).map (RawSegment.lower (registry.forms d.exposed))

namespace Scripting

/-! ### Programs that print -/

/-- Documents can run in the world, and `print` is what it is from the start in their context. -/
structure CanPrint (registry : Registry) (exposed : String) (a : AdapterId) (run : Run) (w : World) : Prop where
  suits : w.Suits registry exposed run
  own : OwnPrint (run.speaker a) w
  exposed : exposed ≠ "print"

variable {es : List Expr} {q : Place}

theorem CanPrint.ne_exposed (hw : CanPrint registry exposed a run w) : "print" ≠ (w.executable run.executable).exposed :=
  hw.suits.exposed ▸ hw.exposed.symm

theorem CanPrint.entered (hw : CanPrint registry exposed a run w) : OwnPrint (run.speaker a) (w.entered run s r a adapter) :=
  hw.own.congr World.length_contexts_entered (World.read_entered (overlooks_service hw.ne_exposed) _)
    (World.read_entered (overlooks_bindings _) _) (World.read_entered (overlooks_notesOf _ a) _)

/-- A program that prints ends well, with its text written. -/
theorem ends_of_prints (id : TaskId) (hw : CanPrint registry exposed a run w)
    (hrun : s.RunBy registry r a Scripting.adapter) (hprints : Prints .ready s.text.toList es q)
    (hpublished : (publishedNames s.text).all isPublishable = true) :
    ∃ w₂, CanPrint registry exposed a run w₂ ∧
      (w₂.context run.context).out = (w.context run.context).out ++ output es ∧
      ∀ w' o, s.Ends id run w w' o ↔ w' = w₂ ∧ o = .ok .nothing := by
  have hentered : OwnPrint (run.speaker a) (w.entered run s r a Scripting.adapter) := hw.entered
  obtain ⟨w₁, hleads, hwrote, hnotes⟩ := leadsTo_run hprints hpublished exposed hentered
  have hends (w' : World) (o : Outcome) :
      s.Ends id run w w' o ↔ w' = w.seenOut run r Scripting.adapter w₁ ∧ o = .ok .nothing := by
    have hspoken (w' : World) (o : Outcome) : (Scripting.adapter.run s.text exposed).Says id
        (w.entered run s r a Scripting.adapter) (run.speaker a) w' o ↔ w' = w₁ ∧ o = .ok .nothing := hleads.says_iff
    rw [Segment.ends_program hw.suits hrun]
    constructor
    · rintro ⟨-, w₂, o₂, h, rfl, rfl⟩
      obtain ⟨rfl, rfl⟩ := (hspoken w₂ o₂).1 h
      exact ⟨rfl, rfl⟩
    · rintro ⟨rfl, rfl⟩
      exact ⟨nofun, w₁, _, (hspoken _ _).2 ⟨rfl, rfl⟩, rfl, rfl⟩
  have hkeeps := Segment.Ends.keeps ((hends _ _).2 ⟨rfl, rfl⟩)
  have hout : (w₁.context run.context).out = (w.context run.context).out ++ output es :=
    hwrote.out.trans (congrArg (· ++ output es) (World.read_entered (overlooks_out _) _))
  refine ⟨_, ⟨hw.suits.keeps hkeeps, ?_, hw.exposed⟩, ?_, hends⟩
  · refine OwnPrint.congr (w := w₁) ⟨hnotes.1, ?_, ?_, .inr hnotes⟩ ?_ ?_ ?_ ?_
    · rw [hwrote.services]
      exact hentered.services
    · rw [hwrote.bindings]
      exact hentered.bindings
    · rw [hkeeps.1.contexts, hwrote.contexts, World.length_contexts_entered]
    · exact World.read_seenOut (overlooks_service hw.ne_exposed) _
    · exact World.read_seenOut (overlooks_bindings _) _
    · exact World.read_seenOut (overlooks_notesOf _ a) _
  · exact (World.read_seenOut (overlooks_out _) _).trans hout

theorem ends_literal (id : TaskId) (hw : CanPrint registry exposed a run w) (hlit : s.isProgram = false) :
    ∃ w₂, CanPrint registry exposed a run w₂ ∧
      (w₂.context run.context).out = (w.context run.context).out ++ s.text ∧
      ∀ w' o, s.Ends id run w w' o ↔ w' = w₂ ∧ o = .ok .nothing := by
  have hends (w' : World) (o : Outcome) :
      s.Ends id run w w' o ↔ w' = w.modifyContext run.context (·.write .out s.text) ∧ o = .ok .nothing :=
    Segment.ends_literal hlit
  have hkeeps := Segment.Ends.keeps ((hends _ _).2 ⟨rfl, rfl⟩)
  have hsame {α : Type} (g : Context → α) (h : ∀ x, g (x.write .out s.text) = g x) :
      g ((w.modifyContext run.context (·.write .out s.text)).context run.context) = g (w.context run.context) :=
    World.read_modifyContext g w run.context h _
  refine ⟨_, ⟨hw.suits.keeps hkeeps, ?_, hw.exposed⟩, ?_, hends⟩
  · exact hw.own.congr hkeeps.1.contexts (hsame (·.services.get? "print") fun _ => rfl) (hsame Context.bindings fun _ => rfl)
      (hsame (Context.notesOf · a) fun _ => rfl)
  · rw [World.context_modifyContext _ _ hw.suits.context]
    rfl

/-! ### Segments that print -/

/-- The texts of programs publish nothing but names that can stand where a program is wrapped. -/
def Publishable (segments : List Segment) : Prop :=
  ∀ s ∈ segments, s.isProgram = true → (publishedNames s.text).all isPublishable = true

instance (segments : List Segment) : Decidable (Publishable segments) :=
  inferInstanceAs (Decidable (∀ s ∈ segments, s.isProgram = true → (publishedNames s.text).all isPublishable = true))

/-- The segments run to their end, in just one way, and the text is written. -/
def WritesOut (id : TaskId) (run : Run) (w : World) (segments : List Segment) (text : String) : Prop :=
  ∃ w₁, (w₁.context run.context).out = (w.context run.context).out ++ text ∧
    ∀ w' r, RunsTo id run w segments w' r ↔ w' = w₁ ∧ r = .ok ()

theorem writes_cons {t : String} (hs : ∀ w' o, s.Ends id run w w' o ↔ w' = w₁ ∧ o = .ok .nothing)
    (hout : (w₁.context run.context).out = (w.context run.context).out ++ t) (h : WritesOut id run w₁ segments text) :
    WritesOut id run w (s :: segments) (t ++ text) := by
  obtain ⟨w₂, hout₂, hruns⟩ := h
  refine ⟨w₂, by rw [hout₂, hout, String.append_assoc], fun w' r => ⟨fun hrun => ?_, ?_⟩⟩
  · cases hrun with
    | fail he => cases ((hs _ _).1 he).2
    | cons he hrest =>
        obtain ⟨rfl, -⟩ := (hs _ _).1 he
        exact (hruns w' r).1 hrest
  · rintro ⟨rfl, rfl⟩
    exact .cons ((hs _ _).2 ⟨rfl, rfl⟩) ((hruns _ _).2 ⟨rfl, rfl⟩)

/-- The language of the tag is the scripting language. -/
structure IsScripting (registry : Registry) (tag : String) (r : RegistrationId) (a : AdapterId) : Prop where
  registration : registry.registration? tag = some r
  owner : registry.forTag? tag = some a
  adapter : registry.adapter? a = some Scripting.adapter

/-- Segments that print one by one. -/
theorem Tells.writes (h : Tells tag segments (some text)) (id : TaskId) (hlanguage : IsScripting registry tag r a)
    (hpublishable : Publishable segments) (hw : CanPrint registry exposed a run w) : WritesOut id run w segments text := by
  generalize htext : some text = o at h
  induction h generalizing text w with
  | nil =>
      cases htext
      refine ⟨w, by simp, fun w' r => ⟨fun h => ?_, ?_⟩⟩
      · cases h
        exact ⟨rfl, rfl⟩
      · rintro ⟨rfl, rfl⟩
        exact .nil _
  | literal hlit _ ih =>
      obtain ⟨text', rfl, rfl⟩ := Option.map_eq_some_iff.1 htext.symm
      obtain ⟨-, hpublishable⟩ := List.forall_mem_cons.1 hpublishable
      obtain ⟨w₁, hw₁, hout, hends⟩ := ends_literal id hw hlit
      exact writes_cons hends hout (ih hpublishable hw₁ rfl)
  | program hprog htag hprints _ ih =>
      obtain ⟨text', rfl, rfl⟩ := Option.map_eq_some_iff.1 htext.symm
      obtain ⟨hs, hpublishable⟩ := List.forall_mem_cons.1 hpublishable
      subst htag
      obtain ⟨w₁, hw₁, hout, hends⟩ :=
        ends_of_prints id hw ⟨hprog, hlanguage.registration, hlanguage.owner, hlanguage.adapter⟩ hprints (hs hprog)
      exact writes_cons hends hout (ih hpublishable hw₁ rfl)
  | rejected => cases htext

theorem Tells.prints_of_mem (h : Tells tag segments (some text)) :
    ∀ s ∈ segments, s.isProgram = true → s.tag = tag ∧ ∃ es q, Prints .ready s.text.toList es q := by
  generalize htext : some text = o at h
  induction h generalizing text with
  | nil => nofun
  | literal hlit _ ih =>
      obtain ⟨text', rfl, -⟩ := Option.map_eq_some_iff.1 htext.symm
      exact List.forall_mem_cons.2 ⟨fun hprog => absurd hprog (by simp [hlit]), ih rfl⟩
  | program _ htag hprints _ ih =>
      obtain ⟨text', rfl, -⟩ := Option.map_eq_some_iff.1 htext.symm
      exact List.forall_mem_cons.2 ⟨fun _ => ⟨htag, _, _, hprints⟩, ih rfl⟩
  | rejected => cases htext

theorem Tells.exists_rejected (h : Tells tag segments none) :
    ∃ s ∈ segments, s.isProgram = true ∧ s.tag = tag ∧ program? s.text = none := by
  generalize hnone : none = o at h
  induction h with
  | nil => cases hnone
  | literal _ _ ih | program _ _ _ _ ih =>
      obtain ⟨s, hs, hrejected⟩ := ih (Option.map_eq_none_iff.1 hnone.symm).symm
      exact ⟨s, List.mem_cons_of_mem _ hs, hrejected⟩
  | rejected hprog htag h => exact ⟨_, List.mem_cons_self .., hprog, htag, h⟩

/-- Where segments run to their end, there is a program of each text. -/
theorem compiles_of_runsTo (hlanguage : IsScripting registry tag r a) {result : Except Failure Unit}
    (h : RunsTo id run w segments w' result) (hresult : result = .ok ()) (hw : w.Suits registry exposed run) :
    ∀ s ∈ segments, s.isProgram = true → s.tag = tag → ∃ p, compile s.text = .ok p := by
  induction h with
  | nil => nofun
  | fail => cases hresult
  | @cons w w₁ w' s rest reply result hs hrest ih =>
      refine List.forall_mem_cons.2 ⟨fun hprog htag => ?_, ih hresult (hw.keeps hs.keeps)⟩
      subst htag
      have hrun : s.RunBy registry r a Scripting.adapter :=
        ⟨hprog, hlanguage.registration, hlanguage.owner, hlanguage.adapter⟩
      obtain ⟨-, w₂, o₂, hspoken, -, ho⟩ := (Segment.ends_program hw hrun).1 hs
      cases hcompile : compile s.text with
      | ok p => exact ⟨p, rfl⟩
      | error f =>
          have hfails : Scripting.adapter.run s.text exposed = .fail f := by
            change Scripting.run s.text exposed = _
            unfold Scripting.run
            rw [hcompile]
            rfl
          rw [hfails] at hspoken
          obtain ⟨-, rfl⟩ := Dialogue.ends_fail.1 hspoken
          cases ho

theorem compile_eq_ok_iff {source : String} {p : Program} :
    compile source = .ok p ↔ program? source = some p ∧ (publishedNames source).all isPublishable = true := by
  unfold compile
  split
  · next hp =>
      rw [hp]
      split
      · next h => simp [h]
      · next h => simp [h]
  · next hp => simp [hp]

/-! ### Documents that print -/

/-- What a segment prints by itself, as it was written, where its programs have the tag. -/
inductive PrintsAlone (tag : String) : RawSegment → String → Prop
  | literal {s : RawSegment} (h : s.kind = .literal) : PrintsAlone tag s s.text
  | plain {s : RawSegment} {es : List Expr} {q : Place} (hkind : s.kind = .plain) (htag : s.tag = tag)
      (h : Prints .ready s.text.toList es q) : PrintsAlone tag s (output es)
  | expression {s : RawSegment} {before cs after : List Char} {e : Expr} (hkind : s.kind = .expression) (htag : s.tag = tag)
      (hbefore : Gap before) (h : IsSum false cs e) (hafter : Gap after) (htext : s.text.toList = before ++ cs ++ after) :
      PrintsAlone tag s (output [e])

section lowering

variable {table : FormTable} {raw : List RawSegment} {texts : List String}

theorem tells_lower (hforms : table tag = some (forms exposed)) (h : List.Forall₂ (PrintsAlone tag) raw texts) :
    Tells tag (raw.map (RawSegment.lower table)) (some (String.join texts)) := by
  induction h with
  | nil => exact .nil
  | @cons s text raw texts hs _ ih =>
      have hjoin : some (String.join (text :: texts)) = (some (String.join texts)).map (text ++ ·) := by simp
      rw [hjoin, List.map_cons]
      cases hs with
      | literal hkind =>
          have htext : (s.lower table).text = s.text := by simp [RawSegment.lower, hkind]
          rw [← htext]
          exact .literal (by simp [RawSegment.lower, hkind]) ih
      | plain hkind htag hprints =>
          have htext : (s.lower table).text = s.text := by simp [RawSegment.lower, hkind]
          rw [← htext] at hprints
          exact .program (by simp [RawSegment.lower, hkind]) htag hprints ih
      | expression hkind htag hbefore hsum hafter htext =>
          have hform : (s.lower table).text = (forms exposed).expression s.text := by
            simp [RawSegment.lower, hkind, htag, hforms]
          have hprints := prints_expression hbefore hsum hafter htext exposed
          rw [← hform] at hprints
          exact .program (by simp [RawSegment.lower, hkind]) htag hprints ih

/-- Every plain scriptlet but the last segment can be read so that it leaves off at a place of the kind. -/
def ScriptletsLeaveOff (P : Place → Prop) (raw : List RawSegment) : Prop :=
  ∀ s ∈ raw.dropLast, s.kind = .plain → ∃ es q, Prints .ready s.text.toList es q ∧ P q

/-- An expression leaves off at the start of a statement. -/
theorem ScriptletsLeaveOff.lower {P : Place → Prop} (hP : P .ready) (hends : ScriptletsLeaveOff P raw)
    (hforms : table tag = some (forms exposed)) (h : List.Forall₂ (PrintsAlone tag) raw texts) :
    LeavesOff P (raw.map (RawSegment.lower table)) := by
  intro s hs hprog
  rw [← List.map_dropLast] at hs
  obtain ⟨x, hx, rfl⟩ := List.mem_map.1 hs
  obtain ⟨text, hprints⟩ : ∃ text, PrintsAlone tag x text := by
    obtain ⟨n, hn, rfl⟩ := List.getElem_of_mem ((List.dropLast_sublist raw).subset hx)
    exact ⟨_, h.get hn (h.length_eq ▸ hn)⟩
  cases hprints with
  | literal hkind => simp [RawSegment.lower, hkind] at hprog
  | plain hkind =>
      have htext : (x.lower table).text = x.text := by simp [RawSegment.lower, hkind]
      rw [htext]
      exact hends x hx hkind
  | expression hkind htag hbefore hsum hafter htext =>
      have hform : (x.lower table).text = (forms exposed).expression x.text := by
        simp [RawSegment.lower, hkind, htag, hforms]
      rw [hform]
      exact ⟨_, _, prints_expression hbefore hsum hafter htext exposed, hP⟩

end lowering

theorem tells_collapsed {table : FormTable} (hforms : table tag = some (forms exposed)) {raw : List RawSegment} {o : Option String}
    (h : Reads tag none (raw.map (RawSegment.lower table)) o) (start : String) : Tells tag (collapsed table start raw) o := by
  have htells := h.tells_collapse hforms
  unfold collapsed
  split
  · next hnil =>
      rw [hnil] at htells
      cases htells
      exact .literal (o := some "") rfl .nil
  · exact htells

/-- All programs of a collapsed document have the tag that they had. -/
theorem tag_of_mem_collapsed {table : FormTable} {raw : List RawSegment} {start : String}
    (h : ∀ s ∈ raw.map (RawSegment.lower table), s.isProgram = true → s.tag = tag) :
    ∀ s ∈ collapsed table start raw, s.isProgram = true → s.tag = tag := by
  have hkeeps {absorb : Segment → Segment → Option Segment} (happends : Appends absorb) (a b c : Segment)
      (ha : a.isProgram = true → a.tag = tag) (_ : b.isProgram = true → b.tag = tag) (hc : absorb a b = some c) :
      c.isProgram = true → c.tag = tag := by
    obtain ⟨text, rfl⟩ := happends a b c hc
    exact ha
  have hcollapse := forall_glue (hkeeps (appends_takeUp table)) (forall_glue (hkeeps appends_joinAlike) h)
  unfold collapsed
  split
  · intro s hs hprog
    cases List.mem_singleton.1 hs
    cases hprog
  · exact hcollapse

/-- A document without bodies whose programs are in the scripting language and have one tag. Each of its segments prints a
text by itself. -/
structure IsPrinting (registry : Registry) (k : Nat) (tag : String) (r : RegistrationId) (a : AdapterId) (d : Draft)
    (texts : List String) : Prop where
  language : IsScripting registry tag r a
  bodies : d.bodies = []
  closed : d.isText = true → d.reading.ending = .complete
  prints : List.Forall₂ (PrintsAlone tag) (d.raw k) texts
  publishable : Publishable (d.lowered registry k)

namespace IsPrinting

variable {d : Draft} {k : Nat} {texts : List String} (h : IsPrinting registry k tag r a d texts)

include h

theorem forms : registry.forms d.exposed tag = some (Scripting.forms d.exposed) := by
  have hadapter : registry.adapterForTag? tag = some Scripting.adapter := by
    simp [Registry.adapterForTag?, h.language.owner, h.language.adapter]
  unfold Registry.forms
  rw [hadapter]
  rfl

theorem tells_lowered : Tells tag (d.lowered registry k) (some (String.join texts)) := tells_lower h.forms h.prints

theorem tells_laid {o : Option String} (hreads : Reads tag none (d.lowered registry k) o) : Tells tag (d.laid registry k) o :=
  tells_collapsed h.forms hreads d.tag

theorem sound (htells : Tells tag (d.laid registry k) (some text)) (hpublishable : Publishable (d.laid registry k)) :
    d.Sound registry k where
  closed := h.closed
  admitted s hs hprog := by
    obtain ⟨rfl, es, q, hprints⟩ := htells.prints_of_mem s hs hprog
    have hadapter : registry.adapterForTag? s.tag = some Scripting.adapter := by
      simp [Registry.adapterForTag?, h.language.owner, h.language.adapter]
    have hprogram := hprints.program?
    rw [String.ofList_toList] at hprogram
    have hcompile := compile_eq_ok_iff.2 ⟨hprogram, hpublishable s hs hprog⟩
    refine ⟨Scripting.adapter, hadapter, rfl, fun _ => ?_⟩
    change (do let _ ← compile s.text : Except Failure Unit) = _
    rw [hcompile]
    rfl

/-- Where collapsed segments run to their end, they can be read and published. -/
theorem reads_of_runsTo (hw : CanPrint registry d.exposed a run w) (hruns : RunsTo id run w (d.laid registry k) w' (.ok ()))
    (hends : ScriptletsLeaveOff (· ≠ .comment) (d.raw k)) :
    Reads tag none (d.lowered registry k) (some (String.join texts)) ∧ Publishable (d.laid registry k) := by
  have hcompiles := compiles_of_runsTo h.language hruns rfl hw.suits
  obtain ⟨o, hglued, ho⟩ : ∃ o, Reads tag none (d.lowered registry k) o ∧ (o = none ∨ o = some (String.join texts)) :=
    h.tells_lowered.exists_reads (.inl nofun) (hends.lower nofun h.forms h.prints)
  refine ⟨?_, fun s hs hprog => ?_⟩
  · rcases ho with rfl | rfl
    · obtain ⟨s, hs, hprog, htag, hrejected⟩ := (h.tells_laid hglued).exists_rejected
      obtain ⟨p, hp⟩ := hcompiles s hs hprog htag
      cases hrejected.symm.trans (compile_eq_ok_iff.1 hp).1
    · exact hglued
  · have htag := tag_of_mem_collapsed (fun s hs hprog => (h.tells_lowered.prints_of_mem s hs hprog).1) s hs hprog
    obtain ⟨p, hp⟩ := hcompiles s hs hprog htag
    exact (compile_eq_ok_iff.1 hp).2

end IsPrinting

/-- The executable of a printing document that can be read and published when it is collapsed. -/
theorem exists_compiled {w₀ : World} {d : Draft} {texts : List String}
    (h : IsPrinting w₀.registry w₀.inFlowCount tag r a d texts)
    (htells : Tells tag (d.laid w₀.registry w₀.inFlowCount) (some text))
    (hpublishable : Publishable (d.laid w₀.registry w₀.inFlowCount)) :
    ∃ w₁ e, w₀.compile d = (w₁, .ok e) ∧ ∀ id run w, CanPrint w₀.registry d.exposed a run w →
      (w.executable run.executable).segments = (w₁.executable e).segments →
      ∃ w₂, (w₂.context run.context).out = (w.context run.context).out ++ text ∧
        ∀ w' o, (Move.afterInitialized w id run (.ok .nothing)).Ends id w' o ↔
          (Move.finish w₂ run (.ok ())).Ends id w' o := by
  obtain ⟨w₁, e, hcompile, hbuilt⟩ := compiles_of_sound h.bodies (h.sound htells hpublishable)
  refine ⟨w₁, e, hcompile, fun id run w hw hsegments => ?_⟩
  obtain ⟨w₂, hout, hruns⟩ := htells.writes id h.language hpublishable hw
  refine ⟨w₂, hout, fun w' o => ?_⟩
  have hready : ∀ p ∈ (w₁.executable e).segments, p.IsReady := by
    intro p hp hprog
    rw [hbuilt.program_eq p hp, if_pos hprog]
  change (Move.runSegments w id run (w.executable run.executable).segments).Ends id w' o ↔ _
  rw [hsegments, Move.ends_runSegments hready, hbuilt.map_toSegment]
  constructor
  · rintro ⟨w₃, r', hrun, hfinish⟩
    obtain ⟨rfl, rfl⟩ := (hruns _ _).1 hrun
    exact hfinish
  · exact fun hfinish => ⟨w₂, .ok (), (hruns _ _).2 ⟨rfl, rfl⟩, hfinish⟩

/-- A document of literals, of plain scriptlets that are programs by themselves and print sums of string literals, and of
expressions that are such sums. Where `print` is what it is from the start, its segments one by one write what each of them
prints by itself. If the texts can be read behind one another, and those that are put together publish nothing that cannot be
published, the document compiles, and its executable runs and writes what is read. That is what the segments write one by one if
each plain scriptlet leaves off at the start of a statement. If none leaves a comment open, it is the only way for collapsed
segments to write just that: where two calls meet on one line they do not run. -/
theorem collapsed_prints_as_written_iff {w₀ : World} {d : Draft} {texts : List String}
    (h : IsPrinting w₀.registry w₀.inFlowCount tag r a d texts) :
    (∀ id run w, CanPrint w₀.registry d.exposed a run w →
      WritesOut id run w (d.lowered w₀.registry w₀.inFlowCount) (String.join texts)) ∧
    (∀ text, Reads tag none (d.lowered w₀.registry w₀.inFlowCount) (some text) →
      Publishable (d.laid w₀.registry w₀.inFlowCount) →
      ∃ w₁ e, w₀.compile d = (w₁, .ok e) ∧ ∀ id run w, CanPrint w₀.registry d.exposed a run w →
        (w.executable run.executable).segments = (w₁.executable e).segments →
        ∃ w₂, (w₂.context run.context).out = (w.context run.context).out ++ text ∧
          ∀ w' o, (Move.afterInitialized w id run (.ok .nothing)).Ends id w' o ↔
            (Move.finish w₂ run (.ok ())).Ends id w' o) ∧
    (ScriptletsLeaveOff (· = .ready) (d.raw w₀.inFlowCount) →
      Reads tag none (d.lowered w₀.registry w₀.inFlowCount) (some (String.join texts))) ∧
    (ScriptletsLeaveOff (· ≠ .comment) (d.raw w₀.inFlowCount) →
      ∀ id run w, CanPrint w₀.registry d.exposed a run w →
        (WritesOut id run w (d.laid w₀.registry w₀.inFlowCount) (String.join texts) ↔
          Reads tag none (d.lowered w₀.registry w₀.inFlowCount) (some (String.join texts)) ∧
            Publishable (d.laid w₀.registry w₀.inFlowCount))) := by
  refine ⟨fun id run w hw => ?_, fun text hreads hp => ?_, fun hends => ?_, fun hends id run w hw => ⟨?_, ?_⟩⟩
  · exact h.tells_lowered.writes id h.language h.publishable hw
  · exact exists_compiled h (h.tells_laid hreads) hp
  · exact h.tells_lowered.reads (.inl rfl) (hends.lower rfl h.forms h.prints)
  · rintro ⟨w₁, -, hruns⟩
    exact h.reads_of_runsTo hw ((hruns _ _).2 ⟨rfl, rfl⟩) hends
  · rintro ⟨hreads, hp⟩
    exact (h.tells_laid hreads).writes id h.language hp hw

/-- A plain scriptlet and an expression, each with a literal behind it that it takes up. -/
def printingDraft : Draft :=
  { tag := "js", document := "doc", registered := "doc", text := "a<% print(\"b\"); %>c<%= 'd' + \"e\" %>f" }

def printingWorld : World := { tree := { origin := "" }, registry := .ofAdapters [Scripting.adapter], contexts := [{}] }

theorem raw_printingDraft : printingDraft.raw 0 =
    [⟨.literal, "js", 1, 1, "a"⟩, ⟨.plain, "js", 1, 2, " print(\"b\"); "⟩, ⟨.literal, "js", 1, 19, "c"⟩,
      ⟨.expression, "js", 1, 20, " 'd' + \"e\" "⟩, ⟨.literal, "js", 1, 36, "f"⟩] := by decide +kernel

theorem prints_b : Prints .ready " print(\"b\"); ".toList [.literal (.text "b")] .ready := by
  have hb : IsSum false "\"b\"".toList (.literal (.text "b")) := .operand (.literal (.quoted (.inl rfl) rfl))
  have hcall : Call "print(\"b\")".toList (.literal (.text "b")) := .print .nil .nil hb .nil
  exact .blank nofun rfl rfl (.call hcall (.semicolon nofun (.blank nofun rfl rfl (.nil _))))

theorem isPrinting_printingDraft :
    IsPrinting printingWorld.registry 0 "js" ⟨0⟩ ⟨0⟩ printingDraft ["a", "b", "c", "de", "f"] where
  language := ⟨by decide +kernel, by decide +kernel, rfl⟩
  bodies := by decide +kernel
  closed _ := by decide +kernel
  publishable := by decide +kernel
  prints := by
    have hblank : Gap " ".toList := .blank rfl .nil
    have hd : IsSum false "'d'".toList (.literal (.text "d")) := .operand (.literal (.quoted (.inr rfl) rfl))
    have he : IsSum true "\"e\"".toList (.literal (.text "e")) := .literal (.quoted (.inl rfl) rfl)
    have hsum := hd.plus hblank hblank he
    have hwritten : ["a", output [.literal (.text "b")], "c", output [.add (.literal (.text "d")) (.literal (.text "e"))], "f"] =
        ["a", "b", "c", "de", "f"] := by decide +kernel
    rw [raw_printingDraft, ← hwritten]
    refine .cons (.literal rfl) (.cons (.plain rfl rfl prints_b) (.cons (.literal rfl) (.cons ?_ (.cons (.literal rfl) .nil))))
    exact .expression rfl rfl hblank hsum hblank rfl

theorem printing_document_written :
    ∃ w₁ e w₂, printingWorld.compile printingDraft = (w₁, .ok e) ∧ (w₂.context ⟨0⟩).out = "abcdef" ∧
      ∀ w' o, (Move.afterInitialized w₁ ⟨0⟩ ⟨e, ⟨0⟩, none, {}⟩ (.ok .nothing)).Ends ⟨0⟩ w' o ↔
        (Move.finish w₂ ⟨e, ⟨0⟩, none, {}⟩ (.ok ())).Ends ⟨0⟩ w' o := by
  have hprinting : IsPrinting printingWorld.registry printingWorld.inFlowCount "js" ⟨0⟩ ⟨0⟩ printingDraft _ := isPrinting_printingDraft
  obtain ⟨-, hcompiled, hready, -⟩ := collapsed_prints_as_written_iff hprinting
  have hends : ScriptletsLeaveOff (· = .ready) (printingDraft.raw 0) := by
    rw [raw_printingDraft]
    intro s hs hplain
    simp only [List.dropLast, List.mem_cons, List.not_mem_nil, or_false] at hs
    rcases hs with rfl | rfl | rfl | rfl
    · cases hplain
    · exact ⟨_, _, prints_b, rfl⟩
    · cases hplain
    · cases hplain
  obtain ⟨w₁, e, hcompile, hruns⟩ := hcompiled _ (hready hends) (by decide +kernel)
  have hcontexts : w₁.contexts = [{}] := by
    have hlooks := looks_compile printingWorld printingDraft
    rw [hcompile] at hlooks
    exact hlooks.contexts_eq
  have hprint : CanPrint printingWorld.registry "executable" ⟨0⟩ ⟨e, ⟨0⟩, none, {}⟩ w₁ := by
    refine ⟨suits_of_compile hcompile rfl Nat.zero_lt_one fun _ _ => rfl, ⟨?_, ?_, ?_, .inl ?_⟩, by decide⟩
    · exact hcontexts ▸ Nat.zero_lt_one
    all_goals
      unfold World.context
      rw [hcontexts]
      rfl
  obtain ⟨w₂, hout, hends⟩ := hruns ⟨0⟩ ⟨e, ⟨0⟩, none, {}⟩ w₁ hprint rfl
  refine ⟨w₁, e, w₂, hcompile, hout.trans ?_, hends⟩
  unfold World.context
  rw [hcontexts]
  change "" ++ String.join ["a", "b", "c", "de", "f"] = "abcdef"
  decide +kernel

end Scripting

end ScriptedText
