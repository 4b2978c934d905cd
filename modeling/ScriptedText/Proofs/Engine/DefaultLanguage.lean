import ScriptedText.Language.Command.Adapter
import ScriptedText.Proofs.Document.NormalForm
import ScriptedText.Proofs.Engine.Compilation
import ScriptedText.Proofs.Engine.SegmentRun
import ScriptedText.Proofs.Language.Registry

/-!
The language that a file is in by its extension. Its scriptlets without a tag run in the adapter that the extension
belongs to, as long as no other adapter has taken over the tag that this one goes by.
-/

namespace ScriptedText

section reading

variable {d : Delimiters} {extract : Bool} {active : String} {place : Place} {body : List Char} {front rest : List Piece}

/-- The language that is active behind pieces. -/
def languageBehind (active : String) : List Piece → String
  | [] => active
  | .literal _ _ :: rest => languageBehind active rest
  | .scriptlet _ body :: rest => languageBehind ((Scriptlet.ofBody body).activeAfter active) rest

theorem readPieces_append (d : Delimiters) (extract : Bool) (active : String) (front rest : List Piece) :
    readPieces d extract active (front ++ rest) =
      readPieces d extract active front ++ readPieces d extract (languageBehind active front) rest := by
  induction front generalizing active with
  | nil => rfl
  | cons piece front ih =>
      cases piece with
      | literal place text => simp [readPieces, languageBehind, ih]
      | scriptlet place body => simp [readPieces, languageBehind, ih]

/-- A scriptlet without a tag, as a segment in the language that is active where it stands. -/
def Scriptlet.rawSegment (s : Scriptlet) (active : String) (p : Place) : RawSegment :=
  ⟨s.marker.kind, active, p.line, p.column, String.ofList s.code⟩

theorem Scriptlet.parts_of_untagged {s : Scriptlet} (htag : s.tag = none) (hblank : s.isBlank = false) (d : Delimiters)
    (extract : Bool) (active : String) (p : Place) : s.parts d extract active p = [.segment (s.rawSegment active p)] := by
  unfold Scriptlet.parts
  rw [if_neg (by simp [hblank])]
  split
  · next hmarker => simp [htag, rawSegment, Part.segmentAt, hmarker, Marker.kind]
  · next hmarker => simp [rawSegment, Part.segmentAt, activeAfter, tagName, hmarker, htag]

theorem mem_readPieces_of_untagged (htag : (Scriptlet.ofBody body).tag = none)
    (hblank : (Scriptlet.ofBody body).isBlank = false) :
    .segment ((Scriptlet.ofBody body).rawSegment (languageBehind active front) place) ∈
      readPieces d extract active (front ++ .scriptlet place body :: rest) := by
  rw [readPieces_append]
  apply List.mem_append_right
  simp only [readPieces, Scriptlet.parts_of_untagged htag hblank]
  exact List.mem_append_left _ (List.mem_singleton_self _)

theorem mem_placeParts {s : RawSegment} {parts : List Part} (h : .segment s ∈ parts) (name : Nat → Request → String)
    (k : Nat) : s ∈ placeParts name k parts := by
  induction parts generalizing k with
  | nil => cases h
  | cons p parts ih =>
      cases p with
      | segment t =>
          rcases List.mem_cons.1 h with ht | h
          · cases ht
            exact List.mem_cons_self ..
          · exact List.mem_cons_of_mem _ (ih h k)
      | request r =>
          rcases List.mem_cons.1 h with hr | h
          · cases hr
          · exact List.mem_cons_of_mem _ (ih h (k + 1))

theorem mem_of_segmentDocument {styles : List Delimiters} {document tag : String} {source : List Char}
    {inFlow : Option (Nat → Request → String)} {raw : List RawSegment} {style : Option Delimiters} {s : RawSegment}
    (h : segmentDocument styles document tag inFlow source = .ok (raw, style)) (hdetect : Delimiters.detect styles source = some d)
    (hs : .segment s ∈ readPieces d inFlow.isSome tag (scan d source).1) : s ∈ raw := by
  unfold segmentDocument at h
  dsimp only at h
  split at h
  · cases h
  · cases h
    apply mem_placeParts
    rw [Reading.ofDocument, hdetect]
    exact hs

end reading

/-- A program is part of a program in the same language. -/
structure Segment.PartOf (s t : Segment) : Prop where
  isProgram : t.isProgram = true
  tag : t.tag = s.tag
  text : s.text.toList <:+: t.text.toList

section gluing

variable {absorb : Segment → Segment → Option Segment} {a b c s : Segment} {l : List Segment}

theorem Segment.PartOf.trans (hab : a.PartOf b) (hbc : b.PartOf c) : a.PartOf c :=
  ⟨hbc.isProgram, hbc.tag.trans hab.tag, hab.text.trans hbc.text⟩

theorem Segment.partOf_append (h : a.isProgram = true) (text : String) : a.PartOf (a.append text) :=
  ⟨h, rfl, by simpa [append] using (List.prefix_append a.text.toList text.toList).isInfix⟩

/-- A program that is taken up by a segment of its tag, with its text, is part of what comes of that. -/
def KeepsPrograms (absorb : Segment → Segment → Option Segment) : Prop :=
  ∀ a b c, absorb a b = some c → b.isProgram = true → c = a.append b.text ∧ a.isProgram = true ∧ a.tag = b.tag

theorem keepsPrograms_joinAlike : KeepsPrograms Segment.joinAlike := by
  intro a b c h hb
  simp only [Segment.joinAlike] at h
  split at h
  · next halike => exact ⟨(Option.some.inj h).symm, halike.1.trans hb, halike.2⟩
  · cases h

theorem keepsPrograms_takeUp (forms : FormTable) : KeepsPrograms (Segment.takeUp forms) := by
  intro a b c h hb
  simp only [Segment.takeUp, hb, if_true] at h
  split at h
  · next halike => exact ⟨(Option.some.inj h).symm, halike⟩
  · cases h

theorem exists_partOf_glueFrom (happends : Appends absorb) (hkeeps : KeepsPrograms absorb) (current : Segment)
    (rest : List Segment) (hs : s.isProgram = true) (hmem : s ∈ current :: rest) :
    ∃ t ∈ glueFrom absorb current rest, s.PartOf t := by
  induction rest generalizing current s with
  | nil =>
      cases List.mem_singleton.1 hmem
      exact ⟨s, List.mem_singleton_self s, hs, rfl, List.infix_rfl⟩
  | cons x rest ih =>
      cases hx : absorb current x with
      | none =>
          simp only [glueFrom, hx]
          rcases List.mem_cons.1 hmem with rfl | hmem
          · exact ⟨s, List.mem_cons_self .., hs, rfl, List.infix_rfl⟩
          · obtain ⟨t, ht, hpart⟩ := ih x hs hmem
            exact ⟨t, List.mem_cons_of_mem _ ht, hpart⟩
      | some c =>
          simp only [glueFrom, hx]
          -- what is at hand and what it takes up are both part of what comes of that
          rcases List.mem_cons.1 hmem with rfl | hmem
          · obtain ⟨text, rfl⟩ := happends s x c hx
            obtain ⟨t, ht, hpart⟩ := @ih (s.append text) (s.append text) hs (List.mem_cons_self ..)
            exact ⟨t, ht, (Segment.partOf_append hs text).trans hpart⟩
          · rcases List.mem_cons.1 hmem with rfl | hmem
            · obtain ⟨rfl, hcurrent, htag⟩ := hkeeps current s c hx hs
              obtain ⟨t, ht, hpart⟩ := @ih (current.append s.text) (current.append s.text) hcurrent (List.mem_cons_self ..)
              have hsuffix : s.text.toList <:+: (current.append s.text).text.toList := by
                simpa [Segment.append] using (List.suffix_append current.text.toList s.text.toList).isInfix
              exact ⟨t, ht, Segment.PartOf.trans (b := current.append s.text) ⟨hcurrent, htag, hsuffix⟩ hpart⟩
            · exact ih c hs (List.mem_cons_of_mem _ hmem)

theorem exists_partOf_glue (happends : Appends absorb) (hkeeps : KeepsPrograms absorb) (hs : s.isProgram = true)
    (hmem : s ∈ l) : ∃ t ∈ glue absorb l, s.PartOf t := by
  cases l with
  | nil => cases hmem
  | cons current rest => exact exists_partOf_glueFrom happends hkeeps current rest hs hmem

/-- A program of a document is part of a program of the executable, in the same language. -/
theorem exists_partOf_collapsed (forms : FormTable) (tag : String) {raw : List RawSegment} {s : RawSegment}
    (hs : (s.lower forms).isProgram = true) (hmem : s ∈ raw) :
    ∃ t ∈ collapsed forms tag raw, (s.lower forms).PartOf t := by
  obtain ⟨m, hm, hpart⟩ := exists_partOf_glue appends_joinAlike keepsPrograms_joinAlike hs
    (List.mem_map_of_mem (f := RawSegment.lower forms) hmem)
  obtain ⟨t, ht, hpart'⟩ := exists_partOf_glue (appends_takeUp forms) (keepsPrograms_takeUp forms) hpart.isProgram hm
  refine ⟨t, ?_, hpart.trans hpart'⟩
  change t ∈ collapse forms (raw.map (RawSegment.lower forms)) at ht
  unfold collapsed
  split
  · next hnil =>
      rw [hnil] at ht
      cases ht
  · exact ht

end gluing

/-- Wherever the registry is in use, the segment runs as a program of the adapter, under its lock where that has to be. -/
def PlacedSegment.RunsIn (registry : Registry) (p : PlacedSegment) (a : AdapterId) (adapter : Adapter) : Prop :=
  p.program = some p.text ∧ ∃ r, registry.registrationOf? a = some r ∧ ∀ w id run, w.registry = registry →
    Move.runSegment w id run p =
      if adapter.threadSafe then Move.startProgram (w.recorded run a) run p a
      else Move.lockAndGo (w.recorded run a) id r (.program run p a)

variable {reg : Registry} {ids : List AdapterId} {a : AdapterId} {adapter : Adapter} {extension : String}

theorem PlacedSegment.runsIn_of_ready {p : PlacedSegment} (htagged : reg.Tagged) (hready : p.IsReady)
    (hprogram : p.isProgram = true) (hforTag : reg.forTag? p.tag = some a) (ha : reg.adapter? a = some adapter) :
    p.RunsIn reg a adapter := by
  obtain ⟨r, hr, howner⟩ := Option.bind_eq_some_iff.1 hforTag
  refine ⟨hready hprogram, r, htagged.coherent p.tag r a hr howner, fun w id run hw => ?_⟩
  subst hw
  exact Move.runSegment_eq hprogram hr hforTag ha

/-- The segments of a draft that has been compiled, where its scriptlet bodies have been named. -/
theorem mem_rawSegments {o : Draft} {names : List String} {raw : List RawSegment} {s : RawSegment} {d : Delimiters}
    (h : o.rawSegments names = .ok raw) (htext : o.isText = true) (hdetect : Delimiters.detect o.styles o.text.toList = some d)
    (hs : ∀ extract, .segment s ∈ readPieces d extract o.tag (scan d o.text.toList).1) : s ∈ raw := by
  unfold Draft.rawSegments at h
  rw [if_pos htext] at h
  cases hsegments : segmentDocument o.styles o.document o.tag
      (o.source.map fun _ k _ => names.getD k "") o.text.toList with
  | error f =>
      rw [hsegments] at h
      cases h
  | ok result =>
      rw [hsegments] at h
      cases h
      exact mem_of_segmentDocument hsegments hdetect (hs _)

/-- An extension leads to an adapter. The tag that this one goes by leads back to it, if and only if no other adapter that
lists the tag was registered after it; and then the scriptlets of a document with that extension which have no tag, and
stand where the language is still that of the document, run in that adapter. -/
theorem extension_leads_back_iff (h : reg.Registered ids) (hforExtension : reg.forExtension? extension = some a)
    (ha : reg.adapter? a = some adapter) (hdefault : adapter.info.defaultTag ∈ adapter.info.tags) :
    ((reg.tagOfExtension? extension).bind reg.forTag? = some a ↔
      ∃ before after, ids = before ++ a :: after ∧ ∀ b ∈ after, reg.lists adapter.info.defaultTag b = false) ∧
    ((reg.tagOfExtension? extension).bind reg.forTag? = some a →
      ∀ (w w' : World) s name d compilation e, w.registry = reg → (w.document d).tag = extension →
        w.compile (Move.draftOf w s name d true compilation) = (w', .ok e) →
        ∀ style front place body back, Delimiters.detect compilation.styles (w.document d).text.toList = some style →
          (scan style (w.document d).text.toList).1 = front ++ .scriptlet place body :: back →
          (Scriptlet.ofBody body).tag = none → (Scriptlet.ofBody body).isBlank = false →
          languageBehind adapter.info.defaultTag front = adapter.info.defaultTag →
          ∃ p ∈ (w'.executable e).segments,
            (((Scriptlet.ofBody body).rawSegment adapter.info.defaultTag place).lower
              (reg.forms compilation.exposed)).PartOf p.toSegment ∧ p.RunsIn reg a adapter) := by
  have htag : reg.tagOfExtension? extension = some adapter.info.defaultTag := by
    simp [Registry.tagOfExtension?, hforExtension, ha]
  have hlists : reg.lists adapter.info.defaultTag a = true := by simp [Registry.lists, ha, hdefault]
  rw [htag, Option.bind_some]
  refine ⟨h.forTag?_eq_some_iff hlists, ?_⟩
  intro hforTag w w' s name d compilation e hw hextension hcompile style front place body back hstyle hscan huntagged hblank
    hactive
  subst hw
  obtain ⟨-, raw, hcompiled⟩ := isCompiled_of_compile hcompile
  have hdraft : (Move.draftOf w s name d true compilation).tag = adapter.info.defaultTag := by
    simp [Move.draftOf, hextension, htag]
  have hpart : ∀ extract, .segment ((Scriptlet.ofBody body).rawSegment adapter.info.defaultTag place) ∈
      readPieces style extract (Move.draftOf w s name d true compilation).tag
        (scan style (w.document d).text.toList).1 := by
    intro extract
    have hmem : .segment ((Scriptlet.ofBody body).rawSegment (languageBehind adapter.info.defaultTag front) place) ∈
        readPieces style extract adapter.info.defaultTag (front ++ .scriptlet place body :: back) :=
      mem_readPieces_of_untagged huntagged hblank
    rw [hactive] at hmem
    rwa [hdraft, hscan]
  have hmem := mem_rawSegments hcompiled.written rfl hstyle hpart
  have hprogram : (((Scriptlet.ofBody body).rawSegment adapter.info.defaultTag place).lower
      (w.registry.forms compilation.exposed)).isProgram = true := by
    cases hmarker : (Scriptlet.ofBody body).marker <;> simp [RawSegment.lower, Scriptlet.rawSegment, hmarker, Marker.kind]
  obtain ⟨t, ht, hpartOf⟩ := exists_partOf_collapsed (w.registry.forms compilation.exposed)
    (Move.draftOf w s name d true compilation).tag hprogram hmem
  obtain ⟨p, hp, rfl⟩ := List.mem_map.1 (hcompiled.segments ▸ ht)
  refine ⟨p, hp, hpartOf, PlacedSegment.runsIn_of_ready h.tagged (hcompiled.ready p hp) hpartOf.isProgram ?_ ha⟩
  rw [hpartOf.tag]
  exact hforTag

namespace DefaultLanguage

/-- A language that goes by `a`, and a document in it. -/
def first : Adapter := Command.adapter { tags := ["a", "b"], extensions := ["x", "y"] }

/-- The second language takes over a tag that the first one does not go by, and one of its extensions. -/
def world : World where
  tree := { origin := "" }
  registry := .ofAdapters [first, Command.adapter { tags := ["b"], extensions := [".Y"] }]
  sources := [{ storage := .memory "" }]
  documents := [{ name := "doc", text := "t<% nop; %>", tag := ".X", timestamp := 0, source := ⟨0⟩, lastCheck := 0 }]

theorem registered_world : world.registry.Registered [⟨0⟩, ⟨1⟩] :=
  ((((Registry.Registered.none.add _).register ⟨0⟩ rfl).add _).register ⟨1⟩ rfl)

theorem extension_leads_back_iff_of_two :
    (world.registry.tagOfExtension? ".X").bind world.registry.forTag? = some ⟨0⟩ ∧
      ∃ w' e, world.compile (Move.draftOf world ⟨0⟩ "doc" ⟨0⟩ true { tag := "b" }) = (w', .ok e) ∧
        ∃ p ∈ (w'.executable e).segments, p.RunsIn world.registry ⟨0⟩ first := by
  have hfound : world.registry.forExtension? ".X" = some ⟨0⟩ := by decide +kernel
  have hdefault : first.info.defaultTag ∈ first.info.tags := by decide
  obtain ⟨hiff, hruns⟩ := extension_leads_back_iff registered_world hfound rfl hdefault
  have hback := hiff.2 ⟨[], [⟨1⟩], rfl, by decide⟩
  have hbuilt : (world.compile (Move.draftOf world ⟨0⟩ "doc" ⟨0⟩ true { tag := "b" })).2.toOption = some ⟨0⟩ := by
    decide +kernel
  have hok : (world.compile (Move.draftOf world ⟨0⟩ "doc" ⟨0⟩ true { tag := "b" })).2 = .ok ⟨0⟩ := by
    cases hr : (world.compile (Move.draftOf world ⟨0⟩ "doc" ⟨0⟩ true { tag := "b" })).2 <;> rw [hr] at hbuilt <;> cases hbuilt
    rfl
  refine ⟨hback, _, ⟨0⟩, Prod.ext rfl hok, ?_⟩
  obtain ⟨p, hp, -, hp'⟩ := hruns hback world _ ⟨0⟩ "doc" ⟨0⟩ { tag := "b" } ⟨0⟩ rfl rfl (Prod.ext rfl hok) .percent
    [.literal {} "t".toList] ⟨1, 2, 1⟩ " nop; ".toList [] (by decide +kernel) (by decide +kernel) (by decide) (by decide) rfl
  exact ⟨p, hp, hp'⟩

/-- Two languages go by the same tag, and have extensions of their own. -/
def sharedDefault : Registry :=
  .ofAdapters [Command.adapter { tags := ["x"], extensions := ["e"] }, Command.adapter { tags := ["x"], extensions := ["f"] }]

theorem extension_leads_astray :
    sharedDefault.Registered [⟨0⟩, ⟨1⟩] ∧ (∀ adapter ∈ sharedDefault.adapters, adapter.info.defaultTag ∈ adapter.info.tags) ∧
      sharedDefault.forExtension? "e" = some ⟨0⟩ ∧
      (sharedDefault.tagOfExtension? "e").bind sharedDefault.forTag? = some ⟨1⟩ :=
  ⟨(((Registry.Registered.none.add _).register ⟨0⟩ rfl).add _).register ⟨1⟩ rfl, by decide +kernel, by decide +kernel,
    by decide +kernel⟩

end DefaultLanguage

end ScriptedText
