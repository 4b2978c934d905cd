import ScriptedText.Proofs.Engine.Budding

/-!
The documents of scriptlet bodies live as long as the document that they belong to, as long as programs that run them have
them recorded on that document and on no other.
-/

namespace ScriptedText

open Relation

namespace World

/-- The document on which it is recorded what a program on the context includes. -/
def recorder? (w : World) (host : Host) (c : ContextId) : Option DocumentId :=
  match Service.handle? ((w.context c).services.get? host.compilation.exposed) with
  | none => none
  | some h =>
    let x := w.executable h.executable
    if x.partition = w.identifier host.main then w.cached? host.main x.registered else none

end World

/-- What a step does is in order: a compilation succeeds, and the document of a scriptlet body is included by a program of
the document that it belongs to, as far as that is recorded. -/
def Task.isOrderly (w : World) (t : Task) : Bool :=
  match t.stack, t.control with
  | .creating s name isText compilation :: _, .settled (.ok (.document d)) =>
    (w.document d).executable.isSome || (w.compile (Move.draftOf w s name d isText compilation)).2.toOption.isSome
  | .fetched name true c :: _, .settled (.ok (.executable _)) =>
    !Document.isInFlow name ||
      w.host.all fun host => (w.recorder? host c).all fun d => (w.bodies d).contains name
  | _, _ => true

namespace World

/-- Documents are registered without an executable, and under other names than scriptlet bodies get; documents become
invalid; and files change, but none comes to stand for such a name. -/
def Respects (w : World) : Errand → Prop
  | .invalidate _ => True
  | .set _ name _ _ none | .setIfAbsent _ name _ _ none => Document.isInFlow name = false
  | .files tree => (w.serve (.files tree)).Clear
  | _ => False

variable {w w' : World} {s : SourceId} {name : String} {d : DocumentId} {id : TaskId}

theorem recordDependency_eq (w : World) (host : Host) (name : String) (c : ContextId) :
    w.recordDependency host name c =
      match w.recorder? host c with
      | some d => w.modifyDocument d (·.addDependency name)
      | none => w := by
  unfold recordDependency recorder?
  cases Service.handle? ((w.context c).services.get? host.compilation.exposed) with
  | none => rfl
  | some h =>
      dsimp only
      split
      · cases w.cached? host.main (w.executable h.executable).registered <;> rfl
      · rfl

theorem Kempt.clear_afterCreating (h : w.Kempt) (hclear : w.Clear) (s : SourceId) (name : String) (d : DocumentId)
    (isText : Bool) (compilation : Compilation) : (Move.afterCreating w s name d isText compilation).world.Clear := by
  refine hclear.of_ages (Move.ages_afterCreating w s name d isText compilation).world ?_
  unfold Move.afterCreating
  split
  · rfl
  · have hsprouts {w' : World} {r : Except Failure ExecutableId}
        (hcompile : w.compile (Move.draftOf w s name d isText compilation) = (w', r)) : w'.tree = w.tree :=
      (sprouts_compile (s := s) rfl (h.untaken s) hcompile).1.tree
    split
    · next hcompile => exact hsprouts hcompile
    · next hcompile => exact (tree_attachExecutable _ d _).trans (hsprouts hcompile)

theorem Kempt.stride (h : w.Kempt) (hclear : w.Clear) (hstride : Stride id (fun w t => t.isOrderly w = true) w w') :
    w'.Kempt ∧ w'.Clear := by
  cases hstride with
  | aside hstock =>
      refine ⟨h.steady (.of_stock hstock), hclear.of_eq (congrArg Stock.tree hstock) fun s => ?_⟩
      have hsources : w'.sources = w.sources := congrArg Stock.sources hstock
      simp [source, hsources]
  | check hends =>
      have hchecks := checks_of_ends hends
      refine ⟨h.steady (.of_checks hchecks), hclear.of_eq ?_ fun s => congrArg Source.storage (hchecks.rechecks.source_eq s)⟩
      rw [hchecks.rechecks.world]
  | lookup hends =>
      have hchores := (lookup_of_ends hends).chores
      exact ⟨h.chores hclear hchores, hclear.chores hchores⟩
  | @create w₁ s name isText compilation d rest hends hstep =>
      have hlookup := lookup_of_ends hends
      have hkempt := h.chores hclear hlookup.chores
      refine ⟨hkempt.afterCreating (h.cached?_lookup hclear hlookup) isText compilation fun hnone => ?_,
        hkempt.clear_afterCreating (hclear.chores hlookup.chores) s name d isText compilation⟩
      have hstep : ((w₁.document d).executable.isSome ||
          (w₁.compile (Move.draftOf w₁ s name d isText compilation)).2.toOption.isSome) = true := hstep
      rw [hnone, Option.isSome_none, Bool.false_or] at hstep
      obtain ⟨e, he⟩ := Option.isSome_iff_exists.1 hstep
      refine ⟨_, e, Prod.ext rfl ?_⟩
      cases hr : (w₁.compile (Move.draftOf w₁ s name d isText compilation)).2 with
      | error f =>
          rw [hr] at he
          cases he
      | ok e' =>
          rw [hr] at he
          cases he
          rfl
  | @record host name c e rest hhost hstep =>
      have hstep : (!Document.isInFlow name ||
          w.host.all fun host => (w.recorder? host c).all fun d => (w.bodies d).contains name) = true := hstep
      refine ⟨?_, hclear.of_ages (ages_recordDependency w name host c) ?_⟩
      · rw [recordDependency_eq]
        cases hd : w.recorder? host c with
        | none => exact h
        | some d =>
            refine h.addDependency fun hbody => ?_
            simpa [hhost, hd, hbody] using hstep
      · rw [recordDependency_eq]
        cases w.recorder? host c <;> rfl

theorem Kempt.serve {errand : Errand} (h : w.Kempt) (hclear : w.Clear) (hallows : w.Respects errand) :
    (w.serve errand).Kempt ∧ (w.serve errand).Clear := by
  cases errand with
  | invalidate d => exact ⟨h.steady (.invalidate w d), hclear⟩
  | depend d name => exact hallows.elim
  | attach d e => exact hallows.elim
  | set s name text tag e =>
      cases e with
      | none =>
          exact ⟨h.setDocument hallows s text tag,
            hclear.of_ages (ages_setDocument w s name text tag none) (tree_setDocument w s name text tag none)⟩
      | some e => exact hallows.elim
  | setIfAbsent s name text tag e =>
      cases e with
      | none =>
          exact ⟨h.setDocumentIfAbsent hallows s text tag,
            hclear.of_ages (ages_setDocumentIfAbsent w s name text tag none) rfl⟩
      | some e => exact hallows.elim
  | compile o => exact hallows.elim
  | files tree => exact ⟨h.steady (.of_eq rfl rfl rfl (Nat.le_refl _)), hallows⟩

/-- There are no documents yet. -/
structure Fresh (w : World) : Prop where
  documents : w.documents = []
  empty : ∀ s, w.Empty s
  clear : w.Clear

theorem Fresh.kempt (h : w.Fresh) : w.Kempt := by
  have hnone (d : DocumentId) : w.document d = default := document_of_le (by simp [h.documents])
  have hnil (d : DocumentId) : w.bodies d = [] := by
    apply bodies_of_none
    rw [hnone]
    rfl
  have hfree (s : SourceId) (name : String) (d : DocumentId) : w.cached? s name ≠ some d := by
    rw [(h.empty s).1 name]
    exact nofun
  refine ⟨⟨fun d e he => ?_, fun d name hmem => ?_, fun d d' name hmem => ?_, fun d name => ?_, fun d k hk => ?_,
    fun d j k _ hmem => ?_⟩, ⟨fun s name d hd => absurd hd (hfree s name d), fun s file d hd => ?_⟩,
    fun s d _ _ name hmem => ?_, fun s name d _ hd => absurd hd (hfree s name d)⟩
  · rw [hnone] at he
    cases he
  · rw [hnil] at hmem
    cases hmem
  · rw [hnil] at hmem
    cases hmem
  · rw [hnil, hnone]
    rfl
  · rw [hnone] at hk
    have hk : "" = Document.inFlowName k := hk
    have hname : Document.isInFlow "" = true := hk ▸ Document.isInFlow_inFlowName k
    cases hname
  · rw [hnil] at hmem
    cases hmem
  · cases ((h.empty s).2 file).symm.trans hd
  · rw [hnil] at hmem
    cases hmem

end World

namespace Course

open World

theorem keeps_kempt : Keeps World.Respects (fun w t => t.isOrderly w = true) fun w => w.Kempt ∧ w.Clear where
  stride hstride h := h.1.stride h.2 hstride
  serve hallows h := h.1.serve h.2 hallows
  clock h := ⟨h.1.steady (.of_eq rfl rfl rfl (Nat.le_refl _)), h.2⟩

/-- Documents of scriptlet bodies live as long as the one that they belong to. -/
theorem bodies_live_with_owner {w₀ w : World} (hfresh : w₀.Fresh)
    (hcourse : ReflTransGen (Turn World.Respects fun w t => t.isOrderly w = true) ⟨w₀, none⟩ ⟨w, none⟩) (s : SourceId) :
    (∀ d e, w.Stores s d → (w.document d).validity ≠ .invalid → (w.document d).executable = some e →
      ∀ name ∈ (w.executable e).dependencies, Document.isInFlow name = true → (w.cached? s name).isSome = true) ∧
    ∀ name x, Document.isInFlow name = true → w.cached? s name = some x → (w.document x).file = none →
      ∃! d, w.Stores s d ∧ ∃ e, (w.document d).executable = some e ∧ name ∈ (w.executable e).dependencies := by
  obtain ⟨hkempt, -⟩ := keeps_kempt.holds hcourse ⟨hfresh.kempt, hfresh.clear⟩
  refine ⟨fun d e hd hvalid he name hmem _ => ?_, fun name x hbody hx hfile => ?_⟩
  · rw [← bodies_of_some he] at hmem
    exact (hkempt.complete s d hd hvalid name hmem).resolve_right id
  · obtain ⟨d, hd, hmem⟩ := (hkempt.owned s name x hbody hx hfile).resolve_left id
    refine ⟨d, ⟨hd, ?_⟩, ?_⟩
    · cases he : (w.document d).executable with
      | none =>
          rw [bodies_of_none he] at hmem
          cases hmem
      | some e =>
          rw [bodies_of_some he] at hmem
          exact ⟨e, rfl, hmem⟩
    · rintro d' ⟨-, e, he, hmem'⟩
      rw [← bodies_of_some he] at hmem'
      exact hkempt.apart d' d name hmem' hmem

/-- Goes on for a number of turns, as long as what happens is in order. -/
def proceedInOrder : Nat → Course → Option Course
  | 0, a => some a
  | n + 1, a => if a.task?.all fun (_, t) => t.isOrderly a.world then proceedInOrder n a.next else none

theorem turns_of_proceedInOrder (allows : World → Errand → Prop) {n : Nat} {a b : Course} (h : proceedInOrder n a = some b) :
    ReflTransGen (Turn allows fun w t => t.isOrderly w = true) a b := by
  induction n generalizing a with
  | zero =>
      cases h
      exact .refl
  | succ n ih =>
      unfold proceedInOrder at h
      split at h
      · next hall =>
          have hnext : ReflTransGen (Turn allows fun w t => t.isOrderly w = true) a a.next :=
            turns_next allows fun id t ht => by simpa [ht] using hall
          exact hnext.trans (ih h)
      · cases h

end Course

/-- A language in which a program in quotes includes the document that it names, and any other one writes itself. -/
def quotingAdapter (tag : String) : Adapter where
  info := ⟨tag, "", tag, [tag], [], tag, ""⟩
  threadSafe := true
  forms _ := ⟨id, id, id⟩
  prepare _ := .ok ()
  run source exposed :=
    match source.toList with
    | '\'' :: rest => do
      match Service.handle? (← Dialogue.service? exposed) with
      | some h => .call h .include (String.ofList rest.dropLast)
      | none => .done ()
    | _ => .write source

/-- A world of two such languages, with a source that has no documents yet. -/
def quotingWorld : World :=
  { tree := { origin := "" }, registry := .ofAdapters [quotingAdapter "a", quotingAdapter "b"], contexts := [{}]
    sources := [{ storage := .memory "" }], host := some ⟨⟨0⟩, [], { tag := "a" }⟩ }

namespace Course

open World

/-- A document is registered with a body in the second language, and included. -/
def embed (w : World) (text : String) : Option World :=
  (proceedInOrder 60 ⟨w.serve (.set ⟨0⟩ "n" text "" none), some (⟨0⟩, ⟨[], .call (.include "n" ⟨0⟩)⟩)⟩).bind fun a =>
    if a.task?.isNone then some a.world else none

theorem turns_of_embed {w w' : World} {text : String} (h : embed w text = some w') :
    ReflTransGen (Turn World.Respects fun w t => t.isOrderly w = true) ⟨w, none⟩ ⟨w', none⟩ := by
  obtain ⟨⟨world, task?⟩, hproceed, h⟩ := Option.bind_eq_some_iff.1 h
  have hset : w.Respects (.set ⟨0⟩ "n" text "" none) := by
    change Document.isInFlow "n" = false
    decide +kernel
  cases task? with
  | some task => cases h
  | none =>
      cases h
      exact .head (.serve hset) (.head (.call _ ⟨0⟩ _) (turns_of_proceedInOrder _ hproceed))

theorem fresh_quotingWorld : quotingWorld.Fresh := by
  have hsource (s : SourceId) : quotingWorld.source s = { storage := .memory "" } := by
    obtain ⟨_ | i⟩ := s
    · rfl
    · rfl
  refine ⟨rfl, fun s => ⟨fun name => ?_, fun file => ?_⟩, fun s k file hfiled => ?_⟩
  · unfold cached?
    rw [hsource]
    rfl
  · rw [hsource]
    rfl
  · exact hfiled.not_memory (congrArg Source.storage (hsource s))

/-- The body of a document that is included belongs to it. -/
theorem bodies_live_with_owner_of_included :
    quotingWorld.Fresh ∧
      ∃ w, ReflTransGen (Turn World.Respects fun w t => t.isOrderly w = true) ⟨quotingWorld, none⟩ ⟨w, none⟩ ∧
        (w.context ⟨0⟩).out = "x" ∧ (w.cached? ⟨0⟩ (Document.inFlowName 0)).isSome = true ∧
        ∃! d, w.Stores ⟨0⟩ d ∧ ∃ e, (w.document d).executable = some e ∧
          Document.inFlowName 0 ∈ (w.executable e).dependencies := by
  have hembed : (embed quotingWorld "<%: b x %>").any (fun w => (w.context ⟨0⟩).out = "x" &&
      (w.cached? ⟨0⟩ (Document.inFlowName 0)).any fun x => (w.document x).file = none) = true := by
    decide +kernel
  obtain ⟨w, hends, hran⟩ := (Option.any_eq_true _ _).1 hembed
  have hcourse := turns_of_embed hends
  simp only [Bool.and_eq_true, decide_eq_true_eq] at hran
  obtain ⟨hout, hkept⟩ := hran
  obtain ⟨x, hx, hfile⟩ := (Option.any_eq_true _ _).1 hkept
  obtain ⟨-, howned⟩ := bodies_live_with_owner fresh_quotingWorld hcourse ⟨0⟩
  exact ⟨fresh_quotingWorld, w, hcourse, hout, hx ▸ rfl,
    howned _ x (Document.isInFlow_inFlowName 0) hx (of_decide_eq_true hfile)⟩

end Course

end ScriptedText
