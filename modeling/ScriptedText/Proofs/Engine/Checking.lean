import ScriptedText.Proofs.Engine.Staleness

/-!
What a check that runs alone has done to every document when it is over: documents that were invalid still are, and where
the file of a document was looked at, it was found unchanged, or the document is invalid now.
-/

namespace ScriptedText

namespace World

/-- The file of the document has not been looked at, or it is unchanged, or the document is invalid. -/
def Looked (w w' : World) (d : DocumentId) : Prop :=
  (w'.document d).lastCheck = (w.document d).lastCheck ∨
    (w'.document d).lastCheck = w.clock ∧ (w.isUnchanged d = true ∨ (w'.document d).validity = .invalid)

/-- The file of the document is looked at, from time to time. -/
def Watched (w : World) (d : DocumentId) : Prop :=
  (w.document d).file.isSome = true ∧ (w.source (w.document d).source).interval ≠ -1

/-- What holds of a document while a check is under way: its file may have been looked at, and what was found be written
at the frame that waits for that. -/
def Looking (w w' : World) (stack : List Frame) (d : DocumentId) : Prop :=
  (w'.document d).lastCheck = (w.document d).lastCheck ∨
    (w'.document d).lastCheck = w.clock ∧ w.Watched d ∧
      (w.isUnchanged d = true ∨ (w'.document d).validity = .invalid ∨ ∃ visited, Frame.fileTime d visited ∈ stack)

structure Checks (w w' : World) : Prop where
  rechecks : Rechecks (fun _ => True) w w'
  invalid : ∀ d, (w.document d).validity = .invalid → (w'.document d).validity = .invalid
  looked : ∀ d, w.Looked w' d

/-- What one step of a check does to the world and to the frames that wait for a look at a file. -/
inductive Glances (w : World) (stack : List Frame) : World → List Frame → Prop
  | goes {stack' : List Frame} (h : ∀ d visited, Frame.fileTime d visited ∈ stack → Frame.fileTime d visited ∈ stack') :
      Glances w stack w stack'
  | passes {stack' : List Frame} (d : DocumentId) (hd : ¬ w.Watched d)
      (h : ∀ d visited, Frame.fileTime d visited ∈ stack → Frame.fileTime d visited ∈ stack') :
      Glances w stack (w.validate d) stack'
  | asks {stack' : List Frame} (d : DocumentId) (visited : List DocumentId) (hd : w.Watched d)
      (h : ∀ d visited, Frame.fileTime d visited ∈ stack → Frame.fileTime d visited ∈ stack') :
      Glances w stack (w.modifyDocument d fun x => { x with lastCheck := w.clock }) (.fileTime d visited :: stack')
  | fails {stack' : List Frame} (d : DocumentId)
      (h : ∀ d visited, Frame.fileTime d visited ∈ stack → Frame.fileTime d visited ∈ stack') :
      Glances w stack (w.modifyDocument d Document.invalidate) stack'
  | finds {stack' : List Frame} (d : DocumentId) (visited : List DocumentId) (h : stack = .fileTime d visited :: stack') :
      Glances w stack
        (w.modifyDocument d fun x => { x with validity := if w.isUnchanged d then .valid else .invalid }) stack'

variable {w w₀ w' : World} {stack stack' : List Frame} {d : DocumentId}

/-- What a change to documents leaves alone is the same in every document. -/
theorem field_modifyDocument {α : Type} {f : Document → Document} (field : Document → α)
    (hf : ∀ x, field (f x) = field x) (x d : DocumentId) :
    field ((w.modifyDocument x f).document d) = field (w.document d) := by
  rcases document_modifyDocument_cases w f x d with heq | ⟨-, heq⟩
  · rw [heq]
  · rw [heq, hf]

namespace Glances

theorem rechecks (h : w.Glances stack w' stack') : Rechecks (fun _ => True) w w' := by
  cases h with
  | goes _ => exact .refl _ w
  | passes d _ _ => exact (Rechecks.modifyDocument w d fun x => rfl).mono fun _ _ => trivial
  | asks d _ _ _ => exact (Rechecks.modifyDocument w d fun x => rfl).mono fun _ _ => trivial
  | fails d _ => exact (Rechecks.modifyDocument w d fun x => rfl).mono fun _ _ => trivial
  | finds d _ _ => exact (Rechecks.modifyDocument w d fun x => rfl).mono fun _ _ => trivial

theorem looking (h : w.Glances stack w' stack') (hsame : Rechecks (fun _ => True) w₀ w) (hd : w₀.Looking w stack d) :
    w₀.Looking w' stack' d := by
  have hwatched (x : DocumentId) : w.Watched x ↔ w₀.Watched x := by
    simp only [Watched, hsame.file_eq, hsame.home_eq, hsame.source_eq]
  -- whatever else is written, the document keeps what was found
  have hother {w' : World} {stack' : List Frame} (hdoc : w'.document d = w.document d)
      (hframes : ∀ visited, Frame.fileTime d visited ∈ stack → Frame.fileTime d visited ∈ stack') :
      w₀.Looking w' stack' d := by
    unfold Looking at hd ⊢
    rw [hdoc]
    exact hd.imp_right fun ⟨htime, hwatch, hfound⟩ =>
      ⟨htime, hwatch, hfound.imp_right fun h => h.imp_right fun ⟨visited, hmem⟩ => ⟨visited, hframes visited hmem⟩⟩
  cases h with
  | goes h => exact hother rfl (h d)
  | passes x hx h =>
      rcases document_modifyDocument_cases w (fun x => { x with validity := .valid }) x d with heq | ⟨rfl, heq⟩
      · exact hother heq (h d)
      · refine .inl ((congrArg Document.lastCheck heq).trans (hd.resolve_right fun hlooked => ?_))
        exact hx ((hwatched x).2 hlooked.2.1)
  | asks x visited hx h =>
      rcases document_modifyDocument_cases w (fun x => { x with lastCheck := w.clock }) x d with heq | ⟨rfl, heq⟩
      · exact hother heq fun visited hmem => List.mem_cons_of_mem _ (h d visited hmem)
      · refine .inr ⟨(congrArg Document.lastCheck heq).trans hsame.clock_eq, (hwatched x).1 hx, .inr (.inr ?_)⟩
        exact ⟨visited, List.mem_cons_self ..⟩
  | fails x h =>
      rcases document_modifyDocument_cases w Document.invalidate x d with heq | ⟨rfl, heq⟩
      · exact hother heq (h d)
      · have htime := congrArg Document.lastCheck heq
        refine hd.imp htime.trans fun ⟨hlooked, hwatch, _⟩ => ⟨htime.trans hlooked, hwatch, .inr (.inl ?_)⟩
        exact congrArg Document.validity heq
  | finds x visited h =>
      subst h
      by_cases hx : x = d
      · subst hx
        have htime : ((w.modifyDocument x fun y =>
            { y with validity := if w.isUnchanged x then .valid else .invalid }).document x).lastCheck =
            (w.document x).lastCheck := by
          refine field_modifyDocument Document.lastCheck ?_ x x
          intro y
          rfl
        refine hd.imp htime.trans fun ⟨hlooked, hwatch, _⟩ => ⟨htime.trans hlooked, hwatch, ?_⟩
        have hlt : x.index < w.documents.length := lt_of_file ((hwatched x).2 hwatch).1
        rw [document_modifyDocument w _ x hlt, if_pos rfl, ← hsame.isUnchanged_eq]
        cases w.isUnchanged x with
        | true => exact .inl rfl
        | false => exact .inr (.inl rfl)
      · refine hother ((document_modifyDocument_cases w _ x d).resolve_right fun h => hx h.1) fun visited' hmem => ?_
        refine (List.mem_cons.1 hmem).resolve_left ?_
        rintro ⟨⟩
        exact hx rfl

end Glances

end World

/-- A task that does nothing but check documents. -/
structure Task.IsCheck (t : Task) : Prop where
  stack : ∀ f ∈ t.stack, f.checked?.isSome = true
  control : (∃ d visited, t.control = .call (.isValid d visited)) ∨ ∃ r, t.control = .settled (.ok r)

namespace Move

/-- One step of a check: what it does to the world, and how it goes on. -/
structure Glances (w : World) (stack : List Frame) (m : Move) (rest : List Frame) : Prop where
  glances : w.Glances stack m.world (m.push ++ rest)
  isCheck : Task.IsCheck ⟨m.push ++ rest, m.control⟩

variable {w : World} {stack rest : List Frame} {d : DocumentId} {visited : List DocumentId}

theorem glances_reply {w' : World} (h : w.Glances stack w' rest) (hrest : ∀ f ∈ rest, f.checked?.isSome = true) (r : Reply) :
    Glances w stack (reply w' r) rest := ⟨h, hrest, .inr ⟨r, rfl⟩⟩

theorem glances_checkFrom {i : Nat} (hrest : ∀ f ∈ rest, f.checked?.isSome = true)
    (hstack : ∀ d visited, Frame.fileTime d visited ∈ stack → Frame.fileTime d visited ∈ rest) :
    Glances w stack (checkFrom w d visited i) rest := by
  unfold checkFrom
  split
  · next j dep _ =>
      refine ⟨.goes fun x visited hmem => List.mem_append_right _ (hstack x visited hmem), ?_, .inl ⟨dep, visited, rfl⟩⟩
      exact List.forall_mem_cons.2 ⟨rfl, hrest⟩
  · unfold checkFile
    dsimp only
    split
    · next hfile =>
        rw [Bool.or_eq_true, decide_eq_true_iff, Option.isNone_iff_eq_none] at hfile
        refine glances_reply (.passes d ?_ hstack) hrest _
        rintro ⟨hsome, hinterval⟩
        rcases hfile with hnone | hnever
        · simp [hnone] at hsome
        · exact hinterval hnever
    · next hfile =>
        rw [Bool.or_eq_true, decide_eq_true_iff, not_or, Bool.not_eq_true, Option.isNone_eq_false_iff] at hfile
        split
        · exact glances_reply (.goes hstack) hrest _
        · refine ⟨.asks d visited hfile hstack, ?_, .inr ⟨.nothing, rfl⟩⟩
          exact List.forall_mem_cons.2 ⟨rfl, hrest⟩

end Move

namespace Task

variable {w w₀ w' : World} {t : Task} {id : TaskId} {m : Move} {rest : List Frame} {o : Outcome} {d : DocumentId}
  {visited : List DocumentId}

theorem IsCheck.step (h : t.IsCheck) (ha : t.advance w id = some (m, rest)) : m.Glances w t.stack rest := by
  obtain ⟨stack, control⟩ := t
  obtain ⟨hstack, ⟨d, visited, hcontrol⟩ | ⟨r, hcontrol⟩⟩ := h
  · cases hcontrol
    cases ha
    change Move.Glances w stack (Move.isValid w d visited) stack
    unfold Move.isValid
    split
    · exact Move.glances_reply (.goes fun _ _ h => h) hstack _
    · split
      · exact Move.glances_reply (.goes fun _ _ h => h) hstack _
      · exact Move.glances_checkFrom hstack fun _ _ h => h
  · cases hcontrol
    cases stack with
    | nil => cases ha
    | cons f below =>
        cases ha
        obtain ⟨hf, hrest⟩ := List.forall_mem_cons.1 hstack
        have hpop (hf : ∀ d visited, f ≠ .fileTime d visited) (d : DocumentId) (visited : List DocumentId)
            (hmem : Frame.fileTime d visited ∈ f :: rest) : Frame.fileTime d visited ∈ rest :=
          (List.mem_cons.1 hmem).resolve_left fun heq => hf d visited heq.symm
        cases f with
        | dependency d i =>
            have hpop := hpop nofun
            cases r with
            | validity valid visited =>
                cases valid with
                | true => exact Move.glances_checkFrom hrest hpop
                | false => exact Move.glances_reply (.fails d hpop) hrest _
            | _ => exact Move.glances_reply (.goes hpop) hrest _
        | fileTime d visited => exact Move.glances_reply (.finds d visited rfl) hrest _
        | _ => cases hf

/-- By induction on the run, with the world that it began in held fixed. -/
theorem IsCheck.ends (h : t.IsCheck) (hends : Ends id w t w' o) (hsame : World.Rechecks (fun _ => True) w₀ w)
    (hlooking : ∀ d, w₀.Looking w t.stack d) : World.Rechecks (fun _ => True) w₀ w' ∧ ∀ d, w₀.Looked w' d := by
  induction hends with
  | settled w o =>
      refine ⟨hsame, fun d => (hlooking d).imp_right fun ⟨htime, _, hfound⟩ => ⟨htime, hfound.imp_right fun h => ?_⟩⟩
      exact h.resolve_right nofun
  | step ha _ ih =>
      have hstep := h.step ha
      exact ih hstep.isCheck (hsame.trans hstep.glances.rechecks) fun d => hstep.glances.looking hsame (hlooking d)

end Task

namespace World

variable {w w' : World} {id : TaskId} {d : DocumentId} {visited : List DocumentId} {o : Outcome}

theorem checks_of_ends (h : Task.Ends id w ⟨[], .call (.isValid d visited)⟩ w' o) : w.Checks w' := by
  have hcheck : Task.IsCheck ⟨[], .call (.isValid d visited)⟩ :=
    ⟨fun _ hf => absurd hf List.not_mem_nil, .inl ⟨d, visited, rfl⟩⟩
  obtain ⟨hrechecks, hlooked⟩ := hcheck.ends h (.refl _ w) fun _ => .inl rfl
  exact ⟨hrechecks, fun x hx => h.invalid hx List.not_mem_nil, hlooked⟩

/-- What a check answers: with a document that is found valid nothing is wrong when the check is over. -/
theorem validity_of_ends (h : Task.Ends id w ⟨[], .call (.isValid d [])⟩ w' o) :
    ∃ b visited, o = .ok (.validity b visited) ∧ (b = true → ¬ w'.Fails d) ∧
      (b = false → (w'.document d).validity = .invalid) := by
  obtain ⟨w₁, b, visited, hends, hverdict⟩ :=
    exists_verdict (w := w) (d := d) (d :: w.sources.flatMap fun source => source.byName.values)
      (fun s name x hx => List.mem_cons_of_mem _ (mem_of_cached? hx)) (List.mem_cons_self ..) id []
  obtain ⟨rfl, rfl⟩ := h.unique hends
  refine ⟨b, visited, rfl, ?_, ?_⟩
  · rintro rfl
    cases hverdict with
    | valid hclean hmem => exact hclean.after d hmem List.not_mem_nil
  · rintro rfl
    cases hverdict with
    | invalid _ hinvalid _ => exact hinvalid

end World

end ScriptedText
