import ScriptedText.Proofs.Engine.Upkeep

/-!
A task that looks a document up, and maybe compiles it: what it still has to do, and that it comes to the document that
the name denotes, in a source where nothing goes wrong meanwhile.
-/

namespace ScriptedText

open World

/-- Frames that wait for the verdict on a document, down to the one of a lookup: sound documents only wait for sound
ones. -/
inductive Awaits (K P : DocumentId → Prop) (R : Frame → DocumentId → Prop) : DocumentId → List Frame → Prop
  | root {f : Frame} {x : DocumentId} (hx : K x) (hf : R f x) : Awaits K P R x [f]
  | dependency {d x : DocumentId} {i : Nat} {fs : List Frame} (hx : K x) (hsound : P d → P x) (h : Awaits K P R d fs) :
      Awaits K P R x (.dependency d i :: fs)

namespace Awaits

variable {K K' P P' : DocumentId → Prop} {R R' : Frame → DocumentId → Prop} {x : DocumentId} {fs : List Frame}

theorem known (h : Awaits K P R x fs) : K x := by
  cases h with
  | root hx _ => exact hx
  | dependency hx _ _ => exact hx

theorem mono (h : Awaits K P R x fs) (hK : ∀ d, K d → K' d) (hR : ∀ f d, R f d → R' f d) (hgrows : ∀ d, P d → P' d)
    (hold : ∀ d, K d → P' d → P d) : Awaits K' P' R' x fs := by
  induction h with
  | root hx hf => exact .root (hK _ hx) (hR _ _ hf)
  | dependency hx hsound h ih => exact .dependency (hK _ hx) (fun hd => hgrows _ (hsound (hold _ h.known hd))) ih

end Awaits

/-- The frame of a lookup under a name that waits for the verdict on a document: on the one that the name denotes, or on
one that is replaced by now. -/
inductive Roots (s : SourceId) (name : String) (N : DocumentId → Prop) (w : World) : Frame → DocumentId → Prop
  | named {d : DocumentId} (h : w.Denotes s name d ∨ N d) : Roots s name N w (.named s name d) d
  | filed {d : DocumentId} {file : Files.Path} (hfile : w.IsFiled s name file) (h : w.Denotes s name d) :
      Roots s name N w (.filed s name file d) d

/-- A task that looks a document up, with the frames below the lookup. -/
inductive Seeks (s : SourceId) (name : String) (below : List Frame) (P N : DocumentId → Prop) (w : World) : Task → Prop
  | asks : Seeks s name below P N w ⟨below, .call (.getDocument s name)⟩
  | checks {x : DocumentId} {visited : List DocumentId} {fs : List Frame}
      (h : Awaits (w.Housed s) P (Roots s name N w) x fs) :
      Seeks s name below P N w ⟨fs ++ below, .call (.isValid x visited)⟩
  | looks {x : DocumentId} {visited : List DocumentId} {fs : List Frame}
      (h : Awaits (w.Housed s) P (Roots s name N w) x fs) (hinterval : (w.source s).interval ≠ -1) :
      Seeks s name below P N w ⟨.fileTime x visited :: (fs ++ below), .settled (.ok .nothing)⟩
  | told {x : DocumentId} {b : Bool} {visited : List DocumentId} {fs : List Frame}
      (h : Awaits (w.Housed s) P (Roots s name N w) x fs) (hsound : P x → b = true)
      (hroot : ∀ f, fs = [f] → N x → b = false) :
      Seeks s name below P N w ⟨fs ++ below, .settled (.ok (.validity b visited))⟩
  | resolves : Seeks s name below P N w ⟨.resolving s name :: below, .settled (.ok .nothing)⟩
  | reads {file : Files.Path} (hfile : w.IsFiled s name file) :
      Seeks s name below P N w ⟨.reading s name file :: below, .settled (.ok .nothing)⟩
  | obtains {d : DocumentId} (h : w.Denotes s name d) : Seeks s name below P N w ⟨below, .settled (.ok (.document d))⟩
  | makes {d : DocumentId} {e : ExecutableId} (h : w.Denotes s name d) (he : (w.document d).executable = some e) :
      Seeks s name below P N w ⟨[], .settled (.ok (.executable e))⟩
  | fails {f : Failure} : Seeks s name below P N w ⟨below, .settled (.error f)⟩
  | ends {f : Failure} : Seeks s name below P N w ⟨[], .settled (.error f)⟩

variable {s : SourceId} {name : String} {below rest : List Frame} {Q : String → Prop} {P P' N : DocumentId → Prop}
  {w w' : World} {t : Task} {id : TaskId} {m : Move} {d x : DocumentId} {visited : List DocumentId} {fs : List Frame}

theorem Roots.carries {f : Frame} (h : Roots s name N w f d) (hname : Q name) (hcarries : Carries s Q P P' w w') :
    Roots s name N w' f d := by
  cases h with
  | named h => exact .named (h.imp_left (hcarries.denotes name d hname))
  | filed hfile h =>
      exact .filed (hfile.of_eq hcarries.tree (hcarries.ages.storage s)) (hcarries.denotes name d hname h)

theorem Awaits.carries (h : Awaits (w.Housed s) P (Roots s name N w) x fs) (hname : Q name)
    (hcarries : Carries s Q P P' w w') : Awaits (w'.Housed s) P' (Roots s name N w') x fs :=
  h.mono (fun _ => hcarries.ages.housed) (fun _ _ hf => hf.carries hname hcarries) hcarries.grows hcarries.old

/-- What other tasks do makes no difference. -/
theorem Seeks.carries (h : Seeks s name below P N w t) (hname : Q name) (hcarries : Carries s Q P P' w w') :
    Seeks s name below P' N w' t := by
  cases h with
  | asks => exact .asks
  | checks h => exact .checks (h.carries hname hcarries)
  | looks h hinterval =>
      refine .looks (h.carries hname hcarries) ?_
      unfold Source.interval
      rw [hcarries.ages.storage]
      exact hinterval
  | told h hsound hroot => exact .told (h.carries hname hcarries) (fun hx => hsound (hcarries.old _ h.known hx)) hroot
  | resolves => exact .resolves
  | reads hfile => exact .reads (hfile.of_eq hcarries.tree (hcarries.ages.storage s))
  | obtains h => exact .obtains (hcarries.denotes name _ hname h)
  | makes h he => exact .makes (hcarries.denotes name _ hname h) (hcarries.ages.executable he)
  | fails => exact .fails
  | ends => exact .ends

/-- After the move the task goes on to look for the document, and nothing has changed for other tasks. -/
def Move.Follows (s : SourceId) (name : String) (below : List Frame) (Q : String → Prop) (P N : DocumentId → Prop)
    (w : World) (m : Move) (rest : List Frame) : Prop :=
  ∃ P', m.world.Decided s Q P' N ∧ Carries s Q P P' w m.world ∧
    Seeks s name below P' N m.world ⟨m.push ++ rest, m.control⟩

theorem Files.Naming.status_of_read {t : Files.Tree} {file : Files.Path} {text : String} {mtime : Int}
    (h : Files.Naming.read t file name = .ok (text, mtime)) : ∃ path bytes, t.status file = .file path bytes mtime := by
  unfold Files.Naming.read at h
  split at h
  · next path bytes mtime' hstatus =>
      cases h
      exact ⟨path, bytes, hstatus⟩
  all_goals cases h

namespace Move

theorem Follows.behind {w₁ : World} {P₁ : DocumentId → Prop} (h : Follows s name below Q P₁ N w₁ m rest)
    (hcarries : Carries s Q P P₁ w w₁) : Follows s name below Q P N w m rest := by
  obtain ⟨P', hdecided, hafter, hseeks⟩ := h
  exact ⟨P', hdecided, hcarries.trans hafter, hseeks⟩

section steps

variable (hw : w.Decided s Q P N) (hname : Q name)

include hw

theorem follows_of_eq (hworld : m.world = w) (h : Seeks s name below P N w ⟨m.push ++ rest, m.control⟩) :
    Follows s name below Q P N w m rest := by
  subst hworld
  exact ⟨P, hw, .refl s Q P _, h⟩

include hname

/-- A check changes a document, but no sound one so that it is invalid. -/
theorem follows_modifyDocument {f : Document → Document} (hworld : m.world = w.modifyDocument d f)
    (hf : ∀ x, f x = { x with validity := (f x).validity, lastCheck := (f x).lastCheck })
    (hages : (w.document d).Ages (f (w.document d))) (hvalid : P d → (f (w.document d)).validity ≠ .invalid)
    (h : Seeks s name below P N w ⟨m.push ++ rest, m.control⟩) : Follows s name below Q P N w m rest := by
  have hafter := hw.of_rechecks (.modifyDocument w d hf) (.modifyDocument d hages) fun x hx => ?_
  · rw [← hworld] at hafter
    exact ⟨P, hafter.1, hafter.2, h.carries hname hafter.2⟩
  · rcases document_modifyDocument_cases w f d x with heq | ⟨rfl, heq⟩
    · exact heq ▸ (hw.upholds.sound x hx).valid
    · exact heq ▸ hvalid hx

theorem follows_getDocument : Follows s name below Q P N w (getDocument w s name) below := by
  unfold getDocument
  cases hd : w.cached? s name with
  | some d =>
      have hawaits : Awaits (w.Housed s) P (Roots s name N w) d [.named s name d] :=
        .root (hw.upholds.kept name d hd) (.named (.inl (hw.cached name d hname hd)))
      exact follows_of_eq hw rfl (.checks hawaits)
  | none =>
      cases (w.source s).storage with
      | memory identifier => exact follows_of_eq hw rfl .fails
      | files naming interval => exact follows_of_eq hw rfl .resolves

theorem follows_checkFrom {i : Nat} (h : Awaits (w.Housed s) P (Roots s name N w) d fs)
    (hclears : w.Clears d i → (w.document d).validity ≠ .invalid) :
    Follows s name below Q P N w (checkFrom w d visited i) (fs ++ below) := by
  unfold checkFrom
  split
  · next j x hnext =>
      have hleads := leads_of_nextDependency? hnext
      obtain ⟨other, -, hx⟩ := (leads_iff h.known).1 hleads
      have hawaits : Awaits (w.Housed s) P (Roots s name N w) x (.dependency d j :: fs) :=
        .dependency (hw.upholds.kept other x hx) (fun hd => hw.upholds.closed d x hd hleads) h
      exact follows_of_eq hw rfl (.checks hawaits)
  · next hnone =>
      have hhome := h.known.2
      unfold checkFile
      dsimp only
      split
      · next hfile =>
          have hvalid := hclears ⟨hnone, by simpa using hfile⟩
          refine follows_modifyDocument hw hname rfl (fun _ => rfl) (Document.ages_validate hvalid) (fun _ => nofun)
            (.told h (fun _ => rfl) fun f _ hd => absurd (hw.replaced d hd).1 hvalid)
      · next hfile =>
          have hinterval : (w.source s).interval ≠ -1 := fun hinterval => hfile (by simp [hhome, hinterval])
          split
          · refine follows_of_eq hw rfl (.told h (fun _ => rfl) fun f _ hd => ?_)
            obtain ⟨-, ⟨identifier, hmemory⟩, -⟩ := hw.replaced d hd
            refine absurd ?_ hinterval
            unfold Source.interval
            rw [hmemory]
          · exact follows_modifyDocument hw hname rfl (fun _ => rfl) (Document.ages_lastCheck _ _)
              (fun hd => (hw.upholds.sound d hd).valid) (.looks h hinterval)

theorem follows_isValid (h : Awaits (w.Housed s) P (Roots s name N w) x fs) :
    Follows s name below Q P N w (isValid w x visited) (fs ++ below) := by
  unfold isValid
  split
  · next hinvalid =>
      exact follows_of_eq hw rfl (.told h (fun hx => absurd hinvalid (hw.upholds.sound x hx).valid) fun _ _ _ => rfl)
  · next hvalid =>
      split
      · refine follows_of_eq hw rfl (.told h (fun _ => rfl) fun _ _ hx => absurd (hw.replaced x hx).1 hvalid)
      · exact follows_checkFrom hw hname h fun _ => hvalid

theorem follows_afterDependency {i : Nat} {b : Bool} (h : Awaits (w.Housed s) P (Roots s name N w) d fs)
    (hsound : P d → b = true) (hclears : b = true → w.Clears d (i + 1) → (w.document d).validity ≠ .invalid) :
    Follows s name below Q P N w (afterDependency w d i b visited) (fs ++ below) := by
  unfold afterDependency
  cases b with
  | true => exact follows_checkFrom hw hname h (hclears rfl)
  | false =>
      refine follows_modifyDocument hw hname rfl (fun _ => rfl) (Document.ages_invalidate _)
        (fun hd => nomatch hsound hd) (.told h (fun hd => nomatch hsound hd) fun _ _ _ => rfl)

theorem follows_afterFileTime (h : Awaits (w.Housed s) P (Roots s name N w) d fs) (hinterval : (w.source s).interval ≠ -1)
    (hvalid : w.isUnchanged d = true → (w.document d).validity ≠ .invalid) :
    Follows s name below Q P N w (afterFileTime w d visited) (fs ++ below) := by
  have hsound (hd : P d) : w.isUnchanged d = true := (hw.upholds.sound d hd).unchanged.resolve_left hinterval
  unfold afterFileTime
  cases hunchanged : w.isUnchanged d with
  | true =>
      exact follows_modifyDocument hw hname rfl (fun _ => rfl) (Document.ages_validate (hvalid hunchanged)) (fun _ => nofun)
        (.told h (fun _ => rfl) fun f _ hd => absurd (hw.replaced d hd).1 (hvalid hunchanged))
  | false =>
      have hnot (hd : P d) : False := nomatch hunchanged.symm.trans (hsound hd)
      exact follows_modifyDocument hw hname rfl (fun _ => rfl) (Document.ages_invalidate _) (fun hd => (hnot hd).elim)
        (.told h (fun hd => (hnot hd).elim) fun _ _ _ => rfl)

theorem follows_afterNamed {b : Bool} (h : w.Denotes s name d ∨ N d) (hsound : P d → b = true) (hN : N d → b = false) :
    Follows s name below Q P N w (afterNamed w s name d b) below := by
  unfold afterNamed
  cases b with
  | true => exact follows_of_eq hw rfl (.obtains (h.resolve_right fun hd => nomatch hN hd))
  | false =>
      have hd : N d := h.resolve_left fun hd => nomatch hsound (hw.denoted name d hname hd)
      obtain ⟨-, ⟨identifier, hmemory⟩, -⟩ := hw.replaced d hd
      obtain ⟨d', hdenotes, hrenew, hafter⟩ := hw.renew hname hd
      rw [if_neg Bool.false_ne_true, hmemory]
      refine ⟨P, hafter.1, hafter.2, ?_⟩
      refine .obtains (d := (w.renew s name d).2) ?_
      rw [hrenew]
      exact hafter.2.denotes name d' hname hdenotes

theorem follows_keptByName (hd : w.Denotes s name d) : Follows s name below Q P N w (keptByName w s name d) below := by
  obtain ⟨hwinner, hafter⟩ := hw.keepByName hname hd
  refine ⟨P, hafter.1, hafter.2, ?_⟩
  refine .obtains (d := (w.keepByName s name d).2) ?_
  rw [hwinner]
  exact hafter.2.denotes name d hname hd

theorem follows_afterResolving : Follows s name below Q P N w (afterResolving w s name) below := by
  unfold afterResolving
  split
  · exact follows_of_eq hw rfl .fails
  · next naming interval hfiles =>
      split
      · exact follows_of_eq hw rfl .fails
      · next file hfile =>
          have hfiled : w.IsFiled s name file := ⟨naming, interval, hfiles, hfile⟩
          split
          · next d hd =>
              have hdenotes : w.Denotes s name d := .files hfiled hd
              have hhoused := (hw.upholds.sound d (hw.denoted name d hname hdenotes)).housed
              have hawaits : Awaits (w.Housed s) P (Roots s name N w) d [.filed s name file d] :=
                .root hhoused (.filed hfiled hdenotes)
              exact follows_of_eq hw rfl (.checks hawaits)
          · exact follows_of_eq hw rfl (.reads hfiled)

theorem follows_afterReading {file : Files.Path} (hfile : w.IsFiled s name file) :
    Follows s name below Q P N w (afterReading w s name file) below := by
  unfold afterReading
  split
  · exact follows_of_eq hw rfl .fails
  · next text mtime hread =>
      obtain ⟨path, bytes, hstatus⟩ := Files.Naming.status_of_read hread
      dsimp only
      generalize hx : ({ name, text, tag := _, timestamp := mtime, file := _, source := s, lastCheck := _ } : Document) = x
      have hadded : (w.addDocument x).1.document ⟨w.documents.length⟩ = x := document_addDocument w x
      have hunchanged : (w.addDocument x).1.isUnchanged ⟨w.documents.length⟩ = true := by
        have htree : (w.addDocument x).1.tree = w.tree := rfl
        simp only [isUnchanged, hadded]
        subst hx
        simp [htree, hstatus]
      obtain ⟨P₁, hnew, hw₁, hcarries₁⟩ :=
        hw.addDocument (x := x) (by subst hx; rfl) (by subst hx; simp) (by subst hx; rfl) hunchanged
      obtain ⟨hdenotes, hw₂, hcarries₂⟩ := hw₁.keepByFile (hfile.of_eq rfl (hcarries₁.ages.storage s)) hnew
      exact (follows_keptByName hw₂ hname hdenotes).behind (hcarries₁.trans hcarries₂)

theorem follows_afterCreating {isText : Bool} {compilation : Compilation} (hd : w.Denotes s name d) :
    Follows s name below Q P N w (afterCreating w s name d isText compilation) [] := by
  unfold afterCreating
  split
  · next e he => exact follows_of_eq hw rfl (.makes hd he)
  · next hnone =>
      generalize hcompile : w.compile (draftOf w s name d isText compilation) = compiled
      obtain ⟨w₁, r⟩ := compiled
      obtain ⟨P₁, hw₁, hcarries, hdependencies⟩ := hw.compile rfl hcompile
      cases r with
      | error f => exact ⟨P₁, hw₁, hcarries, .ends⟩
      | ok e =>
          obtain ⟨hw₂, hcarries₂⟩ := hw₁.attachExecutable d (hdependencies e rfl)
          have hd₁ := hcarries.denotes name d hname hd
          have hlt := (hw₁.upholds.sound d (hw₁.denoted name d hname hd₁)).housed.1
          refine ⟨P₁, hw₂, hcarries.trans hcarries₂, .makes (hcarries₂.denotes name d hname hd₁) ?_⟩
          exact executable_attachExecutable e hlt

end steps

end Move

/-- A step of a task that looks a document up, if it is not one that takes an invalid document for valid. -/
theorem Seeks.advance {isText : Bool} {compilation : Compilation} (hw : w.Decided s Q P N) (hname : Q name)
    (hbelow : below = [] ∨ below = [.creating s name isText compilation]) (h : Seeks s name below P N w t)
    (ha : t.advance w id = some (m, rest)) (hfinal : ∀ d, t.Passes w d → (w.document d).validity ≠ .invalid) :
    m.Follows s name below Q P N w rest := by
  cases h with
  | asks =>
      cases ha
      exact Move.follows_getDocument hw hname
  | checks h =>
      cases ha
      exact Move.follows_isValid hw hname h
  | looks h hinterval =>
      cases ha
      exact Move.follows_afterFileTime hw hname h hinterval fun hunchanged => hfinal _ ⟨rfl, hunchanged⟩
  | @told x b visited fs h hsound hroot =>
      cases h with
      | root hx hf =>
          cases hf with
          | named hd =>
              cases ha
              exact Move.follows_afterNamed hw hname hd hsound (hroot _ rfl)
          | filed hfile hd =>
              cases ha
              cases hsound (hw.denoted name x hname hd)
              exact Move.follows_keptByName hw hname hd
      | dependency hx hP h =>
          cases ha
          refine Move.follows_afterDependency hw hname h (fun hd => hsound (hP hd)) fun hb hclears => hfinal _ ?_
          subst hb
          exact ⟨rfl, hclears⟩
  | resolves =>
      cases ha
      exact Move.follows_afterResolving hw hname
  | reads hfile =>
      cases ha
      exact Move.follows_afterReading hw hname hfile
  | obtains hd =>
      rcases hbelow with rfl | rfl
      · cases ha
      · cases ha
        exact Move.follows_afterCreating hw hname hd
  | fails =>
      rcases hbelow with rfl | rfl
      · cases ha
      · cases ha
        exact Move.follows_of_eq hw rfl .ends
  | makes h he => cases ha
  | ends => cases ha

theorem Awaits.sound (h : Awaits (w.Housed s) P (Roots s name N w) x fs) (hw : w.Decided s Q P N) (hname : Q name)
    (hN : ∀ x, ¬ N x) : P x := by
  induction h with
  | root _ hf =>
      cases hf with
      | named hd => exact hw.denoted name _ hname (hd.resolve_right (hN _))
      | filed _ hd => exact hw.denoted name _ hname hd
  | dependency _ hsound _ ih => exact hsound ih

theorem Seeks.valid_of_passes {isText : Bool} {compilation : Compilation} (hw : w.Decided s Q P N) (hname : Q name)
    (hN : ∀ x, ¬ N x) (hbelow : below = [] ∨ below = [.creating s name isText compilation])
    (h : Seeks s name below P N w t) (hd : t.Passes w d) : (w.document d).validity ≠ .invalid := by
  have hvalid (h : P d) : (w.document d).validity ≠ .invalid := (hw.upholds.sound d h).valid
  cases h with
  | asks | checks => simp [Task.Passes] at hd
  | looks h _ =>
      obtain ⟨rfl, -⟩ := hd
      exact hvalid (h.sound hw hname hN)
  | @told x b visited fs h _ _ =>
      cases h with
      | root _ hf => cases hf <;> cases hd
      | dependency _ _ h =>
          cases b with
          | false => cases hd
          | true =>
              obtain ⟨rfl, -⟩ := hd
              exact hvalid (h.sound hw hname hN)
  | obtains | fails => rcases hbelow with rfl | rfl <;> cases hd
  | _ => cases hd

end ScriptedText
