import ScriptedText.Proofs.Engine.Evaluation
import ScriptedText.Proofs.Engine.Finality
import ScriptedText.Proofs.Engine.Registration

/-!
What a check comes to that nothing else interferes with: whether a document is valid depends on the documents that it
leads to, each of which is looked at once, also where they depend on each other.
-/

namespace ScriptedText

open Relation

namespace World

/-- A document leads to those that it depends on, as far as its source keeps them. -/
def Leads (w : World) (d d' : DocumentId) : Prop :=
  ∃ name ∈ (w.document d).dependencies, w.cached? (w.document d).source name = some d'

/-- What is wrong with a document itself: it is known to be invalid, or its file is due to be looked at and has
changed. -/
def Fails (w : World) (d : DocumentId) : Prop :=
  (w.document d).validity = .invalid ∨
    ((w.document d).file.isSome = true ∧ (w.source (w.document d).source).interval ≠ -1 ∧
      (w.source (w.document d).source).interval < w.clock - (w.document d).lastCheck ∧ w.isUnchanged d = false)

/-- Something is wrong with the document or with one that it leads to. -/
def Stale (w : World) (d : DocumentId) : Prop := ∃ d', ReflTransGen w.Leads d d' ∧ w.Fails d'

/-- Documents of a kind were checked, and nothing else has changed. -/
structure Rechecks (S : DocumentId → Prop) (w w' : World) : Prop where
  world : w' = { w with documents := w'.documents }
  length : w'.documents.length = w.documents.length
  document : ∀ d, w'.document d =
    { w.document d with validity := (w'.document d).validity, lastCheck := (w'.document d).lastCheck }
  others : ∀ d, ¬ S d → w'.document d = w.document d

variable {w w' w₁ w₂ : World} {S S' : DocumentId → Prop} {d d' x : DocumentId} {i j : Nat}

theorem document_modifyDocument_cases (w : World) (f : Document → Document) (d' d : DocumentId) :
    (w.modifyDocument d' f).document d = w.document d ∨
      d' = d ∧ (w.modifyDocument d' f).document d = f (w.document d) := by
  by_cases hd : d.index < w.documents.length
  · rw [document_modifyDocument w f d' hd]
    split
    · next heq => exact .inr ⟨heq, rfl⟩
    · exact .inl rfl
  · have hlength : (w.modifyDocument d' f).documents.length = w.documents.length := List.length_modify ..
    unfold document
    rw [List.getElem?_eq_none (Nat.le_of_not_lt hd), List.getElem?_eq_none (hlength ▸ Nat.le_of_not_lt hd)]
    exact .inl rfl

namespace Rechecks

theorem refl (S : DocumentId → Prop) (w : World) : Rechecks S w w := ⟨rfl, rfl, fun _ => rfl, fun _ _ => rfl⟩

theorem trans (h : Rechecks S w w₁) (h' : Rechecks S w₁ w₂) : Rechecks S w w₂ where
  world := h'.world.trans (by rw [h.world])
  length := h'.length.trans h.length
  document d := (h'.document d).trans (by rw [h.document d])
  others d hd := (h'.others d hd).trans (h.others d hd)

theorem mono (h : Rechecks S w w') (hS : ∀ d, S d → S' d) : Rechecks S' w w' :=
  ⟨h.world, h.length, h.document, fun d hd => h.others d fun hin => hd (hS d hin)⟩

theorem modifyDocument (w : World) (d : DocumentId) {f : Document → Document}
    (hf : ∀ x, f x = { x with validity := (f x).validity, lastCheck := (f x).lastCheck }) :
    Rechecks (· = d) w (w.modifyDocument d f) where
  world := rfl
  length := List.length_modify ..
  document d' := by
    rcases document_modifyDocument_cases w f d d' with heq | ⟨-, heq⟩
    · rw [heq]
    · rw [heq]
      exact hf _
  others d' hd' := by
    rcases document_modifyDocument_cases w f d d' with heq | ⟨rfl, -⟩
    · exact heq
    · exact absurd rfl hd'

theorem source_eq (h : Rechecks S w w') (s : SourceId) : w'.source s = w.source s := by
  rw [h.world]
  rfl

theorem cached?_eq (h : Rechecks S w w') (s : SourceId) (name : String) : w'.cached? s name = w.cached? s name := by
  rw [h.world]
  rfl

theorem clock_eq (h : Rechecks S w w') : w'.clock = w.clock := by rw [h.world]

theorem dependencies_eq (h : Rechecks S w w') (d : DocumentId) :
    (w'.document d).dependencies = (w.document d).dependencies := by rw [h.document]

theorem home_eq (h : Rechecks S w w') (d : DocumentId) : (w'.document d).source = (w.document d).source := by
  rw [h.document]

theorem file_eq (h : Rechecks S w w') (d : DocumentId) : (w'.document d).file = (w.document d).file := by
  rw [h.document]

theorem leads_eq (h : Rechecks S w w') : w'.Leads = w.Leads := by
  funext d d'
  simp only [Leads, h.dependencies_eq, h.home_eq, h.cached?_eq]

theorem nextDependency?_eq (h : Rechecks S w w') (d : DocumentId) (i : Nat) :
    w'.nextDependency? d i = w.nextDependency? d i := by
  simp only [nextDependency?, h.dependencies_eq, h.home_eq, h.cached?_eq]

theorem isUnchanged_eq (h : Rechecks S w w') (d : DocumentId) : w'.isUnchanged d = w.isUnchanged d := by
  have htime : (w'.document d).timestamp = (w.document d).timestamp := by rw [h.document]
  have htree : w'.tree = w.tree := by rw [h.world]
  simp only [isUnchanged, h.file_eq, htime, htree]

theorem fails_iff (h : Rechecks S w w') (hd : ¬ S d) : w'.Fails d ↔ w.Fails d := by
  simp only [Fails, h.others d hd, h.source_eq, h.clock_eq, h.isUnchanged_eq]

end Rechecks

/-! The dependencies of a document, one after the other. -/

theorem getElem?_drop_zipIdx (names : List String) (i k : Nat) :
    (names.zipIdx.drop i)[k]? = names[i + k]?.map (·, i + k) := by
  simp [List.getElem?_drop, List.getElem?_zipIdx]

theorem eq_none_of_nextDependency? (h : w.nextDependency? d i = none) {k : Nat} (hk : i ≤ k) {name : String}
    (hname : (w.document d).dependencies[k]? = some name) : w.cached? (w.document d).source name = none := by
  have hmem : (name, k) ∈ (w.document d).dependencies.zipIdx.drop i := by
    refine List.mem_of_getElem? (i := k - i) ?_
    rw [getElem?_drop_zipIdx, Nat.add_sub_cancel' hk, hname]
    rfl
  simpa using List.findSome?_eq_none_iff.1 h _ hmem

/-- The next dependency that the source keeps is found; those between are not kept. -/
theorem exists_of_nextDependency? (h : w.nextDependency? d i = some (j, x)) :
    i ≤ j ∧ (∃ name, (w.document d).dependencies[j]? = some name ∧ w.cached? (w.document d).source name = some x) ∧
      ∀ k name, i ≤ k → k < j → (w.document d).dependencies[k]? = some name →
        w.cached? (w.document d).source name = none := by
  obtain ⟨before, ⟨name, j'⟩, after, hsplit, hfound, hnone⟩ := List.findSome?_eq_some_iff.1 h
  have hat (k : Nat) : (before ++ (name, j') :: after)[k]? = (w.document d).dependencies[i + k]?.map (·, i + k) := by
    rw [← hsplit, getElem?_drop_zipIdx]
  have hhere := hat before.length
  rw [List.getElem?_append_right (Nat.le_refl _), Nat.sub_self, List.getElem?_cons_zero, eq_comm] at hhere
  obtain ⟨name', hname, hpair⟩ := Option.map_eq_some_iff.1 hhere
  obtain ⟨rfl, rfl⟩ := Prod.mk.inj hpair
  obtain ⟨x', hcached, hx⟩ := Option.map_eq_some_iff.1 hfound
  obtain ⟨rfl, rfl⟩ := Prod.mk.inj hx
  refine ⟨Nat.le_add_right _ _, ⟨name', hname, hcached⟩, fun k other hk hlt hother => ?_⟩
  have hthere := hat (k - i)
  rw [Nat.add_sub_cancel' hk, hother, List.getElem?_append_left (by omega)] at hthere
  simpa using hnone _ (List.mem_of_getElem? hthere)

theorem leads_of_nextDependency? (h : w.nextDependency? d i = some (j, x)) : w.Leads d x := by
  obtain ⟨-, ⟨name, hname, hx⟩, -⟩ := exists_of_nextDependency? h
  exact ⟨name, List.mem_of_getElem? hname, hx⟩

theorem lt_or_eq_of_nextDependency? {k : Nat} {name : String} {y : DocumentId}
    (h : w.nextDependency? d i = some (j, x)) (hk : k ≤ j) (hname : (w.document d).dependencies[k]? = some name)
    (hy : w.cached? (w.document d).source name = some y) : k < i ∨ y = x := by
  obtain ⟨-, ⟨name', hname', hx⟩, hbetween⟩ := exists_of_nextDependency? h
  by_cases hki : k < i
  · exact .inl hki
  · rcases Nat.lt_or_eq_of_le hk with hkj | rfl
    · cases (hbetween k name (Nat.le_of_not_lt hki) hkj hname).symm.trans hy
    · cases hname'.symm.trans hname
      exact .inr (Option.some.inj (hy.symm.trans hx))

/-- The check of some documents is done: they are those in `visited'` but not in `visited`, and with each of them the ones
that it leads to were visited. -/
structure Clean (w : World) (visited : List DocumentId) (w' : World) (visited' : List DocumentId) : Prop where
  grows : ∀ x ∈ visited, x ∈ visited'
  rechecks : Rechecks (fun x => x ∈ visited' ∧ x ∉ visited) w w'
  before : ∀ x ∈ visited', x ∉ visited → ¬ w.Fails x
  after : ∀ x ∈ visited', x ∉ visited → ¬ w'.Fails x
  closed : ∀ x ∈ visited', x ∉ visited → ∀ y, w.Leads x y → y ∈ visited'

/-- What the check of a document comes to. -/
inductive Verdict (w : World) (d : DocumentId) (visited : List DocumentId) : World → Bool → List DocumentId → Prop
  | valid {w' : World} {visited' : List DocumentId} (h : Clean w visited w' visited') (hmem : d ∈ visited') :
      Verdict w d visited w' true visited'
  | invalid {w' : World} {visited' : List DocumentId} (h : Rechecks (fun _ => True) w w')
      (hinvalid : (w'.document d).validity = .invalid) (hstale : w.Stale d) : Verdict w d visited w' false visited'

namespace Clean

variable {visited visited₁ visited₂ : List DocumentId}

theorem refl (w : World) (visited : List DocumentId) : Clean w visited w visited :=
  ⟨fun _ => id, .refl _ w, fun _ hx hnot => absurd hx hnot, fun _ hx hnot => absurd hx hnot,
    fun _ hx hnot => absurd hx hnot⟩

theorem fails_iff (h : Clean w visited w₁ visited₁) (x : DocumentId) : w₁.Fails x ↔ w.Fails x := by
  by_cases hx : x ∈ visited₁ ∧ x ∉ visited
  · exact iff_of_false (h.after x hx.1 hx.2) (h.before x hx.1 hx.2)
  · exact h.rechecks.fails_iff hx

theorem stale_iff (h : Clean w visited w₁ visited₁) (x : DocumentId) : w₁.Stale x ↔ w.Stale x := by
  simp only [Stale, h.rechecks.leads_eq, h.fails_iff]

theorem trans (h : Clean w visited w₁ visited₁) (h' : Clean w₁ visited₁ w₂ visited₂) : Clean w visited w₂ visited₂ where
  grows x hx := h'.grows x (h.grows x hx)
  rechecks := by
    refine (h.rechecks.mono fun x hx => ⟨h'.grows x hx.1, hx.2⟩).trans (h'.rechecks.mono fun x hx => ⟨hx.1, ?_⟩)
    exact fun hold => hx.2 (h.grows x hold)
  before x hx hnot := by
    by_cases hmem : x ∈ visited₁
    · exact h.before x hmem hnot
    · exact (not_congr (h.fails_iff x)).1 (h'.before x hx hmem)
  after x hx hnot := by
    by_cases hmem : x ∈ visited₁
    · exact (not_congr (h'.rechecks.fails_iff fun h => h.2 hmem)).2 (h.after x hmem hnot)
    · exact h'.after x hx hmem
  closed x hx hnot y hy := by
    by_cases hmem : x ∈ visited₁
    · exact h'.grows y (h.closed x hmem hnot y hy)
    · exact h'.closed x hx hmem y (h.rechecks.leads_eq ▸ hy)

/-- The document itself is found in order, when those that it leads to have been. -/
theorem finish (h : Clean w (visited ++ [d]) w₁ visited₁) (hd : d ∉ visited) (hlast : Rechecks (· = d) w₁ w₂)
    (hclosed : ∀ y, w.Leads d y → y ∈ visited₁) (hbefore : ¬ w.Fails d) (hafter : ¬ w₂.Fails d) :
    Clean w visited w₂ visited₁ := by
  have hmem : d ∈ visited₁ := h.grows d (List.mem_append_right _ (List.mem_singleton_self d))
  have hsplit {x : DocumentId} (hx : x ≠ d) (hnot : x ∉ visited) : x ∉ visited ++ [d] := by simp [hx, hnot]
  refine ⟨fun x hx => h.grows x (List.mem_append_left _ hx), ?_, fun x hx hnot => ?_, fun x hx hnot => ?_,
    fun x hx hnot => ?_⟩
  · refine (h.rechecks.mono fun x hx => ⟨hx.1, fun hold => hx.2 (List.mem_append_left _ hold)⟩).trans
      (hlast.mono fun x hx => ?_)
    exact hx ▸ ⟨hmem, hd⟩
  · by_cases heq : x = d
    · exact heq ▸ hbefore
    · exact h.before x hx (hsplit heq hnot)
  · by_cases heq : x = d
    · exact heq ▸ hafter
    · exact (not_congr (hlast.fails_iff heq)).2 (h.after x hx (hsplit heq hnot))
  · by_cases heq : x = d
    · exact heq ▸ hclosed
    · exact h.closed x hx (hsplit heq hnot)

end Clean

end World

namespace World

variable {w w₁ : World} {d : DocumentId} {id : TaskId} {visited visited₁ : List DocumentId}

theorem not_fails (hvalid : (w.document d).validity ≠ .invalid)
    (hfile : (w.document d).file.isNone = true ∨ (w.source (w.document d).source).interval = -1 ∨
      w.clock - (w.document d).lastCheck ≤ (w.source (w.document d).source).interval ∨ w.isUnchanged d = true) :
    ¬ w.Fails d := by
  rintro (hinvalid | ⟨hsome, hinterval, hlate, hchanged⟩)
  · exact hvalid hinvalid
  · rcases hfile with hnone | hnever | hearly | hunchanged
    · simp [Option.isNone_iff_eq_none.1 hnone] at hsome
    · exact hinterval hnever
    · omega
    · simp [hunchanged] at hchanged

theorem validity_validate (h : (w.document d).validity ≠ .invalid) :
    ((w.validate d).document d).validity ≠ .invalid := by
  rcases document_modifyDocument_cases w (fun x => { x with validity := .valid }) d d with heq | ⟨-, heq⟩
  · rwa [validate, heq]
  · simp [validate, heq]

section last

variable (h : Clean w (visited ++ [d]) w₁ visited₁) (hd : d ∉ visited) (hvalid : (w.document d).validity ≠ .invalid)
  (hclosed : ∀ y, w.Leads d y → y ∈ visited₁)

include h in
theorem document_eq_of_clean : d ∈ visited₁ ∧ w₁.document d = w.document d ∧ (w₁.Fails d ↔ w.Fails d) := by
  have hnot : ¬ (d ∈ visited₁ ∧ d ∉ visited ++ [d]) := by simp
  exact ⟨h.grows d (by simp), h.rechecks.others d hnot, h.rechecks.fails_iff hnot⟩

include h hd hvalid hclosed

/-- The file of the document is looked at. -/
theorem exists_verdict_look (hsome : (w₁.document d).file.isSome = true)
    (hinterval : (w₁.source (w₁.document d).source).interval ≠ -1)
    (hlate : (w₁.source (w₁.document d).source).interval < w₁.clock - (w₁.document d).lastCheck) :
    ∃ w' b visited', (Move.pass (w₁.modifyDocument d fun x => { x with lastCheck := w₁.clock })
      [.fileTime d visited₁]).Ends id w' (.ok (.validity b visited')) ∧ Verdict w d visited w' b visited' := by
  obtain ⟨hmem, hsame, hfails⟩ := document_eq_of_clean h
  have hlook : Rechecks (· = d) w₁ (w₁.modifyDocument d fun x => { x with lastCheck := w₁.clock }) :=
    .modifyDocument w₁ d fun x => rfl
  have hvalid₂ : ((w₁.modifyDocument d fun x => { x with lastCheck := w₁.clock }).document d).validity ≠ .invalid := by
    rcases document_modifyDocument_cases w₁ (fun x => { x with lastCheck := w₁.clock }) d d with heq | ⟨-, heq⟩
    · rw [heq, hsame]
      exact hvalid
    · rw [heq, hsame]
      exact hvalid
  generalize w₁.modifyDocument d (fun x => { x with lastCheck := w₁.clock }) = w₂ at hlook hvalid₂
  have hends (b : Bool) (hb : w₂.isUnchanged d = b) : (Move.pass w₂ [.fileTime d visited₁]).Ends id
      (w₂.modifyDocument d fun x => { x with validity := if b then .valid else .invalid })
      (.ok (.validity b visited₁)) := by
    subst hb
    exact Task.ends_frame.2 (Move.ends_settle.2 ⟨rfl, rfl⟩)
  cases hunchanged : w₂.isUnchanged d with
  | true =>
      have hlast : Rechecks (· = d) w₂ (w₂.validate d) := .modifyDocument w₂ d fun x => rfl
      have hsame₁ : w₁.isUnchanged d = true := hlook.isUnchanged_eq d ▸ hunchanged
      have hbefore : ¬ w₁.Fails d := not_fails (hsame ▸ hvalid) (.inr (.inr (.inr hsame₁)))
      have hafter : ¬ (w₂.validate d).Fails d := by
        refine not_fails (validity_validate hvalid₂) (.inr (.inr (.inr ?_)))
        rw [hlast.isUnchanged_eq, hunchanged]
      exact ⟨_, true, visited₁, hends true hunchanged,
        .valid (h.finish hd (hlook.trans hlast) hclosed ((not_congr hfails).1 hbefore) hafter) hmem⟩
  | false =>
      have hlast : Rechecks (· = d) w₂ (w₂.modifyDocument d Document.invalidate) := .modifyDocument w₂ d fun x => rfl
      have hlt : d.index < w₂.documents.length := hlook.length ▸ lt_of_file hsome
      have hsame₁ : w₁.isUnchanged d = false := hlook.isUnchanged_eq d ▸ hunchanged
      have hall : Rechecks (fun _ => True) w (w₂.modifyDocument d Document.invalidate) :=
        (h.rechecks.mono fun _ _ => trivial).trans ((hlook.trans hlast).mono fun _ _ => trivial)
      refine ⟨_, false, visited₁, hends false hunchanged,
        .invalid hall ?_ ⟨d, .refl, hfails.1 (.inr ⟨hsome, hinterval, hlate, hsame₁⟩)⟩⟩
      exact congrArg Document.validity ((document_modifyDocument w₂ Document.invalidate d hlt).trans (if_pos rfl))

/-- What is left of a check of a document when all that it leads to is found in order. -/
theorem exists_verdict_checkFile :
    ∃ w' b visited', (Move.checkFile w₁ d visited₁).Ends id w' (.ok (.validity b visited')) ∧
      Verdict w d visited w' b visited' := by
  obtain ⟨hmem, hsame, hfails⟩ := document_eq_of_clean h
  have hvalid₁ : (w₁.document d).validity ≠ .invalid := hsame ▸ hvalid
  unfold Move.checkFile
  dsimp only
  split
  · next hfile =>
      rw [Bool.or_eq_true, decide_eq_true_iff] at hfile
      have hlast : Rechecks (· = d) w₁ (w₁.validate d) := .modifyDocument w₁ d fun x => rfl
      have hbefore : ¬ w₁.Fails d := not_fails hvalid₁ (hfile.imp_right .inl)
      have hafter : ¬ (w₁.validate d).Fails d := by
        refine not_fails (validity_validate hvalid₁) ?_
        rw [hlast.file_eq, hlast.home_eq, hlast.source_eq]
        exact hfile.imp_right .inl
      exact ⟨_, true, visited₁, Move.ends_settle.2 ⟨rfl, rfl⟩,
        .valid (h.finish hd hlast hclosed ((not_congr hfails).1 hbefore) hafter) hmem⟩
  · next hfile =>
      rw [Bool.or_eq_true, decide_eq_true_iff, not_or, Bool.not_eq_true, Option.isNone_eq_false_iff] at hfile
      obtain ⟨hsome, hinterval⟩ := hfile
      split
      · next hearly =>
          have hbefore : ¬ w₁.Fails d := not_fails hvalid₁ (.inr (.inr (.inl hearly)))
          exact ⟨_, true, visited₁, Move.ends_settle.2 ⟨rfl, rfl⟩,
            .valid (h.finish hd (.refl _ w₁) hclosed ((not_congr hfails).1 hbefore) hbefore) hmem⟩
      · next hlate => exact exists_verdict_look h hd hvalid hclosed hsome hinterval (Int.not_le.1 hlate)

end last

/-- A check of a document goes through those that it leads to, from place `i` on, if every check of one of them that has
been left out so far comes to an end. -/
theorem exists_verdict_checkFrom (hd : d ∉ visited) (hvalid : (w.document d).validity ≠ .invalid)
    (hinner : ∀ w₁ visited₁ x, Clean w (visited ++ [d]) w₁ visited₁ → w.Leads d x → ∃ w' b visited',
      Task.Ends id w₁ ⟨[], .call (.isValid x visited₁)⟩ w' (.ok (.validity b visited')) ∧
        Verdict w₁ x visited₁ w' b visited') {i : Nat} (h : Clean w (visited ++ [d]) w₁ visited₁)
    (hdone : ∀ k < i, ∀ name x, (w.document d).dependencies[k]? = some name →
      w.cached? (w.document d).source name = some x → x ∈ visited₁) :
    ∃ w' b visited', (Move.checkFrom w₁ d visited₁ i).Ends id w' (.ok (.validity b visited')) ∧
      Verdict w d visited w' b visited' := by
  generalize hleft : (w.document d).dependencies.length - i = left
  induction left using Nat.strongRecOn generalizing w₁ visited₁ i with
  | ind left ih =>
      have hsame := h.rechecks.nextDependency?_eq d i
      unfold Move.checkFrom
      cases hnext : w.nextDependency? d i with
      | none =>
          rw [hsame, hnext]
          refine exists_verdict_checkFile h hd hvalid ?_
          rintro y ⟨name, hname, hy⟩
          obtain ⟨k, hk⟩ := List.mem_iff_getElem?.1 hname
          by_cases hlt : k < i
          · exact hdone k hlt name y hk hy
          · cases (eq_none_of_nextDependency? hnext (Nat.le_of_not_lt hlt) hk).symm.trans hy
      | some next =>
          obtain ⟨j, x⟩ := next
          rw [hsame, hnext]
          obtain ⟨hij, ⟨name, hname, -⟩, -⟩ := exists_of_nextDependency? hnext
          have hleads := leads_of_nextDependency? hnext
          obtain ⟨w₂, b, visited₂, hends, hverdict⟩ := hinner w₁ visited₁ x h hleads
          have hgoes (w' : World) (o : Outcome) (hrest : (Move.resume w₂ id (.dependency d j)
              (.ok (.validity b visited₂))).Ends id w' o) :
              (Move.call w₁ (.isValid x visited₁) [.dependency d j]).Ends id w' o := (Move.ends_call_of_ends hends).2 hrest
          cases hverdict with
          | valid hclean hmem =>
              have hlt : j < (w.document d).dependencies.length := (List.getElem?_eq_some_iff.1 hname).1
              have hdone' : ∀ k < j + 1, ∀ name x, (w.document d).dependencies[k]? = some name →
                  w.cached? (w.document d).source name = some x → x ∈ visited₂ := by
                intro k hk name' y hname' hy
                rcases lt_or_eq_of_nextDependency? hnext (Nat.le_of_lt_succ hk) hname' hy with hki | rfl
                · exact hclean.grows y (hdone k hki name' y hname' hy)
                · exact hmem
              obtain ⟨w', b, visited', hrest, hfinal⟩ := ih _ (by omega) (h.trans hclean) hdone' rfl
              exact ⟨w', b, visited', hgoes w' _ hrest, hfinal⟩
          | invalid hall hinvalid hstale =>
              have hlast : Rechecks (· = d) w₂ (w₂.modifyDocument d Document.invalidate) :=
                .modifyDocument w₂ d fun x => rfl
              have hlt : d.index < w₂.documents.length := by
                rw [hall.length, h.rechecks.length]
                exact lt_of_dependency (List.mem_of_getElem? hname)
              obtain ⟨d', hreach, hfails⟩ := (h.stale_iff x).1 hstale
              refine ⟨_, false, visited₂, hgoes _ _ (Move.ends_settle.2 ⟨rfl, rfl⟩), .invalid ?_ ?_
                ⟨d', .head hleads hreach, hfails⟩⟩
              · exact ((h.rechecks.mono fun _ _ => trivial).trans hall).trans (hlast.mono fun _ _ => trivial)
              · have hdoc := (document_modifyDocument w₂ Document.invalidate d hlt).trans (if_pos rfl)
                exact congrArg Document.validity hdoc

theorem length_filter_lt {known visited₂ : List DocumentId} (hgrows : ∀ x ∈ visited, x ∈ visited₂) (hknown : d ∈ known)
    (hd : d ∉ visited) (hd' : d ∈ visited₂) :
    (known.filter (· ∉ visited₂)).length < (known.filter (· ∉ visited)).length := by
  have hfilter : known.filter (· ∉ visited₂) = (known.filter (· ∉ visited)).filter (· ∉ visited₂) := by
    rw [List.filter_filter]
    refine List.filter_congr fun x _ => ?_
    by_cases hx : x ∈ visited
    · simp [hx, hgrows x hx]
    · simp [hx]
  rw [hfilter, List.length_filter_lt_length_iff_exists]
  exact ⟨d, List.mem_filter.2 ⟨hknown, by simpa using hd⟩, by simpa using hd'⟩

/-- Every check comes to an end. The induction is on how many documents have not been visited. -/
theorem exists_verdict (known : List DocumentId) (hall : ∀ s name x, w.cached? s name = some x → x ∈ known)
    (hknown : d ∈ known) (id : TaskId) (visited : List DocumentId) :
    ∃ w' b visited', Task.Ends id w ⟨[], .call (.isValid d visited)⟩ w' (.ok (.validity b visited')) ∧
      Verdict w d visited w' b visited' := by
  generalize hleft : (known.filter (· ∉ visited)).length = left
  induction left using Nat.strongRecOn generalizing w d visited with
  | ind left ih =>
      have hbegin (w' : World) (o : Outcome) (h : (Move.isValid w d visited).Ends id w' o) :
          Task.Ends id w ⟨[], .call (.isValid d visited)⟩ w' o := Task.ends_call.2 h
      by_cases hinvalid : (w.document d).validity = .invalid
      · refine ⟨w, false, visited, hbegin _ _ ?_, .invalid (.refl _ w) hinvalid ⟨d, .refl, .inl hinvalid⟩⟩
        rw [Move.isValid, if_pos hinvalid]
        exact Move.ends_settle.2 ⟨rfl, rfl⟩
      · by_cases hvisited : d ∈ visited
        · refine ⟨w, true, visited, hbegin _ _ ?_, .valid (.refl w visited) hvisited⟩
          rw [Move.isValid, if_neg hinvalid, if_pos (List.contains_iff_mem.2 hvisited)]
          exact Move.ends_settle.2 ⟨rfl, rfl⟩
        · have hinner (w₁ : World) (visited₁ : List DocumentId) (x : DocumentId)
              (hclean : Clean w (visited ++ [d]) w₁ visited₁) (hleads : w.Leads d x) : ∃ w' b visited',
                Task.Ends id w₁ ⟨[], .call (.isValid x visited₁)⟩ w' (.ok (.validity b visited')) ∧
                  Verdict w₁ x visited₁ w' b visited' := by
            obtain ⟨name, -, hx⟩ := hleads
            refine ih _ ?_ (fun s name y hy => ?_) (hall _ name x hx) visited₁ rfl
            · subst hleft
              refine length_filter_lt (fun y hy => hclean.grows y ?_) hknown hvisited (hclean.grows d ?_)
              · exact List.mem_append_left _ hy
              · exact List.mem_append_right _ (List.mem_singleton_self d)
            · rw [hclean.rechecks.cached?_eq] at hy
              exact hall s name y hy
          obtain ⟨w', b, visited', hends, hverdict⟩ :=
            exists_verdict_checkFrom hvisited hinvalid hinner (.refl w _) (fun k hk => absurd hk (Nat.not_lt_zero k))
          refine ⟨w', b, visited', hbegin _ _ ?_, hverdict⟩
          rw [Move.isValid, if_neg hinvalid, if_neg fun hmem => hvisited (List.contains_iff_mem.1 hmem)]
          exact hends

theorem mem_of_cached? {s : SourceId} {name : String} (h : w.cached? s name = some d) :
    d ∈ w.sources.flatMap fun source => source.byName.values := by
  have hlt := lt_of_cached? h
  have hsource : w.source s ∈ w.sources := by
    unfold source
    rw [List.getElem?_eq_getElem hlt]
    exact List.getElem_mem hlt
  exact List.mem_flatMap.2 ⟨_, hsource, List.mem_map.2 ⟨_, OrderedMap.mem_entries_of_get? h, rfl⟩⟩

/-- A check that nothing else interferes with comes to an end, and finds the document valid just if nothing is wrong with
it and with the documents that it leads to. Otherwise the document is invalid then. -/
theorem ends_isValid (w : World) (id : TaskId) (d : DocumentId) :
    ∃ w' b visited, Task.Ends id w ⟨[], .call (.isValid d [])⟩ w' (.ok (.validity b visited)) ∧
      Rechecks (fun _ => True) w w' ∧ (b = true ↔ ¬ w.Stale d) ∧
      (b = false → (w'.document d).validity = .invalid) := by
  obtain ⟨w', b, visited, hends, hverdict⟩ :=
    exists_verdict (w := w) (d := d) (d :: w.sources.flatMap fun source => source.byName.values)
      (fun s name x hx => List.mem_cons_of_mem _ (mem_of_cached? hx)) (List.mem_cons_self ..) id []
  refine ⟨w', b, visited, hends, ?_⟩
  cases hverdict with
  | valid h hmem =>
      refine ⟨h.rechecks.mono fun _ _ => trivial, iff_of_true rfl ?_, nofun⟩
      rintro ⟨d', hreach, hfails⟩
      refine h.before d' ?_ List.not_mem_nil hfails
      clear hfails
      induction hreach with
      | refl => exact hmem
      | tail _ hleads ih => exact h.closed _ ih List.not_mem_nil _ hleads
  | invalid h hinvalid hstale => exact ⟨h, iff_of_false nofun (not_not_intro hstale), fun _ => hinvalid⟩

end World

end ScriptedText
