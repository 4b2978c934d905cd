import ScriptedText.Proofs.Engine.Provenance
import ScriptedText.Proofs.Files.Variants

/-!
Which sources have a document. A lookup in one that does not have it comes to nothing else, and other sources do not notice;
a lookup in one that has it gives it, or cannot read it.
-/

namespace ScriptedText

open Relation

namespace Files.Naming

variable {n : Naming} {t : Tree} {name : String} {file : Path}

/-- A file that was found is there. -/
theorem unreadable_of_read (hsound : t.Sound) (hfile : n.fileOf t name = .ok file) {f : Failure}
    (h : read t file name = .error f) : ∃ reason, f = unreadable name reason := by
  have hnot : t.status file ≠ .absent := by
    intro habsent
    have hlists {directory : Path} {c : String} (hlists : t.Lists directory c) (heq : file = directory ++ [c]) : False := by
      obtain ⟨real, bytes, mtime, hstatus⟩ := Tree.status_of_lists hsound hlists fun reason hfailed => by
        rw [← heq, habsent] at hfailed
        cases hfailed
      rw [← heq, habsent] at hstatus
      cases hstatus
    obtain ⟨below, -, hfinds⟩ := finds_of_fileOf hfile
    cases hfinds with
    | file hstatus => cases habsent.symm.trans hstatus
    | default _ hthere _ => exact hlists hthere rfl
    | variant _ hthere _ => exact hlists hthere rfl
  unfold read at h
  split at h
  · cases h
  · cases h
    exact ⟨_, rfl⟩
  · cases h
    exact ⟨_, rfl⟩
  · next habsent => exact absurd habsent hnot

end Files.Naming

/-- A task that checks documents of a kind, and does nothing else. -/
structure Task.ChecksOf (K : DocumentId → Prop) (t : Task) : Prop where
  stack : ∀ f ∈ t.stack, ∃ d, f.checked? = some d ∧ K d
  control : (∃ d visited, t.control = .call (.isValid d visited) ∧ K d) ∨ ∃ r, t.control = .settled (.ok r)

namespace Task.ChecksOf

open World

variable {K : DocumentId → Prop} {w w' : World} {t : Task} {id : TaskId} {m : Move} {rest : List Frame} {o : Outcome}

section moves

variable {d : DocumentId} {visited : List DocumentId}

/-- What a move of such a task does, above the frames that are left. -/
def Goes (K : DocumentId → Prop) (w : World) (m : Move) (rest : List Frame) : Prop :=
  Rechecks K w m.world ∧ Task.ChecksOf K ⟨m.push ++ rest, m.control⟩

variable (hrest : ∀ f ∈ rest, ∃ d, f.checked? = some d ∧ K d)

include hrest

theorem goes_reply (hw : Rechecks K w w') (r : Reply) : Goes K w (.reply w' r) rest := ⟨hw, hrest, .inr ⟨r, rfl⟩⟩

variable (hd : K d)

include hd

omit hrest in
theorem rechecks_modifyDocument {f : Document → Document}
    (hf : ∀ x, f x = { x with validity := (f x).validity, lastCheck := (f x).lastCheck }) :
    Rechecks K w (w.modifyDocument d f) :=
  (Rechecks.modifyDocument w d hf).mono fun _ hx => hx ▸ hd

theorem goes_checkFile : Goes K w (Move.checkFile w d visited) rest := by
  unfold Move.checkFile
  dsimp only
  split
  · exact goes_reply hrest (rechecks_modifyDocument hd fun _ => rfl) _
  · split
    · exact goes_reply hrest (.refl K w) _
    · exact ⟨rechecks_modifyDocument hd fun _ => rfl, List.forall_mem_cons.2 ⟨⟨d, rfl, hd⟩, hrest⟩, .inr ⟨.nothing, rfl⟩⟩

variable (hK : ∀ d d', K d → w.Leads d d' → K d')

include hK

theorem goes_checkFrom (i : Nat) : Goes K w (Move.checkFrom w d visited i) rest := by
  unfold Move.checkFrom
  split
  · next j dep hnext =>
      exact ⟨.refl K w, List.forall_mem_cons.2 ⟨⟨d, rfl, hd⟩, hrest⟩,
        .inl ⟨dep, visited, rfl, hK d dep hd (leads_of_nextDependency? hnext)⟩⟩
  · exact goes_checkFile hrest hd

theorem goes_isValid : Goes K w (Move.isValid w d visited) rest := by
  unfold Move.isValid
  split
  · exact goes_reply hrest (.refl K w) _
  · split
    · exact goes_reply hrest (.refl K w) _
    · exact goes_checkFrom hrest hd hK 0

end moves

theorem step (h : t.ChecksOf K) (hK : ∀ d d', K d → w.Leads d d' → K d') (ha : t.advance w id = some (m, rest)) :
    Goes K w m rest := by
  obtain ⟨stack, control⟩ := t
  obtain ⟨hstack, ⟨d, visited, hcontrol, hd⟩ | ⟨r, hcontrol⟩⟩ := h
  · cases hcontrol
    cases ha
    exact goes_isValid hstack hd hK
  · cases hcontrol
    cases stack with
    | nil => cases ha
    | cons f below =>
        cases ha
        obtain ⟨⟨d, hf, hd⟩, hrest⟩ := List.forall_mem_cons.1 hstack
        cases f with
        | dependency x i =>
            cases hf
            cases r with
            | validity valid visited =>
                cases valid with
                | true => exact goes_checkFrom hrest hd hK (i + 1)
                | false => exact goes_reply hrest (rechecks_modifyDocument hd fun _ => rfl) _
            | _ => exact goes_reply hrest (.refl K w) _
        | fileTime x visited =>
            cases hf
            exact goes_reply hrest (rechecks_modifyDocument hd fun _ => rfl) _
        | _ => cases hf

/-- By induction on the run: where documents of the kind lead to such ones only, no others are touched. -/
theorem ends (h : t.ChecksOf K) (hK : ∀ d d', K d → w.Leads d d' → K d') (hends : Task.Ends id w t w' o) :
    Rechecks K w w' := by
  induction hends with
  | settled w o => exact .refl K w
  | step ha _ ih =>
      obtain ⟨hfirst, hnext⟩ := h.step hK ha
      exact hfirst.trans (ih hnext fun d d' hd hleads => hK d d' hd (hfirst.leads_eq ▸ hleads))

end Task.ChecksOf

namespace World

/-- The source has the document: it keeps one under the name that is good still, or that comes from no file, or there is a
file for the name, or it cannot be said whether there is. -/
inductive Offers (w : World) (s : SourceId) (name : String) : Prop
  | kept {d : DocumentId} (hd : w.cached? s name = some d) (hgood : ¬ w.Stale d ∨ (w.document d).file = none)
  | filed {naming : Files.Naming} {interval : Int} (hstorage : (w.source s).storage = .files naming interval)
      (hfile : naming.fileOf w.tree name ≠ .error (Files.Naming.missing name))

/-- Nothing has happened that the source would notice. -/
structure Bypasses (s : SourceId) (w w' : World) : Prop where
  clock : w'.clock = w.clock
  tree : w'.tree = w.tree
  source : w'.source s = w.source s
  length : w'.documents.length = w.documents.length
  document : ∀ d, w.Housed s d → w'.document d = w.document d

variable {w w' w₁ w₂ : World} {s s' : SourceId} {name : String} {d x : DocumentId} {K : DocumentId → Prop} {id : TaskId}
  {o : Outcome} {f : Failure}

theorem source_evict_of_ne (hs : s ≠ s') (w : World) (d : DocumentId) : (w.evict s' d).source s = w.source s :=
  (source_modifySource_of_ne _ _ hs).trans (source_modifySource_of_ne w _ hs)

namespace Bypasses

theorem refl (s : SourceId) (w : World) : Bypasses s w w := ⟨rfl, rfl, rfl, rfl, fun _ _ => rfl⟩

theorem housed (h : w.Bypasses s w') (hd : w.Housed s d) : w'.Housed s d :=
  ⟨h.length.symm ▸ hd.1, h.document d hd ▸ hd.2⟩

theorem trans (h : w.Bypasses s w₁) (h' : w₁.Bypasses s w₂) : w.Bypasses s w₂ where
  clock := h'.clock.trans h.clock
  tree := h'.tree.trans h.tree
  source := h'.source.trans h.source
  length := h'.length.trans h.length
  document d hd := (h'.document d (h.housed hd)).trans (h.document d hd)

theorem of_rechecks (h : Rechecks K w w') (hK : ∀ d, K d → ¬ w.Housed s d) : w.Bypasses s w' where
  clock := h.clock_eq
  tree := by rw [h.world]
  source := h.source_eq s
  length := h.length
  document d hd := h.others d fun hin => hK d hin hd

theorem evict (hs : s ≠ s') (w : World) (d : DocumentId) : w.Bypasses s (w.evict s' d) :=
  ⟨rfl, rfl, source_evict_of_ne hs w d, rfl, fun _ _ => rfl⟩

variable (h : w.Bypasses s w') (hkept : ∀ name d, w.cached? s name = some d → w.Housed s d)

include h in
theorem cached?_eq (name : String) : w'.cached? s name = w.cached? s name := by
  unfold cached?
  rw [h.source]

include h in
theorem leads_iff (hd : w.Housed s d) : w'.Leads d x ↔ w.Leads d x := by
  unfold Leads
  simp only [h.document d hd, hd.2, h.cached?_eq]

include h in
theorem fails_iff (hd : w.Housed s d) : w'.Fails d ↔ w.Fails d := by
  have hunchanged : w'.isUnchanged d = w.isUnchanged d :=
    isUnchanged_of_eq h.tree (congrArg _ (h.document d hd)) (congrArg _ (h.document d hd))
  unfold Fails
  rw [h.document d hd, hd.2, h.source, h.clock, hunchanged]

include hkept in
theorem housed_of_leads (hd : w.Housed s d) (hleads : w.Leads d x) : w.Housed s x := by
  obtain ⟨name, -, hx⟩ := hleads
  rw [hd.2] at hx
  exact hkept name x hx

include h hkept in
theorem stale_iff (hd : w.Housed s d) : w'.Stale d ↔ w.Stale d := by
  constructor
  · rintro ⟨x, hreach, hfails⟩
    have hreached : ReflTransGen w.Leads d x ∧ w.Housed s x := by
      clear hfails
      induction hreach with
      | refl => exact ⟨.refl, hd⟩
      | tail _ hleads ih =>
          have hstep := (h.leads_iff ih.2).1 hleads
          exact ⟨ih.1.tail hstep, housed_of_leads hkept ih.2 hstep⟩
    exact ⟨x, hreached.1, (h.fails_iff hreached.2).1 hfails⟩
  · rintro ⟨x, hreach, hfails⟩
    have hreached : ReflTransGen w'.Leads d x ∧ w.Housed s x := by
      clear hfails
      induction hreach with
      | refl => exact ⟨.refl, hd⟩
      | tail _ hleads ih => exact ⟨ih.1.tail ((h.leads_iff ih.2).2 hleads), housed_of_leads hkept ih.2 hleads⟩
    exact ⟨x, hreached.1, (h.fails_iff hreached.2).2 hfails⟩

include h hkept in
theorem offers_iff (name : String) : w'.Offers s name ↔ w.Offers s name := by
  constructor
  · rintro (⟨hd, hgood⟩ | ⟨hstorage, hfile⟩)
    · rw [h.cached?_eq] at hd
      have hhoused := hkept name _ hd
      rw [h.stale_iff hkept hhoused, h.document _ hhoused] at hgood
      exact .kept hd hgood
    · rw [h.source] at hstorage
      rw [h.tree] at hfile
      exact .filed hstorage hfile
  · rintro (⟨hd, hgood⟩ | ⟨hstorage, hfile⟩)
    · have hhoused := hkept name _ hd
      rw [← h.stale_iff hkept hhoused, ← h.document _ hhoused] at hgood
      exact .kept ((h.cached?_eq name).trans hd) hgood
    · exact .filed (h.source.symm ▸ hstorage) (h.tree.symm ▸ hfile)

end Bypasses

/-- What a lookup leaves behind that came to nothing. -/
structure Misses (s : SourceId) (name : String) (w w' : World) : Prop where
  homegrown : w'.Homegrown
  tree : w'.tree = w.tree
  not_offers : ¬ w'.Offers s name
  bypasses : ∀ s', s' ≠ s → w.Bypasses s' w'
  stores : ∀ s' d, w'.Stores s' d → w.Stores s' d

theorem stores_of_evict (h : (w.evict s d).Stores s' x) : w.Stores s' x :=
  ((Stows.evict w s d).stores x h).resolve_right fun hnew => Nat.not_lt_of_le hnew.1 hnew.2

theorem Homegrown.housed_of_leads (h : w.Homegrown) (hd : w.Housed s d) (hleads : w.Leads d x) : w.Housed s x :=
  Bypasses.housed_of_leads (fun name d hd => (h.name s name d hd).housed) hd hleads

/-- A check keeps to the source that the document is in. -/
theorem Homegrown.rechecks_of_ends (h : w.Homegrown) (hd : w.Housed s d) {visited : List DocumentId}
    (hends : Task.Ends id w ⟨[], .call (.isValid d visited)⟩ w' o) : Rechecks (w.Housed s) w w' := by
  have hchecks : Task.ChecksOf (w.Housed s) ⟨[], .call (.isValid d visited)⟩ :=
    ⟨fun _ hf => absurd hf List.not_mem_nil, .inl ⟨d, visited, rfl, hd⟩⟩
  exact hchecks.ends (fun x x' hx hleads => h.housed_of_leads hx hleads) hends

section missing

variable {naming : Files.Naming} {interval : Int} (hstorage : (w.source s).storage = .files naming interval)
  (hfile : naming.fileOf w.tree name = .error (Files.Naming.missing name))

include hstorage hfile

theorem ends_afterResolving_of_missing (id : TaskId) :
    (Move.afterResolving w s name).Ends id w (.error (Files.Naming.missing name)) := by
  unfold Move.afterResolving
  rw [hstorage]
  dsimp only
  rw [hfile]
  exact Move.ends_settle.2 ⟨rfl, rfl⟩

theorem ends_afterNamed_of_missing (hsome : (w.document d).file ≠ none) (id : TaskId) :
    (Move.afterNamed w s name d false).Ends id (w.evict s d) (.error (Files.Naming.missing name)) := by
  unfold Move.afterNamed
  rw [if_neg Bool.false_ne_true, hstorage]
  dsimp only
  rw [if_neg (by rwa [Option.isNone_iff_eq_none])]
  exact Task.ends_frame.2
    (ends_afterResolving_of_missing (w := w.evict s d) (((ages_evict w s d).storage s).trans hstorage) hfile id)

/-- A document that was kept has gone, and its file with it. -/
theorem misses_of_evict (hhomegrown : (w₁.evict s d).Homegrown) (hrechecks : Rechecks (w.Housed s) w w₁)
    (hname : w.cached? s name = some d) : Misses s name w (w₁.evict s d) where
  homegrown := hhomegrown
  tree := by
    change w₁.tree = w.tree
    rw [hrechecks.world]
  not_offers := by
    have hname₁ : w₁.cached? s name = some d := (hrechecks.cached?_eq s name).trans hname
    rintro (⟨hd, -⟩ | ⟨hstorage', hfile'⟩)
    · cases (cached?_evict_of_cached hname₁).symm.trans hd
    · rw [(ages_evict w₁ s d).storage, hrechecks.source_eq, hstorage] at hstorage'
      cases hstorage'
      change naming.fileOf w₁.tree name ≠ _ at hfile'
      rw [hrechecks.world] at hfile'
      exact hfile' hfile
  bypasses s' hs := by
    have hothers (x : DocumentId) (hx : w.Housed s x) (hx' : w.Housed s' x) : False := hs (hx'.2.symm.trans hx.2)
    exact (Bypasses.of_rechecks hrechecks hothers).trans (.evict hs w₁ d)
  stores s' x hx := by
    have hkept := stores_of_evict hx
    rwa [Stores, hrechecks.source_eq] at hkept

end missing

/-- Where a source does not have the document, a lookup says so, and what other sources have is not touched. -/
theorem Homegrown.ends_of_not_offers (h : w.Homegrown) (hnot : ¬ w.Offers s name) (id : TaskId) :
    ∃ w', Task.Ends id w ⟨[], .call (.getDocument s name)⟩ w' (.error (Files.Naming.missing name)) ∧ Misses s name w w' := by
  have hfile {naming : Files.Naming} {interval : Int} (hstorage : (w.source s).storage = .files naming interval) :
      naming.fileOf w.tree name = .error (Files.Naming.missing name) :=
    Classical.not_not.1 fun hfile => hnot (.filed hstorage hfile)
  cases hname : w.cached? s name with
  | none =>
      refine ⟨w, Task.ends_call.2 ?_, h, rfl, hnot, fun s' _ => .refl s' w, fun _ _ hx => hx⟩
      rw [Move.begin, Move.getDocument, hname]
      cases hstorage : (w.source s).storage with
      | memory identifier => exact Move.ends_settle.2 ⟨rfl, rfl⟩
      | files naming interval => exact Task.ends_frame.2 (ends_afterResolving_of_missing hstorage (hfile hstorage) id)
  | some d =>
      have hfits := h.name s name d hname
      have hstale : w.Stale d := Classical.not_not.1 fun hgood => hnot (.kept hname (.inl hgood))
      have hsome : (w.document d).file ≠ none := fun hnone => hnot (.kept hname (.inr hnone))
      obtain ⟨naming, interval, hstorage⟩ : w.HasFiles s := by
        cases hstorage : (w.source s).storage with
        | memory identifier => exact absurd (hfits.memory ⟨identifier, hstorage⟩) hsome
        | files naming interval => exact ⟨naming, interval, hstorage⟩
      obtain ⟨w₁, b, visited, hends₁, hchecked, hb, -⟩ := ends_isValid w id d
      have hb : b = false := Bool.eq_false_iff.2 fun htrue => hb.1 htrue hstale
      subst hb
      have hends : Task.Ends id w ⟨[], .call (.getDocument s name)⟩ (w₁.evict s d) (.error (Files.Naming.missing name)) := by
        have hstorage₁ : (w₁.source s).storage = .files naming interval := by rw [hchecked.source_eq, hstorage]
        have hfile₁ : naming.fileOf w₁.tree name = .error (Files.Naming.missing name) := by
          rw [hchecked.world]
          exact hfile hstorage
        have hsome₁ : (w₁.document d).file ≠ none := by rwa [hchecked.file_eq]
        exact ends_getDocument_of_cached hname hends₁ (ends_afterNamed_of_missing hstorage₁ hfile₁ hsome₁ id)
      exact ⟨w₁.evict s d, hends, misses_of_evict hstorage (hfile hstorage) (h.chores (lookup_of_ends hends).chores)
        (h.rechecks_of_ends hfits.housed hends₁) hname⟩

section reading

variable {naming : Files.Naming} {interval : Int} {file : Files.Path} (hsound : w.tree.Sound)

include hsound

theorem unreadable_of_afterReading (hfile : naming.fileOf w.tree name = .ok file)
    (h : (Move.afterReading w s name file).Ends id w' (.error f)) : ∃ reason, f = Files.Naming.unreadable name reason := by
  unfold Move.afterReading at h
  split at h
  · next f' hread =>
      obtain ⟨-, hf⟩ := Move.ends_settle.1 h
      cases hf
      exact Files.Naming.unreadable_of_read hsound hfile hread
  · obtain ⟨-, hf⟩ := Move.ends_settle.1 h
    cases hf

theorem unreadable_of_afterResolving (hstorage : (w.source s).storage = .files naming interval)
    (hfile : naming.fileOf w.tree name ≠ .error (Files.Naming.missing name))
    (h : (Move.afterResolving w s name).Ends id w' (.error f)) : ∃ reason, f = Files.Naming.unreadable name reason := by
  unfold Move.afterResolving at h
  rw [hstorage] at h
  dsimp only at h
  split at h
  · next f' herror =>
      obtain ⟨-, hf⟩ := Move.ends_settle.1 h
      cases hf
      exact (Files.Naming.fault_of_fileOf herror).resolve_left fun hmissing => hfile (hmissing ▸ herror)
  · next file hok =>
      split at h
      · obtain ⟨w₁, b, visited, hchecks, -, -, hrest⟩ := exists_checks_of_ends h
        have htree₁ : w₁.tree = w.tree := by rw [hchecks.rechecks.world]
        cases b with
        | true =>
            obtain ⟨-, hf⟩ := Move.ends_settle.1 hrest
            cases hf
        | false =>
            have hok₁ : naming.fileOf w₁.tree name = .ok file := htree₁.symm ▸ hok
            exact unreadable_of_afterReading (w := w₁.evict s _) (htree₁.symm ▸ hsound) hok₁ (Task.ends_frame.1 hrest)
      · exact unreadable_of_afterReading hsound hok (Task.ends_frame.1 h)

theorem unreadable_of_afterNamed (hoffers : (w.document d).file = none ∨
      ∃ naming interval, (w.source s).storage = .files naming interval ∧
        naming.fileOf w.tree name ≠ .error (Files.Naming.missing name))
    (h : (Move.afterNamed w s name d false).Ends id w' (.error f)) : ∃ reason, f = Files.Naming.unreadable name reason := by
  unfold Move.afterNamed at h
  rw [if_neg Bool.false_ne_true] at h
  split at h
  · obtain ⟨-, hf⟩ := Move.ends_settle.1 h
    cases hf
  · dsimp only at h
    split at h
    · obtain ⟨-, hf⟩ := Move.ends_settle.1 h
      cases hf
    · next hsome =>
        rw [Option.isNone_iff_eq_none] at hsome
        obtain ⟨naming, interval, hstorage, hfile⟩ := hoffers.resolve_left hsome
        exact unreadable_of_afterResolving (w := w.evict s d) hsound (((ages_evict w s d).storage s).trans hstorage) hfile
          (Task.ends_frame.1 h)

/-- Where a source has the document, a lookup that fails could not read it. -/
theorem unreadable_of_offers (hoffers : w.Offers s name)
    (h : Task.Ends id w ⟨[], .call (.getDocument s name)⟩ w' (.error f)) : ∃ reason, f = Files.Naming.unreadable name reason := by
  have hbegin : (Move.getDocument w s name).Ends id w' (.error f) := Task.ends_call.1 h
  unfold Move.getDocument at hbegin
  split at hbegin
  · next d hname =>
      obtain ⟨w₁, b, visited, hends₁, hchecked, hb, -⟩ := ends_isValid w id d
      have hrest : (Move.afterNamed w₁ s name d b).Ends id w' (.error f) := (Move.ends_call_of_ends hends₁).1 hbegin
      cases b with
      | true =>
          obtain ⟨-, hf⟩ := Move.ends_settle.1 hrest
          cases hf
      | false =>
          have hstale : w.Stale d := Classical.not_not.1 fun hgood => nomatch hb.2 hgood
          have htree : w₁.tree = w.tree := by rw [hchecked.world]
          refine unreadable_of_afterNamed (htree.symm ▸ hsound) ?_ hrest
          rw [hchecked.file_eq, hchecked.source_eq, htree]
          obtain ⟨hd, hgood⟩ | ⟨hstorage, hfile⟩ := hoffers
          · cases hname.symm.trans hd
            exact .inl (hgood.resolve_left (not_not_intro hstale))
          · exact .inr ⟨_, _, hstorage, hfile⟩
  · next identifier hname hmemory =>
      obtain ⟨hd, -⟩ | ⟨hstorage, -⟩ := hoffers
      · cases hname.symm.trans hd
      · cases hmemory.symm.trans hstorage
  · next naming interval hname hstorage' =>
      obtain ⟨hd, -⟩ | ⟨hstorage, hfile⟩ := hoffers
      · cases hname.symm.trans hd
      · exact unreadable_of_afterResolving hsound hstorage hfile (Task.ends_frame.1 hbegin)

end reading

end World

end ScriptedText
