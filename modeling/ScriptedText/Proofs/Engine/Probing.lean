import ScriptedText.Proofs.Engine.Seeking
import ScriptedText.Proofs.Engine.Staleness

/-!
Lookups under a name in memory whose document leads to one that is invalid. However the checks take turns, each of them
finds that out, and the first one that is done renews the document.
-/

namespace ScriptedText

open Relation World

inductive IsRoot (s : SourceId) (name : String) (d : DocumentId) : Frame → DocumentId → Prop
  | named : IsRoot s name d (.named s name d) d

/-- What the visited documents lead to was visited as well, or is being checked, as far as their checks have come. -/
structure Traces (s : SourceId) (name : String) (d : DocumentId) (w : World) (visited : List DocumentId) (x : DocumentId)
    (fs : List Frame) : Prop where
  awaits : Awaits (w.Housed s) (fun _ => False) (IsRoot s name d) x fs
  clean : ∀ v ∈ visited, (w.document v).validity ≠ .invalid
  below : ∀ v i, .dependency v i ∈ fs → v ∈ visited ∧ ∀ k ≤ i, ∀ other y, (w.document v).dependencies[k]? = some other →
    w.cached? s other = some y → y ∈ visited ∨ y = x
  done : ∀ v ∈ visited, (∀ i, .dependency v i ∉ fs) → ∀ y, w.Leads v y → y ∈ visited ∨ y = x

/-- The check of `v` has come to place `i` of its dependencies. -/
structure Arrives (s : SourceId) (name : String) (d : DocumentId) (w : World) (visited : List DocumentId) (v : DocumentId)
    (i : Nat) (fs : List Frame) : Prop where
  awaits : Awaits (w.Housed s) (fun _ => False) (IsRoot s name d) v fs
  mem : v ∈ visited
  clean : ∀ u ∈ visited, (w.document u).validity ≠ .invalid
  before : ∀ k < i, ∀ other y, (w.document v).dependencies[k]? = some other → w.cached? s other = some y → y ∈ visited
  below : ∀ u i, .dependency u i ∈ fs → u ∈ visited ∧ ∀ k ≤ i, ∀ other y, (w.document u).dependencies[k]? = some other →
    w.cached? s other = some y → y ∈ visited
  done : ∀ u ∈ visited, u ≠ v → (∀ i, .dependency u i ∉ fs) → ∀ y, w.Leads u y → y ∈ visited

/-- A task that checks the document, in a world `w` where nothing but checks was done since `w₀`. -/
inductive Probes (s : SourceId) (name : String) (d : DocumentId) (below : List Frame) (w₀ w : World) : Task → Prop
  | asks : Probes s name d below w₀ w ⟨below, .call (.getDocument s name)⟩
  | checks {visited : List DocumentId} {x : DocumentId} {fs : List Frame} (h : Traces s name d w₀ visited x fs) :
      Probes s name d below w₀ w ⟨fs ++ below, .call (.isValid x visited)⟩
  | valid {visited : List DocumentId} {x : DocumentId} {fs : List Frame} (h : Traces s name d w₀ visited x fs)
      (hx : x ∈ visited) : Probes s name d below w₀ w ⟨fs ++ below, .settled (.ok (.validity true visited))⟩
  | invalid {visited : List DocumentId} {x : DocumentId} {fs : List Frame}
      (h : Awaits (w₀.Housed s) (fun _ => False) (IsRoot s name d) x fs) (hx : (w.document x).validity = .invalid) :
      Probes s name d below w₀ w ⟨fs ++ below, .settled (.ok (.validity false visited))⟩

/-- Nothing but checks was done since `w₀`, and no invalid document was taken for valid. -/
structure World.Waits (w₀ w : World) : Prop where
  rechecks : Rechecks (fun _ => True) w₀ w
  ages : w₀.Ages w

/-- In memory, a document under the name leads to one that is invalid. -/
structure World.Spoilt (s : SourceId) (name : String) (d : DocumentId) (w : World) : Prop where
  memory : ∃ identifier, (w.source s).storage = .memory identifier
  asked : Document.isInFlow name = false
  kept : ∀ other d, w.cached? s other = some d → w.Housed s d
  untaken : w.Untaken s
  cached : w.cached? s name = some d
  stale : ∃ x, ReflTransGen w.Leads d x ∧ (w.document x).validity = .invalid

variable {s : SourceId} {name : String} {d x : DocumentId} {below rest : List Frame} {w₀ w : World} {fs : List Frame}
  {visited : List DocumentId} {m : Move} {id : TaskId} {t : Task}

namespace World

section renew

variable (hname : Document.isInFlow name = false) (hd : w.cached? s name = some d)

include hname hd

theorem renew_of_cached : w.renew s name d = ((((w.emit (.evicted name .invalid)).dropInFlow s d).createDocument s name
    (w.document d).text (w.document d).tag none).1.modifySource s fun source =>
      { source with byName := source.byName.insert name ⟨w.documents.length⟩ }, ⟨w.documents.length⟩) := by
  have hcached : (((w.emit (.evicted name .invalid)).dropInFlow s d).createDocument s name
      (w.document d).text (w.document d).tag none).1.cached? s name = some d :=
    (cached?_dropInFlow_of_not hname (w.emit (.evicted name .invalid)) s d).trans hd
  unfold World.renew
  dsimp only
  rw [if_pos]
  · rfl
  · exact hcached

theorem cached?_renew (other : String) : (w.renew s name d).1.cached? s other =
    if other = name then some ⟨w.documents.length⟩ else (w.dropInFlow s d).cached? s other := by
  rw [renew_of_cached hname hd]
  apply cached?_insert
  exact (tidies_dropInFlow s w d).sources ▸ lt_of_cached? hd

theorem documents_renew : ∃ text tag now, (w.renew s name d).1.documents =
    w.documents ++ [{ name, text, tag, timestamp := now, source := s, lastCheck := now }] := by
  rw [renew_of_cached hname hd]
  exact ⟨_, _, _, rfl⟩

/-- Nothing is wrong with the document that replaces an invalid one in memory. -/
theorem sound_renew {identifier : String} (hmemory : (w.source s).storage = .memory identifier) :
    (w.renew s name d).1.Sound s ⟨w.documents.length⟩ ∧
      ((w.renew s name d).1.document ⟨w.documents.length⟩).dependencies = [] := by
  obtain ⟨text, tag, now, hdocuments⟩ := documents_renew hname hd
  have hdocument : (w.renew s name d).1.document ⟨w.documents.length⟩ =
      { name, text, tag, timestamp := now, source := s, lastCheck := now } := by
    simp [document, hdocuments]
  have hinterval : ((w.renew s name d).1.source s).interval = -1 := by
    simp [Source.interval, (ages_renew w s name d).storage, hmemory]
  refine ⟨⟨⟨?_, ?_⟩, ?_, .inl hinterval⟩, ?_⟩
  · simp [hdocuments]
  all_goals simp [hdocument]

end renew

end World

namespace Traces

theorem not_root {f : Frame} (h₀ : w₀.Spoilt s name d) (h : Traces s name d w₀ visited x [f]) (hx : x ∈ visited) :
    False := by
  obtain ⟨y, hreach, hinvalid⟩ := h₀.stale
  have hroot : x = d := by
    cases h.awaits with
    | root _ hf => 
        cases hf
        rfl
    | dependency _ _ h => cases h
  have hnot (v : DocumentId) (i : Nat) : Frame.dependency v i ∉ [f] := by
    intro hmem
    cases List.mem_singleton.1 hmem
    cases h.awaits with
    | root _ hf => cases hf
    | dependency _ _ h => cases h
  -- No document waits here but `d`, so all that it leads to was visited, the invalid one too.
  have hall (v : DocumentId) (hv : ReflTransGen w₀.Leads d v) : v ∈ visited := by
    induction hv with
    | refl => exact hroot ▸ hx
    | tail _ hleads ih =>
        rcases h.done _ ih (hnot _) _ hleads with hmem | rfl
        · exact hmem
        · exact hx
  exact h.clean y (hall y hreach) hinvalid

theorem enter (h : Traces s name d w visited x fs) (hvalid : (w.document x).validity ≠ .invalid) :
    Arrives s name d w (visited ++ [x]) x 0 fs where
  awaits := h.awaits
  mem := List.mem_append_right _ (List.mem_singleton_self x)
  clean u hu := by
    rcases List.mem_append.1 hu with hu | hu
    · exact h.clean u hu
    · exact List.mem_singleton.1 hu ▸ hvalid
  before k hk := absurd hk (Nat.not_lt_zero k)
  below u i hmem := by
    obtain ⟨hu, hbefore⟩ := h.below u i hmem
    refine ⟨List.mem_append_left _ hu, fun k hk other y hother hy => List.mem_append.2 ?_⟩
    exact (hbefore k hk other y hother hy).imp_right List.mem_singleton.2
  done u hu hne hnot y hy := by
    have hold := (List.mem_append.1 hu).resolve_right fun heq => hne (List.mem_singleton.1 heq)
    exact List.mem_append.2 ((h.done u hold hnot y hy).imp_right List.mem_singleton.2)

theorem pop {v : DocumentId} {i : Nat} (h : Traces s name d w visited x (.dependency v i :: fs)) (hx : x ∈ visited) :
    Arrives s name d w visited v (i + 1) fs where
  awaits := by
    cases h.awaits with
    | root _ hf => cases hf
    | dependency _ _ h => exact h
  mem := (h.below v i (List.mem_cons_self ..)).1
  clean := h.clean
  before k hk other y hother hy := by
    rcases (h.below v i (List.mem_cons_self ..)).2 k (Nat.le_of_lt_succ hk) other y hother hy with hmem | rfl
    · exact hmem
    · exact hx
  below u j hmem := by
    obtain ⟨hu, hbefore⟩ := h.below u j (List.mem_cons_of_mem _ hmem)
    refine ⟨hu, fun k hk other y hother hy => ?_⟩
    rcases hbefore k hk other y hother hy with hmem | rfl
    · exact hmem
    · exact hx
  done u hu hne hnot y hy := by
    have hnot' (j : Nat) : Frame.dependency u j ∉ Frame.dependency v i :: fs := by
      intro hmem
      rcases List.mem_cons.1 hmem with heq | hmem
      · cases heq
        exact hne rfl
      · exact hnot j hmem
    rcases h.done u hu hnot' y hy with hmem | rfl
    · exact hmem
    · exact hx

end Traces

namespace Arrives

variable {v : DocumentId} {i : Nat}

theorem next {j : Nat} (h : Arrives s name d w visited v i fs) (hkept : w.Housed s x)
    (hnext : w.nextDependency? v i = some (j, x)) : Traces s name d w visited x (.dependency v j :: fs) := by
  refine ⟨.dependency hkept nofun h.awaits, h.clean, fun u k hmem => ?_, fun u hu hnot y hy => .inl ?_⟩
  · rcases List.mem_cons.1 hmem with heq | hmem
    · cases heq
      refine ⟨h.mem, fun l hl other y hother hy => ?_⟩
      exact (lt_or_eq_of_nextDependency? hnext hl hother (h.awaits.known.2.symm ▸ hy)).imp_left fun hli =>
        h.before l hli other y hother hy
    · obtain ⟨hu, hbefore⟩ := h.below u k hmem
      exact ⟨hu, fun l hl other y hother hy => .inl (hbefore l hl other y hother hy)⟩
  · refine h.done u hu ?_ (fun k hmem => hnot k (List.mem_cons_of_mem _ hmem)) y hy
    rintro rfl
    exact hnot j (List.mem_cons_self ..)

theorem finish (h : Arrives s name d w visited v i fs) (hnone : w.nextDependency? v i = none) :
    Traces s name d w visited v fs := by
  refine ⟨h.awaits, h.clean, fun u k hmem => ?_, fun u hu hnot y hy => .inl ?_⟩
  · obtain ⟨hu, hbefore⟩ := h.below u k hmem
    exact ⟨hu, fun l hl other y hother hy => .inl (hbefore l hl other y hother hy)⟩
  · by_cases heq : u = v
    · subst heq
      obtain ⟨other, hother, hy'⟩ := (leads_iff h.awaits.known).1 hy
      obtain ⟨k, hk⟩ := List.mem_iff_getElem?.1 hother
      by_cases hlt : k < i
      · exact h.before k hlt other y hk hy'
      · have hnot := eq_none_of_nextDependency? hnone (Nat.le_of_not_lt hlt) hk
        rw [h.awaits.known.2] at hnot
        cases hnot.symm.trans hy'
    · exact h.done u hu heq hnot y hy

end Arrives

theorem World.Waits.modifyDocument (hw : w₀.Waits w) (d : DocumentId) {f : Document → Document}
    (hf : ∀ x, f x = { x with validity := (f x).validity, lastCheck := (f x).lastCheck })
    (hages : (w.document d).Ages (f (w.document d))) : w₀.Waits (w.modifyDocument d f) :=
  ⟨hw.rechecks.trans ((Rechecks.modifyDocument w d hf).mono fun _ _ => trivial), hw.ages.trans (.modifyDocument d hages)⟩

theorem Probes.ages {w' : World} (h : Probes s name d below w₀ w t) (hages : w.Ages w') :
    Probes s name d below w₀ w' t := by
  cases h with
  | asks => exact .asks
  | checks h => exact .checks h
  | valid h hx => exact .valid h hx
  | invalid h hx => exact .invalid h (hages.invalid hx)

theorem probes_afterDependency (hw : w₀.Waits w) {v : DocumentId} {i : Nat}
    (h : Awaits (w₀.Housed s) (fun _ => False) (IsRoot s name d) v fs) :
    w₀.Waits (Move.afterDependency w v i false visited).world ∧
      Probes s name d below w₀ (Move.afterDependency w v i false visited).world
        ⟨fs ++ below, (Move.afterDependency w v i false visited).control⟩ := by
  refine ⟨hw.modifyDocument v (fun _ => rfl) (Document.ages_invalidate _), .invalid h ?_⟩
  have hlt : v.index < w.documents.length := hw.rechecks.length ▸ h.known.1
  exact congrArg Document.validity ((document_modifyDocument w _ v hlt).trans (if_pos rfl))

section steps

variable (h₀ : w₀.Spoilt s name d) (hw : w₀.Waits w)

include h₀ hw

theorem probes_checkFrom {v : DocumentId} {i : Nat} (h : Arrives s name d w₀ visited v i fs)
    (hclears : w.Clears v i → (w.document v).validity ≠ .invalid) :
    w₀.Waits (Move.checkFrom w v visited i).world ∧ Probes s name d below w₀ (Move.checkFrom w v visited i).world
      ⟨(Move.checkFrom w v visited i).push ++ (fs ++ below), (Move.checkFrom w v visited i).control⟩ := by
  have hsame := hw.rechecks.nextDependency?_eq v i
  unfold Move.checkFrom
  cases hnext : w₀.nextDependency? v i with
  | some next =>
      obtain ⟨j, x⟩ := next
      rw [hsame, hnext]
      obtain ⟨other, -, hx⟩ := (leads_iff h.awaits.known).1 (leads_of_nextDependency? hnext)
      have htraces := h.next (h₀.kept other x hx) hnext
      exact ⟨hw, .checks htraces⟩
  | none =>
      have hinterval : (w.source (w.document v).source).interval = -1 := by
        obtain ⟨identifier, hmemory⟩ := h₀.memory
        rw [hw.rechecks.source_eq, hw.rechecks.home_eq, h.awaits.known.2]
        unfold Source.interval
        rw [hmemory]
      have hvalid := hclears ⟨hsame.trans hnext, .inr hinterval⟩
      rw [hsame, hnext]
      unfold Move.checkFile
      dsimp only
      rw [if_pos (by simp [hinterval])]
      exact ⟨hw.modifyDocument v (fun _ => rfl) (Document.ages_validate hvalid), .valid (h.finish hnext) h.mem⟩

theorem probes_isValid (h : Traces s name d w₀ visited x fs) :
    w₀.Waits (Move.isValid w x visited).world ∧ Probes s name d below w₀ (Move.isValid w x visited).world
      ⟨(Move.isValid w x visited).push ++ (fs ++ below), (Move.isValid w x visited).control⟩ := by
  unfold Move.isValid
  split
  · next hinvalid => exact ⟨hw, .invalid h.awaits hinvalid⟩
  · next hvalid =>
      split
      · next hmem => exact ⟨hw, .valid h (List.contains_iff_mem.1 hmem)⟩
      · exact probes_checkFrom h₀ hw (h.enter fun hinvalid => hvalid (hw.ages.invalid hinvalid)) fun _ => hvalid

/-- A step of a check, or the first one is done and renews the document. -/
theorem Probes.advance (h : Probes s name d below w₀ w t) (ha : t.advance w id = some (m, rest))
    (hfinal : ∀ d, t.Passes w d → (w.document d).validity ≠ .invalid) :
    (w₀.Waits m.world ∧ Probes s name d below w₀ m.world ⟨m.push ++ rest, m.control⟩) ∨
      ((w.document d).validity = .invalid ∧ rest = below ∧
        m = .reply (w.renew s name d).1 (.document (w.renew s name d).2)) := by
  cases h with
  | asks =>
      cases ha
      have hcached : w.cached? s name = some d := (hw.rechecks.cached?_eq s name).trans h₀.cached
      refine .inl ?_
      change w₀.Waits (Move.getDocument w s name).world ∧ Probes s name d below w₀ (Move.getDocument w s name).world
        ⟨(Move.getDocument w s name).push ++ below, (Move.getDocument w s name).control⟩
      unfold Move.getDocument
      rw [hcached]
      have htraces : Traces s name d w₀ [] d [.named s name d] := by
        refine ⟨.root (h₀.kept name d h₀.cached) .named, nofun, ?_, nofun⟩
        intro v i hmem
        cases List.mem_singleton.1 hmem
      exact ⟨hw, .checks htraces⟩
  | checks h =>
      cases ha
      exact .inl (probes_isValid h₀ hw h)
  | @valid visited x fs h hx =>
      cases fs with
      | nil => cases h.awaits
      | cons f fs =>
          have hawaits := h.awaits
          cases hawaits with
          | root _ hf => exact (h.not_root h₀ hx).elim
          | @dependency v _ i _ _ _ _ =>
              cases ha
              exact .inl (probes_checkFrom h₀ hw (h.pop hx) fun hclears => hfinal v ⟨rfl, hclears⟩)
  | invalid h hx =>
      cases h with
      | root _ hf =>
          cases hf
          cases ha
          refine .inr ⟨hx, rfl, ?_⟩
          obtain ⟨identifier, hmemory⟩ := h₀.memory
          have hmemory : (w.source s).storage = .memory identifier := by rw [hw.rechecks.source_eq, hmemory]
          change Move.afterNamed w s name d false = _
          unfold Move.afterNamed
          rw [if_neg Bool.false_ne_true, hmemory]
      | dependency _ _ h =>
          cases ha
          exact .inl (probes_afterDependency hw h)

end steps

theorem World.Waits.upholds (h₀ : w₀.Spoilt s name d) (hw : w₀.Waits w) : w.Upholds s fun _ => False := by
  refine ⟨?_, ?_, fun _ => False.elim, fun _ _ h _ => h⟩
  · intro other x hx
    rw [hw.rechecks.cached?_eq] at hx
    exact hw.ages.housed (h₀.kept other x hx)
  · intro k hk
    rw [hw.rechecks.cached?_eq]
    apply h₀.untaken
    rwa [hw.rechecks.world] at hk

/-- The document is renewed. What the name denotes from then on is sound. -/
theorem World.Waits.renew (h₀ : w₀.Spoilt s name d) (hw : w₀.Waits w) (hinvalid : (w.document d).validity = .invalid) :
    (w.renew s name d).1.Decided s (· = name) (· = (w.renew s name d).2) (· = d) ∧
      (w.renew s name d).1.Denotes s name (w.renew s name d).2 ∧ w₀.documents.length ≤ (w.renew s name d).2.index := by
  obtain ⟨identifier, hmemory⟩ := h₀.memory
  have hd : w.cached? s name = some d := (hw.rechecks.cached?_eq s name).trans h₀.cached
  have hmemory : (w.source s).storage = .memory identifier := by rw [hw.rechecks.source_eq, hmemory]
  have hages := ages_renew w s name d
  have hstorage := (hages.storage s).trans hmemory
  have hcached := cached?_renew h₀.asked hd
  obtain ⟨hsound, hnone⟩ := sound_renew h₀.asked hd hmemory
  obtain ⟨text, tag, now, hdocuments⟩ := documents_renew h₀.asked hd
  have htree : (w.renew s name d).1.tree = w.tree := by
    rw [renew_of_cached h₀.asked hd]
    rfl
  have hcounter : (w.renew s name d).1.inFlowCount = w.inFlowCount := by
    rw [renew_of_cached h₀.asked hd]
    rfl
  have hdenotes : (w.renew s name d).1.Denotes s name ⟨w.documents.length⟩ := by
    apply Denotes.memory hstorage
    rw [hcached, if_pos rfl]
  have hupholds : (w.renew s name d).1.Upholds s (· = ⟨w.documents.length⟩) := by
    have hgrow := (hw.upholds h₀).grow (A := (· = ⟨w.documents.length⟩)) htree (hages.storage s) (Nat.le_of_eq hcounter.symm)
      (hdocuments ▸ List.prefix_append _ _) ?_ ?_
    · simpa only [false_or] using hgrow
    · intro other x hx
      rw [hcached] at hx
      split at hx
      · next heq =>
          cases hx
          exact .inr ⟨.inr rfl, fun k _ => Document.ne_inFlowName (heq ▸ h₀.asked) k⟩
      · rcases (tidies_dropInFlow s w d).cache other with hnone | hsame
        · cases hnone.symm.trans hx
        · exact .inl (hsame.symm.trans hx)
    · rintro x rfl
      refine ⟨hsound, fun y hy => ?_⟩
      obtain ⟨other, hother, -⟩ := (leads_iff hsound.housed).1 hy
      rw [hnone] at hother
      cases hother
  rw [renew_eq hd]
  refine ⟨⟨hupholds, ?_, ?_, ?_, ?_⟩, hdenotes, hw.rechecks.length ▸ Nat.le_refl _⟩
  · rintro other rfl
    exact h₀.asked
  · rintro other x rfl hx
    exact .memory hstorage hx
  · rintro other x rfl hx
    exact hx.unique hdenotes
  · rintro x rfl
    refine ⟨hages.invalid hinvalid, ⟨identifier, hstorage⟩, ?_⟩
    rintro other rfl
    exact ⟨_, hdenotes⟩

/-- Other checks of the old document go on, but come to nothing. -/
theorem Probes.seeks {P N : DocumentId → Prop} {w' : World} (h₀ : w₀.Spoilt s name d) (h : Probes s name d below w₀ w t)
    (hages : w₀.Ages w') (hP : ∀ x, w₀.Housed s x → ¬ P x) (hN : N d) : Seeks s name below P N w' t := by
  have hawaits {x : DocumentId} {fs : List Frame}
      (h : Awaits (w₀.Housed s) (fun _ => False) (IsRoot s name d) x fs) :
      Awaits (w'.Housed s) P (Roots s name N w') x fs := by
    refine h.mono (fun _ => hages.housed) (fun f x hf => ?_) nofun fun x hx hPx => hP x hx hPx
    cases hf
    exact .named (.inr hN)
  cases h with
  | asks => exact .asks
  | checks h => exact .checks (hawaits h.awaits)
  | valid h hx =>
      refine .told (hawaits h.awaits) (fun _ => rfl) fun f hf => ?_
      subst hf
      exact (h.not_root h₀ hx).elim
  | invalid h hx => exact .told (hawaits h) (fun hPx => absurd hPx (hP _ h.known)) fun _ _ _ => rfl

end ScriptedText
