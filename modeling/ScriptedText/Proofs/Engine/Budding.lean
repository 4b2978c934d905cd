import ScriptedText.Proofs.Engine.Compilation
import ScriptedText.Proofs.Engine.Tending

/-!
A compilation that succeeds makes scriptlet bodies documents, and leaves each of them with the document that it stands in:
those of the bodies inside it as soon as it is registered, those of the document itself once that has its executable.
-/

namespace ScriptedText

theorem Document.mem_addDependencies {x : Document} {names : List String} {name : String} (h : name ∈ names)
    (hne : name ≠ x.name) : name ∈ (x.addDependencies names).dependencies := by
  induction names generalizing x with
  | nil => cases h
  | cons other names ih =>
      have hages := ages_addDependency x other
      have hrest : (x.addDependencies (other :: names)) = (x.addDependency other).addDependencies names := rfl
      rw [hrest]
      rcases List.mem_cons.1 h with rfl | hmem
      · apply (ages_addDependencies (x.addDependency name) names).dependencies.subset
        unfold addDependency
        split
        · next hold =>
            rw [Bool.or_eq_true, decide_eq_true_iff] at hold
            exact List.contains_iff_mem.1 (hold.resolve_left hne)
        · exact List.mem_append_right _ (List.mem_singleton.2 rfl)
      · refine ih hmem ?_
        rw [hages.same]
        exact hne

/-- A document that has no bodies records those that it gets, and no others. -/
theorem Document.mem_inFlowDependencies_addDependencies {x : Document} {names : List String} {name : String}
    (hnone : x.inFlowDependencies = []) (hnew : ∀ other ∈ names, isInFlow other = true ∧ other ≠ x.name) :
    name ∈ (x.addDependencies names).inFlowDependencies ↔ name ∈ names := by
  constructor
  · intro hmem
    obtain ⟨hmem, hbody⟩ := List.mem_filter.1 hmem
    refine (mem_dependencies_of_addDependencies hmem).resolve_left fun hold => ?_
    have hin : name ∈ x.inFlowDependencies := List.mem_filter.2 ⟨hold, hbody⟩
    rw [hnone] at hin
    cases hin
  · intro hmem
    exact List.mem_filter.2 ⟨mem_addDependencies hmem (hnew name hmem).2, (hnew name hmem).1⟩

namespace World

variable {w w' w₀ w₁ w₂ : World} {s s' : SourceId} {name other text tag : String} {d x : DocumentId} {e : ExecutableId}
  {hole loose : SourceId → String → Prop} {pending names names' : List String}

section attach

variable (hnone : (w.document d).executable = none)

include hnone

theorem attachExecutable_of_none (e : ExecutableId) : (w.attachExecutable d e).1 = w.modifyDocument d fun doc =>
    { doc.addDependencies (w.executable e).dependencies with executable := some e } := by
  unfold attachExecutable
  rw [hnone]

theorem document_attachExecutable_self (e : ExecutableId) (hlt : d.index < w.documents.length) :
    (w.attachExecutable d e).1.document d =
      { (w.document d).addDependencies (w.executable e).dependencies with executable := some e } := by
  rw [attachExecutable_of_none hnone, document_modifyDocument w _ d hlt, if_pos rfl]

theorem document_attachExecutable_of_ne (e : ExecutableId) (hne : x ≠ d) :
    (w.attachExecutable d e).1.document x = w.document x := by
  rw [attachExecutable_of_none hnone]
  exact (document_modifyDocument_cases w _ d x).resolve_right fun heq => hne heq.1.symm

theorem bodies_attachExecutable (hlt : d.index < w.documents.length) (x : DocumentId) :
    (w.attachExecutable d e).1.bodies x = if x = d then (w.executable e).dependencies else w.bodies x := by
  split
  · next heq =>
      subst heq
      rw [bodies_of_some (congrArg Document.executable (document_attachExecutable_self hnone e hlt)),
        attachExecutable_of_none hnone]
      rfl
  · next hne =>
      unfold bodies
      rw [document_attachExecutable_of_ne hnone e hne, attachExecutable_of_none hnone]
      rfl

variable (hnew : ∀ name ∈ (w.executable e).dependencies,
    ∃ k < w.inFlowCount, name = Document.inFlowName k ∧ ∀ j, (w.document d).name = Document.inFlowName j → j < k)
  (hspare : ∀ name ∈ (w.executable e).dependencies, ∀ x, name ∉ w.bodies x)

include hnew hspare

theorem Lineage.attach (h : w.Lineage) (hlt : d.index < w.documents.length) (he : e.index < w.executables.length) :
    (w.attachExecutable d e).1.Lineage := by
  have hbodies := bodies_attachExecutable (e := e) hnone hlt
  have hdoc := document_attachExecutable_self hnone e hlt
  have hname (x : DocumentId) : ((w.attachExecutable d e).1.document x).name = (w.document x).name := by
    obtain ⟨_, _, hsame, -⟩ := document_attachExecutable w d e x
    rw [hsame]
  have hexecutables : (w.attachExecutable d e).1.executables = w.executables := by
    rw [attachExecutable_of_none hnone]
    rfl
  have hcounter : (w.attachExecutable d e).1.inFlowCount = w.inFlowCount := by
    rw [attachExecutable_of_none hnone]
    rfl
  constructor
  · intro x e' hx
    rw [hexecutables]
    by_cases hxd : x = d
    · rw [hxd, hdoc] at hx
      cases hx
      exact he
    · exact h.made x e' (document_attachExecutable_of_ne hnone e hxd ▸ hx)
  · intro x name hmem
    rw [hcounter]
    rw [hbodies] at hmem
    split at hmem
    · obtain ⟨k, hk, heq, -⟩ := hnew name hmem
      exact ⟨k, hk, heq⟩
    · exact h.given x name hmem
  · intro x y name hx hy
    rw [hbodies] at hx hy
    split at hx <;> split at hy
    · next hx' hy' => exact hx'.trans hy'.symm
    · exact absurd hy (hspare name hx y)
    · exact absurd hx (hspare name hy x)
    · exact h.apart x y name hx hy
  · intro x name
    rw [hbodies]
    split
    · next hx =>
        rw [hx, hdoc]
        have hnil : (w.document d).inFlowDependencies = [] := by
          refine List.eq_nil_iff_forall_not_mem.2 fun name hmem => ?_
          have hbody := (h.recorded d name).1 hmem
          rw [bodies_of_none hnone] at hbody
          cases hbody
        refine Document.mem_inFlowDependencies_addDependencies hnil fun name hmem => ?_
        obtain ⟨k, -, rfl, hlater⟩ := hnew name hmem
        exact ⟨Document.isInFlow_inFlowName k, fun heq => Nat.lt_irrefl k (hlater k heq.symm)⟩
    · next hx =>
        rw [document_attachExecutable_of_ne hnone e hx]
        exact h.recorded x name
  · intro x k hk
    rw [hcounter]
    exact h.numbered x k ((hname x).symm.trans hk)
  · intro x j k hj hk
    rw [hname] at hj
    rw [hbodies] at hk
    split at hk
    · next hx =>
        obtain ⟨k', -, heq, hlater⟩ := hnew _ hk
        cases Document.inFlowName_inj.1 heq
        exact hlater j (hx ▸ hj)
    · exact h.ordered x j k hj hk

/-- A document gets its executable, and with it the bodies that belonged to none. -/
theorem Tended.attach (h : w.Tended hole loose) (hd : w.Stores s d) (he : e.index < w.executables.length)
    (hkept : ∀ name ∈ (w.executable e).dependencies, (w.cached? s name).isSome = true) :
    (w.attachExecutable d e).1.Tended hole
      fun s' name => loose s' name ∧ ¬ (s' = s ∧ name ∈ (w.executable e).dependencies) := by
  have hhoused := h.toShelved.housed hd
  have hbodies := bodies_attachExecutable (e := e) hnone hhoused.1
  have hages := ages_attachExecutable w d e
  have hsource (s' : SourceId) : (w.attachExecutable d e).1.source s' = w.source s' := by
    simp [source, sources_attachExecutable]
  have hcached := cached?_eq_of_sources (sources_attachExecutable w d e)
  have hstores (s' : SourceId) (x : DocumentId) : (w.attachExecutable d e).1.Stores s' x ↔ w.Stores s' x := by
    unfold Stores
    rw [hsource]
  have hfile (x : DocumentId) : ((w.attachExecutable d e).1.document x).file = (w.document x).file := by
    obtain ⟨_, _, hsame, -⟩ := document_attachExecutable w d e x
    rw [hsame]
  refine ⟨h.toLineage.attach hnone hnew hspare hhoused.1 he, ⟨fun s' name x hx => ?_, fun s' file x hx => ?_⟩,
    fun s' x hx hvalid name hmem => ?_, fun s' name x hbody hx hfileless => ?_⟩
  · have hfits := h.name s' name x ((hcached s' name).symm.trans hx)
    obtain ⟨_, _, hsame, -⟩ := document_attachExecutable w d e x
    refine ⟨hages.housed hfits.housed, ?_, ?_, ?_⟩
    · rw [hsame]
      exact hfits.own
    · rw [hsame]
      exact hfits.fileless
    · rw [hsame, IsMemory, hsource]
      exact hfits.memory
  · rw [hsource] at hx
    have hfits := h.file s' file x hx
    exact ⟨hages.housed hfits.housed, (hfile x).trans hfits.file⟩
  · rw [hcached]
    have hold := (hstores s' x).1 hx
    rw [hbodies] at hmem
    split at hmem
    · next hxd =>
        subst hxd
        have hs : s' = s := (h.toShelved.housed hold).2.symm.trans hhoused.2
        subst hs
        exact .inl (hkept name hmem)
    · next hxd =>
        exact h.complete s' x hold (document_attachExecutable_of_ne hnone e hxd ▸ hvalid) name hmem
  · rw [hcached] at hx
    by_cases hmem : s' = s ∧ name ∈ (w.executable e).dependencies
    · obtain ⟨rfl, hmem⟩ := hmem
      exact .inr ⟨d, (hstores s' d).2 hd, by rwa [hbodies, if_pos rfl]⟩
    · refine (h.owned s' name x hbody hx ((hfile x).symm.trans hfileless)).imp (fun hloose => ⟨hloose, hmem⟩) ?_
      rintro ⟨owner, howner, hold⟩
      refine ⟨owner, (hstores s' owner).2 howner, ?_⟩
      rwa [hbodies, if_neg]
      rintro rfl
      rw [bodies_of_none hnone] at hold
      cases hold

end attach

/-- A compilation for the source is under way. The bodies that were made documents of late belong to no document yet. -/
structure Budding (s : SourceId) (pending : List String) (w : World) : Prop where
  lt : s.index < w.sources.length
  tended : w.Tended (fun _ _ => False) fun s' name => s' = s ∧ name ∈ pending
  number : ∀ name ∈ pending, ∃ k < w.inFlowCount, name = Document.inFlowName k
  kept : ∀ name ∈ pending, (w.cached? s name).isSome = true
  spare : ∀ name ∈ pending, ∀ d, name ∉ w.bodies d

/-- More bodies were made documents, under new names, and the documents inside them have theirs. -/
structure Buds (s : SourceId) (pending names : List String) (w w' : World) : Prop where
  budding : w'.Budding s (pending ++ names)
  counter : w.inFlowCount ≤ w'.inFlowCount
  given : ∀ name ∈ names, Given w w' name
  bodies : ∀ d, ∀ name ∈ w'.bodies d, name ∈ w.bodies d ∨ Given w w' name

theorem Budding.steady (h : w.Budding s pending) (hsteady : w.Steady w') : w'.Budding s pending where
  lt := by
    rw [hsteady.sources]
    exact h.lt
  tended := hsteady.tended h.tended
  number name hname := by
    obtain ⟨k, hk, heq⟩ := h.number name hname
    exact ⟨k, Nat.lt_of_lt_of_le hk hsteady.counter, heq⟩
  kept name hname := by
    rw [hsteady.cached?_eq]
    exact h.kept name hname
  spare name hname d := by
    rw [hsteady.bodies_eq h.tended.toLineage]
    exact h.spare name hname d

namespace Buds

theorem of_steady (h : w.Budding s pending) (hsteady : w.Steady w') : Buds s pending [] w w' where
  budding := by
    rw [List.append_nil]
    exact h.steady hsteady
  counter := hsteady.counter
  given _ := nofun
  bodies d name hname := by
    rw [hsteady.bodies_eq h.tended.toLineage] at hname
    exact .inl hname

theorem trans (h : Buds s pending names w w₁) (h' : Buds s (pending ++ names) names' w₁ w₂) :
    Buds s pending (names ++ names') w w₂ where
  budding := by
    rw [← List.append_assoc]
    exact h'.budding
  counter := Nat.le_trans h.counter h'.counter
  given name hname := by
    rcases List.mem_append.1 hname with hmem | hmem
    · exact (h.given name hmem).left h'.counter
    · exact (h'.given name hmem).right h.counter
  bodies d name hname := by
    rcases h'.bodies d name hname with hmem | hgiven
    · exact (h.bodies d name hmem).imp_right fun hgiven => hgiven.left h'.counter
    · exact .inr (hgiven.right h.counter)

theorem steady (h : Buds s pending names w w₁) (hsteady : w₁.Steady w') : Buds s pending names w w' := by
  have htrans := h.trans (.of_steady h.budding hsteady)
  rwa [List.append_nil] at htrans

end Buds

section register

theorem attachExecutable_modifySource (w : World) (s : SourceId) (f : Source → Source) (d : DocumentId) (e : ExecutableId) :
    ((w.modifySource s f).attachExecutable d e).1 = (w.attachExecutable d e).1.modifySource s f := by
  have hsame : ((w.modifySource s f).document d).executable = (w.document d).executable := rfl
  unfold attachExecutable
  rw [hsame]
  cases (w.document d).executable <;> rfl

/-- A document comes under its name, and gets its executable. -/
def register (w : World) (s : SourceId) (name text tag : String) (e : ExecutableId) : World :=
  ((w.shelve s name (w.written s name text tag)).attachExecutable ⟨w.documents.length⟩ e).1

/-- A document that is registered with an executable, under a name that is free, might have got it afterwards. -/
theorem setDocument_eq (h : w.cached? s name = none) (text tag : String) (e : ExecutableId) :
    (w.setDocument s name text tag (some e)).1 = w.register s name text tag e := by
  unfold setDocument register shelve
  rw [h, attachExecutable_modifySource]
  rfl

theorem executable_shelve_new (w : World) (s : SourceId) (name text tag : String) :
    ((w.shelve s name (w.written s name text tag)).document ⟨w.documents.length⟩).executable = none :=
  congrArg Document.executable (document_addDocument w (w.written s name text tag))

theorem bodies_register (w : World) (s : SourceId) (name text tag : String) (e : ExecutableId) (x : DocumentId) :
    (w.register s name text tag e).bodies x =
      if x = ⟨w.documents.length⟩ then (w.executable e).dependencies else w.bodies x := by
  have hbodies : (w.shelve s name (w.written s name text tag)).bodies x = w.bodies x := bodies_addDocument w rfl x
  rw [← hbodies]
  exact bodies_attachExecutable (executable_shelve_new w s name text tag) (Matched.new_lt w (w.written s name text tag)) x

theorem inFlowCount_register (w : World) (s : SourceId) (name text tag : String) (e : ExecutableId) :
    (w.register s name text tag e).inFlowCount = w.inFlowCount := by
  unfold register
  rw [attachExecutable_of_none (executable_shelve_new w s name text tag)]
  rfl

theorem cached?_register (hs : s.index < w.sources.length) (name text tag : String) (e : ExecutableId) (other : String) :
    (w.register s name text tag e).cached? s other = if other = name then some ⟨w.documents.length⟩ else w.cached? s other :=
  (cached?_eq_of_sources (sources_attachExecutable _ _ e) s other).trans
    (cached?_shelve w (w.written s name text tag) hs name other)

/-- What was compiled last is a body, whose name was given out before that. -/
structure Compiled (s : SourceId) (pending : List String) (name : String) (e : ExecutableId) (w w₁ : World) : Prop where
  budding : w.Budding s pending
  name : name = Document.inFlowName w.inFlowCount
  inside : Buds s pending (w₁.executable e).dependencies { w with inFlowCount := w.inFlowCount + 1 } w₁

namespace Compiled

variable (h : Compiled s pending name e w w₁)

include h

theorem counter : w.inFlowCount < w₁.inFlowCount := h.inside.counter

/-- Bodies inside have later names. -/
theorem later (hother : other ∈ (w₁.executable e).dependencies) :
    ∃ k, w.inFlowCount < k ∧ k < w₁.inFlowCount ∧ other = Document.inFlowName k := h.inside.given other hother

theorem unborn (x : DocumentId) : name ∉ w₁.bodies x := by
  rw [h.name]
  intro hmem
  rcases h.inside.bodies x _ hmem with hold | ⟨k, hlow, -, heq⟩
  · obtain ⟨k, hk, heq⟩ := h.budding.tended.given x _ hold
    cases Document.inFlowName_inj.1 heq
    exact Nat.lt_irrefl _ hk
  · cases Document.inFlowName_inj.1 heq
    exact Nat.lt_irrefl _ hlow

theorem not_inside : name ∉ (w₁.executable e).dependencies := by
  rw [h.name]
  intro hmem
  obtain ⟨k, hk, -, heq⟩ := h.later hmem
  cases Document.inFlowName_inj.1 heq
  exact Nat.lt_irrefl _ hk

theorem not_pending : name ∉ pending := by
  rw [h.name]
  intro hmem
  obtain ⟨k, hk, heq⟩ := h.budding.number _ hmem
  cases Document.inFlowName_inj.1 heq
  exact Nat.lt_irrefl _ hk

theorem pending_not_inside (hother : other ∈ pending) : other ∉ (w₁.executable e).dependencies := by
  intro hmem
  obtain ⟨k, hk, rfl⟩ := h.budding.number other hother
  obtain ⟨k', hk', -, heq⟩ := h.later hmem
  cases Document.inFlowName_inj.1 heq
  exact Nat.lt_asymm hk hk'

/-- The name is free, since no document has it as that of a body. -/
theorem free : w₁.cached? s name = none := by
  cases hx : w₁.cached? s name with
  | none => rfl
  | some x =>
      have hfile := (h.inside.budding.tended.name s name x hx).fileless ⟨_, h.name⟩
      have hbody : Document.isInFlow name = true := h.name ▸ Document.isInFlow_inFlowName _
      rcases h.inside.budding.tended.owned s name x hbody hx hfile with ⟨-, hmem⟩ | ⟨owner, -, hmem⟩
      · rcases List.mem_append.1 hmem with hmem | hmem
        · exact absurd hmem h.not_pending
        · exact absurd hmem h.not_inside
      · exact absurd hmem (h.unborn owner)

theorem tended_shelve (text tag : String) : (w₁.shelve s name (w₁.written s name text tag)).Tended (fun _ _ => False)
    fun s' other => s' = s ∧ (other = name ∨ other ∈ pending ++ (w₁.executable e).dependencies) := by
  have hloose : w₁.Tended (fun _ _ => False) fun s' other =>
      s' = s ∧ (other = name ∨ other ∈ pending ++ (w₁.executable e).dependencies) :=
    h.inside.budding.tended.imp (fun _ _ _ _ => .inr) fun _ _ _ _ hloose => ⟨hloose.1, .inr hloose.2⟩
  have hnumber (k : Nat) (hk : name = Document.inFlowName k) : k < w₁.inFlowCount := by
    cases Document.inFlowName_inj.1 (h.name.symm.trans hk)
    exact h.counter
  refine (Tended.shelve h.inside.budding.lt (w₁.isNew_written s name text tag) hloose hnumber fun _ =>
    .inl ⟨rfl, .inl rfl⟩).imp (fun _ _ _ _ hhole => .inr hhole.1) ?_
  rintro s' other x - (hloose | ⟨-, old, hsome, -⟩)
  · exact hloose
  · cases h.free.symm.trans hsome

/-- The bodies inside belong to the new document from now on. -/
theorem tended_register (he : e.index < w₁.executables.length) (text tag : String) :
    (w₁.register s name text tag e).Tended (fun _ _ => False) fun s' other => s' = s ∧ other ∈ pending ++ [name] := by
  have hdoc : (w₁.shelve s name (w₁.written s name text tag)).document ⟨w₁.documents.length⟩ =
      w₁.written s name text tag := document_addDocument w₁ _
  have hcached := cached?_shelve w₁ (w₁.written s name text tag) h.inside.budding.lt name
  have hattach := (h.tended_shelve text tag).attach (e := e) (s := s) (executable_shelve_new w₁ s name text tag)
    (fun other hother => ?_) (fun other hother x => ?_) (.inl ⟨name, (hcached name).trans (if_pos rfl)⟩) he
    fun other hother => ?_
  · refine hattach.imp (fun _ _ _ _ => .inr) ?_
    rintro s' other x - ⟨⟨rfl, rfl | hother⟩, hnot⟩
    · exact ⟨rfl, List.mem_append_right _ (List.mem_singleton.2 rfl)⟩
    · rcases List.mem_append.1 hother with hmem | hmem
      · exact ⟨rfl, List.mem_append_left _ hmem⟩
      · exact absurd ⟨rfl, hmem⟩ hnot
  · obtain ⟨k, hlow, hhigh, heq⟩ := h.later hother
    refine ⟨k, hhigh, heq, fun j hj => ?_⟩
    rw [hdoc] at hj
    cases Document.inFlowName_inj.1 (h.name.symm.trans hj)
    exact hlow
  · have hbodies : (w₁.shelve s name (w₁.written s name text tag)).bodies x = w₁.bodies x := bodies_addDocument w₁ rfl x
    rw [hbodies]
    exact h.inside.budding.spare other (List.mem_append_right _ hother) x
  · rw [hcached]
    split
    · rfl
    · exact h.inside.budding.kept other (List.mem_append_right _ hother)

theorem budding_register (he : e.index < w₁.executables.length) (text tag : String) :
    (w₁.register s name text tag e).Budding s (pending ++ [name]) := by
  refine ⟨?_, h.tended_register he text tag, fun other hother => ?_, fun other hother => ?_, fun other hother x => ?_⟩
  · have hsources := sources_attachExecutable (w₁.shelve s name (w₁.written s name text tag)) ⟨w₁.documents.length⟩ e
    unfold World.register
    rw [hsources]
    simpa [World.shelve, modifySource, addDocument] using h.inside.budding.lt
  · rw [inFlowCount_register]
    rcases List.mem_append.1 hother with hmem | hmem
    · obtain ⟨k, hk, heq⟩ := h.budding.number other hmem
      exact ⟨k, Nat.lt_trans hk h.counter, heq⟩
    · cases List.mem_singleton.1 hmem
      exact ⟨w.inFlowCount, h.counter, h.name⟩
  · rw [cached?_register h.inside.budding.lt]
    split
    · rfl
    · next hne =>
        have hmem := (List.mem_append.1 hother).resolve_right fun hmem => hne (List.mem_singleton.1 hmem)
        exact h.inside.budding.kept other (List.mem_append_left _ hmem)
  · rw [bodies_register]
    rcases List.mem_append.1 hother with hmem | hmem
    · split
      · exact h.pending_not_inside hmem
      · exact h.inside.budding.spare other (List.mem_append_left _ hmem) x
    · cases List.mem_singleton.1 hmem
      split
      · exact h.not_inside
      · exact h.unborn x

/-- The body that was compiled last is registered under its name. -/
theorem buds (he : e.index < w₁.executables.length) (text tag : String) :
    Buds s pending [name] w (w₁.setDocument s name text tag (some e)).1 := by
  have hgiven (other : String) (hother : Given { w with inFlowCount := w.inFlowCount + 1 } w₁ other) :
      Given w (w₁.register s name text tag e) other := by
    obtain ⟨k, hlow, hhigh, heq⟩ := hother
    exact ⟨k, Nat.le_of_succ_le hlow, (inFlowCount_register w₁ s name text tag e).symm ▸ hhigh, heq⟩
  rw [setDocument_eq h.free]
  refine ⟨h.budding_register he text tag, ?_, fun other hother => ?_, fun x other hother => ?_⟩
  · rw [inFlowCount_register]
    exact Nat.le_of_lt h.counter
  · cases List.mem_singleton.1 hother
    refine ⟨w.inFlowCount, Nat.le_refl _, ?_, h.name⟩
    rw [inFlowCount_register]
    exact h.counter
  · rw [bodies_register] at hother
    split at hother
    · exact .inr (hgiven other (h.inside.given other hother))
    · exact (h.inside.bodies x other hother).imp_right (hgiven other)

end Compiled

end register

end World

open World

/-- When the act compiles a document of the source, all bodies in it were made documents. -/
def Act.Nurtures (s : SourceId) (x : Act ExecutableId) : Prop :=
  ∀ pending w w' e, w.Budding s pending → x.perform w = (.ok e, w') →
    Buds s pending (w'.executable e).dependencies w w' ∧ e.index < w'.executables.length

open Act

section compile

variable {w w' : World} {s : SourceId} {pending : List String} {inner : Draft → Act ExecutableId} {o : Draft}
  (ho : o.source = some s) (hinner : ∀ o : Draft, o.source = some s → (inner o).Nurtures s)

include ho hinner

theorem buds_placeRequest {r : Request} {placed : RawSegment × Option String} (hw : w.Budding s pending)
    (h : (placeRequest inner o r).perform w = (.ok placed, w')) : Buds s pending placed.2.toList w w' := by
  unfold placeRequest at h
  obtain ⟨name, w₀, hname, h⟩ := exists_of_perform_bind h
  cases hname
  obtain ⟨e, w₁, he, h⟩ := exists_of_perform_bind h
  have he := perform_of_perform_tryCatch (fun f w => ⟨_, rfl⟩) he
  have hstart : World.Budding s pending { w with inFlowCount := w.inFlowCount + 1 } :=
    hw.steady (.of_eq rfl rfl rfl (Nat.le_succ _))
  obtain ⟨hbuds, hlt⟩ := hinner (o.body r (Document.inFlowName w.inFlowCount)) ho pending _ w₁ e hstart he
  rw [ho] at h
  obtain ⟨_, w₂, hset, h⟩ := exists_of_perform_bind h
  cases hset
  cases h
  exact Compiled.buds ⟨hw, rfl, hbuds⟩ hlt (String.ofList r.source) ""

/-- By induction on the parts; the names of those before are pending. -/
theorem buds_placeParts {parts : List Part} {placed : List (RawSegment × Option String)} (hw : w.Budding s pending)
    (h : (parts.mapM (placePart inner o)).perform w = (.ok placed, w')) :
    Buds s pending (placed.filterMap Prod.snd) w w' := by
  induction parts generalizing w pending placed with
  | nil =>
      cases h
      exact .of_steady hw (.refl _)
  | cons p parts ih =>
      rw [List.mapM_cons] at h
      obtain ⟨first, w₁, hfirst, h⟩ := exists_of_perform_bind h
      obtain ⟨rest, w₂, hrest, h⟩ := exists_of_perform_bind h
      cases h
      have hpart : Buds s pending first.2.toList w w₁ := by
        cases p with
        | segment x =>
            cases hfirst
            exact .of_steady hw (.refl _)
        | request r => exact buds_placeRequest ho hinner hw hfirst
      have hall := hpart.trans (ih hpart.budding hrest)
      rw [List.filterMap_cons]
      cases hsnd : first.2 with
      | none =>
          rw [hsnd] at hall
          exact hall
      | some name =>
          rw [hsnd] at hall
          exact hall

theorem buds_parse {parsed : Parsed} (hw : w.Budding s pending)
    (h : (if o.isText then parseText inner o else pure (parseSource o) : Act Parsed).perform w = (.ok parsed, w')) :
    Buds s pending parsed.names w w' := by
  cases htext : o.isText with
  | false =>
      rw [htext] at h
      cases h
      exact .of_steady hw (.refl w)
  | true =>
      rw [htext, if_pos rfl] at h
      unfold parseText at h
      dsimp only at h
      split at h
      · cases h
      · obtain ⟨placed, w₁, hplaced, h⟩ := exists_of_perform_bind h
        split at h
        · cases h
        · cases h
          exact buds_placeParts ho hinner hw hplaced

theorem buds_construct {x : Executable} (hw : w.Budding s pending) (h : (construct inner o).perform w = (.ok x, w')) :
    Buds s pending x.dependencies w w' := by
  obtain ⟨parsed, w₁, segments, hparsed, hsegments, rfl⟩ := exists_of_perform_construct h
  have hsteady : w₁.Steady w' := by
    have hresolve : Relates Steady ((placeAll (collapsed (w.registry.forms o.exposed) o.tag parsed.segments)).mapM
        (resolveSegment o)) :=
      relates_mapM .refl (fun _ _ _ => .trans) (relates_resolveSegment .refl (fun _ _ _ => .trans) (fun w e _ => .emit w e) o)
    have hrelated := hresolve w₁
    rwa [hsegments] at hrelated
  exact (buds_parse ho hinner hw hparsed).steady hsteady

theorem nurtures_compileWith : (compileWith inner o).Nurtures s := by
  intro pending w w' e hw h
  unfold compileWith at h
  obtain ⟨x, w₁, hx, h⟩ := exists_of_perform_bind h
  have hconstruct := perform_of_perform_tryCatch (fun f w => ⟨f, rfl⟩) hx
  cases h
  have hadded := w₁.executable_addExecutable x (.compiled o.document x.segments.length)
  have hsteady : w₁.Steady ((w₁.addExecutable x).1.emit (.compiled o.document x.segments.length)) := by
    refine ⟨rfl, fun _ => rfl, rfl, fun _ => rfl, fun _ => rfl, fun _ => id, ?_, fun e he => ?_, Nat.le_refl _⟩
    · simp [World.addExecutable, World.emit]
    · exact congrArg Executable.dependencies (executable_of_grown (List.prefix_append _ _) he)
  change Buds s pending (((w₁.addExecutable x).1.emit (.compiled o.document x.segments.length)).executable
    (w₁.addExecutable x).2).dependencies w _ ∧ _
  rw [hadded]
  refine ⟨(buds_construct ho hinner hw hconstruct).steady hsteady, ?_⟩
  simp [World.emit]

end compile

theorem nurtures_compileWithin (depth : Nat) {s : SourceId} {o : Draft} (ho : o.source = some s) :
    (compileWithin depth o).Nurtures s := by
  induction depth generalizing o with
  | zero => exact fun _ _ _ _ _ h => nomatch h
  | succ depth ih => exact nurtures_compileWith ho fun _ => ih

/-- A compilation that succeeds, where all documents have what belongs to them. -/
theorem buds_compile {w w' : World} {s : SourceId} {o : Draft} {e : ExecutableId} (ho : o.source = some s) (hw : w.Kempt)
    (hs : s.index < w.sources.length) (h : w.compile o = (w', .ok e)) :
    Buds s [] (w'.executable e).dependencies w w' ∧ e.index < w'.executables.length := by
  have hstart : w.Budding s [] := by
    refine ⟨hs, hw.imp (fun _ _ _ _ => .inr) fun _ _ _ _ => False.elim, ?_, ?_, ?_⟩ <;> exact fun _ h => nomatch h
  refine nurtures_compileWithin (o.text.length + 1) ho [] w w' e hstart ?_
  rw [World.compile_eq_perform] at h
  obtain ⟨hw, he⟩ := Prod.mk.inj h
  exact Prod.ext he hw

namespace World

/-- An executable is created for a document, which has none or has the one that is asked for. -/
theorem Kempt.afterCreating {w : World} {s : SourceId} {name : String} {d : DocumentId} (h : w.Kempt)
    (hd : w.cached? s name = some d) (isText : Bool) (compilation : Compilation)
    (hcompiles : (w.document d).executable = none →
      ∃ w' e, w.compile (Move.draftOf w s name d isText compilation) = (w', .ok e)) :
    (Move.afterCreating w s name d isText compilation).world.Kempt := by
  unfold Move.afterCreating
  cases hnone : (w.document d).executable with
  | some e => exact h
  | none =>
      obtain ⟨w', e, hcompile⟩ := hcompiles hnone
      obtain ⟨hbuds, he⟩ := buds_compile rfl h (lt_of_cached? hd) hcompile
      obtain ⟨hsprouts, -⟩ := sprouts_compile (s := s) rfl (h.untaken s) hcompile
      have hhoused := (h.name s name d hd).housed
      have hsame : w'.document d = w.document d := document_of_grown hsprouts.documents hhoused.1
      have hkept : w'.cached? s name = some d := by
        refine (hsprouts.cached name ?_).trans hd
        rintro ⟨k, hlow, -, rfl⟩
        cases (h.untaken s k hlow).symm.trans hd
      have hattach := hbuds.budding.tended.attach (s := s) (d := d) (e := e) (hsame ▸ hnone) (fun other hother => ?_)
        hbuds.budding.spare (.inl ⟨name, hkept⟩) he hbuds.budding.kept
      · dsimp only
        rw [hcompile]
        exact hattach.imp (fun _ _ _ _ => .inr) fun _ _ _ _ hloose => hloose.2 hloose.1
      · obtain ⟨k, hlow, hhigh, heq⟩ := hbuds.given other hother
        refine ⟨k, hhigh, heq, fun j hj => ?_⟩
        rw [hsame] at hj
        exact Nat.lt_of_lt_of_le (h.numbered d j hj) hlow

end World

end ScriptedText
