import ScriptedText.Proofs.Engine.Probing

/-!
Lookups and compilations in one source that overlap. However they take turns, they come to one document for each name,
and to one executable of it, which is compiled once: unless a check that is under way takes a document in memory for
valid that another check has found to be invalid.
-/

namespace ScriptedText

open Relation World

/-- What comes of calls. -/
inductive Finding
  /-- The call has got the document, maybe so that it can go on with it. -/
  | obtained (id : TaskId) (d : DocumentId)
  | made (id : TaskId) (e : ExecutableId)
  | compiled (d : DocumentId)
  deriving DecidableEq

namespace Task

/-- The document that the next step of the task compiles, if that succeeds. -/
def compiles? (w : World) (t : Task) : Option DocumentId :=
  match t.stack, t.control with
  | .creating s name isText compilation :: _, .settled (.ok (.document d)) =>
    match (w.document d).executable, (w.compile (Move.draftOf w s name d isText compilation)).2 with
    | none, .ok _ => some d
    | _, _ => none
  | _, _ => none

def finding? (id : TaskId) (t : Task) : Option Finding :=
  match t.control with
  | .settled (.ok (.document d)) => some (.obtained id d)
  | .settled (.ok (.executable e)) => some (.made id e)
  | _ => none

end Task

namespace Flight

/-- What comes of the step of the task that leads from `f` to `f'`. -/
def findings (f f' : Flight) (id : TaskId) : List Finding :=
  (((f.task? id).bind (Task.compiles? f.world)).map .compiled).toList ++ ((f'.task? id).bind (Task.finding? id)).toList

/-- Calls with the same options take turns, those on `names` having started and `past` having come of them. Where a
document in memory was stale from the start, no check takes an invalid document for valid. -/
inductive Overlaps (s : SourceId) (isText : Bool) (compilation : Compilation) (Q : String → Prop) (f₀ : Flight) :
    List String → List Finding → Flight → Prop
  | start : Overlaps s isText compilation Q f₀ [] [] f₀
  | call {names : List String} {past : List Finding} {f : Flight} (h : Overlaps s isText compilation Q f₀ names past f)
      {name : String} (hname : Q name) {c : Call}
      (hc : c = .getDocument s name ∨ c = .createOnce s name isText compilation) :
      Overlaps s isText compilation Q f₀ (names ++ [name]) (past ++ (f.spawn c).findings (f.start c) f.next) (f.start c)
  | go {names : List String} {past : List Finding} {f f' : Flight} {id : TaskId}
      (h : Overlaps s isText compilation Q f₀ names past f) (hgo : f.Goes (.go id) f')
      (hfinal : (∃ name d, Q name ∧ f₀.world.Spoilt s name d) →
        ∀ d, f.Passes (.go id) d → (f.world.document d).validity ≠ .invalid) :
      Overlaps s isText compilation Q f₀ names (past ++ f.findings f' id) f'

end Flight

/-- What the calls may begin with: a name in memory, or files none of which was looked up yet. No name is one that
scriptlet bodies get. -/
inductive World.Opens (s : SourceId) (w : World) : (String → Prop) → Prop
  | memory {name identifier : String} (hstorage : (w.source s).storage = .memory identifier)
      (hname : Document.isInFlow name = false) (hkept : ∀ other d, w.cached? s other = some d → w.Housed s d)
      (huntaken : w.Untaken s) : Opens s w (· = name)
  | files {naming : Files.Naming} {interval : Int} (hstorage : (w.source s).storage = .files naming interval)
      (hbyName : ∀ name, w.cached? s name = none) (hbyFile : ∀ file, (w.source s).byFile.get? file = none) :
      Opens s w fun name => Document.isInFlow name = false

variable {s : SourceId} {name : String} {isText : Bool} {compilation : Compilation} {Q : String → Prop}
  {P P' N : DocumentId → Prop} {names : List String} {past : List Finding} {f₀ f f' : Flight} {w₀ w w' : World}
  {d x : DocumentId} {below rest : List Frame} {t : Task} {id : TaskId} {m : Move}

/-! Where a document is compiled, it has got its executable. -/

namespace Task

theorem exists_of_compiles? (hd : t.compiles? w = some d) : ∃ s name isText compilation stack e,
    t = ⟨.creating s name isText compilation :: stack, .settled (.ok (.document d))⟩ ∧
      (w.document d).executable = none ∧ (w.compile (Move.draftOf w s name d isText compilation)).2 = .ok e := by
  obtain ⟨stack, control⟩ := t
  simp only [compiles?] at hd
  split at hd
  · split at hd
    · next hnone hcompile =>
        cases hd
        exact ⟨_, _, _, _, _, _, rfl, hnone, hcompile⟩
    · cases hd
  · cases hd

theorem executable_of_compiles? (hd : t.compiles? w = some d) (hlt : d.index < w.documents.length)
    (ha : t.advance w id = some (m, rest)) : (m.world.document d).executable ≠ none := by
  obtain ⟨s, name, isText, compilation, stack, e, rfl, hnone, hcompile⟩ := exists_of_compiles? hd
  cases ha
  have hages := ages_compile w (Move.draftOf w s name d isText compilation)
  change ((Move.afterCreating w s name d isText compilation).world.document d).executable ≠ none
  rw [Move.afterCreating, hnone]
  generalize w.compile (Move.draftOf w s name d isText compilation) = compiled at hcompile hages
  obtain ⟨w₁, r⟩ := compiled
  cases hcompile
  change ((w₁.attachExecutable d e).1.document d).executable ≠ none
  simp [executable_attachExecutable e (Nat.lt_of_lt_of_le hlt hages.documents)]

end Task

inductive Finding.Holds (s : SourceId) (Q : String → Prop) (names : List String) (w : World) : Finding → Prop
  | obtained {id : TaskId} {name : String} {d : DocumentId} (hid : names[id.index]? = some name) (hname : Q name)
      (hd : w.Denotes s name d) : Holds s Q names w (.obtained id d)
  | made {id : TaskId} {name : String} {d : DocumentId} {e : ExecutableId} (hid : names[id.index]? = some name)
      (hname : Q name) (hd : w.Denotes s name d) (he : (w.document d).executable = some e) :
      Holds s Q names w (.made id e)
  | compiled {d : DocumentId} (h : (w.document d).executable ≠ none) : Holds s Q names w (.compiled d)

theorem getElem?_concat_of_some {i : Nat} (h : names[i]? = some name) (other : String) :
    (names ++ [other])[i]? = some name := by
  obtain ⟨hlt, -⟩ := List.getElem?_eq_some_iff.1 h
  rw [List.getElem?_append_left hlt, h]

namespace Finding.Holds

variable {y : Finding}

theorem carries (h : y.Holds s Q names w) (hcarries : Carries s Q P P' w w') : y.Holds s Q names w' := by
  cases h with
  | obtained hid hname hd => exact .obtained hid hname (hcarries.denotes _ _ hname hd)
  | made hid hname hd he => exact .made hid hname (hcarries.denotes _ _ hname hd) (hcarries.ages.executable he)
  | compiled h =>
      obtain ⟨e, he⟩ := Option.ne_none_iff_exists'.1 h
      apply compiled
      simp [hcarries.ages.executable he]

theorem concat (h : y.Holds s Q names w) (name : String) : y.Holds s Q (names ++ [name]) w := by
  cases h with
  | obtained hid hname hd => exact .obtained (getElem?_concat_of_some hid name) hname hd
  | made hid hname hd he => exact .made (getElem?_concat_of_some hid name) hname hd he
  | compiled h => exact .compiled h

theorem of_seeks (h : Seeks s name below P N w t) (hid : names[id.index]? = some name) (hname : Q name)
    (hy : t.finding? id = some y) : y.Holds s Q names w := by
  cases h with
  | obtains hd =>
      cases hy
      exact .obtained hid hname hd
  | makes hd he =>
      cases hy
      exact .made hid hname hd he
  | _ => cases hy

end Finding.Holds

structure Recalls (s : SourceId) (Q : String → Prop) (names : List String) (past : List Finding) (w : World) : Prop where
  holds : ∀ y ∈ past, y.Holds s Q names w
  once : ∀ d, past.count (.compiled d) ≤ 1

namespace Recalls

theorem nil : Recalls s Q names [] w := ⟨nofun, fun _ => Nat.zero_le 1⟩

theorem carries (h : Recalls s Q names past w) (hcarries : Carries s Q P P' w w') : Recalls s Q names past w' :=
  ⟨fun y hy => (h.holds y hy).carries hcarries, h.once⟩

theorem concat (h : Recalls s Q names past w) (name : String) : Recalls s Q (names ++ [name]) past w :=
  ⟨fun y hy => (h.holds y hy).concat name, h.once⟩

theorem append {y? : Option Finding} (h : Recalls s Q names past w) (hy : ∀ y, y? = some y → y.Holds s Q names w)
    (hnew : ∀ d, y? = some (.compiled d) → .compiled d ∉ past) : Recalls s Q names (past ++ y?.toList) w := by
  refine ⟨?_, fun d => ?_⟩
  · intro y hmem
    rcases List.mem_append.1 hmem with hmem | hmem
    · exact h.holds y hmem
    · exact hy y (Option.mem_toList.1 hmem)
  · rw [List.count_append]
    cases y? with
    | none => simpa using h.once d
    | some y =>
        by_cases heq : y = .compiled d
        · subst heq
          simp [List.count_eq_zero_of_not_mem (hnew d rfl)]
        · simpa [List.count_singleton, heq] using h.once d

end Recalls

theorem Task.finding?_ne_compiled (t : Task) : t.finding? id ≠ some (.compiled d) := by
  simp only [Task.finding?]
  split <;> simp

/-! Each task is one of the calls. -/

namespace Flight

def Each (s : SourceId) (isText : Bool) (compilation : Compilation) (names : List String)
    (R : String → List Frame → Task → Prop) (f : Flight) : Prop :=
  ∀ id t, f.task? id = some t → ∃ name below, names[id.index]? = some name ∧
    (below = [] ∨ below = [.creating s name isText compilation]) ∧ R name below t

variable {R R' : String → List Frame → Task → Prop}

theorem task?_proceed (hwake : m.wake = []) (ht : f.task? id = some t) (id' : TaskId) :
    (f.proceed id m rest).task? id' = if id' = id then some ⟨m.push ++ rest, m.control⟩ else f.task? id' := by
  unfold proceed
  rw [hwake]
  apply task?_set
  rw [ht]
  rfl

theorem findings_proceed (hwake : m.wake = []) (ht : f.task? id = some t) :
    f.findings (f.proceed id m rest) id = ((t.compiles? f.world).map .compiled).toList ++
      (Task.finding? id ⟨m.push ++ rest, m.control⟩).toList := by
  simp [findings, task?_proceed hwake ht, ht]

theorem Each.proceed (h : f.Each s isText compilation names R) (hwake : m.wake = []) (ht : f.task? id = some t)
    (hid : names[id.index]? = some name) (hbelow : below = [] ∨ below = [.creating s name isText compilation])
    (hnew : R' name below ⟨m.push ++ rest, m.control⟩) (hold : ∀ name below t, R name below t → R' name below t) :
    (f.proceed id m rest).Each s isText compilation names R' := by
  intro id' t' ht'
  rw [task?_proceed hwake ht] at ht'
  split at ht'
  · next heq =>
      cases ht'
      exact ⟨name, below, heq ▸ hid, hbelow, hnew⟩
  · obtain ⟨name', below', hid', hbelow', hR⟩ := h id' t' ht'
    exact ⟨name', below', hid', hbelow', hold name' below' t' hR⟩

theorem Each.concat (h : f.Each s isText compilation names R) (hlength : names.length = f.tasks.length)
    (hbelow : below = [] ∨ below = [.creating s name isText compilation]) (hnew : R name below t) :
    Each s isText compilation (names ++ [name]) R { f with tasks := f.tasks ++ [t] } := by
  intro id t' ht'
  rw [task?_concat] at ht'
  split at ht'
  · next heq =>
      cases ht'
      subst heq
      exact ⟨name, below, by simp [next, ← hlength], hbelow, hnew⟩
  · obtain ⟨name', below', hid', hbelow', hR⟩ := h id t' ht'
    exact ⟨name', below', getElem?_concat_of_some hid' name, hbelow', hR⟩

end Flight

/-! What names denote before anything is looked up. -/

namespace World

theorem decided_of_unread {naming : Files.Naming} {interval : Int} (hstorage : (w.source s).storage = .files naming interval)
    (hbyName : ∀ name, w.cached? s name = none) (hbyFile : ∀ file, (w.source s).byFile.get? file = none) :
    w.Decided s (fun name => Document.isInFlow name = false) (fun _ => False) (fun _ => False) := by
  have hdenotes (name : String) (d : DocumentId) : ¬ w.Denotes s name d := by
    intro hd
    cases hd with
    | memory hmemory _ => cases hstorage.symm.trans hmemory
    | files _ hd => cases (hbyFile _).symm.trans hd
  refine ⟨⟨?_, ?_, fun _ => False.elim, fun _ _ h _ => h⟩, fun _ => id, ?_, ?_, fun _ => False.elim⟩
  · intro name d hd
    cases (hbyName name).symm.trans hd
  · intro k _
    exact hbyName _
  · intro name d _ hd
    cases (hbyName name).symm.trans hd
  · intro name d _ hd
    exact hdenotes name d hd

/-- In memory, what the name denotes is sound with all that it leads to, unless one of these is invalid. -/
theorem decided_of_not_spoilt {identifier : String} (hstorage : (w.source s).storage = .memory identifier)
    (hname : Document.isInFlow name = false) (hkept : ∀ other d, w.cached? s other = some d → w.Housed s d)
    (huntaken : w.Untaken s) (hnot : ∀ d, ¬ w.Spoilt s name d) :
    w.Decided s (· = name) (fun x => ∃ d, w.cached? s name = some d ∧ ReflTransGen w.Leads d x) (fun _ => False) := by
  refine ⟨⟨hkept, huntaken, ?_, ?_⟩, ?_, ?_, ?_, fun _ => False.elim⟩
  · rintro x ⟨d, hd, hreach⟩
    have hhoused : w.Housed s x := by
      induction hreach with
      | refl => exact hkept name d hd
      | tail _ hleads ih =>
          obtain ⟨other, -, hx⟩ := (leads_iff ih).1 hleads
          exact hkept other _ hx
    have hinterval : (w.source s).interval = -1 := by simp [Source.interval, hstorage]
    refine ⟨hhoused, ?_, .inl hinterval⟩
    intro hinvalid
    exact hnot d ⟨⟨identifier, hstorage⟩, hname, hkept, huntaken, hd, x, hreach, hinvalid⟩
  · rintro x y ⟨d, hd, hreach⟩ hleads
    exact ⟨d, hd, hreach.tail hleads⟩
  · rintro other rfl
    exact hname
  · intro other d _ hd
    exact .memory hstorage hd
  · rintro other d rfl hd
    cases hd with
    | memory _ hd => exact ⟨d, hd, .refl⟩
    | files hfile _ => exact absurd hstorage hfile.not_memory

end World

/-- How far the calls have come: nobody is done yet with the check of a document in memory that was stale from the start,
or it is decided what their names denote. -/
inductive Flight.Stage (s : SourceId) (isText : Bool) (compilation : Compilation) (Q : String → Prop) (f₀ : Flight)
    (names : List String) (past : List Finding) (f : Flight) : Prop
  | waiting {name : String} {d : DocumentId} (hQ : Q = (· = name)) (hstart : f₀.world.Spoilt s name d)
      (hw : f₀.world.Waits f.world) (hpast : past = [])
      (htasks : f.Each s isText compilation names fun other below t =>
        other = name ∧ Probes s name d below f₀.world f.world t)
  | decided {P N : DocumentId → Prop} (hw : f.world.Decided s Q P N)
      (hN : ∀ x, N x → ∃ name, Q name ∧ f₀.world.Spoilt s name x)
      (hsame : ∀ name name', f₀.world.Same s name name' → f.world.Same s name name')
      (hpast : Recalls s Q names past f.world)
      (htasks : f.Each s isText compilation names fun name below t => Q name ∧ Seeks s name below P N f.world t)

theorem World.Same.of_eq {name' : String} (h : w.Same s name name') (htree : w'.tree = w.tree)
    (hstorage : (w'.source s).storage = (w.source s).storage) : w'.Same s name name' := by
  rcases h with rfl | ⟨file, hfile, hfile'⟩
  · exact .inl rfl
  · exact .inr ⟨file, hfile.of_eq htree hstorage, hfile'.of_eq htree hstorage⟩

theorem Seeks.denotes (h : Seeks s name below P N w t) (ht : t.control = .settled (.ok (.document d))) :
    w.Denotes s name d := by
  cases h with
  | obtains hd =>
      cases ht
      exact hd
  | _ => cases ht

theorem Probes.finding?_eq_none (h : Probes s name d below w₀ w t) (id : TaskId) : t.finding? id = none := by
  cases h <;> rfl

theorem Probes.compiles?_eq_none (h : Probes s name d below w₀ w t) (w' : World) : t.compiles? w' = none := by
  apply Option.eq_none_iff_forall_ne_some.2
  intro x hx
  obtain ⟨_, _, _, _, _, _, rfl, -⟩ := Task.exists_of_compiles? hx
  cases h.finding?_eq_none ⟨0⟩

namespace Flight.Stage

/-- A call has started, and looks the name up. -/
theorem concat (h : Stage s isText compilation Q f₀ names past f) (hlength : names.length = f.tasks.length)
    (hname : Q name) (hbelow : below = [] ∨ below = [.creating s name isText compilation]) :
    Stage s isText compilation Q f₀ (names ++ [name]) past
      { f with tasks := f.tasks ++ [⟨below, .call (.getDocument s name)⟩] } := by
  cases h with
  | waiting hQ hstart hw hpast htasks =>
      subst hQ
      exact .waiting rfl hstart hw hpast (htasks.concat hlength hbelow ⟨hname, by cases hname; exact .asks⟩)
  | decided hw hN hsame hpast htasks =>
      exact .decided hw hN hsame (hpast.concat name) (htasks.concat hlength hbelow ⟨hname, .asks⟩)

theorem go_waiting {d : DocumentId} (hstart : f₀.world.Spoilt s name d) (hw : f₀.world.Waits f.world)
    (htasks : f.Each s isText compilation names fun other below t =>
      other = name ∧ Probes s name d below f₀.world f.world t) (ht : f.task? id = some t)
    (ha : t.advance f.world id = some (m, rest)) (hwake : m.wake = [])
    (hfinal : ∀ d, t.Passes f.world d → (f.world.document d).validity ≠ .invalid) :
    Stage s isText compilation (· = name) f₀ names (f.findings (f.proceed id m rest) id) (f.proceed id m rest) := by
  obtain ⟨other, below, hid, hbelow, rfl, hprobes⟩ := htasks id t ht
  have hages := Task.ages_of_advance_of_valid ha hfinal
  rw [findings_proceed hwake ht, hprobes.compiles?_eq_none]
  rcases hprobes.advance hstart hw ha hfinal with ⟨hw', hprobes'⟩ | ⟨hinvalid, rfl, rfl⟩
  · refine .waiting rfl hstart hw' ?_ (htasks.proceed hwake ht hid hbelow ⟨rfl, hprobes'⟩ ?_)
    · rw [hprobes'.finding?_eq_none]
      rfl
    · rintro name below t ⟨hname, hprobes⟩
      exact ⟨hname, hprobes.ages hages⟩
  · obtain ⟨hdecided, hdenotes, hnew⟩ := hw.renew hstart hinvalid
    have hseeks : Seeks s other rest (· = (f.world.renew s other d).2) (· = d) (f.world.renew s other d).1
        ⟨rest, .settled (.ok (.document (f.world.renew s other d).2))⟩ := .obtains hdenotes
    -- From here on the name denotes the new document, and `d` is the one that was replaced.
    refine .decided hdecided ?_ ?_ ?_ (htasks.proceed hwake ht hid hbelow ⟨rfl, hseeks⟩ ?_)
    · rintro x rfl
      exact ⟨other, rfl, hstart⟩
    · intro name name' hsame
      rcases hsame with heq | ⟨file, hfile, -⟩
      · exact .inl heq
      · obtain ⟨identifier, hmemory⟩ := hstart.memory
        exact absurd hmemory hfile.not_memory
    · apply Recalls.nil.append
      · intro y hy
        exact .of_seeks hseeks hid rfl hy
      · intro d' hd'
        exact absurd hd' (Task.finding?_ne_compiled _)
    · rintro name below t ⟨rfl, hprobes⟩
      refine ⟨rfl, hprobes.seeks hstart (hw.ages.trans hages) ?_ rfl⟩
      rintro x hx rfl
      exact Nat.not_lt_of_le hnew hx.1

theorem go_decided (hw : f.world.Decided s Q P N) (hN : ∀ x, N x → ∃ name, Q name ∧ f₀.world.Spoilt s name x)
    (hsame : ∀ name name', f₀.world.Same s name name' → f.world.Same s name name')
    (hpast : Recalls s Q names past f.world)
    (htasks : f.Each s isText compilation names fun name below t => Q name ∧ Seeks s name below P N f.world t)
    (ht : f.task? id = some t) (ha : t.advance f.world id = some (m, rest)) (hwake : m.wake = [])
    (hfinal : ∀ d, t.Passes f.world d → (f.world.document d).validity ≠ .invalid) :
    Stage s isText compilation Q f₀ names (past ++ f.findings (f.proceed id m rest) id) (f.proceed id m rest) := by
  obtain ⟨name, below, hid, hbelow, hname, hseeks⟩ := htasks id t ht
  obtain ⟨P', hw', hcarries, hseeks'⟩ := hseeks.advance hw hname hbelow ha hfinal
  refine .decided hw' hN ?_ ?_ (htasks.proceed hwake ht hid hbelow ⟨hname, hseeks'⟩ ?_)
  · intro name name' h
    exact (hsame name name' h).of_eq hcarries.tree (hcarries.ages.storage s)
  · rw [findings_proceed hwake ht, ← List.append_assoc]
    have hold := hpast.carries hcarries
    apply Recalls.append (Recalls.append hold ?_ ?_)
    · intro y hy
      exact .of_seeks hseeks' hid hname hy
    · intro d hd
      exact absurd hd (Task.finding?_ne_compiled _)
    · intro y hy
      obtain ⟨d, hd, rfl⟩ := Option.map_eq_some_iff.1 hy
      have hdenotes : f.world.Denotes s name d := by
        obtain ⟨_, _, _, _, _, _, rfl, -⟩ := Task.exists_of_compiles? hd
        exact hseeks.denotes rfl
      have hlt := (hw.upholds.sound d (hw.denoted name d hname hdenotes)).housed.1
      exact .compiled (Task.executable_of_compiles? hd hlt ha)
    · intro d hd hmem
      obtain ⟨x, hx, heq⟩ := Option.map_eq_some_iff.1 hd
      cases heq
      obtain ⟨_, _, _, _, _, _, -, hnone, -⟩ := Task.exists_of_compiles? hx
      cases hpast.holds _ hmem with
      | compiled h => exact h hnone
  · rintro name below t ⟨hname, hseeks⟩
    exact ⟨hname, hseeks.carries hname hcarries⟩

theorem go (h : Stage s isText compilation Q f₀ names past f) (ht : f.task? id = some t)
    (ha : t.advance f.world id = some (m, rest)) (hwake : m.wake = [])
    (hfinal : (∃ name d, Q name ∧ f₀.world.Spoilt s name d) →
      ∀ d, t.Passes f.world d → (f.world.document d).validity ≠ .invalid) :
    Stage s isText compilation Q f₀ names (past ++ f.findings (f.proceed id m rest) id) (f.proceed id m rest) := by
  cases h with
  | @waiting name d hQ hstart hw hpast htasks =>
      subst hQ hpast
      exact go_waiting hstart hw htasks ht ha hwake (hfinal ⟨name, d, rfl, hstart⟩)
  | @decided P N hw hN hsame hpast htasks =>
      apply go_decided hw hN hsame hpast htasks ht ha hwake
      by_cases hspoilt : ∃ name d, Q name ∧ f₀.world.Spoilt s name d
      · exact hfinal hspoilt
      · intro d hpasses
        obtain ⟨name, below, -, hbelow, hname, hseeks⟩ := htasks id t ht
        apply hseeks.valid_of_passes hw hname ?_ hbelow hpasses
        intro x hx
        obtain ⟨name, hname, hx⟩ := hN x hx
        exact hspoilt ⟨name, x, hname, hx⟩

/-- Before the first call it is decided what the names denote, unless a document in memory is stale. -/
theorem start (hf : f₀.tasks = []) (h : f₀.world.Opens s Q) : Stage s isText compilation Q f₀ [] [] f₀ := by
  have hnone (R : String → List Frame → Task → Prop) : f₀.Each s isText compilation [] R := by
    intro id t ht
    simp [task?, hf] at ht
  cases h with
  | files hstorage hbyName hbyFile =>
      exact .decided (decided_of_unread hstorage hbyName hbyFile) (fun _ => False.elim) (fun _ _ => id) .nil (hnone _)
  | @memory name identifier hstorage hname hkept huntaken =>
      by_cases hspoilt : ∃ d, f₀.world.Spoilt s name d
      · obtain ⟨d, hspoilt⟩ := hspoilt
        exact .waiting rfl hspoilt ⟨.refl _ _, .refl _⟩ rfl (hnone _)
      · have hdecided := decided_of_not_spoilt hstorage hname hkept huntaken fun d hd => hspoilt ⟨d, hd⟩
        exact .decided hdecided (fun _ => False.elim) (fun _ _ => id) .nil (hnone _)

end Flight.Stage

namespace Flight

theorem start_createOnce (f : Flight) (s : SourceId) (name : String) (isText : Bool) (compilation : Compilation) :
    f.start (.createOnce s name isText compilation) =
      { f with tasks := f.tasks ++ [⟨[.creating s name isText compilation], .call (.getDocument s name)⟩] } := by
  simp [start, spawn, proceed, wake, next, Move.begin, Move.call]

/-- Each task is a lookup under a name, and what it has come to is in `past`. -/
structure Tracks (names : List String) (past : List Finding) (f : Flight) : Prop where
  length : names.length = f.tasks.length
  looksUp : ∀ id t, f.task? id = some t → t.looksUp
  found : ∀ id t y, f.task? id = some t → t.finding? id = some y → y ∈ past

namespace Tracks

theorem start (hf : f.tasks = []) : Tracks [] [] f := by
  have hnone (id : TaskId) : f.task? id = none := by simp [task?, hf]
  refine ⟨by simp [hf], ?_, ?_⟩
  · intro id t ht
    cases (hnone id).symm.trans ht
  · intro id t y ht
    cases (hnone id).symm.trans ht

theorem spawn {c : Call} (h : Tracks names past f) (hc : c.looksUp) (name : String) :
    Tracks (names ++ [name]) past (f.spawn c) := by
  have htask (id : TaskId) (t : Task) (ht : (f.spawn c).task? id = some t) : t = ⟨[], .call c⟩ ∨ f.task? id = some t := by
    rw [task?_spawn] at ht
    split at ht
    · cases ht
      exact .inl rfl
    · exact .inr ht
  refine ⟨by simp [Flight.spawn, h.length], ?_, ?_⟩
  · intro id t ht
    rcases htask id t ht with rfl | hold
    · simpa [Task.looksUp, Control.looksUp] using hc
    · exact h.looksUp id t hold
  · intro id t y ht hy
    rcases htask id t ht with rfl | hold
    · cases hy
    · exact h.found id t y hold hy

theorem proceed (h : Tracks names past f) (ht : f.task? id = some t) (ha : t.advance f.world id = some (m, rest)) :
    m.wake = [] ∧ Tracks names (past ++ f.findings (f.proceed id m rest) id) (f.proceed id m rest) := by
  obtain ⟨hwake, hlooks⟩ := Task.looksUp_of_advance (h.looksUp id t ht) ha
  refine ⟨hwake, by rw [length_proceed, h.length], ?_, ?_⟩
  · intro id' t' ht'
    rw [task?_proceed hwake ht] at ht'
    split at ht'
    · cases ht'
      exact hlooks
    · exact h.looksUp id' t' ht'
  · intro id' t' y ht' hy
    rw [task?_proceed hwake ht] at ht'
    rw [findings_proceed hwake ht]
    split at ht'
    · next heq =>
        cases ht'
        subst heq
        simp [hy]
    · exact List.mem_append_left _ (h.found id' t' y ht' hy)

end Tracks

theorem Overlaps.stage (h : f₀.Overlaps s isText compilation Q names past f) (hf : f₀.tasks = [])
    (hopens : f₀.world.Opens s Q) : Tracks names past f ∧ Stage s isText compilation Q f₀ names past f := by
  induction h with
  | start => exact ⟨.start hf, .start hf hopens⟩
  | @call names past f _ name hname c hc ih =>
      obtain ⟨htracks, hstage⟩ := ih
      have ht : (f.spawn c).task? f.next = some ⟨[], .call c⟩ := task?_spawn_next c
      have hlooks : c.looksUp := by rcases hc with rfl | rfl <;> rfl
      obtain ⟨hwake, htracks'⟩ := (htracks.spawn hlooks name).proceed ht (m := Move.begin f.world f.next c) rfl
      refine ⟨htracks', ?_⟩
      rcases hc with rfl | rfl
      · apply (hstage.concat htracks.length hname (.inl rfl)).go ht rfl hwake
        intro _ d hpasses
        simp [Task.Passes] at hpasses
      · have hnone : (f.spawn (.createOnce s name isText compilation)).findings
            (f.start (.createOnce s name isText compilation)) f.next = [] := by
          rw [findings, ht, start_createOnce, task?_concat, if_pos rfl]
          rfl
        rw [hnone, List.append_nil, start_createOnce]
        exact hstage.concat htracks.length hname (.inr rfl)
  | @go names past f f' id _ hgo hfinal ih =>
      obtain ⟨htracks, hstage⟩ := ih
      cases hgo with
      | @go _ t m rest ht ha =>
          obtain ⟨hwake, htracks'⟩ := htracks.proceed ht ha
          refine ⟨htracks', hstage.go ht ha hwake ?_⟩
          intro hspoilt d hpasses
          exact hfinal hspoilt d ⟨id, t, rfl, ht, hpasses⟩

/-- Calls that overlap, all that they come to being in `past`, get one document for names that denote the same, and make
one executable of it, which is compiled once at most. -/
theorem Overlaps.single_flight (hf : f₀.tasks = []) (hopens : f₀.world.Opens s Q)
    (h : f₀.Overlaps s isText compilation Q names past f) :
    (∀ id t y, f.task? id = some t → t.finding? id = some y → y ∈ past) ∧
      (∀ id id' name name', names[id.index]? = some name → names[id'.index]? = some name' →
        f₀.world.Same s name name' →
          (∀ d d', .obtained id d ∈ past → .obtained id' d' ∈ past → d = d') ∧
          ∀ e e', .made id e ∈ past → .made id' e' ∈ past → e = e') ∧
      ∀ d, past.count (.compiled d) ≤ 1 := by
  obtain ⟨htracks, hstage⟩ := h.stage hf hopens
  refine ⟨htracks.found, ?_⟩
  cases hstage with
  | waiting _ _ _ hpast _ =>
      subst hpast
      exact ⟨fun _ _ _ _ _ _ _ => ⟨nofun, nofun⟩, fun _ => Nat.zero_le 1⟩
  | decided hw hN hsame hpast htasks =>
      refine ⟨?_, hpast.once⟩
      intro id id' name name' hid hid' h
      have hsame := hsame name name' h
      constructor
      · intro d d' hd hd'
        cases hpast.holds _ hd with
        | obtained hname _ hdenotes =>
            cases hname.symm.trans hid
            cases hpast.holds _ hd' with
            | obtained hname' _ hdenotes' =>
                cases hname'.symm.trans hid'
                exact (hdenotes.of_same hsame).unique hdenotes'
      · intro e e' he he'
        cases hpast.holds _ he with
        | made hname _ hdenotes hexecutable =>
            cases hname.symm.trans hid
            cases hpast.holds _ he' with
            | made hname' _ hdenotes' hexecutable' =>
                cases hname'.symm.trans hid'
                cases (hdenotes.of_same hsame).unique hdenotes'
                exact Option.some.inj (hexecutable.symm.trans hexecutable')

theorem Overlaps.step (h : f₀.Overlaps s isText compilation Q names past f) (id : TaskId) (ht : f.task? id = some t)
    (ha : t.advance f.world id = some (m, rest)) (hnot : ∀ d, ¬ t.Passes f.world d) :
    f₀.Overlaps s isText compilation Q names (past ++ f.findings (f.proceed id m rest) id) (f.proceed id m rest) := by
  apply h.go (.go ht ha)
  rintro - d ⟨id', t', hid, ht', hpasses⟩
  cases hid
  cases ht.symm.trans ht'
  exact absurd hpasses (hnot d)

end Flight

/-- Memory with one document, which is invalid. -/
def staleWorld : World :=
  { tree := { origin := "" }
    sources := [{ storage := .memory "", byName := (∅ : OrderedMap String DocumentId).insert "d" ⟨0⟩ }]
    documents := [{ name := "d", text := "", tag := "", timestamp := 0, source := ⟨0⟩, validity := .invalid
                    lastCheck := 0 }] }

namespace World

def freshWorld : World :=
  ((staleWorld.emit (.evicted "d" .invalid)).createDocument ⟨0⟩ "d" "" "" none).1.modifySource ⟨0⟩ fun source =>
    { source with byName := source.byName.insert "d" ⟨1⟩ }

def settledWorld : World := ((freshWorld.emit (.evicted "d" .invalid)).createDocument ⟨0⟩ "d" "" "" none).1

theorem renew_staleWorld : staleWorld.renew ⟨0⟩ "d" ⟨0⟩ = (freshWorld, ⟨1⟩) := by
  rw [renew_of_cached (by decide +kernel) (by decide +kernel), dropInFlow_of_nil]
  · rfl
  · rfl

theorem renew_freshWorld : freshWorld.renew ⟨0⟩ "d" ⟨0⟩ = (settledWorld, ⟨1⟩) := by
  rw [renew_of_ne (d := ⟨1⟩) (by decide +kernel) (by decide +kernel) (by decide), dropInFlow_of_nil]
  · rfl
  · rfl

theorem opens_staleWorld : staleWorld.Opens ⟨0⟩ (· = "d") := by
  have hcached (other : String) : staleWorld.cached? ⟨0⟩ other = if other = "d" then some ⟨0⟩ else none :=
    OrderedMap.get?_insert (∅ : OrderedMap String DocumentId) "d" ⟨0⟩ other
  refine .memory (show (staleWorld.source ⟨0⟩).storage = .memory "" from rfl) (by decide +kernel) ?_ ?_
  · intro other d hd
    rw [hcached] at hd
    split at hd <;> cases hd
    exact ⟨Nat.one_pos, rfl⟩
  · intro k _
    rw [hcached, if_neg (Document.ne_inFlowName (by decide +kernel) k).symm]

end World

namespace Flight

/-- Two calls that make the executable of the document. -/
def Twins (past : List Finding) (f : Flight) : Prop :=
  Overlaps ⟨0⟩ true { tag := "" } (· = "d") ⟨staleWorld, []⟩ ["d", "d"] past f

def appalled : Task :=
  ⟨[.named ⟨0⟩ "d" ⟨0⟩, .creating ⟨0⟩ "d" true { tag := "" }], .settled (.ok (.validity false []))⟩

def supplied : Task := ⟨[.creating ⟨0⟩ "d" true { tag := "" }], .settled (.ok (.document ⟨1⟩))⟩

def suppliedBoth : Flight := ⟨settledWorld, [supplied, supplied]⟩

def compiling (f : Flight) : Move := Move.afterCreating f.world ⟨0⟩ "d" ⟨1⟩ true { tag := "" }

def compiledOnce : Flight := suppliedBoth.proceed ⟨0⟩ suppliedBoth.compiling []

def compiledBoth : Flight := compiledOnce.proceed ⟨1⟩ compiledOnce.compiling []

theorem twins_suppliedBoth : Twins [.obtained ⟨0⟩ ⟨1⟩, .obtained ⟨1⟩ ⟨1⟩] suppliedBoth := by
  have hstart : Overlaps ⟨0⟩ true { tag := "" } (· = "d") ⟨staleWorld, []⟩ [] [] ⟨staleWorld, []⟩ := .start
  have hfirst := hstart.call (c := .createOnce ⟨0⟩ "d" true { tag := "" }) rfl (.inr rfl)
  have hsecond := hfirst.call (c := .createOnce ⟨0⟩ "d" true { tag := "" }) rfl (.inr rfl)
  have happalled : Twins [] ⟨staleWorld, [appalled, appalled]⟩ :=
    (((hsecond.step ⟨0⟩ rfl rfl fun _ => id).step ⟨1⟩ rfl rfl fun _ => id).step ⟨0⟩ rfl rfl fun _ => id).step
      ⟨1⟩ rfl rfl fun _ => id
  have hrenewed : Twins [.obtained ⟨0⟩ ⟨1⟩] ⟨freshWorld, [supplied, appalled]⟩ := by
    apply happalled.step (m := Move.reply freshWorld (.document ⟨1⟩)) ⟨0⟩ rfl ?_ fun _ => id
    change some (Move.afterNamed staleWorld ⟨0⟩ "d" ⟨0⟩ false, _) = _
    rw [Move.afterNamed, renew_staleWorld]
    rfl
  apply hrenewed.step (m := Move.reply settledWorld (.document ⟨1⟩)) ⟨1⟩ rfl ?_ fun _ => id
  change some (Move.afterNamed freshWorld ⟨0⟩ "d" ⟨0⟩ false, _) = _
  rw [Move.afterNamed, renew_freshWorld]
  rfl

/-- Both find the old document invalid, and make one executable of a new one. -/
theorem single_flight_of_staleWorld :
    let past : List Finding := [.obtained ⟨0⟩ ⟨1⟩, .obtained ⟨1⟩ ⟨1⟩, .compiled ⟨1⟩, .made ⟨0⟩ ⟨0⟩, .made ⟨1⟩ ⟨0⟩]
    Twins past compiledBoth ∧ (∀ e e', .made ⟨0⟩ e ∈ past → .made ⟨1⟩ e' ∈ past → e = e') ∧
      ∀ d, past.count (.compiled d) ≤ 1 := by
  intro past
  have hwake : suppliedBoth.compiling.wake = [] := (Move.searches_afterCreating ..).wake
  have ht : compiledOnce.task? ⟨1⟩ = some supplied := by
    rw [compiledOnce, task?_proceed hwake rfl, if_neg (by decide)]
    rfl
  have htwins : Twins past compiledBoth := by
    have honce : Twins ([.obtained ⟨0⟩ ⟨1⟩, .obtained ⟨1⟩ ⟨1⟩] ++ suppliedBoth.findings compiledOnce ⟨0⟩) compiledOnce :=
      twins_suppliedBoth.step ⟨0⟩ rfl rfl fun _ => id
    have hboth : Twins ([.obtained ⟨0⟩ ⟨1⟩, .obtained ⟨1⟩ ⟨1⟩] ++ suppliedBoth.findings compiledOnce ⟨0⟩ ++
        compiledOnce.findings compiledBoth ⟨1⟩) compiledBoth := honce.step ⟨1⟩ ht rfl fun _ => id
    have hfindings : suppliedBoth.findings compiledOnce ⟨0⟩ ++ compiledOnce.findings compiledBoth ⟨1⟩ =
        [.compiled ⟨1⟩, .made ⟨0⟩ ⟨0⟩, .made ⟨1⟩ ⟨0⟩] := by decide +kernel
    rw [List.append_assoc, hfindings] at hboth
    exact hboth
  obtain ⟨-, hone, honce⟩ := Overlaps.single_flight rfl opens_staleWorld htwins
  exact ⟨htwins, (hone ⟨0⟩ ⟨1⟩ "d" "d" rfl rfl (.inl rfl)).2, honce⟩

end Flight

end ScriptedText
