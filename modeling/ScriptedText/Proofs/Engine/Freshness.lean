import ScriptedText.Proofs.Engine.Eviction
import ScriptedText.Proofs.Files.Following

/-!
How old the text of a document can be that a lookup gives: its file had it at a time that is no longer ago than the source
waits between two looks at a file. Every document has a moment at which its file was read, and a moment, not before the
file was looked at for the last time, at which the file still had that text.
-/

namespace ScriptedText

open Relation

/-- A time, and what was on the disk then. -/
structure Moment where
  clock : Int
  tree : Files.Tree

/-- The file had the text at the moment. -/
def Moment.Shows (m : Moment) (file : Files.Path) (text : String) : Prop :=
  ∃ real bytes mtime, m.tree.status file = .file real bytes mtime ∧ text = Text.decodeUtf8 bytes

namespace World

def moment (w : World) : Moment := ⟨w.clock, w.tree⟩

/-- What has happened to a source of files that was empty, and to the files, with all moments that there were: files are
written, with later times than they ever had, and removed, time goes by, documents come to depend on others, and documents
are looked up. -/
inductive Chronicle (s : SourceId) (interval : Int) : List Moment → World → Prop
  | start {w : World} {naming : Files.Naming} (hstorage : (w.source s).storage = .files naming interval)
      (hempty : w.Empty s) : Chronicle s interval [w.moment] w
  | write {past : List Moment} {w : World} (h : Chronicle s interval past w) (p : Files.Path) (bytes : List UInt8)
      (mtime : Int) (hlater : ∀ m ∈ past, (w.tree.write p bytes mtime).Follows m.tree) :
      Chronicle s interval (⟨w.clock, w.tree.write p bytes mtime⟩ :: past) (w.serve (.files (w.tree.write p bytes mtime)))
  | remove {past : List Moment} {w : World} (h : Chronicle s interval past w) (p : Files.Path) :
      Chronicle s interval (⟨w.clock, w.tree.remove p⟩ :: past) (w.serve (.files (w.tree.remove p)))
  | tick {past : List Moment} {w : World} (h : Chronicle s interval past w) (now : Int) (hnow : w.clock ≤ now) :
      Chronicle s interval (⟨now, w.tree⟩ :: past) { w with clock := now }
  | depend {past : List Moment} {w : World} (h : Chronicle s interval past w) (d : DocumentId) (name : String) :
      Chronicle s interval past (w.serve (.depend d name))
  | lookup {past : List Moment} {w w' : World} (h : Chronicle s interval past w) {id : TaskId} {name : String} {o : Outcome}
      (hends : Task.Ends id w ⟨[], .call (.getDocument s name)⟩ w' o) : Chronicle s interval past w'

/-- Where the text of a document comes from: a file had it when it was read, and at some time since it was last looked at,
as far as the document is not known to be invalid. -/
structure Traced (past : List Moment) (s : SourceId) (w : World) (d : DocumentId) : Prop where
  lt : d.index < w.documents.length
  source : (w.document d).source = s
  read : ∃ file, (w.document d).file = some file ∧ ∃ m ∈ past, ∃ real bytes,
    m.tree.status file = .file real bytes (w.document d).timestamp ∧ (w.document d).text = Text.decodeUtf8 bytes
  recent : (w.document d).validity ≠ .invalid → ∃ m ∈ past, (w.document d).lastCheck ≤ m.clock ∧
    ∀ file, (w.document d).file = some file → m.Shows file (w.document d).text

structure Recorded (s : SourceId) (interval : Int) (past : List Moment) (w : World) : Prop where
  storage : ∃ naming, (w.source s).storage = .files naming interval
  now : w.moment ∈ past
  clock : ∀ m ∈ past, m.clock ≤ w.clock
  tree : ∀ m ∈ past, w.tree.Follows m.tree
  traced : ∀ d, w.Stores s d → w.Traced past s d

variable {w w' : World} {s : SourceId} {interval : Int} {past past' : List Moment} {name text : String} {d : DocumentId}
  {file : Files.Path} {mtime : Int} {id : TaskId} {o : Outcome}

/-- A lookup takes no time, and does nothing to files. -/
theorem moment_of_chores (h : ReflTransGen (Chore s) w w') : w'.moment = w.moment := by
  induction h with
  | refl => rfl
  | tail _ hchore ih =>
      refine Eq.trans ?_ ih
      cases hchore with
      | check hchecks =>
          rw [hchecks.rechecks.world]
          rfl
      | renew _ _ _ =>
          unfold renew
          dsimp only
          split <;> rfl
      | _ => rfl

/-- Nothing about a document but its dependencies has changed. -/
theorem Traced.of_eq (h : w.Traced past s d) (hpast : ∀ m ∈ past, m ∈ past')
    (hsame : w'.document d = { w.document d with dependencies := (w'.document d).dependencies })
    (hlength : w.documents.length ≤ w'.documents.length) : w'.Traced past' s d := by
  refine ⟨Nat.lt_of_lt_of_le h.lt hlength, ?_, ?_, ?_⟩ <;> rw [hsame]
  · exact h.source
  · obtain ⟨file, hfile, m, hm, hread⟩ := h.read
    exact ⟨file, hfile, m, hpast m hm, hread⟩
  · intro hvalid
    obtain ⟨m, hm, hshown⟩ := h.recent hvalid
    exact ⟨m, hpast m hm, hshown⟩

/-- A file that is unchanged has the text of the document now. -/
theorem Traced.shows (h : w.Traced past s d) (htree : ∀ m ∈ past, w.tree.Follows m.tree) (hsame : w.isUnchanged d = true)
    (hfile : (w.document d).file = some file) : w.moment.Shows file (w.document d).text := by
  obtain ⟨file', hfile', m, hm, real, bytes, hread, htext⟩ := h.read
  cases hfile.symm.trans hfile'
  have htime : ∃ time, (w.tree.status file).time? = some time ∧ time ≤ (w.document d).timestamp := by
    unfold isUnchanged at hsame
    dsimp only at hsame
    rw [hfile] at hsame
    dsimp only at hsame
    split at hsame
    · next heq => exact ⟨_, by rw [heq]; rfl, of_decide_eq_true hsame⟩
    · next heq => exact ⟨_, by rw [heq]; rfl, of_decide_eq_true hsame⟩
    · cases hsame
  obtain ⟨time, htime, hle⟩ := htime
  rcases htree m hm file real bytes _ time hread htime with hlater | ⟨real', hstill⟩
  · exact absurd hlater (Int.not_lt.2 hle)
  · exact ⟨real', bytes, _, hstill, htext⟩

/-- A document that was checked still has a moment at which its file had the text: now, if the file was looked at. -/
theorem Traced.checks (h : w.Traced past s d) (htree : ∀ m ∈ past, w.tree.Follows m.tree) (hnow : w.moment ∈ past)
    (hchecks : w.Checks w') : w'.Traced past s d := by
  have hdoc := hchecks.rechecks.document d
  have htext : (w'.document d).text = (w.document d).text := by rw [hdoc]
  have hfile : (w'.document d).file = (w.document d).file := by rw [hdoc]
  have htime : (w'.document d).timestamp = (w.document d).timestamp := by rw [hdoc]
  refine ⟨hchecks.rechecks.length ▸ h.lt, by rw [hdoc]; exact h.source, ?_, fun hvalid => ?_⟩
  · rw [htext, hfile, htime]
    exact h.read
  · rw [htext, hfile]
    rcases hchecks.looked d with hsame | ⟨hlooked, hfound⟩
    · rw [hsame]
      exact h.recent fun hinvalid => hvalid (hchecks.invalid d hinvalid)
    · refine ⟨w.moment, hnow, Int.le_of_eq hlooked, fun file hfile => ?_⟩
      exact h.shows htree (hfound.resolve_right hvalid) hfile

namespace Recorded

/-- Nothing was written, and what the source keeps it kept before. -/
theorem of_kept (h : w.Recorded s interval past) (hmoment : w'.moment = w.moment)
    (hstorage : (w'.source s).storage = (w.source s).storage) (htraced : ∀ d, w'.Stores s d → w'.Traced past s d) :
    w'.Recorded s interval past := by
  obtain ⟨naming, hfiles⟩ := h.storage
  have hclock : w'.clock = w.clock := congrArg Moment.clock hmoment
  have htree : w'.tree = w.tree := congrArg Moment.tree hmoment
  exact ⟨⟨naming, hstorage.trans hfiles⟩, hmoment ▸ h.now, hclock ▸ h.clock, htree ▸ h.tree, htraced⟩

theorem interval_eq (h : w.Recorded s interval past) : (w.source s).interval = interval := by
  obtain ⟨naming, hstorage⟩ := h.storage
  unfold Source.interval
  rw [hstorage]

theorem checks (h : w.Recorded s interval past) (hchecks : w.Checks w') : w'.Recorded s interval past := by
  have hsource := hchecks.rechecks.source_eq s
  refine h.of_kept ?_ (congrArg Source.storage hsource) fun d hd => ?_
  · rw [hchecks.rechecks.world]
    rfl
  · unfold Stores at hd
    rw [hsource] at hd
    exact (h.traced d hd).checks h.tree h.now hchecks

theorem evict (h : w.Recorded s interval past) (d : DocumentId) : (w.evict s d).Recorded s interval past := by
  refine h.of_kept rfl ((ages_evict w s d).storage s) fun x hx => ?_
  rcases (Stows.evict (s := s) w s d).stores x hx with hold | ⟨hlow, hlt⟩
  · exact (h.traced x hold).of_eq (fun _ => id) rfl (Nat.le_refl _)
  · exact absurd hlt (Nat.not_lt_of_le hlow)

theorem keepByName (h : w.Recorded s interval past) (name : String) (hd : w.Stores s d) :
    (w.keepByName s name d).1.Recorded s interval past := by
  refine h.of_kept rfl ((ages_keepByName w s name d).storage s) fun x hx => ?_
  have hold : w.Stores s x := by
    rcases Move.stores_keepByName hx with hold | ⟨-, rfl⟩
    · exact hold
    · exact hd
  exact (h.traced x hold).of_eq (fun _ => id) rfl (Nat.le_refl _)

/-- What is read has the text that its file has now. -/
theorem keepFile (h : w.Recorded s interval past) (hread : Files.Naming.read w.tree file name = .ok (text, mtime)) :
    (w.keepFile s name text file mtime).Recorded s interval past := by
  obtain ⟨real, bytes, hstatus, htext⟩ := status_of_read hread
  have hlength : (w.keepFile s name text file mtime).documents.length = w.documents.length + 1 := List.length_append
  refine h.of_kept rfl ((ages_keepFile w s name text file mtime).storage s) fun x hx => ?_
  rcases (Stows.keepFile (s := s) w s name text file mtime).stores x hx with hold | ⟨hlow, hlt⟩
  · have hsame : (w.keepFile s name text file mtime).document x = w.document x :=
      document_of_grown (List.prefix_append _ _) (h.traced x hold).lt
    exact (h.traced x hold).of_eq (fun _ => id) (by rw [hsame]) (by omega)
  · obtain ⟨i⟩ := x
    have hi : i = w.documents.length := by
      rw [hlength] at hlt
      exact Nat.le_antisymm (Nat.le_of_lt_succ hlt) hlow
    subst hi
    have hnew := document_keepFile w s name text file mtime
    refine ⟨hlt, by rw [hnew]; rfl, ?_, fun _ => ?_⟩
    · rw [hnew]
      exact ⟨file, rfl, w.moment, h.now, real, bytes, hstatus, htext⟩
    · rw [hnew]
      refine ⟨w.moment, h.now, Int.le_refl _, ?_⟩
      rintro _ ⟨⟩
      exact ⟨real, bytes, mtime, hstatus, htext⟩

theorem chore (h : w.Recorded s interval past) (hchore : Chore s w w') : w'.Recorded s interval past := by
  have hfiled (d : DocumentId) (hd : w.Stores s d) : (w.document d).file ≠ none := by
    obtain ⟨file, hfile, -⟩ := (h.traced d hd).read
    rw [hfile]
    exact Option.some_ne_none file
  cases hchore with
  | check hchecks => exact h.checks hchecks
  | renew hmemory _ _ =>
      obtain ⟨identifier, hmemory⟩ := hmemory
      obtain ⟨naming, hstorage⟩ := h.storage
      cases hmemory.symm.trans hstorage
  | evict _ _ _ => exact h.evict _
  | reenter _ hd _ hfile => exact absurd hfile (hfiled _ (.inl ⟨_, hd⟩))
  | keep _ _ hd _ => exact h.keepByName _ (.inr ⟨_, hd⟩)
  | read _ _ _ hread => exact h.keepFile hread

theorem chores (h : w.Recorded s interval past) (hchores : ReflTransGen (Chore s) w w') :
    w'.Recorded s interval past := by
  induction hchores with
  | refl => exact h
  | tail _ hchore ih => exact ih.chore hchore

end Recorded

theorem Chronicle.recorded (h : Chronicle s interval past w) : w.Recorded s interval past := by
  induction h with
  | @start w naming hstorage hempty =>
      refine ⟨⟨naming, hstorage⟩, List.mem_singleton_self _, ?_, ?_, fun d hd => ?_⟩
      · exact List.forall_mem_singleton.2 (Int.le_refl _)
      · exact List.forall_mem_singleton.2 (.refl _)
      · rcases hd with ⟨name, hd⟩ | ⟨file, hd⟩
        · cases (hempty.1 name).symm.trans hd
        · cases (hempty.2 file).symm.trans hd
  | @write past w h p bytes mtime hlater ih =>
      refine ⟨ih.storage, List.mem_cons_self .., ?_, ?_, fun d hd => ?_⟩
      · exact List.forall_mem_cons.2 ⟨Int.le_refl _, ih.clock⟩
      · exact List.forall_mem_cons.2 ⟨.refl _, hlater⟩
      · exact (ih.traced d hd).of_eq (fun _ => List.mem_cons_of_mem _) rfl (Nat.le_refl _)
  | @remove past w h p ih =>
      refine ⟨ih.storage, List.mem_cons_self .., ?_, ?_, fun d hd => ?_⟩
      · exact List.forall_mem_cons.2 ⟨Int.le_refl _, ih.clock⟩
      · exact List.forall_mem_cons.2 ⟨.refl _, fun m hm => (ih.tree m hm).thin (Files.Tree.thins_remove _ p)⟩
      · exact (ih.traced d hd).of_eq (fun _ => List.mem_cons_of_mem _) rfl (Nat.le_refl _)
  | @tick past w h now hnow ih =>
      refine ⟨ih.storage, List.mem_cons_self .., ?_, ?_, fun d hd => ?_⟩
      · exact List.forall_mem_cons.2 ⟨Int.le_refl _, fun m hm => Int.le_trans (ih.clock m hm) hnow⟩
      · exact List.forall_mem_cons.2 ⟨.refl _, ih.tree⟩
      · exact (ih.traced d hd).of_eq (fun _ => List.mem_cons_of_mem _) rfl (Nat.le_refl _)
  | @depend past w h d name ih =>
      refine ih.of_kept rfl rfl fun x hx => (ih.traced x hx).of_eq (fun _ => id) ?_ (Nat.le_of_eq (List.length_modify ..).symm)
      change (w.modifyDocument d fun y => y.addDependency name).document x =
        { w.document x with
          dependencies := ((w.modifyDocument d fun y => y.addDependency name).document x).dependencies }
      rcases document_modifyDocument_cases w (·.addDependency name) d x with hsame | ⟨-, hsame⟩
      · rw [hsame]
      · rw [hsame]
        unfold Document.addDependency
        split <;> rfl
  | lookup h hends ih => exact ih.chores (lookup_of_ends hends).chores

end World

/-- The file that was read is written again, and a second goes by. -/
def World.outdated (w : World) : World :=
  { w.serve (.files (w.tree.write ["a"] [121] 2)) with clock := 1 }

/-- Looks the document up, and once more after its file was written again. -/
def lookTwice : Option (World × Outcome) :=
  (Task.drive ⟨0⟩ 20 (Course.fileWorld 2) ⟨[], .call (.getDocument ⟨0⟩ "a")⟩).bind fun x =>
    Task.drive ⟨0⟩ 20 x.1.outdated ⟨[], .call (.getDocument ⟨0⟩ "a")⟩

namespace World

theorem plain_fileWorld (interval : Int) : (Course.fileWorld interval).tree.Plain :=
  Files.Tree.Plain.write (t := { origin := "" }) (fun _ _ h => nomatch h) ["a"] [120] 1

theorem follows_outdated : ((Course.fileWorld 2).tree.write ["a"] [121] 2).Follows (Course.fileWorld 2).tree := by
  have hplain := plain_fileWorld 2
  refine Files.Tree.follows_of_nodes (hplain.write _ _ _) hplain ((Files.Tree.NodesFollow.refl _).write _ ?_)
  have hold : (Course.fileWorld 2).tree.nodes.get? ((Course.fileWorld 2).tree.placeOf ["a"]).2 = some (.file [120] 1) := by
    decide +kernel
  rintro bytes time hfile
  cases hold.symm.trans hfile
  decide

end World

end ScriptedText
