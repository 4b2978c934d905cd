import ScriptedText.Proofs.Engine.Custody
import ScriptedText.Proofs.Engine.Happening
import ScriptedText.Proofs.Language.Command

/-!
One executable while calls run it, claim a context for it, enter it and release it, in any order: what it has on
record is what has happened to it.
-/

namespace ScriptedText

namespace Happening

variable (e : ExecutableId)

def completion? : Happening → Option Int
  | .completed e' clock => if e' = e then some clock else none
  | _ => none

def isClaim : Happening → Bool
  | .claimed e' _ => e' = e
  | _ => false

def isRelease : Happening → Bool
  | .released e' => e' = e
  | _ => false

/-- When the runs of the executable were completed. -/
def completions (past : List Happening) : List Int := past.filterMap (completion? e)

/-- How often a context was claimed for the executable. -/
def claims (past : List Happening) : Nat := past.countP (isClaim e)

/-- How often the executable gave up a context. -/
def releases (past : List Happening) : Nat := past.countP (isRelease e)

variable {e}

@[simp]
theorem completions_concat (past : List Happening) (a : Happening) :
    completions e (past ++ [a]) = completions e past ++ (a.completion? e).toList := by
  unfold completions
  rw [List.filterMap_append]
  cases h : a.completion? e <;> simp [h]

@[simp]
theorem claims_concat (past : List Happening) (a : Happening) :
    claims e (past ++ [a]) = claims e past + if a.isClaim e then 1 else 0 := by
  unfold claims
  rw [List.countP_append, List.countP_singleton]

@[simp]
theorem releases_concat (past : List Happening) (a : Happening) :
    releases e (past ++ [a]) = releases e past + if a.isRelease e then 1 else 0 := by
  unfold releases
  rw [List.countP_append, List.countP_singleton]

end Happening

namespace Executable

variable {e : ExecutableId} {x : Executable} {past : List Happening} {a : Happening}

/-- What an executable `e` has on record after all that has happened. -/
structure Standing (e : ExecutableId) (x : Executable) (past : List Happening) : Prop where
  constructed : x.state = .constructed ↔ x.count = 0
  enterable : x.state = .enterable ↔ x.claimed.isSome = true
  count : x.count = (Happening.completions e past).length
  last : x.last = (Happening.completions e past).getLast?.getD 0
  claims : Happening.claims e past = Happening.releases e past + x.claimed.isSome.toNat

namespace Standing

theorem unchanged (h : x.Standing e past) (hcompletion : a.completion? e = none) (hclaim : a.isClaim e = false)
    (hrelease : a.isRelease e = false) : x.Standing e (past ++ [a]) where
  constructed := h.constructed
  enterable := h.enterable
  count := by simpa [hcompletion] using h.count
  last := by simpa [hcompletion] using h.last
  claims := by simpa [hclaim, hrelease] using h.claims

theorem ran (h : x.Standing e past) (clock : Int) : (x.ran clock).Standing e (past ++ [.completed e clock]) where
  constructed := by
    unfold Executable.ran
    dsimp only
    split
    · simp
    · next hstate => simp [hstate]
  enterable := by
    unfold Executable.ran
    dsimp only
    rw [← h.enterable]
    split
    · next hstate => simp [hstate]
    · rfl
  count := by simpa [Executable.ran, Happening.completion?] using h.count
  last := by simp [Executable.ran, Happening.completion?]
  claims := by simpa [Executable.ran, Happening.isClaim, Happening.isRelease] using h.claims

theorem claim (h : x.Standing e past) (hfree : x.claimed = none) (hcount : 0 < x.count) (c : ContextId) :
    (x.claim c).Standing e (past ++ [.claimed e c]) where
  constructed := by simp [Executable.claim, Nat.ne_of_gt hcount]
  enterable := by simp [Executable.claim]
  count := by simpa [Executable.claim, Happening.completion?] using h.count
  last := by simpa [Executable.claim, Happening.completion?] using h.last
  claims := by
    have hclaims := h.claims
    rw [hfree] at hclaims
    simpa [Executable.claim, Happening.isClaim, Happening.isRelease] using hclaims

theorem unclaim (h : x.Standing e past) (hclaimed : x.claimed.isSome = true) :
    x.unclaim.Standing e (past ++ [.released e]) where
  constructed := by
    have hstate := h.enterable.2 hclaimed
    have hcount : x.count ≠ 0 := fun hzero => nomatch hstate.symm.trans (h.constructed.2 hzero)
    simp [Executable.unclaim, hcount]
  enterable := by simp [Executable.unclaim]
  count := by simpa [Executable.unclaim, Happening.completion?] using h.count
  last := by simpa [Executable.unclaim, Happening.completion?] using h.last
  claims := by
    have hclaims := h.claims
    rw [hclaimed] at hclaims
    simpa [Executable.unclaim, Happening.isClaim, Happening.isRelease] using hclaims

/-- A context is claimed only for an executable that has run and has none. -/
theorem after (h : x.Standing e past) (hclaim : ∀ c, a = .claimed e c → x.claimed = none ∧ 0 < x.count)
    (hrelease : a = .released e → x.claimed.isSome = true) : (x.after e a).Standing e (past ++ [a]) := by
  cases a with
  | completed e' clock =>
      by_cases he : e' = e
      · subst he
        simpa [Executable.after] using h.ran clock
      · simpa [Executable.after, he] using h.unchanged (a := .completed e' clock) (by simp [Happening.completion?, he]) rfl rfl
  | failed e' => exact h.unchanged rfl rfl rfl
  | claimed e' c =>
      by_cases he : e' = e
      · subst he
        obtain ⟨hfree, hcount⟩ := hclaim c rfl
        simpa [Executable.after] using h.claim hfree hcount c
      · simpa [Executable.after, he] using h.unchanged (a := .claimed e' c) rfl (by simp [Happening.isClaim, he]) rfl
  | released e' =>
      by_cases he : e' = e
      · subst he
        simpa [Executable.after] using h.unclaim (hrelease rfl)
      · simpa [Executable.after, he] using h.unchanged (a := .released e') rfl rfl (by simp [Happening.isRelease, he])
  | kept e' duration =>
      have hkept : ({ x with cacheDuration := duration } : Executable).Standing e past :=
        ⟨h.constructed, h.enterable, h.count, h.last, h.claims⟩
      by_cases he : e' = e
      · subst he
        simpa [Executable.after] using hkept.unchanged (a := .kept e' duration) rfl rfl rfl
      · simpa [Executable.after, he] using h.unchanged (a := .kept e' duration) rfl rfl rfl

end Standing

/-- Output that is to be kept for a while has not expired before the while is over. -/
theorem young_iff {now : Int} (hnow : 0 ≤ now) (hlast : x.last ≤ now) :
    now - x.last < x.cacheDuration ↔ now < x.expiration := by
  unfold expiration
  split <;> omega

theorem count_le_after (x : Executable) (a : Happening) : x.count ≤ (x.after e a).count := by
  unfold after
  cases a with
  | completed e' clock =>
      dsimp only
      split
      · exact Nat.le_succ _
      · exact Nat.le_refl _
  | failed e' => exact Nat.le_refl _
  | _ =>
      dsimp only
      split <;> exact Nat.le_refl _

end Executable

/-! Tasks that claim. -/

/-- The executable of the run that the frame is of. -/
def Frame.run? : Frame → Option ExecutableId
  | .initialized run | .segment run _ | .finalized run _ => some run.executable
  | _ => none

def Frame.isClaiming : Frame → Bool
  | .claiming _ => true
  | _ => false

/-- Whether a call that claims is about to begin. -/
def Control.claims : Control → Bool
  | .call (.makeEnterable _) => true
  | _ => false

/-- What a claim waits for: a run of the executable begins, goes on or has ended, and counts if it did not fail. -/
inductive Leads (e : ExecutableId) (count : Nat) : List Frame → Control → Prop
  | begins (run : Run) (h : run.executable = e) : Leads e count [] (.call (.execute run {}))
  | runs {above : List Frame} (control : Control) {f : Frame} (hlast : above.getLast? = some f) (h : f.run? = some e) :
      Leads e count above control
  | fails (f : Failure) : Leads e count [] (.settled (.error f))
  | ends (r : Reply) (h : 0 < count) : Leads e count [] (.settled (.ok r))

/-- A task that claims for no executable, or claims on the contexts of `e` just for `e`. -/
inductive Task.Attends (e : ExecutableId) (own : ContextId → Prop) (count : Nat) : Task → Prop
  | plain {stack : List Frame} {control : Control} (hstack : stack.any Frame.isClaiming = false)
      (hcontrol : control.claims = false) : Attends e own count ⟨stack, control⟩
  | claims {above : List Frame} {control : Control} {run : Run} (hown : run.executable = e ↔ own run.context)
      (habove : above.any Frame.isClaiming = false) (hcontrol : control.claims = false)
      (hleads : run.executable = e → Leads e count above control) :
      Attends e own count ⟨above ++ [.claiming run], control⟩

/-- Contexts are claimed for the executable among its own ones, and for no other executable there. -/
def Deed.Heeds (e : ExecutableId) (own : ContextId → Prop) : Deed → Prop
  | .call (.makeEnterable run) => run.executable = e ↔ own run.context
  | _ => True

section attends

variable {e : ExecutableId} {own : ContextId → Prop} {w : World} {id : TaskId} {control : Control}
  {popped frames rest : List Frame} {m : Move} {count : Nat} {run : Run} {t : Task}

theorem any_isClaiming_of_isPlain (h : frames.all Frame.isPlain) : frames.any Frame.isClaiming = false := by
  rw [List.any_eq_false]
  intro f hf
  have hplain := List.all_eq_true.1 h f hf
  cases f <;> first | exact Bool.false_ne_true | cases hplain

theorem Control.claims_of_isPlain {c : Control} (h : c.isPlain) : c.claims = false := by
  cases c with
  | call asked => cases asked <;> first | rfl | cases h
  | _ => rfl

namespace Move

/-- No step begins a claim by itself. -/
theorem Deals.claims_nothing (h : Deals w id control popped m) (hcontrol : control.claims = false) :
    m.push.any Frame.isClaiming = false ∧ m.control.claims = false := by
  cases h with
  | quiet hpopped h => exact ⟨any_isClaiming_of_isPlain h.push, Control.claims_of_isPlain h.control⟩
  | takes hpopped hpush h hfree =>
      have hbelow := any_isClaiming_of_isPlain hpush
      exact ⟨hbelow, rfl⟩
  | queues hpopped hpush h hlocked hother =>
      have hbelow := any_isClaiming_of_isPlain hpush
      exact ⟨hbelow, rfl⟩
  | enters o r inside =>
      have hgo := quiet_goInside (w.setLock r ((w.lock r).claim inside.context)) inside
      refine ⟨?_, Control.claims_of_isPlain hgo.control⟩
      unfold afterGranted under
      rw [List.any_append, any_isClaiming_of_isPlain hgo.push]
      rfl
  | begins run => cases hcontrol
  | _ => exact ⟨rfl, rfl⟩

/-- A run goes on until it ends, and counts if it does not fail. -/
theorem leads_resume (he : e.index < w.executables.length) {f : Frame} (hf : f.run? = some e) (o : Outcome) :
    Leads e ((resume w id f o).world.executable e).count (resume w id f o).push (resume w id f o).control := by
  have hfinish (run : Run) (hrun : run.executable = e) (outcome : Except Failure Unit) (count : Nat)
      (control : Control) : Leads e count (finish w run outcome).push control := by
    rw [push_finish]
    exact .runs control rfl (congrArg some hrun)
  have hsegments (run : Run) (hrun : run.executable = e) (segments : List PlacedSegment) (count : Nat)
      (control : Control) : Leads e count (runSegments w id run segments).push control := by
    rcases exists_push_runSegments w id run segments with ⟨outcome, h⟩ | ⟨above, rest, h⟩
    · rw [h]
      exact .runs control rfl (congrArg some hrun)
    · rw [h]
      exact .runs control List.getLast?_concat (congrArg some hrun)
  cases f with
  | initialized run =>
      cases o with
      | error f => exact .fails f
      | ok r => exact hsegments run (Option.some.inj hf) _ _ _
  | segment run rest =>
      cases o with
      | error f => exact hfinish run (Option.some.inj hf) _ _ _
      | ok r => exact hsegments run (Option.some.inj hf) rest _ _
  | finalized run outcome =>
      cases o with
      | error f => exact .fails f
      | ok r =>
          cases outcome with
          | error f => exact .fails f
          | ok _ =>
              cases Option.some.inj hf
              refine .ends _ ?_
              have hran : ((close w run (.ok ())).world.executable run.executable) = _ :=
                (World.executable_modifyExecutable (·.ran w.clock) run.executable he).trans (if_pos rfl)
              exact hran ▸ Nat.succ_pos _
  | _ => cases hf

theorem leads_execute (hrun : run.executable = e) (count : Nat) :
    Leads e count (execute w run {}).push (execute w run {}).control := by
  unfold execute runHook
  simp only [Bool.false_and, Bool.or_self, Bool.and_false, Bool.false_eq_true, if_false]
  split <;> (refine .runs _ rfl (congrArg some ?_); split <;> exact hrun)

end Move

theorem Frame.eq_of_claimed {clock : Int} {f : Frame} {e' : ExecutableId} {c : ContextId}
    (h : f.happening? clock m = some (.claimed e' c)) :
    ∃ run r, f = .claiming run ∧ m.control = .settled (.ok r) ∧ run.executable = e' ∧ run.context = c := by
  unfold Frame.happening? at h
  split at h
  · cases h
  · cases h
  · cases h
  · cases h
  · next hcontrol =>
      cases h
      exact ⟨_, _, rfl, hcontrol, rfl, rfl⟩
  · cases h

theorem Task.eq_of_claimed {e' : ExecutableId} {c : ContextId} (h : t.happening? w id = some (.claimed e' c)) :
    ∃ r run rest, t = ⟨.claiming run :: rest, .settled (.ok r)⟩ ∧ run.executable = e' ∧ run.context = c := by
  obtain ⟨stack, control⟩ := t
  cases control with
  | settled o =>
      cases stack with
      | nil => cases h
      | cons f rest =>
          obtain ⟨run, r, rfl, hcontrol, he, hc⟩ := Frame.eq_of_claimed h
          cases o with
          | error f => cases hcontrol
          | ok r' => exact ⟨r', run, rest, rfl, he, hc⟩
  | _ => cases stack <;> cases h

namespace Task.Attends

theorem mono {count' : Nat} (h : t.Attends e own count) (hcount : count ≤ count') : t.Attends e own count' := by
  cases h with
  | plain hstack hcontrol => exact .plain hstack hcontrol
  | claims hown habove hcontrol hleads =>
      refine .claims hown habove hcontrol fun hrun => ?_
      cases hleads hrun with
      | begins run h => exact .begins run h
      | runs _ hlast h => exact .runs _ hlast h
      | fails f => exact .fails f
      | ends r h => exact .ends r (Nat.lt_of_lt_of_le h hcount)

theorem woken (h : t.Attends e own count) (hwaits : t.isWaiting = true) : t.woken.Attends e own count := by
  cases h with
  | plain hstack hcontrol => exact .plain hstack rfl
  | claims hown habove hcontrol hleads =>
      refine .claims hown habove rfl fun hrun => ?_
      cases hleads hrun with
      | runs _ hlast h => exact .runs _ hlast h
      | _ => cases hwaits

/-- A context is claimed for an executable where it has run, and is one of its own. -/
theorem of_claimed (h : t.Attends e own count) {e' : ExecutableId} {c : ContextId}
    (hclaimed : t.happening? w id = some (.claimed e' c)) : (e' = e ↔ own c) ∧ (e' = e → 0 < count) := by
  obtain ⟨r, run, rest, rfl, rfl, rfl⟩ := Task.eq_of_claimed hclaimed
  generalize hstack : Frame.claiming run :: rest = stack at h
  generalize hcontrol : Control.settled (.ok r) = control at h
  cases h with
  | plain hnone _ =>
      subst hstack
      cases hnone
  | @claims above _ run' hown habove _ hleads =>
      cases above with
      | nil =>
          cases hstack
          refine ⟨hown, fun hrun => ?_⟩
          subst hcontrol
          cases hleads hrun with
          | runs _ hlast h => cases hlast
          | ends _ hcount => exact hcount
      | cons f above =>
          cases hstack
          cases habove

theorem advance (h : t.Attends e own count) (he : e.index < w.executables.length)
    (hcount : count ≤ (m.world.executable e).count) (ha : t.advance w id = some (m, rest)) :
    Task.Attends e own (m.world.executable e).count ⟨m.push ++ rest, m.control⟩ := by
  obtain ⟨popped, hstack, hdeals⟩ := Task.deals_of_advance ha
  cases h with
  | plain hnone hcontrol =>
      obtain ⟨hpush, hnext⟩ := hdeals.claims_nothing hcontrol
      refine .plain ?_ hnext
      subst hstack
      rw [List.any_append, Bool.or_eq_false_iff] at hnone ⊢
      exact ⟨hpush, hnone.2⟩
  | @claims above control run hown habove hcontrol hleads =>
      obtain ⟨hpush, hnext⟩ := hdeals.claims_nothing hcontrol
      have hover {below : List Frame} (hbelow : below.any Frame.isClaiming = false)
          (hlead : run.executable = e → Leads e (m.world.executable e).count (m.push ++ below) m.control) :
          Task.Attends e own (m.world.executable e).count ⟨m.push ++ (below ++ [.claiming run]), m.control⟩ := by
        rw [← List.append_assoc]
        refine .claims hown ?_ hnext hlead
        rw [List.any_append, hpush, hbelow]
        rfl
      have hlast {below : List Frame} {f : Frame} (hlast : below.getLast? = some f) (hf : f.run? = some e) :
          Leads e (m.world.executable e).count (m.push ++ below) m.control :=
        .runs _ (by rw [List.getLast?_append, hlast]; rfl) hf
      cases control with
      | call asked =>
          cases ha
          refine hover habove fun hrun => ?_
          cases hleads hrun with
          | begins run' h =>
              rw [List.append_nil]
              exact Move.leads_execute h _
          | runs _ hlast' h => exact hlast hlast' h
      | talking s d =>
          cases ha
          refine hover habove fun hrun => ?_
          cases hleads hrun with
          | runs _ hlast' h => exact hlast hlast' h
      | waiting => cases above <;> cases ha
      | settled o =>
          cases above with
          | nil =>
              cases ha
              exact .plain (by rw [List.append_nil]; exact hpush) hnext
          | cons f above =>
              cases ha
              rw [List.any_cons, Bool.or_eq_false_iff] at habove
              refine hover habove.2 fun hrun => ?_
              cases hleads hrun with
              | @runs _ _ g hlast' h =>
                  cases above with
                  | nil =>
                      cases hlast'
                      rw [List.append_nil]
                      exact Move.leads_resume he h o
                  | cons f' above => exact hlast ((List.getLast?_cons_cons ..).symm.trans hlast') h

theorem of_begin {c : Call} (h : (Deed.call c).Heeds e own) :
    Task.Attends e own count ⟨(Move.begin w id c).push, (Move.begin w id c).control⟩ := by
  have hplain (hc : (Control.call c).claims = false) :
      Task.Attends e own count ⟨(Move.begin w id c).push, (Move.begin w id c).control⟩ := by
    have hdeals : Move.Deals w id (.call c) [] (Move.begin w id c) := Move.deals_begin c
    obtain ⟨hpush, hnext⟩ := hdeals.claims_nothing hc
    exact .plain hpush hnext
  cases c with
  | makeEnterable run =>
      unfold Move.begin Move.makeEnterable
      dsimp only
      split
      · exact .plain rfl rfl
      · have hclaims : Task.Attends e own count ⟨[] ++ [.claiming run], .call (.execute run {})⟩ :=
          .claims h rfl rfl fun hrun => .begins run hrun
        exact hclaims
  | _ => exact hplain rfl

end Task.Attends

end attends

/-! Histories. -/

namespace Flight

/-- No call is in flight, and the executable is as it was made. -/
structure New (f : Flight) (e : ExecutableId) (own : ContextId → Prop) : Prop where
  tasks : f.tasks = []
  locks : ∀ r, f.world.lock r = {}
  waiters : f.world.waiters = []
  clock : 0 ≤ f.world.clock
  made : e.index < f.world.executables.length
  state : (f.world.executable e).state = .constructed
  count : (f.world.executable e).count = 0
  last : (f.world.executable e).last = 0
  unclaimed : (f.world.executable e).claimed = none
  contexts : ∀ c, own c → c.index < f.world.contexts.length
  others : ∀ e' ≠ e, ∀ c, (f.world.executable e').claimed = some c → ¬ own c

/-- What has happened on the way to a flight, since the executable was new. -/
inductive Lives (e : ExecutableId) (own : ContextId → Prop) : List Happening → Flight → Prop
  | new {f : Flight} (h : f.New e own) : Lives e own [] f
  | goes {past : List Happening} {f f' : Flight} {d : Deed} (h : Lives e own past f) (hheeds : d.Heeds e own)
      (hgo : f.Goes d f') : Lives e own (past ++ (f.happening? d).toList) f'

/-- The invariant of a history. -/
structure Watched (e : ExecutableId) (own : ContextId → Prop) (past : List Happening) (f : Flight) : Prop where
  custody : Custody f
  made : e.index < f.world.executables.length
  contexts : ∀ c, own c → c.index < f.world.contexts.length
  standing : (f.world.executable e).Standing e past
  clock : 0 ≤ f.world.clock
  last : (f.world.executable e).last ≤ f.world.clock
  claimed : ∀ c, (f.world.executable e).claimed = some c → own c ∧ (f.world.context c).immutable = true
  others : ∀ e' ≠ e, ∀ c, (f.world.executable e').claimed = some c → ¬ own c
  attends : ∀ id t, f.task? id = some t → t.Attends e own (f.world.executable e).count

variable {e : ExecutableId} {own : ContextId → Prop} {past : List Happening} {f f' : Flight} {d : Deed}

theorem New.watched (h : f.New e own) : Watched e own [] f where
  custody := .empty h.tasks h.locks h.waiters
  made := h.made
  contexts := h.contexts
  standing := by
    refine ⟨?_, ?_, h.count, h.last, ?_⟩
    · simp [h.state, h.count]
    · simp [h.state, h.unclaimed]
    · simp [h.unclaimed, Happening.claims, Happening.releases]
  clock := h.clock
  last := by
    rw [h.last]
    exact h.clock
  claimed c hc := by
    rw [h.unclaimed] at hc
    cases hc
  others := h.others
  attends id t ht := by simp [task?, h.tasks] at ht

namespace Watched

/-- A context is claimed where a task attends to it. -/
theorem of_claimed (h : Watched e own past f) {e' : ExecutableId} {c : ContextId}
    (hclaimed : f.happening? d = some (.claimed e' c)) :
    (e' = e ↔ own c) ∧ (e' = e → 0 < (f.world.executable e).count) := by
  cases d with
  | go id =>
      obtain ⟨t, ht, hhappens⟩ := Option.bind_eq_some_iff.1 hclaimed
      exact (h.attends id t ht).of_claimed hhappens
  | release e'' =>
      unfold happening? at hclaimed
      dsimp only at hclaimed
      split at hclaimed <;> cases hclaimed
  | _ => cases hclaimed

theorem standing_of_turns (h : Watched e own past f) (hturns : f.world.Turns (f.happening? d) f'.world) :
    (f'.world.executable e).Standing e (past ++ (f.happening? d).toList) := by
  rw [hturns.executable_eq h.made]
  cases hhappens : f.happening? d with
  | none => exact (List.append_nil past).symm ▸ h.standing
  | some a =>
      rw [hhappens] at hturns
      refine h.standing.after (fun c hc => ?_) fun hreleased => ?_
      · subst hc
        exact ⟨hturns.free_of_claimed, (h.of_claimed hhappens).2 rfl⟩
      · subst hreleased
        obtain ⟨c, hc⟩ := hturns.claimed_of_released
        rw [hc]
        rfl

theorem last_of_turns (h : Watched e own past f) (hturns : f.world.Turns (f.happening? d) f'.world) :
    (f'.world.executable e).last ≤ f'.world.clock := by
  have hlast := Int.le_trans h.last hturns.clock_le
  rw [hturns.executable_eq h.made]
  cases hhappens : f.happening? d with
  | none => exact hlast
  | some a =>
      rw [hhappens] at hturns
      cases a with
      | completed e' clock =>
          rw [Option.elim_some, Executable.after]
          split
          · exact Int.le_trans (Int.le_of_eq hturns.clock_of_completed) hturns.clock_le
          · exact hlast
      | failed e' => exact hlast
      | _ =>
          rw [Option.elim_some, Executable.after]
          split <;> exact hlast

theorem claimed_of_turns (h : Watched e own past f) (hturns : f.world.Turns (f.happening? d) f'.world) {c : ContextId}
    (hc : (f'.world.executable e).claimed = some c) : own c ∧ (f'.world.context c).immutable = true := by
  rcases hturns.claimed hc with hold | hnew
  · obtain ⟨hown, himm⟩ := h.claimed c hold
    refine ⟨hown, hturns.immutable himm fun e' hreleased hclaimed => ?_⟩
    by_cases he : e' = e
    · subst he
      rw [hturns.executable_eq h.made, hreleased, Option.elim_some, Executable.after, if_pos rfl] at hc
      cases hc
    · exact h.others e' he c hclaimed hown
  · have hown := (h.of_claimed hnew).1.1 rfl
    rw [hnew] at hturns
    exact ⟨hown, hturns.immutable_of_claimed (h.contexts c hown)⟩

theorem others_of_turns (h : Watched e own past f) (hturns : f.world.Turns (f.happening? d) f'.world)
    {e' : ExecutableId} (he : e' ≠ e) {c : ContextId} (hc : (f'.world.executable e').claimed = some c) : ¬ own c := by
  rcases hturns.claimed hc with hold | hnew
  · exact h.others e' he c hold
  · exact fun hown => he ((h.of_claimed hnew).1.2 hown)

theorem attends_of_goes (h : Watched e own past f) (hheeds : d.Heeds e own) (hgo : f.Goes d f') {id : TaskId}
    {t : Task} (ht : f'.task? id = some t) : t.Attends e own (f'.world.executable e).count := by
  have hturns := hgo.turns
  have hcount : (f.world.executable e).count ≤ (f'.world.executable e).count := by
    rw [hturns.executable_eq h.made]
    cases f.happening? d with
    | none => exact Nat.le_refl _
    | some a => exact Executable.count_le_after _ a
  cases h.custody.comes hgo ht with
  | stays hbefore => exact (h.attends id t hbefore).mono hcount
  | wakes hbefore hwaits => exact ((h.attends id _ hbefore).woken hwaits).mono hcount
  | goes hbefore ha =>
      cases hgo with
      | go hbefore' ha' =>
          cases hbefore.symm.trans hbefore'
          cases ha.symm.trans ha'
          exact (h.attends id _ hbefore).advance h.made hcount ha
  | calls c => exact .of_begin hheeds

theorem goes (h : Watched e own past f) (hheeds : d.Heeds e own) (hgo : f.Goes d f') :
    Watched e own (past ++ (f.happening? d).toList) f' where
  custody := h.custody.goes hgo
  made := Nat.lt_of_lt_of_le h.made hgo.turns.executables_le
  contexts c hc := hgo.turns.contexts_eq ▸ h.contexts c hc
  standing := h.standing_of_turns hgo.turns
  clock := Int.le_trans h.clock hgo.turns.clock_le
  last := h.last_of_turns hgo.turns
  claimed _ hc := h.claimed_of_turns hgo.turns hc
  others _ he _ hc := h.others_of_turns hgo.turns he hc
  attends _ _ ht := h.attends_of_goes hheeds hgo ht

end Watched

theorem Lives.watched (h : Lives e own past f) : Watched e own past f := by
  induction h with
  | new h => exact h.watched
  | goes h hheeds hgo ih => exact ih.goes hheeds hgo

/-- What there is to know about an executable after all that has happened. -/
structure Told (f : Flight) (e : ExecutableId) (past : List Happening) : Prop where
  standing : (f.world.executable e).Standing e past
  immutable : ∀ c, (f.world.executable e).claimed = some c → (f.world.context c).immutable = true
  /-- Only a release takes the claimed context away. -/
  stays : ∀ d f' c, f.Goes d f' → (f.world.executable e).claimed = some c → d ≠ .release e →
    (f'.world.executable e).claimed = some c
  /-- A run that is to be left out while the output is young does nothing just if the executable has run and its
  output has not expired. -/
  skips : ∀ id run, run.executable = e →
    (Move.begin f.world id (.execute run { unlessCached := true }) = Move.reply f.world (.flag false) ↔
      0 < (f.world.executable e).count ∧ f.world.clock < (f.world.executable e).expiration)
  /-- A step in which no run is completed, nothing is claimed and nothing is given up changes nothing, also where a
  run fails. -/
  unchanged : ∀ d f', f.Goes d f' → (f.happening? d = none ∨ ∃ e', f.happening? d = some (.failed e')) →
    f'.world.executable e = f.world.executable e

theorem eq_release_of_released (h : f.happening? d = some (.released e)) : d = .release e := by
  cases d with
  | go id =>
      obtain ⟨t, -, hhappens⟩ := Option.bind_eq_some_iff.1 h
      unfold Task.happening? at hhappens
      split at hhappens
      · unfold Frame.happening? at hhappens
        split at hhappens <;> cases hhappens
      · cases hhappens
  | release e' =>
      unfold happening? at h
      dsimp only at h
      split at h
      · cases h
        rfl
      · cases h
  | _ => cases h

namespace Watched

theorem claimed_of_goes (h : Watched e own past f) (hgo : f.Goes d f') {c : ContextId}
    (hc : (f.world.executable e).claimed = some c) (hd : d ≠ .release e) :
    (f'.world.executable e).claimed = some c :=
  hgo.turns.claimed_of_claimed h.made hc fun hreleased => hd (eq_release_of_released hreleased)

theorem executable_of_goes (h : Watched e own past f) (hgo : f.Goes d f')
    (hnone : f.happening? d = none ∨ ∃ e', f.happening? d = some (.failed e')) :
    f'.world.executable e = f.world.executable e := by
  rw [hgo.turns.executable_eq h.made]
  rcases hnone with hnone | ⟨e', hfailed⟩
  · rw [hnone]
    rfl
  · rw [hfailed]
    rfl

theorem begin_eq_reply_iff (h : Watched e own past f) (id : TaskId) {run : Run} (hrun : run.executable = e) :
    Move.begin f.world id (.execute run { unlessCached := true }) = Move.reply f.world (.flag false) ↔
      0 < (f.world.executable e).count ∧ f.world.clock < (f.world.executable e).expiration := by
  subst hrun
  rw [← Executable.young_iff h.clock h.last]
  unfold Move.begin Move.execute
  simp only [Bool.false_or, Bool.true_and, Bool.and_eq_true, decide_eq_true_iff]
  split
  · next hskip => exact iff_of_true rfl hskip
  · next hgo =>
      refine iff_of_false (fun heq => ?_) hgo
      have hpush := congrArg Move.push heq
      unfold Move.runHook at hpush
      split at hpush <;> cases hpush

end Watched

/-- What an executable has on record is what has happened to it, in every history. -/
theorem Lives.told (h : Lives e own past f) : f.Told e past where
  standing := h.watched.standing
  immutable c hc := (h.watched.claimed c hc).2
  stays _ _ _ hgo hc hd := h.watched.claimed_of_goes hgo hc hd
  skips id _ hrun := h.watched.begin_eq_reply_iff id hrun
  unchanged _ _ hgo hnone := h.watched.executable_of_goes hgo hnone

/-! What a machine does is a history. -/

theorem Lives.settle {m : Machine} (h : Lives e own past m.flight) (fuel : Nat) :
    Lives e own (past ++ m.happenings fuel) (m.settle fuel).flight := by
  induction fuel generalizing m past with
  | zero => exact (List.append_nil past).symm ▸ h
  | succ fuel ih =>
      unfold Machine.settle Machine.happenings
      cases hstep : m.step with
      | none => exact (List.append_nil past).symm ▸ h
      | some m' =>
          dsimp only
          rw [← List.append_assoc]
          rcases Machine.goes_of_step hstep with ⟨heq, hnone⟩ | ⟨id, hgo, hhappens⟩
          · rw [hnone, Option.toList_none, List.append_nil]
            exact ih (heq ▸ h)
          · have hheeds : (Deed.go id).Heeds e own := trivial
            rw [hhappens]
            exact ih (h.goes hheeds hgo)

theorem Lives.spawn {m : Machine} (h : Lives e own past m.flight) {c : Call} (hheeds : (Deed.call c).Heeds e own)
    (fuel : Nat) :
    Lives e own (past ++ (m.spawn c).1.happenings (fuel + 1)) ((m.spawn c).1.settle (fuel + 1)).flight := by
  obtain ⟨m', hstep⟩ := m.exists_step_of_spawn c
  have hstart : Lives e own past m'.flight := by
    rw [Machine.flight_spawn hstep]
    exact (List.append_nil past) ▸ h.goes hheeds (.call m.flight c)
  unfold Machine.settle Machine.happenings
  rw [hstep, Machine.happening?_spawn]
  exact hstart.settle fuel

end Flight

def printWorld : World :=
  { tree := { origin := "" }, registry := .ofAdapters [Command.adapter { extensions := [] }], contexts := [{}] }

def printDraft : Draft := { tag := "toy", document := "doc", registered := "doc", text := "<% print 1 %>" }

namespace Machine

def printing : Machine := { world := (printWorld.compile printDraft).1 }

/-- The document has run, and its executable has claimed the context. -/
def printed : Machine := (printing.spawn (.makeEnterable ⟨⟨0⟩, ⟨0⟩, none, {}⟩)).1.settle 60

/-- Some time later the context is given up. -/
def waited : Machine := { printed with world := { printed.world with clock := 5 } }

def freed : Machine := { waited with world := waited.world.release ⟨0⟩ }

/-- The document has run again. -/
def reprinted : Machine := (freed.spawn (.execute ⟨⟨0⟩, ⟨0⟩, none, {}⟩ {})).1.settle 60

theorem lives_reprinted :
    Flight.Lives ⟨0⟩ (· = ⟨0⟩) [.completed ⟨0⟩ 0, .claimed ⟨0⟩ ⟨0⟩, .released ⟨0⟩, .completed ⟨0⟩ 5] reprinted.flight := by
  have hlooks := looks_compile printWorld printDraft
  obtain ⟨hmade, hstate, hcount, hlast, hunclaimed, hfirst⟩ :
      printing.world.executables.length = 1 ∧ (printing.world.executable ⟨0⟩).state = .constructed ∧
        (printing.world.executable ⟨0⟩).count = 0 ∧ (printing.world.executable ⟨0⟩).last = 0 ∧
        (printing.world.executable ⟨0⟩).claimed = none ∧
        (printing.spawn (.makeEnterable ⟨⟨0⟩, ⟨0⟩, none, {}⟩)).1.happenings 60 =
          [.completed ⟨0⟩ 0, .claimed ⟨0⟩ ⟨0⟩] := by decide +kernel
  obtain ⟨hclock, hclaimed, hsecond⟩ :
      printed.world.clock = 0 ∧ (waited.flight.world.executable ⟨0⟩).claimed.isSome = true ∧
        (freed.spawn (.execute ⟨⟨0⟩, ⟨0⟩, none, {}⟩ {})).1.happenings 60 = [.completed ⟨0⟩ 5] := by decide +kernel
  have hnew : Flight.New printing.flight ⟨0⟩ (· = ⟨0⟩) := by
    refine ⟨rfl, fun r => ?_, hlooks.waiters_eq, ?_, hmade ▸ Nat.one_pos, hstate, hcount, hlast, hunclaimed,
      fun c hc => ?_, fun e he c hc => ?_⟩
    · exact World.lock_eq_of_locks (w := printWorld) hlooks.locks_eq r
    · exact Int.le_of_eq hlooks.clock_eq.symm
    · subst hc
      exact congrArg List.length hlooks.contexts_eq ▸ Nat.one_pos
    · cases (show ((default : Executable).claimed = some c) from hlooks.claimed hc)
  have hprinted : Flight.Lives ⟨0⟩ (· = ⟨0⟩) [.completed ⟨0⟩ 0, .claimed ⟨0⟩ ⟨0⟩] printed.flight := by
    rw [← hfirst]
    exact (Flight.Lives.new hnew).spawn (c := .makeEnterable ⟨⟨0⟩, ⟨0⟩, none, {}⟩) (iff_of_true rfl rfl) 59
  have hwaited : Flight.Lives ⟨0⟩ (· = ⟨0⟩) [.completed ⟨0⟩ 0, .claimed ⟨0⟩ ⟨0⟩] waited.flight :=
    hprinted.goes (d := .tick 5) trivial (.tick printed.flight 5 (hclock ▸ by decide))
  have hfreed : Flight.Lives ⟨0⟩ (· = ⟨0⟩) [.completed ⟨0⟩ 0, .claimed ⟨0⟩ ⟨0⟩, .released ⟨0⟩] freed.flight := by
    have hgo := hwaited.goes (d := .release ⟨0⟩) trivial (.release waited.flight ⟨0⟩)
    rw [Flight.happening?, if_pos hclaimed] at hgo
    exact hgo
  have hreprinted := hfreed.spawn (c := .execute ⟨⟨0⟩, ⟨0⟩, none, {}⟩ {}) trivial 59
  rw [hsecond] at hreprinted
  exact hreprinted

theorem told_reprinted :
    Flight.Lives ⟨0⟩ (· = ⟨0⟩) [.completed ⟨0⟩ 0, .claimed ⟨0⟩ ⟨0⟩, .released ⟨0⟩, .completed ⟨0⟩ 5] reprinted.flight ∧
      reprinted.flight.Told ⟨0⟩ [.completed ⟨0⟩ 0, .claimed ⟨0⟩ ⟨0⟩, .released ⟨0⟩, .completed ⟨0⟩ 5] :=
  ⟨lives_reprinted, lives_reprinted.told⟩

end Machine

end ScriptedText
