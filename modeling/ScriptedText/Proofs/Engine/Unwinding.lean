import ScriptedText.Proofs.Engine.Custody
import ScriptedText.Proofs.Engine.Deadlock
import ScriptedText.Proofs.Engine.Nesting

/-!
How a failure leaves runs that stand on each other. Where no program deals with it and no hook fails on the way, it comes
out below all of them, with the site of each program that it has passed.
-/

namespace ScriptedText

open Relation

def Frame.failure (e : Failure) : Frame → Failure
  | .program _ site _ => Move.normalize site e
  | _ => e

/-- The site that a failure gets when it leaves the frame. -/
def Frame.site? : Frame → Option Site
  | .program _ site _ => some site
  | _ => none

/-- Whether a failure that comes to the frame leaves it: the program does not deal with it, the hook after the run does not
fail, and there is no library left in which a missing document is looked for. -/
def Frame.LetsPass (e : Failure) : Frame → Prop
  | .conversation _ k => k (.error e) = .fail e
  | .segment run _ => ∀ f, run.hooks.after ≠ some (.error f)
  | .searching libraries _ _ _ => libraries = [] ∨ ∀ x name, e = .fault x → x.kind ≠ .documentMissing name
  | .entering _ => ∃ x, e = .fault x
  | .granted _ _ => False
  | _ => True

namespace Failure

/-- The failure goes all the way down the stack. -/
def Passes : Failure → List Frame → Prop
  | _, [] => True
  | e, f :: stack => f.LetsPass e ∧ Passes (f.failure e) stack

def leaving (e : Failure) (stack : List Frame) : Failure := stack.foldl Frame.failure e

end Failure

/-- The task fails, or its program does. -/
inductive Control.Fails (e : Failure) : Control → Prop
  | settled : Fails e (.settled (.error e))
  | talking (s : Speaker) : Fails e (.talking s (.fail e))

/-- Whatever happens to the world between its steps, the task takes some more and then has come to `o`. -/
inductive Task.BoundFor (id : TaskId) (o : Outcome) : Task → Prop
  | arrived : BoundFor id o ⟨[], .settled o⟩
  | goes {t : Task} (ha : ∀ w, (t.advance w id).isSome = true)
      (h : ∀ w m rest, t.advance w id = some (m, rest) → BoundFor id o ⟨m.push ++ rest, m.control⟩) : BoundFor id o t

/-- Where the segments are, each in the document of its run. -/
def World.sites (w : World) (chain : List (Run × PlacedSegment)) : List Site :=
  chain.map fun (run, s) => s.site (w.executable run.executable).name

namespace Task.BoundFor

variable {id : TaskId} {o : Outcome} {t : Task} {e : Failure} {f : Frame} {stack : List Frame}

theorem step (next : World → Move) (rest : List Frame) (ha : ∀ w, t.advance w id = some (next w, rest))
    (h : ∀ w, BoundFor id o ⟨(next w).push ++ rest, (next w).control⟩) : t.BoundFor id o := by
  refine .goes (fun w => by rw [ha w]; rfl) fun w m rest' hm => ?_
  cases (ha w).symm.trans hm
  exact h w

theorem isWaiting (h : t.BoundFor id o) (w : World) : t.isWaiting = false := by
  cases h with
  | arrived => rfl
  | goes ha _ =>
      obtain ⟨⟨m, rest⟩, hm⟩ := Option.isSome_iff_exists.1 (ha w)
      exact Task.isWaiting_of_advance hm

theorem leave {o₁ o₂ : Outcome} (hpush : ∀ w, (Move.resume w id f o₁).push = [])
    (hcontrol : ∀ w, (Move.resume w id f o₁).control = .settled o₂) (h : BoundFor id o ⟨stack, .settled o₂⟩) :
    BoundFor id o ⟨f :: stack, .settled o₁⟩ := by
  refine .step (fun w => Move.resume w id f o₁) stack (fun _ => rfl) fun w => ?_
  rw [hpush, hcontrol]
  exact h

theorem fail {s : Speaker} (h : BoundFor id o ⟨stack, .settled (.error e)⟩) :
    BoundFor id o ⟨stack, .talking s (.fail e)⟩ :=
  .step (fun w => Move.refuse w e) stack (fun _ => rfl) fun _ => h

theorem frame (hf : f.LetsPass e) (h : BoundFor id o ⟨stack, .settled (.error (f.failure e))⟩) :
    BoundFor id o ⟨f :: stack, .settled (.error e)⟩ := by
  cases f with
  | conversation s k =>
      refine .step (fun w => Move.say w s (k (.error e)) []) stack (fun _ => rfl) fun _ => ?_
      have hk : k (.error e) = .fail e := hf
      simp only [Move.say, hk]
      exact h.fail
  | segment run rest =>
      -- The hook after the run comes first.
      have hfinish (w : World) : (Move.finish w run (.error e)).push = [.finalized run (.error e)] ∧
          (Move.finish w run (.error e)).control = .settled (.ok .nothing) := by
        unfold Move.finish Move.runHook
        split
        · exact ⟨rfl, rfl⟩
        · next r hhook =>
            cases r with
            | error f => exact absurd hhook (hf f)
            | ok _ => exact ⟨rfl, rfl⟩
      refine .step (fun w => Move.finish w run (.error e)) stack (fun _ => rfl) fun w => ?_
      rw [(hfinish w).1, (hfinish w).2]
      exact .leave (fun _ => rfl) (fun _ => rfl) h
  | searching libraries name isText compilation =>
      have hsettles (w : World) : Move.afterSearching w libraries name isText compilation (.error e) =
          Move.settle w (.error e) := by
        unfold Move.afterSearching
        split
        · next x s rest heq =>
            split
            · next hkind => exact absurd hkind (hf.resolve_left (List.cons_ne_nil s rest) x _ (Except.error.inj heq))
            · rfl
        · rfl
      refine .leave (fun w => ?_) (fun w => ?_) h
      · exact congrArg Move.push (hsettles w)
      · exact congrArg Move.control (hsettles w)
  | entering name =>
      obtain ⟨x, rfl⟩ := hf
      exact .leave (fun _ => rfl) (fun _ => rfl) h
  | granted r inside => exact hf.elim
  | _ => exact .leave (fun _ => rfl) (fun _ => rfl) h

theorem of_passes (h : e.Passes stack) : BoundFor id (.error (e.leaving stack)) ⟨stack, .settled (.error e)⟩ := by
  -- Each frame hands down what the failure has become in it, so `e` is not fixed.
  induction stack generalizing e with
  | nil => exact .arrived
  | cons f stack ih => exact .frame h.1 (ih h.2)

theorem of_fails (hfails : t.control.Fails e) (h : e.Passes t.stack) :
    t.BoundFor id (.error (e.leaving t.stack)) := by
  obtain ⟨stack, control⟩ := t
  cases hfails with
  | settled => exact .of_passes h
  | talking s => exact (of_passes h).fail

end Task.BoundFor

namespace Flight

variable {f f' : Flight} {id : TaskId} {t : Task} {o : Outcome}

theorem Stirs.custody (h : f.Stirs f') (hcustody : Custody f) : Custody f' := by
  cases h with
  | goes hgo => exact hcustody.goes hgo
  | serves errand =>
      rcases f.world.looks_serve errand with hlooks | ⟨tree, heq⟩
      · exact hcustody.congr (World.lock_eq_of_locks hlooks.locks_eq) hlooks.waiters_eq
      · exact hcustody.congr (by rw [heq]; exact fun _ => rfl) (by rw [heq])

theorem custody_of_stirs (h : ReflTransGen Stirs f f') (hcustody : Custody f) : Custody f' := by
  induction h with
  | refl => exact hcustody
  | tail _ hstep ih => exact hstep.custody ih

/-- Nothing keeps a task from getting to where it is bound for. -/
theorem Stirs.boundFor (h : f.Stirs f') (hcustody : Custody f) (ht : f.task? id = some t) (hbound : t.BoundFor id o) :
    ∃ t', f'.task? id = some t' ∧ t'.BoundFor id o := by
  cases h with
  | serves errand => exact ⟨t, ht, hbound⟩
  | goes hgo =>
      obtain ⟨t', ht', -⟩ := hgo.follow ht
      refine ⟨t', ht', ?_⟩
      cases hcustody.comes hgo ht' with
      | stays hu =>
          cases ht.symm.trans hu
          exact hbound
      | wakes hu hwaits =>
          cases ht.symm.trans hu
          exact absurd (hwaits.symm.trans (hbound.isWaiting f.world)) nofun
      | goes hu ha =>
          cases ht.symm.trans hu
          cases hbound with
          | arrived => cases ha
          | goes _ h => exact h _ _ _ ha
      | calls c => cases task?_next.symm.trans ht

theorem Stirs.exists_nests (h : f.Stirs f') (ht : ∃ t, f.task? id = some t ∧ t.Nests f.world) :
    ∃ t, f'.task? id = some t ∧ t.Nests f'.world := by
  obtain ⟨t, ht, hnests⟩ := ht
  cases h with
  | serves errand => exact ⟨t, ht, hnests.of_makes (World.makes_serve f.world errand)⟩
  | goes hgo =>
      obtain ⟨t', ht', -⟩ := hgo.follow ht
      exact ⟨t', ht', hnests.goes hgo ht ht'⟩

theorem exists_nests {f₀ : Flight} {c : Call} (h : ReflTransGen Stirs (f₀.start c) f) :
    ∃ t, f.task? f₀.next = some t ∧ t.Nests f.world := by
  induction h with
  | refl => exact Stirs.exists_nests (.goes (f₀.goes_spawn c)) ⟨_, task?_spawn_next c, .call _ c⟩
  | tail _ hstep ih => exact hstep.exists_nests ih

theorem boundFor_of_stirs (h : ReflTransGen Stirs f f') (hcustody : Custody f) (ht : f.task? id = some t)
    (hbound : t.BoundFor id o) : ∃ t', f'.task? id = some t' ∧ t'.BoundFor id o := by
  induction h using ReflTransGen.head_induction_on generalizing t with
  | refl => exact ⟨t, ht, hbound⟩
  | head hstep _ ih =>
      obtain ⟨t', ht', hbound'⟩ := hstep.boundFor hcustody ht hbound
      exact ih (hstep.custody hcustody) ht' hbound'

end Flight

/-- The sites that a failure gets on its way are those of the programs that run. -/
theorem Nested.sites_eq {w : World} {stack : List Frame} {chain : List (Run × PlacedSegment)} {tier : Tier}
    (h : Nested w stack chain tier) : stack.filterMap Frame.site? = w.sites chain := by
  induction h with
  | nil => rfl
  | @program stack chain run s h swap ih => exact congrArg (s.site _ :: ·) ih
  | @frame stack chain below above f h hf ih =>
      cases hf with
      | free hf =>
          have hnone : f.site? = none := by
            cases f with
            | program run site swap => cases hf
            | _ => rfl
          rw [List.filterMap_cons_none hnone]
          exact ih
      | _ => exact ih

theorem Failure.leaving_eq (e : Failure) (stack : List Frame) :
    e.leaving stack = (stack.filterMap Frame.site?).foldl (fun e site => Move.normalize site e) e := by
  induction stack generalizing e with
  | nil => rfl
  | cons f stack ih => cases f <;> exact ih _

theorem Move.foldl_normalize_fault (x : Fault) (sites : List Site) :
    sites.foldl (fun e site => Move.normalize site e) (.fault x) = .fault { x with sites := x.sites ++ sites } := by
  induction sites generalizing x with
  | nil => simp
  | cons site sites ih =>
      refine (ih (x.within site)).trans ?_
      simp [Fault.within]

theorem Problem.message_programFailed (reason : String) : (Problem.programFailed reason).message = reason := by
  have htemplate : (Code.programFailed.definition.template).toList = "\x7breason\x7d".toList := rfl
  have hvalue : Value.textUnder? [("reason", .text reason)] "reason" = some reason := by
    simp [Value.textUnder?, Value.field?, Value.display, Value.text?]
  have hexpand : Template.expand (Value.textUnder? [("reason", .text reason)]) "\x7breason\x7d".toList =
      some reason.toList := by
    simp [Template.expand, Template.expandFrom, hvalue]
  simp only [Problem.message, Fault.render, Template.render, Problem.code, Problem.details, htemplate, hexpand,
    String.ofList_toList]

theorem Move.exists_normalized {e : Failure} (hended : e ≠ .endless) {sites : List Site} (hsites : sites ≠ []) :
    ∃ x : Fault, sites.foldl (fun e site => Move.normalize site e) e = .fault x ∧ x.sites = e.sites ++ sites ∧
      (∀ y, e = .fault y → x = { y with sites := x.sites }) ∧
      ((∀ y, e ≠ .fault y) → x = (Problem.programFailed e.describe).fault sites) := by
  cases sites with
  | nil => exact absurd rfl hsites
  | cons site sites =>
      have hwrapped {e : Failure} (hsame : Move.normalize site e = (Problem.programFailed e.describe).failure [site]) :
          (site :: sites).foldl (fun e site => Move.normalize site e) e =
            .fault ((Problem.programFailed e.describe).fault (site :: sites)) := by
        rw [List.foldl_cons, hsame]
        exact foldl_normalize_fault _ _
      cases e with
      | fault y =>
          refine ⟨_, foldl_normalize_fault y (site :: sites), rfl, fun z hz => ?_, fun h => absurd rfl (h y)⟩
          cases hz
          rfl
      | endless => exact absurd rfl hended
      | _ => exact ⟨_, hwrapped rfl, rfl, nofun, fun _ => rfl⟩

namespace Flight

variable {f₀ f : Flight} {run : Run} {options : RunOptions} {t : Task} {e : Failure}

/-- A failure that nothing deals with on its way makes the call fail. It comes out with the sites that it had and one more for
each program that runs then, the innermost first. It is the fault that it was, but for the sites; and what was no fault is
one of a program that failed, with the same message. -/
theorem rejects_with_sites (hcustody : Custody f₀) (h : ReflTransGen Stirs (f₀.start (.execute run options)) f)
    (ht : f.task? f₀.next = some t) (hfails : t.control.Fails e) (hended : e ≠ .endless) (hpasses : e.Passes t.stack)
    (hprogram : t.stack.filterMap Frame.site? ≠ []) :
    ∃ chain tier x, Nested f.world t.stack chain tier ∧ x.sites = e.sites ++ f.world.sites chain ∧
      (∀ y, e = .fault y → x = { y with sites := x.sites }) ∧
      ((∀ y, e ≠ .fault y) → x.kind = .execution ∧ x.code.definition.id = "WEFT-E001" ∧ x.message = e.describe ∧
        x.details = some [("reason", .text e.describe)]) ∧
      ∀ f', ReflTransGen Stirs f f' → ∃ t', f'.task? f₀.next = some t' ∧ t'.BoundFor f₀.next (.error (.fault x)) := by
  obtain ⟨u, hu, chain, tier, hnested, -⟩ := exists_nests h
  cases ht.symm.trans hu
  obtain ⟨x, hx, hsites, hfault, hwrapped⟩ := Move.exists_normalized hended hprogram
  rw [← Failure.leaving_eq] at hx
  rw [hnested.sites_eq] at hsites
  refine ⟨chain, tier, x, hnested, hsites, hfault, fun hother => ?_, fun f' hf' => ?_⟩
  · rw [hwrapped hother]
    exact ⟨rfl, rfl, Problem.message_programFailed _, rfl⟩
  · have hbound : t.BoundFor f₀.next (.error (.fault x)) := hx ▸ .of_fails hfails hpasses
    exact boundFor_of_stirs hf' (custody_of_stirs h (hcustody.start _)) ht hbound

end Flight

/-- Whether the failure is the fault, which has no details. -/
def Failure.isBare (x : Fault) : Failure → Bool
  | .fault y => y.kind = x.kind && y.code = x.code && y.message = x.message && y.sites = x.sites &&
      y.caused = x.caused && y.details.isNone
  | _ => false

theorem Failure.eq_of_isBare {x : Fault} {e : Failure} (hx : x.details = none) (h : e.isBare x = true) :
    e = .fault x := by
  cases e with
  | fault y =>
      obtain ⟨kind, code, message, sites, details, caused⟩ := x
      obtain ⟨kind', code', message', sites', details', caused'⟩ := y
      simp only [isBare, Bool.and_eq_true, decide_eq_true_eq, Option.isNone_iff_eq_none] at h
      cases hx
      obtain ⟨⟨⟨⟨⟨rfl, rfl⟩, rfl⟩, rfl⟩, rfl⟩, rfl⟩ := h
      rfl
  | _ => cases h

def Control.throws (x : Fault) : Control → Bool
  | .talking _ (.fail e) => e.isBare x
  | _ => false

theorem Control.fails_of_throws {x : Fault} {c : Control} (hx : x.details = none) (h : c.throws x = true) :
    c.Fails (.fault x) := by
  unfold throws at h
  split at h
  · rw [Failure.eq_of_isBare hx h]
    exact .talking _
  · cases h

/-- Whether a fault without details goes all the way down a stack on which nothing is looked for. -/
def Fault.passes : Fault → List Frame → Bool
  | _, [] => true
  | x, .conversation _ k :: stack =>
    (match k (.error (.fault x)) with
      | .fail e => e.isBare x
      | _ => false) && x.passes stack
  | x, .segment run _ :: stack => run.hooks.after.all Except.isOk && x.passes stack
  | x, .program _ site _ :: stack => (x.within site).passes stack
  | _, .granted _ _ :: _ | _, .searching _ _ _ _ :: _ => false
  | x, _ :: stack => x.passes stack

theorem Fault.passes_failure {x : Fault} {stack : List Frame} (hx : x.details = none) (h : x.passes stack = true) :
    (Failure.fault x).Passes stack := by
  induction stack generalizing x with
  | nil => trivial
  | cons f stack ih =>
      cases f with
      | conversation s k =>
          obtain ⟨hk, h⟩ := Bool.and_eq_true_iff.1 h
          refine ⟨?_, ih hx h⟩
          change k (.error (.fault x)) = .fail (.fault x)
          split at hk
          · next e heq => rw [heq, Failure.eq_of_isBare hx hk]
          · cases hk
      | segment run rest =>
          obtain ⟨hhook, h⟩ := Bool.and_eq_true_iff.1 h
          refine ⟨fun f hf => ?_, ih hx h⟩
          rw [hf] at hhook
          cases hhook
      | program run site swap => exact ⟨trivial, ih (x := x.within site) hx h⟩
      | entering name => exact ⟨⟨x, rfl⟩, ih hx h⟩
      | granted _ _ => cases h
      | searching _ _ _ _ => cases h
      | _ => exact ⟨trivial, ih hx h⟩

/-- A document that includes a second one, which includes a third one, in which a program fails. -/
def nestedWorld : World :=
  let library := ((languagesWorld.setDocument ⟨0⟩ "inner b" "<%b include core%>" "" none).1.setDocument ⟨0⟩ "core"
    "text <%a failframe oops%>" "" none).1
  (library.compile outwardDraft).1

namespace Machine

def nestedFailing : Machine := (spawn { world := nestedWorld } (.execute ⟨⟨0⟩, ⟨0⟩, some .host, {}⟩ {})).1

theorem stirs_spawn (m : Machine) (c : Call) (fuel : Nat) :
    ReflTransGen Flight.Stirs (m.flight.start c) ((m.spawn c).1.settle (fuel + 1)).flight :=
  ReflTransGen.mono (fun _ _ ⟨_, hgo⟩ => .goes hgo) _ _ (m.goes_settle_spawn c fuel)

/-- What the third document throws has a site already, and no details. -/
def thrown : Fault := { kind := .parsing, code := .programRejected, message := "oops", sites := [Command.ownSite] }

theorem rejects_with_sites_of_three :
    ∃ x : Fault, x.message = "oops" ∧ x.sites = [Command.ownSite, ⟨"core", 1, 6⟩, ⟨"inner b", 1, 1⟩, ⟨"outward", 1, 1⟩] ∧
      ∀ f', ReflTransGen Flight.Stirs (nestedFailing.settle 31).flight f' →
        ∃ t, f'.task? ⟨0⟩ = some t ∧ t.BoundFor ⟨0⟩ (.error (.fault x)) := by
  have hlooks : World.Looks languagesWorld nestedWorld :=
    ((World.looks_setDocument ..).trans (World.looks_setDocument ..)).trans (looks_compile _ outwardDraft)
  have hcustody : Custody ⟨nestedWorld, []⟩ :=
    .empty rfl (fun r => World.lock_eq_of_locks (w := languagesWorld) hlooks.locks_eq r) hlooks.waiters_eq
  -- What is said of any machine that goes so far is not computed at this one.
  have hrejects {m : Machine} {sites : List Site} (hsites : sites ≠ [])
      (h : ReflTransGen Flight.Stirs
        (Flight.start ⟨nestedWorld, []⟩ (.execute ⟨⟨0⟩, ⟨0⟩, some .host, {}⟩ {})) m.flight)
      (hlook : ((m.task? ⟨0⟩).any fun t => t.control.throws thrown && thrown.passes t.stack &&
        t.stack.filterMap Frame.site? = sites) = true) :
      ∃ x : Fault, x.message = "oops" ∧ x.sites = Command.ownSite :: sites ∧
        ∀ f', ReflTransGen Flight.Stirs m.flight f' →
          ∃ t, f'.task? ⟨0⟩ = some t ∧ t.BoundFor ⟨0⟩ (.error (.fault x)) := by
    obtain ⟨t, ht, hlook⟩ := (Option.any_eq_true ..).1 hlook
    simp only [Bool.and_eq_true, decide_eq_true_eq] at hlook
    obtain ⟨⟨hfails, hpasses⟩, rfl⟩ := hlook
    obtain ⟨chain, tier, x, hnested, hx, hfault, -, hbound⟩ := Flight.rejects_with_sites hcustody h ht
      (Control.fails_of_throws rfl hfails) nofun (Fault.passes_failure rfl hpasses) hsites
    rw [← hnested.sites_eq] at hx
    exact ⟨x, congrArg Fault.message (hfault thrown rfl), hx, hbound⟩
  exact hrejects (List.cons_ne_nil _ _) (stirs_spawn { world := nestedWorld } _ 30) (by decide +kernel)

end Machine

end ScriptedText
