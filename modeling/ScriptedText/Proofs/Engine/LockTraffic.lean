import Mathlib.Data.List.Nodup
import ScriptedText.Engine.LockTraffic

/-!
Traffic at one lock, in whatever order calls come and go. All that are inside belong to one holder, the lock goes to
those who ask for it in order of arrival, and nobody waits for a lock that is free.
-/

namespace ScriptedText

namespace Party

def id : Party → String
  | .holder id => id
  | .body id _ => id

def holder? : Party → Option String
  | .holder id => some id
  | .body _ _ => none

/-- Whose the lock is while the party is inside: its own, or its owner's. -/
def side : Party → String ⊕ String
  | .holder id => .inl id
  | .body _ owner => .inr owner

/-- What is told when the party gets inside. -/
def welcome : Party → Notice
  | .holder id => .acquired id
  | .body id _ => .entered id

end Party

namespace Notice

def id : Notice → String
  | .acquired id => id
  | .entered id => id
  | .done id _ => id
  | .failed id _ => id
  | .notRunning id => id

/-- What a call comes to, and which call it is. -/
def settlement? : Notice → Option (String × Except String String)
  | .done id value => some (id, .ok value)
  | .failed id message => some (id, .error message)
  | _ => none

end Notice

theorem Party.id_welcome (p : Party) : p.welcome.id = p.id := by
  cases p <;> rfl

/-- Whether the lock is given back when the body ends. -/
def Body.holdsLock (b : Body) : Bool := b.isRunning && b.tookLock

namespace LockTraffic

/-- What has happened at a lock, beside what it keeps itself. -/
structure Record where
  /-- Calls so far. Each has a name of its own. -/
  calls : List String := []
  /-- Those that had to ask for the lock, in order of arrival. -/
  asked : List Party := []
  /-- Holders that are inside. -/
  holders : List String := []
  /-- Bodies that ended, with what they came to, in order. -/
  ended : List (String × Except String String) := []
  notices : List Notice := []

namespace Record

variable (r : Record)

def call (id : String) : Record := { r with calls := id :: r.calls }

def ask (p : Party) : Record := { r with asked := r.asked ++ [p] }

def tell (ns : List Notice) : Record := { r with notices := r.notices ++ ns }

/-- The welcomes of those who asked. Those of bodies that came in to their owner are left out. -/
def welcomes : List Notice := r.notices.filter (· ∈ r.asked.map Party.welcome)

end Record

/-- Something happens. Who is inside releases the lock once, and a body that took the lock ends after the bodies
that came in to its owner. -/
inductive Step : LockTraffic → Record → LockTraffic → Record → Prop
  | acquire (t : LockTraffic) (r : Record) (id : String) (hnew : id ∉ r.calls) :
      Step t r (t.acquire id).1 (((r.call id).ask (.holder id)).tell (t.acquire id).2)
  | ask (t : LockTraffic) (r : Record) (id owner : String) (hnew : id ∉ r.calls)
      (hother : t.lock.isHeldBy owner = false) :
      Step t r (t.start id owner).1 (((r.call id).ask (.body id owner)).tell (t.start id owner).2)
  | reenter (t : LockTraffic) (r : Record) (id owner : String) (hnew : id ∉ r.calls)
      (hown : t.lock.isHeldBy owner = true) :
      Step t r (t.start id owner).1 ((r.call id).tell (t.start id owner).2)
  | release (t : LockTraffic) (r : Record) (id : String) (hin : id ∈ r.holders) :
      Step t r t.release.1 ({ r with holders := r.holders.erase id }.tell t.release.2)
  | finish (t : LockTraffic) (r : Record) (b : Body) (result : Except String String) (hb : b ∈ t.bodies)
      (hrunning : b.isRunning = true)
      (hlast : b.tookLock = true → ∀ b' ∈ t.bodies, b'.isRunning = true → b'.tookLock = true) :
      Step t r (t.finish b.id result).1
        ({ r with ended := r.ended ++ [(b.id, result)] }.tell (t.finish b.id result).2)
  | arrive (t : LockTraffic) (r : Record) (p : Party) (rest : List Party) (t' : LockTraffic) (n : Notice)
      (hp : t.arriving = p :: rest) (harrive : t.arrive = some (t', n)) :
      Step t r t' ({ r with holders := r.holders ++ p.holder?.toList }.tell [n])

/-- What a lock can come to that is free at first. -/
inductive Reaches : LockTraffic → Record → Prop
  | idle : Reaches {} {}
  | step {t t' : LockTraffic} {r r' : Record} (h : Reaches t r) (hstep : Step t r t' r') : Reaches t' r'

/-- Those who asked for the lock and are not inside yet, in order. -/
def waiting (t : LockTraffic) : List Party := t.arriving ++ t.lock.queue

/-- Who is inside. -/
def inside (t : LockTraffic) (r : Record) : List Party :=
  r.holders.map .holder ++ (t.bodies.filter (·.isRunning)).map fun b => .body b.id b.owner

variable {t t' : LockTraffic} {r r' : Record} {p : Party} {id owner : String}

/-! What the operations do, case by case. -/

theorem request_of_free (h : t.lock.locked = false) (p : Party) :
    t.request p = { t with lock := { t.lock with locked := true }, arriving := t.arriving ++ [p] } := by
  simp [request, Lock.request_of_free h]

theorem request_of_locked (h : t.lock.locked = true) (p : Party) :
    t.request p = { t with lock := { t.lock with queue := t.lock.queue ++ [p] } } := by
  simp [request, Lock.request_of_locked h]

theorem handOver_of_nil {l : Lock String Party} (h : l.queue = []) :
    t.handOver l.release = { t with lock := { l with locked := false } } := by
  simp [handOver, Lock.release, h]

theorem handOver_of_cons {l : Lock String Party} {rest : List Party} (h : l.queue = p :: rest) :
    t.handOver l.release = { t with lock := { l with queue := rest }, arriving := t.arriving ++ [p] } := by
  simp [handOver, Lock.release, h]

theorem arrive_holder {rest : List Party} (h : t.arriving = .holder id :: rest) :
    t.arrive = some ({ t with arriving := rest }, .acquired id) := by
  simp [arrive, h]

theorem arrive_body {rest : List Party} (h : t.arriving = .body id owner :: rest) :
    t.arrive = some ({ t with arriving := rest, lock := t.lock.claim owner, bodies := ⟨id, owner, true, true⟩ :: t.bodies },
      .entered id) := by
  simp [arrive, h]

theorem welcome_of_arrive {rest : List Party} {n : Notice} (hp : t.arriving = p :: rest)
    (harrive : t.arrive = some (t', n)) : n = p.welcome := by
  cases p with
  | holder id => cases (arrive_holder hp).symm.trans harrive; rfl
  | body id owner => cases (arrive_body hp).symm.trans harrive; rfl

theorem waiting_of_arrive {rest : List Party} {n : Notice} (hp : t.arriving = p :: rest)
    (harrive : t.arrive = some (t', n)) : t.waiting = p :: t'.waiting := by
  cases p with
  | holder id => cases (arrive_holder hp).symm.trans harrive; simp [waiting, hp]
  | body id owner => cases (arrive_body hp).symm.trans harrive; simp [waiting, hp, Lock.claim]

theorem start_of_held (h : t.lock.isHeldBy owner = true) (id : String) :
    t.start id owner = ({ t with bodies := ⟨id, owner, false, true⟩ :: t.bodies }, [.entered id]) := by
  simp [start, h]

theorem start_of_not_held (h : t.lock.isHeldBy owner = false) (id : String) :
    t.start id owner = (t.request (.body id owner), []) := by
  simp [start, h]

/-- A body with that name is stopped. -/
def stopIf (id : String) (b : Body) : Body := if b.id = id then b.stop else b

theorem id_stopIf (id : String) (b : Body) : (stopIf id b).id = b.id := by
  unfold stopIf
  split <;> rfl

theorem map_stopIf_of_not_mem {bodies : List Body} (h : id ∉ bodies.map Body.id) :
    bodies.map (stopIf id) = bodies := by
  refine (List.map_congr_left fun b hb => ?_).trans (List.map_id bodies)
  have hid : b.id ≠ id := by
    rintro rfl
    exact h (List.mem_map_of_mem hb)
  exact if_neg hid

theorem modify_findIdx_eq_map {bodies : List Body} (h : (bodies.map Body.id).Nodup) (id : String) :
    bodies.modify (bodies.findIdx (·.id = id)) Body.stop = bodies.map (stopIf id) := by
  induction bodies with
  | nil => rfl
  | cons b bodies ih =>
      obtain ⟨hb, hnodup⟩ := List.nodup_cons.1 h
      by_cases hid : b.id = id
      · have hrest : bodies.map (stopIf id) = bodies := map_stopIf_of_not_mem (hid ▸ hb)
        simp [List.findIdx_cons, hid, stopIf, hrest]
      · simp [List.findIdx_cons, hid, stopIf, ih hnodup]

theorem find?_id_eq {bodies : List Body} {b : Body} (h : (bodies.map Body.id).Nodup) (hb : b ∈ bodies) :
    bodies.find? (·.id = b.id) = some b := by
  induction bodies with
  | nil => cases hb
  | cons b' bodies ih =>
      obtain ⟨hb', hnodup⟩ := List.nodup_cons.1 h
      rcases List.mem_cons.1 hb with rfl | hb
      · simp
      · have hid : b'.id ≠ b.id := fun hid => hb' (hid ▸ List.mem_map_of_mem hb)
        simpa [hid] using ih hnodup hb

/-- Bodies are left as they were but for the one that was stopped. -/
theorem filter_map_stopIf {q : Body → Bool} (hq : ∀ b : Body, q b.stop = false) (id : String) (bodies : List Body) :
    (bodies.map (stopIf id)).filter q = (bodies.filter q).filter (·.id ≠ id) := by
  induction bodies with
  | nil => rfl
  | cons b bodies ih =>
      by_cases hid : b.id = id
      · cases hb : q b <;> simp [stopIf, hid, hq, hb] at ih ⊢ <;> exact ih
      · cases hb : q b <;> simp [stopIf, hid, hb] at ih ⊢ <;> exact ih

theorem running_of_mem_map_stopIf {bodies : List Body} {b : Body} (hb : b ∈ bodies.map (stopIf id))
    (hrunning : b.isRunning = true) : b ∈ bodies ∧ b.id ≠ id := by
  obtain ⟨c, hc, rfl⟩ := List.mem_map.1 hb
  by_cases hid : c.id = id
  · rw [stopIf, if_pos hid] at hrunning
    cases hrunning
  · rw [stopIf, if_neg hid]
    exact ⟨hc, hid⟩

theorem mem_map_stopIf_of_ne {bodies : List Body} {b : Body} (hb : b ∈ bodies) (hid : b.id ≠ id) :
    b ∈ bodies.map (stopIf id) := List.mem_map.2 ⟨b, hb, if_neg hid⟩

theorem holdsLock_stop (b : Body) : b.stop.holdsLock = false := rfl

def settlementOf (id : String) : Except String String → Notice
  | .ok value => .done id value
  | .error message => .failed id message

theorem finish_of_running {b : Body} (hb : b ∈ t.bodies) (hrunning : b.isRunning = true)
    (hnodup : (t.bodies.map Body.id).Nodup) (result : Except String String) :
    t.finish b.id result =
      (if b.tookLock then { t with bodies := t.bodies.map (stopIf b.id) }.handOver t.lock.leave
        else { t with bodies := t.bodies.map (stopIf b.id) }, [settlementOf b.id result]) := by
  unfold finish
  rw [find?_id_eq hnodup hb]
  simp only [hrunning, if_true, modify_findIdx_eq_map hnodup]
  cases result <;> rfl

/-! The lock: it is taken as long as somebody is on the way or inside, and its owner is who is inside. -/

structure Guarded (t : LockTraffic) (holders : List String) : Prop where
  taken : t.arriving.length + holders.length + (t.bodies.filter Body.holdsLock).length = t.lock.locked.toNat
  rest : t.lock.locked = false → t.lock.queue = []
  owned : ∀ o, t.lock.owner = some o → ∃ b ∈ t.bodies, b.holdsLock = true
  owner : ∀ b ∈ t.bodies, b.isRunning = true → t.lock.owner = some b.owner

namespace Guarded

variable {holders : List String}

theorem request (h : Guarded t holders) (p : Party) : Guarded (t.request p) holders := by
  have htaken := h.taken
  cases hlocked : t.lock.locked with
  | false =>
      rw [request_of_free hlocked]
      rw [hlocked] at htaken
      refine ⟨?_, nofun, h.owned, h.owner⟩
      simp only [List.length_append, List.length_singleton, Bool.toNat_true]
      simp only [Bool.toNat_false] at htaken
      omega
  | true =>
      rw [request_of_locked hlocked]
      refine ⟨htaken, fun hfree => ?_, h.owned, h.owner⟩
      exact absurd (hlocked.symm.trans hfree) (by decide)

/-- One who held the lock lets go of it: then it is free, or on its way to the next. -/
theorem handOver {l : Lock String Party}
    (htaken : t.arriving.length + holders.length + (t.bodies.filter Body.holdsLock).length + 1 = l.locked.toNat)
    (howned : ∀ o, l.owner = some o → ∃ b ∈ t.bodies, b.holdsLock = true)
    (howner : ∀ b ∈ t.bodies, b.isRunning = true → l.owner = some b.owner) :
    Guarded (t.handOver l.release) holders := by
  have hlocked : l.locked = true := by
    cases hlocked : l.locked with
    | false => simp [hlocked] at htaken
    | true => rfl
  rw [hlocked, Bool.toNat_true] at htaken
  cases hqueue : l.queue with
  | nil =>
      rw [handOver_of_nil hqueue]
      refine ⟨?_, fun _ => hqueue, howned, howner⟩
      simp only [Bool.toNat_false]
      omega
  | cons p rest =>
      rw [handOver_of_cons hqueue]
      refine ⟨?_, fun hfree => absurd (hlocked.symm.trans hfree) (by decide), howned, howner⟩
      simp only [List.length_append, List.length_singleton, hlocked, Bool.toNat_true]
      omega

/-- A running body that took the lock is the only one that has it. -/
theorem alone {b : Body} (h : Guarded t holders) (hb : b ∈ t.bodies) (hheld : b.holdsLock = true) :
    t.bodies.filter Body.holdsLock = [b] := by
  have htaken := h.taken
  have hle := t.lock.locked.toNat_le
  have hmem : b ∈ t.bodies.filter Body.holdsLock := List.mem_filter.2 ⟨hb, hheld⟩
  obtain ⟨c, hc⟩ := List.length_eq_one_iff.1 (Nat.le_antisymm (by omega) (List.length_pos_of_mem hmem))
  rw [hc, List.mem_singleton] at hmem
  rw [hc, hmem]

/-- While a body runs nobody is on the way and no holder is inside. -/
theorem none_beside {b : Body} (h : Guarded t holders) (hb : b ∈ t.bodies) (hrunning : b.isRunning = true) :
    t.arriving = [] ∧ holders = [] := by
  obtain ⟨c, hc, hheld⟩ := h.owned b.owner (h.owner b hb hrunning)
  have hpos := List.length_pos_of_mem (List.mem_filter.2 ⟨hc, hheld⟩)
  have htaken := h.taken
  have hle := t.lock.locked.toNat_le
  exact ⟨List.length_eq_zero_iff.1 (by omega), List.length_eq_zero_iff.1 (by omega)⟩

theorem reenter (h : Guarded t holders) (hown : t.lock.isHeldBy owner = true) (id : String) :
    Guarded { t with bodies := ⟨id, owner, false, true⟩ :: t.bodies } holders := by
  refine ⟨h.taken, h.rest, fun o ho => ?_, fun b hb hrunning => ?_⟩
  · obtain ⟨b, hb, hheld⟩ := h.owned o ho
    exact ⟨b, List.mem_cons_of_mem _ hb, hheld⟩
  · rcases List.mem_cons.1 hb with rfl | hb
    · unfold Lock.isHeldBy at hown
      simp at hown
      exact hown.2
    · exact h.owner b hb hrunning

/-- A body that came in to its owner ends. -/
theorem stop {b : Body} (h : Guarded t holders) (hnodup : (t.bodies.map Body.id).Nodup) (hb : b ∈ t.bodies)
    (htook : b.tookLock = false) : Guarded { t with bodies := t.bodies.map (stopIf b.id) } holders := by
  have hne (c : Body) (hc : c ∈ t.bodies) (hheld : c.holdsLock = true) : c.id ≠ b.id := by
    intro hid
    cases List.inj_on_of_nodup_map hnodup hc hb hid
    simp [Body.holdsLock, htook] at hheld
  have hkept : (t.bodies.map (stopIf b.id)).filter Body.holdsLock = t.bodies.filter Body.holdsLock := by
    rw [filter_map_stopIf holdsLock_stop]
    refine List.filter_eq_self.2 fun c hc => ?_
    simpa using hne c (List.mem_filter.1 hc).1 (List.mem_filter.1 hc).2
  refine ⟨?_, h.rest, fun o ho => ?_, fun c hc hrunning => ?_⟩
  · rw [hkept]
    exact h.taken
  · obtain ⟨c, hc, hheld⟩ := h.owned o ho
    exact ⟨c, mem_map_stopIf_of_ne hc (hne c hc hheld), hheld⟩
  · exact h.owner c (running_of_mem_map_stopIf hc hrunning).1 hrunning

/-- The body that took the lock ends, after those that came in to its owner. -/
theorem stopLast {b : Body} (h : Guarded t holders) (hb : b ∈ t.bodies) (hheld : b.holdsLock = true)
    (hlast : ∀ c ∈ t.bodies, c.isRunning = true → c.tookLock = true) :
    Guarded ({ t with bodies := t.bodies.map (stopIf b.id) }.handOver t.lock.leave) holders := by
  have honly := h.alone hb hheld
  have hnone : (t.bodies.map (stopIf b.id)).filter Body.holdsLock = [] := by
    rw [filter_map_stopIf holdsLock_stop, honly]
    simp
  have htaken := h.taken
  rw [honly] at htaken
  refine handOver ?_ nofun fun c hc hrunning => ?_
  · rw [hnone]
    exact htaken
  · obtain ⟨hmem, hid⟩ := running_of_mem_map_stopIf hc hrunning
    have hheld' : c.holdsLock = true := by simp [Body.holdsLock, hrunning, hlast c hmem hrunning]
    have hc := List.mem_filter.2 ⟨hmem, hheld'⟩
    rw [honly, List.mem_singleton] at hc
    exact absurd (congrArg Body.id hc) hid

/-- The one on the way goes inside: nobody else is there. -/
theorem arrive (h : Guarded t holders) {rest : List Party} {n : Notice} (hp : t.arriving = p :: rest)
    (harrive : t.arrive = some (t', n)) :
    Guarded t' (holders ++ p.holder?.toList) := by
  have htaken := h.taken
  rw [hp, List.length_cons] at htaken
  cases p with
  | holder id =>
      cases (arrive_holder hp).symm.trans harrive
      refine ⟨?_, h.rest, h.owned, h.owner⟩
      simp only [Party.holder?, Option.toList_some, List.length_append, List.length_singleton]
      omega
  | body id owner =>
      cases (arrive_body hp).symm.trans harrive
      refine ⟨?_, h.rest, fun o ho => ⟨_, List.mem_cons_self .., rfl⟩, fun b hb hrunning => ?_⟩
      · simp only [Lock.claim, Party.holder?, Body.holdsLock, List.filter_cons, Bool.and_true, if_true,
          List.length_cons, Option.toList_none, List.append_nil]
        exact (by omega)
      · rcases List.mem_cons.1 hb with rfl | hb
        · rfl
        · rw [(h.none_beside hb hrunning).1] at hp
          cases hp

theorem step (h : Guarded t r.holders) (hnodup : (t.bodies.map Body.id).Nodup) (hs : Step t r t' r') :
    Guarded t' r'.holders := by
  have htaken := h.taken
  cases hs with
  | acquire id hnew => exact h.request (.holder id)
  | ask id owner hnew hother =>
      rw [start_of_not_held hother]
      exact h.request (.body id owner)
  | reenter id owner hnew hown =>
      rw [start_of_held hown]
      exact h.reenter hown id
  | release id hin =>
      have hlength := List.length_erase_of_mem hin
      have hpos := List.length_pos_of_mem hin
      exact handOver (by simp only [Record.tell]; omega) h.owned h.owner
  | finish b result hb hrunning hlast =>
      rw [finish_of_running hb hrunning hnodup]
      cases htook : b.tookLock with
      | false => exact h.stop hnodup hb htook
      | true => exact h.stopLast hb (by simp [Body.holdsLock, hrunning, htook]) (hlast htook)
  | arrive p rest _ n hp harrive => exact h.arrive hp harrive

end Guarded

/-! Who waits keeps the order of arrival. -/

theorem waiting_request (hrest : t.lock.locked = false → t.lock.queue = []) (p : Party) :
    (t.request p).waiting = t.waiting ++ [p] := by
  unfold waiting
  cases hlocked : t.lock.locked with
  | false => simp [request_of_free hlocked, hrest hlocked]
  | true => simp [request_of_locked hlocked]

theorem waiting_handOver {l : Lock String Party} (hl : l.queue = t.lock.queue) :
    (t.handOver l.release).waiting = t.waiting := by
  unfold waiting
  cases hqueue : l.queue with
  | nil => simp [handOver_of_nil hqueue, ← hl, hqueue]
  | cons p rest => simp [handOver_of_cons hqueue, ← hl, hqueue]

theorem waiting_finish {b : Body} (hb : b ∈ t.bodies) (hrunning : b.isRunning = true)
    (hnodup : (t.bodies.map Body.id).Nodup) (result : Except String String) :
    (t.finish b.id result).1.waiting = t.waiting := by
  rw [finish_of_running hb hrunning hnodup]
  cases b.tookLock with
  | false => rfl
  | true => exact waiting_handOver rfl

theorem bodies_finish {b : Body} (hb : b ∈ t.bodies) (hrunning : b.isRunning = true)
    (hnodup : (t.bodies.map Body.id).Nodup) (result : Except String String) :
    (t.finish b.id result).1.bodies = t.bodies.map (stopIf b.id) := by
  rw [finish_of_running hb hrunning hnodup]
  cases b.tookLock <;> rfl

/-! Names: no two calls have one in common, and a body that ended is not called again. -/

/-- The names of those who wait and of those who came inside as bodies. -/
def names (t : LockTraffic) : List String := t.waiting.map Party.id ++ t.bodies.map Body.id

structure Named (t : LockTraffic) (r : Record) : Prop where
  nodup : t.names.Nodup
  known : ∀ id ∈ t.names, id ∈ r.calls
  asked : (r.asked.map Party.id).Nodup
  askedKnown : ∀ id ∈ r.asked.map Party.id, id ∈ r.calls
  told : ∀ n ∈ r.notices, n.id ∈ r.calls
  ended : (r.ended.map Prod.fst).Nodup
  stopped : ∀ id ∈ r.ended.map Prod.fst, ∃ b ∈ t.bodies, b.id = id ∧ b.isRunning = false

namespace Named

theorem bodies (h : Named t r) : (t.bodies.map Body.id).Nodup := (List.nodup_append.1 h.nodup).2.1

theorem call (h : Named t r) (id : String) : Named t (r.call id) where
  nodup := h.nodup
  known id' hid := List.mem_cons_of_mem _ (h.known id' hid)
  asked := h.asked
  askedKnown id' hid := List.mem_cons_of_mem _ (h.askedKnown id' hid)
  told n hn := List.mem_cons_of_mem _ (h.told n hn)
  ended := h.ended
  stopped := h.stopped

theorem tell (h : Named t r) {ns : List Notice} (hns : ∀ n ∈ ns, n.id ∈ r.calls) : Named t (r.tell ns) where
  nodup := h.nodup
  known := h.known
  asked := h.asked
  askedKnown := h.askedKnown
  told n hn := (List.mem_append.1 hn).elim (h.told n) (hns n)
  ended := h.ended
  stopped := h.stopped

theorem ask (h : Named t r) (hasked : p.id ∉ r.asked.map Party.id) (hcall : p.id ∈ r.calls) : Named t (r.ask p) where
  nodup := h.nodup
  known := h.known
  asked := by
    rw [Record.ask, List.map_append]
    exact h.asked.append (List.nodup_singleton _) (List.disjoint_singleton.2 hasked)
  askedKnown id hid := by
    rw [Record.ask, List.map_append, List.mem_append] at hid
    exact hid.elim (h.askedKnown id) fun hid => List.mem_singleton.1 hid ▸ hcall
  told := h.told
  ended := h.ended
  stopped := h.stopped

/-- One more waits or came inside. -/
theorem join (h : Named t r) (hnames : t'.names.Perm (id :: t.names)) (hbodies : t.bodies ⊆ t'.bodies)
    (hnew : id ∉ t.names) (hcall : id ∈ r.calls) : Named t' r where
  nodup := hnames.nodup_iff.2 (List.nodup_cons.2 ⟨hnew, h.nodup⟩)
  known id' hid := by
    rcases List.mem_cons.1 (hnames.mem_iff.1 hid) with rfl | hid
    · exact hcall
    · exact h.known id' hid
  asked := h.asked
  askedKnown := h.askedKnown
  told := h.told
  ended := h.ended
  stopped id' hid := by
    obtain ⟨b, hb, hstopped⟩ := h.stopped id' hid
    exact ⟨b, hbodies hb, hstopped⟩

theorem keep (h : Named t r) (hnodup : t'.names.Nodup) (hnames : t'.names ⊆ t.names) (hbodies : t.bodies ⊆ t'.bodies) :
    Named t' r where
  nodup := hnodup
  known id hid := h.known id (hnames hid)
  asked := h.asked
  askedKnown := h.askedKnown
  told := h.told
  ended := h.ended
  stopped id hid := by
    obtain ⟨b, hb, hstopped⟩ := h.stopped id hid
    exact ⟨b, hbodies hb, hstopped⟩

theorem request (h : Named t r) (hrest : t.lock.locked = false → t.lock.queue = []) (hnew : p.id ∉ t.names)
    (hcall : p.id ∈ r.calls) : Named (t.request p) r := by
  refine h.join ?_ (List.Subset.refl _) hnew hcall
  unfold names
  rw [waiting_request hrest, List.map_append, List.append_assoc]
  exact List.perm_middle

theorem arrive (h : Named t r) {rest : List Party} {n : Notice} (hp : t.arriving = p :: rest)
    (harrive : t.arrive = some (t', n)) : Named t' r := by
  cases p with
  | holder id =>
      cases (arrive_holder hp).symm.trans harrive
      have hnames : t.names = id :: names { t with arriving := rest } := by simp [names, waiting, hp, Party.id]
      refine h.keep (List.nodup_cons.1 (hnames ▸ h.nodup)).2 ?_ (List.Subset.refl _)
      rw [hnames]
      exact List.subset_cons_self _ _
  | body id owner =>
      cases (arrive_body hp).symm.trans harrive
      have hnames : t.names.Perm (names { t with
          arriving := rest, lock := t.lock.claim owner, bodies := ⟨id, owner, true, true⟩ :: t.bodies }) := by
        simp only [names, waiting, hp, Lock.claim]
        exact List.perm_middle.symm
      exact h.keep (hnames.nodup_iff.1 h.nodup) hnames.symm.subset (List.subset_cons_self _ _)

theorem finish (h : Named t r) {b : Body} (hb : b ∈ t.bodies) (hrunning : b.isRunning = true)
    (result : Except String String) :
    Named (t.finish b.id result).1 { r with ended := r.ended ++ [(b.id, result)] } := by
  have hnames : (t.finish b.id result).1.names = t.names := by
    unfold names
    rw [waiting_finish hb hrunning h.bodies, bodies_finish hb hrunning h.bodies, List.map_map]
    congr 2
    exact funext fun c => id_stopIf b.id c
  have hbodies := bodies_finish hb hrunning h.bodies result
  refine ⟨hnames ▸ h.nodup, hnames ▸ h.known, h.asked, h.askedKnown, h.told, ?_, fun id hid => ?_⟩
  · rw [List.map_append]
    refine h.ended.append (List.nodup_singleton _) (List.disjoint_singleton.2 fun hid => ?_)
    obtain ⟨c, hc, hcb, hstopped⟩ := h.stopped b.id hid
    cases List.inj_on_of_nodup_map h.bodies hc hb hcb
    rw [hrunning] at hstopped
    cases hstopped
  · rw [hbodies]
    rw [List.map_append, List.mem_append] at hid
    rcases hid with hid | hid
    · obtain ⟨c, hc, rfl, hstopped⟩ := h.stopped id hid
      refine ⟨stopIf b.id c, List.mem_map_of_mem hc, id_stopIf b.id c, ?_⟩
      unfold stopIf
      split
      · rfl
      · exact hstopped
    · cases List.mem_singleton.1 hid
      exact ⟨b.stop, List.mem_map.2 ⟨b, hb, if_pos rfl⟩, rfl, rfl⟩

theorem hold (h : Named t r) (holders : List String) : Named t { r with holders } :=
  ⟨h.nodup, h.known, h.asked, h.askedKnown, h.told, h.ended, h.stopped⟩

/-- Another one asks for the lock. -/
theorem arrival (h : Named t r) (hrest : t.lock.locked = false → t.lock.queue = []) (hnew : p.id ∉ r.calls) :
    Named (t.request p) ((r.call p.id).ask p) := by
  have hcall : p.id ∈ (r.call p.id).calls := List.mem_cons_self ..
  have hask : Named t ((r.call p.id).ask p) := (h.call p.id).ask (fun hid => hnew (h.askedKnown _ hid)) hcall
  exact hask.request hrest (fun hid => hnew (h.known _ hid)) hcall

theorem step (h : Named t r) (hguard : Guarded t r.holders) (hs : Step t r t' r') : Named t' r' := by
  cases hs with
  | acquire id hnew => exact (h.arrival hguard.rest (p := .holder id) hnew).tell nofun
  | ask id owner hnew hother =>
      rw [start_of_not_held hother]
      exact (h.arrival hguard.rest (p := .body id owner) hnew).tell nofun
  | reenter id owner hnew hown =>
      rw [start_of_held hown]
      have hcall : id ∈ (r.call id).calls := List.mem_cons_self ..
      refine tell ?_ fun n hn => List.mem_singleton.1 hn ▸ hcall
      exact (h.call id).join List.perm_middle (List.subset_cons_self _ _) (fun hid => hnew (h.known _ hid)) hcall
  | release id hin =>
      have hnames : t.release.1.names = t.names := by
        have hwaiting : t.release.1.waiting = t.waiting := waiting_handOver rfl
        unfold names
        rw [hwaiting]
        rfl
      have hkeep : Named t.release.1 r := h.keep (hnames ▸ h.nodup) (hnames ▸ List.Subset.refl _) (List.Subset.refl _)
      exact (hkeep.hold _).tell nofun
  | finish b result hb hrunning hlast =>
      refine (h.finish hb hrunning result).tell ?_
      have hcall := h.known b.id (List.mem_append_right _ (List.mem_map_of_mem hb))
      rw [finish_of_running hb hrunning h.bodies]
      intro n hn
      cases List.mem_singleton.1 hn
      cases result <;> exact hcall
  | arrive p rest _ n hp harrive =>
      have hcall := h.known p.id (by simp [names, waiting, hp])
      refine ((h.arrive hp harrive).hold _).tell fun n' hn => ?_
      cases List.mem_singleton.1 hn
      rwa [welcome_of_arrive hp harrive, Party.id_welcome]

end Named

/-! What is told: welcomes in order of arrival, and to each body that ended what it came to. -/

structure Told (t : LockTraffic) (r : Record) : Prop where
  turns : r.welcomes ++ t.waiting.map Party.welcome = r.asked.map Party.welcome
  settled : r.notices.filterMap Notice.settlement? = r.ended

theorem welcomes_tell (ns : List Notice) :
    (r.tell ns).welcomes = r.welcomes ++ ns.filter (· ∈ r.asked.map Party.welcome) := by
  simp [Record.welcomes, Record.tell]

theorem not_welcome_of_id {n : Notice} (h : n.id ∉ r.asked.map Party.id) : n ∉ r.asked.map Party.welcome := by
  intro hn
  obtain ⟨p, hp, rfl⟩ := List.mem_map.1 hn
  rw [Party.id_welcome] at h
  exact h (List.mem_map_of_mem hp)

/-- One who asks anew was not welcomed before. -/
theorem welcomes_ask (h : ∀ n ∈ r.notices, n.id ≠ p.id) : (r.ask p).welcomes = r.welcomes := by
  refine List.filter_congr fun n hn => ?_
  have hne : n ≠ p.welcome := fun he => h n hn (by rw [he, Party.id_welcome])
  simp [Record.ask, hne]

theorem settlementOf_not_welcome (id : String) (result : Except String String) :
    settlementOf id result ∉ r.asked.map Party.welcome := by
  intro h
  obtain ⟨p, -, hp⟩ := List.mem_map.1 h
  cases p <;> cases result <;> cases hp

theorem settlement?_settlementOf (id : String) (result : Except String String) :
    (settlementOf id result).settlement? = some (id, result) := by
  cases result <;> rfl

theorem settlement?_welcome (p : Party) : p.welcome.settlement? = none := by
  cases p <;> rfl

namespace Told

/-- Another one asks for the lock, and waits behind those who did so before. -/
theorem arrival (h : Told t r) (hrest : t.lock.locked = false → t.lock.queue = []) (hnamed : Named t r)
    (hnew : p.id ∉ r.calls) : Told (t.request p) ((r.call p.id).ask p) := by
  have hwelcomes : ((r.call p.id).ask p).welcomes = r.welcomes :=
    welcomes_ask fun n hn he => hnew (he ▸ hnamed.told n hn)
  refine ⟨?_, h.settled⟩
  rw [hwelcomes, waiting_request hrest, List.map_append, ← List.append_assoc, h.turns]
  exact List.map_append.symm

/-- What is told does not concern those who wait. -/
theorem tell {ns : List Notice} (h : Told t r) (hwelcomes : ∀ n ∈ ns, n ∉ r.asked.map Party.welcome)
    (hsettled : ns.filterMap Notice.settlement? = []) : Told t (r.tell ns) := by
  refine ⟨?_, ?_⟩
  · rw [welcomes_tell, List.filter_eq_nil_iff.2 (by simpa using hwelcomes), List.append_nil]
    exact h.turns
  · rw [Record.tell, List.filterMap_append, hsettled, List.append_nil]
    exact h.settled

theorem step (h : Told t r) (hguard : Guarded t r.holders) (hnamed : Named t r) (hs : Step t r t' r') :
    Told t' r' := by
  cases hs with
  | acquire id hnew => exact (h.arrival hguard.rest hnamed (p := .holder id) hnew).tell nofun rfl
  | ask id owner hnew hother =>
      rw [start_of_not_held hother]
      exact (h.arrival hguard.rest hnamed (p := .body id owner) hnew).tell nofun rfl
  | reenter id owner hnew hown =>
      rw [start_of_held hown]
      have hother : Notice.entered id ∉ r.asked.map Party.welcome :=
        not_welcome_of_id fun hid => hnew (hnamed.askedKnown id hid)
      exact tell ⟨h.turns, h.settled⟩ (fun n hn => List.mem_singleton.1 hn ▸ hother) rfl
  | release id hin =>
      refine tell ⟨?_, h.settled⟩ nofun rfl
      have hwaiting : t.release.1.waiting = t.waiting := waiting_handOver rfl
      rw [hwaiting]
      exact h.turns
  | finish b result hb hrunning hlast =>
      have hnotices := congrArg Prod.snd (finish_of_running hb hrunning hnamed.bodies result)
      rw [hnotices]
      refine ⟨?_, ?_⟩
      · rw [welcomes_tell, waiting_finish hb hrunning hnamed.bodies]
        rw [List.filter_eq_nil_iff.2 (by simpa using settlementOf_not_welcome b.id result), List.append_nil]
        exact h.turns
      · simp only [Record.tell, List.filterMap_append, h.settled, List.filterMap_cons, settlement?_settlementOf,
          List.filterMap_nil]
  | arrive p rest _ n hp harrive =>
      have hn := welcome_of_arrive hp harrive
      have hwaiting := waiting_of_arrive hp harrive
      have hturns := h.turns
      rw [hwaiting, List.map_cons] at hturns
      have hasked : n ∈ r.asked.map Party.welcome := by
        rw [← hturns, hn]
        simp
      refine ⟨?_, ?_⟩
      · rw [welcomes_tell, List.filter_cons_of_pos (by simpa using hasked), List.filter_nil]
        rw [List.append_assoc, hn]
        exact hturns
      · rw [Record.tell, List.filterMap_append, hn]
        simp [settlement?_welcome, h.settled]

end Told

/-! Whatever happens at a lock. -/

structure Orderly (t : LockTraffic) (r : Record) : Prop where
  guarded : Guarded t r.holders
  named : Named t r
  told : Told t r

theorem Orderly.step (h : Orderly t r) (hs : Step t r t' r') : Orderly t' r' where
  guarded := h.guarded.step h.named.bodies hs
  named := h.named.step h.guarded hs
  told := h.told.step h.guarded h.named hs

theorem Reaches.orderly (h : Reaches t r) : Orderly t r := by
  induction h with
  | idle => exact ⟨⟨rfl, fun _ => rfl, nofun, nofun⟩, ⟨by decide, nofun, by decide, nofun, nofun, by decide, nofun⟩, ⟨rfl, rfl⟩⟩
  | step _ hs ih => exact ih.step hs

theorem mem_inside : p ∈ t.inside r ↔
    (∃ id ∈ r.holders, p = .holder id) ∨ ∃ b ∈ t.bodies, b.isRunning = true ∧ p = .body b.id b.owner := by
  simp only [inside, List.mem_append, List.mem_map, List.mem_filter, and_assoc, eq_comm (a := p)]

theorem inside_eq_nil : t.inside r = [] ↔ r.holders = [] ∧ ∀ b ∈ t.bodies, b.isRunning = false := by
  simp [inside]

namespace Guarded

theorem one_side {q : Party} (h : Guarded t r.holders) (hp : p ∈ t.inside r) (hq : q ∈ t.inside r) :
    p.side = q.side := by
  have htaken := h.taken
  have hle := t.lock.locked.toNat_le
  rcases mem_inside.1 hp with ⟨id, hid, rfl⟩ | ⟨b, hb, hrunning, rfl⟩
  · rcases mem_inside.1 hq with ⟨id', hid', rfl⟩ | ⟨b, hb, hrunning, rfl⟩
    · have hpos := List.length_pos_of_mem hid
      obtain ⟨only, honly⟩ := List.length_eq_one_iff.1 (show r.holders.length = 1 by omega)
      rw [honly, List.mem_singleton] at hid hid'
      rw [hid, hid']
    · rw [(h.none_beside hb hrunning).2] at hid
      cases hid
  · rcases mem_inside.1 hq with ⟨id, hid, rfl⟩ | ⟨b', hb', hrunning', rfl⟩
    · rw [(h.none_beside hb hrunning).2] at hid
      cases hid
    · have howner := (h.owner b hb hrunning).symm.trans (h.owner b' hb' hrunning')
      exact congrArg Sum.inr (Option.some.inj howner)

theorem free_of_idle (h : Guarded t r.holders) (hinside : t.inside r = []) (harriving : t.arriving = []) :
    t.lock.locked = false := by
  obtain ⟨hholders, hstopped⟩ := inside_eq_nil.1 hinside
  have htaken := h.taken
  have hnone : t.bodies.filter Body.holdsLock = [] :=
    List.filter_eq_nil_iff.2 fun b hb => by simp [Body.holdsLock, hstopped b hb]
  cases hlocked : t.lock.locked with
  | false => rfl
  | true => simp [harriving, hholders, hnone, hlocked] at htaken

/-- As long as somebody is in the queue there is somebody to hand the lock on. -/
theorem no_lost_wakeup (h : Guarded t r.holders) (hqueue : t.lock.queue ≠ []) :
    t.lock.locked = true ∧ (t.inside r ≠ [] ∨ t.arriving ≠ []) := by
  have hlocked : t.lock.locked ≠ false := fun hfree => hqueue (h.rest hfree)
  refine ⟨by simpa using hlocked, Classical.or_iff_not_imp_left.2 fun hinside harriving => ?_⟩
  exact hlocked (h.free_of_idle (Classical.not_not.1 hinside) harriving)

end Guarded

/-- What those who use a lock may rely on. -/
structure Fair (t : LockTraffic) (r : Record) : Prop where
  /-- All that are inside belong to one holder. -/
  exclusion : ∀ p ∈ t.inside r, ∀ q ∈ t.inside r, p.side = q.side
  /-- Of those who asked for the lock, in order of arrival, the first ones were welcomed and the others wait. -/
  turns : r.asked.map Party.welcome = r.welcomes ++ t.waiting.map Party.welcome
  /-- So nobody is welcomed twice. -/
  once : (r.asked.map Party.welcome).Nodup
  no_lost_wakeup : t.lock.queue ≠ [] → t.lock.locked = true ∧ (t.inside r ≠ [] ∨ t.arriving ≠ [])
  free : t.inside r = [] → t.arriving = [] → t.lock.queue = [] → t.lock.locked = false
  /-- Bodies that ended were told what they came to themselves, each one once. -/
  settled : r.notices.filterMap Notice.settlement? = r.ended
  settled_once : (r.ended.map Prod.fst).Nodup

theorem lock_is_fair (h : Reaches t r) : Fair t r where
  exclusion _ hp _ hq := h.orderly.guarded.one_side hp hq
  turns := h.orderly.told.turns.symm
  once := by
    have hids : (r.asked.map Party.welcome).map Notice.id = r.asked.map Party.id := by
      rw [List.map_map]
      exact List.map_congr_left fun p _ => p.id_welcome
    exact List.Nodup.of_map Notice.id (hids ▸ h.orderly.named.asked)
  no_lost_wakeup := h.orderly.guarded.no_lost_wakeup
  free hinside harriving _ := h.orderly.guarded.free_of_idle hinside harriving
  settled := h.orderly.told.settled
  settled_once := h.orderly.named.ended

/-- A body of A let another one of A in and failed after it; a holder had the lock next, then a body of B has it, and
a third one of A waits. -/
def shared : LockTraffic where
  lock := ⟨true, some "B", [.body "a3" "A"]⟩
  bodies := [⟨"b1", "B", true, true⟩, ⟨"a2", "A", false, false⟩, ⟨"a1", "A", true, false⟩]

def sharedRecord : Record where
  calls := ["a3", "a2", "b1", "h", "a1"]
  asked := [.body "a1" "A", .holder "h", .body "b1" "B", .body "a3" "A"]
  ended := [("a2", .ok "two"), ("a1", .error "broken")]
  notices :=
    [.entered "a1", .entered "a2", .done "a2" "two", .failed "a1" "broken", .acquired "h", .entered "b1"]

theorem reaches_shared : Reaches shared sharedRecord := by
  have first : Reaches _ _ := .step .idle (.ask {} {} "a1" "A" (by decide) rfl)
  have inside : Reaches _ _ := .step first (.arrive _ _ _ _ _ _ rfl rfl)
  have holder : Reaches _ _ := .step inside (.acquire _ _ "h" (by decide))
  have other : Reaches _ _ := .step holder (.ask _ _ "b1" "B" (by decide) rfl)
  have second : Reaches _ _ := .step other (.reenter _ _ "a2" "A" (by decide) rfl)
  have done : Reaches _ _ := .step second (.finish _ _ ⟨"a2", "A", false, true⟩ (.ok "two") (.head _) rfl nofun)
  have failed : Reaches _ _ :=
    .step done (.finish _ _ ⟨"a1", "A", true, true⟩ (.error "broken") (.tail _ (.head _)) rfl (by decide))
  have holding : Reaches _ _ := .step failed (.arrive _ _ _ _ _ _ rfl rfl)
  have released : Reaches _ _ := .step holding (.release _ _ "h" (.head _))
  have last : Reaches _ _ := .step released (.arrive _ _ _ _ _ _ rfl rfl)
  exact .step last (.ask _ _ "a3" "A" (by decide) rfl)

theorem shared_lock_is_fair : Reaches shared sharedRecord ∧ Fair shared sharedRecord :=
  ⟨reaches_shared, lock_is_fair reaches_shared⟩

end LockTraffic

end ScriptedText
