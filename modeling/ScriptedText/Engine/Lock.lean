/-!
The lock of a language that runs one program at a time. It is taken in order of arrival. Once taken it may get an
owner, who may then enter again without taking it.
-/

namespace ScriptedText

structure Lock (owner waiter : Type) where
  locked : Bool := false
  owner : Option owner := none
  queue : List waiter := []
  deriving DecidableEq, Repr

namespace Lock

variable {owner waiter : Type} [DecidableEq owner]

instance : Inhabited (Lock owner waiter) := ⟨{}⟩

/-- Whether `o` is inside already and need not wait for itself. -/
def isHeldBy (l : Lock owner waiter) (o : owner) : Bool := l.locked && l.owner = some o

/-- Takes a free lock, or joins the queue of a taken one. The flag says which. -/
def request (l : Lock owner waiter) (w : waiter) : Lock owner waiter × Bool :=
  if l.locked then ({ l with queue := l.queue ++ [w] }, false) else ({ l with locked := true }, true)

/-- The holder goes on record as the owner. -/
def claim (l : Lock owner waiter) (o : owner) : Lock owner waiter := { l with owner := some o }

/-- Hands the lock, still taken, to the first in the queue; without one it is free. -/
def release (l : Lock owner waiter) : Lock owner waiter × Option waiter :=
  match l.queue with
  | w :: rest => ({ l with queue := rest }, some w)
  | [] => ({ l with locked := false }, none)

/-- The owner goes and the lock is released. -/
def leave (l : Lock owner waiter) : Lock owner waiter × Option waiter := release { l with owner := none }

omit [DecidableEq owner] in
theorem request_of_free {l : Lock owner waiter} (h : l.locked = false) (w : waiter) :
    l.request w = ({ l with locked := true }, true) := if_neg (by simp [h])

omit [DecidableEq owner] in
theorem request_of_locked {l : Lock owner waiter} (h : l.locked = true) (w : waiter) :
    l.request w = ({ l with queue := l.queue ++ [w] }, false) := if_pos h

end Lock

end ScriptedText
