/-!
Numbers that stand for the things an engine keeps: each kind has its own.
-/

namespace ScriptedText

structure AdapterId where
  index : Nat
  deriving DecidableEq, Repr, Inhabited

/-- A registration of an adapter: the adapter together with the lock that guards it. -/
structure RegistrationId where
  index : Nat
  deriving DecidableEq, Repr, Inhabited

structure ContextId where
  index : Nat
  deriving DecidableEq, Repr, Inhabited

structure ExecutableId where
  index : Nat
  deriving DecidableEq, Repr, Inhabited

structure DocumentId where
  index : Nat
  deriving DecidableEq, Repr, Inhabited

structure SourceId where
  index : Nat
  deriving DecidableEq, Repr, Inhabited

structure TaskId where
  index : Nat
  deriving DecidableEq, Repr, Inhabited

end ScriptedText
