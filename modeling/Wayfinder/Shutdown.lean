/-
**Shutting down.**

A shutdown is triggered through any of its handles, once and for all. Whoever waits for it goes on
once it is triggered, or once no handle is left that could trigger it.
-/

namespace Wayfinder

/-- A shutdown that tasks wait for. -/
structure Shutdown where
  /-- Whether it was triggered. -/
  triggered : Bool := false
  /-- For each handle ever made, whether it is still held. -/
  held : List Bool := [true]
deriving DecidableEq, Repr, Inhabited

namespace Shutdown

/-- Triggers the shutdown. -/
def trigger (shutdown : Shutdown) : Shutdown := { shutdown with triggered := true }

/-- The number of the next handle. -/
def next (shutdown : Shutdown) : Nat := shutdown.held.length

/-- Makes one more handle. -/
def copy (shutdown : Shutdown) : Shutdown := { shutdown with held := shutdown.held ++ [true] }

/-- Lets go of a handle. -/
def release (shutdown : Shutdown) (handle : Nat) : Shutdown :=
  { shutdown with held := shutdown.held.set handle false }

/-- Whether a handle is still held. -/
def holds (shutdown : Shutdown) (handle : Nat) : Bool := shutdown.held.getD handle false

/-- Whether those who wait may go on. -/
def isOver (shutdown : Shutdown) : Bool :=
  shutdown.triggered || !shutdown.held.contains true

/-- Those who wait may go on as soon as the shutdown is triggered. -/
theorem isOver_trigger (shutdown : Shutdown) : shutdown.trigger.isOver = true := by
  simp [trigger, isOver]

/-- Letting go of a handle never holds up those who may go on. -/
theorem isOver_release {shutdown : Shutdown} (handle : Nat) (ended : shutdown.isOver = true) :
    (shutdown.release handle).isOver = true := by
  simp only [isOver, Bool.or_eq_true, Bool.not_eq_true', List.contains_eq_mem,
    decide_eq_false_iff_not] at ended ⊢
  rcases ended with triggered | none
  · exact Or.inl triggered
  · right
    intro member
    rcases List.mem_or_eq_of_mem_set member with old | false
    · exact none old
    · simp at false

end Shutdown

end Wayfinder
