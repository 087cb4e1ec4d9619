import Clausal.Fault

namespace Clausal.Solver

/-- What tells a search to give up: a flag that others may raise, and an instant,
    counted in nanoseconds. -/
structure Alarm (m : Type → Type) where
  flag : Option (m Bool)
  deadline : Option Nat

namespace Alarm

/-- The first instant that the clock cannot show. Its seconds are signed and 64 bits
    wide. -/
def clockEnd : Nat := 9223372036854775808000000000

variable {m : Type → Type}

/-- The alarm that never rings. -/
def silent : Alarm m := ⟨none, none⟩

/-- Adds a deadline that lies a number of nanoseconds behind an instant. -/
def dueAfter (alarm : Alarm m) (instant budget : Nat) : Except Fault (Alarm m) :=
  if clockEnd ≤ instant + budget then .error .overflow
  else .ok { alarm with deadline := some (instant + budget) }

variable [Monad m]

/-- Adds a deadline that lies a number of nanoseconds ahead. For 0 there is none, and
    the clock is not read. -/
def withTimeout (now : m Nat) (budget : Nat) (alarm : Alarm m) : m (Except Fault (Alarm m)) := do
  if budget = 0 then return .ok alarm
  return alarm.dueAfter (← now) budget

/-- Whether the flag is up. -/
def isRaised (alarm : Alarm m) : m Bool :=
  match alarm.flag with
  | none => return false
  | some raised => raised

/-- Whether the deadline has come. The clock is read only if there is one. -/
def isDue (now : m Nat) (alarm : Alarm m) : m Bool :=
  match alarm.deadline with
  | none => return false
  | some deadline => return decide (deadline ≤ (← now))

/-- Whether the search is to give up. -/
def rings (now : m Nat) (alarm : Alarm m) : m Bool := do
  if ← alarm.isRaised then return true
  alarm.isDue now

end Alarm

end Clausal.Solver
