import Clausal.Search.Measure

namespace Clausal.Search

/-- How a search ends: its verdict with the last state or the reason why it
    stopped, the counters, and the log. -/
structure Ending where
  result : Except (Failure StructuralError) (Verdict × State)
  stats : Statistics
  log : Log

/-- The state in front of the first decision. -/
def start (p : Problem) (numVars : Nat) (a : Assignment) (w : Watches) (fixed : Nat) : State :=
  ⟨0, a, w, Trail.blank numVars p.order.size, { fixed := fixed }⟩

/-- Goes through the rounds of the search loop until it is over. Before each
    round `poll` is asked, with the number of rounds done, whether to give up. -/
def run {m : Type → Type} [Monad m] (poll : Nat → m Bool) (p : Problem) (rounds : Nat)
    (s : State) (log : Log) : m Ending := do
  if ← poll rounds then
    let log := log.emit (.interrupted s.position p.order.size)
    return ⟨.ok (.unknown, s), s.stats, log⟩
  else
    let position := s.position
    match _hstep : step p s with
    | .error halt => return ⟨.error halt.failure, halt.stats, log.emitAll halt.events⟩
    | .ok (.finished verdict s') => return ⟨.ok (verdict, s'), s'.stats, log⟩
    | .ok (.moved move s') => run poll p (rounds + 1) s' (log.emitAll (move.events position))
termination_by remaining p s
decreasing_by exact remaining_step _hstep

end Clausal.Search
