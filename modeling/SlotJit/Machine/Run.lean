import SlotJit.Machine.Step

/-!
# Runs

A run goes on until the instruction pointer reaches the address where the caller waits, or until a
fault. The number of steps is bounded by a budget.
-/

namespace SlotJit.Machine

/-- The address where the caller of compiled code waits. -/
def callerAddress : Word := 0x500000000000

/-- More steps than any run can take in practice. -/
def ampleBudget : Nat := 0x4000000000000000

/-- How a run ends. -/
inductive Outcome where
  /-- The caller's address was reached. -/
  | finished (s : State)
  | trapped (signal : Signal) (s : State)
  /-- The budget did not suffice. -/
  | exhausted (s : State)

/-- Run for at most the given number of steps. -/
def run (hosts : Hosts) (code : CodeMap) : Nat → State → Outcome
  | 0, s => .exhausted s
  | budget + 1, s =>
    if s.rip = callerAddress then .finished s
    else
      match step hosts code s with
      | .next s => run hosts code budget s
      | .trap signal s => .trapped signal s

end SlotJit.Machine
