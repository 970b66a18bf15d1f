import Z80Machine.Monitor

/-!
# Runs of calls

A machine is driven by calls from outside: it is asked for interrupts, steps, and is
made to enter a handler or to reset.  Statements about all reachable machines are
proved by induction on the list of calls, the last one first (`acts_concat`).
-/

namespace Z80Machine

/-- What drives a machine. -/
inductive Call where
  | requestInterrupt
  | requestNmi
  | step
  | interrupt
  | nmi
  | reset
  deriving DecidableEq

/-- The command of the monitor for a call. -/
def Call.command : Call → Command
  | .requestInterrupt => .requestInterrupt
  | .requestNmi => .requestNmi
  | .step => .step
  | .interrupt => .interrupt
  | .nmi => .nmi
  | .reset => .reset

namespace Machine

/-- The machine after a call. -/
def act (m : Machine) : Call → Machine
  | .requestInterrupt => m.requestInterrupt
  | .requestNmi => m.requestNmi
  | .step => m.step.2
  | .interrupt => m.interrupt.2
  | .nmi => m.nmi
  | .reset => m.reset

/-- The machine after some calls. -/
def acts (m : Machine) (calls : List Call) : Machine := calls.foldl act m

/-- The monitor carries out calls. -/
theorem act_eq_perform (m : Machine) (call : Call) : m.act call = (m.perform call.command).2 := by
  cases call with
  | step =>
      dsimp only [act, Call.command, perform]
      split
      · next hstep => rw [hstep]
      · next hstep => rw [hstep]
  | _ => rfl

@[simp] theorem acts_nil (m : Machine) : m.acts [] = m := rfl

@[simp] theorem acts_cons (m : Machine) (call : Call) (calls : List Call) :
    m.acts (call :: calls) = (m.act call).acts calls := rfl

theorem acts_append (m : Machine) (calls more : List Call) :
    m.acts (calls ++ more) = (m.acts calls).acts more :=
  List.foldl_append

theorem acts_concat (m : Machine) (calls : List Call) (call : Call) :
    m.acts (calls ++ [call]) = (m.acts calls).act call :=
  acts_append m calls [call]

end Machine
end Z80Machine
