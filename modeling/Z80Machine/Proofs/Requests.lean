import Mathlib.Data.List.Basic
import Z80Machine.Proofs.Calls
import Z80Machine.Proofs.Entry
import Z80Machine.Proofs.Failure

/-!
# Requests and the history of calls

The processor keeps three latches: one for each kind of request, and the delay after
`EI`.  Seen from outside there is only the history of calls.  Each latch is set exactly
if the history is `Open` for it: it has a call that sets the latch and no later call
that clears it (`latch_iff_open`).
-/

namespace Z80Machine
namespace Machine

/-- The machine that has just been built. -/
def fresh (config : Config) (bus : Bus) : Machine := { toCpu := Cpu.powerOn config, bus }

/-- The machine that has been driven by some calls since it was built. -/
def driven (config : Config) (bus : Bus) (calls : List Call) : Machine :=
  (fresh config bus).acts calls

/-- Some call of a run sets, and none after it clears.  Whether a call does so depends on the
machine that it finds. -/
def Open (start : Machine) (sets clears : Machine → Call → Prop) (calls : List Call) : Prop :=
  ∃ before call after, calls = before ++ call :: after ∧ sets (start.acts before) call ∧
    ∀ early later late, after = early ++ later :: late →
      ¬clears (start.acts (before ++ call :: early)) later

section Open

variable {start : Machine} {sets clears : Machine → Call → Prop}

theorem not_open_nil : ¬start.Open sets clears [] := by
  rintro ⟨before, call, after, hsplit, -⟩
  simp at hsplit

/-- What the last call does to the history. -/
theorem open_concat (calls : List Call) (call : Call) :
    start.Open sets clears (calls ++ [call]) ↔
      sets (start.acts calls) call ∨
        (start.Open sets clears calls ∧ ¬clears (start.acts calls) call) := by
  constructor
  · rintro ⟨before, setter, after, hsplit, hsets, hclears⟩
    -- the call that sets is the last one, or it stands further back
    cases after using List.reverseRecOn with
    | nil =>
        obtain ⟨rfl, hcall⟩ := List.append_inj' hsplit rfl
        obtain rfl : call = setter := by simpa using hcall
        exact .inl hsets
    | append_singleton after last =>
        have hsplit' : calls ++ [call] = (before ++ setter :: after) ++ [last] := by
          rw [hsplit, List.append_assoc, List.cons_append]
        obtain ⟨rfl, hcall⟩ := List.append_inj' hsplit' rfl
        obtain rfl : call = last := by simpa using hcall
        refine .inr ⟨⟨before, setter, after, rfl, hsets, fun early later late heq => ?_⟩, ?_⟩
        · exact hclears early later (late ++ [call]) (by simp [heq])
        · exact hclears after call [] rfl
  · rintro (hsets | ⟨⟨before, setter, after, rfl, hsets, hclears⟩, hlast⟩)
    · exact ⟨calls, call, [], rfl, hsets, fun early later late heq => by simp at heq⟩
    · refine ⟨before, setter, after ++ [call], by simp, hsets, fun early later late heq => ?_⟩
      -- a call that clears is not the last one, and was none of the others
      cases late using List.reverseRecOn with
      | nil =>
          obtain ⟨rfl, hcall⟩ := List.append_inj' heq rfl
          obtain rfl : call = later := by simpa using hcall
          exact hlast
      | append_singleton late last =>
          have heq' : after ++ [call] = (early ++ later :: late) ++ [last] := by
            rw [heq, List.append_assoc, List.cons_append]
          obtain ⟨rfl, -⟩ := List.append_inj' heq' rfl
          exact hclears early later late rfl

/-- A latch that every call sets or clears as told shows whether the history is open. -/
theorem latch_iff_open (latch : Machine → Bool) (hstart : latch start = false)
    (hact : ∀ m call, latch (m.act call) = true ↔
      sets m call ∨ (latch m = true ∧ ¬clears m call)) (calls : List Call) :
    latch (start.acts calls) = true ↔ start.Open sets clears calls := by
  induction calls using List.reverseRecOn with
  | nil =>
      rw [acts_nil, hstart]
      exact iff_of_false Bool.noConfusion not_open_nil
  | append_singleton calls call ih => rw [acts_concat, hact, ih, open_concat]

end Open

/-! ### The three latches -/

/-- The call that makes a request. -/
def Request.call : Request → Call
  | .nonMaskable => .requestNmi
  | .maskable => .requestInterrupt

/-- Whether a request of a kind is latched. -/
def pending (request : Request) (m : Machine) : Bool :=
  match request with
  | .nonMaskable => m.nmiPending
  | .maskable => m.interruptPending

/-- A call that uses up or drops a request: a reset, or the step whose turn it is to serve it. -/
def Settles (request : Request) (m : Machine) (call : Call) : Prop :=
  call = .reset ∨ (call = .step ∧ m.due = some request)

/-- A request has been made since construction, the last reset and the last step that took
one of its kind up. -/
def Awaits (start : Machine) (request : Request) (calls : List Call) : Prop :=
  start.Open (fun _ call => call = Request.call request) (Settles request) calls

/-- The last step to succeed since construction and the last reset enabled interrupts. -/
def JustEnabled (start : Machine) (calls : List Call) : Prop :=
  start.Open (fun m call => call = .step ∧ m.ExecutesEi)
    (fun m call => call = .reset ∨ (call = .step ∧ m.Succeeds)) calls

theorem pending_of_cpu {m m' : Machine} (request : Request)
    (h : m'.toCpu = { m.toCpu with registers := m'.registers }) :
    pending request m' = pending request m := by
  cases request with
  | nonMaskable =>
      show m'.nmiPending = m.nmiPending
      rw [h]
  | maskable =>
      show m'.interruptPending = m.interruptPending
      rw [h]

theorem pending_step (request : Request) (m : Machine) :
    pending request m.step.2 = (pending request m && decide (m.due ≠ some request)) := by
  cases request with
  | nonMaskable =>
      show m.step.2.nmiPending = (m.nmiPending && decide (m.due ≠ some .nonMaskable))
      rw [cpu_step, cpu_serve]
  | maskable =>
      show m.step.2.interruptPending = (m.interruptPending && decide (m.due ≠ some .maskable))
      rw [cpu_step, cpu_serve]

/-- What a call does to the latch of a request. -/
theorem pending_act (request : Request) (m : Machine) (call : Call) :
    pending request (m.act call) = true ↔
      call = Request.call request ∨ (pending request m = true ∧ ¬Settles request m call) := by
  unfold Settles
  cases call with
  | requestInterrupt | requestNmi => cases request <;> simp [act, Request.call, pending,
      requestInterrupt, requestNmi]
  | step =>
      have hne : Call.step ≠ Request.call request := by cases request <;> exact Call.noConfusion
      show pending request m.step.2 = true ↔ _
      rw [pending_step]
      simp [hne]
  | interrupt =>
      have hne : Call.interrupt ≠ Request.call request := by
        cases request <;> exact Call.noConfusion
      show pending request m.interrupt.2 = true ↔ _
      rw [pending_of_cpu request (extends_interrupt m).cpu]
      simp [hne]
  | nmi =>
      have hne : Call.nmi ≠ Request.call request := by cases request <;> exact Call.noConfusion
      show pending request m.nmi = true ↔ _
      rw [pending_of_cpu request (extends_nmi m).cpu]
      simp [hne]
  | reset => cases request <;> simp [act, Request.call, pending, reset]

/-- What a call does to the delay after `EI`. -/
theorem enableDelay_act (m : Machine) (call : Call) :
    (m.act call).enableDelay = true ↔
      (call = .step ∧ m.ExecutesEi) ∨
        (m.enableDelay = true ∧ ¬(call = .reset ∨ (call = .step ∧ m.Succeeds))) := by
  cases call with
  | requestInterrupt | requestNmi => simp [act, requestInterrupt, requestNmi]
  | step =>
      show m.step.2.enableDelay = true ↔ _
      rw [enableDelay_step]
      simp
  | interrupt =>
      show m.interrupt.2.enableDelay = true ↔ _
      rw [(extends_interrupt m).cpu]
      simp
  | nmi =>
      show m.nmi.enableDelay = true ↔ _
      rw [(extends_nmi m).cpu]
      simp
  | reset => simp [act, reset]

variable (config : Config) (bus : Bus) (calls : List Call)

theorem pending_iff_awaits (request : Request) :
    pending request (driven config bus calls) = true ↔
      (fresh config bus).Awaits request calls := by
  refine latch_iff_open (pending request) ?_ (pending_act request) calls
  cases request <;> rfl

theorem enableDelay_iff_justEnabled :
    (driven config bus calls).enableDelay = true ↔ (fresh config bus).JustEnabled calls :=
  latch_iff_open (fun m => m.enableDelay) rfl enableDelay_act calls

/-! ### Whose turn it is -/

theorem due_eq_nonMaskable_iff (m : Machine) :
    m.due = some .nonMaskable ↔ pending .nonMaskable m = true := by
  unfold Cpu.due pending
  cases m.nmiPending <;> simp

theorem due_eq_maskable_iff (m : Machine) :
    m.due = some .maskable ↔
      ¬pending .nonMaskable m = true ∧ pending .maskable m = true ∧ ¬m.enableDelay = true := by
  unfold Cpu.due pending
  cases m.nmiPending <;> simp

/-- A request that is taken up is not awaited any more. -/
theorem not_awaits_of_due {request : Request} {start : Machine}
    (hdue : (start.acts calls).due = some request) :
    ¬start.Awaits request (calls ++ [.step]) := by
  unfold Awaits
  rw [open_concat]
  rintro (hcall | ⟨-, hclears⟩)
  · cases request <;> exact Call.noConfusion hcall
  · exact hclears (.inr ⟨rfl, hdue⟩)

/-- A request whose turn it is not is still awaited after the step. -/
theorem awaits_of_not_due {request : Request} {start : Machine}
    (hawaits : start.Awaits request calls) (hdue : (start.acts calls).due ≠ some request) :
    start.Awaits request (calls ++ [.step]) := by
  unfold Awaits
  rw [open_concat]
  refine .inr ⟨hawaits, ?_⟩
  rintro (hreset | ⟨-, hturn⟩)
  · exact Call.noConfusion hreset
  · exact hdue hturn

/-- A step that fails is no step for the delay after `EI`. -/
theorem justEnabled_of_error {start : Machine} {error : Error}
    (herror : (start.acts calls).step.1 = .error error) :
    start.JustEnabled (calls ++ [.step]) ↔ start.JustEnabled calls := by
  have hfails : ¬(start.acts calls).Succeeds := by
    rintro ⟨report, hok⟩
    rw [herror] at hok
    contradiction
  have hnotEi : ¬(start.acts calls).ExecutesEi := by
    rintro ⟨-, hei⟩
    exact not_atEi_of_atHole (step_error_cases herror).2.1 hei
  unfold JustEnabled
  rw [open_concat]
  simp [hfails, hnotEi]

/-- Which request a step serves is told by the history of calls alone.  It is a non-maskable
one if and only if one is awaited, and otherwise a maskable one if and only if one is awaited
and interrupts have not just been enabled.  The step enters the handler, or discards a maskable
request if interrupts are disabled, and goes on from there.  A request is served once, however
often it was made before, a request that is not served stays, and a step that fails leaves the
delay alone. -/
theorem serves_iff_awaits (config : Config) (bus : Bus) (calls : List Call) :
    ((driven config bus calls).due = some .nonMaskable ↔
      (fresh config bus).Awaits .nonMaskable calls) ∧
    ((driven config bus calls).due = some .maskable ↔
      ¬(fresh config bus).Awaits .nonMaskable calls ∧ (fresh config bus).Awaits .maskable calls ∧
        ¬(fresh config bus).JustEnabled calls) ∧
    ((driven config bus calls).due = some .nonMaskable →
      (driven config bus calls).EntersHandler (driven config bus calls).serve 0x0066
        (driven config bus calls).registers.iff2) ∧
    ((driven config bus calls).due = some .maskable →
      (driven config bus calls).registers.iff1 = true →
      (driven config bus calls).EntersHandler (driven config bus calls).serve
        ((driven config bus calls).handlerIn (driven config bus calls).returnPushed) false) ∧
    ((driven config bus calls).due = some .maskable →
      (driven config bus calls).registers.iff1 = false →
      (driven config bus calls).serve =
        { driven config bus calls with interruptPending := false }) ∧
    ((driven config bus calls).due = none →
      (driven config bus calls).serve = driven config bus calls) ∧
    ((driven config bus calls).step =
      if (driven config bus calls).serve.registers.halted then
        (.ok (driven config bus calls).serve.idle.1, (driven config bus calls).serve.idle.2)
      else (driven config bus calls).serve.advance) ∧
    (∀ request, (driven config bus calls).due = some request →
      ¬(fresh config bus).Awaits request (calls ++ [.step])) ∧
    (∀ request, (fresh config bus).Awaits request calls →
      (driven config bus calls).due ≠ some request →
      (fresh config bus).Awaits request (calls ++ [.step])) ∧
    (∀ error, (driven config bus calls).step.1 = .error error →
      ((fresh config bus).JustEnabled (calls ++ [.step]) ↔
        (fresh config bus).JustEnabled calls)) := by
  refine ⟨?_, ?_, fun hdue => ?_, fun hdue hiff1 => ?_, fun hdue hiff1 => ?_, serve_of_none,
    step_eq_of_serve _, fun request => not_awaits_of_due calls,
    fun request => awaits_of_not_due calls, fun error => justEnabled_of_error calls⟩
  · rw [due_eq_nonMaskable_iff, pending_iff_awaits]
  · rw [due_eq_maskable_iff, pending_iff_awaits, pending_iff_awaits, enableDelay_iff_justEnabled]
  · rw [serve_of_nonMaskable hdue]
    have hentry := entersHandler_nmi { driven config bus calls with nmiPending := false }
    exact ⟨hentry.registers, hentry.ram⟩
  · rw [serve_of_maskable hdue]
    have hentry := entersHandler_interrupt
      (m := { driven config bus calls with interruptPending := false }) hiff1
    exact ⟨hentry.registers, hentry.ram⟩
  · rw [serve_of_maskable hdue]
    have hsame := interrupt_of_disabled
      (m := { driven config bus calls with interruptPending := false }) hiff1
    rw [hsame]

/-- A request made right after `EI` waits for one more instruction. -/
example (config : Config) :
    let bus : Bus := { ram := Store.load (.fill 0 16) 0 [0xFB, 0x00] }
    (driven config bus [.step, .requestInterrupt]).due = none ∧
      (driven config bus [.step, .requestInterrupt, .step]).due = some .maskable := by
  rcases config with ⟨_ | _, _ | _⟩ <;> decide

end Machine
end Z80Machine
