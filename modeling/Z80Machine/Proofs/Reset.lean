import Z80Machine.Proofs.Past
import Z80Machine.Proofs.Requests

/-!
# A reset is like a new processor

A processor keeps the bytes of the instruction that it reads in a buffer, from which it makes the
line for the instruction, and a reset does not empty this buffer.  `Recorder` is a machine with the
buffer.  Since each step empties the buffer before it reads, what is left in it is never seen, and a
recorder does exactly what its machine does (`map_perform`).  Hence no sequence of commands can tell
a processor that has been reset from a new one with the same configuration
(`reset_like_new`).
-/

namespace Z80Machine

/-- The bytes of an instruction, as a processor keeps them. -/
structure Buffer where
  bytes : List Byte
  length_le : bytes.length ≤ 4

namespace Buffer

def empty : Buffer := ⟨[], Nat.zero_le 4⟩

/-- Adds a byte, which is lost if the buffer is full. -/
def push (b : Buffer) (byte : Byte) : Buffer :=
  if h : b.bytes.length < 4 then ⟨b.bytes ++ [byte], by simpa using Nat.succ_le_of_lt h⟩ else b

/-- Bytes for which there is room are kept in order. -/
theorem bytes_foldl_push (b : Buffer) (added : List Byte)
    (h : b.bytes.length + added.length ≤ 4) : (added.foldl push b).bytes = b.bytes ++ added := by
  induction added generalizing b with
  | nil => simp
  | cons byte added ih =>
      rw [List.length_cons] at h
      have hroom : b.bytes.length < 4 := by omega
      have hbytes : (b.push byte).bytes = b.bytes ++ [byte] := by simp [push, hroom]
      rw [List.foldl_cons, ih, hbytes, List.append_assoc, List.singleton_append]
      rw [hbytes, List.length_append, List.length_singleton]
      omega

end Buffer

/-- A machine whose processor keeps the bytes of its last instruction. -/
structure Recorder extends Machine where
  buffer : Buffer

/-- What can be seen when a command has been carried out: the reply, what the processor was left
with, and its use of the bus. -/
structure Observation where
  reply : Reply
  registers : Registers
  count : BitVec 64
  accesses : List Access

namespace Machine

variable (m : Machine)

/-- What can be seen of a command that a machine carries out. -/
def seen (command : Command) : Observation where
  reply := (m.perform command).1
  registers := (m.perform command).2.registers
  count := (m.perform command).2.count
  accesses := (m.perform command).2.bus.since m.bus

theorem seen_withPast {past past' : List Access}
    (hsent : past.filterMap Access.output? = past'.filterMap Access.output?) (command : Command) :
    (m.withPast past).seen command = (m.withPast past').seen command := by
  have hsince (past : List Access) :
      ((m.perform command).2.withPast past).bus.since (m.withPast past).bus =
        (m.perform command).2.bus.since m.bus :=
    (m.perform command).2.bus.since_withPast m.bus past
  unfold seen
  rw [snd_perform_withPast, snd_perform_withPast, hsince, hsince, fst_perform_withPast m hsent]
  rfl

end Machine

namespace Recorder

/-- Reads an encoding from memory into the buffer. -/
def fetch {α : Type} (r : Recorder) : Reader α → α × Recorder
  | .done value => (value, r)
  | .opcode next =>
      let (byte, m) := r.refresh.fetchByte
      fetch ⟨m, r.buffer.push byte⟩ (next byte)
  | .operand next =>
      let (byte, m) := r.fetchByte
      fetch ⟨m, r.buffer.push byte⟩ (next byte)
  | .peek next =>
      let (byte, m) := r.read r.registers.pc
      fetch ⟨m, r.buffer⟩ (next (some byte))

/-- The report of a step, with the line made from the buffer. -/
def report (r : Recorder) (pc : Word) : Report := r.toMachine.report pc r.buffer.bytes

/-- Repeats the fetch of a halt instruction. -/
def idle (r : Recorder) : Report × Recorder :=
  let (byte, m) := r.refresh.read r.registers.pc
  let r : Recorder := ⟨{ m with enableDelay := false }, r.buffer.push byte⟩
  (r.report r.registers.pc, r)

/-- Reads and executes one instruction.  One that is undefined stays in the buffer. -/
def advance (r : Recorder) : Except Error Report × Recorder :=
  let (instruction, fetched) := r.fetch Instruction.reader
  match instruction with
  | .undefined opcode =>
      (.error (.undefinedOpcode opcode r.registers.pc),
        ⟨fetched.setRegisters r.registers, fetched.buffer⟩)
  | instruction =>
      let m := { fetched.toMachine with enableDelay := false }.execute instruction
      let after : Recorder := ⟨{ m with count := m.count + 1 }, fetched.buffer⟩
      (.ok (after.report r.registers.pc), after)

/-- One step. -/
def step (r : Recorder) : Except Error Report × Recorder :=
  let r : Recorder := ⟨r.serve, .empty⟩
  if r.registers.halted then
    let (report, r) := r.idle
    (.ok report, r)
  else r.advance

/-- Takes steps until one fails, `limit` of them at most. -/
def steps (r : Recorder) : Nat → List Entry × Recorder
  | 0 => ([], r)
  | limit + 1 =>
      let (outcome, after) := r.step
      let entry : Entry :=
        { outcome
          registers := after.registers
          count := after.count
          accesses := after.bus.since r.bus }
      match outcome with
      | .error _ => ([entry], after)
      | .ok _ =>
          let (entries, last) := after.steps limit
          (entry :: entries, last)

/-- Takes steps until the processor is halted or a step fails, `limit` of them at most. -/
def run (r : Recorder) : Nat → List Word × RunEnd × Recorder
  | 0 => ([], .limit, r)
  | limit + 1 =>
      match r.step with
      | (.error error, after) => ([], .failed error, after)
      | (.ok report, after) =>
          if report.halted then ([report.pc], .halted, after)
          else
            let (addresses, ending, last) := after.run limit
            (report.pc :: addresses, ending, last)

/-- Carries out a command.  Only steps touch the buffer. -/
def perform (r : Recorder) : Command → Reply × Recorder
  | .step =>
      match r.step with
      | (.error error, r) => (.failed error, r)
      | (.ok report, r) => (.report report, r)
  | .steps limit =>
      let (entries, r) := r.steps limit
      (.entries entries, r)
  | .run limit =>
      let (addresses, ending, r) := r.run limit
      (.run addresses ending, r)
  | command =>
      let (reply, m) := r.toMachine.perform command
      (reply, ⟨m, r.buffer⟩)

/-- The recorder that has just been built. -/
def fresh (config : Config) (bus : Bus) : Recorder := ⟨Machine.fresh config bus, .empty⟩

/-- Puts the processor into its state after power comes on, apart from the buffer. -/
def reset (r : Recorder) : Recorder := (r.perform .reset).2

/-- What can be seen of a sequence of commands. -/
def transcript (r : Recorder) : List Command → List Observation
  | [] => []
  | command :: commands =>
      let (reply, after) := r.perform command
      { reply
        registers := after.registers
        count := after.count
        accesses := after.bus.since r.bus } :: after.transcript commands

/-! ### The buffer is not seen -/

theorem fetch_eq {α : Type} (r : Recorder) (reader : Reader α) :
    r.fetch reader =
      ((r.toMachine.fetch reader).value,
        ⟨(r.toMachine.fetch reader).machine,
          (r.toMachine.fetch reader).bytes.foldl Buffer.push r.buffer⟩) := by
  induction reader generalizing r with
  | done value => rfl
  | opcode next ih => exact ih _ ⟨r.refresh.fetchByte.2, r.buffer.push r.refresh.fetchByte.1⟩
  | operand next ih => exact ih _ ⟨r.fetchByte.2, r.buffer.push r.fetchByte.1⟩
  | peek next ih => exact ih _ ⟨(r.read r.registers.pc).2, r.buffer⟩

/-- An instruction fits into an empty buffer. -/
theorem bytes_fetch_empty (m : Machine) :
    ((m.fetch Instruction.reader).bytes.foldl Buffer.push .empty).bytes =
      (m.fetch Instruction.reader).bytes := by
  obtain ⟨-, hlength⟩ := m.length_bytes_reader
  exact Buffer.bytes_foldl_push .empty _ (by simpa [Buffer.empty] using hlength)

theorem map_advance (m : Machine) :
    Prod.map id toMachine (advance ⟨m, .empty⟩) = m.advance := by
  have hbytes := bytes_fetch_empty m
  unfold advance Machine.advance
  rw [fetch_eq]
  dsimp only
  generalize m.fetch Instruction.reader = fetched at hbytes
  rcases fetched with ⟨instruction, bytes, machine⟩
  dsimp only at hbytes ⊢
  cases instruction with
  | undefined opcode => rfl
  | _ =>
      unfold report
      dsimp only
      rw [hbytes]
      rfl

theorem map_step (r : Recorder) : Prod.map id toMachine r.step = r.toMachine.step := by
  unfold step Machine.step
  dsimp only
  split
  · rfl
  · exact map_advance r.serve

theorem fst_step (r : Recorder) : r.step.1 = r.toMachine.step.1 :=
  congrArg Prod.fst r.map_step

theorem toMachine_step (r : Recorder) : r.step.2.toMachine = r.toMachine.step.2 :=
  congrArg Prod.snd r.map_step

theorem map_steps (r : Recorder) (limit : Nat) :
    Prod.map id toMachine (r.steps limit) = r.toMachine.steps limit := by
  induction limit generalizing r with
  | zero => rfl
  | succ limit ih =>
      unfold steps Machine.steps
      dsimp only
      rw [← fst_step, ← toMachine_step, ← ih]
      cases r.step.1 <;> rfl

theorem map_run (r : Recorder) (limit : Nat) :
    Prod.map id (Prod.map id toMachine) (r.run limit) = r.toMachine.run limit := by
  induction limit generalizing r with
  | zero => rfl
  | succ limit ih =>
      unfold run Machine.run
      rw [← map_step]
      rcases r.step with ⟨error | report, after⟩
      · rfl
      · dsimp only [Prod.map, id]
        rw [← ih]
        split <;> rfl

/-- With its buffer, a processor does what it does without. -/
theorem map_perform (r : Recorder) (command : Command) :
    Prod.map id toMachine (r.perform command) = r.toMachine.perform command := by
  cases command with
  | step =>
      dsimp only [perform, Machine.perform]
      rw [← map_step]
      rcases r.step with ⟨error | report, after⟩ <;> rfl
  | steps limit =>
      exact congrArg (fun p : List Entry × Machine => (Reply.entries p.1, p.2)) (r.map_steps limit)
  | run limit =>
      exact congrArg (fun p : List Word × RunEnd × Machine => (Reply.run p.1 p.2.1, p.2.2))
        (r.map_run limit)
  | _ => rfl

theorem toMachine_perform (r : Recorder) (command : Command) :
    (r.perform command).2.toMachine = (r.toMachine.perform command).2 :=
  congrArg Prod.snd (r.map_perform command)

/-! ### Two runs -/

theorem transcript_cons (r : Recorder) (command : Command) (commands : List Command) :
    r.transcript (command :: commands) =
      r.toMachine.seen command :: (r.perform command).2.transcript commands := by
  unfold Machine.seen
  rw [← map_perform]
  rfl

/-- Two recorders whose machines differ in the pasts of their buses have the same transcripts, if
the same has been sent in both pasts. -/
theorem transcript_congr {r r' : Recorder} {m : Machine} {past past' : List Access}
    (h : r.toMachine = m.withPast past) (h' : r'.toMachine = m.withPast past')
    (hsent : past.filterMap Access.output? = past'.filterMap Access.output?)
    (commands : List Command) : r.transcript commands = r'.transcript commands := by
  induction commands generalizing r r' m with
  | nil => rfl
  | cons command commands ih =>
      have hafter : (r.perform command).2.toMachine = (m.perform command).2.withPast past := by
        rw [toMachine_perform, h, Machine.snd_perform_withPast]
      have hafter' : (r'.perform command).2.toMachine = (m.perform command).2.withPast past' := by
        rw [toMachine_perform, h', Machine.snd_perform_withPast]
      rw [transcript_cons, transcript_cons, h, h', Machine.seen_withPast m hsent, ih hafter hafter']

/-- After a reset a processor in any state answers every sequence of commands on a bus as a new
processor with its configuration does on an equal bus: with the same replies, lines and errors
included, the same registers and counts, and the same use of the bus.  Buses are equal here if they
hold the same and the same has been sent; what else they were used for before may differ. -/
theorem reset_like_new (r : Recorder) (bus : Bus)
    (hbus : bus = { r.bus with history := bus.history }) (hsent : bus.sent = r.bus.sent)
    (commands : List Command) :
    r.reset.transcript commands = (fresh r.config bus).transcript commands := by
  have hreset : r.reset.toMachine =
      (Machine.fresh r.config { r.bus with history := [] }).withPast r.bus.history :=
    r.toMachine.reset_eq
  have hfresh : (fresh r.config bus).toMachine =
      (Machine.fresh r.config { r.bus with history := [] }).withPast bus.history :=
    congrArg (Machine.fresh r.config) hbus
  exact transcript_congr hreset hfresh (List.reverse_injective hsent).symm commands

/-- A recorder that has stopped at an undefined opcode, with a request made. -/
def stoppedExample : Recorder :=
  (((fresh { trace := true } { ram := Store.load (.fill 0 16) 0 [0xED, 0x77] }).perform
    .step).2.perform .requestInterrupt).2

theorem stopped_like_new :
    stoppedExample.reset.buffer.bytes = [0xED, 0x77] ∧ stoppedExample.bus.history ≠ [] ∧
      stoppedExample.reset.transcript [.step, .queryAll, .reset, .step] =
        (fresh { trace := true } { ram := Store.load (.fill 0 16) 0 [0xED, 0x77] }).transcript
          [.step, .queryAll, .reset, .step] :=
  ⟨by decide, by decide, reset_like_new stoppedExample _ rfl rfl _⟩

end Recorder
end Z80Machine
