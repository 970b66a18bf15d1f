import Z80Machine.Monitor

/-!
# The past of a bus

What a bus was used for before has no effect on a machine.  With more accesses at the old end of
its history (`withPast`) every operation gives the same value and leaves the same machine, up to
those accesses, and so does every command of the monitor (`perform_withPast`).  The one command
that looks at the past is the one that lists what has been sent.
-/

namespace Z80Machine

namespace Bus

variable (b earlier : Bus) (past : List Access)

/-- The bus with other accesses before all those in its history. -/
def withPast : Bus := { b with history := b.history ++ past }

theorem acknowledge_withPast :
    (b.withPast past).acknowledge = (b.acknowledge.1, b.acknowledge.2.withPast past) := by
  have hdataBus : (b.withPast past).dataBus = b.dataBus := rfl
  unfold acknowledge
  rw [hdataBus]
  cases b.dataBus <;> rfl

theorem setDataBus_withPast (value : Byte) :
    (b.withPast past).setDataBus value = (b.setDataBus value).withPast past := by
  have hdataBus : (b.withPast past).dataBus = b.dataBus := rfl
  unfold setDataBus
  rw [hdataBus]
  cases b.dataBus <;> rfl

/-- What is beyond an earlier bus does not reach into the past of both. -/
theorem since_withPast : (b.withPast past).since (earlier.withPast past) = b.since earlier := by
  have hcount : (b.history ++ past).length - (earlier.history ++ past).length =
      b.history.length - earlier.history.length := by
    rw [List.length_append, List.length_append]
    omega
  unfold since withPast
  rw [hcount, List.take_append_of_le_length (Nat.sub_le _ _)]

theorem sent_withPast :
    (b.withPast past).sent = (past.filterMap Access.output?).reverse ++ b.sent := by
  unfold sent withPast
  rw [List.filterMap_append, List.reverse_append]

end Bus

namespace Machine

variable (m : Machine) (past : List Access)

/-- The machine with other accesses before all those in the history of its bus. -/
def withPast : Machine := { m with bus := m.bus.withPast past }

/-! ### Operands -/

theorem take_withPast (p : Place) :
    (m.withPast past).take p = ((m.take p).1, (m.take p).2.withPast past) := by
  cases p with
  | register name => rfl
  | memory a => cases a <;> rfl

theorem put_withPast (p : Place) (value : Byte) :
    (m.withPast past).put p value = (m.put p value).withPast past := by
  cases p with
  | register name => rfl
  | memory a => cases a <;> rfl

theorem putBoth_withPast (p : Place) (copy : Option Reg8) (value : Byte) :
    (m.withPast past).putBoth p copy value = (m.putBoth p copy value).withPast past := by
  cases copy with
  | none => exact put_withPast m past p value
  | some name => exact congrArg (setRegister · name value) (put_withPast m past p value)

theorem takeSource_withPast (s : Source) :
    (m.withPast past).takeSource s = ((m.takeSource s).1, (m.takeSource s).2.withPast past) := by
  cases s with
  | place p => exact take_withPast m past p
  | immediate value => rfl

theorem takeWord_withPast (s : WordSource) :
    (m.withPast past).takeWord s = ((m.takeWord s).1, (m.takeWord s).2.withPast past) := by
  cases s <;> rfl

/-! ### Transfer of control -/

theorem jumpIf_withPast (cond : Option Condition) (address : Word) :
    (m.withPast past).jumpIf cond address = (m.jumpIf cond address).withPast past :=
  (apply_ite (withPast · past) (m.meets cond = true) (m.jump address) m).symm

theorem jumpRelativeIf_withPast (cond : Option Condition) (d : Byte) :
    (m.withPast past).jumpRelativeIf cond d = (m.jumpRelativeIf cond d).withPast past :=
  (apply_ite (withPast · past) (m.meets cond = true) (m.jumpRelative d) m).symm

theorem callIf_withPast (cond : Option Condition) (address : Word) :
    (m.withPast past).callIf cond address = (m.callIf cond address).withPast past :=
  (apply_ite (withPast · past) (m.meets cond = true) (m.call address) m).symm

theorem retIf_withPast (cond : Option Condition) :
    (m.withPast past).retIf cond = (m.retIf cond).withPast past :=
  (apply_ite (withPast · past) (m.meets cond = true) m.ret m).symm

theorem countDown_withPast (d : Byte) :
    (m.withPast past).countDown d = ((m.countDown d).1, (m.countDown d).2.withPast past) := by
  unfold countDown
  dsimp only
  show (if m.registers.b - 1 == 0 then _ else _) = _
  split <;> rfl

/-! ### Instructions -/

theorem block_withPast (op : BlockOperation) (dir : Direction) (repeats : Bool) :
    (m.withPast past).block op dir repeats = (m.block op dir repeats).withPast past := by
  symm
  cases op <;> exact apply_ite (withPast · past) _ _ _

theorem execute_withPast (i : Instruction) :
    (m.withPast past).execute i = (m.execute i).withPast past := by
  cases i with
  | ld target source =>
      simp only [execute, takeSource_withPast]
      exact put_withPast _ past target _
  | ldWord target source =>
      simp only [execute, takeWord_withPast]
      rfl
  | storeControl target => cases target <;> rfl
  | loadControl source => cases source <;> rfl
  | operate op source =>
      simp only [execute, takeSource_withPast]
      rfl
  | inc target | dec target =>
      simp only [execute, take_withPast]
      exact congrArg (setFlags · _) (put_withPast _ past target _)
  | shift op target copy =>
      simp only [execute, take_withPast]
      exact congrArg (setFlags · _) (putBoth_withPast _ past target copy _)
  | bit n target =>
      cases target with
      | register name => rfl
      | memory a => cases a <;> rfl
  | res n target copy | set n target copy =>
      simp only [execute, take_withPast]
      exact putBoth_withPast _ past target copy _
  | jp cond address => exact jumpIf_withPast m past cond address
  | jr cond d => exact jumpRelativeIf_withPast m past cond d
  | djnz d => exact congrArg Prod.snd (countDown_withPast m past d)
  | call cond address => exact callIf_withPast m past cond address
  | ret cond => exact retIf_withPast m past cond
  | inC target => cases target <;> rfl
  | outC source => cases source <;> rfl
  | block op dir repeats => exact block_withPast m past op dir repeats
  | _ => rfl

theorem fetch_withPast {α : Type} (r : Reader α) :
    (m.withPast past).fetch r =
      { m.fetch r with machine := (m.fetch r).machine.withPast past } := by
  induction r generalizing m with
  | done value => rfl
  | opcode next ih =>
      have hrest := ih (m.bus.ram.get m.registers.pc) m.refresh.fetchByte.2
      exact congrArg
        (fun f : Fetched α => { f with bytes := m.bus.ram.get m.registers.pc :: f.bytes }) hrest
  | operand next ih =>
      have hrest := ih (m.bus.ram.get m.registers.pc) m.fetchByte.2
      exact congrArg
        (fun f : Fetched α => { f with bytes := m.bus.ram.get m.registers.pc :: f.bytes }) hrest
  | peek next ih => exact ih (some (m.bus.ram.get m.registers.pc)) (m.read m.registers.pc).2

/-! ### Interrupts -/

theorem leaveHalt_withPast : (m.withPast past).leaveHalt = m.leaveHalt.withPast past := by
  symm
  exact apply_ite (withPast · past) _ _ _

theorem handler_withPast :
    (m.withPast past).handler = (m.handler.1, m.handler.2.withPast past) := by
  unfold handler
  show (if m.registers.im == 2 then _ else _) = _
  split
  · rw [show (m.withPast past).bus.acknowledge = _ from m.bus.acknowledge_withPast past]
    rfl
  · rfl

theorem interrupt_withPast :
    (m.withPast past).interrupt = (m.interrupt.1, m.interrupt.2.withPast past) := by
  unfold interrupt
  show (if m.registers.iff1 = true then _ else _) = _
  split
  · rw [leaveHalt_withPast]
    -- what the handler does is the only step that is not plain computation
    have hhandler := handler_withPast
      ({ m.leaveHalt with registers.iff1 := false, registers.iff2 := false }.refresh.push
        m.leaveHalt.registers.pc) past
    exact congrArg (fun p : Word × Machine => (true, p.2.jump p.1)) hhandler
  · rfl

theorem nmi_withPast : (m.withPast past).nmi = m.nmi.withPast past := by
  unfold nmi
  rw [leaveHalt_withPast]
  rfl

theorem serve_withPast : (m.withPast past).serve = m.serve.withPast past := by
  have hdue : (m.withPast past).due = m.due := rfl
  unfold serve
  rw [hdue]
  cases m.due with
  | none => rfl
  | some request =>
      cases request with
      | nonMaskable => exact nmi_withPast { m with nmiPending := false } past
      | maskable =>
          exact congrArg Prod.snd (interrupt_withPast { m with interruptPending := false } past)

/-! ### Steps -/

theorem advance_withPast :
    (m.withPast past).advance = (m.advance.1, m.advance.2.withPast past) := by
  unfold advance
  rw [fetch_withPast]
  generalize m.fetch Instruction.reader = fetched
  dsimp only
  split
  · rfl
  · have hexecute := execute_withPast { fetched.machine with enableDelay := false } past
      fetched.value
    exact congrArg (fun after : Machine =>
      (Except.ok (after.report m.registers.pc fetched.bytes),
        { after with count := after.count + 1 })) hexecute

theorem step_withPast : (m.withPast past).step = (m.step.1, m.step.2.withPast past) := by
  unfold step
  rw [serve_withPast]
  dsimp only
  show (if m.serve.registers.halted = true then _ else _) = _
  split
  · rfl
  · exact advance_withPast m.serve past

theorem steps_withPast (limit : Nat) :
    (m.withPast past).steps limit = ((m.steps limit).1, (m.steps limit).2.withPast past) := by
  induction limit generalizing m with
  | zero => rfl
  | succ limit ih =>
      unfold steps
      rw [step_withPast]
      dsimp only
      rw [show (m.step.2.withPast past).bus.since (m.withPast past).bus = _ from
        m.step.2.bus.since_withPast m.bus past]
      cases m.step.1 with
      | error error => rfl
      | ok report =>
          dsimp only
          rw [ih]
          rfl

theorem run_withPast (limit : Nat) :
    (m.withPast past).run limit =
      ((m.run limit).1, (m.run limit).2.1, (m.run limit).2.2.withPast past) := by
  induction limit generalizing m with
  | zero => rfl
  | succ limit ih =>
      unfold run
      rw [step_withPast]
      rcases m.step with ⟨error | report, after⟩
      · rfl
      · dsimp only
        split
        · rfl
        · rw [ih]

/-! ### Commands -/

theorem performIf_withPast (code : Byte) (action : Option Condition → Machine)
    {action' : Option Condition → Machine}
    (haction : ∀ cond, action' cond = (action cond).withPast past) :
    (m.withPast past).performIf code action' =
      ((m.performIf code action).1, (m.performIf code action).2.withPast past) := by
  unfold performIf
  cases Condition.ofByte? code with
  | error error => rfl
  | ok cond =>
      dsimp only
      rw [haction]
      rfl

/-- Commands other than the one that lists what has been sent do not look at the past. -/
theorem perform_withPast {command : Command} (hsent : command ≠ .sent) :
    (m.withPast past).perform command =
      ((m.perform command).1, (m.perform command).2.withPast past) := by
  cases command with
  | sent => contradiction
  | setDataBus value =>
      exact congrArg (fun bus => (Reply.done, { m with bus }))
        (m.bus.setDataBus_withPast past value)
  | acknowledge =>
      exact congrArg (fun p : Byte × Bus => (Reply.byte p.1, { m with bus := p.2 }))
        (m.bus.acknowledge_withPast past)
  | setInterruptMode mode =>
      have hregisters : (m.withPast past).registers = m.registers := rfl
      dsimp only [perform]
      rw [hregisters]
      cases m.registers.setInterruptMode mode <;> rfl
  | step =>
      dsimp only [perform]
      rw [step_withPast]
      rcases m.step with ⟨error | report, after⟩ <;> rfl
  | steps limit =>
      dsimp only [perform]
      rw [steps_withPast]
  | run limit =>
      dsimp only [perform]
      rw [run_withPast]
  | interrupt =>
      dsimp only [perform]
      rw [interrupt_withPast]
  | nmi => exact congrArg (Prod.mk Reply.done) (nmi_withPast m past)
  | condition code => exact performIf_withPast m past code (fun _ => m) fun _ => rfl
  | jumpIf code address =>
      exact performIf_withPast m past code _ fun cond => jumpIf_withPast m past cond address
  | jumpRelativeIf code d =>
      exact performIf_withPast m past code _ fun cond => jumpRelativeIf_withPast m past cond d
  | countDown d =>
      dsimp only [perform]
      rw [countDown_withPast]
  | callIf code address =>
      exact performIf_withPast m past code _ fun cond => callIf_withPast m past cond address
  | retIf code => exact performIf_withPast m past code _ fun cond => retIf_withPast m past cond
  | _ => rfl

theorem snd_perform_withPast (command : Command) :
    ((m.withPast past).perform command).2 = (m.perform command).2.withPast past := by
  by_cases hlists : command = .sent
  · rw [hlists]
    rfl
  · rw [m.perform_withPast past hlists]

/-- Pasts in which the same has been sent are not told apart. -/
theorem fst_perform_withPast {past past' : List Access}
    (hsent : past.filterMap Access.output? = past'.filterMap Access.output?) (command : Command) :
    ((m.withPast past).perform command).1 = ((m.withPast past').perform command).1 := by
  by_cases hlists : command = .sent
  · rw [hlists]
    show Reply.sent (m.bus.withPast past).sent = Reply.sent (m.bus.withPast past').sent
    rw [Bus.sent_withPast, Bus.sent_withPast, hsent]
  · rw [m.perform_withPast past hlists, m.perform_withPast past' hlists]

end Machine
end Z80Machine
