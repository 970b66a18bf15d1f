import Z80Machine.Machine.Execution
import Z80Machine.Machine.Fetch
import Z80Machine.Proofs.Renaming

/-!
# Machines with their pointer registers permuted

One machine `Mirrors` another if it holds in its pointer registers what the other holds in
theirs, moved by a permutation, and both have used the bus in the same way from some point on.
It goes on to mirror it when the one executes an instruction and the other the same
instruction with its registers renamed (`Mirrors.execute`), and when the one reads an encoding
and the other its renaming (`Mirrors.fetch`).  Where the permutation moves HL the instruction
must not be tied to HL or to an index register.
-/

namespace Z80Machine

/-- Whether an address is at a distance from an index register. -/
def Address.isIndexed : Address → Bool
  | .indexed .. => true
  | _ => false

/-- Whether a place is at a distance from an index register. -/
def Place.isIndexed : Place → Bool
  | .register _ => false
  | .memory a => a.isIndexed

/-- Whether a source is at a distance from an index register. -/
def Source.isIndexed : Source → Bool
  | .place p => p.isIndexed
  | .immediate _ => false

/-- Whether an instruction is tied to a pointer register: to HL because it works on HL without
naming it, or to an index register by a distance. -/
def Instruction.tied : Instruction → Bool
  | .ld target source => target.isIndexed || source.isIndexed
  | .operate _ source => source.isIndexed
  | .inc target | .dec target | .bit _ target | .shift _ target _ | .res _ target _
  | .set _ target _ => target.isIndexed
  | .exx | .exDeHl | .adcWord _ | .sbcWord _ | .rld | .rrd | .block .. => true
  | _ => false

namespace Machine

/-- The second machine is the first with its pointer registers permuted, except for the
histories, which have grown in the same way from `start` and `start'`. -/
structure Mirrors (π : Equiv.Perm Pointer) (start start' : List Access) (m m' : Machine) :
    Prop where
  registers : m'.registers = m.registers.rearrange π
  cpu : m'.toCpu = { m.toCpu with registers := m'.registers }
  bus : m'.bus = { m.bus with history := m'.bus.history }
  history : ∃ added, m.bus.history = added ++ start ∧ m'.bus.history = added ++ start'

variable {π : Equiv.Perm Pointer} {start start' : List Access} {m m' : Machine}

namespace Mirrors

variable (h : Mirrors π start start' m m')

include h

/-! ### Equal values -/

/-- What does not depend on the pointer registers is the same in both machines. -/
theorem same {α : Type} (g : Registers → α) (hg : ∀ s p, g (s.withPointers p) = g s) :
    g m'.registers = g m.registers := by
  rw [h.registers]
  exact hg _ _

theorem readPair (name : Reg16) :
    m'.registers.readPair (name.rename π) = m.registers.readPair name := by
  rw [h.registers]
  exact m.registers.readPair_rearrange π name

theorem read8 (name : Reg8) : m'.registers.read8 (name.rename π) = m.registers.read8 name := by
  rw [h.registers]
  exact m.registers.read8_rearrange π name

theorem bank (hhl : π .hl = .hl) : m'.registers.toBank = m.registers.toBank := by
  rw [h.registers, m.registers.rearrange_of_hl hhl]

theorem a : m'.registers.a = m.registers.a := h.same (·.a) fun _ _ => rfl

theorem f : m'.registers.f = m.registers.f := h.same (·.f) fun _ _ => rfl

theorem b : m'.registers.b = m.registers.b := h.same (·.b) fun _ _ => rfl

theorem bc : m'.registers.bc = m.registers.bc := h.same (·.bc) fun _ _ => rfl

theorem sp : m'.registers.sp = m.registers.sp := h.same (·.sp) fun _ _ => rfl

theorem pc : m'.registers.pc = m.registers.pc := h.same (·.pc) fun _ _ => rfl

theorem ram : m'.bus.ram = m.bus.ram := by rw [h.bus]

theorem devices : m'.bus.devices = m.bus.devices := by rw [h.bus]

theorem resolve {a : Address} (ha : π .hl = .hl ∨ a.isIndexed = false) :
    m'.resolve (a.rename π) = m.resolve a := by
  cases a with
  | pair name => exact h.readPair name
  | indexed x d =>
      obtain ⟨y, hy⟩ := Pointer.exists_index (ha.resolve_right Bool.noConfusion) x
      have hpointer := h.readPair (Pointer.index x).register
      rw [rename_register, hy] at hpointer
      rw [Address.rename, hy]
      exact congrArg (Word.offset · d) hpointer
  | direct address => rfl

theorem testSource {target : Place} (ht : π .hl = .hl ∨ target.isIndexed = false)
    {value value' : Byte} (hvalue : value' = value) :
    m'.testSource (target.rename π) value' = m.testSource target value := by
  cases target with
  | register name => exact hvalue
  | memory a => exact congrArg Word.high (h.resolve ht)

theorem control (source : ControlRegister) : m'.control source = m.control source := by
  cases source with
  | i => exact h.same (·.i) fun _ _ => rfl
  | r => exact h.same (·.r) fun _ _ => rfl

theorem meets (cond : Option Condition) : m'.meets cond = m.meets cond := by
  cases cond with
  | none => rfl
  | some cond => exact congrArg cond.holds h.f

/-! ### Registers -/

/-- A change of registers that commutes with the permutation. -/
theorem change {s s' : Registers} (hs : s' = s.rearrange π) :
    Mirrors π start start' { m with registers := s } { m' with registers := s' } where
  registers := hs
  cpu := by
    dsimp only
    rw [h.cpu]
  bus := h.bus
  history := h.history

/-- A change of registers that leaves the pointer registers alone. -/
theorem update (f : Registers → Registers)
    (hf : ∀ s g, f (s.withPointers g) = (f s).withPointers g) :
    Mirrors π start start' { m with registers := f m.registers }
      { m' with registers := f m'.registers } := by
  apply h.change
  rw [h.registers]
  exact m.registers.update_rearrange π f hf

/-- A change of the control state. -/
theorem updateCpu (f : Cpu → Cpu)
    (hf : ∀ c s, f { c with registers := s } = { f c with registers := s }) :
    Mirrors π start start' { m with toCpu := f m.toCpu } { m' with toCpu := f m'.toCpu } := by
  have hregisters (c : Cpu) : (f c).registers = c.registers := by rw [hf c c.registers]
  refine ⟨?_, ?_, h.bus, h.history⟩
  · dsimp only
    rw [hregisters, hregisters, h.registers]
  · dsimp only
    rw [hregisters, h.cpu, hf]

theorem setRegister (name : Reg8) {value value' : Byte} (hvalue : value' = value) :
    Mirrors π start start' (m.setRegister name value) (m'.setRegister (name.rename π) value') := by
  subst hvalue
  apply h.change
  rw [h.registers]
  exact m.registers.write8_rearrange π name _

theorem setPair (name : Reg16) {value value' : Word} (hvalue : value' = value) :
    Mirrors π start start' (m.setPair name value) (m'.setPair (name.rename π) value') := by
  subst hvalue
  apply h.change
  rw [h.registers]
  exact m.registers.writePair_rearrange π name _

/-- A word register that keeps its name. -/
theorem setKept (name : Reg16) (hname : name.rename π = name) {value value' : Word}
    (hvalue : value' = value) :
    Mirrors π start start' (m.setPair name value) (m'.setPair name value') := by
  have hset := h.setPair name hvalue
  rwa [hname] at hset

theorem setFlags {f f' : Flags} (hf : f' = f) :
    Mirrors π start start' (m.setFlags f) (m'.setFlags f') := by
  subst hf
  exact h.update (fun s => { s with f := f' }) fun _ _ => rfl

theorem setResult {result result' : Arithmetic.Result} (hresult : result' = result) :
    Mirrors π start start' (m.setResult result) (m'.setResult result') := by
  subst hresult
  exact h.update (fun s => { s with a := result'.value, f := result'.flags }) fun _ _ => rfl

theorem jump {address address' : Word} (haddress : address' = address) :
    Mirrors π start start' (m.jump address) (m'.jump address') := by
  subst haddress
  exact h.update (fun s => { s with pc := address' }) fun _ _ => rfl

/-! ### Memory and devices -/

/-- The same change of both buses. -/
theorem changeBus {bus bus' : Bus} {access : Access}
    (hbus : bus' = { bus with history := bus'.history })
    (hm : bus.history = access :: m.bus.history)
    (hm' : bus'.history = access :: m'.bus.history) :
    Mirrors π start start' { m with bus } { m' with bus := bus' } := by
  obtain ⟨added, hadded, hadded'⟩ := h.history
  refine ⟨h.registers, h.cpu, hbus, access :: added, ?_, ?_⟩
  · dsimp only
    rw [hm, hadded, List.cons_append]
  · dsimp only
    rw [hm', hadded', List.cons_append]

theorem read {address address' : Word} (haddress : address' = address) :
    (m'.read address').1 = (m.read address).1 ∧
      Mirrors π start start' (m.read address).2 (m'.read address').2 := by
  subst haddress
  have hvalue : m'.bus.ram.get address' = m.bus.ram.get address' := by rw [h.ram]
  refine ⟨hvalue, h.changeBus ?_ rfl ?_⟩
  · dsimp only [Bus.read, Bus.record]
    rw [h.ram, h.devices, h.bus]
  · exact congrArg (Access.read address' · :: m'.bus.history) hvalue

theorem write {address address' : Word} {value value' : Byte} (haddress : address' = address)
    (hvalue : value' = value) :
    Mirrors π start start' (m.write address value) (m'.write address' value') := by
  subst haddress hvalue
  refine h.changeBus ?_ rfl rfl
  dsimp only [Bus.write, Bus.record]
  rw [h.bus]

theorem input {device device' : Word} (hdevice : device' = device) :
    (m'.input device').1 = (m.input device).1 ∧
      Mirrors π start start' (m.input device).2 (m'.input device').2 := by
  subst hdevice
  have hvalue : m'.bus.devices.get device' = m.bus.devices.get device' := by rw [h.devices]
  refine ⟨hvalue, h.changeBus ?_ rfl ?_⟩
  · dsimp only [Bus.input, Bus.record]
    rw [h.devices, h.bus]
  · exact congrArg (Access.input device' · :: m'.bus.history) hvalue

theorem output {device device' : Word} {value value' : Byte} (hdevice : device' = device)
    (hvalue : value' = value) :
    Mirrors π start start' (m.output device value) (m'.output device' value') := by
  subst hdevice hvalue
  refine h.changeBus ?_ rfl rfl
  dsimp only [Bus.output, Bus.record]
  rw [h.bus]

theorem readWord {address address' : Word} (haddress : address' = address) :
    (m'.readWord address').1 = (m.readWord address).1 ∧
      Mirrors π start start' (m.readWord address).2 (m'.readWord address').2 := by
  obtain ⟨hlow, h⟩ := h.read haddress
  obtain ⟨hhigh, h⟩ := h.read (congrArg (· + 1) haddress)
  exact ⟨congrArg₂ Word.ofBytes hhigh hlow, h⟩

theorem writeWord {address address' value value' : Word} (haddress : address' = address)
    (hvalue : value' = value) :
    Mirrors π start start' (m.writeWord address value) (m'.writeWord address' value') :=
  (h.write haddress (congrArg Word.low hvalue)).write (congrArg (· + 1) haddress)
    (congrArg Word.high hvalue)

/-! ### The stack -/

theorem push {value value' : Word} (hvalue : value' = value) :
    Mirrors π start start' (m.push value) (m'.push value') := by
  have h := h.update (fun s => { s with sp := s.sp - 1 }) fun _ _ => rfl
  have h := h.write h.sp (congrArg Word.high hvalue)
  have h := h.update (fun s => { s with sp := s.sp - 1 }) fun _ _ => rfl
  exact h.write h.sp (congrArg Word.low hvalue)

theorem pop : m'.pop.1 = m.pop.1 ∧ Mirrors π start start' m.pop.2 m'.pop.2 := by
  obtain ⟨hlow, h⟩ := h.read h.sp
  have h := h.update (fun s => { s with sp := s.sp + 1 }) fun _ _ => rfl
  obtain ⟨hhigh, h⟩ := h.read h.sp
  exact ⟨congrArg₂ Word.ofBytes hhigh hlow,
    h.update (fun s => { s with sp := s.sp + 1 }) fun _ _ => rfl⟩

theorem call {address address' : Word} (haddress : address' = address) :
    Mirrors π start start' (m.call address) (m'.call address') :=
  (h.push h.pc).jump haddress

theorem ret : Mirrors π start start' m.ret m'.ret := by
  obtain ⟨haddress, h⟩ := h.pop
  exact h.jump haddress

/-! ### Operands -/

theorem take {p : Place} (hp : π .hl = .hl ∨ p.isIndexed = false) :
    (m'.take (p.rename π)).1 = (m.take p).1 ∧
      Mirrors π start start' (m.take p).2 (m'.take (p.rename π)).2 := by
  cases p with
  | register name => exact ⟨h.read8 name, h⟩
  | memory a => exact h.read (h.resolve hp)

theorem put {p : Place} (hp : π .hl = .hl ∨ p.isIndexed = false) {value value' : Byte}
    (hvalue : value' = value) :
    Mirrors π start start' (m.put p value) (m'.put (p.rename π) value') := by
  cases p with
  | register name => exact h.setRegister name hvalue
  | memory a => exact h.write (h.resolve hp) hvalue

theorem putBoth {p : Place} (hp : π .hl = .hl ∨ p.isIndexed = false) (copy : Option Reg8)
    {value value' : Byte} (hvalue : value' = value) :
    Mirrors π start start' (m.putBoth p copy value)
      (m'.putBoth (p.rename π) (copy.map (·.rename π)) value') := by
  cases copy with
  | none => exact h.put hp hvalue
  | some name => exact (h.put hp hvalue).setRegister name hvalue

theorem takeSource {s : Source} (hs : π .hl = .hl ∨ s.isIndexed = false) :
    (m'.takeSource (s.rename π)).1 = (m.takeSource s).1 ∧
      Mirrors π start start' (m.takeSource s).2 (m'.takeSource (s.rename π)).2 := by
  cases s with
  | place p => exact h.take hs
  | immediate value => exact ⟨rfl, h⟩

theorem takeWord (s : WordSource) :
    (m'.takeWord (s.rename π)).1 = (m.takeWord s).1 ∧
      Mirrors π start start' (m.takeWord s).2 (m'.takeWord (s.rename π)).2 := by
  cases s with
  | register name => exact ⟨h.readPair name, h⟩
  | immediate value => exact ⟨rfl, h⟩
  | memory address => exact h.readWord rfl

theorem rotateDigits (hhl : π .hl = .hl)
    (rotate : Byte → Byte → Flags → Arithmetic.DigitRotation) :
    Mirrors π start start' (m.rotateDigits rotate) (m'.rotateDigits rotate) := by
  have hhl' {m m' : Machine} (h : Mirrors π start start' m m') := congrArg Bank.hl (h.bank hhl)
  obtain ⟨hvalue, h⟩ := h.read (hhl' h)
  have hresult := congr (congrArg₂ rotate h.a hvalue) h.f
  have h := h.write (hhl' h) (congrArg (·.memory) hresult)
  exact h.setResult (congrArg (fun r => Arithmetic.Result.mk r.accumulator r.flags) hresult)

/-! ### Transfer of control -/

theorem jumpIf (cond : Option Condition) (address : Word) :
    Mirrors π start start' (m.jumpIf cond address) (m'.jumpIf cond address) := by
  unfold Machine.jumpIf
  rw [h.meets cond]
  split
  · exact h.jump rfl
  · exact h

theorem jumpRelative (d : Byte) :
    Mirrors π start start' (m.jumpRelative d) (m'.jumpRelative d) :=
  h.jump (congrArg (Word.offset · d) h.pc)

theorem jumpRelativeIf (cond : Option Condition) (d : Byte) :
    Mirrors π start start' (m.jumpRelativeIf cond d) (m'.jumpRelativeIf cond d) := by
  unfold Machine.jumpRelativeIf
  rw [h.meets cond]
  split
  · exact h.jumpRelative d
  · exact h

theorem callIf (cond : Option Condition) (address : Word) :
    Mirrors π start start' (m.callIf cond address) (m'.callIf cond address) := by
  unfold Machine.callIf
  rw [h.meets cond]
  split
  · exact h.call rfl
  · exact h

theorem retIf (cond : Option Condition) :
    Mirrors π start start' (m.retIf cond) (m'.retIf cond) := by
  unfold Machine.retIf
  rw [h.meets cond]
  split
  · exact h.ret
  · exact h

theorem countDown (d : Byte) :
    Mirrors π start start' (m.countDown d).2 (m'.countDown d).2 := by
  have hb : m'.registers.b - 1 = m.registers.b - 1 := congrArg (· - 1) h.b
  have h := h.update (fun s => { s with b := s.b - 1 }) fun _ _ => rfl
  unfold Machine.countDown
  dsimp only
  by_cases hzero : (m.registers.b - 1 == 0) = true
  · rw [if_pos hzero, if_pos (hb.symm ▸ hzero)]
    exact h
  · rw [if_neg hzero, if_neg (hb.symm ▸ hzero)]
    exact h.jumpRelative d

/-! ### Blocks -/

theorem repeatIf {again again' : Bool} (hagain : again' = again) :
    Mirrors π start start' (m.repeatIf again) (m'.repeatIf again') := by
  subst hagain
  cases again' with
  | true => exact h.update (fun s => { s with pc := s.pc - 2 }) fun _ _ => rfl
  | false => exact h

theorem blockLoad (hhl : π .hl = .hl) (dir : Direction) (repeats : Bool) :
    Mirrors π start start' (m.blockLoad dir repeats) (m'.blockLoad dir repeats) := by
  obtain ⟨hvalue, h⟩ := h.read (congrArg Bank.hl (h.bank hhl))
  unfold Machine.blockLoad
  generalize m.read m.registers.hl = taken at hvalue h
  generalize m'.read m'.registers.hl = taken' at hvalue h
  dsimp only
  have h := h.write (congrArg Bank.de (h.bank hhl)) hvalue
  have h := h.setKept .hl (Reg16.rename_hl hhl) (congrArg (dir.next ·.hl) (h.bank hhl))
  have h := h.setKept .de rfl (congrArg (dir.next ·.de) (h.bank hhl))
  have h := h.setKept .bc rfl (congrArg (·.bc - 1) (h.bank hhl))
  refine (h.setFlags ?_).repeatIf ?_
  · rw [h.bank hhl, hvalue]
  · rw [h.bank hhl]

theorem blockCompare (hhl : π .hl = .hl) (dir : Direction) (repeats : Bool) :
    Mirrors π start start' (m.blockCompare dir repeats) (m'.blockCompare dir repeats) := by
  obtain ⟨hvalue, h⟩ := h.read (congrArg Bank.hl (h.bank hhl))
  unfold Machine.blockCompare
  generalize m.read m.registers.hl = taken at hvalue h
  generalize m'.read m'.registers.hl = taken' at hvalue h
  dsimp only
  have hbefore := h.bank hhl
  have h := h.setKept .hl (Reg16.rename_hl hhl) (congrArg (dir.next ·.hl) (h.bank hhl))
  have h := h.setKept .bc rfl (congrArg (·.bc - 1) (h.bank hhl))
  refine (h.setFlags ?_).repeatIf ?_
  · rw [h.bank hhl, hbefore, hvalue]
  · rw [h.bank hhl, hbefore, hvalue]

theorem blockInput (hhl : π .hl = .hl) (dir : Direction) (repeats : Bool) :
    Mirrors π start start' (m.blockInput dir repeats) (m'.blockInput dir repeats) := by
  obtain ⟨hvalue, h⟩ := h.input h.bc
  unfold Machine.blockInput
  generalize m.input m.registers.bc = taken at hvalue h
  generalize m'.input m'.registers.bc = taken' at hvalue h
  dsimp only
  have h := h.write (congrArg Bank.hl (h.bank hhl)) hvalue
  have hbefore := h.bank hhl
  have h := h.update (fun s => { s with b := s.b - 1 }) fun _ _ => rfl
  have h := h.setKept .hl (Reg16.rename_hl hhl) (congrArg (dir.next ·.hl) (h.bank hhl))
  have hagain := congrArg (fun k : Bank => repeats && k.b != 0) (h.bank hhl)
  refine (h.setFlags ?_).repeatIf hagain
  rw [h.bank hhl, hbefore, hvalue]

theorem blockOutput (hhl : π .hl = .hl) (dir : Direction) (repeats : Bool) :
    Mirrors π start start' (m.blockOutput dir repeats) (m'.blockOutput dir repeats) := by
  obtain ⟨hvalue, h⟩ := h.read (congrArg Bank.hl (h.bank hhl))
  unfold Machine.blockOutput
  generalize m.read m.registers.hl = taken at hvalue h
  generalize m'.read m'.registers.hl = taken' at hvalue h
  dsimp only
  have h := h.update (fun s => { s with b := s.b - 1 }) fun _ _ => rfl
  have h := h.output h.bc hvalue
  have h := h.setKept .hl (Reg16.rename_hl hhl) (congrArg (dir.next ·.hl) (h.bank hhl))
  have hagain := congrArg (fun k : Bank => repeats && k.b != 0) (h.bank hhl)
  refine (h.setFlags ?_).repeatIf hagain
  rw [h.bank hhl, hvalue]

theorem block (hhl : π .hl = .hl) (op : BlockOperation) (dir : Direction) (repeats : Bool) :
    Mirrors π start start' (m.block op dir repeats) (m'.block op dir repeats) := by
  cases op with
  | load => exact h.blockLoad hhl dir repeats
  | compare => exact h.blockCompare hhl dir repeats
  | input => exact h.blockInput hhl dir repeats
  | output => exact h.blockOutput hhl dir repeats

/-! ### Instructions -/

/-- A machine executes an instruction as its mirror image executes the renamed instruction. -/
theorem execute {i : Instruction} (hi : π .hl = .hl ∨ i.tied = false) :
    Mirrors π start start' (m.execute i) (m'.execute (i.rename π)) := by
  -- the operand is taken first, and what follows is computed from equal values
  cases i with
  | nop | idlePrefix | undefined => exact h
  | ld target source =>
      obtain ⟨hvalue, h⟩ := h.takeSource (hi.imp_right fun h => (Bool.or_eq_false_iff.mp h).2)
      exact h.put (hi.imp_right fun h => (Bool.or_eq_false_iff.mp h).1) hvalue
  | ldWord target source =>
      obtain ⟨hvalue, h⟩ := h.takeWord source
      exact h.setPair target hvalue
  | storeWord address source => exact h.writeWord rfl (h.readPair source)
  | storeControl target =>
      cases target with
      | i => exact h.update (fun s => { s with i := s.a }) fun _ _ => rfl
      | r => exact h.update (fun s => { s with r := s.a }) fun _ _ => rfl
  | loadControl source =>
      have hiff2 := h.same (·.iff2) fun _ _ => rfl
      refine h.setResult ?_
      rw [h.control source, h.f, hiff2]
  | push source => exact h.push (h.readPair source)
  | pop target =>
      obtain ⟨hvalue, h⟩ := h.pop
      exact h.setPair target hvalue
  | exAf => exact h.update Registers.exchangeAf fun _ _ => rfl
  | exx =>
      have hhl := hi.resolve_right Bool.noConfusion
      apply h.change
      rw [h.registers]
      exact m.registers.update_rearrange_of_hl hhl Registers.exchangeShadow fun _ _ _ => rfl
  | exDeHl =>
      have hhl := hi.resolve_right Bool.noConfusion
      apply h.change
      rw [h.registers]
      exact m.registers.update_rearrange_of_hl hhl Registers.exchangeDeHl fun _ _ _ => rfl
  | exStack name =>
      obtain ⟨hvalue, h⟩ := h.readWord h.sp
      exact (h.writeWord h.sp (h.readPair name)).setPair name hvalue
  | operate op source =>
      obtain ⟨hvalue, h⟩ := h.takeSource hi
      exact h.setResult (congr (congrArg₂ op.apply h.a hvalue) h.f)
  | inc target =>
      obtain ⟨hvalue, h⟩ := h.take hi
      have hresult := congrArg₂ Arithmetic.incByte hvalue h.f
      exact (h.put hi (congrArg (·.value) hresult)).setFlags (congrArg (·.flags) hresult)
  | dec target =>
      obtain ⟨hvalue, h⟩ := h.take hi
      have hresult := congrArg₂ Arithmetic.decByte hvalue h.f
      exact (h.put hi (congrArg (·.value) hresult)).setFlags (congrArg (·.flags) hresult)
  | adjust op => exact h.setResult (congrArg₂ op.apply h.a h.f)
  | addWord target source =>
      have hresult :=
        congr (congrArg₂ Arithmetic.addWord (h.readPair target) (h.readPair source)) h.f
      have h := h.setPair target (congrArg (·.value) hresult)
      exact h.setFlags (congrArg (·.flags) hresult)
  | adcWord source =>
      have hhl := hi.resolve_right Bool.noConfusion
      have hresult := congrArg₂
        (fun (k : Bank) value => Arithmetic.addCarryWord k.hl value k.f.carry)
        (h.bank hhl) (h.readPair source)
      have h := h.setKept .hl (Reg16.rename_hl hhl) (congrArg (·.value) hresult)
      exact h.setFlags (congrArg (·.flags) hresult)
  | sbcWord source =>
      have hhl := hi.resolve_right Bool.noConfusion
      have hresult := congrArg₂
        (fun (k : Bank) value => Arithmetic.subBorrowWord k.hl value k.f.carry)
        (h.bank hhl) (h.readPair source)
      have h := h.setKept .hl (Reg16.rename_hl hhl) (congrArg (·.value) hresult)
      exact h.setFlags (congrArg (·.flags) hresult)
  | incWord target => exact h.setPair target (congrArg (· + 1) (h.readPair target))
  | decWord target => exact h.setPair target (congrArg (· - 1) (h.readPair target))
  | shift op target copy =>
      obtain ⟨hvalue, h⟩ := h.take hi
      have hresult := congrArg₂ (Arithmetic.shift op) hvalue h.f
      have h := h.putBoth hi copy (congrArg (·.value) hresult)
      exact h.setFlags (congrArg (·.flags) hresult)
  | bit n target =>
      obtain ⟨hvalue, h⟩ := h.take hi
      have htest := congrArg₂ (Arithmetic.testBit n) hvalue h.f
      exact h.setFlags (congr htest (h.testSource hi hvalue))
  | res n target copy =>
      obtain ⟨hvalue, h⟩ := h.take hi
      exact h.putBoth hi copy (congrArg (Arithmetic.resetBit n) hvalue)
  | set n target copy =>
      obtain ⟨hvalue, h⟩ := h.take hi
      exact h.putBoth hi copy (congrArg (Arithmetic.setBit n) hvalue)
  | rld | rrd => exact h.rotateDigits (hi.resolve_right Bool.noConfusion) _
  | jp cond address => exact h.jumpIf cond address
  | jpRegister source => exact h.jump (h.readPair source)
  | jr cond d => exact h.jumpRelativeIf cond d
  | djnz d => exact h.countDown d
  | call cond address => exact h.callIf cond address
  | ret cond => exact h.retIf cond
  | rst vector => exact h.call rfl
  | reti => exact h.ret.update (fun s => { s with iff1 := true }) fun _ _ => rfl
  | retn => exact h.ret.update (fun s => { s with iff1 := s.iff2 }) fun _ _ => rfl
  | inA device =>
      obtain ⟨hvalue, h⟩ := h.input (congrArg (Word.ofBytes · device) h.a)
      exact h.setRegister .a hvalue
  | outA device => exact h.output (congrArg (Word.ofBytes · device) h.a) h.a
  | inC target =>
      obtain ⟨hvalue, h⟩ := h.input h.bc
      cases target with
      | none => exact h.setFlags (congrArg₂ (·.update · loadUpdate) h.f hvalue)
      | some name =>
          have h := h.setRegister name hvalue
          exact h.setFlags (congrArg₂ (·.update · loadUpdate) h.f hvalue)
  | outC source =>
      cases source with
      | none => exact h.output h.bc rfl
      | some name => exact h.output h.bc (h.read8 name)
  | block op dir repeats => exact h.block (hi.resolve_right Bool.noConfusion) op dir repeats
  | halt => exact h.update (fun s => { s with halted := true, pc := s.pc - 1 }) fun _ _ => rfl
  | di => exact h.update (fun s => { s with iff1 := false, iff2 := false }) fun _ _ => rfl
  | ei =>
      have h := h.update (fun s => { s with iff1 := true, iff2 := true }) fun _ _ => rfl
      exact h.updateCpu (fun c => { c with enableDelay := true }) fun _ _ => rfl
  | im mode => exact h.update (fun s => { s with im := BitVec.ofNat 8 mode.val }) fun _ _ => rfl

/-! ### Reading an encoding -/

theorem refresh : Mirrors π start start' m.refresh m'.refresh :=
  h.update Registers.refresh fun _ _ => rfl

theorem fetchByte :
    m'.fetchByte.1 = m.fetchByte.1 ∧ Mirrors π start start' m.fetchByte.2 m'.fetchByte.2 := by
  obtain ⟨hvalue, h⟩ := h.read h.pc
  exact ⟨hvalue, h.update (fun s => { s with pc := s.pc + 1 }) fun _ _ => rfl⟩

/-- Mirror images take the same bytes, whatever is made of them. -/
theorem fetch {α β : Type} (f : α → β) (r : Reader α) :
    (m'.fetch (r.map f)).value = f (m.fetch r).value ∧
      (m'.fetch (r.map f)).bytes = (m.fetch r).bytes ∧
      Mirrors π start start' (m.fetch r).machine (m'.fetch (r.map f)).machine := by
  induction r generalizing m m' with
  | done value => exact ⟨rfl, rfl, h⟩
  | opcode next ih =>
      obtain ⟨hbyte, h⟩ := h.refresh.fetchByte
      obtain ⟨hvalue, hbytes, h⟩ := ih m.refresh.fetchByte.1 h
      simp only [Reader.map, Machine.fetch, hbyte]
      exact ⟨hvalue, congrArg (_ :: ·) hbytes, h⟩
  | operand next ih =>
      obtain ⟨hbyte, h⟩ := h.fetchByte
      obtain ⟨hvalue, hbytes, h⟩ := ih m.fetchByte.1 h
      simp only [Reader.map, Machine.fetch, hbyte]
      exact ⟨hvalue, congrArg (_ :: ·) hbytes, h⟩
  | peek next ih =>
      obtain ⟨hbyte, h⟩ := h.read h.pc
      obtain ⟨hvalue, hbytes, h⟩ := ih (some (m.read m.registers.pc).1) h
      simp only [Reader.map, Machine.fetch, hbyte]
      exact ⟨hvalue, hbytes, h⟩

/-! ### What mirroring says in the end -/

omit h in
/-- Machines with the same history are mirror images if their registers are. -/
theorem of_registers {s s' : Registers} (m : Machine) (hs : s' = s.rearrange π) :
    Mirrors π m.bus.history m.bus.history (m.setRegisters s) (m.setRegisters s') :=
  ⟨hs, rfl, rfl, [], rfl, rfl⟩

/-- Mirror images differ in their registers and in their histories. -/
theorem eq_with_history :
    m' =
      { m with
        registers := m.registers.rearrange π
        bus.history := m'.bus.history } := by
  have hcpu := h.cpu
  rw [h.registers] at hcpu
  exact congrArg₂ Machine.mk hcpu h.bus

omit h in
/-- Where the second history began with more accesses, it still has as many more. -/
theorem since_eq {b : Bus} {accesses : List Access}
    (h : Mirrors π b.history (accesses.reverse ++ b.history) m m') :
    m'.bus.since b = accesses ++ m.bus.since b := by
  obtain ⟨added, hadded, hadded'⟩ := h.history
  rw [← List.reverse_reverse added] at hadded hadded'
  rw [← List.append_assoc, ← List.reverse_append] at hadded'
  rw [Bus.since_eq hadded', Bus.since_eq hadded]

omit h in
/-- Where the histories began alike, only the registers differ. -/
theorem eq_setRegisters (h : Mirrors π start start m m') :
    m' = m.setRegisters (m.registers.rearrange π) := by
  obtain ⟨added, hadded, hadded'⟩ := h.history
  rw [h.eq_with_history, hadded', ← hadded]
  rfl

end Mirrors
end Machine
end Z80Machine
