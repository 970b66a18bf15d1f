import Z80Machine.Proofs.SameLine

/-!
# What an instruction touches

The addresses at which an instruction may change memory are known before it is carried out
(`Machine.footprint`), and so is whether it sends a byte to a device or takes one
(`Instruction.sends`, `Instruction.receives`).  The relation `Touches` states this of two
machines; it composes, each operation is given its own lemma, and all instructions keep within
their footprint (`touches_execute`).  Reading the encoding touches nothing, so that the same
is true of a whole step (`step_touches_footprint`).
-/

namespace Z80Machine

/-- The device and the byte of an access that takes a byte from a device. -/
def Access.input? : Access → Option (Word × Byte)
  | .input device value => some (device, value)
  | _ => none

namespace Instruction

/-- The place that an instruction names and changes, if there is one. -/
def target? : Instruction → Option Place
  | .ld target _ | .inc target | .dec target | .shift _ target _ | .res _ target _
  | .set _ target _ => some target
  | _ => none

/-- Whether an instruction sends a byte to a device. -/
def sends : Instruction → Bool
  | .outA _ | .outC _ | .block .output _ _ => true
  | _ => false

/-- Whether an instruction takes a byte from a device. -/
def receives : Instruction → Bool
  | .inA _ | .inC _ | .block .input _ _ => true
  | _ => false

end Instruction

namespace Machine

/-- The addresses of the bytes that a place stands for. -/
def cells (m : Machine) : Place → List Word
  | .register _ => []
  | .memory a => [m.resolve a]

/-- The addresses at which an instruction may change memory. -/
def footprint (m : Machine) : Instruction → List Word
  | .ld target _ | .inc target | .dec target | .shift _ target _ | .res _ target _
  | .set _ target _ => m.cells target
  | .storeWord address _ => [address, address + 1]
  | .push _ | .rst _ => m.stackAddresses
  | .call cond _ => if m.meets cond then m.stackAddresses else []
  | .exStack _ => [m.registers.sp, m.registers.sp + 1]
  | .rld | .rrd => [m.registers.hl]
  | .block .load _ _ => [m.registers.de]
  | .block .input _ _ => [m.registers.hl]
  | _ => []

/-- The second machine comes from the first without a change of memory elsewhere than at the
given addresses, and by accesses that send and receive the given numbers of bytes. -/
structure Touches (addresses : List Word) (outs ins : Nat) (m m' : Machine) : Prop where
  ram : ∀ address, address ∉ addresses → m'.bus.ram.get address = m.bus.ram.get address
  history : ∃ added, m'.bus.history = added ++ m.bus.history ∧
    (added.filterMap Access.output?).length = outs ∧ (added.filterMap Access.input?).length = ins

variable {addresses : List Word} {outs ins outs' ins' : Nat} {m m' m'' : Machine}

theorem Touches.of_bus_eq (h : m'.bus = m.bus) : Touches addresses 0 0 m m' where
  ram address _ := by rw [h]
  history := ⟨[], congrArg Bus.history h, rfl, rfl⟩

theorem Touches.refl (m : Machine) : Touches addresses 0 0 m m := .of_bus_eq rfl

theorem Touches.trans (h : Touches addresses outs ins m m')
    (h' : Touches addresses outs' ins' m' m'') :
    Touches addresses (outs' + outs) (ins' + ins) m m'' where
  ram address haddress := (h'.ram address haddress).trans (h.ram address haddress)
  history := by
    obtain ⟨added, hadded, houts, hins⟩ := h.history
    obtain ⟨added', hadded', houts', hins'⟩ := h'.history
    refine ⟨added' ++ added, ?_, ?_, ?_⟩
    · -- the newest accesses stand in front
      rw [hadded', hadded, List.append_assoc]
    · rw [List.filterMap_append, List.length_append, houts', houts]
    · rw [List.filterMap_append, List.length_append, hins', hins]

/-- A change of registers after other changes. -/
theorem Touches.then_registers (h : Touches addresses outs ins m m') (s : Registers) :
    Touches addresses outs ins m { m' with registers := s } :=
  ⟨h.ram, h.history⟩

/-- What is sent grows by what the accesses send. -/
theorem Touches.sent (h : Touches addresses outs ins m m') :
    ∃ bytes, m'.bus.sent = m.bus.sent ++ bytes ∧ bytes.length = outs := by
  obtain ⟨added, hadded, houts, -⟩ := h.history
  refine ⟨(added.filterMap Access.output?).reverse, ?_, ?_⟩
  · rw [Bus.sent, hadded, List.filterMap_append, List.reverse_append]
    rfl
  · rw [List.length_reverse, houts]

section Operations

variable (m : Machine)

/-! ### Memory, devices and the stack -/

theorem touches_read (address : Word) : Touches addresses 0 0 m (m.read address).2 where
  ram _ _ := rfl
  history := ⟨[_], rfl, rfl, rfl⟩

theorem touches_write {address : Word} (value : Byte) (haddress : address ∈ addresses) :
    Touches addresses 0 0 m (m.write address value) where
  ram other hother := by
    have hne : other ≠ address := by
      rintro rfl
      exact hother haddress
    exact Cells.get_set_of_ne _ value hne
  history := ⟨[_], rfl, rfl, rfl⟩

theorem touches_input (device : Word) : Touches addresses 0 1 m (m.input device).2 where
  ram _ _ := rfl
  history := ⟨[_], rfl, rfl, rfl⟩

theorem touches_output (device : Word) (value : Byte) :
    Touches addresses 1 0 m (m.output device value) where
  ram _ _ := rfl
  history := ⟨[_], rfl, rfl, rfl⟩

theorem touches_readWord (address : Word) : Touches addresses 0 0 m (m.readWord address).2 :=
  (touches_read m address).trans (touches_read _ _)

theorem touches_writeWord {address : Word} (value : Word) (hlow : address ∈ addresses)
    (hhigh : address + 1 ∈ addresses) : Touches addresses 0 0 m (m.writeWord address value) :=
  (touches_write m _ hlow).trans (touches_write _ _ hhigh)

theorem touches_push (value : Word) : Touches m.stackAddresses 0 0 m (m.push value) := by
  have hhigh : m.registers.sp - 1 ∈ m.stackAddresses := .head _
  have hlow : m.registers.sp - 1 - 1 ∈ m.stackAddresses := by
    rw [BitVec.sub_sub]
    exact .tail _ (.head _)
  exact (((Touches.refl m).then_registers _).trans (touches_write _ _ hhigh)).trans
    (((Touches.refl _).then_registers _).trans (touches_write _ _ hlow))

theorem touches_pop : Touches addresses 0 0 m m.pop.2 :=
  ((touches_read m _).then_registers _).trans ((touches_read _ _).then_registers _)

theorem touches_call (address : Word) : Touches m.stackAddresses 0 0 m (m.call address) :=
  (touches_push m _).then_registers _

theorem touches_ret : Touches addresses 0 0 m m.ret := (touches_pop m).then_registers _

/-! ### Operands -/

theorem touches_take (p : Place) : Touches addresses 0 0 m (m.take p).2 := by
  cases p with
  | register name => exact .refl m
  | memory a => exact touches_read m _

theorem touches_takeSource (s : Source) : Touches addresses 0 0 m (m.takeSource s).2 := by
  cases s with
  | place p => exact touches_take m p
  | immediate value => exact .refl m

theorem touches_takeWord (s : WordSource) : Touches addresses 0 0 m (m.takeWord s).2 := by
  cases s with
  | register name => exact .refl m
  | immediate value => exact .refl m
  | memory address => exact touches_readWord m address

variable {m}

/-- A place stands for the same address as before if the registers are the same. -/
theorem touches_put (p : Place) (value : Byte) (hregisters : m'.registers = m.registers) :
    Touches (m.cells p) 0 0 m' (m'.put p value) := by
  cases p with
  | register name => exact .of_bus_eq rfl
  | memory a =>
      have hresolve : m'.resolve a = m.resolve a := by
        cases a with
        | pair name => exact congrArg (·.readPair name) hregisters
        | indexed x d => exact congrArg (fun s => Word.offset (s.readPair x.register) d) hregisters
        | direct address => rfl
      apply touches_write
      rw [hresolve]
      exact .head _

theorem touches_putBoth (p : Place) (copy : Option Reg8) (value : Byte)
    (hregisters : m'.registers = m.registers) :
    Touches (m.cells p) 0 0 m' (m'.putBoth p copy value) := by
  cases copy with
  | none => exact touches_put p value hregisters
  | some name => exact (touches_put p value hregisters).then_registers _

variable (m)

theorem touches_rotateDigits (rotate : Byte → Byte → Flags → Arithmetic.DigitRotation) :
    Touches [m.registers.hl] 0 0 m (m.rotateDigits rotate) :=
  ((touches_read m _).trans (touches_write _ _ (.head _))).then_registers _

/-! ### Transfer of control -/

theorem touches_jumpIf (cond : Option Condition) (address : Word) :
    Touches addresses 0 0 m (m.jumpIf cond address) := by
  unfold jumpIf
  split <;> exact .of_bus_eq rfl

theorem touches_jumpRelativeIf (cond : Option Condition) (d : Byte) :
    Touches addresses 0 0 m (m.jumpRelativeIf cond d) := by
  unfold jumpRelativeIf
  split <;> exact .of_bus_eq rfl

theorem touches_countDown (d : Byte) : Touches addresses 0 0 m (m.countDown d).2 := by
  unfold countDown
  dsimp only
  split <;> exact .of_bus_eq rfl

theorem touches_callIf (cond : Option Condition) (address : Word) :
    Touches (if m.meets cond then m.stackAddresses else []) 0 0 m (m.callIf cond address) := by
  unfold callIf
  split
  · exact touches_call m address
  · exact .refl m

theorem touches_retIf (cond : Option Condition) : Touches addresses 0 0 m (m.retIf cond) := by
  unfold retIf
  split
  · exact touches_ret m
  · exact .refl m

/-! ### Blocks -/

theorem touches_repeatIf (again : Bool) : Touches addresses 0 0 m (m.repeatIf again) := by
  cases again <;> exact .of_bus_eq rfl

theorem touches_block (op : BlockOperation) (dir : Direction) (repeats : Bool) :
    Touches (m.footprint (.block op dir repeats)) (Instruction.block op dir repeats).sends.toNat
      (Instruction.block op dir repeats).receives.toNat m (m.block op dir repeats) := by
  cases op with
  | load =>
      exact (((touches_read m _).trans (touches_write _ _ (.head _))).then_registers _).trans
        (touches_repeatIf _ _)
  | compare => exact ((touches_read m _).then_registers _).trans (touches_repeatIf _ _)
  | input =>
      exact (((touches_input m _).trans (touches_write _ _ (.head _))).then_registers _).trans
        (touches_repeatIf _ _)
  | output =>
      exact ((((touches_read m _).then_registers _).trans
        (touches_output _ _ _)).then_registers _).trans (touches_repeatIf _ _)

/-! ### Instructions -/

/-- Every instruction keeps within its footprint, and reaches a device only if it is made to. -/
theorem touches_execute (i : Instruction) :
    Touches (m.footprint i) i.sends.toNat i.receives.toNat m (m.execute i) := by
  -- an operand is taken without touching anything, so a place is resolved as it was before
  cases i with
  | nop | idlePrefix | undefined => exact .refl m
  | ld target source =>
      exact (touches_takeSource m source).trans
        (touches_put target _ (registers_takeSource m source))
  | ldWord target source => exact (touches_takeWord m source).then_registers _
  | storeWord address source =>
      exact touches_writeWord m _ (.head _) (.tail _ (.head _))
  | storeControl target => cases target <;> exact .of_bus_eq rfl
  | loadControl | exAf | exx | exDeHl | adjust | addWord | adcWord | sbcWord | incWord | decWord
  | jpRegister | halt | di | ei | im => exact .of_bus_eq rfl
  | push source => exact touches_push m _
  | pop target => exact (touches_pop m).then_registers _
  | exStack name =>
      exact ((touches_readWord m _).trans
        (touches_writeWord _ _ (.head _) (.tail _ (.head _)))).then_registers _
  | operate op source => exact (touches_takeSource m source).then_registers _
  | inc target | dec target =>
      exact ((touches_take m target).trans
        (touches_put target _ (registers_take m target))).then_registers _
  | shift op target copy =>
      exact ((touches_take m target).trans
        (touches_putBoth target copy _ (registers_take m target))).then_registers _
  | bit n target => exact (touches_take m target).then_registers _
  | res n target copy | set n target copy =>
      exact (touches_take m target).trans
        (touches_putBoth target copy _ (registers_take m target))
  | rld | rrd => exact touches_rotateDigits m _
  | jp cond address => exact touches_jumpIf m cond address
  | jr cond d => exact touches_jumpRelativeIf m cond d
  | djnz d => exact touches_countDown m d
  | call cond address => exact touches_callIf m cond address
  | ret cond => exact touches_retIf m cond
  | rst vector => exact touches_call m _
  | reti | retn => exact (touches_ret m).then_registers _
  | inA device => exact (touches_input m _).then_registers _
  | outA device => exact touches_output m _ _
  | inC target =>
      cases target with
      | none => exact (touches_input m _).then_registers _
      | some name => exact ((touches_input m _).then_registers _).then_registers _
  | outC source => cases source <;> exact touches_output m _ _
  | block op dir repeats => exact touches_block m op dir repeats

end Operations
end Machine

/-! ### Addresses in instructions -/

/-- Whether an address is found without the program counter. -/
def Address.isMain : Address → Bool
  | .pair name => name.isMain
  | _ => true

/-- Whether a place is found without the program counter. -/
def Place.isMain : Place → Bool
  | .register _ => true
  | .memory a => a.isMain

/-- Whether the place that an instruction changes is found without the program counter. -/
def Instruction.hasMainTarget (i : Instruction) : Bool := i.target?.all Place.isMain

namespace Encoding

open Instruction Reader

variable {P : Instruction → Prop}

/-- Reading ends in an entry of one of the tables. -/
theorem ends_reader (hidle : P .idlePrefix) (hmain : ∀ p op, (mainTable p op).Ends P)
    (hbits : ∀ op, P (bits op)) (hindexed : ∀ x d op, P (indexedBits x d op))
    (hextended : ∀ op, (extended op).Ends P) : Instruction.reader.Ends P := by
  have hafter (x : Index) (op : Byte) : (afterIndex x op).Ends P := by
    unfold afterIndex
    split
    · exact hindexed x
    · exact hmain (.index x) op
  intro op
  dsimp only
  split
  · exact hbits
  · split
    · exact hextended
    · split
      · exact ends_indexed hidle (hafter .ix)
      · split
        · exact ends_indexed hidle (hafter .iy)
        · exact hmain .hl op

variable {p : Pointer} {x : Fin 4} {y z : Fin 8} {i : Instruction} {a : Address} {place : Place}
  {n : Nat}

theorem Cell.isMain_address (h : Cell p a n) : a.isMain = true := by
  cases h <;> rfl

theorem FixedCell.isMain_address (h : FixedCell a n) : a.isMain = true := by
  cases h <;> rfl

theorem Operand.isMain_place (h : Operand p place n) : place.isMain = true := by
  cases h with
  | register _ => rfl
  | memory ha => exact ha.isMain_address

attribute [local simp] Instruction.hasMainTarget Instruction.target?

theorem MainEntry.hasMainTarget (h : MainEntry p x y z i n) : i.hasMainTarget = true := by
  cases h with
  | store _ ha => exact ha.isMain_address
  | storeA ha => exact ha.isMain_address
  | loadImmediate h _ | inc h | dec h => simpa using h.isMain_place
  | _ => rfl

theorem bitOperation_hasMainTarget (op : Byte) {target : Place} (copy : Option Reg8)
    (htarget : target.isMain = true) : (bitOperation op target copy).hasMainTarget = true := by
  unfold bitOperation
  split <;> simp [htarget]

/-- Behind `ED` no instruction names the place that it changes. -/
theorem ExtendedEntry.hasMainTarget (h : ExtendedEntry x y z i n) : i.hasMainTarget = true := by
  cases h <;> rfl

theorem reader_hasMainTarget : Instruction.reader.Ends fun i => i.hasMainTarget = true := by
  apply ends_reader
  · rfl
  · exact fun p op => (entries_mainTable p op).ends fun _ _ h => h.hasMainTarget
  · intro op
    unfold bits
    split <;> exact bitOperation_hasMainTarget op none rfl
  · exact fun x d op => bitOperation_hasMainTarget op _ rfl
  · exact fun op => (entries_extended op).ends fun _ _ h => h.hasMainTarget

end Encoding

namespace Machine

variable {m m' : Machine}

/-! ### Reading an instruction -/

section

variable (hregisters : m'.registers =
  { m.registers with pc := m'.registers.pc, r := m'.registers.r })

include hregisters

theorem cells_of_registers {p : Place} (hp : p.isMain = true) : m'.cells p = m.cells p := by
  cases p with
  | register name => rfl
  | memory a =>
      suffices hresolve : m'.resolve a = m.resolve a by rw [cells, cells, hresolve]
      unfold resolve
      rw [hregisters]
      cases a with
      | pair name =>
          cases name with
          | pc => exact Bool.noConfusion hp
          | _ => rfl
      | indexed x d => cases x <;> rfl
      | direct address => rfl

theorem stackAddresses_of_registers : m'.stackAddresses = m.stackAddresses := by
  unfold stackAddresses
  rw [hregisters]

theorem meets_of_registers (cond : Option Condition) : m'.meets cond = m.meets cond := by
  cases cond with
  | none => rfl
  | some cond =>
      unfold meets
      rw [hregisters]

/-- What an instruction touches does not depend on where it stands. -/
theorem footprint_of_registers {i : Instruction} (hi : i.hasMainTarget = true) :
    m'.footprint i = m.footprint i := by
  cases i with
  | ld target | inc target | dec target | shift _ target | res _ target | set _ target =>
      exact cells_of_registers hregisters hi
  | push | rst => exact stackAddresses_of_registers hregisters
  | call cond =>
      simp only [footprint, meets_of_registers hregisters, stackAddresses_of_registers hregisters]
  | exStack | rld | rrd =>
      unfold footprint
      rw [hregisters]
  | block op =>
      cases op with
      | load | input =>
          unfold footprint
          rw [hregisters]
      | compare | output => rfl
  | _ => rfl

end

/-- What is read from memory to find an instruction concerns no device. -/
theorem filterMap_codeReads (m : Machine) (count : Nat) {f : Access → Option (Word × Byte)}
    (hf : ∀ address value, f (.read address value) = none) :
    (m.codeReads count).reverse.filterMap f = [] := by
  apply List.filterMap_eq_nil_iff.mpr
  intro access hmem
  have hread := isRead_of_mem_codeReads (List.mem_reverse.mp hmem)
  cases access with
  | read address value => exact hf address value
  | write | input | output | acknowledge => contradiction

theorem touches_ready (m : Machine) : Touches addresses 0 0 m m.ready where
  ram address _ := by rw [ram_ready]
  history := by
    refine ⟨_, history_reader m, ?_, ?_⟩
    · rw [filterMap_codeReads m _ fun _ _ => rfl]
      rfl
    · rw [filterMap_codeReads m _ fun _ _ => rfl]
      rfl

/-- Reading and carrying out an instruction touches what the instruction is made to touch. -/
theorem touches_executed (m : Machine) :
    Touches (m.footprint m.instruction) m.instruction.sends.toNat m.instruction.receives.toNat m
      m.executed := by
  have hi : m.instruction.hasMainTarget = true := Encoding.reader_hasMainTarget.value_fetch m
  have hregisters : m.ready.registers =
      { m.registers with pc := m.ready.registers.pc, r := m.ready.registers.r } := by
    rw [registers_ready]
  have hexecute := touches_execute m.ready m.instruction
  rw [footprint_of_registers hregisters hi] at hexecute
  have htouches := (touches_ready m).trans hexecute
  exact ⟨htouches.ram, htouches.history⟩

/-- If no request is pending and the machine is not halted, a step that succeeds changes memory
at most at the addresses of its instruction, as the registers before the step give them.  It
sends one byte to a device if it is an output instruction, and takes one if it is an input
instruction, and otherwise none. -/
theorem step_touches_footprint (m : Machine) (hrunning : m.registers.halted = false)
    (hint : m.interruptPending = false) (hnmi : m.nmiPending = false) (hok : m.Succeeds) :
    (∀ address, address ∉ m.footprint m.instruction →
      m.step.2.bus.ram.get address = m.bus.ram.get address) ∧
    (∃ bytes, m.step.2.bus.sent = m.bus.sent ++ bytes ∧
      bytes.length = m.instruction.sends.toNat) ∧
    ((m.step.2.bus.since m.bus).filterMap Access.input?).length =
      m.instruction.receives.toNat := by
  have hdue := due_eq_none hint hnmi
  have hstep := step_of_due_none hdue hrunning (not_atHole_of_succeeds hdue hrunning hok)
  have htouches := touches_executed m
  rw [hstep]
  refine ⟨htouches.ram, htouches.sent, ?_⟩
  obtain ⟨added, hadded, -, hins⟩ := htouches.history
  rw [← List.reverse_reverse added] at hadded
  rw [Bus.since_eq hadded, List.filterMap_reverse, List.length_reverse, hins]

/-- `INI`, which puts the byte from device BC at HL. -/
def blockInputExample : Machine where
  registers := { pc := 0x8000, b := 0x01, h := 0x90 }
  bus.ram := Store.load (.fill 0 16) 0x8000 [0xED, 0xA2]

theorem step_touches_footprint_ini :
    (∀ address, address ≠ 0x9000 →
      blockInputExample.step.2.bus.ram.get address = blockInputExample.bus.ram.get address) ∧
    blockInputExample.step.2.bus.ram.get 0x9000 = 0xFF ∧
    ((blockInputExample.step.2.bus.since blockInputExample.bus).filterMap
      Access.input?).length = 1 := by
  have hinstruction : blockInputExample.instruction = .block .input .up false := by decide
  obtain ⟨hram, -, hinput⟩ := step_touches_footprint blockInputExample rfl rfl rfl ⟨_, rfl⟩
  rw [hinstruction] at hram hinput
  refine ⟨fun address hne => hram address ?_, by decide, hinput⟩
  exact fun hmem => hne (List.mem_singleton.mp hmem)

end Machine
end Z80Machine
