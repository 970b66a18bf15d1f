import Z80Machine.Proofs.BlockPass

/-!
# Transferring a whole block

The repeating transfers move the bytes at HL to devices, `OTIR` and `OTDR`, or from devices, `INIR`
and `INDR`.  B counts the bytes and is at the same time the upper half of the device: it is
counted down before a byte is sent, but after one is taken.  What a transfer does on its way is
said by a `Transfer`, one for each of the two ways, and `block_transfer_completes` is the main
statement.
-/

namespace Z80Machine

/-- A transfer of a block through devices, as a sequence: the bytes that are transferred and what
is added to each for the flags, and what memory and devices have got before each. -/
structure Transfer where
  byte : Nat → Byte
  index : Nat → Byte
  ram : Nat → Store
  sent : Nat → List (Word × Byte)

namespace Machine

variable {m : Machine} {op : BlockOperation} {dir : Direction} {x : Transfer}

/-- The number of bytes that B counts, which is 256 if it is zero. -/
def transferLength (m : Machine) : Nat := rounds m.registers.b

/-- The block at HL as it is sent to devices.  B has been counted down when a byte is sent. -/
def outputs (m : Machine) (dir : Direction) : Transfer where
  byte i := m.bus.ram.get (dir.moved m.registers.hl i)
  index i := (dir.moved m.registers.hl (i + 1)).low
  ram _ := m.bus.ram
  sent k :=
    m.bus.sent ++ (List.range k).map fun i =>
      (Word.ofBytes (m.registers.b - BitVec.ofNat 8 (i + 1)) m.registers.c,
        m.bus.ram.get (dir.moved m.registers.hl i))

/-- The byte that is taken from a device for a place in the block at HL. -/
def taken (m : Machine) (i : Nat) : Byte :=
  m.bus.devices.get (Word.ofBytes (m.registers.b - BitVec.ofNat 8 i) m.registers.c)

/-- Memory when some bytes of the block at HL have been taken from devices. -/
def filled (m : Machine) (dir : Direction) : Nat → Store
  | 0 => m.bus.ram
  | i + 1 => (m.filled dir i).set (dir.moved m.registers.hl i) (m.taken i)

/-- The block at HL as it is taken from devices. -/
def inputs (m : Machine) (dir : Direction) : Transfer where
  byte := m.taken
  index _ := dir.nextByte m.registers.c
  ram := m.filled dir
  sent _ := m.bus.sent

/-- The flags when some bytes have been transferred. -/
def transferFlags (m : Machine) (x : Transfer) : Nat → Flags
  | 0 => m.registers.f
  | k + 1 =>
      blockDeviceFlags (m.registers.b - BitVec.ofNat 8 (k + 1)) (x.byte k)
        ((x.byte k).toNat + (x.index k).toNat)

/-- Bank, memory and what has been sent when some bytes have been transferred. -/
def transferState (m : Machine) (dir : Direction) (x : Transfer) (k : Nat) : BlockState where
  bank :=
    { m.registers.setHl (dir.moved m.registers.hl k) with
      b := m.registers.b - BitVec.ofNat 8 k
      f := m.transferFlags x k }
  ram := x.ram k
  sent := x.sent k

@[simp] theorem hl_transferState (k : Nat) :
    (m.transferState dir x k).bank.hl = dir.moved m.registers.hl k :=
  Word.ofBytes_high_low _

theorem transferState_zero (hram : x.ram 0 = m.bus.ram) (hsent : x.sent 0 = m.bus.sent) :
    m.transferState dir x 0 = m.blockState := by
  have hcount : m.registers.b - BitVec.ofNat 8 0 = m.registers.b := BitVec.sub_zero _
  unfold transferState
  rw [Direction.moved_zero, hcount, Bank.setHl_hl, hram, hsent]
  rfl

/-- A pass of an output sends one more byte. -/
theorem next_outputs (k : Nat) :
    (m.transferState dir (m.outputs dir) k).next .output dir m.bus.devices =
      m.transferState dir (m.outputs dir) (k + 1) := by
  have hsent : (m.outputs dir).sent (k + 1) =
      (m.outputs dir).sent k ++
        [(Word.ofBytes (m.registers.b - BitVec.ofNat 8 (k + 1)) m.registers.c,
          m.bus.ram.get (dir.moved m.registers.hl k))] := by
    unfold outputs
    dsimp only
    rw [List.range_succ, List.map_append, ← List.append_assoc]
    rfl
  have hb : (m.transferState dir (m.outputs dir) k).bank.b - 1 =
      m.registers.b - BitVec.ofNat 8 (k + 1) :=
    sub_ofNat_sub_one m.registers.b k
  unfold BlockState.next
  dsimp only
  rw [hl_transferState, Direction.next_moved, hb]
  conv_rhs => rw [transferState, hsent]
  rfl

/-- A pass of an input takes one more byte. -/
theorem next_inputs (k : Nat) :
    (m.transferState dir (m.inputs dir) k).next .input dir m.bus.devices =
      m.transferState dir (m.inputs dir) (k + 1) := by
  have hb : (m.transferState dir (m.inputs dir) k).bank.b - 1 =
      m.registers.b - BitVec.ofNat 8 (k + 1) :=
    sub_ofNat_sub_one m.registers.b k
  have hvalue : m.bus.devices.get (m.transferState dir (m.inputs dir) k).bank.bc = m.taken k := rfl
  unfold BlockState.next
  dsimp only
  rw [hl_transferState, Direction.next_moved, hb, hvalue]
  rfl

/-- What a repeating transfer does to the machine.  There is a step for each byte, and none
fails. -/
structure TransfersBlock (m : Machine) (dir : Direction) (x : Transfer) : Prop where
  completes : m.CompletesIn m.transferLength
  ram : ∀ k ≤ m.transferLength, (m.afterSteps k).bus.ram = x.ram k
  sent : ∀ k ≤ m.transferLength, (m.afterSteps k).bus.sent = x.sent k
  devices : (m.afterSteps m.transferLength).bus.devices = m.bus.devices
  registers :
    let last := x.byte (m.transferLength - 1)
    let sum := last.toNat + (x.index (m.transferLength - 1)).toNat
    (m.afterSteps m.transferLength).registers =
      { m.registers with
        toBank :=
          { m.registers.setHl (dir.moved m.registers.hl m.transferLength) with
            b := 0
            f :=
              { zero := true
                halfCarry := decide (255 < sum)
                parityOverflow := evenParity (BitVec.ofNat 8 (sum % 8))
                addSubtract := last.msb
                carry := decide (255 < sum) } }
        pc := m.registers.pc + 2
        r := (Registers.refresh^[2 * m.transferLength] m.registers).r }

/-- The flags of a transfer whose counter has come to zero. -/
theorem blockDeviceFlags_zero (value : Byte) (sum : Nat) :
    blockDeviceFlags 0 value sum =
      { zero := true
        halfCarry := decide (255 < sum)
        parityOverflow := evenParity (BitVec.ofNat 8 (sum % 8))
        addSubtract := value.msb
        carry := decide (255 < sum) } := by
  have hindex : BitVec.ofNat 8 (sum % 8) ^^^ 0 = BitVec.ofNat 8 (sum % 8) := BitVec.xor_zero
  unfold blockDeviceFlags
  rw [hindex]
  rfl

theorem transfersBlock (hrunning : m.registers.halted = false)
    (hint : m.interruptPending = false) (hnmi : m.nmiPending = false)
    (hop : op = .input ∨ op = .output) (hram : x.ram 0 = m.bus.ram)
    (hsent : x.sent 0 = m.bus.sent)
    (hcode : ∀ k < m.transferLength,
      (x.ram k).dump m.registers.pc 2 = [0xED, op.opcode dir])
    (hnext : ∀ k, (m.transferState dir x k).next op dir m.bus.devices =
      m.transferState dir x (k + 1)) :
    m.TransfersBlock dir x := by
  have hpos : 0 < m.transferLength := rounds_pos m.registers.b
  have hcontinues (k : Nat) (hk : k < m.transferLength) :
      op.continues (m.transferState dir x (k + 1)).bank = decide (k + 1 ≠ m.transferLength) := by
    have hb : op.continues (m.transferState dir x (k + 1)).bank =
        (m.registers.b - BitVec.ofNat 8 (k + 1) != 0) := by
      rcases hop with rfl | rfl <;> rfl
    rw [hb]
    exact sub_ofNat_bne_zero (Nat.succ_pos k) hk
  have hruns := runsThrough hrunning hint hnmi hpos (transferState_zero hram hsent) hcode
    hnext hcontinues
  refine ⟨hruns.completes, fun k hk => congrArg BlockState.ram (hruns.states k hk),
    fun k hk => congrArg BlockState.sent (hruns.states k hk), hruns.devices,
    hruns.registers.trans ?_⟩
  have hzero : m.registers.b - BitVec.ofNat 8 m.transferLength = 0 :=
    (sub_ofNat_eq_zero_iff hpos (Nat.le_refl _)).mpr rfl
  obtain ⟨k, hk⟩ : ∃ k, m.transferLength = k + 1 := Nat.exists_eq_add_of_le' hpos
  unfold transferState
  rw [hk] at hzero ⊢
  dsimp only [transferFlags]
  rw [hzero, blockDeviceFlags_zero]
  rfl

/-- A repeating transfer moves as many bytes as B counts, in their order.  Nothing that is sent
changes memory; when bytes are taken, the instruction must still be there before each. -/
theorem block_transfer_completes (m : Machine) (dir : Direction)
    (hrunning : m.registers.halted = false) (hint : m.interruptPending = false)
    (hnmi : m.nmiPending = false) :
    (m.bus.ram.dump m.registers.pc 2 = [0xED, BlockOperation.output.opcode dir] →
      m.TransfersBlock dir (m.outputs dir)) ∧
    ((∀ i < m.transferLength,
        (m.filled dir i).dump m.registers.pc 2 = [0xED, BlockOperation.input.opcode dir]) →
      m.TransfersBlock dir (m.inputs dir)) := by
  constructor
  · intro hcode
    exact transfersBlock hrunning hint hnmi (.inr rfl) rfl (List.append_nil _)
      (fun _ _ => hcode) next_outputs
  · intro hcode
    exact transfersBlock hrunning hint hnmi (.inl rfl) rfl rfl hcode next_inputs

/-- A machine that is about to transfer two bytes through device `0x10`, at the end of memory. -/
def transferExample (op : BlockOperation) : Machine where
  registers := { b := 2, c := 0x10, h := 0xFF, l := 0xFF, pc := 0x8000 }
  bus :=
    { ram := (Store.load (.fill 0 16) 0x8000 [0xED, op.opcode .up]).load 0xFFFF [0x12, 0x34]
      devices := (Store.load (.fill 0 16) 0x0210 [0x56]).load 0x0110 [0x78] }

theorem block_transfer_counts_device_down :
    (transferExample .output).CompletesIn 2 ∧
      ((transferExample .output).afterSteps 2).bus.sent = [(0x0110, 0x12), (0x0010, 0x34)] ∧
      (transferExample .input).CompletesIn 2 ∧
      ((transferExample .input).afterSteps 2).bus.ram.dump 0xFFFF 2 = [0x56, 0x78] ∧
      ((transferExample .input).afterSteps 2).registers.b = 0 := by
  have hsend := (block_transfer_completes (transferExample .output) .up rfl rfl rfl).1 (by decide)
  have htake := (block_transfer_completes (transferExample .input) .up rfl rfl rfl).2 (by decide)
  refine ⟨hsend.completes, hsend.sent 2 (by decide), htake.completes, ?_,
    congrArg (·.b) htake.registers⟩
  have hfilled : ((transferExample .input).filled .up 2).dump 0xFFFF 2 = [0x56, 0x78] := by decide
  rw [htake.ram 2 (by decide)]
  exact hfilled

end Machine
end Z80Machine
