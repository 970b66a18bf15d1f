import Z80Machine.Proofs.Entries

/-!
# Machines that execute alike

Two machines are `Alike` if an instruction can tell them apart only by the counter R and by
bytes of memory outside a given set of addresses.  They stay alike when they execute the
same instruction, as long as it reads no address outside the set and does not look at R
(`Alike.execute`): they use the bus in the same way and come to the same registers.  Each
operation keeps two machines alike if it is given equal values in both.
-/

namespace Z80Machine
namespace Machine

/-- Whatever the second machine has read from memory since it was the first is at an address
in `S`. -/
def ReadsWithin (S : Set Word) (m m' : Machine) : Prop :=
  ∀ added, m'.bus.history = added ++ m.bus.history →
    ∀ address value, .read address value ∈ added → address ∈ S

/-- Two machines with equal registers but for R, equal devices, the same bytes at the addresses
in `S`, and histories that have grown in the same way from `start` and `start'`. -/
structure Alike (S : Set Word) (start start' : List Access) (m m' : Machine) : Prop where
  registers : ∃ r, m.registers = { m'.registers with r }
  enableDelay : m.enableDelay = m'.enableDelay
  devices : m.bus.devices = m'.bus.devices
  ram : ∀ a ∈ S, m.bus.ram.get a = m'.bus.ram.get a
  history : ∃ added, m.bus.history = added ++ start ∧ m'.bus.history = added ++ start'

variable {S : Set Word} {start start' : List Access} {m m' m'' : Machine}

namespace ReadsWithin

/-- What has been read up to some point. -/
theorem before (h : ReadsWithin S m m'') (hext : m'.Extends m'') : ReadsWithin S m m' := by
  obtain ⟨more, hmore⟩ := hext.history
  intro added hadded address value hmem
  refine h (more ++ added) ?_ address value (List.mem_append_right more hmem)
  rw [← hmore, hadded, List.append_assoc]

/-- What has been read from some point on. -/
theorem after (h : ReadsWithin S m m'') (hext : m.Extends m') : ReadsWithin S m' m'' := by
  obtain ⟨more, hmore⟩ := hext.history
  intro added hadded address value hmem
  refine h (added ++ more) ?_ address value (List.mem_append_left more hmem)
  rw [hadded, ← hmore, List.append_assoc]

theorem mem_of_read {address : Word} (h : ReadsWithin S m (m.read address).2) : address ∈ S :=
  h [.read address _] rfl address _ List.mem_cons_self

end ReadsWithin

namespace Alike

variable (h : Alike S start start' m m')

include h

/-! ### Equal values -/

theorem bank : m.registers.toBank = m'.registers.toBank := by
  obtain ⟨r, hr⟩ := h.registers
  rw [hr]

theorem sp : m.registers.sp = m'.registers.sp := by
  obtain ⟨r, hr⟩ := h.registers
  rw [hr]

theorem pc : m.registers.pc = m'.registers.pc := by
  obtain ⟨r, hr⟩ := h.registers
  rw [hr]

theorem iff2 : m.registers.iff2 = m'.registers.iff2 := by
  obtain ⟨r, hr⟩ := h.registers
  rw [hr]

/-- A byte register that an encoding can name is not R. -/
theorem read8 {name : Reg8} (hname : name.isMain = true) :
    m.registers.read8 name = m'.registers.read8 name := by
  obtain ⟨r, hr⟩ := h.registers
  rw [hr]
  cases name with
  | r => exact absurd hname Bool.noConfusion
  | _ => rfl

theorem readPair (name : Reg16) : m.registers.readPair name = m'.registers.readPair name := by
  obtain ⟨r, hr⟩ := h.registers
  rw [hr]
  cases name <;> rfl

theorem resolve (a : Address) : m.resolve a = m'.resolve a := by
  cases a with
  | pair name => exact h.readPair name
  | indexed x d => exact congrArg (Word.offset · d) (h.readPair x.register)
  | direct address => rfl

theorem testSource (target : Place) {value value' : Byte}
    (hvalue : value = value') : m.testSource target value = m'.testSource target value' := by
  cases target with
  | register name => exact hvalue
  | memory a => exact congrArg Word.high (h.resolve a)

theorem control (source : ControlRegister) (hr : source = .r → m.registers.r = m'.registers.r) :
    m.control source = m'.control source := by
  cases source with
  | i =>
      obtain ⟨r, hr⟩ := h.registers
      show m.registers.i = m'.registers.i
      rw [hr]
  | r => exact hr rfl

theorem meets (cond : Option Condition) : m.meets cond = m'.meets cond := by
  cases cond with
  | none => rfl
  | some cond => exact congrArg (cond.holds ·.f) h.bank

/-! ### Registers -/

/-- A change of registers that does not look at R. -/
theorem update (f : Registers → Registers)
    (hf : ∀ s r, ∃ r', f { s with r } = { f s with r := r' }) :
    Alike S start start' { m with registers := f m.registers }
      { m' with registers := f m'.registers } := by
  obtain ⟨r, hr⟩ := h.registers
  refine ⟨?_, h.enableDelay, h.devices, h.ram, h.history⟩
  dsimp only
  rw [hr]
  exact hf m'.registers r

theorem setRegister (name : Reg8) {value value' : Byte} (hvalue : value = value') :
    Alike S start start' (m.setRegister name value) (m'.setRegister name value') := by
  subst hvalue
  apply h.update (·.write8 name value)
  intro s r
  cases name <;> exact ⟨_, rfl⟩

theorem setPair (name : Reg16) {value value' : Word} (hvalue : value = value') :
    Alike S start start' (m.setPair name value) (m'.setPair name value') := by
  subst hvalue
  apply h.update (·.writePair name value)
  intro s r
  cases name <;> exact ⟨_, rfl⟩

theorem setFlags {f f' : Flags} (hf : f = f') :
    Alike S start start' (m.setFlags f) (m'.setFlags f') := by
  subst hf
  exact h.update (fun s => { s with f }) fun s r => ⟨r, rfl⟩

theorem setResult {result result' : Arithmetic.Result} (hresult : result = result') :
    Alike S start start' (m.setResult result) (m'.setResult result') := by
  subst hresult
  exact h.update (fun s => { s with a := result.value, f := result.flags }) fun s r => ⟨r, rfl⟩

theorem jump {address address' : Word} (haddress : address = address') :
    Alike S start start' (m.jump address) (m'.jump address') := by
  subst haddress
  exact h.update (fun s => { s with pc := address }) fun s r => ⟨r, rfl⟩

/-! ### Memory and devices -/

/-- An access that is added to both histories. -/
theorem record {access access' : Access} (haccess : access = access') :
    Alike S start start' { m with bus := m.bus.record access }
      { m' with bus := m'.bus.record access' } := by
  subst haccess
  obtain ⟨added, hm, hm'⟩ := h.history
  exact ⟨h.registers, h.enableDelay, h.devices, h.ram,
    access :: added, congrArg (access :: ·) hm, congrArg (access :: ·) hm'⟩

theorem read {address address' : Word}
    (haddress : address = address') (hreads : ReadsWithin S m (m.read address).2) :
    (m.read address).1 = (m'.read address').1 ∧
      Alike S start start' (m.read address).2 (m'.read address').2 := by
  subst haddress
  have hvalue := h.ram address hreads.mem_of_read
  exact ⟨hvalue, h.record (congrArg (Access.read address) hvalue)⟩

theorem write {address address' : Word} {value value' : Byte}
    (haddress : address = address') (hvalue : value = value') :
    Alike S start start' (m.write address value) (m'.write address' value') := by
  subst haddress hvalue
  have hwritten : Alike S start start'
      { m with bus.ram := m.bus.ram.set address value }
      { m' with bus.ram := m'.bus.ram.set address value } := by
    refine ⟨h.registers, h.enableDelay, h.devices, ?_, h.history⟩
    intro a ha
    dsimp only
    rw [Cells.get_set, Cells.get_set, h.ram a ha]
  exact hwritten.record rfl

theorem input {device device' : Word} (hdevice : device = device') :
    (m.input device).1 = (m'.input device').1 ∧
      Alike S start start' (m.input device).2 (m'.input device').2 := by
  subst hdevice
  have hvalue : m.bus.devices.get device = m'.bus.devices.get device := by rw [h.devices]
  exact ⟨hvalue, h.record (congrArg (Access.input device) hvalue)⟩

theorem output {device device' : Word} {value value' : Byte}
    (hdevice : device = device') (hvalue : value = value') :
    Alike S start start' (m.output device value) (m'.output device' value') := by
  subst hdevice hvalue
  exact h.record rfl

theorem readWord {address address' : Word}
    (haddress : address = address') (hreads : ReadsWithin S m (m.readWord address).2) :
    (m.readWord address).1 = (m'.readWord address').1 ∧
      Alike S start start' (m.readWord address).2 (m'.readWord address').2 := by
  obtain ⟨hlow, h⟩ := h.read haddress (hreads.before (extends_read _ _))
  obtain ⟨hhigh, h⟩ := h.read (congrArg (· + 1) haddress) (hreads.after (extends_read _ _))
  exact ⟨congrArg₂ Word.ofBytes hhigh hlow, h⟩

theorem writeWord {address address' value value' : Word}
    (haddress : address = address') (hvalue : value = value') :
    Alike S start start' (m.writeWord address value) (m'.writeWord address' value') :=
  (h.write haddress (congrArg Word.low hvalue)).write (congrArg (· + 1) haddress)
    (congrArg Word.high hvalue)

/-! ### The stack -/

theorem push {value value' : Word} (hvalue : value = value') :
    Alike S start start' (m.push value) (m'.push value') := by
  have h := h.update (fun s => { s with sp := s.sp - 1 }) fun s r => ⟨r, rfl⟩
  have h := h.write h.sp (congrArg Word.high hvalue)
  have h := h.update (fun s => { s with sp := s.sp - 1 }) fun s r => ⟨r, rfl⟩
  exact h.write h.sp (congrArg Word.low hvalue)

theorem pop (hreads : ReadsWithin S m m.pop.2) :
    m.pop.1 = m'.pop.1 ∧ Alike S start start' m.pop.2 m'.pop.2 := by
  obtain ⟨hlow, h⟩ := h.read h.sp
    (hreads.before ((Extends.registers _ _).trans ((extends_read _ _).then_registers _)))
  have h := h.update (fun s => { s with sp := s.sp + 1 }) fun s r => ⟨r, rfl⟩
  obtain ⟨hhigh, h⟩ := h.read h.sp
    ((hreads.after ((extends_read _ _).then_registers _)).before (.registers _ _))
  exact ⟨congrArg₂ Word.ofBytes hhigh hlow,
    h.update (fun s => { s with sp := s.sp + 1 }) fun s r => ⟨r, rfl⟩⟩

theorem call {address address' : Word} (haddress : address = address') :
    Alike S start start' (m.call address) (m'.call address') :=
  (h.push h.pc).jump haddress

theorem ret (hreads : ReadsWithin S m m.ret) : Alike S start start' m.ret m'.ret := by
  obtain ⟨haddress, h⟩ := h.pop (hreads.before (.registers _ _))
  exact h.jump haddress

/-! ### Operands -/

theorem take {p : Place} (hnames : ∀ name ∈ p.name?.toList, name.isMain = true)
    (hreads : ReadsWithin S m (m.take p).2) :
    (m.take p).1 = (m'.take p).1 ∧ Alike S start start' (m.take p).2 (m'.take p).2 := by
  cases p with
  | register name => exact ⟨h.read8 (hnames name List.mem_cons_self), h⟩
  | memory a => exact h.read (h.resolve a) hreads

theorem put (p : Place) {value value' : Byte}
    (hvalue : value = value') : Alike S start start' (m.put p value) (m'.put p value') := by
  cases p with
  | register name => exact h.setRegister name hvalue
  | memory a => exact h.write (h.resolve a) hvalue

theorem putBoth (p : Place) (copy : Option Reg8) {value value' : Byte} (hvalue : value = value') :
    Alike S start start' (m.putBoth p copy value) (m'.putBoth p copy value') := by
  cases copy with
  | none => exact h.put p hvalue
  | some name => exact (h.put p hvalue).setRegister name hvalue

theorem takeSource {s : Source} (hnames : ∀ name ∈ s.name?.toList, name.isMain = true)
    (hreads : ReadsWithin S m (m.takeSource s).2) :
    (m.takeSource s).1 = (m'.takeSource s).1 ∧
      Alike S start start' (m.takeSource s).2 (m'.takeSource s).2 := by
  cases s with
  | place p => exact h.take hnames hreads
  | immediate value => exact ⟨rfl, h⟩

theorem takeWord {s : WordSource} (hreads : ReadsWithin S m (m.takeWord s).2) :
    (m.takeWord s).1 = (m'.takeWord s).1 ∧
      Alike S start start' (m.takeWord s).2 (m'.takeWord s).2 := by
  cases s with
  | register name => exact ⟨h.readPair name, h⟩
  | immediate value => exact ⟨rfl, h⟩
  | memory address => exact h.readWord rfl hreads

theorem rotateDigits (rotate : Byte → Byte → Flags → Arithmetic.DigitRotation)
    (hreads : ReadsWithin S m (m.rotateDigits rotate)) :
    Alike S start start' (m.rotateDigits rotate) (m'.rotateDigits rotate) := by
  obtain ⟨hvalue, h⟩ := h.read (congrArg Bank.hl h.bank)
    (hreads.before ((extends_write _ _ _).then_registers _))
  have hresult := congrArg₂ (fun (k : Bank) value => rotate k.a value k.f) h.bank hvalue
  have h := h.write (congrArg Bank.hl h.bank) (congrArg (·.memory) hresult)
  exact h.setResult (congrArg (fun r => Arithmetic.Result.mk r.accumulator r.flags) hresult)

/-! ### Transfer of control -/

theorem jumpIf (cond : Option Condition) (address : Word) :
    Alike S start start' (m.jumpIf cond address) (m'.jumpIf cond address) := by
  unfold Machine.jumpIf
  rw [h.meets cond]
  split
  · exact h.jump rfl
  · exact h

theorem jumpRelative (d : Byte) : Alike S start start' (m.jumpRelative d) (m'.jumpRelative d) :=
  h.jump (congrArg (Word.offset · d) h.pc)

theorem jumpRelativeIf (cond : Option Condition) (d : Byte) :
    Alike S start start' (m.jumpRelativeIf cond d) (m'.jumpRelativeIf cond d) := by
  unfold Machine.jumpRelativeIf
  rw [h.meets cond]
  split
  · exact h.jumpRelative d
  · exact h

theorem callIf (cond : Option Condition) (address : Word) :
    Alike S start start' (m.callIf cond address) (m'.callIf cond address) := by
  unfold Machine.callIf
  rw [h.meets cond]
  split
  · exact h.call rfl
  · exact h

theorem retIf (cond : Option Condition) (hreads : ReadsWithin S m (m.retIf cond)) :
    Alike S start start' (m.retIf cond) (m'.retIf cond) := by
  unfold Machine.retIf at hreads ⊢
  rw [← h.meets cond]
  by_cases hmeets : m.meets cond = true
  · rw [if_pos hmeets] at hreads ⊢
    rw [if_pos hmeets]
    exact h.ret hreads
  · rw [if_neg hmeets, if_neg hmeets]
    exact h

theorem countDown (d : Byte) : Alike S start start' (m.countDown d).2 (m'.countDown d).2 := by
  have h := h.update (fun s => { s with b := s.b - 1 }) fun s r => ⟨r, rfl⟩
  have hb : m.registers.b - 1 = m'.registers.b - 1 := congrArg Bank.b h.bank
  unfold Machine.countDown
  dsimp only
  by_cases hzero : (m'.registers.b - 1 == 0) = true
  · rw [if_pos hzero, if_pos (hb.symm ▸ hzero)]
    exact h
  · rw [if_neg hzero, if_neg (hb.symm ▸ hzero)]
    exact h.jumpRelative d

/-! ### Blocks -/

theorem repeatIf {again again' : Bool} (hagain : again = again') :
    Alike S start start' (m.repeatIf again) (m'.repeatIf again') := by
  subst hagain
  cases again with
  | true => exact h.update (fun s => { s with pc := s.pc - 2 }) fun s r => ⟨r, rfl⟩
  | false => exact h

theorem blockLoad (dir : Direction) (repeats : Bool)
    (hreads : ReadsWithin S m (m.blockLoad dir repeats)) :
    Alike S start start' (m.blockLoad dir repeats) (m'.blockLoad dir repeats) := by
  obtain ⟨hvalue, h⟩ := h.read (congrArg Bank.hl h.bank)
    (hreads.before (((extends_write _ _ _).then_registers _).trans (extends_repeatIf _ _)))
  unfold Machine.blockLoad
  generalize m.read m.registers.hl = taken at hvalue h
  generalize m'.read m'.registers.hl = taken' at hvalue h
  dsimp only
  have h := h.write (congrArg Bank.de h.bank) hvalue
  have h := h.setPair .hl (congrArg (dir.next ·.hl) h.bank)
  have h := h.setPair .de (congrArg (dir.next ·.de) h.bank)
  have h := h.setPair .bc (congrArg (·.bc - 1) h.bank)
  refine (h.setFlags ?_).repeatIf ?_
  · rw [h.bank, hvalue]
  · rw [h.bank]

theorem blockCompare (dir : Direction) (repeats : Bool)
    (hreads : ReadsWithin S m (m.blockCompare dir repeats)) :
    Alike S start start' (m.blockCompare dir repeats) (m'.blockCompare dir repeats) := by
  obtain ⟨hvalue, h⟩ := h.read (congrArg Bank.hl h.bank)
    (hreads.before ((Extends.registers _ _).trans (extends_repeatIf _ _)))
  unfold Machine.blockCompare
  generalize m.read m.registers.hl = taken at hvalue h
  generalize m'.read m'.registers.hl = taken' at hvalue h
  dsimp only
  have hbefore := h.bank
  have h := h.setPair .hl (congrArg (dir.next ·.hl) h.bank)
  have h := h.setPair .bc (congrArg (·.bc - 1) h.bank)
  refine (h.setFlags ?_).repeatIf ?_
  · rw [h.bank, hbefore, hvalue]
  · rw [h.bank, hbefore, hvalue]

theorem blockInput (dir : Direction) (repeats : Bool) :
    Alike S start start' (m.blockInput dir repeats) (m'.blockInput dir repeats) := by
  obtain ⟨hvalue, h⟩ := h.input (congrArg Bank.bc h.bank)
  unfold Machine.blockInput
  generalize m.input m.registers.bc = taken at hvalue h
  generalize m'.input m'.registers.bc = taken' at hvalue h
  dsimp only
  have h := h.write (congrArg Bank.hl h.bank) hvalue
  have hbefore := h.bank
  have h := h.update (fun s => { s with b := s.b - 1 }) fun s r => ⟨r, rfl⟩
  have h := h.setPair .hl (congrArg (dir.next ·.hl) h.bank)
  have hagain := congrArg (fun k : Bank => repeats && k.b != 0) h.bank
  refine (h.setFlags ?_).repeatIf hagain
  rw [h.bank, hbefore, hvalue]

theorem blockOutput (dir : Direction) (repeats : Bool)
    (hreads : ReadsWithin S m (m.blockOutput dir repeats)) :
    Alike S start start' (m.blockOutput dir repeats) (m'.blockOutput dir repeats) := by
  obtain ⟨hvalue, h⟩ := h.read (congrArg Bank.hl h.bank)
    (hreads.before ((((Extends.registers _ _).trans
      (extends_output _ _ _)).then_registers _).trans (extends_repeatIf _ _)))
  unfold Machine.blockOutput
  generalize m.read m.registers.hl = taken at hvalue h
  generalize m'.read m'.registers.hl = taken' at hvalue h
  dsimp only
  have h := h.update (fun s => { s with b := s.b - 1 }) fun s r => ⟨r, rfl⟩
  have h := h.output (congrArg Bank.bc h.bank) hvalue
  have h := h.setPair .hl (congrArg (dir.next ·.hl) h.bank)
  have hagain := congrArg (fun k : Bank => repeats && k.b != 0) h.bank
  refine (h.setFlags ?_).repeatIf hagain
  rw [h.bank, hvalue]

theorem block (op : BlockOperation) (dir : Direction)
    (repeats : Bool) (hreads : ReadsWithin S m (m.block op dir repeats)) :
    Alike S start start' (m.block op dir repeats) (m'.block op dir repeats) := by
  cases op with
  | load => exact h.blockLoad dir repeats hreads
  | compare => exact h.blockCompare dir repeats hreads
  | input => exact h.blockInput dir repeats
  | output => exact h.blockOutput dir repeats hreads

/-! ### Instructions -/

/-- Machines that are alike execute an instruction alike if it reads no address beyond those
on which they agree, and does not look at a register in which they differ. -/
theorem execute {i : Instruction} (hnames : ∀ name ∈ i.byteNames, name.isMain = true)
    (hr : i = .loadControl .r → m.registers.r = m'.registers.r)
    (hreads : ReadsWithin S m (m.execute i)) :
    Alike S start start' (m.execute i) (m'.execute i) := by
  -- the operand is taken first, and what follows is computed from equal values
  cases i with
  | nop | idlePrefix | undefined => exact h
  | ld target source =>
      obtain ⟨hvalue, h⟩ := h.takeSource (s := source)
        (List.forall_mem_append.mp hnames).2
        (hreads.before (extends_put _ target _))
      exact h.put target hvalue
  | ldWord target source =>
      obtain ⟨hvalue, h⟩ := h.takeWord (s := source) (hreads.before (.registers _ _))
      exact h.setPair target hvalue
  | storeWord address source => exact h.writeWord rfl (h.readPair source)
  | storeControl target =>
      cases target with
      | i => exact h.update (fun s => { s with i := s.a }) fun s r => ⟨r, rfl⟩
      | r => exact h.update (fun s => { s with r := s.a }) fun s r => ⟨s.a, rfl⟩
  | loadControl source =>
      have hvalue := h.control source fun hsource => hr (congrArg _ hsource)
      refine h.setResult ?_
      rw [hvalue, h.iff2, h.bank]
  | push source => exact h.push (h.readPair source)
  | pop target =>
      obtain ⟨hvalue, h⟩ := h.pop (hreads.before (.registers _ _))
      exact h.setPair target hvalue
  | exAf => exact h.update Registers.exchangeAf fun s r => ⟨r, rfl⟩
  | exx => exact h.update Registers.exchangeShadow fun s r => ⟨r, rfl⟩
  | exDeHl => exact h.update Registers.exchangeDeHl fun s r => ⟨r, rfl⟩
  | exStack name =>
      obtain ⟨hvalue, h⟩ := h.readWord h.sp
        (hreads.before ((extends_writeWord _ _ _).then_registers _))
      exact (h.writeWord h.sp (h.readPair name)).setPair name hvalue
  | operate op source =>
      obtain ⟨hvalue, h⟩ := h.takeSource (s := source) hnames
        (hreads.before (.registers _ _))
      exact h.setResult
        (congrArg₂ (fun value (k : Bank) => op.apply k.a value k.f) hvalue h.bank)
  | inc target =>
      obtain ⟨hvalue, h⟩ := h.take (p := target) hnames
        (hreads.before ((extends_put _ target _).then_registers _))
      have hresult := congrArg₂ Arithmetic.incByte hvalue (congrArg Bank.f h.bank)
      have h := h.put target (congrArg (·.value) hresult)
      exact h.setFlags (congrArg (·.flags) hresult)
  | dec target =>
      obtain ⟨hvalue, h⟩ := h.take (p := target) hnames
        (hreads.before ((extends_put _ target _).then_registers _))
      have hresult := congrArg₂ Arithmetic.decByte hvalue (congrArg Bank.f h.bank)
      have h := h.put target (congrArg (·.value) hresult)
      exact h.setFlags (congrArg (·.flags) hresult)
  | adjust op => exact h.setResult (congrArg (fun k : Bank => op.apply k.a k.f) h.bank)
  | addWord target source =>
      have hsum := congrArg₂ Arithmetic.addWord (h.readPair target) (h.readPair source)
      have hresult := congr hsum (congrArg Bank.f h.bank)
      have h := h.setPair target (congrArg (·.value) hresult)
      exact h.setFlags (congrArg (·.flags) hresult)
  | adcWord source =>
      have hresult := congrArg₂
        (fun (k : Bank) value => Arithmetic.addCarryWord k.hl value k.f.carry)
        h.bank (h.readPair source)
      have h := h.setPair .hl (congrArg (·.value) hresult)
      exact h.setFlags (congrArg (·.flags) hresult)
  | sbcWord source =>
      have hresult := congrArg₂
        (fun (k : Bank) value => Arithmetic.subBorrowWord k.hl value k.f.carry)
        h.bank (h.readPair source)
      have h := h.setPair .hl (congrArg (·.value) hresult)
      exact h.setFlags (congrArg (·.flags) hresult)
  | incWord target => exact h.setPair target (congrArg (· + 1) (h.readPair target))
  | decWord target => exact h.setPair target (congrArg (· - 1) (h.readPair target))
  | shift op target copy =>
      obtain ⟨hvalue, h⟩ := h.take (p := target)
        (List.forall_mem_append.mp hnames).1
        (hreads.before ((extends_putBoth _ target copy _).then_registers _))
      have hresult := congrArg₂ (Arithmetic.shift op) hvalue (congrArg Bank.f h.bank)
      have h := h.putBoth target copy (congrArg (·.value) hresult)
      exact h.setFlags (congrArg (·.flags) hresult)
  | bit n target =>
      obtain ⟨hvalue, h⟩ := h.take (p := target) hnames
        (hreads.before (.registers _ _))
      have htest := congrArg₂ (Arithmetic.testBit n) hvalue (congrArg Bank.f h.bank)
      exact h.setFlags (congr htest (h.testSource target hvalue))
  | res n target copy =>
      obtain ⟨hvalue, h⟩ := h.take (p := target)
        (List.forall_mem_append.mp hnames).1
        (hreads.before (extends_putBoth _ target copy _))
      exact h.putBoth target copy (congrArg (Arithmetic.resetBit n) hvalue)
  | set n target copy =>
      obtain ⟨hvalue, h⟩ := h.take (p := target)
        (List.forall_mem_append.mp hnames).1
        (hreads.before (extends_putBoth _ target copy _))
      exact h.putBoth target copy (congrArg (Arithmetic.setBit n) hvalue)
  | rld | rrd => exact h.rotateDigits _ hreads
  | jp cond address => exact h.jumpIf cond address
  | jpRegister source => exact h.jump (h.readPair source)
  | jr cond d => exact h.jumpRelativeIf cond d
  | djnz d => exact h.countDown d
  | call cond address => exact h.callIf cond address
  | ret cond => exact h.retIf cond hreads
  | rst vector => exact h.call rfl
  | reti =>
      exact (h.ret (hreads.before (.registers _ _))).update (fun s => { s with iff1 := true })
        fun s r => ⟨r, rfl⟩
  | retn =>
      exact (h.ret (hreads.before (.registers _ _))).update (fun s => { s with iff1 := s.iff2 })
        fun s r => ⟨r, rfl⟩
  | inA device =>
      obtain ⟨hvalue, h⟩ := h.input (congrArg (fun k : Bank => Word.ofBytes k.a device) h.bank)
      exact h.setRegister .a hvalue
  | outA device =>
      exact h.output (congrArg (fun k : Bank => Word.ofBytes k.a device) h.bank)
        (congrArg Bank.a h.bank)
  | inC target =>
      obtain ⟨hvalue, h⟩ := h.input (congrArg Bank.bc h.bank)
      cases target with
      | none =>
          exact h.setFlags
            (congrArg₂ (fun value (k : Bank) => k.f.update value loadUpdate) hvalue h.bank)
      | some name =>
          have h := h.setRegister name hvalue
          exact h.setFlags
            (congrArg₂ (fun value (k : Bank) => k.f.update value loadUpdate) hvalue h.bank)
  | outC source =>
      cases source with
      | none => exact h.output (congrArg Bank.bc h.bank) rfl
      | some name =>
          exact h.output (congrArg Bank.bc h.bank) (h.read8 (hnames name List.mem_cons_self))
  | block op dir repeats => exact h.block op dir repeats hreads
  | halt =>
      exact h.update (fun s => { s with halted := true, pc := s.pc - 1 }) fun s r => ⟨r, rfl⟩
  | di => exact h.update (fun s => { s with iff1 := false, iff2 := false }) fun s r => ⟨r, rfl⟩
  | ei =>
      have h := h.update (fun s => { s with iff1 := true, iff2 := true }) fun s r => ⟨r, rfl⟩
      exact ⟨h.registers, rfl, h.devices, h.ram, h.history⟩
  | im mode =>
      exact h.update (fun s => { s with im := BitVec.ofNat 8 mode.val }) fun s r => ⟨r, rfl⟩

end Alike
end Machine
end Z80Machine
