import Z80Machine.Proofs.Frames

/-!
# The registers that an instruction writes

The register file falls into parts that are written apart from each other (`Part`).
`Instruction.parts` lists the parts that an instruction may write, and all other parts are
after it what they were before (`part_execute`).  Each operation on registers is given its own
lemma, from which the cases of the instructions are put together.
-/

namespace Z80Machine

/-- The parts of the register file. -/
inductive Part where
  /-- The main bank without the flags. -/
  | main
  | flags
  /-- The accumulator and the flags of the shadow bank. -/
  | shadowAf
  /-- The other six registers of the shadow bank. -/
  | shadowPairs
  | ix
  | iy
  | sp
  | pc
  | i
  | r
  /-- The two interrupt flip-flops. -/
  | iff
  | im
  | halted
  deriving DecidableEq

/-- The part of the register file that a byte register belongs to. -/
def Reg8.part : Reg8 → Part
  | .f => .flags
  | .ixh | .ixl => .ix
  | .iyh | .iyl => .iy
  | .i => .i
  | .r => .r
  | _ => .main

/-- The parts of the register file that a word register covers. -/
def Reg16.parts : Reg16 → List Part
  | .af => [.main, .flags]
  | .bc | .de | .hl => [.main]
  | .af' => [.shadowAf]
  | .bc' | .de' | .hl' => [.shadowPairs]
  | .ix => [.ix]
  | .iy => [.iy]
  | .sp => [.sp]
  | .pc => [.pc]

/-- The part of the register file that a place belongs to, if it is no byte of memory. -/
def Place.parts : Place → List Part
  | .register name => [name.part]
  | .memory _ => []

/-- The parts of the register file that a place and a register that receives a copy belong to. -/
def Place.partsWith (target : Place) (copy : Option Reg8) : List Part :=
  target.parts ++ (copy.map Reg8.part).toList

/-- The parts of the register file that an instruction may write. -/
def Instruction.parts : Instruction → List Part
  | .nop | .idlePrefix | .storeWord .. | .outA _ | .outC _ | .undefined _ => []
  | .ld target _ => target.parts
  | .ldWord target _ | .incWord target | .decWord target | .exStack target => target.parts
  | .storeControl .i => [.i]
  | .storeControl .r => [.r]
  | .operate .. | .adjust _ | .adcWord _ | .sbcWord _ | .rld | .rrd | .loadControl _ =>
      [.main, .flags]
  | .push _ => [.sp]
  | .pop target => .sp :: target.parts
  | .exAf => [.main, .flags, .shadowAf]
  | .exx => [.main, .shadowPairs]
  | .exDeHl | .inA _ => [.main]
  | .inc target | .dec target => .flags :: target.parts
  | .addWord target _ => .flags :: target.parts
  | .shift _ target copy => .flags :: target.partsWith copy
  | .bit .. => [.flags]
  | .res _ target copy | .set _ target copy => target.partsWith copy
  | .jp .. | .jpRegister _ | .jr .. => [.pc]
  | .djnz _ => [.main, .pc]
  | .call .. | .ret _ | .rst _ => [.sp, .pc]
  | .reti | .retn => [.sp, .pc, .iff]
  | .inC target => .flags :: (target.map Reg8.part).toList
  | .block .. => [.main, .flags, .pc]
  | .halt => [.pc, .halted]
  | .di | .ei => [.iff]
  | .im _ => [.im]

namespace Registers

/-- One part of the register file, with zero in all others. -/
def part (s : Registers) : Part → Registers
  | .main => { toBank := { s.toBank with f := {} } }
  | .flags => { f := s.f }
  | .shadowAf => { shadow := { a := s.shadow.a, f := s.shadow.f } }
  | .shadowPairs => { shadow := { s.shadow with a := 0, f := {} } }
  | .ix => { ix := s.ix }
  | .iy => { iy := s.iy }
  | .sp => { sp := s.sp }
  | .pc => { pc := s.pc }
  | .i => { i := s.i }
  | .r => { r := s.r }
  | .iff => { iff1 := s.iff1, iff2 := s.iff2 }
  | .im => { im := s.im }
  | .halted => { halted := s.halted }

variable (s : Registers) {q : Part}

theorem part_write8 (name : Reg8) (value : Byte) (h : q ≠ name.part) :
    (s.write8 name value).part q = s.part q := by
  cases name <;> cases q <;> first | rfl | exact absurd rfl h

theorem part_writePair (name : Reg16) (value : Word) (h : q ∉ name.parts) :
    (s.writePair name value).part q = s.part q := by
  cases name <;> cases q <;> first | rfl | exact absurd (by decide) h

end Registers

namespace Machine

variable (m : Machine) {q : Part}

/-! ### Operations -/

theorem part_setFlags (f : Flags) (h : q ≠ .flags) :
    (m.setFlags f).registers.part q = m.registers.part q := by
  cases q with
  | flags => exact absurd rfl h
  | _ => rfl

theorem part_setResult (r : Arithmetic.Result) (h : q ∉ [.main, .flags]) :
    (m.setResult r).registers.part q = m.registers.part q := by
  cases q with
  | main | flags => simp at h
  | _ => rfl

theorem part_put (target : Place) (value : Byte) (h : q ∉ target.parts) :
    (m.put target value).registers.part q = m.registers.part q := by
  cases target with
  | register name => exact m.registers.part_write8 name value (List.ne_of_not_mem_cons h)
  | memory a => rfl

theorem part_putBoth (target : Place) (copy : Option Reg8) (value : Byte)
    (h : q ∉ target.partsWith copy) :
    (m.putBoth target copy value).registers.part q = m.registers.part q := by
  have htarget := part_put m target value fun hmem => h (List.mem_append_left _ hmem)
  cases copy with
  | none => exact htarget
  | some name =>
      refine Eq.trans (Registers.part_write8 _ name value ?_) htarget
      exact fun heq => h (heq ▸ List.mem_append_right _ (.head _))

theorem part_jump (address : Word) (h : q ≠ .pc) :
    (m.jump address).registers.part q = m.registers.part q := by
  cases q with
  | pc => exact absurd rfl h
  | _ => rfl

theorem part_push (value : Word) (h : q ≠ .sp) :
    (m.push value).registers.part q = m.registers.part q := by
  cases q with
  | sp => exact absurd rfl h
  | _ => rfl

theorem part_pop (h : q ≠ .sp) : m.pop.2.registers.part q = m.registers.part q := by
  cases q with
  | sp => exact absurd rfl h
  | _ => rfl

theorem part_call (address : Word) (h : q ∉ [.sp, .pc]) :
    (m.call address).registers.part q = m.registers.part q := by
  cases q with
  | sp | pc => simp at h
  | _ => rfl

theorem part_ret (h : q ∉ [.sp, .pc]) : m.ret.registers.part q = m.registers.part q := by
  cases q with
  | sp | pc => simp at h
  | _ => rfl

theorem part_countDown (d : Byte) (h : q ∉ [.main, .pc]) :
    (m.countDown d).2.registers.part q = m.registers.part q := by
  unfold countDown
  dsimp only
  cases q with
  | main | pc => simp at h
  | _ => split <;> rfl

theorem part_repeatIf (again : Bool) (h : q ≠ .pc) :
    (m.repeatIf again).registers.part q = m.registers.part q := by
  cases again with
  | false => rfl
  | true => exact part_jump m _ h

/-- A block instruction counts and moves in the main bank. -/
theorem part_block (op : BlockOperation) (dir : Direction) (repeats : Bool)
    (h : q ∉ [.main, .flags, .pc]) :
    (m.block op dir repeats).registers.part q = m.registers.part q := by
  have hpc : q ≠ .pc := by
    rintro rfl
    simp at h
  cases op <;>
    refine (part_repeatIf _ _ hpc).trans ?_ <;>
    cases q with
    | main | flags | pc => simp at h
    | _ => rfl

/-! ### Instructions -/

/-- An instruction leaves alone the parts of the register file that it is not made to write. -/
theorem part_execute (i : Instruction) (h : q ∉ i.parts) :
    (m.execute i).registers.part q = m.registers.part q := by
  -- an operand is taken without a change of registers
  cases i with
  | nop | idlePrefix | storeWord | outA | undefined => rfl
  | outC source => cases source <;> rfl
  | ld target source =>
      exact (part_put _ target _ h).trans (congrArg (·.part q) (registers_takeSource m source))
  | ldWord target source =>
      exact (Registers.part_writePair _ target _ h).trans
        (congrArg (·.part q) (registers_takeWord m source))
  | incWord target | decWord target => exact m.registers.part_writePair target _ h
  | exStack target => exact m.registers.part_writePair target _ h
  | storeControl target =>
      cases target with
      | i =>
          cases q with
          | i => exact absurd (.head _) h
          | _ => rfl
      | r =>
          cases q with
          | r => exact absurd (.head _) h
          | _ => rfl
  | operate op source =>
      exact (part_setResult _ _ h).trans (congrArg (·.part q) (registers_takeSource m source))
  | adjust | loadControl => exact part_setResult m _ h
  | rld | rrd => exact part_setResult _ _ h
  | adcWord source | sbcWord source =>
      cases q with
      | main | flags => simp [Instruction.parts] at h
      | _ => rfl
  | push source => exact part_push m _ (List.ne_of_not_mem_cons h)
  | pop target =>
      exact (Registers.part_writePair _ target _ (List.not_mem_of_not_mem_cons h)).trans
        (part_pop m (List.ne_of_not_mem_cons h))
  | exAf =>
      cases q with
      | main | flags | shadowAf => simp [Instruction.parts] at h
      | _ => rfl
  | exx =>
      cases q with
      | main | shadowPairs => simp [Instruction.parts] at h
      | _ => rfl
  | exDeHl | inA =>
      cases q with
      | main => exact absurd (.head _) h
      | _ => rfl
  | inc target | dec target =>
      exact (part_setFlags _ _ (List.ne_of_not_mem_cons h)).trans
        ((part_put _ target _ (List.not_mem_of_not_mem_cons h)).trans
          (congrArg (·.part q) (registers_take m target)))
  | addWord target source =>
      exact (part_setFlags _ _ (List.ne_of_not_mem_cons h)).trans
        (m.registers.part_writePair target _ (List.not_mem_of_not_mem_cons h))
  | shift op target copy =>
      exact (part_setFlags _ _ (List.ne_of_not_mem_cons h)).trans
        ((part_putBoth _ target copy _ (List.not_mem_of_not_mem_cons h)).trans
          (congrArg (·.part q) (registers_take m target)))
  | bit n target =>
      exact (part_setFlags _ _ (List.ne_of_not_mem_cons h)).trans
        (congrArg (·.part q) (registers_take m target))
  | res n target copy | set n target copy =>
      exact (part_putBoth _ target copy _ h).trans (congrArg (·.part q) (registers_take m target))
  | jp cond address =>
      show (m.jumpIf cond address).registers.part q = _
      unfold jumpIf
      split
      · exact part_jump m address (List.ne_of_not_mem_cons h)
      · rfl
  | jpRegister source => exact part_jump m _ (List.ne_of_not_mem_cons h)
  | jr cond d =>
      show (m.jumpRelativeIf cond d).registers.part q = _
      unfold jumpRelativeIf
      split
      · exact part_jump m _ (List.ne_of_not_mem_cons h)
      · rfl
  | djnz d => exact part_countDown m d h
  | call cond address =>
      show (m.callIf cond address).registers.part q = _
      unfold callIf
      split
      · exact part_call m address h
      · rfl
  | ret cond =>
      show (m.retIf cond).registers.part q = _
      unfold retIf
      split
      · exact part_ret m h
      · rfl
  | rst vector => exact part_call m _ h
  | reti | retn =>
      cases q with
      | sp | pc | iff => simp [Instruction.parts] at h
      | _ => rfl
  | inC target =>
      cases target with
      | none => exact part_setFlags _ _ (List.ne_of_not_mem_cons h)
      | some name =>
          exact (part_setFlags _ _ (List.ne_of_not_mem_cons h)).trans
            (Registers.part_write8 _ name _
              (List.ne_of_not_mem_cons (List.not_mem_of_not_mem_cons h)))
  | block op dir repeats => exact part_block m op dir repeats h
  | halt =>
      cases q with
      | pc | halted => simp [Instruction.parts] at h
      | _ => rfl
  | di | ei =>
      cases q with
      | iff => exact absurd (.head _) h
      | _ => rfl
  | im mode =>
      cases q with
      | im => exact absurd (.head _) h
      | _ => rfl

end Machine
end Z80Machine
