import Z80Machine.Proofs.Footprint

/-!
# The word registers that encodings name

The encoding tables name no word register but those of the main bank, the index registers and the
stack pointer, be it as a target or as a source (`isMain_of_mem_wordNames`).  The program counter
in particular is no operand of any instruction.
-/

namespace Z80Machine

/-- The word register that a source is, if it is one. -/
def WordSource.name? : WordSource → Option Reg16
  | .register name => some name
  | _ => none

namespace Instruction

/-- The word registers that an instruction names, other than to point to a byte. -/
def wordNames : Instruction → List Reg16
  | .ldWord target source => target :: source.name?.toList
  | .storeWord _ source => [source]
  | .push name | .pop name | .exStack name | .incWord name | .decWord name | .jpRegister name
  | .adcWord name | .sbcWord name => [name]
  | .addWord target source => [target, source]
  | _ => []

/-- The word register that an instruction changes is among those that it names. -/
theorem mem_wordNames_of_target {i : Instruction} {name : Reg16} (h : name ∈ i.wordTarget?) :
    name ∈ i.wordNames := by
  cases i with
  | ldWord | pop | exStack | addWord | incWord | decWord =>
      obtain rfl := Option.mem_some_iff.mp h
      exact .head _
  | _ => contradiction

/-- An instruction that names no word register but those that encodings can name. -/
@[mk_iff] structure NamesMain (i : Instruction) : Prop where
  names : ∀ name ∈ i.wordNames, name.isMain = true

end Instruction

namespace Encoding

open Instruction Reader

attribute [local simp] namesMain_iff wordNames WordSource.name?

variable {p : Pointer} {x : Fin 4} {y z : Fin 8} {i : Instruction} {n : Nat}

theorem MainEntry.namesMain (h : MainEntry p x y z i n) : i.NamesMain := by
  cases h <;> simp

theorem bitOperation_namesMain (op : Byte) (target : Place) (copy : Option Reg8) :
    (bitOperation op target copy).NamesMain := by
  unfold bitOperation
  split <;> simp

theorem bits_namesMain (op : Byte) : (bits op).NamesMain := by
  unfold bits
  split <;> exact bitOperation_namesMain op _ none

theorem ExtendedEntry.namesMain (h : ExtendedEntry x y z i n) : i.NamesMain := by
  cases h <;> simp

theorem reader_namesMain : Instruction.reader.Ends NamesMain := by
  apply ends_reader
  · simp
  · exact fun p op => (entries_mainTable p op).ends fun _ _ h => h.namesMain
  · exact bits_namesMain
  · exact fun x d op => bitOperation_namesMain op _ _
  · exact fun op => (entries_extended op).ends fun _ _ h => h.namesMain

end Encoding

namespace Machine

variable {m : Machine}

/-- No instruction in memory names a word register that an encoding cannot name. -/
theorem isMain_of_mem_wordNames {name : Reg16} (h : name ∈ m.instruction.wordNames) :
    name.isMain = true :=
  (Encoding.reader_namesMain.value_fetch m).names name h

end Machine
end Z80Machine
