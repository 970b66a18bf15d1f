import Z80Machine.Proofs.Disassembly
import Z80Machine.Proofs.Encoding

/-!
# Missing bytes

A list of bytes reads as if it went on with zeros, so two lists that agree in this sense as
far as a reader goes are read alike (`parse_eq_of_fits`).  Only a look at the byte behind a
prefix tells a list that ends from one that goes on with a zero.  For the lines of the
disassembler this means that zeros at the end change the line of a lone prefix and no other,
and that nothing behind the fourth byte changes a line (`missing_bytes_read_as_zeros`).
-/

namespace Z80Machine

namespace Reader

/-- Two lists have the same first `n` bytes, where zeros stand for missing ones. -/
def AgreeUpTo (n : Nat) (as bs : List Byte) : Prop := ∀ i < n, as.getD i 0 = bs.getD i 0

variable {n : Nat} {as bs : List Byte}

theorem AgreeUpTo.head (h : AgreeUpTo (n + 1) as bs) : as.headD 0 = bs.headD 0 := by
  have hfirst := h 0 n.succ_pos
  cases as <;> cases bs <;> exact hfirst

theorem AgreeUpTo.tail (h : AgreeUpTo (n + 1) as bs) : AgreeUpTo n as.tail bs.tail := by
  intro i hi
  have hnext := h (i + 1) (Nat.succ_lt_succ hi)
  cases as <;> cases bs <;> exact hnext

theorem agreeUpTo_append_zeros (n : Nat) (bytes : List Byte) (k : Nat) :
    AgreeUpTo n bytes (bytes ++ List.replicate k 0) := by
  intro i _
  simp only [List.getD_eq_getElem?_getD, List.getElem?_append, List.getElem?_replicate]
  by_cases hi : i < bytes.length
  · rw [if_pos hi]
  · rw [if_neg hi, List.getElem?_eq_none (Nat.le_of_not_lt hi)]
    split <;> rfl

theorem agreeUpTo_of_take_eq (h : as.take n = bs.take n) : AgreeUpTo n as bs := by
  intro i hi
  have hbyte := congrArg (·[i]?) h
  simp only [List.getElem?_take_of_lt hi] at hbyte
  rw [List.getD_eq_getElem?_getD, List.getD_eq_getElem?_getD, hbyte]

/-- A reader that does not look ahead cannot tell a missing byte from a zero. -/
theorem parse_eq_of_fits {α : Type} {P : α → Prop} {r : Reader α} (h : r.Fits P n)
    (hbytes : AgreeUpTo n as bs) : r.parse as = r.parse bs := by
  induction h generalizing as bs with
  | done _ => rfl
  | opcode _ ih => rw [parse_opcode, parse_opcode, hbytes.head, ih _ hbytes.tail]
  | operand _ ih => rw [parse_operand, parse_operand, hbytes.head, ih _ hbytes.tail]

end Reader

namespace Instruction

open Encoding Reader

/-- Lists that agree in four bytes hold the same instruction if, behind a prefix, both or
neither of them end. -/
theorem parse_reader_eq {as bs : List Byte} (hbytes : AgreeUpTo 4 as bs)
    (hlook : ∀ x, index? (as.headD 0) = some x → as.tail.head? = bs.tail.head?) :
    reader.parse as = reader.parse bs := by
  suffices hrest : (afterFirst (as.headD 0)).parse as.tail =
      (afterFirst (as.headD 0)).parse bs.tail by
    rw [parse_reader, parse_reader, ← hbytes.head, hrest]
  cases hindex : index? (as.headD 0) with
  | none => exact parse_eq_of_fits (fits_afterFirst_any hindex) hbytes.tail
  | some x =>
      rw [afterFirst_of_index hindex, parse_peek, parse_peek, ← hlook x hindex]
      split
      · rfl
      · split
        · rfl
        · exact parse_eq_of_fits (.opcode (fits_afterIndex_any x)) hbytes.tail

/-- A prefix with nothing behind it has a line of its own. -/
theorem disassemble_prefix {b : Byte} {x : Index} (hindex : index? b = some x) :
    disassemble [b] = "NOP*" := by
  rw [disassemble_eq, ofBytes, parse_reader, List.headD_cons, afterFirst_of_index hindex]
  rfl

/-- A zero behind a prefix is an instruction that does nothing. -/
theorem disassemble_prefix_zero {b : Byte} {x : Index} (hindex : index? b = some x)
    (rest : List Byte) : disassemble (b :: 0 :: rest) = "NOP" := by
  have hzero : afterIndex x 0 = .done .nop := rfl
  have hover : overridesPrefix 0 = false := rfl
  rw [disassemble_eq, ofBytes, parse_reader, List.headD_cons, List.tail_cons,
    afterFirst_of_index hindex, parse_peek, List.head?_cons]
  simp only [hover, Bool.false_eq_true, if_false, parse_opcode, List.headD_cons, hzero]
  rfl

/-- Where zeros at the end may change the line there is a prefix and nothing else. -/
theorem lone_prefix_iff {bytes : List Byte} :
    (∃ b x, index? b = some x ∧ bytes = [b]) ↔ bytes = [0xDD] ∨ bytes = [0xFD] := by
  constructor
  · rintro ⟨b, x, hindex, rfl⟩
    by_contra hnone
    have hb : index? b = none := index?_eq_none_iff.mpr (by simpa using hnone)
    rw [hb] at hindex
    contradiction
  · rintro (rfl | rfl)
    · exact ⟨0xDD, .ix, rfl, rfl⟩
    · exact ⟨0xFD, .iy, rfl, rfl⟩

theorem disassemble_append_zeros {bytes : List Byte}
    (hlone : ¬∃ b x, index? b = some x ∧ bytes = [b]) (k : Nat) :
    disassemble (bytes ++ List.replicate k 0) = disassemble bytes := by
  rw [disassemble_eq, disassemble_eq, ofBytes, ofBytes]
  refine congrArg (fun p => p.1.text)
    (parse_reader_eq (agreeUpTo_append_zeros 4 bytes k) fun x hindex => ?_).symm
  match bytes with
  | [] => contradiction
  | [b] => exact absurd ⟨b, x, hindex, rfl⟩ hlone
  | _ :: _ :: _ => rfl

theorem disassemble_eq_of_take_eq {as bs : List Byte} (h : as.take 4 = bs.take 4) :
    disassemble as = disassemble bs := by
  rw [disassemble_eq, disassemble_eq, ofBytes, ofBytes]
  refine congrArg (fun p => p.1.text) (parse_reader_eq (agreeUpTo_of_take_eq h) fun _ _ => ?_)
  have hsecond := congrArg (·[1]?) h
  simpa [List.head?_tail] using hsecond

/-- Zeros behind the bytes do not change the line, unless the bytes are a lone prefix; and
bytes behind the fourth never change it. -/
theorem missing_bytes_read_as_zeros :
    (∀ (bytes : List Byte) (k : Nat),
      disassemble (bytes ++ List.replicate k 0) = disassemble bytes ↔
        k = 0 ∨ (bytes ≠ [0xDD] ∧ bytes ≠ [0xFD])) ∧
    ∀ as bs : List Byte, as.take 4 = bs.take 4 → disassemble as = disassemble bs := by
  refine ⟨fun bytes k => ?_, fun as bs => disassemble_eq_of_take_eq⟩
  rw [← not_or, ← lone_prefix_iff]
  constructor
  · intro hline
    by_contra hnot
    obtain ⟨hk, hlone⟩ := not_or.mp hnot
    obtain ⟨k, rfl⟩ := Nat.exists_eq_succ_of_ne_zero hk
    obtain ⟨b, x, hindex, rfl⟩ := not_not.mp hlone
    have hzeros := disassemble_prefix_zero hindex (List.replicate k 0)
    rw [List.replicate_succ, List.singleton_append, hzeros, disassemble_prefix hindex] at hline
    exact absurd hline (by decide)
  · rintro (rfl | hlone)
    · simp
    · exact disassemble_append_zeros hlone k

/-- An indexed bit operation that is cut behind its table byte lacks a distance and an opcode,
and with both of them there a fifth byte does not count. -/
theorem missing_bytes_of_indexed_bits :
    disassemble [0xDD, 0xCB, 0x00, 0x00] = disassemble [0xDD, 0xCB] ∧
      disassemble [0xDD, 0x00, 0x00] ≠ disassemble [0xDD] ∧
      List.take 4 [0xDD, 0xCB, 0x05, 0xC6, 0x01] =
        List.take 4 [0xDD, 0xCB, 0x05, 0xC6, (0x02 : Byte)] ∧
      disassemble [0xDD, 0xCB, 0x05, 0xC6, 0x01] = disassemble [0xDD, 0xCB, 0x05, 0xC6, 0x02] :=
  ⟨(missing_bytes_read_as_zeros.1 [0xDD, 0xCB] 2).mpr (.inr (by decide)),
    fun h => absurd ((missing_bytes_read_as_zeros.1 [0xDD] 2).mp h) (by decide), rfl,
    missing_bytes_read_as_zeros.2 _ _ rfl⟩

end Instruction
end Z80Machine
