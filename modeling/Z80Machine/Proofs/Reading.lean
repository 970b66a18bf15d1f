import Z80Machine.Machine.Fetch

/-!
# Reading an encoding

What a machine does while it reads an encoding, and how far a reader goes.  Reading
changes the program counter, the refresh counter and the history of the bus, and
nothing else (`machine_fetch`).  A reader that fits in a number of bytes looks at
no byte that it does not take, so it takes from memory exactly the bytes that it
reads, in order (`history_fetch`), and any list of bytes that goes on at least as
far is read alike (`parse_dump_of_fits`).
-/

namespace Z80Machine

namespace Bus

/-- The accesses beyond an earlier bus are those that were added to its history. -/
theorem since_eq {b earlier : Bus} {accesses : List Access}
    (h : b.history = accesses.reverse ++ earlier.history) : b.since earlier = accesses := by
  have hlength : b.history.length - earlier.history.length = accesses.reverse.length := by
    rw [h, List.length_append]
    omega
  unfold since
  rw [hlength, h, List.take_left, List.reverse_reverse]

end Bus

namespace Store

/-- The accesses that read consecutive cells, in order. -/
def reads (s : Store) (address : Word) : Nat → List Access
  | 0 => []
  | count + 1 => .read address (s.get address) :: s.reads (address + 1) count

end Store

namespace Reader

variable {α : Type}

/-- A reader that takes at most `n` bytes, never looks ahead, and ends only in values
with the property `P`. -/
inductive Fits (P : α → Prop) : Nat → Reader α → Prop
  | done {n : Nat} {value : α} (h : P value) : Fits P n (done value)
  | opcode {n : Nat} {next : Byte → Reader α} (h : ∀ byte, Fits P n (next byte)) :
      Fits P (n + 1) (opcode next)
  | operand {n : Nat} {next : Byte → Reader α} (h : ∀ byte, Fits P n (next byte)) :
      Fits P (n + 1) (operand next)

variable {P Q : α → Prop} {n : Nat}

@[simp] theorem fits_done {value : α} : Fits P n (done value) ↔ P value := by
  constructor
  · rintro (h | _ | _)
    exact h
  · exact .done

@[simp] theorem fits_operand {next : Byte → Reader α} :
    Fits P (n + 1) (operand next) ↔ ∀ byte, Fits P n (next byte) := by
  constructor
  · rintro (_ | _ | h)
    exact h
  · exact .operand

/-- More room and a weaker property do no harm. -/
theorem Fits.mono {r : Reader α} {k : Nat} (h : Fits P n r) (hnk : n ≤ k)
    (hPQ : ∀ value, P value → Q value) : Fits Q k r := by
  induction h generalizing k with
  | done hvalue => exact .done (hPQ _ hvalue)
  | opcode _ ih =>
      cases k with
      | zero => omega
      | succ k => exact .opcode fun byte => ih byte (Nat.le_of_succ_le_succ hnk)
  | operand _ ih =>
      cases k with
      | zero => omega
      | succ k => exact .operand fun byte => ih byte (Nat.le_of_succ_le_succ hnk)

end Reader

namespace Machine

variable {α : Type} {P : α → Prop} {n : Nat} {r : Reader α}

/-- Reading changes the program counter, the refresh counter and the history. -/
theorem machine_fetch (m : Machine) (r : Reader α) :
    (m.fetch r).machine =
      { m with
        registers.pc := m.registers.pc + BitVec.ofNat 16 (m.fetch r).bytes.length
        registers.r := (m.fetch r).machine.registers.r
        bus.history := (m.fetch r).machine.bus.history } := by
  -- each byte that is taken moves the program counter by one
  induction r generalizing m with
  | done value => simp [fetch]
  | opcode next ih =>
      have hrest := ih (m.bus.ram.get m.registers.pc) m.refresh.fetchByte.2
      rw [registers_fetchByte, Word.add_one_add_ofNat] at hrest
      exact hrest
  | operand next ih =>
      have hrest := ih (m.bus.ram.get m.registers.pc) m.fetchByte.2
      rw [registers_fetchByte, Word.add_one_add_ofNat] at hrest
      exact hrest
  | peek next ih => exact ih (some (m.bus.ram.get m.registers.pc)) (m.read m.registers.pc).2

theorem value_fetch_of_fits (m : Machine) (h : r.Fits P n) : P (m.fetch r).value := by
  induction h generalizing m with
  | done hvalue => exact hvalue
  | opcode _ ih => exact ih _ m.refresh.fetchByte.2
  | operand _ ih => exact ih _ m.fetchByte.2

theorem length_bytes_fetch_le (m : Machine) (h : r.Fits P n) : (m.fetch r).bytes.length ≤ n := by
  induction h generalizing m with
  | done _ => exact Nat.zero_le _
  | opcode _ ih => exact Nat.succ_le_succ (ih _ m.refresh.fetchByte.2)
  | operand _ ih => exact Nat.succ_le_succ (ih _ m.fetchByte.2)

/-- A reader that does not look ahead reads each of its bytes once, in order. -/
theorem history_fetch (m : Machine) (h : r.Fits P n) :
    (m.fetch r).machine.bus.history =
      (m.bus.ram.reads m.registers.pc (m.fetch r).bytes.length).reverse ++ m.bus.history := by
  induction h generalizing m with
  | done _ => rfl
  | @opcode _ next _ ih =>
      have hrest := ih (m.bus.ram.get m.registers.pc) m.refresh.fetchByte.2
      -- the newest read stands in front
      show _ = (Store.reads _ _ (List.length _ + 1)).reverse ++ _
      rw [Store.reads, List.reverse_cons, List.append_assoc]
      exact hrest
  | operand _ ih =>
      have hrest := ih (m.bus.ram.get m.registers.pc) m.fetchByte.2
      show _ = (Store.reads _ _ (List.length _ + 1)).reverse ++ _
      rw [Store.reads, List.reverse_cons, List.append_assoc]
      exact hrest

/-- Memory and a list of its bytes read alike, if the list goes on far enough. -/
theorem parse_dump_of_fits (m : Machine) (h : r.Fits P n) {count : Nat}
    (hcount : (m.fetch r).bytes.length ≤ count) :
    r.parse (m.bus.ram.dump m.registers.pc count) =
      ((m.fetch r).value, (m.fetch r).bytes.length) := by
  induction h generalizing m count with
  | done _ => rfl
  | opcode _ ih =>
      cases count with
      | zero => exact absurd hcount (Nat.not_succ_le_zero _)
      | succ count =>
          have hrest := ih _ m.refresh.fetchByte.2 (Nat.le_of_succ_le_succ hcount)
          exact congrArg (fun p => (p.1, p.2 + 1)) hrest
  | operand _ ih =>
      cases count with
      | zero => exact absurd hcount (Nat.not_succ_le_zero _)
      | succ count =>
          have hrest := ih _ m.fetchByte.2 (Nat.le_of_succ_le_succ hcount)
          exact congrArg (fun p => (p.1, p.2 + 1)) hrest

end Machine
end Z80Machine
