import Z80Machine.Proofs.CarryChain

/-!
# Binary numbers

With bytes for digits numbers have the base 256 (`binary`).  They are added, subtracted and
doubled from the least significant byte up and halved from the most significant byte down, and
the carry flag hands on a bit from byte to byte.  A loop that does this has other work between
two bytes, such as counting; the work may change any other flag but keeps the carry (`Aside`), so
it makes no difference (`pass_like_chain`).  `long_arithmetic_exact` says that all four are right
for numbers of any length, and that halving takes back what doubling does.
-/

namespace Z80Machine

/-- Numbers with bytes for their digits. -/
def binary : Numeral where
  base := 256
  IsDigit _ := True
  digit b := b.toNat

namespace Arithmetic

/-! ### Numbers -/

theorem binary_value_reverse_cons (b : Byte) (bs : List Byte) :
    binary.value (b :: bs).reverse = binary.value bs.reverse + 256 ^ bs.length * b.toNat := by
  have hdigits := Nat.ofDigits_reverse_cons (b := 256) (bs.map BitVec.toNat) b.toNat
  rw [← List.map_cons, ← List.map_reverse, ← List.map_reverse, List.length_map] at hdigits
  exact hdigits

/-- A number is written in one way with a given number of bytes. -/
theorem binary_value_inj {as bs : List Byte} (hlength : as.length = bs.length)
    (hvalue : binary.value as = binary.value bs) : as = bs := by
  have hbyte (cs : List Byte) : ∀ d ∈ cs.map BitVec.toNat, d < 256 := by
    intro d hd
    obtain ⟨c, -, rfl⟩ := List.mem_map.mp hd
    exact c.isLt
  have hdigits : as.map BitVec.toNat = bs.map BitVec.toNat :=
    Nat.ofDigits_inj_of_len_eq (by decide) (by simp [hlength]) (hbyte as) (hbyte bs) hvalue
  exact (List.map_inj_right fun _ _ => BitVec.eq_of_toNat_eq).mp hdigits

theorem carry_inj {b c : Bool} (h : b.toNat = c.toNat) : b = c := by
  cases b <;> cases c <;> first | rfl | contradiction

/-! ### One byte -/

theorem computes_adc : Computes Operation.adc.apply binary 1 where
  isDigit _ _ _ _ _ := trivial
  digit a b f _ _ := by
    have hsum := addByte_sum a b f.carry
    simp only [binary, Operation.apply]
    omega

theorem computes_sbc : Computes Operation.sbc.apply binary (-1) where
  isDigit _ _ _ _ _ := trivial
  digit a b f _ _ := by
    have hdifference := subByte_difference a b f.carry
    simp only [binary, Operation.apply]
    omega

theorem adc_eq_of_carry (a b : Byte) {f g : Flags} (h : f.carry = g.carry) :
    Operation.adc.apply a b f = Operation.adc.apply a b g := by
  simp only [Operation.apply, h]

theorem sbc_eq_of_carry (a b : Byte) {f g : Flags} (h : f.carry = g.carry) :
    Operation.sbc.apply a b f = Operation.sbc.apply a b g := by
  simp only [Operation.apply, h]

theorem toNat_append {n m : Nat} (x : BitVec n) (y : BitVec m) :
    (x ++ y).toNat = x.toNat * 2 ^ m + y.toNat := by
  rw [BitVec.toNat_append, ← Nat.shiftLeft_add_eq_or_of_lt y.isLt, Nat.shiftLeft_eq]

theorem toNat_getLsbD (a : Byte) (i : Nat) : (a.getLsbD i).toNat = a.toNat / 2 ^ i % 2 := by
  rw [BitVec.getLsbD, Nat.toNat_testBit]

/-- A shift to the left takes the carry in from below and hands bit 7 on. -/
theorem shift_rl_step (a : Byte) (f : Flags) :
    (shift .rl a f).value.toNat + 256 * (shift .rl a f).flags.carry.toNat =
      2 * a.toNat + f.carry.toNat := by
  have hvalue : (shift .rl a f).value = a.extractLsb' 0 7 ++ BitVec.ofBool f.carry := rfl
  have hcarry : (shift .rl a f).flags.carry = a.getLsbD 7 := rfl
  have hlt := a.isLt
  rw [hvalue, hcarry, toNat_append, toNat_getLsbD, BitVec.extractLsb'_toNat,
    BitVec.toNat_ofBool, Nat.shiftRight_zero]
  omega

/-- A shift to the right takes the carry in from above and hands bit 0 on. -/
theorem shift_rr_step (a : Byte) (f : Flags) :
    2 * (shift .rr a f).value.toNat + (shift .rr a f).flags.carry.toNat =
      a.toNat + 256 * f.carry.toNat := by
  have hvalue : (shift .rr a f).value = BitVec.ofBool f.carry ++ a.extractLsb' 1 7 := rfl
  have hcarry : (shift .rr a f).flags.carry = a.getLsbD 0 := rfl
  have hlt := a.isLt
  rw [hvalue, hcarry, toNat_append, toNat_getLsbD, BitVec.extractLsb'_toNat,
    BitVec.toNat_ofBool, Nat.shiftRight_eq_div_pow]
  omega

/-- A shift to the left adds a byte to itself. -/
theorem shift_rl_like_adc (a : Byte) {f g : Flags} (hcarry : f.carry = g.carry) :
    (shift .rl a f).value = (Operation.adc.apply a a g).value ∧
      (shift .rl a f).flags.carry = (Operation.adc.apply a a g).flags.carry := by
  have hshift := shift_rl_step a f
  have hsum := addByte_sum a a f.carry
  have hbyte := (shift .rl a f).value.isLt
  have hbyte' := (addByte a a f.carry).value.isLt
  simp only [Operation.apply, ← hcarry]
  constructor
  · apply BitVec.eq_of_toNat_eq
    omega
  · apply carry_inj
    omega

/-! ### Passes with other work in between -/

/-- Work on other data that keeps the carry flag. -/
inductive Aside where
  | inc (a : Byte)
  | dec (a : Byte)
  | testBit (n : Fin 8) (value source : Byte)
  | rotateDigitLeft (a memory : Byte)
  | rotateDigitRight (a memory : Byte)
  deriving DecidableEq

/-- The flags that the work leaves. -/
def Aside.flags (f : Flags) : Aside → Flags
  | .inc a => (incByte a f).flags
  | .dec a => (decByte a f).flags
  | .testBit n value source => Arithmetic.testBit n value f source
  | .rotateDigitLeft a memory => (Arithmetic.rotateDigitLeft a memory f).flags
  | .rotateDigitRight a memory => (Arithmetic.rotateDigitRight a memory f).flags

@[simp] theorem Aside.carry_flags (f : Flags) (work : Aside) :
    (work.flags f).carry = f.carry := by
  cases work <;> rfl

@[simp] theorem carry_foldl_asides (work : List Aside) (f : Flags) :
    (work.foldl Aside.flags f).carry = f.carry := by
  induction work generalizing f with
  | nil => rfl
  | cons first rest ih => rw [List.foldl_cons, ih, Aside.carry_flags]

variable {α : Type}

/-- Works on items one after the other.  The flags that item `i` leaves go through the work
`between i` and then to the next item. -/
def pass (op : α → Flags → Result) (between : Nat → List Aside) :
    List α → Flags → List Byte × Flags
  | [], f => ([], f)
  | x :: xs, f =>
      let r := op x f
      let (values, f) :=
        pass op (fun i => between (i + 1)) xs ((between 0).foldl Aside.flags r.flags)
      (r.value :: values, f)

variable (op : α → Flags → Result) (between : Nat → List Aside)

theorem pass_cons (x : α) (xs : List α) (f : Flags) :
    pass op between (x :: xs) f =
      let rest := pass op (fun i => between (i + 1)) xs
        ((between 0).foldl Aside.flags (op x f).flags)
      ((op x f).value :: rest.1, rest.2) := rfl

theorem length_pass (xs : List α) (f : Flags) :
    (pass op between xs f).1.length = xs.length := by
  induction xs generalizing between f with
  | nil => rfl
  | cons x xs ih => rw [pass_cons, List.length_cons, List.length_cons, ih]

variable {op}

/-- An operation that knows the flags by their carry alone does with other work in between what
it does in a chain without. -/
theorem pass_like_chain {op' : Byte → Byte → Flags → Result} (left right : α → Byte)
    (hop : ∀ x {f g : Flags}, f.carry = g.carry →
      (op x f).value = (op' (left x) (right x) g).value ∧
        (op x f).flags.carry = (op' (left x) (right x) g).flags.carry)
    (xs : List α) {f g : Flags} (hcarry : f.carry = g.carry) :
    (pass op between xs f).1 = (chain op' (xs.map left) (xs.map right) g).1 ∧
      (pass op between xs f).2.carry = (chain op' (xs.map left) (xs.map right) g).2.carry := by
  induction xs generalizing between f g with
  | nil => exact ⟨rfl, hcarry⟩
  | cons x xs ih =>
      obtain ⟨hvalue, hfirst⟩ := hop x hcarry
      -- the work behind the first item leaves the carry to the others
      obtain ⟨hvalues, hlast⟩ := ih (fun i => between (i + 1))
        ((carry_foldl_asides (between 0) _).trans hfirst)
      rw [pass_cons, List.map_cons, List.map_cons, chain_cons]
      exact ⟨congrArg₂ List.cons hvalue hvalues, hlast⟩

/-! ### Numbers of any length -/

/-- Combines two numbers from the least significant bytes up. -/
def operateLong (op : Operation) (between : Nat → List Aside) (as bs : List Byte) (f : Flags) :
    List Byte × Flags :=
  pass (fun p => op.apply p.1 p.2) between (as.zip bs) f

/-- Shifts a number to the left through the carry flag, from the least significant byte up. -/
def shiftLongLeft (between : Nat → List Aside) (as : List Byte) (f : Flags) : List Byte × Flags :=
  pass (shift .rl) between as f

/-- Shifts a number to the right through the carry flag, from the most significant byte down. -/
def shiftLongRight (between : Nat → List Aside) (as : List Byte) (f : Flags) :
    List Byte × Flags :=
  let (values, f) := pass (shift .rr) between as.reverse f
  (values.reverse, f)

variable {as bs : List Byte} (f : Flags)

/-- An operation on bytes that knows the flags by their carry alone computes numbers, whatever
is done in between. -/
theorem value_operateLong {o : Operation} {sign : Int} (h : Computes o.apply binary sign)
    (hcarry : ∀ a b {f g : Flags}, f.carry = g.carry → o.apply a b f = o.apply a b g)
    (hlength : as.length = bs.length) :
    (binary.value (operateLong o between as bs f).1 : Int) +
        sign * (operateLong o between as bs f).2.carry.toNat * 256 ^ as.length =
      binary.value as + sign * (binary.value bs + f.carry.toNat) := by
  have hop (p : Byte × Byte) {f g : Flags} (h : f.carry = g.carry) :
      (o.apply p.1 p.2 f).value = (o.apply p.1 p.2 g).value ∧
        (o.apply p.1 p.2 f).flags.carry = (o.apply p.1 p.2 g).flags.carry := by
    rw [hcarry p.1 p.2 h]
    exact ⟨rfl, rfl⟩
  obtain ⟨hvalues, hlast⟩ :=
    pass_like_chain between Prod.fst Prod.snd hop (as.zip bs) (rfl : f.carry = f.carry)
  rw [List.map_fst_zip hlength.le, List.map_snd_zip hlength.ge] at hvalues hlast
  rw [operateLong, hvalues, hlast]
  exact h.chain hlength (fun _ _ => trivial) (fun _ _ => trivial) f

theorem value_operateLong_adc (hlength : as.length = bs.length) :
    binary.value (operateLong .adc between as bs f).1 +
        (operateLong .adc between as bs f).2.carry.toNat * 256 ^ as.length =
      binary.value as + binary.value bs + f.carry.toNat := by
  have hsum := value_operateLong between f computes_adc adc_eq_of_carry hlength
  zify
  linear_combination hsum

theorem value_operateLong_sbc (hlength : as.length = bs.length) :
    (binary.value (operateLong .sbc between as bs f).1 : Int) -
        (operateLong .sbc between as bs f).2.carry.toNat * 256 ^ as.length =
      binary.value as - binary.value bs - f.carry.toNat := by
  have hdifference := value_operateLong between f computes_sbc sbc_eq_of_carry hlength
  linear_combination hdifference

/-- A shift to the left adds a number to itself. -/
theorem value_shiftLongLeft :
    binary.value (shiftLongLeft between as f).1 +
        (shiftLongLeft between as f).2.carry.toNat * 256 ^ as.length =
      2 * binary.value as + f.carry.toNat := by
  have hsum : (binary.value (chain Operation.adc.apply as as f).1 : Int) +
      1 * (chain Operation.adc.apply as as f).2.carry.toNat * 256 ^ as.length = _ :=
    computes_adc.chain rfl (fun _ _ => trivial) (fun _ _ => trivial) f
  obtain ⟨hvalues, hcarry⟩ :=
    pass_like_chain between id id shift_rl_like_adc as (rfl : f.carry = f.carry)
  rw [List.map_id] at hvalues hcarry
  rw [shiftLongLeft, hvalues, hcarry]
  zify
  linear_combination hsum

/-- The bytes of a number, given from the most significant one down, are halved. -/
theorem value_pass_rr (bytes : List Byte) :
    2 * binary.value (pass (shift .rr) between bytes f).1.reverse +
        (pass (shift .rr) between bytes f).2.carry.toNat =
      binary.value bytes.reverse + f.carry.toNat * 256 ^ bytes.length := by
  induction bytes generalizing between f with
  | nil => simp [pass, Numeral.value]
  | cons b bytes ih =>
      have hfirst := shift_rr_step b f
      -- what falls out of the first byte comes into the others from above
      have hrest := ih (fun i => between (i + 1))
        ((between 0).foldl Aside.flags (shift .rr b f).flags)
      rw [carry_foldl_asides] at hrest
      rw [pass_cons, binary_value_reverse_cons, binary_value_reverse_cons, length_pass,
        List.length_cons, pow_succ]
      zify at hfirst hrest ⊢
      linear_combination hrest + 256 ^ bytes.length * hfirst

theorem value_shiftLongRight :
    2 * binary.value (shiftLongRight between as f).1 +
        (shiftLongRight between as f).2.carry.toNat =
      binary.value as + f.carry.toNat * 256 ^ as.length := by
  have hpass := value_pass_rr between f as.reverse
  rwa [List.reverse_reverse, List.length_reverse] at hpass

theorem length_operateLong {o : Operation} (hlength : as.length = bs.length) :
    (operateLong o between as bs f).1.length = as.length := by
  rw [operateLong, length_pass, List.length_zip, ← hlength, Nat.min_self]

theorem length_shiftLongLeft : (shiftLongLeft between as f).1.length = as.length :=
  length_pass (shift .rl) between as f

theorem length_shiftLongRight : (shiftLongRight between as f).1.length = as.length := by
  have hpass := length_pass (shift .rr) between as.reverse f
  rwa [List.length_reverse, ← List.length_reverse] at hpass

/-- Twice a number and the carry, halved, are the number and the carry. -/
theorem shiftLongRight_shiftLongLeft (between' : Nat → List Aside) :
    let doubled := shiftLongLeft between as f
    let halved := shiftLongRight between' doubled.1 doubled.2
    halved.1 = as ∧ halved.2.carry = f.carry := by
  intro doubled halved
  have hdouble : binary.value doubled.1 + doubled.2.carry.toNat * 256 ^ as.length = _ :=
    value_shiftLongLeft between f
  have hhalf : 2 * binary.value halved.1 + halved.2.carry.toNat = _ :=
    value_shiftLongRight between' doubled.2
  have hlength : halved.1.length = as.length :=
    (length_shiftLongRight between' doubled.2).trans (length_shiftLongLeft between f)
  have hbefore := f.carry.toNat_le
  have hafter := halved.2.carry.toNat_le
  rw [length_shiftLongLeft, hdouble] at hhalf
  constructor
  · apply binary_value_inj hlength
    omega
  · apply carry_inj
    omega

/-- Sums, differences, doubles and halves of numbers of any length are exact, the last carry
standing for what does not fit, whatever other work is done in between, if any; and halving takes
back what doubling does. -/
theorem long_arithmetic_exact (between : Nat → List Aside) (as bs : List Byte) (f : Flags)
    (hlength : as.length = bs.length) :
    ((operateLong .adc between as bs f).1.length = as.length ∧
      binary.value (operateLong .adc between as bs f).1 +
          (operateLong .adc between as bs f).2.carry.toNat * 256 ^ as.length =
        binary.value as + binary.value bs + f.carry.toNat) ∧
    ((operateLong .sbc between as bs f).1.length = as.length ∧
      (binary.value (operateLong .sbc between as bs f).1 : Int) -
          (operateLong .sbc between as bs f).2.carry.toNat * 256 ^ as.length =
        binary.value as - binary.value bs - f.carry.toNat) ∧
    ((shiftLongLeft between as f).1.length = as.length ∧
      binary.value (shiftLongLeft between as f).1 +
          (shiftLongLeft between as f).2.carry.toNat * 256 ^ as.length =
        2 * binary.value as + f.carry.toNat) ∧
    ((shiftLongRight between as f).1.length = as.length ∧
      2 * binary.value (shiftLongRight between as f).1 +
          (shiftLongRight between as f).2.carry.toNat =
        binary.value as + f.carry.toNat * 256 ^ as.length) ∧
    ∀ between' : Nat → List Aside,
      let doubled := shiftLongLeft between as f
      let halved := shiftLongRight between' doubled.1 doubled.2
      halved.1 = as ∧ halved.2.carry = f.carry :=
  ⟨⟨length_operateLong between f hlength, value_operateLong_adc between f hlength⟩,
    ⟨length_operateLong between f hlength, value_operateLong_sbc between f hlength⟩,
    ⟨length_shiftLongLeft between f, value_shiftLongLeft between f⟩,
    ⟨length_shiftLongRight between f, value_shiftLongRight between f⟩,
    shiftLongRight_shiftLongLeft between f⟩

/-- A loop that counts down and tests a bit between the bytes: `0x80FF` and `0x8001` with a carry
make `0x0101` and another carry. -/
theorem long_sum_with_count :
    ([0xFF, 0x80] : List Byte).length = ([0x01, 0x80] : List Byte).length ∧
      (operateLong .adc (fun _ => [.dec 2, .testBit 7 0x80 0]) [0xFF, 0x80] [0x01, 0x80]
        { carry := true }).1 = [0x01, 0x01] ∧
      binary.value [0x01, 0x01] +
          (operateLong .adc (fun _ => [.dec 2, .testBit 7 0x80 0]) [0xFF, 0x80] [0x01, 0x80]
            { carry := true }).2.carry.toNat * 256 ^ 2 =
        binary.value [0xFF, 0x80] + binary.value [0x01, 0x80] + 1 := by
  have hbytes : (operateLong .adc (fun _ => [.dec 2, .testBit 7 0x80 0]) [0xFF, 0x80]
      [0x01, 0x80] { carry := true }).1 = [0x01, 0x01] := by
    decide
  obtain ⟨⟨-, hvalue⟩, -⟩ := long_arithmetic_exact (fun _ => [.dec 2, .testBit 7 0x80 0])
    [0xFF, 0x80] [0x01, 0x80] { carry := true } rfl
  rw [hbytes] at hvalue
  exact ⟨rfl, hbytes, hvalue⟩

end Arithmetic
end Z80Machine
