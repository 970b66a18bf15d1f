import Z80Machine.Proofs.Entries
import Z80Machine.Instruction.Text

/-!
# Operands can be read back

For each kind of operand a function that reads its text, and the fact that it finds what was
written.  Each kind is recognized by how it begins: a number by `$`, a byte in memory by a
bracket, a register by its name.  No operand has a comma in it, which is what keeps the
operands of a line apart.
-/

namespace Z80Machine

namespace Hex

/-- The value of a digit. -/
def value? (c : Char) : Option Nat := (List.range 16).find? (digit · = c)

theorem value?_digit : ∀ n < 16, value? (digit n) = some n := by
  decide

theorem digit_ne_comma : ∀ n < 16, digit n ≠ ',' := by
  decide

/-- Reads two digits. -/
def byte? : List Char → Option Byte
  | [high, low] => do some (BitVec.ofNat 8 (16 * (← value? high) + (← value? low)))
  | _ => none

/-- Reads four digits. -/
def word? : List Char → Option Word
  | [c, c', d, d'] => do some (.ofBytes (← byte? [c, c']) (← byte? [d, d']))
  | _ => none

theorem toList_byte (n : Byte) :
    (byte n).toList = [digit (n.toNat / 16), digit (n.toNat % 16)] :=
  String.toList_ofList

theorem toList_word (nn : Word) :
    (word nn).toList = (byte nn.high).toList ++ (byte nn.low).toList :=
  String.toList_append

@[simp] theorem byte?_byte (n : Byte) : byte? (byte n).toList = some n := by
  have hhigh := value?_digit (n.toNat / 16) (by have := n.isLt; omega)
  have hlow := value?_digit (n.toNat % 16) (Nat.mod_lt _ (by omega))
  rw [toList_byte, byte?, hhigh, hlow]
  simp [Nat.div_add_mod]

@[simp] theorem word?_word (nn : Word) : word? (word nn).toList = some nn := by
  have hhigh := byte?_byte nn.high
  have hlow := byte?_byte nn.low
  rw [toList_byte] at hhigh hlow
  rw [toList_word, toList_byte, toList_byte]
  simp [word?, hhigh, hlow]

@[simp] theorem comma_notMem_byte (n : Byte) : ',' ∉ (byte n).toList := by
  have hhigh := digit_ne_comma (n.toNat / 16) (by have := n.isLt; omega)
  have hlow := digit_ne_comma (n.toNat % 16) (Nat.mod_lt _ (by omega))
  simp [toList_byte, hhigh.symm, hlow.symm]

@[simp] theorem comma_notMem_word (nn : Word) : ',' ∉ (word nn).toList := by
  simp [toList_word]

end Hex

namespace Text

/-! ### Numbers -/

theorem toList_byte (n : Byte) : (byte n).toList = '$' :: (Hex.byte n).toList :=
  String.toList_append

theorem toList_word (nn : Word) : (word nn).toList = '$' :: (Hex.word nn).toList :=
  String.toList_append

/-- Reads a byte as an operand. -/
def byte? (s : String) : Option Byte :=
  match s.toList with
  | '$' :: digits => Hex.byte? digits
  | _ => none

/-- Reads a word as an operand. -/
def word? (s : String) : Option Word :=
  match s.toList with
  | '$' :: digits => Hex.word? digits
  | _ => none

@[simp] theorem byte?_byte (n : Byte) : byte? (byte n) = some n := by
  rw [byte?, toList_byte]
  exact Hex.byte?_byte n

@[simp] theorem word?_word (nn : Word) : word? (word nn) = some nn := by
  rw [word?, toList_word]
  exact Hex.word?_word nn

@[simp] theorem comma_notMem_byte (n : Byte) : ',' ∉ (byte n).toList := by
  simp [toList_byte]

@[simp] theorem comma_notMem_word (nn : Word) : ',' ∉ (word nn).toList := by
  simp [toList_word]

/-- Reads a distance in bytes from the address of an instruction. -/
def relative? (s : String) : Option Int :=
  match s.toList with
  | ['$'] => some 0
  | '$' :: '+' :: digits => some (Nat.ofDigitChars 10 digits 0)
  | '$' :: '-' :: digits => some (-Nat.ofDigitChars 10 digits 0)
  | _ => none

theorem relative?_plus (n : Nat) : relative? ("$+" ++ toString n) = some (n : Int) := by
  have hchars : ("$+" ++ toString n).toList = '$' :: '+' :: Nat.toDigits 10 n := by
    rw [Nat.toString_eq_ofList_toDigits, String.toList_append]
    exact congrArg ('$' :: '+' :: ·) String.toList_ofList
  rw [relative?, hchars]
  exact congrArg (fun n : Nat => some (n : Int)) Nat.ofDigitChars_ten_toDigits

theorem relative?_minus (n : Nat) : relative? ("$-" ++ toString n) = some (-n : Int) := by
  have hchars : ("$-" ++ toString n).toList = '$' :: '-' :: Nat.toDigits 10 n := by
    rw [Nat.toString_eq_ofList_toDigits, String.toList_append]
    exact congrArg ('$' :: '-' :: ·) String.toList_ofList
  rw [relative?, hchars]
  exact congrArg (fun n : Nat => some (-n : Int)) Nat.ofDigitChars_ten_toDigits

@[simp] theorem relative?_relative (e : Int) : relative? (relative e) = some e := by
  unfold relative
  rcases lt_trichotomy e 0 with hneg | rfl | hpos
  · rw [if_neg (by omega), if_neg (by omega), relative?_minus, Int.toNat_of_nonneg (by omega),
      Int.neg_neg]
  · rfl
  · rw [if_neg (by omega), if_pos hpos, relative?_plus, Int.toNat_of_nonneg (by omega)]

@[simp] theorem comma_notMem_toDigits (n : Nat) : ',' ∉ Nat.toDigits 10 n := by
  intro hmem
  have hdigit := Nat.isDigit_of_mem_toDigits (by omega) (by omega) hmem
  contradiction

@[simp] theorem comma_notMem_relative (e : Int) : ',' ∉ (relative e).toList := by
  unfold relative
  split
  · decide
  · split <;> simp [String.toList_append]

/-- Reads a number below `k`. -/
def digit? (k : Nat) (s : String) : Option (Fin k) := (List.finRange k).find? (·.val.repr = s)

@[simp] theorem digit?_eight : ∀ n : Fin 8, digit? 8 n.val.repr = some n := by
  decide

@[simp] theorem digit?_three : ∀ n : Fin 3, digit? 3 n.val.repr = some n := by
  decide

/-! ### Brackets -/

theorem toList_indirect (x : String) : (indirect x).toList = '(' :: (x.toList ++ [')']) := by
  rw [indirect, String.toList_append, String.toList_append]
  rfl

/-- What is inside the brackets of an operand. -/
def inside? (s : String) : Option String :=
  match s.toList with
  | '(' :: rest => some (String.ofList rest.dropLast)
  | _ => none

@[simp] theorem inside?_indirect (x : String) : inside? (indirect x) = some x := by
  rw [inside?, toList_indirect]
  simp

@[simp] theorem comma_notMem_indirect {x : String} (h : ',' ∉ x.toList) :
    ',' ∉ (indirect x).toList := by
  simpa [toList_indirect] using h

/-- A number does not begin with a bracket. -/
@[simp] theorem byte?_indirect (x : String) : byte? (indirect x) = none := by
  rw [byte?, toList_indirect]
  rfl

@[simp] theorem word?_indirect (x : String) : word? (indirect x) = none := by
  rw [word?, toList_indirect]
  rfl

/-! ### Distances from an index register -/

/-- Reads a distance with its sign. -/
def distance? : List Char → Option Byte
  | '+' :: '$' :: digits => Hex.byte? digits
  | '-' :: '$' :: digits => (Hex.byte? digits).map (-·)
  | _ => none

theorem distance?_distance (d : Byte) : distance? (distance d).toList = some d := by
  unfold distance
  split
  · have hchars : ("-" ++ byte (-d)).toList = '-' :: '$' :: (Hex.byte (-d)).toList := by
      rw [String.toList_append, toList_byte]
      rfl
    rw [hchars, distance?, Hex.byte?_byte]
    simp
  · have hchars : ("+" ++ byte d).toList = '+' :: '$' :: (Hex.byte d).toList := by
      rw [String.toList_append, toList_byte]
      rfl
    rw [hchars, distance?, Hex.byte?_byte]

theorem comma_notMem_distance (d : Byte) : ',' ∉ (distance d).toList := by
  unfold distance
  split <;> simp [String.toList_append]

end Text

/-! ### Registers and conditions -/

/-- Reads the name of a byte register that an encoding can name. -/
def Reg8.ofText? (s : String) : Option Reg8 :=
  [Reg8.a, .b, .c, .d, .e, .h, .l, .ixh, .ixl, .iyh, .iyl].find? (·.text = s)

@[simp] theorem Reg8.ofText?_text {name : Reg8} (h : name.isMain = true) :
    ofText? name.text = some name := by
  cases name with
  | f | i | r => contradiction
  | _ => rfl

/-- Reads the name of a word register. -/
def Reg16.ofText? (s : String) : Option Reg16 :=
  [Reg16.af, .bc, .de, .hl, .af', .bc', .de', .hl', .ix, .iy, .sp, .pc].find? (·.text = s)

@[simp] theorem Reg16.ofText?_text (name : Reg16) : ofText? name.text = some name := by
  cases name <;> rfl

/-- No word register is written in brackets. -/
@[simp] theorem Reg16.ofText?_indirect (x : String) : ofText? (Text.indirect x) = none := by
  apply List.find?_eq_none.mpr
  intro name _ htext
  have hfirst := congrArg (·.toList.head?) (of_decide_eq_true htext)
  simp only [Text.toList_indirect] at hfirst
  cases name <;> contradiction

/-- Reads a condition. -/
def Condition.ofText? (s : String) : Option Condition :=
  [Condition.nz, .z, .nc, .c, .po, .pe, .p, .m].find? (·.text = s)

@[simp] theorem Condition.ofText?_text (cond : Condition) : ofText? cond.text = some cond := by
  cases cond <;> rfl

/-- Reads the name of a shift. -/
def Shift.ofText? (s : String) : Option Shift :=
  [Shift.rlc, .rrc, .rl, .rr, .sla, .sra, .sll, .srl].find? (·.text = s)

/-! ### Places and sources -/

/-- Reads what an index register and a distance are written as. -/
def Address.indexed? (s : String) : Option Address :=
  match s.toList with
  | 'I' :: 'X' :: rest => (Text.distance? rest).map (.indexed .ix)
  | 'I' :: 'Y' :: rest => (Text.distance? rest).map (.indexed .iy)
  | _ => none

/-- Reads an address in brackets. -/
def Address.ofText? (s : String) : Option Address := do
  let inner ← Text.inside? s
  (Text.word? inner).map .direct <|> indexed? inner <|> (Reg16.ofText? inner).map .pair

/-- Reads a place. -/
def Place.ofText? (s : String) : Option Place :=
  (Address.ofText? s).map .memory <|> (Reg8.ofText? s).map .register

/-- Reads a source of a byte. -/
def Source.ofText? (s : String) : Option Source :=
  (Text.byte? s).map .immediate <|> (Place.ofText? s).map .place

/-- Reads a word in brackets. -/
def Text.indirectWord? (s : String) : Option Word := inside? s >>= word?

/-- Reads a source of a word. -/
def WordSource.ofText? (s : String) : Option WordSource :=
  (Text.word? s).map .immediate <|> (Text.indirectWord? s).map .memory <|>
    (Reg16.ofText? s).map .register

@[simp] theorem Address.ofText?_text (a : Address) : ofText? a.text = some a := by
  cases a with
  | pair name => cases name <;> rfl
  | indexed x d =>
      have hd := Text.distance?_distance d
      cases x with
      | ix =>
          have hchars : ("IX" ++ Text.distance d).toList = 'I' :: 'X' :: (Text.distance d).toList :=
            String.toList_append
          simp [ofText?, text, Index.register, Reg16.text, Text.word?, indexed?, hchars, hd]
      | iy =>
          have hchars : ("IY" ++ Text.distance d).toList = 'I' :: 'Y' :: (Text.distance d).toList :=
            String.toList_append
          simp [ofText?, text, Index.register, Reg16.text, Text.word?, indexed?, hchars, hd]
  | direct nn => simp [ofText?, text]

@[simp] theorem Place.ofText?_text {p : Place} (h : ∀ name ∈ p.name?.toList, name.isMain = true) :
    ofText? p.text = some p := by
  cases p with
  | register name =>
      have hname := h name List.mem_cons_self
      cases name with
      | f | i | r => contradiction
      | _ => rfl
  | memory a => simp [ofText?, text]

@[simp] theorem Source.ofText?_text {s : Source} (h : ∀ name ∈ s.name?.toList, name.isMain = true) :
    ofText? s.text = some s := by
  cases s with
  | place p =>
      -- a place does not begin like a number
      have hnumber : Text.byte? p.text = none := by
        cases p with
        | register name => cases name <;> rfl
        | memory a => cases a <;> exact Text.byte?_indirect _
      simp [ofText?, text, hnumber, Place.ofText?_text h]
  | immediate n => simp [ofText?, text]

@[simp] theorem WordSource.ofText?_text (s : WordSource) : ofText? s.text = some s := by
  cases s with
  | register name => cases name <;> rfl
  | immediate nn => simp [ofText?, text]
  | memory nn => simp [ofText?, text, Text.indirectWord?]

@[simp] theorem Text.indirectWord?_indirect (nn : Word) :
    indirectWord? (indirect (word nn)) = some nn := by
  simp [indirectWord?]

/-- A place is not written like a word register. -/
@[simp] theorem Place.ofText?_register (name : Reg16) : Place.ofText? name.text = none := by
  cases name <;> rfl

@[simp] theorem Source.ofText?_register (name : Reg16) : Source.ofText? name.text = none := by
  cases name <;> rfl

/-! ### Commas -/

@[simp] theorem Reg8.comma_notMem_text (name : Reg8) : ',' ∉ name.text.toList := by
  cases name <;> decide

@[simp] theorem Reg16.comma_notMem_text (name : Reg16) : ',' ∉ name.text.toList := by
  cases name <;> decide

@[simp] theorem Condition.comma_notMem_text (cond : Condition) : ',' ∉ cond.text.toList := by
  cases cond <;> decide

@[simp] theorem Address.comma_notMem_text (a : Address) : ',' ∉ a.text.toList := by
  cases a with
  | pair name => exact Text.comma_notMem_indirect name.comma_notMem_text
  | indexed x d =>
      have hname := x.register.comma_notMem_text
      have hd := Text.comma_notMem_distance d
      exact Text.comma_notMem_indirect (by simp [String.toList_append, hname, hd])
  | direct nn => exact Text.comma_notMem_indirect (Text.comma_notMem_word nn)

@[simp] theorem Place.comma_notMem_text (p : Place) : ',' ∉ p.text.toList := by
  cases p with
  | register name => exact name.comma_notMem_text
  | memory a => exact a.comma_notMem_text

@[simp] theorem Source.comma_notMem_text (s : Source) : ',' ∉ s.text.toList := by
  cases s with
  | place p => exact p.comma_notMem_text
  | immediate n => exact Text.comma_notMem_byte n

@[simp] theorem WordSource.comma_notMem_text (s : WordSource) : ',' ∉ s.text.toList := by
  cases s with
  | register name => exact name.comma_notMem_text
  | immediate nn => exact Text.comma_notMem_word nn
  | memory nn => exact Text.comma_notMem_indirect (Text.comma_notMem_word nn)

end Z80Machine
