import Mathlib.Data.List.Induction
import Z80Machine.Bus

/-!
# Loading memory

Bytes that are put into memory from outside go into one cell after the other, and on at zero
behind the last cell, for as long as there are bytes.  So a list may meet a cell many times, once
or not at all: the cell ends with the last byte that falls on it, and keeps its own if none does
(`get_load`).  A list that fits into memory is read back as it was (`dump_load`), and of a list
that fills memory or more nothing is left that was there before (`load_eq_of_fills`).  The main
statement, for a bus with its devices, is `last_loaded_byte_stays`.
-/

namespace Z80Machine

namespace Store

/-- The bytes that fall on `cell` when a list is loaded at `address`, in the order of the list:
the place of byte `i` is `i` cells on from `address`, modulo 65536. -/
def bytesOn (address : Word) (data : List Byte) (cell : Word) : List Byte :=
  (data.zipIdx.filter fun p => address + BitVec.ofNat 16 p.2 = cell).map Prod.fst

theorem bytesOn_concat (address : Word) (data : List Byte) (byte : Byte) (cell : Word) :
    bytesOn address (data ++ [byte]) cell =
      bytesOn address data cell ++
        if address + BitVec.ofNat 16 data.length = cell then [byte] else [] := by
  unfold bytesOn
  rw [List.zipIdx_append, List.filter_append, List.map_append]
  congr 1
  by_cases h : address + BitVec.ofNat 16 data.length = cell <;> simp [h]

theorem bytesOn_eq_nil_iff (address : Word) (data : List Byte) (cell : Word) :
    bytesOn address data cell = [] ↔
      ∀ i < data.length, address + BitVec.ofNat 16 i ≠ cell := by
  simp only [bytesOn, List.map_eq_nil_iff, List.filter_eq_nil_iff, decide_eq_true_eq]
  constructor
  · intro h i hi
    exact h (data[i], i) (List.mk_mem_zipIdx_iff_getElem?.mpr (List.getElem?_eq_getElem hi))
  · rintro h ⟨byte, i⟩ hmem
    obtain ⟨hi, -⟩ := List.getElem?_eq_some_iff.mp (List.mk_mem_zipIdx_iff_getElem?.mp hmem)
    exact h i hi

/-- The last byte of a list is the last that is put into memory. -/
theorem load_concat (s : Store) (address : Word) (data : List Byte) (byte : Byte) :
    s.load address (data ++ [byte]) =
      (s.load address data).set (address + BitVec.ofNat 16 data.length) byte := by
  rw [load_append]
  rfl

/-- A cell holds the last byte that falls on it, or still its own. -/
theorem get_load (s : Store) (address : Word) (data : List Byte) (cell : Word) :
    (s.load address data).get cell = (bytesOn address data cell).getLastD (s.get cell) := by
  -- from the end of the list, since the byte that is loaded last decides
  induction data using List.reverseRecOn with
  | nil => rfl
  | append_singleton data byte ih =>
      rw [load_concat, bytesOn_concat, Cells.get_set]
      by_cases h : address + BitVec.ofNat 16 data.length = cell
      · rw [if_pos h, if_pos h.symm, List.getLastD_concat]
      · rw [if_neg h, if_neg (Ne.symm h), List.append_nil, ih]

theorem get_load_of_beside {s : Store} {address : Word} {data : List Byte} {cell : Word}
    (h : ∀ i < data.length, address + BitVec.ofNat 16 i ≠ cell) :
    (s.load address data).get cell = s.get cell := by
  rw [get_load, (bytesOn_eq_nil_iff address data cell).mpr h]
  rfl

/-- A list that fits into memory is there as it was. -/
theorem dump_load (s : Store) (address : Word) (data : List Byte) (h : data.length ≤ 65536) :
    (s.load address data).dump address data.length = data := by
  induction data generalizing s address with
  | nil => rfl
  | cons byte rest ih =>
      rw [List.length_cons] at h
      have hfirst : (load (s.set address byte) (address + 1) rest).get address = byte := by
        rw [get_load_of_beside, Cells.get_set_self]
        intro i hi
        rw [Word.add_one_add_ofNat]
        bv_omega
      rw [List.length_cons, load, dump, hfirst, ih _ _ (by omega)]

/-- A list that fills memory leaves nothing of what was there. -/
theorem load_eq_of_fills (s t : Store) (address : Word) {data : List Byte}
    (h : 65536 ≤ data.length) : s.load address data = t.load address data := by
  apply Cells.ext
  intro cell
  have hmet : bytesOn address data cell ≠ [] := by
    rw [ne_eq, bytesOn_eq_nil_iff]
    intro hbeside
    refine hbeside (cell - address).toNat (by omega) ?_
    rw [BitVec.ofNat_toNat, BitVec.setWidth_eq, BitVec.add_comm, BitVec.sub_add_cancel]
  rw [get_load, get_load, List.getLastD_eq_getLast?, List.getLastD_eq_getLast?,
    List.getLast?_eq_some_getLast hmet]
  rfl

end Store

namespace Bus

/-- When bytes have been put into memory, each cell holds the last byte that falls on it, or what
it held before if none does; the devices, what was sent to them and the data bus are as before.  A
list can be loaded in two parts, the second from where the first ends. -/
theorem last_loaded_byte_stays (b : Bus) (address : Word) (data : List Byte) :
    (∀ cell,
      (b.load address data).peek cell =
          (Store.bytesOn address data cell).getLastD (b.peek cell) ∧
        ((b.load address data).read cell).1 =
          (Store.bytesOn address data cell).getLastD (b.peek cell)) ∧
      (b.load address data).devices = b.devices ∧
      (b.load address data).sent = b.sent ∧
      (b.load address data).dataBus = b.dataBus ∧
      ∀ xs ys, b.load address (xs ++ ys) =
        (b.load address xs).load (address + BitVec.ofNat 16 xs.length) ys := by
  have hcell (cell : Word) : (b.load address data).peek cell =
      (Store.bytesOn address data cell).getLastD (b.peek cell) :=
    b.ram.get_load address data cell
  refine ⟨fun cell => ⟨hcell cell, hcell cell⟩, rfl, rfl, rfl, fun xs ys => ?_⟩
  exact congrArg (fun ram => { b with ram }) (b.ram.load_append address xs ys)

end Bus
end Z80Machine
