import Z80Machine.Inspect
import Z80Machine.Proofs.RegisterFile

/-!
# What can be looked up

Names of paths are written by one table and read by another, and a third lists the paths.  The
three agree: a name is read as a path just if it is the name of that path
(`ofName?_eq_some_iff`), and every path is listed once.  So a look-up has an answer just if the
name is listed, and the answers for registers that overlap fit together
(`query_answers_agree`).
-/

namespace Z80Machine

namespace Path

theorem eq_append_of_behind? {beginning s rest : String} (h : behind? beginning s = some rest) :
    s = beginning ++ rest := by
  obtain ⟨letters, hletters, rfl⟩ := Option.map_eq_some_iff.mp h
  rw [← String.toList_inj, String.toList_append, String.toList_ofList,
    List.append_eq_of_isPrefixOf?_eq_some hletters]

theorem name_of_ofLetter? {letter : String} {flag : Flag}
    (h : Flag.ofLetter? letter = some flag) : (Path.flag flag).name = "flags." ++ letter := by
  unfold Flag.ofLetter? at h
  split at h <;> cases h <;> decide

theorem ofName?_name (p : Path) : ofName? p.name = some p := by
  cases p with
  | byte name => cases name <;> decide
  | shadow name => cases name <;> decide
  | pair name => cases name <;> decide
  | flag flag => cases flag <;> decide
  | iff1 | iff2 | im | halted | count => decide

theorem name_of_ofName? {s : String} {p : Path} (h : ofName? s = some p) : p.name = s := by
  unfold ofName? at h
  split at h
  · next letter hletter =>
      obtain ⟨flag, hflag, rfl⟩ := Option.map_eq_some_iff.mp h
      rw [eq_append_of_behind? hletter]
      exact name_of_ofLetter? hflag
  · split at h <;> cases h <;> rfl

/-- A name belongs to one path, and is read as this path and no other. -/
theorem ofName?_eq_some_iff {s : String} {p : Path} : ofName? s = some p ↔ p.name = s := by
  constructor
  · exact name_of_ofName?
  · rintro rfl
    exact ofName?_name p

theorem name_injective : Function.Injective name := by
  intro p q h
  have hp := ofName?_name p
  rw [h, ofName?_name q] at hp
  exact (Option.some.inj hp).symm

theorem mem_all (p : Path) : p ∈ all := by
  cases p with
  | byte name => cases name <;> decide
  | shadow name => cases name <;> decide
  | pair name => cases name <;> decide
  | flag flag => cases flag <;> decide
  | iff1 | iff2 | im | halted | count => decide

theorem nodup_names : names.Nodup :=
  (by decide : all.Nodup).map name_injective

theorem mem_names_iff {s : String} : s ∈ names ↔ ∃ p, ofName? s = some p := by
  simp only [names, List.mem_map, mem_all, true_and, ofName?_eq_some_iff]

/-- The names of pairs, each with the names of its high and its low byte. -/
def pairNames : List (String × String × String) :=
  [("af", "a", "f"), ("bc", "b", "c"), ("de", "d", "e"), ("hl", "h", "l"),
    ("af'", "a'", "f'"), ("bc'", "b'", "c'"), ("de'", "d'", "e'"), ("hl'", "h'", "l'"),
    ("ix", "ixh", "ixl"), ("iy", "iyh", "iyl")]

end Path

/-- The flags in the order of their bits, bit 7 first. -/
theorem Flags.toByte_eq_ofBoolListBE (f : Flags) :
    f.toByte = BitVec.ofBoolListBE [f.sign, f.zero, f.f5, f.halfCarry, f.f3, f.parityOverflow,
      f.addSubtract, f.carry] := by
  rcases f with ⟨s, z, y, h, x, p, n, c⟩
  revert s z y h x p n c
  decide

namespace Cpu

variable (c : Cpu)

theorem query_name (p : Path) : c.query p.name = some (c.observe p) := by
  rw [query, Path.ofName?_name]
  rfl

theorem isSome_query_iff (s : String) : (c.query s).isSome ↔ s ∈ Path.names := by
  rw [query, Option.isSome_map, Option.isSome_iff_exists, Path.mem_names_iff]

/-- The answer for a pair is the word made of the answers for its bytes. -/
def PairAgrees (pair high low : String) : Prop :=
  ∃ h l, c.query high = some (.byte h) ∧ c.query low = some (.byte l) ∧
    c.query pair = some (.word (.ofBytes h l))

/-- Pairs of the main bank and index registers. -/
theorem pairAgrees_of_halves (word : Reg16) (high low : Reg8)
    (hhalves : word.halves? = some (high, low)) :
    c.PairAgrees (Path.pair word).name (Path.byte high).name (Path.byte low).name := by
  refine ⟨_, _, c.query_name (.byte high), c.query_name (.byte low), ?_⟩
  rw [query_name, observe, Registers.readPair_of_halves _ hhalves]

/-- Pairs of the shadow bank. -/
theorem pairAgrees_of_shadow (word : Reg16) (high low : BankRegister)
    (hword : c.registers.readPair word =
      .ofBytes (c.registers.shadow.read high) (c.registers.shadow.read low)) :
    c.PairAgrees (Path.pair word).name (Path.shadow high).name (Path.shadow low).name := by
  refine ⟨_, _, c.query_name (.shadow high), c.query_name (.shadow low), ?_⟩
  rw [query_name, observe, hword]

theorem pairAgrees_of_mem {pair high low : String} (h : (pair, high, low) ∈ Path.pairNames) :
    c.PairAgrees pair high low := by
  simp only [Path.pairNames, List.mem_cons, Prod.mk.injEq, List.not_mem_nil, or_false] at h
  obtain ⟨rfl, rfl, rfl⟩ | ⟨rfl, rfl, rfl⟩ | ⟨rfl, rfl, rfl⟩ | ⟨rfl, rfl, rfl⟩ | ⟨rfl, rfl, rfl⟩ |
    ⟨rfl, rfl, rfl⟩ | ⟨rfl, rfl, rfl⟩ | ⟨rfl, rfl, rfl⟩ | ⟨rfl, rfl, rfl⟩ | ⟨rfl, rfl, rfl⟩ := h
  · exact c.pairAgrees_of_halves .af .a .f rfl
  · exact c.pairAgrees_of_halves .bc .b .c rfl
  · exact c.pairAgrees_of_halves .de .d .e rfl
  · exact c.pairAgrees_of_halves .hl .h .l rfl
  · exact c.pairAgrees_of_shadow .af' .a .f rfl
  · exact c.pairAgrees_of_shadow .bc' .b .c rfl
  · exact c.pairAgrees_of_shadow .de' .d .e rfl
  · exact c.pairAgrees_of_shadow .hl' .h .l rfl
  · exact c.pairAgrees_of_halves .ix .ixh .ixl rfl
  · exact c.pairAgrees_of_halves .iy .iyh .iyl rfl

/-- The answer for F is the byte made of the answers for the flags, bit 7 first. -/
def FlagsAgree : Prop :=
  ∃ s z y h x p n k : Bool,
    c.query "flags.s" = some (.bool s) ∧ c.query "flags.z" = some (.bool z) ∧
    c.query "flags.y" = some (.bool y) ∧ c.query "flags.h" = some (.bool h) ∧
    c.query "flags.x" = some (.bool x) ∧ c.query "flags.p" = some (.bool p) ∧
    c.query "flags.n" = some (.bool n) ∧ c.query "flags.c" = some (.bool k) ∧
    c.query "f" = some (.byte (BitVec.ofBoolListBE [s, z, y, h, x, p, n, k]))

theorem flagsAgree : c.FlagsAgree := by
  refine ⟨_, _, _, _, _, _, _, _, c.query_name (.flag .sign), c.query_name (.flag .zero),
    c.query_name (.flag .f5), c.query_name (.flag .halfCarry), c.query_name (.flag .f3),
    c.query_name (.flag .parityOverflow), c.query_name (.flag .addSubtract),
    c.query_name (.flag .carry), ?_⟩
  refine (c.query_name (.byte .f)).trans ?_
  rw [observe, Registers.read8, Flags.toByte_eq_ofBoolListBE]
  rfl

/-- A name is answered just if it is listed, and no name is listed twice.  The answers for a pair
and for its bytes fit together, and so do those for F and for the flags; the answers for byte and
word registers are what the registers read. -/
theorem query_answers_agree :
    Path.names.Nodup ∧
    ∀ c : Cpu,
      (∀ s, (c.query s).isSome ↔ s ∈ Path.names) ∧
      (∀ pair high low, (pair, high, low) ∈ Path.pairNames → c.PairAgrees pair high low) ∧
      c.FlagsAgree ∧
      (∀ name : Reg8, c.query (Path.byte name).name = some (.byte (c.registers.read8 name))) ∧
      ∀ name : Reg16,
        c.query (Path.pair name).name = some (.word (c.registers.readPair name)) :=
  ⟨Path.nodup_names, fun c => ⟨c.isSome_query_iff, fun _ _ _ => c.pairAgrees_of_mem,
    c.flagsAgree, fun name => c.query_name (.byte name), fun name => c.query_name (.pair name)⟩⟩

/-- The halves of IX are found in its answer, and `flags.` alone is not a name. -/
theorem query_loaded_ix :
    let c : Cpu := { registers := { ix := 0x1234 } }
    c.query "ix" = some (.word 0x1234) ∧ ("ix", "ixh", "ixl") ∈ Path.pairNames ∧
      c.PairAgrees "ix" "ixh" "ixl" ∧ "flags." ∉ Path.names ∧ ¬(c.query "flags.").isSome := by
  intro c
  have hpair : ("ix", "ixh", "ixl") ∈ Path.pairNames := by decide
  have hname : "flags." ∉ Path.names := by decide
  obtain ⟨hsome, hpairs, -, -, hwords⟩ := query_answers_agree.2 c
  exact ⟨hwords .ix, hpair, hpairs _ _ _ hpair, hname, (hsome "flags.").not.mpr hname⟩

end Cpu
end Z80Machine
