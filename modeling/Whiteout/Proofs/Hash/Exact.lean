import Mathlib.Algebra.Group.Nat.Defs
import Whiteout.CommandLine.Run

/-!
# The hash in exact numbers

The hash as a recurrence over the natural numbers: sixteen times the hash so far and the next byte
are added in 32 bits, and the sum's top nibble is moved down from bit 28 to bit 4. Words follow this
recurrence because their top nibble is clear after every byte. So the shift that makes room for the
next byte is a product, and of all that is done to a word the addition alone can wrap.
-/

namespace Whiteout.Hash

variable {hash : UInt32} {value : Nat}

def foldBack (sum : UInt32) : UInt32 :=
  let high := sum &&& 0xF0000000
  (sum ^^^ (high >>> 24)) &&& ~~~high

theorem step_eq (hash : UInt32) (byte : UInt8) :
    step hash byte = foldBack ((hash <<< 4) + byte.toUInt32) := rfl

def exactFold (sum : Nat) : Nat := (sum % 2 ^ 28) ^^^ (16 * (sum / 2 ^ 28))

def exactStep (value : Nat) (byte : UInt8) : Nat :=
  exactFold ((16 * value + byte.toNat) % 2 ^ 32)

/-- The hash as its recurrence gives it, over numbers of any size. -/
def exactElf (bytes : Bytes) : Nat := bytes.foldl exactStep 0

theorem exactElf_append_singleton (bytes : Bytes) (byte : UInt8) :
    exactElf (bytes ++ [byte]) = exactStep (exactElf bytes) byte := by
  simp [exactElf]

theorem exactStep_lt (value : Nat) (byte : UInt8) : exactStep value byte < 2 ^ 28 := by
  have hsum : (16 * value + byte.toNat) % 2 ^ 32 < 2 ^ 32 := Nat.mod_lt _ (by decide)
  apply Nat.xor_lt_two_pow
  · exact Nat.mod_lt _ (by decide)
  · omega

theorem testBit_topNibble (i : Nat) :
    (0xF0000000 : UInt32).toNat.testBit i = (decide (28 ≤ i) && decide (i < 32)) := by
  have hmask : (0xF0000000 : UInt32).toNat = 2 ^ 28 * (2 ^ 4 - 1) := rfl
  rw [hmask, Nat.testBit_two_pow_mul, Nat.testBit_two_pow_sub_one]
  by_cases hi : 28 ≤ i
  · have hwidth : i - 28 < 4 ↔ i < 32 := by omega
    simp [hi, hwidth]
  · simp [hi]

theorem testBit_high (word : UInt32) (i : Nat) :
    (word &&& 0xF0000000).toNat.testBit i = (decide (28 ≤ i) && word.toNat.testBit i) := by
  rw [UInt32.toNat_and, Nat.testBit_and, testBit_topNibble]
  by_cases hwidth : i < 32
  · simp [hwidth, Bool.and_comm]
  · have hbeyond : word.toNat.testBit i = false :=
      BitVec.getLsbD_of_ge word.toBitVec i (Nat.le_of_not_lt hwidth)
    simp [hbeyond]

theorem toNat_high (word : UInt32) :
    (word &&& 0xF0000000).toNat = 2 ^ 28 * (word.toNat / 2 ^ 28) := by
  apply Nat.eq_of_testBit_eq
  intro i
  rw [testBit_high, Nat.testBit_two_pow_mul, Nat.testBit_div_two_pow]
  by_cases hi : 28 ≤ i
  · rw [Nat.sub_add_cancel hi]
  · simp [hi]

theorem toNat_low (word : UInt32) :
    (word &&& ~~~(word &&& 0xF0000000)).toNat = word.toNat % 2 ^ 28 := by
  apply Nat.eq_of_testBit_eq
  intro i
  have hnot : (~~~(word &&& 0xF0000000)).toNat.testBit i =
      (decide (i < 32) && !(word &&& 0xF0000000).toNat.testBit i) := BitVec.getLsbD_not
  rw [UInt32.toNat_and, Nat.testBit_and, hnot, testBit_high, Nat.testBit_mod_two_pow]
  by_cases hi : i < 28
  · have hwidth : i < 32 := by omega
    simp [hi, hwidth]
  · have hhigh : 28 ≤ i := Nat.le_of_not_lt hi
    cases word.toNat.testBit i <;> simp [hi, hhigh]

theorem toNat_moved (sum : UInt32) :
    ((sum &&& 0xF0000000) >>> 24).toNat = 16 * (sum.toNat / 2 ^ 28) := by
  have hamount : (24 : UInt32).toNat % 32 = 24 := rfl
  rw [UInt32.toNat_shiftRight, hamount, Nat.shiftRight_eq_div_pow, toNat_high]
  omega

theorem toNat_foldBack (sum : UInt32) : (foldBack sum).toNat = exactFold sum.toNat := by
  have hsum : sum.toNat < 2 ^ 32 := sum.toNat_lt
  have hmoved : 16 * (sum.toNat / 2 ^ 28) < 2 ^ 28 := by omega
  have hfolded : (sum ^^^ ((sum &&& 0xF0000000) >>> 24)).toNat =
      sum.toNat ^^^ (16 * (sum.toNat / 2 ^ 28)) := by
    rw [UInt32.toNat_xor, toNat_moved]
  -- the nibble arrives below bit 28, so the one that is cleared is still that of the sum
  have hhigh : (sum ^^^ ((sum &&& 0xF0000000) >>> 24)) &&& 0xF0000000 = sum &&& 0xF0000000 := by
    rw [← UInt32.toNat_inj, toNat_high, toNat_high, hfolded, Nat.xor_div_two_pow,
      Nat.div_eq_of_lt hmoved, Nat.xor_zero]
  calc (foldBack sum).toNat
      = (sum ^^^ ((sum &&& 0xF0000000) >>> 24)).toNat % 2 ^ 28 := by
        rw [← toNat_low, hhigh, foldBack]
    _ = (sum.toNat % 2 ^ 28) ^^^ (16 * (sum.toNat / 2 ^ 28) % 2 ^ 28) := by
        rw [hfolded, Nat.xor_mod_two_pow]
    _ = exactFold sum.toNat := by rw [Nat.mod_eq_of_lt hmoved, exactFold]

structure Follows (hash : UInt32) (value : Nat) : Prop where
  toNat_eq : hash.toNat = value
  clear : value < 2 ^ 28

theorem Follows.shifted (h : Follows hash value) : (hash <<< 4).toNat = 16 * value := by
  have hamount : (4 : UInt32).toNat % 32 = 4 := rfl
  have hclear : value < 2 ^ 28 := h.clear
  rw [UInt32.toNat_shiftLeft, hamount, Nat.shiftLeft_eq, h.toNat_eq]
  omega

theorem Follows.next (h : Follows hash value) (byte : UInt8) :
    Follows (step hash byte) (exactStep value byte) where
  toNat_eq := by
    rw [step_eq, toNat_foldBack, UInt32.toNat_add, h.shifted, UInt8.toNat_toUInt32, exactStep]
  clear := exactStep_lt value byte

theorem Follows.run (h : Follows hash value) (bytes : Bytes) :
    Follows (bytes.foldl step hash) (bytes.foldl exactStep value) := by
  induction bytes generalizing hash value with
  | nil => exact h
  | cons byte rest ih => exact ih (h.next byte)

theorem follows_elf (bytes : Bytes) : Follows (elf bytes) (exactElf bytes) := by
  have hstart : Follows 0 0 := ⟨rfl, by decide⟩
  exact hstart.run bytes

/-- The sum of two words falls short of the sum of their values. -/
def Wraps (a b : UInt32) : Prop := (a + b).toNat ≠ a.toNat + b.toNat

theorem wraps_iff {a b : UInt32} : Wraps a b ↔ 2 ^ 32 ≤ a.toNat + b.toNat := by
  rw [Wraps, UInt32.toNat_add]
  omega

/-- The hash is what the recurrence comes to, and its top nibble is clear. So the shift before a
byte loses nothing, and the addition that puts the byte in wraps exactly where the sum of the
numbers has no room in a word. -/
theorem elf_exactly (bytes : Bytes) :
    (elf bytes).toNat = exactElf bytes ∧ exactElf bytes < 2 ^ 28 ∧
    (elf bytes <<< 4).toNat = 16 * exactElf bytes ∧
    ∀ byte : UInt8,
      exactElf (bytes ++ [byte]) = exactFold ((16 * exactElf bytes + byte.toNat) % 2 ^ 32) ∧
      elf (bytes ++ [byte]) = foldBack ((elf bytes <<< 4) + byte.toUInt32) ∧
      (Wraps (elf bytes <<< 4) byte.toUInt32 ↔ 2 ^ 32 ≤ 16 * exactElf bytes + byte.toNat) := by
  have hfollows := follows_elf bytes
  refine ⟨hfollows.toNat_eq, hfollows.clear, hfollows.shifted, fun byte => ⟨?_, ?_, ?_⟩⟩
  · rw [exactElf_append_singleton, exactStep]
  · rw [elf_append_singleton, step_eq]
  · rw [wraps_iff, hfollows.shifted, UInt8.toNat_toUInt32]

/-- Seven bytes set all bits below the top nibble, and the eighth one carries out of the word. -/
theorem elf_exactly_sample :
    exactElf (List.replicate 7 0x0F) = 2 ^ 28 - 1 ∧
    Wraps (elf (List.replicate 7 0x0F) <<< 4) 0x10 ∧
    elf (List.replicate 7 0x0F ++ [0x10]) = 0 := by
  obtain ⟨-, -, -, hbyte⟩ := elf_exactly (List.replicate 7 0x0F)
  obtain ⟨-, hnext, hwraps⟩ := hbyte 0x10
  have hfull : exactElf (List.replicate 7 0x0F) = 2 ^ 28 - 1 := by decide
  refine ⟨hfull, hwraps.2 ?_, ?_⟩
  · rw [hfull]
    decide
  · rw [hnext]
    decide

end Whiteout.Hash
