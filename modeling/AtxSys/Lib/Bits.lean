import Mathlib.Algebra.Group.Nat.Defs
import Mathlib.Data.Nat.Size
import Mathlib.Tactic.Common

/-!
# Bits in words

A list of words as one string of bits: bit `n` is bit `n % w` of word `n / w`. And the next power of
two, by copying the highest bit of a word down to all lower ones.
-/

namespace Bits

variable {w : Nat}

/-! ### Packed bits -/

def bit (words : List (BitVec w)) (n : Nat) : Bool :=
  (words[n / w]?).any (·.getLsbD (n % w))

def setBit (words : List (BitVec w)) (n : Nat) : List (BitVec w) :=
  words.modify (n / w) (· ||| 1#w <<< (n % w))

def clearBit (words : List (BitVec w)) (n : Nat) : List (BitVec w) :=
  words.modify (n / w) (· &&& ~~~(1#w <<< (n % w)))

section Packed

variable {words : List (BitVec w)} {n m : Nat}

theorem getLsbD_one_shiftLeft {i j : Nat} (hj : j < w) :
    (1#w <<< i).getLsbD j = decide (j = i) := by
  rw [BitVec.getLsbD_shiftLeft, BitVec.getLsbD_one]
  by_cases hji : j = i
  · subst hji
    simp [hj, Nat.zero_lt_of_lt hj]
  · simp only [hji, decide_false]
    by_cases hlt : j < i
    · simp [hlt]
    · simp [hlt, show j - i ≠ 0 by omega]

@[simp]
theorem length_setBit : (setBit words n).length = words.length := List.length_modify ..

@[simp]
theorem length_clearBit : (clearBit words n).length = words.length := List.length_modify ..

/-- Two places are the same if they are the same place of the same word. -/
theorem place_inj (hdiv : n / w = m / w) (hmod : n % w = m % w) : n = m := by
  rw [← Nat.div_add_mod n w, ← Nat.div_add_mod m w, hdiv, hmod]

theorem bit_modify {f : BitVec w → BitVec w} (hw : 0 < w) {b : Bool}
    (hsame : ∀ x j, j < w → j ≠ n % w → (f x).getLsbD j = x.getLsbD j)
    (hset : ∀ x, (f x).getLsbD (n % w) = b) (hn : n / w < words.length) :
    bit (words.modify (n / w) f) m = if m = n then b else bit words m := by
  rw [bit, bit, List.getElem?_modify]
  by_cases hdiv : n / w = m / w
  · simp only [hdiv, if_true]
    rw [← hdiv, List.getElem?_eq_getElem hn]
    by_cases hmn : m = n
    · subst hmn
      simp [hset]
    · have hmod : m % w ≠ n % w := fun h => hmn (place_inj hdiv h.symm).symm
      simp [hmn, hsame _ _ (Nat.mod_lt _ hw) hmod]
  · have hmn : m ≠ n := fun h => hdiv (by rw [h])
    simp [hdiv, hmn]

theorem bit_setBit (hw : 0 < w) (hn : n / w < words.length) :
    bit (setBit words n) m = if m = n then true else bit words m := by
  apply bit_modify hw _ _ hn
  · intro x j hj hne
    rw [BitVec.getLsbD_or, getLsbD_one_shiftLeft hj]
    simp [hne]
  · intro x
    rw [BitVec.getLsbD_or, getLsbD_one_shiftLeft (Nat.mod_lt _ hw)]
    simp

theorem bit_clearBit (hw : 0 < w) (hn : n / w < words.length) :
    bit (clearBit words n) m = if m = n then false else bit words m := by
  apply bit_modify hw _ _ hn
  · intro x j hj hne
    rw [BitVec.getLsbD_and, BitVec.getLsbD_not, getLsbD_one_shiftLeft hj]
    simp [hne, hj]
  · intro x
    rw [BitVec.getLsbD_and, BitVec.getLsbD_not, getLsbD_one_shiftLeft (Nat.mod_lt _ hw)]
    simp

end Packed

/-! ### The next power of two -/

/-- `y` has the bits of `x` that are set at most `d - 1` places higher. -/
def Smeared (x y : BitVec w) (d : Nat) : Prop :=
  ∀ i, y.getLsbD i = true ↔ ∃ j < d, x.getLsbD (i + j) = true

namespace Smeared

variable {x y : BitVec w} {d : Nat}

theorem refl (x : BitVec w) : Smeared x x 1 := by
  intro i
  simp

theorem double (h : Smeared x y d) : Smeared x (y ||| y >>> d) (d + d) := by
  intro i
  rw [BitVec.getLsbD_or, BitVec.getLsbD_ushiftRight, Bool.or_eq_true, h i, h (d + i)]
  constructor
  · rintro (⟨j, hj, hbit⟩ | ⟨j, hj, hbit⟩)
    · exact ⟨j, by omega, hbit⟩
    · exact ⟨d + j, by omega, by rwa [show i + (d + j) = d + i + j by omega]⟩
  · rintro ⟨j, hj, hbit⟩
    by_cases hlt : j < d
    · exact .inl ⟨j, hlt, hbit⟩
    · exact .inr ⟨j - d, by omega, by rwa [show d + i + (j - d) = i + j by omega]⟩

/-- When every lower bit is set, one more is a power of two. -/
theorem toNat_eq (h : Smeared x y w) : y.toNat = 2 ^ x.toNat.size - 1 := by
  apply Nat.eq_of_testBit_eq
  intro i
  rw [Nat.testBit_two_pow_sub_one, BitVec.testBit_toNat, Bool.eq_iff_iff, h i, decide_eq_true_eq,
    Nat.lt_size]
  constructor
  · rintro ⟨j, -, hbit⟩
    rw [← BitVec.testBit_toNat] at hbit
    calc 2 ^ i ≤ 2 ^ (i + j) := Nat.pow_le_pow_right (by decide) (Nat.le_add_right i j)
      _ ≤ x.toNat := Nat.ge_two_pow_of_testBit hbit
  · intro hle
    obtain ⟨j, hj, hbit⟩ := Nat.exists_ge_and_testBit_of_ge_two_pow hle
    rw [BitVec.testBit_toNat] at hbit
    have hlt : j < w := BitVec.lt_of_getLsbD hbit
    exact ⟨j - i, by omega, by rwa [Nat.add_sub_cancel' hj]⟩

end Smeared

end Bits
