import AtxSys.Khash
import AtxSys.Lib.Bits

/-!
# Flags and sizes of the hash table

The flags are a string of bits, two for each bucket, and a requested size is rounded up to a power
of two.
-/

namespace AtxSys

open Bits

/-! ### Memory -/

section Memory

variable {α : Type} {l : List α} {i : Nat} {a : α}

theorem readAt_eq (h : l[i]? = some a) : readAt l i = .ok a := by
  rw [readAt, h]

theorem writeAt_eq (h : i < l.length) : writeAt l i a = .ok (l.set i a) := if_pos h

theorem readKey_eq {keys : List (Option α)} (h : keys[i]? = some (some a)) :
    readKey keys i = .ok a := by
  rw [readKey, readAt_eq h]
  rfl

@[simp]
theorem kh_bind_ok {β γ : Type} (b : β) (f : β → Kh γ) : ((.ok b : Kh β) >>= f) = f b := rfl

theorem kh_exists_of_isOk {β : Type} {r : Kh β} (h : r.isOk = true) : ∃ b, r = .ok b := by
  cases r with
  | error e => cases h
  | ok b => exact ⟨b, rfl⟩

theorem length_krealloc (l : List (Option α)) (n : Nat) : (krealloc l n).length = n := by
  rw [krealloc, List.length_append, List.length_take, List.length_replicate]
  omega

theorem getElem?_krealloc {l : List (Option α)} {n : Nat} (hi : i < l.length) (hn : i < n) :
    (krealloc l n)[i]? = l[i]? := by
  rw [krealloc, List.getElem?_append_left (by rw [List.length_take]; omega),
    List.getElem?_take_of_lt hn]

end Memory

/-! ### Flags -/

section Flags

variable {flags : KhFlags} {i j : Nat}

def emptyBit (flags : KhFlags) (i : Nat) : Bool := bit flags (2 * i + 1)

def delBit (flags : KhFlags) (i : Nat) : Bool := bit flags (2 * i)

theorem bne_zero_iff {w : Nat} {x : BitVec w} : (x != 0) = true ↔ ∃ j, x.getLsbD j = true := by
  rw [bne_iff_ne]
  constructor
  · intro hne
    by_contra hnone
    apply hne
    apply BitVec.eq_of_getLsbD_eq
    intro j _
    have hzero : (0 : BitVec w).getLsbD j = false := BitVec.getLsbD_zero
    rw [hzero, ← Bool.not_eq_true]
    exact fun hj => hnone ⟨j, hj⟩
  · rintro ⟨j, hj⟩ rfl
    have hzero : (0 : BitVec w).getLsbD j = false := BitVec.getLsbD_zero
    exact Bool.false_ne_true (hzero.symm.trans hj)

/-- The place of a bucket in its word. -/
theorem place_eq (i : Nat) : i >>> 4 = i / 16 ∧ (i &&& 0xf) <<< 1 = 2 * (i % 16) := by
  constructor
  · exact Nat.shiftRight_eq_div_pow i 4
  · rw [Nat.shiftLeft_eq, Nat.and_two_pow_sub_one_eq_mod i 4]
    omega

theorem bit_eq {word : BitVec 32} (hword : flags[i / 16]? = some word) {d : Nat} (hd : d < 2) :
    bit flags (2 * i + d) = word.getLsbD (2 * (i % 16) + d) := by
  have hdiv : (2 * i + d) / 32 = i / 16 := by omega
  have hmod : (2 * i + d) % 32 = 2 * (i % 16) + d := by omega
  rw [bit, hdiv, hmod, hword]
  rfl

theorem getElem?_word (hi : i < 16 * flags.length) : ∃ word, flags[i / 16]? = some word :=
  ⟨_, List.getElem?_eq_getElem (by omega)⟩

theorem acBits_eq (hi : i < 16 * flags.length) (mask : BitVec 32) :
    ∃ x : BitVec 32, acBits flags i mask = .ok (x &&& mask) ∧ x.getLsbD 0 = delBit flags i ∧
      x.getLsbD 1 = emptyBit flags i := by
  obtain ⟨word, hword⟩ := getElem?_word hi
  obtain ⟨hdiv, hshift⟩ := place_eq i
  refine ⟨word >>> (2 * (i % 16)), ?_, ?_, ?_⟩
  · rw [acBits, hdiv, hshift, readAt_eq hword]
    rfl
  · rw [BitVec.getLsbD_ushiftRight, delBit]
    exact (bit_eq hword (by decide)).symm
  · rw [BitVec.getLsbD_ushiftRight, emptyBit]
    exact (bit_eq hword (by decide)).symm

theorem getLsbD_mask (j : Nat) : (1#32).getLsbD j = decide (j = 0) ∧
    (2#32).getLsbD j = decide (j = 1) ∧ (3#32).getLsbD j = (decide (j = 0) || decide (j = 1)) := by
  match j with
  | 0 | 1 => exact ⟨rfl, rfl, rfl⟩
  | j + 2 =>
    have hlt : ∀ m < 4, Nat.testBit m (j + 2) = false := fun m hm =>
      Nat.testBit_lt_two_pow (Nat.lt_of_lt_of_le hm (Nat.pow_le_pow_right (by decide) (by omega) :
        2 ^ 2 ≤ 2 ^ (j + 2)))
    simp [BitVec.getLsbD_ofNat, hlt]

theorem acIsEmpty_eq (hi : i < 16 * flags.length) :
    acIsEmpty flags i = .ok (emptyBit flags i) := by
  obtain ⟨x, hx, -, hempty⟩ := acBits_eq hi 2
  rw [acIsEmpty, hx, kh_bind_ok, ← hempty]
  congr 1
  rw [Bool.eq_iff_iff, bne_zero_iff]
  simp [getLsbD_mask]

theorem acIsDel_eq (hi : i < 16 * flags.length) : acIsDel flags i = .ok (delBit flags i) := by
  obtain ⟨x, hx, hdel, -⟩ := acBits_eq hi 1
  rw [acIsDel, hx, kh_bind_ok, ← hdel]
  congr 1
  rw [Bool.eq_iff_iff, bne_zero_iff]
  simp

theorem acIsEither_eq (hi : i < 16 * flags.length) :
    acIsEither flags i = .ok (delBit flags i || emptyBit flags i) := by
  obtain ⟨x, hx, hdel, hempty⟩ := acBits_eq hi 3
  rw [acIsEither, hx, kh_bind_ok, ← hdel, ← hempty]
  congr 1
  rw [Bool.eq_iff_iff, bne_zero_iff]
  simp [getLsbD_mask, and_or_left, exists_or]

/-- A mask over one word changes the bits of its bucket only. -/
theorem set_word_eq {f : BitVec 32 → BitVec 32} {d : Nat} (hd : d < 2) :
    flags.modify (i / 16) f = flags.modify ((2 * i + d) / 32) f := by
  congr 1
  omega

theorem set_eq_modify {word : BitVec 32} (hword : flags[i / 16]? = some word)
    (f : BitVec 32 → BitVec 32) : flags.set (i / 16) (f word) = flags.modify (i / 16) f := by
  rw [List.modify_eq_set_getElem?, hword]
  rfl

theorem acSetIsDelTrue_eq (hi : i < 16 * flags.length) :
    acSetIsDelTrue flags i = .ok (setBit flags (2 * i)) := by
  obtain ⟨word, hword⟩ := getElem?_word hi
  obtain ⟨hdiv, hshift⟩ := place_eq i
  have hmod : 2 * i % 32 = 2 * (i % 16) := by omega
  rw [acSetIsDelTrue, hdiv, hshift, readAt_eq hword, kh_bind_ok,
    set_eq_modify hword (· ||| 1#32 <<< (2 * (i % 16))), setBit, hmod]
  rw [set_word_eq (show 0 < 2 by decide)]
  rfl

theorem two_shiftLeft (s : Nat) : 2#32 <<< s = 1#32 <<< (s + 1) := by
  rw [Nat.add_comm, BitVec.shiftLeft_add]
  rfl

theorem acSetIsEmptyFalse_eq (hi : i < 16 * flags.length) :
    acSetIsEmptyFalse flags i = .ok (clearBit flags (2 * i + 1)) := by
  obtain ⟨word, hword⟩ := getElem?_word hi
  obtain ⟨hdiv, hshift⟩ := place_eq i
  have hmod : (2 * i + 1) % 32 = 2 * (i % 16) + 1 := by omega
  rw [acSetIsEmptyFalse, hdiv, hshift, readAt_eq hword, kh_bind_ok, two_shiftLeft,
    set_eq_modify hword (· &&& ~~~(1#32 <<< (2 * (i % 16) + 1))), clearBit, hmod]
  rw [set_word_eq (show 1 < 2 by decide)]

theorem three_shiftLeft (s : Nat) : 3#32 <<< s = 1#32 <<< s ||| 1#32 <<< (s + 1) := by
  rw [← two_shiftLeft, ← BitVec.shiftLeft_or_distrib]
  rfl

theorem acSetIsBothFalse_eq (hi : i < 16 * flags.length) :
    acSetIsBothFalse flags i = .ok (clearBit (clearBit flags (2 * i)) (2 * i + 1)) := by
  obtain ⟨word, hword⟩ := getElem?_word hi
  obtain ⟨hdiv, hshift⟩ := place_eq i
  have hmod : 2 * i % 32 = 2 * (i % 16) := by omega
  have hmod' : (2 * i + 1) % 32 = 2 * (i % 16) + 1 := by omega
  have hplace : 2 * i / 32 = i / 16 := by omega
  have hplace' : (2 * i + 1) / 32 = i / 16 := by omega
  rw [acSetIsBothFalse, hdiv, hshift, readAt_eq hword, kh_bind_ok, three_shiftLeft,
    set_eq_modify hword (· &&& ~~~(1#32 <<< (2 * (i % 16)) ||| 1#32 <<< (2 * (i % 16) + 1))),
    clearBit, clearBit, hmod, hmod', hplace, hplace', List.modify_modify_eq]
  congr 2
  funext x
  simp only [Function.comp]
  rw [BitVec.not_or, BitVec.and_assoc]

@[simp]
theorem emptyBit_setDel (hi : i < 16 * flags.length) :
    emptyBit (setBit flags (2 * i)) j = emptyBit flags j := by
  rw [emptyBit, bit_setBit (by decide) (by omega), if_neg (by omega), emptyBit]

@[simp]
theorem delBit_setDel (hi : i < 16 * flags.length) :
    delBit (setBit flags (2 * i)) j = if j = i then true else delBit flags j := by
  rw [delBit, bit_setBit (by decide) (by omega), delBit]
  exact if_congr (by omega) rfl rfl

@[simp]
theorem emptyBit_clearEmpty (hi : i < 16 * flags.length) :
    emptyBit (clearBit flags (2 * i + 1)) j = if j = i then false else emptyBit flags j := by
  rw [emptyBit, bit_clearBit (by decide) (by omega), emptyBit]
  exact if_congr (by omega) rfl rfl

@[simp]
theorem delBit_clearEmpty (hi : i < 16 * flags.length) :
    delBit (clearBit flags (2 * i + 1)) j = delBit flags j := by
  rw [delBit, bit_clearBit (by decide) (by omega), if_neg (by omega), delBit]

theorem emptyBit_clearDel (hi : i < 16 * flags.length) :
    emptyBit (clearBit flags (2 * i)) j = emptyBit flags j := by
  rw [emptyBit, bit_clearBit (by decide) (by omega), if_neg (by omega), emptyBit]

theorem delBit_clearDel (hi : i < 16 * flags.length) :
    delBit (clearBit flags (2 * i)) j = if j = i then false else delBit flags j := by
  rw [delBit, bit_clearBit (by decide) (by omega), delBit]
  exact if_congr (by omega) rfl rfl

/-! ### A fresh array of flags -/

theorem le_acFsize {k : Nat} : 2 ^ k ≤ 16 * acFsize (2 ^ k) := by
  rw [acFsize]
  split
  · omega
  · next hge =>
    obtain ⟨k, rfl⟩ : ∃ d, k = 4 + d := by
      refine ⟨k - 4, ?_⟩
      have : 4 ≤ k := by
        by_contra hlt
        have : 2 ^ k ≤ 2 ^ 3 := Nat.pow_le_pow_right (by decide) (by omega)
        omega
      omega
    have hpow : 2 ^ (4 + k) = 16 * 2 ^ k := Nat.pow_add 2 4 k
    have hdiv : 2 ^ (4 + k) >>> 4 = 2 ^ k := by
      rw [Nat.shiftRight_eq_div_pow, hpow]
      exact Nat.mul_div_cancel_left _ (by decide)
    exact Nat.le_of_eq (hpow.trans (congrArg (16 * ·) hdiv.symm))

theorem length_acEmptyFlags (n : Nat) : (acEmptyFlags n).length = acFsize n :=
  List.length_replicate

theorem getElem?_acEmptyFlags {n : Nat} (hi : i < 16 * acFsize n) :
    (acEmptyFlags n)[i / 16]? = some 0xaaaaaaaa#32 :=
  List.getElem?_replicate_of_lt (by omega)

theorem emptyBit_acEmptyFlags {n : Nat} (hi : i < 16 * acFsize n) :
    emptyBit (acEmptyFlags n) i = true := by
  rw [emptyBit, bit_eq (getElem?_acEmptyFlags hi) (by decide)]
  have hall : ∀ r < 16, (0xaaaaaaaa#32).getLsbD (2 * r + 1) = true := by decide
  exact hall _ (Nat.mod_lt _ (by decide))

theorem delBit_acEmptyFlags {n : Nat} (hi : i < 16 * acFsize n) :
    delBit (acEmptyFlags n) i = false := by
  rw [delBit, ← Nat.add_zero (2 * i), bit_eq (getElem?_acEmptyFlags hi) (by decide)]
  have hall : ∀ r < 16, (0xaaaaaaaa#32).getLsbD (2 * r + 0) = false := by decide
  exact hall _ (Nat.mod_lt _ (by decide))

end Flags

/-! ### Sizes -/

theorem toNat_kroundup32 {x : BitVec 32} (hpos : 0 < x.toNat) (hle : x.toNat ≤ 2 ^ 31) :
    (kroundup32 x).toNat = 2 ^ (x.toNat - 1).size := by
  have hsmeared := (Smeared.refl (x - 1)).double.double.double.double.double
  have hpred : (x - 1).toNat = x.toNat - 1 := by
    apply BitVec.toNat_sub_of_le
    exact BitVec.le_def.mpr hpos
  have hsize : (x.toNat - 1).size ≤ 31 := Nat.size_le.mpr (by omega)
  have hpow : 2 ^ (x.toNat - 1).size ≤ 2 ^ 31 := Nat.pow_le_pow_right (by decide) hsize
  have heq := hsmeared.toNat_eq
  rw [hpred] at heq
  have hone : 1 ≤ 2 ^ (x.toNat - 1).size := Nat.one_le_two_pow
  have hlast : (1 : BitVec 32).toNat = 1 := rfl
  rw [kroundup32, BitVec.toNat_add, heq, hlast, Nat.sub_add_cancel hone]
  exact Nat.mod_eq_of_lt (by omega)

/-- The power of two that `kh_resize` takes for a requested size. -/
theorem khRoundup_eq {n : Nat} (hle : n ≤ 2 ^ 31) : khRoundup n = 2 ^ max 2 (n - 1).size := by
  rcases Nat.eq_zero_or_pos n with rfl | hpos
  · rfl
  have hn : (BitVec.ofNat 32 n).toNat = n := by
    rw [BitVec.toNat_ofNat]
    exact Nat.mod_eq_of_lt (by omega)
  rw [khRoundup, toNat_kroundup32 (by rwa [hn]) (by rwa [hn]), hn]
  split
  · next hlt =>
    have hsize : (n - 1).size < 2 := (Nat.pow_lt_pow_iff_right (by decide : 1 < 2)).mp hlt
    have hmax : max 2 (n - 1).size = 2 := Nat.max_eq_left (by omega)
    exact (by decide : 4 = 2 ^ 2).trans (congrArg (2 ^ ·) hmax.symm)
  · next hge =>
    have hsize : 2 ≤ (n - 1).size :=
      (Nat.pow_le_pow_iff_right (by decide : 1 < 2)).mp (Nat.le_of_not_lt hge)
    rw [Nat.max_eq_right hsize]

theorem size_two_pow_sub {k d : Nat} (hd : 0 < d) (hle : d ≤ 2 ^ k) :
    (2 ^ (k + 1) - d).size = k + 1 := by
  have hpow : 2 ^ (k + 1) = 2 * 2 ^ k := by rw [Nat.pow_succ, Nat.mul_comm]
  apply Nat.le_antisymm
  · exact Nat.size_le.mpr (by omega)
  · exact Nat.lt_size.mpr (by omega)

/-- The larger table. -/
theorem khRoundup_succ {k : Nat} (hk : 2 ≤ k) (hlt : k < 31) :
    khRoundup (2 ^ k + 1) = 2 ^ (k + 1) := by
  have hpow : 2 ^ k < 2 ^ 31 := Nat.pow_lt_pow_right (by decide) hlt
  have hsize : (2 ^ k + 1 - 1).size = k + 1 := Nat.size_pow
  rw [khRoundup_eq hpow, hsize, Nat.max_eq_right (by omega)]

/-- A table of the same size. -/
theorem khRoundup_pred {k : Nat} (hk : 2 ≤ k) (hle : k ≤ 31) : khRoundup (2 ^ k - 1) = 2 ^ k := by
  obtain ⟨k, rfl⟩ : ∃ j, k = j + 1 := ⟨k - 1, by omega⟩
  have hpow : 2 ^ (k + 1) ≤ 2 ^ 31 := Nat.pow_le_pow_right (by decide) hle
  have hfour : 2 ^ 2 ≤ 2 ^ (k + 1) := Nat.pow_le_pow_right (by decide) hk
  have htwo : 2 ^ 1 ≤ 2 ^ k := Nat.pow_le_pow_right (by decide) (by omega)
  rw [khRoundup_eq (by omega), Nat.sub_sub, size_two_pow_sub (by decide) (by omega),
    Nat.max_eq_right hk]

theorem acUpperBound_lt {n : Nat} (hn : 4 ≤ n) : acUpperBound n < n := by
  rw [acUpperBound]
  omega

theorem half_lt_acUpperBound {n : Nat} (hn : 4 ≤ n) : n < 2 * acUpperBound n := by
  rw [acUpperBound]
  omega

end AtxSys
