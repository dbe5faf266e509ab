import AtxSys.Proof.KhashResize

/-!
# Putting keys into the hash table

`kh_put` makes room before it looks for a bucket: it clears the deleted elements out of a table that
is at most half full, and doubles any other one.
-/

namespace AtxSys

open OpenAddressing

variable {κ ν : Type} {hash : κ → BitVec 32} {h h' : Khash κ ν} {alloc : KhAlloc} {k : Nat}

/-! ### Making room -/

/-- One of the allocations for a table of its size or a larger one fails. -/
def KhAlloc.CanFail (alloc : KhAlloc) : Prop :=
  alloc.flags = false ∨ alloc.keys = false ∨ alloc.vals = false

theorem KhAlloc.Fails.canFail {n : Nat} (hfails : alloc.Fails h n) : alloc.CanFail := by
  rcases hfails with hflags | ⟨-, hkeys | hvals⟩
  · exact .inl hflags
  · exact .inr (.inl hkeys)
  · exact .inr (.inr hvals)

/-- A table with the same elements and a bucket to spare. -/
structure Roomy (hash : κ → BitVec 32) (k : Nat) (h h' : Khash κ ν) : Prop where
  sized : h'.Sized hash k
  room : h'.nOccupied < h'.upperBound
  entries : h'.entries.Perm h.entries
  le : k ≤ 31

theorem Resized.roomy {ret : Int} (hresized : Resized hash alloc k h ret h')
    (hroom : h.size < acUpperBound (2 ^ k)) (hk : k ≤ 31) :
    ret = -1 ∧ Extends h h' ∧ alloc.CanFail ∨ ret = 0 ∧ Roomy hash k h h' := by
  cases hresized with
  | small hsmall => exact absurd hroom (Nat.not_lt_of_le hsmall)
  | failed _ hfails hext => exact .inl ⟨rfl, hext, hfails.canFail⟩
  | moved _ hmoved =>
      refine .inr ⟨rfl, hmoved.sized, ?_, hmoved.entries, hk⟩
      rw [hmoved.nOccupied, hmoved.sized.upperBound]
      exact hroom

/-- The new size has room for one more element, whether it is the same or the next one. A table
grows only if it is half full. -/
theorem khMakeRoom_resizes (alloc : KhAlloc) (hs : h.Sound hash) (hle : h.nBuckets ≤ 2 ^ 31)
    (hfew : h.size < 2 ^ 30)
    (hfull : h.upperBound ≤ h.nOccupied) :
    ∃ n k, khMakeRoom hash alloc h = khResize hash alloc h n ∧ 2 ≤ k ∧ k ≤ 31 ∧
      khRoundup n = 2 ^ k ∧ h.nBuckets ≤ 2 ^ k ∧ h.size < acUpperBound (2 ^ k) := by
  rw [khMakeRoom, if_pos hfull, Nat.shiftLeft_eq]
  rcases hs with hbare | ⟨k, hs⟩
  · have hhalf := half_lt_acUpperBound (Nat.le_refl (2 ^ 2))
    refine ⟨h.nBuckets + 1, 2, if_neg ?_, Nat.le_refl 2, by decide, ?_, ?_, ?_⟩
    · rw [hbare.size, hbare.nBuckets]
      exact Nat.lt_irrefl 0
    · rw [hbare.nBuckets]
      rfl
    · rw [hbare.nBuckets]
      exact Nat.zero_le _
    · rw [hbare.size]
      omega
  · have hn := hs.nBuckets
    rw [hn] at hle ⊢
    have hk : k ≤ 31 := (Nat.pow_le_pow_iff_right (by decide)).mp hle
    have hfour := hs.four_le
    have hhalf := half_lt_acUpperBound hfour
    by_cases hsparse : h.size * 2 < 2 ^ k
    · rw [if_pos hsparse]
      exact ⟨_, k, rfl, hs.two_le, hk, khRoundup_pred hs.two_le hk, Nat.le_refl _, by omega⟩
    · have hpow : 2 ^ (k + 1) = 2 * 2 ^ k := by rw [Nat.pow_succ, Nat.mul_comm]
      have hhalf' := half_lt_acUpperBound (n := 2 ^ (k + 1)) (by omega)
      have hsize := hs.size_le
      have hused := hs.nOccupied_lt
      have hlt : k < 31 := (Nat.pow_lt_pow_iff_right (by decide : 1 < 2)).mp (by omega)
      rw [if_neg hsparse]
      exact ⟨_, k + 1, rfl, hs.two_le.trans (Nat.le_succ k), hlt, khRoundup_succ hs.two_le hlt,
        by omega, by omega⟩

theorem khMakeRoom_spec (alloc : KhAlloc) (hs : h.Sound hash) (hle : h.nBuckets ≤ 2 ^ 31)
    (hfew : h.size < 2 ^ 30) :
    ∃ ret h', khMakeRoom hash alloc h = .ok (ret, h') ∧
      (ret = -1 ∧ Extends h h' ∧ alloc.CanFail ∨ ret = 0 ∧ ∃ k, Roomy hash k h h') := by
  rcases Nat.lt_or_ge h.nOccupied h.upperBound with hroom | hfull
  · rcases id hs with hbare | ⟨k, hsized⟩
    · rw [hbare.upperBound] at hroom
      exact absurd hroom (Nat.not_lt_zero _)
    · refine ⟨0, h, if_neg (Nat.not_le_of_lt hroom), .inr ⟨rfl, k, hsized, hroom, .refl _, ?_⟩⟩
      rw [hsized.nBuckets] at hle
      exact (Nat.pow_le_pow_iff_right (by decide)).mp hle
  · obtain ⟨n, k, hmake, htwo, hk, hround, hlarger, hroom⟩ :=
      khMakeRoom_resizes alloc hs hle hfew hfull
    obtain ⟨ret, h', hrun, hresized⟩ := khResize_spec alloc hs htwo hround (.inl hlarger)
    refine ⟨ret, h', hmake.trans hrun, ?_⟩
    exact (hresized.roomy hroom hk).imp_right fun ⟨hret, hroomy⟩ => ⟨hret, k, hroomy⟩

/-! ### `kh_put` -/

/-- What `kh_put` makes of a table: the key has bucket `x` afterwards, and it is new if the result
is not 0. -/
structure Added (hash : κ → BitVec 32) (k : Nat) (h h' : Khash κ ν) (key : κ) (x : Nat)
    (ret : Int) :
    Prop where
  sized : h'.Sized hash k
  lt : x < 2 ^ k
  slot : ∃ val, h'.slots x = .full (key, val)
  entries : (ret = 0 ∧ h'.entries.Perm h.entries) ∨
    (ret = 1 ∨ ret = 2) ∧ (∀ val, (key, val) ∉ h.entries) ∧
      ∃ val, h'.entries.Perm ((key, val) :: h.entries)
  le : k ≤ 31

/-- **Putting a key.** `kh_put` ends and stays inside the arrays, whatever the table and the key
are. It fails only with an allocation, and then the table has the elements that it had. -/
theorem khPut_spec [DecidableEq κ] (alloc : KhAlloc) (hs : h.Sound hash) (hle : h.nBuckets ≤ 2 ^ 31)
    (hfew : h.size < 2 ^ 30) (key : κ) :
    ∃ x ret h', khPut hash alloc h key = .ok (x, ret, h') ∧
      (ret = -1 ∧ Extends h h' ∧ alloc.CanFail ∨ ∃ k, Added hash k h h' key x ret) := by
  obtain ⟨ret, h₁, hmake, ⟨rfl, hext, hfails⟩ | ⟨rfl, k, hroomy⟩⟩ :=
    khMakeRoom_spec alloc hs hle hfew
  · refine ⟨h₁.nBuckets, -1, h₁, ?_, .inl ⟨rfl, hext, hfails⟩⟩
    rw [khPut, hmake]
    rfl
  · obtain ⟨x, ret, h', hrun, hput⟩ := khPut_of_room hroomy.sized hroomy.room hmake key
    refine ⟨x, ret, h', hrun, .inr ⟨k, hput.sized, hput.lt, hput.slot, ?_, hroomy.le⟩⟩
    rcases hput.ret with hzero | hnew
    · left
      rw [hput.present hzero]
      exact ⟨hzero, hroomy.entries⟩
    · have hne : ret ≠ 0 := by omega
      obtain ⟨habsent, val, hperm⟩ := hput.absent hne
      refine .inr ⟨hnew, fun val hmem => habsent val (hroomy.entries.mem_iff.mpr hmem), val, ?_⟩
      exact hperm.trans (hroomy.entries.cons _)

end AtxSys
