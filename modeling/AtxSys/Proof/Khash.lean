import AtxSys.Lib.OpenAddressing
import AtxSys.Proof.KhashFlags

/-!
# The hash table as a table with open addressing

What the arrays say of a bucket, the invariant of a table, and `kh_get`: the loop stops because a
table is never full.
-/

namespace AtxSys

open Bits OpenAddressing

variable {κ ν : Type} (hash : κ → BitVec 32)

/-! ### Buckets -/

/-- The way of a key: `i = (i + (++step)) & mask`. -/
def khProbe (k : Nat) : Probe κ (2 ^ k) := triangular (fun key => (hash key).toNat) k

theorem khProbe_zero (k : Nat) (key : κ) :
    (khProbe hash k).bucket key 0 = (hash key).toNat &&& (2 ^ k - 1) :=
  (Nat.and_two_pow_sub_one_eq_mod _ k).symm

theorem khProbe_succ (k : Nat) (key : κ) (s : Nat) :
    (khProbe hash k).bucket key (s + 1) =
      ((khProbe hash k).bucket key s + (s + 1)) &&& (2 ^ k - 1) := by
  rw [Nat.and_two_pow_sub_one_eq_mod]
  simp only [khProbe, triangular]
  rw [tri_succ, Nat.mod_add_mod, Nat.add_assoc]

section Slots

/-- What is in a bucket, by its flags. -/
def slotAt (flags : KhFlags) (keys : List (Option κ)) (vals : List (Option ν)) (b : Nat) :
    Slot (κ × Option ν) :=
  if emptyBit flags b then .empty
  else if delBit flags b then .deleted
  else
    match keys[b]?.join with
    | some key => .full (key, vals[b]?.join)
    | none => .deleted

def Khash.slots (h : Khash κ ν) : Nat → Slot (κ × Option ν) := slotAt h.flags h.keys h.vals

/-- The keys and values, in the order in which the table is visited. -/
def Khash.entries (h : Khash κ ν) : List (κ × Option ν) :=
  OpenAddressing.entries h.nBuckets h.slots

/-- A bucket whose flags are both clear has a key. -/
def Written (flags : KhFlags) (keys : List (Option κ)) (n : Nat) : Prop :=
  ∀ b < n, emptyBit flags b = false → delBit flags b = false → ∃ key, keys[b]? = some (some key)

variable {flags : KhFlags} {keys : List (Option κ)} {vals : List (Option ν)} {n b : Nat} {key : κ}
  {val : Option ν}

theorem slotAt_eq_empty_iff : slotAt flags keys vals b = .empty ↔ emptyBit flags b = true := by
  unfold slotAt
  split
  · next h => simp [h]
  · next h =>
    refine iff_of_false ?_ h
    split
    · nofun
    · split <;> nofun

theorem slotAt_full (hkey : keys[b]? = some (some key)) (hempty : emptyBit flags b = false)
    (hdel : delBit flags b = false) :
    slotAt flags keys vals b = .full (key, vals[b]?.join) := by
  simp [slotAt, hempty, hdel, hkey]

theorem slotAt_eq_full (h : slotAt flags keys vals b = .full (key, val)) :
    emptyBit flags b = false ∧ delBit flags b = false ∧ keys[b]? = some (some key) ∧
      val = vals[b]?.join := by
  unfold slotAt at h
  split at h
  · cases h
  · next hempty =>
    split at h
    · cases h
    · next hdel =>
      split at h
      · next key' hkey =>
        obtain ⟨rfl, rfl⟩ := Prod.mk.inj (Slot.full.inj h)
        exact ⟨by simpa using hempty, by simpa using hdel, Option.join_eq_some_iff.mp hkey, rfl⟩
      · cases h

theorem slotAt_eq_deleted_iff (hwritten : Written flags keys n) (hb : b < n) :
    slotAt flags keys vals b = .deleted ↔ emptyBit flags b = false ∧ delBit flags b = true := by
  constructor
  · intro h
    have hempty : emptyBit flags b = false := by
      rw [← Bool.not_eq_true]
      intro hset
      have hslot : slotAt flags keys vals b = .empty := slotAt_eq_empty_iff.mpr hset
      rw [hslot] at h
      cases h
    refine ⟨hempty, ?_⟩
    by_contra hdel
    rw [Bool.not_eq_true] at hdel
    obtain ⟨key, hkey⟩ := hwritten b hb hempty hdel
    rw [slotAt_full hkey hempty hdel] at h
    cases h
  · rintro ⟨hempty, hdel⟩
    simp [slotAt, hempty, hdel]

theorem slotAt_congr {flags' : KhFlags} {keys' : List (Option κ)} {vals' : List (Option ν)}
    (hempty : emptyBit flags' b = emptyBit flags b) (hdel : delBit flags' b = delBit flags b)
    (hkeys : keys'[b]? = keys[b]?) (hvals : vals'[b]? = vals[b]?) :
    slotAt flags' keys' vals' b = slotAt flags keys vals b := by
  rw [slotAt, slotAt, hempty, hdel, hkeys, hvals]

end Slots

/-! ### Single buckets -/

section Update

variable {flags : KhFlags} {keys : List (Option κ)} {vals : List (Option ν)} {n x : Nat} {key : κ}
  {val : Option ν}

theorem slotAt_setFull (hflag : x < 16 * flags.length) (hkey : x < keys.length) (key : κ) :
    slotAt (clearBit (clearBit flags (2 * x)) (2 * x + 1)) (keys.set x (some key)) vals =
      Function.update (slotAt flags keys vals) x (.full (key, vals[x]?.join)) := by
  have hflag' : x < 16 * (clearBit flags (2 * x)).length := by rwa [length_clearBit]
  funext b
  by_cases hb : b = x
  · subst hb
    rw [Function.update_self]
    apply slotAt_full
    · exact List.getElem?_set_self hkey
    · rw [emptyBit_clearEmpty hflag', if_pos rfl]
    · rw [delBit_clearEmpty hflag', delBit_clearDel hflag, if_pos rfl]
  · rw [Function.update_of_ne hb]
    apply slotAt_congr _ _ (List.getElem?_set_ne (Ne.symm hb)) rfl
    · rw [emptyBit_clearEmpty hflag', if_neg hb, emptyBit_clearDel hflag]
    · rw [delBit_clearEmpty hflag', delBit_clearDel hflag, if_neg hb]

theorem slotAt_setDel (hflag : x < 16 * flags.length) (hempty : emptyBit flags x = false) :
    slotAt (setBit flags (2 * x)) keys vals =
      Function.update (slotAt flags keys vals) x .deleted := by
  funext b
  by_cases hb : b = x
  · subst hb
    rw [Function.update_self, slotAt, emptyBit_setDel hflag, hempty, delBit_setDel hflag]
    simp
  · rw [Function.update_of_ne hb]
    apply slotAt_congr (emptyBit_setDel hflag) _ rfl rfl
    rw [delBit_setDel hflag, if_neg hb]

theorem slotAt_setVal (hslot : slotAt flags keys vals x = .full (key, val)) (hval : x < vals.length)
    (val' : Option ν) : slotAt flags keys (vals.set x val') =
      Function.update (slotAt flags keys vals) x (.full (key, val')) := by
  obtain ⟨hempty, hdel, hkey, -⟩ := slotAt_eq_full hslot
  funext b
  by_cases hb : b = x
  · subst hb
    rw [Function.update_self, slotAt_full hkey hempty hdel, List.getElem?_set_self hval]
    rfl
  · rw [Function.update_of_ne hb]
    exact slotAt_congr rfl rfl rfl (List.getElem?_set_ne (Ne.symm hb))

theorem Written.setFull (hwritten : Written flags keys n) (hflag : x < 16 * flags.length)
    (hkey : x < keys.length) (key : κ) :
    Written (clearBit (clearBit flags (2 * x)) (2 * x + 1)) (keys.set x (some key)) n := by
  have hflag' : x < 16 * (clearBit flags (2 * x)).length := by rwa [length_clearBit]
  intro b hb hempty hdel
  by_cases hbx : b = x
  · subst hbx
    exact ⟨key, List.getElem?_set_self hkey⟩
  · rw [emptyBit_clearEmpty hflag', if_neg hbx, emptyBit_clearDel hflag] at hempty
    rw [delBit_clearEmpty hflag', delBit_clearDel hflag, if_neg hbx] at hdel
    rw [List.getElem?_set_ne (Ne.symm hbx)]
    exact hwritten b hb hempty hdel

theorem Written.setDel (hwritten : Written flags keys n) (hflag : x < 16 * flags.length) :
    Written (setBit flags (2 * x)) keys n := by
  intro b hb hempty hdel
  rw [emptyBit_setDel hflag] at hempty
  rw [delBit_setDel hflag] at hdel
  split at hdel
  · cases hdel
  · exact hwritten b hb hempty hdel

end Update

/-! ### The invariant -/

/-- A table with `2 ^ k` buckets. -/
structure Khash.Sized (k : Nat) (h : Khash κ ν) : Prop where
  two_le : 2 ≤ k
  nBuckets : h.nBuckets = 2 ^ k
  flags : 2 ^ k ≤ 16 * h.flags.length
  keys : 2 ^ k ≤ h.keys.length
  vals : 2 ^ k ≤ h.vals.length
  written : Written h.flags h.keys (2 ^ k)
  upperBound : h.upperBound = acUpperBound (2 ^ k)
  nOccupied_le : h.nOccupied ≤ h.upperBound
  nOccupied : h.nOccupied = used (2 ^ k) h.slots
  size : h.size = h.entries.length
  valid : Valid Prod.fst (khProbe hash k) h.slots

/-- A table without buckets, as `kh_init` makes it; arrays may be there from a failed attempt to get
buckets. -/
structure Khash.Bare (h : Khash κ ν) : Prop where
  nBuckets : h.nBuckets = 0
  size : h.size = 0
  nOccupied : h.nOccupied = 0
  upperBound : h.upperBound = 0

def Khash.Sound (h : Khash κ ν) : Prop := h.Bare ∨ ∃ k, h.Sized hash k

theorem khInit_bare : (khInit : Khash κ ν).Bare := ⟨rfl, rfl, rfl, rfl⟩

section Sized

variable {hash} {k : Nat} {h : Khash κ ν}

theorem Khash.Bare.entries (hbare : h.Bare) : h.entries = [] := by
  rw [Khash.entries, hbare.nBuckets]
  rfl

namespace Khash.Sized

theorem four_le (hs : h.Sized hash k) : 2 ^ 2 ≤ 2 ^ k :=
  Nat.pow_le_pow_right (by decide) hs.two_le

theorem entries_eq (hs : h.Sized hash k) : h.entries = OpenAddressing.entries (2 ^ k) h.slots := by
  rw [Khash.entries, hs.nBuckets]

theorem nOccupied_lt (hs : h.Sized hash k) : h.nOccupied < 2 ^ k := by
  have hle := hs.nOccupied_le
  rw [hs.upperBound] at hle
  exact Nat.lt_of_le_of_lt hle (acUpperBound_lt hs.four_le)

/-- A table is never full. -/
theorem exists_search (hs : h.Sized hash k) (key : κ) :
    ∃ s, Search Prod.fst (khProbe hash k) h.slots key s := by
  apply OpenAddressing.exists_search
  apply exists_empty
  rw [← hs.nOccupied]
  exact hs.nOccupied_lt

theorem nodup_keys (hs : h.Sized hash k) : (h.entries.map Prod.fst).Nodup := by
  rw [hs.entries_eq]
  exact hs.valid.nodup_keys

theorem size_le (hs : h.Sized hash k) : h.size ≤ h.nOccupied := by
  rw [hs.size, hs.nOccupied, hs.entries_eq]
  exact length_entries_le _ _

theorem flag_lt (hs : h.Sized hash k) {b : Nat} (hb : b < 2 ^ k) : b < 16 * h.flags.length :=
  Nat.lt_of_lt_of_le hb hs.flags

theorem deleted_iff (hs : h.Sized hash k) {b : Nat} (hb : b < 2 ^ k) :
    h.slots b = .deleted ↔ emptyBit h.flags b = false ∧ delBit h.flags b = true :=
  slotAt_eq_deleted_iff hs.written hb

end Khash.Sized

/-! ### Tables with one bucket changed -/

section Change

variable {key : κ} {x : Nat} {val : Option ν}

/-- The table with the key in bucket `x`. -/
def Khash.withKey (h : Khash κ ν) (x : Nat) (key : κ) (nOccupied : Nat) : Khash κ ν :=
  { h with
    keys := h.keys.set x (some key)
    flags := clearBit (clearBit h.flags (2 * x)) (2 * x + 1)
    size := h.size + 1
    nOccupied }

theorem Khash.Sized.withKey_slots (hs : h.Sized hash k) {x : Nat} (hx : x < 2 ^ k) (n : Nat) :
    (h.withKey x key n).slots = Function.update h.slots x (.full (key, h.vals[x]?.join)) :=
  slotAt_setFull (hs.flag_lt hx) (Nat.lt_of_lt_of_le hx hs.keys) key

theorem Khash.Sized.withKey_entries (hs : h.Sized hash k) {x : Nat} (hx : x < 2 ^ k) (n : Nat)
    (hfree : ∀ a, h.slots x ≠ .full a) :
    (h.withKey x key n).entries.Perm ((key, h.vals[x]?.join) :: h.entries) := by
  have hn : (h.withKey x key n).nBuckets = 2 ^ k := hs.nBuckets
  rw [hs.entries_eq, Khash.entries, hn, hs.withKey_slots hx]
  exact entries_insert hx hfree _

/-- A key that is put into a free bucket on its way. -/
theorem Khash.Sized.withKey (hs : h.Sized hash k) {x : Nat} (hx : x < 2 ^ k)
    (hfree : ∀ a, h.slots x ≠ .full a) (habsent : ∀ val, (key, val) ∉ h.entries)
    (hway : ∃ s, (khProbe hash k).bucket key s = x ∧ Unbroken (khProbe hash k) h.slots key s)
    {n : Nat} (hle : n ≤ h.upperBound) (hused : n + (h.slots x).used.toNat = h.nOccupied + 1) :
    (h.withKey x key n).Sized hash k where
  two_le := hs.two_le
  nBuckets := hs.nBuckets
  flags := by
    rw [Khash.withKey, length_clearBit, length_clearBit]
    exact hs.flags
  keys := by
    rw [Khash.withKey, List.length_set]
    exact hs.keys
  vals := hs.vals
  written := hs.written.setFull (hs.flag_lt hx) (Nat.lt_of_lt_of_le hx hs.keys) key
  upperBound := hs.upperBound
  nOccupied_le := hle
  nOccupied := by
    have hcount := used_update h.slots hx (.full (key, h.vals[x]?.join))
    rw [← hs.withKey_slots hx n, ← hs.nOccupied] at hcount
    exact Nat.add_right_cancel (hused.trans hcount.symm)
  size := by
    rw [(hs.withKey_entries hx n hfree).length_eq, List.length_cons, ← hs.size]
    rfl
  valid := by
    obtain ⟨s, hbucket, hunbroken⟩ := hway
    rw [hs.withKey_slots hx]
    apply hs.valid.insert (a := (key, h.vals[x]?.join)) hbucket hunbroken
    rintro c hc ⟨key', val⟩ hslot hkey
    obtain rfl : key' = key := hkey
    apply habsent val
    rw [hs.entries_eq]
    exact mem_entries.mpr ⟨c, hc, hslot⟩

/-- The table without the key in bucket `x`. -/
def Khash.without (h : Khash κ ν) (x : Nat) : Khash κ ν :=
  { h with flags := setBit h.flags (2 * x), size := h.size - 1 }

theorem Khash.Sized.without_slots (hs : h.Sized hash k) (hx : x < 2 ^ k)
    (hslot : h.slots x = .full (key, val)) :
    (h.without x).slots = Function.update h.slots x .deleted :=
  slotAt_setDel (hs.flag_lt hx) (slotAt_eq_full hslot).1

theorem Khash.Sized.without_entries (hs : h.Sized hash k) (hx : x < 2 ^ k)
    (hslot : h.slots x = .full (key, val)) :
    h.entries.Perm ((key, val) :: (h.without x).entries) := by
  have hn : (h.without x).nBuckets = 2 ^ k := hs.nBuckets
  rw [hs.entries_eq, Khash.entries, hn, hs.without_slots hx hslot]
  exact entries_delete hx hslot

theorem Khash.Sized.without (hs : h.Sized hash k) (hx : x < 2 ^ k)
    (hslot : h.slots x = .full (key, val)) : (h.without x).Sized hash k where
  two_le := hs.two_le
  nBuckets := hs.nBuckets
  flags := by
    rw [Khash.without, length_setBit]
    exact hs.flags
  keys := hs.keys
  vals := hs.vals
  written := hs.written.setDel (hs.flag_lt hx)
  upperBound := hs.upperBound
  nOccupied_le := hs.nOccupied_le
  nOccupied := by
    have hcount := used_update h.slots hx .deleted
    rw [← hs.without_slots hx hslot, ← hs.nOccupied, hslot] at hcount
    exact (Nat.add_right_cancel hcount).symm
  size := by
    have hsize : (h.without x).size = h.size - 1 := rfl
    rw [hsize, hs.size, (hs.without_entries hx hslot).length_eq, List.length_cons,
      Nat.add_sub_cancel]
  valid := by
    rw [hs.without_slots hx hslot]
    exact hs.valid.delete x

/-- The table with another value in bucket `x`. -/
def Khash.withVal (h : Khash κ ν) (x : Nat) (val : ν) : Khash κ ν :=
  { h with vals := h.vals.set x (some val) }

theorem Khash.Sized.withVal_slots (hs : h.Sized hash k) (hx : x < 2 ^ k)
    (hslot : h.slots x = .full (key, val)) (val' : ν) :
    (h.withVal x val').slots = Function.update h.slots x (.full (key, some val')) :=
  slotAt_setVal hslot (Nat.lt_of_lt_of_le hx hs.vals) (some val')

/-- Only the entry of this bucket changes. -/
theorem Khash.Sized.withVal_entries (hs : h.Sized hash k) (hx : x < 2 ^ k)
    (hslot : h.slots x = .full (key, val)) (val' : ν) :
    ∃ before after, h.entries = before ++ (key, val) :: after ∧
      (h.withVal x val').entries = before ++ (key, some val') :: after := by
  have hn : (h.withVal x val').nBuckets = 2 ^ k := hs.nBuckets
  obtain ⟨before, after, hold, hnew⟩ :=
    exists_entries_update h.slots hx (.full (key, some val'))
  rw [← hs.withVal_slots hx hslot] at hnew
  rw [hslot] at hold
  refine ⟨before, after, hs.entries_eq.trans hold, ?_⟩
  rw [Khash.entries, hn]
  exact hnew

theorem Khash.Sized.withVal (hs : h.Sized hash k) (hx : x < 2 ^ k)
    (hslot : h.slots x = .full (key, val)) (val' : ν) : (h.withVal x val').Sized hash k where
  two_le := hs.two_le
  nBuckets := hs.nBuckets
  flags := hs.flags
  keys := hs.keys
  vals := by
    rw [Khash.withVal, List.length_set]
    exact hs.vals
  written := hs.written
  upperBound := hs.upperBound
  nOccupied_le := hs.nOccupied_le
  nOccupied := by
    have hcount := used_update h.slots hx (.full (key, some val'))
    rw [← hs.withVal_slots hx hslot, ← hs.nOccupied, hslot] at hcount
    exact (Nat.add_right_cancel hcount).symm
  size := by
    obtain ⟨before, after, hold, hnew⟩ := hs.withVal_entries hx hslot val'
    have hsize : (h.withVal x val').size = h.entries.length := hs.size
    rw [hsize, hold, hnew, List.length_append, List.length_append]
    rfl
  valid := by
    rw [hs.withVal_slots hx hslot]
    exact hs.valid.replace hslot rfl

end Change

/-! ### `kh_del` and `kh_clear` -/

/-- `kh_del` of a bucket with a key takes the key out, and leaves the bucket used. -/
theorem khDel_full (hs : h.Sized hash k) {x : Nat} (hx : x < 2 ^ k) {key : κ} {val : Option ν}
    (hslot : h.slots x = .full (key, val)) : khDel h x = .ok (h.without x) := by
  obtain ⟨hempty, hdel, -⟩ := slotAt_eq_full hslot
  have hflag := hs.flag_lt hx
  have hne : x ≠ h.nBuckets := by
    rw [hs.nBuckets]
    exact hx.ne
  rw [khDel, if_neg hne, acIsEither_eq hflag, hempty, hdel, acSetIsDelTrue_eq hflag]
  rfl

/-- The table with new flags. -/
def Khash.cleared (h : Khash κ ν) : Khash κ ν :=
  { h with
    flags := acEmptyFlags h.nBuckets
    size := 0
    nOccupied := 0 }

namespace Khash.Sized

variable (hs : h.Sized hash k)

include hs

theorem cleared_slots {b : Nat} (hb : b < 2 ^ k) : h.cleared.slots b = .empty := by
  apply slotAt_eq_empty_iff.mpr
  rw [Khash.cleared, hs.nBuckets]
  exact emptyBit_acEmptyFlags (Nat.lt_of_lt_of_le hb le_acFsize)

theorem cleared_entries : h.cleared.entries = [] := by
  have hn : h.cleared.nBuckets = 2 ^ k := hs.nBuckets
  rw [Khash.entries, hn, List.eq_nil_iff_forall_not_mem]
  intro a hmem
  obtain ⟨b, hb, hslot⟩ := mem_entries.mp hmem
  rw [hs.cleared_slots hb] at hslot
  cases hslot

theorem cleared : h.cleared.Sized hash k where
  two_le := hs.two_le
  nBuckets := hs.nBuckets
  flags := by
    rw [Khash.cleared, length_acEmptyFlags, hs.nBuckets]
    exact le_acFsize
  keys := hs.keys
  vals := hs.vals
  written := by
    intro b hb hclear
    have hset := slotAt_eq_empty_iff.mp (hs.cleared_slots hb)
    rw [hset] at hclear
    cases hclear
  upperBound := hs.upperBound
  nOccupied_le := Nat.zero_le _
  nOccupied := by
    refine (List.countP_eq_zero.mpr fun b hb => ?_).symm
    rw [hs.cleared_slots (List.mem_range.mp hb)]
    exact Bool.false_ne_true
  size := congrArg List.length hs.cleared_entries.symm
  valid := by
    apply valid_of_free
    intro b hb a hslot
    rw [hs.cleared_slots hb] at hslot
    cases hslot

theorem khClear_eq : khClear h = h.cleared := by
  apply if_neg
  intro hnil
  have hflags := hs.flags
  rw [hnil] at hflags
  exact absurd (hs.four_le.trans hflags) (by decide)

end Khash.Sized

/-! ### The loop -/

/-- The last deleted bucket before step `s`, or the number of buckets. -/
def Site (hash : κ → BitVec 32) (h : Khash κ ν) (k : Nat) (key : κ) (s site : Nat) : Prop :=
  site = 2 ^ k ∧ (∀ t < s, h.slots ((khProbe hash k).bucket key t) ≠ .deleted) ∨
    ∃ t < s, (khProbe hash k).bucket key t = site ∧ h.slots site = .deleted

variable [DecidableEq κ] {key : κ} {s t : Nat}

/-- The loop goes on at a bucket that is in use by something else. -/
theorem probeLoop_goes (hs : h.Sized hash k) {last fuel i step site : Nat} (hi : i < 2 ^ k)
    (hgoes : h.slots i ≠ .empty) (hother : ∀ val, h.slots i ≠ .full (key, val))
    (hlast : (i + (step + 1)) &&& (2 ^ k - 1) ≠ last) :
    probeLoop h key last (fuel + 1) i step site =
      probeLoop h key last fuel ((i + (step + 1)) &&& (2 ^ k - 1)) (step + 1)
        (if delBit h.flags i then i else site) := by
  have hflag := hs.flag_lt hi
  have hempty : emptyBit h.flags i = false := by
    rw [← Bool.not_eq_true]
    exact fun hempty => hgoes (slotAt_eq_empty_iff.mpr hempty)
  rw [probeLoop, acIsEmpty_eq hflag, acIsDel_eq hflag, hempty, hs.nBuckets]
  simp only [kh_bind_ok, Bool.false_eq_true, if_false]
  cases hdel : delBit h.flags i with
  | true =>
      simp only [if_true]
      rw [if_neg hlast]
  | false =>
      obtain ⟨found, hfound⟩ := hs.written i hi hempty hdel
      have hne : found ≠ key := by
        rintro rfl
        exact hother _ (slotAt_full hfound hempty hdel)
      simp only [Bool.false_eq_true, if_false, readKey_eq hfound, kh_bind_ok, hne, decide_false]
      rw [if_neg hlast]

/-- It stops where the search does. -/
theorem probeLoop_stops (hs : h.Sized hash k) {last fuel i step site : Nat} (hi : i < 2 ^ k)
    (hstop : h.slots i = .empty ∨ ∃ a, h.slots i = .full a ∧ a.1 = key) :
    probeLoop h key last (fuel + 1) i step site = .ok (some i, site) := by
  have hflag := hs.flag_lt hi
  rw [probeLoop, acIsEmpty_eq hflag]
  rcases hstop with hempty | ⟨⟨key, val⟩, hfull, rfl⟩
  · rw [slotAt_eq_empty_iff.mp hempty]
    rfl
  · obtain ⟨hempty, hdel, hkey, -⟩ := slotAt_eq_full hfull
    rw [hempty, acIsDel_eq hflag, hdel]
    simp [readKey_eq hkey]

theorem probeLoop_search (hs : h.Sized hash k)
    (hsearch : Search Prod.fst (khProbe hash k) h.slots key t) {left fuel site : Nat}
    (hleft : s + left = t) (hfuel : left < fuel) (hsite : Site hash h k key s site) :
    ∃ site', probeLoop h key ((khProbe hash k).bucket key 0) fuel ((khProbe hash k).bucket key s) s
        site = .ok (some ((khProbe hash k).bucket key t), site') ∧ Site hash h k key t site' := by
  induction left generalizing s fuel site with
  | zero =>
      obtain ⟨fuel, rfl⟩ := Nat.exists_eq_add_of_lt hfuel
      obtain rfl := hleft
      rw [Nat.zero_add]
      exact ⟨site, probeLoop_stops hs ((khProbe hash k).bucket_lt key s) hsearch.stops, hsite⟩
  | succ left ih =>
      have hlt := (khProbe hash k).bucket_lt key s
      have hbefore : s < t := by omega
      have hgoes := hsearch.goes s hbefore
      -- the first bucket does not come again within the search
      have hback : (khProbe hash k).bucket key (s + 1) ≠ (khProbe hash k).bucket key 0 := by
        intro heq
        have hsame := (khProbe hash k).inj key (s + 1) 0 (Nat.lt_of_le_of_lt hbefore hsearch.lt)
          (Nat.two_pow_pos k) heq
        omega
      rw [khProbe_succ] at hback
      obtain ⟨fuel, rfl⟩ : ∃ f, fuel = f + 1 := ⟨fuel - 1, by omega⟩
      rw [probeLoop_goes hs hlt (fun h => hgoes (.inl h)) (fun val h => hgoes (.inr ⟨_, h, rfl⟩))
        hback, ← khProbe_succ]
      apply ih (by omega) (by omega)
      split
      · next hdel =>
        have hempty : emptyBit h.flags ((khProbe hash k).bucket key s) = false := by
          rw [← Bool.not_eq_true]
          exact fun hempty => hgoes (.inl (slotAt_eq_empty_iff.mpr hempty))
        exact .inr ⟨s, Nat.lt_succ_self s, rfl, (hs.deleted_iff hlt).mpr ⟨hempty, hdel⟩⟩
      · next hdel =>
        rcases hsite with ⟨rfl, hnone⟩ | ⟨u, hu, hsite⟩
        · refine .inl ⟨rfl, fun u hu hslot => ?_⟩
          rcases Nat.lt_succ_iff_lt_or_eq.mp hu with hu | rfl
          · exact hnone u hu hslot
          · exact hdel ((hs.deleted_iff hlt).mp hslot).2
        · exact .inr ⟨u, Nat.lt_succ_of_lt hu, hsite⟩

/-- The loop of `kh_get` and `kh_put` from its start. -/
theorem probeLoop_eq (hs : h.Sized hash k)
    (hsearch : Search Prod.fst (khProbe hash k) h.slots key t) :
    ∃ site, probeLoop h key ((hash key).toNat &&& (h.nBuckets - 1)) (2 * h.nBuckets)
        ((hash key).toNat &&& (h.nBuckets - 1)) 0 h.nBuckets =
      .ok (some ((khProbe hash k).bucket key t), site) ∧ Site hash h k key t site := by
  have hstart : Site hash h k key 0 h.nBuckets := .inl ⟨hs.nBuckets, nofun⟩
  have hlt := hsearch.lt
  rw [hs.nBuckets] at hstart ⊢
  rw [← khProbe_zero]
  exact probeLoop_search hs hsearch (Nat.zero_add t) (by omega) hstart

/-! ### `kh_get` -/

/-- **Looking up a key.** `kh_get` ends, reads inside the arrays only, and returns the bucket of the
key, or the number of buckets if the key is not there. -/
theorem khGet_spec (hs : h.Sized hash k) (key : κ) :
    ∃ i, khGet hash h key = .ok i ∧
      (i < 2 ^ k ∧ (∃ val, h.slots i = .full (key, val)) ∨
        i = 2 ^ k ∧ ∀ val, (key, val) ∉ h.entries) := by
  obtain ⟨t, hsearch⟩ := hs.exists_search key
  obtain ⟨site, hloop, -⟩ := probeLoop_eq hs hsearch
  have hlt := (khProbe hash k).bucket_lt key t
  have hflag := hs.flag_lt hlt
  have hne : h.nBuckets ≠ 0 := by
    rw [hs.nBuckets]
    exact Nat.two_pow_pos k |>.ne'
  simp only [khGet, if_neg hne, hloop, kh_bind_ok, acIsEither_eq hflag]
  rcases hsearch.stops with hempty | ⟨⟨key', val⟩, hfull, hkey⟩
  · rw [slotAt_eq_empty_iff.mp hempty, Bool.or_true, if_pos rfl]
    refine ⟨_, rfl, .inr ⟨hs.nBuckets, fun val hmem => ?_⟩⟩
    rw [hs.entries_eq] at hmem
    obtain ⟨b, hb, hslot⟩ := mem_entries.mp hmem
    have hfound := hs.valid.found hsearch hb hslot rfl
    rw [hfound, hslot] at hempty
    cases hempty
  · obtain rfl : key' = key := hkey
    obtain ⟨hempty, hdel, -⟩ := slotAt_eq_full hfull
    rw [hempty, hdel]
    exact ⟨_, rfl, .inl ⟨hlt, val, hfull⟩⟩

/-! ### `kh_put` where there is room -/

/-- The bucket for a key: its own, or a free one on its way. -/
theorem khSite_spec (hs : h.Sized hash k) (key : κ) :
    ∃ x, khSite hash h key = .ok x ∧ x < 2 ^ k ∧
      ((∃ val, h.slots x = .full (key, val)) ∨
        (∀ a, h.slots x ≠ .full a) ∧ (∀ val, (key, val) ∉ h.entries) ∧
          ∃ s, (khProbe hash k).bucket key s = x ∧ Unbroken (khProbe hash k) h.slots key s) := by
  obtain ⟨t, hsearch⟩ := hs.exists_search key
  obtain ⟨site, hloop, hsite⟩ := probeLoop_eq hs hsearch
  have hlt := (khProbe hash k).bucket_lt key t
  rw [khSite]
  simp only [hloop, kh_bind_ok, acIsEmpty_eq (hs.flag_lt hlt)]
  rw [hs.nBuckets]
  rcases hsearch.stops with hempty | ⟨⟨key', val⟩, hfull, hkey⟩
  · have habsent : ∀ val, (key, val) ∉ h.entries := by
      intro val hmem
      rw [hs.entries_eq] at hmem
      obtain ⟨b, hb, hslot⟩ := mem_entries.mp hmem
      have hfound := hs.valid.found hsearch hb hslot rfl
      rw [hfound, hslot] at hempty
      cases hempty
    rw [slotAt_eq_empty_iff.mp hempty]
    rcases hsite with ⟨rfl, -⟩ | ⟨u, hu, hbucket, hdeleted⟩
    · refine ⟨_, congrArg _ (if_neg (by simp)), hlt, .inr ⟨?_, habsent, t, rfl, hsearch.unbroken⟩⟩
      intro a hfull
      rw [hempty] at hfull
      cases hfull
    · have hltSite : site < 2 ^ k := hbucket ▸ (khProbe hash k).bucket_lt key u
      refine ⟨_, congrArg _ (if_pos ⟨rfl, hltSite.ne⟩), hltSite, .inr ⟨?_, habsent, u, hbucket, ?_⟩⟩
      · intro a hfull
        rw [hdeleted] at hfull
        cases hfull
      · exact fun v hv => hsearch.unbroken v (hv.trans hu)
  · obtain rfl : key' = key := hkey
    obtain ⟨hempty, -⟩ := slotAt_eq_full hfull
    rw [hempty]
    exact ⟨_, congrArg _ (if_neg (by simp)), hlt, .inl ⟨val, hfull⟩⟩

/-- What `kh_put` makes of a table with room: it keeps the table of a key that is there, and returns
0; or it adds the key. -/
structure Put (hash : κ → BitVec 32) (k : Nat) (h h' : Khash κ ν) (key : κ) (x : Nat) (ret : Int) :
    Prop where
  sized : h'.Sized hash k
  lt : x < 2 ^ k
  slot : ∃ val, h'.slots x = .full (key, val)
  present : ret = 0 → h' = h
  absent : ret ≠ 0 → (∀ val, (key, val) ∉ h.entries) ∧
    ∃ val, h'.entries.Perm ((key, val) :: h.entries)
  ret : ret = 0 ∨ ret = 1 ∨ ret = 2

theorem khPut_of_room (hs : h.Sized hash k) (hroom : h.nOccupied < h.upperBound) {alloc : KhAlloc}
    {h₀ : Khash κ ν} (hmake : khMakeRoom hash alloc h₀ = .ok (0, h)) (key : κ) :
    ∃ x ret h', khPut hash alloc h₀ key = .ok (x, ret, h') ∧ Put hash k h h' key x ret := by
  obtain ⟨x, hsite, hx, hcases⟩ := khSite_spec hs key
  have hflag := hs.flag_lt hx
  have hkey : x < h.keys.length := Nat.lt_of_lt_of_le hx hs.keys
  rw [khPut, hmake, kh_bind_ok]
  dsimp only
  rw [if_neg (by decide), hsite, kh_bind_ok, acIsEmpty_eq hflag, kh_bind_ok, acIsDel_eq hflag,
    writeAt_eq hkey, acSetIsBothFalse_eq hflag]
  simp only [kh_bind_ok]
  rcases hcases with ⟨val, hfull⟩ | ⟨hfree, habsent, hway⟩
  · obtain ⟨hempty, hdel, -⟩ := slotAt_eq_full hfull
    rw [hempty, hdel]
    exact ⟨x, 0, h, rfl, hs, hx, ⟨val, hfull⟩, fun _ => rfl, fun h => absurd rfl h, .inl rfl⟩
  · cases hempty : emptyBit h.flags x with
    | true =>
        have hslot : h.slots x = .empty := slotAt_eq_empty_iff.mpr hempty
        have hsized := hs.withKey hx hfree habsent hway hroom (by rw [hslot]; rfl)
        refine ⟨x, 1, h.withKey x key (h.nOccupied + 1), rfl, hsized, hx, ⟨h.vals[x]?.join, ?_⟩,
          nofun,
          fun _ => ?_,
          .inr (.inl rfl)⟩
        · rw [hs.withKey_slots hx, Function.update_self]
        · exact ⟨habsent, _, hs.withKey_entries hx _ hfree⟩
    | false =>
        have hdel : delBit h.flags x = true := by
          by_contra hdel
          rw [Bool.not_eq_true] at hdel
          obtain ⟨key', hkey'⟩ := hs.written x hx hempty hdel
          exact hfree _ (slotAt_full hkey' hempty hdel)
        have hslot : h.slots x = .deleted := (hs.deleted_iff hx).mpr ⟨hempty, hdel⟩
        have hsized := hs.withKey hx hfree habsent hway hs.nOccupied_le (by rw [hslot]; rfl)
        rw [hdel]
        refine ⟨x, 2, h.withKey x key h.nOccupied, rfl, hsized, hx, ⟨h.vals[x]?.join, ?_⟩, nofun,
          fun _ => ?_,
          .inr (.inr rfl)⟩
        · rw [hs.withKey_slots hx, Function.update_self]
        · exact ⟨habsent, _, hs.withKey_entries hx _ hfree⟩

end Sized

end AtxSys
