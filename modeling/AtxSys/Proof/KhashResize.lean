import AtxSys.Proof.Khash

/-!
# Growing the hash table in place

`kh_resize` moves the elements to their new buckets inside of the arrays that they stand in. While
it does, each bucket belongs to the old table, to the new one or to none, and one element may be in
hand. No element is lost: those that are left in the old table, the one in hand and those in the new
table are the elements that were there in the beginning.
-/

namespace AtxSys

open Bits OpenAddressing

variable {κ ν : Type} {hash : κ → BitVec 32}

/-! ### Buckets of two tables -/

section Slots

variable {flags newFlags : KhFlags} {keys : List (Option κ)} {vals : List (Option ν)} {i : Nat}

/-- An element that is put into an empty bucket of the new table. -/
theorem slotAt_setNew (hflag : i < 16 * flags.length) (hdel : delBit flags i = false)
    (hkey : i < keys.length) (hval : i < vals.length) (key : κ) (val : Option ν) :
    slotAt (clearBit flags (2 * i + 1)) (keys.set i (some key)) (vals.set i val) =
      Function.update (slotAt flags keys vals) i (.full (key, val)) := by
  funext b
  by_cases hb : b = i
  · subst hb
    rw [Function.update_self, slotAt_full (List.getElem?_set_self hkey),
      List.getElem?_set_self hval]
    · rfl
    · rw [emptyBit_clearEmpty hflag, if_pos rfl]
    · rw [delBit_clearEmpty hflag, hdel]
  · rw [Function.update_of_ne hb]
    apply slotAt_congr _ (delBit_clearEmpty hflag) (List.getElem?_set_ne (Ne.symm hb))
      (List.getElem?_set_ne (Ne.symm hb))
    rw [emptyBit_clearEmpty hflag, if_neg hb]

/-- What is written to a bucket that the old table does not use. -/
theorem slotAt_setDead (hdead : emptyBit flags i = true ∨ delBit flags i = true) (key : Option κ)
    (val : Option ν) :
    slotAt flags (keys.set i key) (vals.set i val) = slotAt flags keys vals := by
  funext b
  by_cases hb : b = i
  · subst hb
    rcases hdead with hempty | hdel
    · rw [slotAt, slotAt, if_pos hempty, if_pos hempty]
    · rw [slotAt, slotAt, if_pos hdel, if_pos hdel]
  · exact slotAt_congr rfl rfl (List.getElem?_set_ne (Ne.symm hb))
      (List.getElem?_set_ne (Ne.symm hb))

theorem slotAt_free_of_dead (hdead : emptyBit flags i = true ∨ delBit flags i = true)
    (a : κ × Option ν) : slotAt flags keys vals i ≠ .full a := by
  rintro hfull
  obtain ⟨hempty, hdel, -⟩ := slotAt_eq_full hfull
  rcases hdead with h | h
  · rw [hempty] at h
    cases h
  · rw [hdel] at h
    cases h

end Slots

/-! ### The state of a move -/

namespace KhMove

def oldSlots (m : KhMove κ ν) : Nat → Slot (κ × Option ν) := slotAt m.flags m.keys m.vals

def newSlots (m : KhMove κ ν) : Nat → Slot (κ × Option ν) := slotAt m.newFlags m.keys m.vals

/-- The elements still to be moved from the `n` old buckets. -/
def left (m : KhMove κ ν) (n : Nat) : List (κ × Option ν) := entries n m.oldSlots

/-- The elements in their new buckets. -/
def moved (m : KhMove κ ν) (k : Nat) : List (κ × Option ν) := entries (2 ^ k) m.newSlots

end KhMove

/-- A move from `n` buckets to `2 ^ k`. -/
structure Moving (hash : κ → BitVec 32) (n k : Nat) (m : KhMove κ ν) : Prop where
  flags : n ≤ 16 * m.flags.length
  newFlags : 2 ^ k ≤ 16 * m.newFlags.length
  oldKeys : n ≤ m.keys.length
  newKeys : 2 ^ k ≤ m.keys.length
  oldVals : n ≤ m.vals.length
  newVals : 2 ^ k ≤ m.vals.length
  written : Written m.flags m.keys n
  newWritten : Written m.newFlags m.keys (2 ^ k)
  /-- the new table has no deleted element -/
  delBit : ∀ b < 2 ^ k, delBit m.newFlags b = false
  /-- a bucket of the new table is none of the old one any more -/
  apart : ∀ b < n, b < 2 ^ k → emptyBit m.newFlags b = false →
    emptyBit m.flags b = true ∨ AtxSys.delBit m.flags b = true
  valid : Valid Prod.fst (khProbe hash k) m.newSlots

namespace Moving

variable {n k i : Nat} {m : KhMove κ ν} {key : κ} {val : Option ν}

theorem used_eq (hm : Moving hash n k m) : used (2 ^ k) m.newSlots = (m.moved k).length := by
  rw [used, KhMove.moved, entries, List.length_filterMap_eq_countP]
  apply List.countP_congr
  intro b hb
  have hb := List.mem_range.mp hb
  cases hslot : m.newSlots b with
  | empty => rfl
  | full a => simp [Slot.used, Slot.element?]
  | deleted =>
      obtain ⟨-, hdel⟩ := (slotAt_eq_deleted_iff hm.newWritten hb).mp hslot
      rw [hm.delBit b hb] at hdel
      cases hdel

/-- An element is put into the first empty bucket on its way. -/
theorem exists_empty (hm : Moving hash n k m) (hroom : (m.moved k).length < 2 ^ k)
    (hnew : ∀ val, (key, val) ∉ m.moved k) :
    ∃ t < 2 ^ k, emptyBit m.newFlags ((khProbe hash k).bucket key t) = true ∧
      Unbroken (khProbe hash k) m.newSlots key t := by
  have hempty : ∃ b < 2 ^ k, m.newSlots b = .empty := by
    apply OpenAddressing.exists_empty
    rwa [hm.used_eq]
  obtain ⟨t, hsearch⟩ : ∃ t, Search Prod.fst (khProbe hash k) m.newSlots key t :=
    exists_search hempty key
  refine ⟨t, hsearch.lt, ?_, hsearch.unbroken⟩
  rcases hsearch.stops with hslot | ⟨⟨key', val⟩, hslot, hkey⟩
  · exact slotAt_eq_empty_iff.mp hslot
  · obtain rfl : key' = key := hkey
    exact absurd (mem_entries.mpr ⟨_, (khProbe hash k).bucket_lt _ _, hslot⟩) (hnew val)

end Moving

/-! ### Steps of a move -/

namespace KhMove

/-- The element of an old bucket is in hand. -/
def take (m : KhMove κ ν) (i : Nat) : KhMove κ ν := { m with flags := setBit m.flags (2 * i) }

/-- The element in hand is put into a new bucket. -/
def put (m : KhMove κ ν) (i : Nat) (key : κ) (val : Option ν) : KhMove κ ν :=
  { m with
    newFlags := clearBit m.newFlags (2 * i + 1)
    keys := m.keys.set i (some key)
    vals := m.vals.set i val }

/-- The old table does not use the bucket. -/
def Dead (m : KhMove κ ν) (i : Nat) : Prop :=
  emptyBit m.flags i = true ∨ delBit m.flags i = true

end KhMove

namespace Moving

variable {n k i : Nat} {m : KhMove κ ν} {key : κ} {val : Option ν}

theorem dead_of_free (hm : Moving hash n k m) (hi : i < n) (hfree : ∀ a, m.oldSlots i ≠ .full a) :
    m.Dead i := by
  by_contra hlive
  rw [KhMove.Dead, not_or, Bool.not_eq_true, Bool.not_eq_true] at hlive
  obtain ⟨key, hkey⟩ := hm.written i hi hlive.1 hlive.2
  exact hfree _ (slotAt_full hkey hlive.1 hlive.2)

section Take

variable (hm : Moving hash n k m) (hi : i < n) (hslot : m.oldSlots i = .full (key, val))

include hm hi

theorem dead_take_iff {b : Nat} : (m.take i).Dead b ↔ b = i ∨ m.Dead b := by
  have hflag := Nat.lt_of_lt_of_le hi hm.flags
  rw [KhMove.Dead, KhMove.Dead, KhMove.take, emptyBit_setDel hflag, delBit_setDel hflag]
  by_cases hb : b = i <;> simp [hb]

include hslot

theorem take_oldSlots : (m.take i).oldSlots = Function.update m.oldSlots i .deleted :=
  slotAt_setDel (Nat.lt_of_lt_of_le hi hm.flags) (slotAt_eq_full hslot).1

theorem take_left : (m.left n).Perm ((key, val) :: (m.take i).left n) := by
  rw [KhMove.left, KhMove.left, hm.take_oldSlots hi hslot]
  exact entries_delete hi hslot

omit hslot in
theorem take : Moving hash n k (m.take i) where
  flags := by
    rw [KhMove.take, length_setBit]
    exact hm.flags
  newFlags := hm.newFlags
  oldKeys := hm.oldKeys
  newKeys := hm.newKeys
  oldVals := hm.oldVals
  newVals := hm.newVals
  written := hm.written.setDel (Nat.lt_of_lt_of_le hi hm.flags)
  newWritten := hm.newWritten
  delBit := hm.delBit
  apart := fun b hb hbk hnew => (hm.dead_take_iff hi).mpr (.inr (hm.apart b hb hbk hnew))
  valid := hm.valid

end Take

section Put

variable (hm : Moving hash n k m) (hi : i < 2 ^ k) (hempty : emptyBit m.newFlags i = true)

include hm hi

theorem put_newSlots (key : κ) (val : Option ν) :
    (m.put i key val).newSlots = Function.update m.newSlots i (.full (key, val)) :=
  slotAt_setNew (Nat.lt_of_lt_of_le hi hm.newFlags) (hm.delBit i hi)
    (Nat.lt_of_lt_of_le hi hm.newKeys) (Nat.lt_of_lt_of_le hi hm.newVals) key val

include hempty in
theorem put_moved (key : κ) (val : Option ν) :
    ((m.put i key val).moved k).Perm ((key, val) :: m.moved k) := by
  rw [KhMove.moved, KhMove.moved, hm.put_newSlots hi]
  apply entries_insert hi
  intro a hfull
  have hslot : m.newSlots i = .empty := slotAt_eq_empty_iff.mpr hempty
  rw [hslot] at hfull
  cases hfull

omit hm hi in
theorem put_left (hdead : i < n → m.Dead i) (key : κ) (val : Option ν) :
    (m.put i key val).left n = m.left n := by
  apply entries_congr
  intro b hb
  by_cases hbi : b = i
  · rw [KhMove.oldSlots, KhMove.oldSlots, KhMove.put, slotAt_setDead (hdead (hbi ▸ hb))]
  · exact slotAt_congr rfl rfl (List.getElem?_set_ne (Ne.symm hbi))
      (List.getElem?_set_ne (Ne.symm hbi))

theorem put (hdead : i < n → m.Dead i)
    (hway : ∃ s, (khProbe hash k).bucket key s = i ∧ Unbroken (khProbe hash k) m.newSlots key s)
    (hnew : ∀ val, (key, val) ∉ m.moved k) (val : Option ν) :
    Moving hash n k (m.put i key val) where
  flags := hm.flags
  newFlags := by
    rw [KhMove.put, length_clearBit]
    exact hm.newFlags
  oldKeys := by
    rw [KhMove.put, List.length_set]
    exact hm.oldKeys
  newKeys := by
    rw [KhMove.put, List.length_set]
    exact hm.newKeys
  oldVals := by
    rw [KhMove.put, List.length_set]
    exact hm.oldVals
  newVals := by
    rw [KhMove.put, List.length_set]
    exact hm.newVals
  written := by
    intro b hb hempty hdel
    have hbi : b ≠ i := by
      rintro rfl
      rcases hdead hb with h | h
      · exact Bool.false_ne_true (hempty.symm.trans h)
      · exact Bool.false_ne_true (hdel.symm.trans h)
    rw [KhMove.put, List.getElem?_set_ne (Ne.symm hbi)]
    exact hm.written b hb hempty hdel
  newWritten := by
    intro b hb hempty hdel
    by_cases hbi : b = i
    · subst hbi
      exact ⟨key, List.getElem?_set_self (Nat.lt_of_lt_of_le hi hm.newKeys)⟩
    · rw [KhMove.put, emptyBit_clearEmpty (Nat.lt_of_lt_of_le hi hm.newFlags), if_neg hbi] at hempty
      rw [KhMove.put, List.getElem?_set_ne (Ne.symm hbi)]
      exact hm.newWritten b hb hempty (hm.delBit b hb)
  delBit := by
    intro b hb
    rw [KhMove.put, delBit_clearEmpty (Nat.lt_of_lt_of_le hi hm.newFlags)]
    exact hm.delBit b hb
  apart := by
    intro b hb hbk hempty
    by_cases hbi : b = i
    · exact hbi ▸ hdead (hbi ▸ hb)
    · rw [KhMove.put, emptyBit_clearEmpty (Nat.lt_of_lt_of_le hi hm.newFlags), if_neg hbi] at hempty
      exact hm.apart b hb hbk hempty
  valid := by
    obtain ⟨s, hbucket, hunbroken⟩ := hway
    rw [hm.put_newSlots hi]
    apply hm.valid.insert (a := (key, val)) hbucket hunbroken
    rintro c hc ⟨key', val'⟩ hslot hkey
    obtain rfl : key' = key := hkey
    exact hnew val' (mem_entries.mpr ⟨c, hc, hslot⟩)

end Put

end Moving

/-! ### The loops -/

section Loops

variable {n k i s t : Nat} {m : KhMove κ ν} {key : κ} {val : Option ν}

theorem emptyLoop_search {newFlags : KhFlags} (hflags : 2 ^ k ≤ 16 * newFlags.length)
    (hstop : emptyBit newFlags ((khProbe hash k).bucket key t) = true)
    (hgoes : ∀ u < t, emptyBit newFlags ((khProbe hash k).bucket key u) = false) {left fuel : Nat}
    (hleft : s + left = t) (hfuel : left < fuel) :
    emptyLoop newFlags (2 ^ k - 1) fuel ((khProbe hash k).bucket key s) s =
      .ok ((khProbe hash k).bucket key t) := by
  induction left generalizing s fuel with
  | zero =>
      obtain ⟨fuel, rfl⟩ := Nat.exists_eq_add_of_lt hfuel
      obtain rfl := hleft
      have hlt := (khProbe hash k).bucket_lt key s
      rw [Nat.zero_add, emptyLoop, acIsEmpty_eq (Nat.lt_of_lt_of_le hlt hflags)]
      simp only [Nat.add_zero] at hstop
      rw [hstop]
      rfl
  | succ left ih =>
      obtain ⟨fuel, rfl⟩ : ∃ f, fuel = f + 1 := ⟨fuel - 1, by omega⟩
      have hlt := (khProbe hash k).bucket_lt key s
      rw [emptyLoop, acIsEmpty_eq (Nat.lt_of_lt_of_le hlt hflags), hgoes s (by omega)]
      have hnext := @ih (s + 1) fuel (by omega) (by omega)
      rw [khProbe_succ] at hnext
      exact hnext

theorem emptyLoop_eq (hm : Moving hash n k m)
    (hempty : emptyBit m.newFlags ((khProbe hash k).bucket key t) = true)
    (hway : Unbroken (khProbe hash k) m.newSlots key t) (ht : t < 2 ^ k) :
    emptyLoop m.newFlags (2 ^ k - 1) (2 ^ k) ((hash key).toNat &&& (2 ^ k - 1)) 0 =
      .ok ((khProbe hash k).bucket key t) := by
  rw [← khProbe_zero]
  apply emptyLoop_search hm.newFlags hempty _ (Nat.zero_add t) ht
  intro u hu
  rw [← Bool.not_eq_true]
  exact fun h => hway u hu (slotAt_eq_empty_iff.mpr h)

end Loops

/-! ### The kick-out process -/

section Kick

variable {n k i : Nat} {m : KhMove κ ν} {key : κ} {val : Option ν} {fuel : Nat}

/-- The bucket at which the element in hand goes. -/
structure Free (hash : κ → BitVec 32) (k : Nat) (m : KhMove κ ν) (key : κ) (i : Nat) : Prop where
  lt : i < 2 ^ k
  empty : emptyBit m.newFlags i = true
  way : ∃ s, (khProbe hash k).bucket key s = i ∧ Unbroken (khProbe hash k) m.newSlots key s
  loop : emptyLoop m.newFlags (2 ^ k - 1) (2 ^ k) ((hash key).toNat &&& (2 ^ k - 1)) 0 = .ok i

theorem Moving.exists_free (hm : Moving hash n k m) (hroom : (m.moved k).length < 2 ^ k)
    (hnew : ∀ val, (key, val) ∉ m.moved k) : ∃ i, Free hash k m key i := by
  obtain ⟨t, ht, hempty, hway⟩ := hm.exists_empty hroom hnew
  exact ⟨_, (khProbe hash k).bucket_lt key t, hempty, ⟨t, rfl, hway⟩,
    emptyLoop_eq hm hempty hway ht⟩

theorem kickLoop_stops (hm : Moving hash n k m) (hfree : Free hash k m key i)
    (hdead : i < n → m.Dead i) :
    kickLoop hash n (2 ^ k) (fuel + 1) m key val = .ok (m.put i key val) := by
  have hkey : i < m.keys.length := Nat.lt_of_lt_of_le hfree.lt hm.newKeys
  have hval : i < m.vals.length := Nat.lt_of_lt_of_le hfree.lt hm.newVals
  rw [kickLoop, hfree.loop, kh_bind_ok,
    acSetIsEmptyFalse_eq (Nat.lt_of_lt_of_le hfree.lt hm.newFlags), kh_bind_ok]
  by_cases hi : i < n
  · have heither : (delBit m.flags i || emptyBit m.flags i) = true :=
      (Bool.or_eq_true _ _).mpr (hdead hi).symm
    rw [if_pos hi, acIsEither_eq (Nat.lt_of_lt_of_le hi hm.flags), heither, writeAt_eq hkey,
      writeAt_eq hval]
    rfl
  · rw [if_neg hi, writeAt_eq hkey, writeAt_eq hval]
    rfl

theorem kickLoop_kicks (hm : Moving hash n k m) (hfree : Free hash k m key i) (hi : i < n)
    {key' : κ} {val' : Option ν} (hslot : m.oldSlots i = .full (key', val')) :
    kickLoop hash n (2 ^ k) (fuel + 1) m key val =
      kickLoop hash n (2 ^ k) fuel ((m.take i).put i key val) key' val' := by
  have hkey : i < m.keys.length := Nat.lt_of_lt_of_le hfree.lt hm.newKeys
  have hval : i < m.vals.length := Nat.lt_of_lt_of_le hfree.lt hm.newVals
  have hflag := Nat.lt_of_lt_of_le hi hm.flags
  obtain ⟨hempty, hdel, hkey', hval'⟩ := slotAt_eq_full hslot
  have hread : m.vals[i]? = some val' := by
    rw [hval', List.getElem?_eq_getElem hval]
    rfl
  rw [kickLoop, hfree.loop, kh_bind_ok,
    acSetIsEmptyFalse_eq (Nat.lt_of_lt_of_le hfree.lt hm.newFlags), kh_bind_ok, if_pos hi,
    acIsEither_eq hflag, hdel, hempty, readKey_eq hkey', writeAt_eq hkey, readAt_eq hread,
    writeAt_eq hval, acSetIsDelTrue_eq hflag]
  rfl

/-- What a move keeps, `all` being the elements of the table. -/
structure Keeps (hash : κ → BitVec 32) (n k : Nat) (all : List (κ × Option ν))
    (m m' : KhMove κ ν) : Prop where
  moving : Moving hash n k m'
  perm : (m'.left n ++ m'.moved k).Perm all
  dead : ∀ b < n, m.Dead b → m'.Dead b

variable {all : List (κ × Option ν)}

/-- The process ends with every element in a table. -/
theorem kickLoop_spec (hnodup : (all.map Prod.fst).Nodup) (hroom : all.length ≤ 2 ^ k)
    (hm : Moving hash n k m) (hperm : (m.left n ++ (key, val) :: m.moved k).Perm all)
    (hfuel : (m.left n).length < fuel) :
    ∃ m', kickLoop hash n (2 ^ k) fuel m key val = .ok m' ∧ Keeps hash n k all m m' := by
  induction fuel generalizing m key val with
  | zero => exact absurd hfuel (Nat.not_lt_zero _)
  | succ fuel ih =>
      have hlen := hperm.length_eq
      rw [List.length_append, List.length_cons] at hlen
      have hnew : ∀ val, (key, val) ∉ m.moved k := by
        intro val' hmem
        have hkeys := (hperm.map Prod.fst).nodup_iff.mpr hnodup
        rw [List.map_append, List.map_cons, List.nodup_append] at hkeys
        exact (List.nodup_cons.mp hkeys.2.1).1 (List.mem_map.mpr ⟨_, hmem, rfl⟩)
      obtain ⟨i, hfree⟩ := hm.exists_free (by omega) hnew
      by_cases hdead : i < n → m.Dead i
      · refine ⟨m.put i key val, kickLoop_stops hm hfree hdead, ?_, ?_, fun b _ hb => hb⟩
        · exact hm.put hfree.lt hdead hfree.way hnew val
        · rw [Moving.put_left hdead]
          exact ((hm.put_moved hfree.lt hfree.empty key val).append_left _).trans hperm
      · -- the bucket holds an element of the old table, which is in hand afterwards
        have hi : i < n := by
          by_contra hge
          exact hdead fun h => absurd h hge
        obtain ⟨key', val', hslot⟩ : ∃ key' val', m.oldSlots i = .full (key', val') := by
          by_contra hnone
          apply hdead
          exact fun _ => hm.dead_of_free hi fun a hslot => hnone ⟨a.1, a.2, hslot⟩
        have htake := hm.take hi
        have hdead' : i < n → (m.take i).Dead i := fun _ => (hm.dead_take_iff hi).mpr (.inl rfl)
        have hleft := hm.take_left hi hslot
        have hputLeft : ((m.take i).put i key val).left n = (m.take i).left n :=
          Moving.put_left hdead' key val
        have hputMoved := htake.put_moved hfree.lt hfree.empty key val
        have hmoving := htake.put hfree.lt hdead' hfree.way hnew val
        have hperm' : (((m.take i).put i key val).left n ++
            (key', val') :: ((m.take i).put i key val).moved k).Perm all := by
          rw [hputLeft]
          exact (List.perm_middle.trans (hleft.symm.append hputMoved)).trans hperm
        have hless : (((m.take i).put i key val).left n).length < fuel := by
          have hcount := hleft.length_eq
          rw [List.length_cons] at hcount
          rw [hputLeft]
          omega
        obtain ⟨m', hrun, hkeeps⟩ := ih hmoving hperm' hless
        refine ⟨m', (kickLoop_kicks hm hfree hi hslot).trans hrun, hkeeps.moving, hkeeps.perm, ?_⟩
        exact fun b hb h => hkeeps.dead b hb ((hm.dead_take_iff hi).mpr (.inr h))

theorem Keeps.trans {m' m'' : KhMove κ ν} (h : Keeps hash n k all m m')
    (h' : Keeps hash n k all m' m'') : Keeps hash n k all m m'' where
  moving := h'.moving
  perm := h'.perm
  dead := fun b hb hdead => h'.dead b hb (h.dead b hb hdead)

variable {j : Nat}

/-- The element of one old bucket and those that it kicks out. -/
theorem moveBucket_spec (hnodup : (all.map Prod.fst).Nodup) (hroom : all.length ≤ 2 ^ k)
    (hm : Moving hash n k m) (hperm : (m.left n ++ m.moved k).Perm all) (hj : j < n) :
    ∃ m', moveBucket hash n (2 ^ k) j m = .ok m' ∧ Keeps hash n k all m m' ∧ m'.Dead j := by
  have hflag := Nat.lt_of_lt_of_le hj hm.flags
  rw [moveBucket, acIsEither_eq hflag, kh_bind_ok]
  by_cases hdead : m.Dead j
  · have heither : (delBit m.flags j || emptyBit m.flags j) = true :=
      (Bool.or_eq_true _ _).mpr hdead.symm
    rw [heither, if_pos rfl]
    exact ⟨m, rfl, ⟨hm, hperm, fun _ _ h => h⟩, hdead⟩
  · obtain ⟨a, hslot⟩ : ∃ a, m.oldSlots j = .full a := by
      by_contra hnone
      exact hdead (hm.dead_of_free hj fun a hslot => hnone ⟨a, hslot⟩)
    obtain ⟨key, val⟩ := a
    obtain ⟨hempty, hdel, hkey, hval⟩ := slotAt_eq_full hslot
    have hread : m.vals[j]? = some val := by
      rw [hval, List.getElem?_eq_getElem (Nat.lt_of_lt_of_le hj hm.oldVals)]
      rfl
    have hdead' : ∀ {b}, (m.take j).Dead b ↔ b = j ∨ m.Dead b := hm.dead_take_iff hj
    have hleft := hm.take_left hj hslot
    have hpermTake : ((m.take j).left n ++ (key, val) :: (m.take j).moved k).Perm all :=
      (List.perm_middle.trans (hleft.symm.append_right _)).trans hperm
    have hfuel : ((m.take j).left n).length < n + 1 := by
      have hle := (length_entries_le n (m.take j).oldSlots).trans (used_le _ _)
      exact Nat.lt_succ_of_le hle
    obtain ⟨m', hrun, hkeeps⟩ := kickLoop_spec hnodup hroom (hm.take hj) hpermTake hfuel
    rw [hdel, hempty, readKey_eq hkey, readAt_eq hread, acSetIsDelTrue_eq hflag]
    refine ⟨m', hrun, ⟨hkeeps.moving, hkeeps.perm, ?_⟩, ?_⟩
    · exact fun b hb h => hkeeps.dead b hb (hdead'.mpr (.inr h))
    · exact hkeeps.dead j hj (hdead'.mpr (.inl rfl))

/-- All of the old buckets. -/
theorem rehashLoop_spec (m : KhMove κ ν) (rounds : Nat) (hnodup : (all.map Prod.fst).Nodup)
    (hroom : all.length ≤ 2 ^ k)
    (hrounds : rounds ≤ n) (hm : Moving hash n k m)
    (hperm : (m.left n ++ m.moved k).Perm all) (hbefore : ∀ b < n - rounds, m.Dead b) :
    ∃ m', rehashLoop hash n (2 ^ k) rounds m = .ok m' ∧ Keeps hash n k all m m' ∧
      ∀ b < n, m'.Dead b := by
  induction rounds generalizing m with
  | zero => exact ⟨m, rfl, ⟨hm, hperm, fun _ _ h => h⟩, hbefore⟩
  | succ rounds ih =>
      have hj : n - (rounds + 1) < n := by omega
      obtain ⟨m₁, hrun, hkeeps, hdead⟩ := moveBucket_spec hnodup hroom hm hperm hj
      have hnext : ∀ b < n - rounds, m₁.Dead b := by
        intro b hb
        rcases Nat.lt_or_ge b (n - (rounds + 1)) with hlt | hge
        · exact hkeeps.dead b (by omega) (hbefore b hlt)
        · obtain rfl : b = n - (rounds + 1) := by omega
          exact hdead
      obtain ⟨m₂, hrest, hkeeps', hall⟩ := ih m₁ (by omega) hkeeps.moving hkeeps.perm hnext
      refine ⟨m₂, ?_, hkeeps.trans hkeeps', hall⟩
      rw [rehashLoop, hrun]
      exact hrest

theorem left_eq_nil (hdead : ∀ b < n, m.Dead b) : m.left n = [] := by
  rw [List.eq_nil_iff_forall_not_mem]
  intro a hmem
  obtain ⟨b, hb, hslot⟩ := mem_entries.mp hmem
  exact slotAt_free_of_dead (hdead b hb) a hslot

end Kick

/-! ### The whole move -/

section Rehash

variable {k : Nat} {h : Khash κ ν} {alloc : KhAlloc}

/-- The arrays before a move to `n` buckets. -/
def Khash.startMove (h : Khash κ ν) (n : Nat) : KhMove κ ν :=
  { flags := h.flags, newFlags := acEmptyFlags n, keys := h.keys, vals := h.vals }

theorem newSlots_startMove {b : Nat} (hb : b < 2 ^ k) : (h.startMove (2 ^ k)).newSlots b = .empty :=
  slotAt_eq_empty_iff.mpr (emptyBit_acEmptyFlags (Nat.lt_of_lt_of_le hb le_acFsize))

theorem moved_startMove : (h.startMove (2 ^ k)).moved k = [] := by
  rw [List.eq_nil_iff_forall_not_mem]
  intro a hmem
  obtain ⟨b, hb, hslot⟩ := mem_entries.mp hmem
  rw [newSlots_startMove hb] at hslot
  cases hslot

/-- Arrays large enough for both tables. -/
structure Ready (k : Nat) (h : Khash κ ν) : Prop where
  flags : h.nBuckets ≤ 16 * h.flags.length
  oldKeys : h.nBuckets ≤ h.keys.length
  newKeys : 2 ^ k ≤ h.keys.length
  oldVals : h.nBuckets ≤ h.vals.length
  newVals : 2 ^ k ≤ h.vals.length
  written : Written h.flags h.keys h.nBuckets

theorem Ready.moving (hash : κ → BitVec 32) (hready : Ready k h) :
    Moving hash h.nBuckets k (h.startMove (2 ^ k)) where
  flags := hready.flags
  newFlags := by
    rw [Khash.startMove, length_acEmptyFlags]
    exact le_acFsize
  oldKeys := hready.oldKeys
  newKeys := hready.newKeys
  oldVals := hready.oldVals
  newVals := hready.newVals
  written := hready.written
  newWritten := by
    intro b hb hempty
    rw [Khash.startMove, emptyBit_acEmptyFlags (Nat.lt_of_lt_of_le hb le_acFsize)] at hempty
    cases hempty
  delBit := fun b hb => delBit_acEmptyFlags (Nat.lt_of_lt_of_le hb le_acFsize)
  apart := by
    intro b _ hb hempty
    rw [Khash.startMove, emptyBit_acEmptyFlags (Nat.lt_of_lt_of_le hb le_acFsize)] at hempty
    cases hempty
  valid := by
    apply valid_of_free
    intro b hb a hslot
    rw [newSlots_startMove hb] at hslot
    cases hslot

/-- The array after a `krealloc` that can only make it smaller. -/
theorem getElem?_shrink {α : Type} {l : List (Option α)} {n : Nat} {shrinks ok : Bool}
    (hok : shrinks = true → ok = true) (hlen : n ≤ l.length) :
    n ≤ (if shrinks then (if ok then krealloc l n else []) else l).length ∧
      ∀ b < n, (if shrinks then (if ok then krealloc l n else []) else l)[b]? = l[b]? := by
  cases shrinks with
  | false => exact ⟨hlen, fun _ _ => rfl⟩
  | true =>
      rw [hok rfl]
      exact ⟨(length_krealloc l n).ge,
        fun b hb => getElem?_krealloc (Nat.lt_of_lt_of_le hb hlen) hb⟩

/-- A table of another size with the same elements, none of its buckets deleted. -/
structure Rehashed (hash : κ → BitVec 32) (k : Nat) (h h' : Khash κ ν) : Prop where
  sized : h'.Sized hash k
  entries : h'.entries.Perm h.entries
  nOccupied : h'.nOccupied = h.size

theorem khRehash_spec (alloc : KhAlloc) (hk : 2 ≤ k) (hready : Ready k h)
    (hsize : h.size = h.entries.length)
    (hnodup : (h.entries.map Prod.fst).Nodup) (hroom : h.size < acUpperBound (2 ^ k))
    (hshrink : h.nBuckets ≤ 2 ^ k ∨ alloc.fewerKeys = true ∧ alloc.fewerVals = true) :
    ∃ h', khRehash hash alloc h (2 ^ k) = .ok h' ∧ Rehashed hash k h h' := by
  have hfour : 2 ^ 2 ≤ 2 ^ k := Nat.pow_le_pow_right (by decide) hk
  have hbound := acUpperBound_lt hfour
  have hlen : h.entries.length ≤ 2 ^ k := by omega
  have hstart : ((h.startMove (2 ^ k)).left h.nBuckets ++ (h.startMove (2 ^ k)).moved k).Perm
      h.entries := by
    rw [moved_startMove, List.append_nil]
    exact List.Perm.refl _
  obtain ⟨m, hrun, hkeeps, hdead⟩ := rehashLoop_spec (h.startMove (2 ^ k)) h.nBuckets
    hnodup hlen (Nat.le_refl _) (hready.moving hash) hstart
    (fun b hb => absurd hb (by omega))
  have hm := hkeeps.moving
  have hmoved : (m.moved k).Perm h.entries := by
    have hperm := hkeeps.perm
    rwa [left_eq_nil hdead] at hperm
  have hok : ∀ {ok : Bool}, (2 ^ k < h.nBuckets → ok = true) →
      decide (2 ^ k < h.nBuckets) = true → ok = true :=
    fun himp hdec => himp (of_decide_eq_true hdec)
  have hfewer : 2 ^ k < h.nBuckets → alloc.fewerKeys = true ∧ alloc.fewerVals = true := by
    intro hlt
    exact hshrink.resolve_left (by omega)
  obtain ⟨hkeysLen, hkeys⟩ := getElem?_shrink (hok fun hlt => (hfewer hlt).1) hm.newKeys
  obtain ⟨hvalsLen, hvals⟩ := getElem?_shrink (hok fun hlt => (hfewer hlt).2) hm.newVals
  rw [khRehash]
  change ∃ h',
    (rehashLoop hash h.nBuckets (2 ^ k) h.nBuckets (h.startMove (2 ^ k)) >>= _) = .ok h' ∧ _
  rw [hrun, kh_bind_ok]
  refine ⟨_, rfl, ?_⟩
  generalize hkeysEq : (if decide (2 ^ k < h.nBuckets) = true then
    (if alloc.fewerKeys = true then krealloc m.keys (2 ^ k) else []) else m.keys) = keys at *
  generalize hvalsEq : (if decide (2 ^ k < h.nBuckets) = true then
    (if alloc.fewerVals = true then krealloc m.vals (2 ^ k) else []) else m.vals) = vals at *
  have hslots : ∀ b < 2 ^ k, slotAt m.newFlags keys vals b = m.newSlots b := by
    intro b hb
    exact slotAt_congr rfl rfl (hkeys b hb) (hvals b hb)
  have hentries : OpenAddressing.entries (2 ^ k) (slotAt m.newFlags keys vals) = m.moved k :=
    entries_congr hslots
  refine ⟨?_, ?_, rfl⟩
  · exact
      { two_le := hk
        nBuckets := rfl
        flags := hm.newFlags
        keys := hkeysLen
        vals := hvalsLen
        written := by
          intro b hb hempty hdel
          obtain ⟨key, hkey⟩ := hm.newWritten b hb hempty hdel
          exact ⟨key, (hkeys b hb).trans hkey⟩
        upperBound := rfl
        nOccupied_le := Nat.le_of_lt hroom
        nOccupied := by
          change h.size = used (2 ^ k) (slotAt m.newFlags keys vals)
          rw [used_congr hslots, hm.used_eq, hmoved.length_eq, hsize]
        size := by
          change h.size = (OpenAddressing.entries (2 ^ k) (slotAt m.newFlags keys vals)).length
          rw [hentries, hmoved.length_eq, hsize]
        valid := hm.valid.congr hslots }
  · change (OpenAddressing.entries (2 ^ k) (slotAt m.newFlags keys vals)).Perm h.entries
    rw [hentries]
    exact hmoved

end Rehash

/-! ### `kh_resize` -/

section Resize

variable {k n : Nat} {h h' : Khash κ ν} {alloc : KhAlloc}

/-- The same buckets in arrays of other lengths. -/
structure Extends (h h' : Khash κ ν) : Prop where
  eq : h' = { h with keys := h'.keys, vals := h'.vals }
  keys_le : h.nBuckets ≤ h'.keys.length
  vals_le : h.nBuckets ≤ h'.vals.length
  keys : ∀ b < h.nBuckets, h'.keys[b]? = h.keys[b]?
  vals : ∀ b < h.nBuckets, h'.vals[b]? = h.vals[b]?

theorem Khash.Sound.arrays (hs : h.Sound hash) :
    h.nBuckets ≤ 16 * h.flags.length ∧ h.nBuckets ≤ h.keys.length ∧
      h.nBuckets ≤ h.vals.length ∧ Written h.flags h.keys h.nBuckets := by
  rcases hs with hbare | ⟨k, hs⟩
  · rw [hbare.nBuckets]
    exact ⟨Nat.zero_le _, Nat.zero_le _, Nat.zero_le _, fun b hb => absurd hb (Nat.not_lt_zero b)⟩
  · rw [hs.nBuckets]
    exact ⟨hs.flags, hs.keys, hs.vals, hs.written⟩

theorem Extends.refl (hs : h.Sound hash) : Extends h h where
  eq := rfl
  keys_le := hs.arrays.2.1
  vals_le := hs.arrays.2.2.1
  keys := fun _ _ => rfl
  vals := fun _ _ => rfl

/-- Both arrays get `n` buckets, or only that of the keys does. -/
theorem Extends.krealloc (hs : h.Sound hash) (hn : h.nBuckets ≤ n) (both : Bool) :
    Extends h { h with
      keys := AtxSys.krealloc h.keys n
      vals := if both then AtxSys.krealloc h.vals n else h.vals } where
  eq := rfl
  keys_le := (length_krealloc _ _).symm ▸ hn
  vals_le := by
    cases both with
    | true => exact (length_krealloc _ _).symm ▸ hn
    | false => exact hs.arrays.2.2.1
  keys := fun b hb => getElem?_krealloc (Nat.lt_of_lt_of_le hb hs.arrays.2.1)
    (Nat.lt_of_lt_of_le hb hn)
  vals := by
    intro b hb
    cases both with
    | true =>
        exact getElem?_krealloc (Nat.lt_of_lt_of_le hb hs.arrays.2.2.1) (Nat.lt_of_lt_of_le hb hn)
    | false => rfl

namespace Extends

variable (hext : Extends h h')

include hext

theorem nBuckets : h'.nBuckets = h.nBuckets := by rw [hext.eq]

theorem flags : h'.flags = h.flags := by rw [hext.eq]

theorem size : h'.size = h.size := by rw [hext.eq]

theorem nOccupied : h'.nOccupied = h.nOccupied := by rw [hext.eq]

theorem upperBound : h'.upperBound = h.upperBound := by rw [hext.eq]

theorem slots {b : Nat} (hb : b < h.nBuckets) : h'.slots b = h.slots b := by
  rw [Khash.slots, hext.flags]
  exact slotAt_congr rfl rfl (hext.keys b hb) (hext.vals b hb)

theorem entries : h'.entries = h.entries := by
  rw [Khash.entries, hext.nBuckets]
  exact entries_congr fun b hb => hext.slots hb

theorem written (hwritten : Written h.flags h.keys h.nBuckets) :
    Written h'.flags h'.keys h'.nBuckets := by
  rw [hext.flags, hext.nBuckets]
  intro b hb hempty hdel
  obtain ⟨key, hkey⟩ := hwritten b hb hempty hdel
  exact ⟨key, (hext.keys b hb).trans hkey⟩

theorem sized (hs : h.Sized hash k) : h'.Sized hash k where
  two_le := hs.two_le
  nBuckets := hext.nBuckets.trans hs.nBuckets
  flags := hext.flags.symm ▸ hs.flags
  keys := hs.nBuckets ▸ hext.keys_le
  vals := hs.nBuckets ▸ hext.vals_le
  written := by
    have hwritten := hs.written
    rw [← hs.nBuckets] at hwritten ⊢
    rw [← hext.nBuckets]
    exact hext.written hwritten
  upperBound := hext.upperBound.trans hs.upperBound
  nOccupied_le := by
    rw [hext.nOccupied, hext.upperBound]
    exact hs.nOccupied_le
  nOccupied := by
    rw [hext.nOccupied, hs.nOccupied]
    exact (used_congr fun b hb => hext.slots (hs.nBuckets.symm ▸ hb)).symm
  size := by rw [hext.size, hext.entries, hs.size]
  valid := hs.valid.congr fun b hb => hext.slots (hs.nBuckets.symm ▸ hb)

theorem bare (hbare : h.Bare) : h'.Bare where
  nBuckets := hext.nBuckets.trans hbare.nBuckets
  size := hext.size.trans hbare.size
  nOccupied := hext.nOccupied.trans hbare.nOccupied
  upperBound := hext.upperBound.trans hbare.upperBound

theorem sound (hs : h.Sound hash) : h'.Sound hash :=
  hs.imp hext.bare fun ⟨k, hs⟩ => ⟨k, hext.sized hs⟩

theorem ready (hs : h.Sound hash) (hkeys : 2 ^ k ≤ h'.keys.length)
    (hvals : 2 ^ k ≤ h'.vals.length) : Ready k h' where
  flags := by
    rw [hext.nBuckets, hext.flags]
    exact hs.arrays.1
  oldKeys := hext.nBuckets ▸ hext.keys_le
  newKeys := hkeys
  oldVals := hext.nBuckets ▸ hext.vals_le
  newVals := hvals
  written := hext.written hs.arrays.2.2.2

end Extends

theorem Khash.Sound.size (hs : h.Sound hash) : h.size = h.entries.length := by
  rcases hs with hbare | ⟨k, hs⟩
  · rw [hbare.size, hbare.entries]
    rfl
  · exact hs.size

theorem Khash.Sound.nodup_keys (hs : h.Sound hash) : (h.entries.map Prod.fst).Nodup := by
  rcases hs with hbare | ⟨k, hs⟩
  · rw [hbare.entries]
    exact List.nodup_nil
  · exact hs.nodup_keys

/-- An allocation fails that a move to `n` buckets needs. -/
def KhAlloc.Fails (alloc : KhAlloc) (h : Khash κ ν) (n : Nat) : Prop :=
  alloc.flags = false ∨ h.nBuckets < n ∧ (alloc.keys = false ∨ alloc.vals = false)

/-- What `kh_resize` does for `2 ^ k` buckets. -/
inductive Resized (hash : κ → BitVec 32) (alloc : KhAlloc) (k : Nat) (h : Khash κ ν) :
    Int → Khash κ ν → Prop where
  | small (hsmall : acUpperBound (2 ^ k) ≤ h.size) : Resized hash alloc k h 0 h
  | failed {h' : Khash κ ν} (hroom : h.size < acUpperBound (2 ^ k)) (hfails : alloc.Fails h (2 ^ k))
      (hext : Extends h h') : Resized hash alloc k h (-1) h'
  | moved {h' : Khash κ ν} (hroom : h.size < acUpperBound (2 ^ k))
      (hmoved : Rehashed hash k h h') : Resized hash alloc k h 0 h'

theorem khRehash_extends (alloc : KhAlloc) (hk : 2 ≤ k) (hs : h.Sound hash) (hext : Extends h h')
    (hkeys : 2 ^ k ≤ h'.keys.length) (hvals : 2 ^ k ≤ h'.vals.length)
    (hroom : h.size < acUpperBound (2 ^ k))
    (hshrink : h.nBuckets ≤ 2 ^ k ∨ alloc.fewerKeys = true ∧ alloc.fewerVals = true) :
    ∃ h'', khRehash hash alloc h' (2 ^ k) = .ok h'' ∧ Rehashed hash k h h'' := by
  have hsound := hext.sound hs
  obtain ⟨h'', hrun, hmoved⟩ := khRehash_spec alloc hk (hext.ready hs hkeys hvals)
    hsound.size hsound.nodup_keys (hext.size.symm ▸ hroom) (hext.nBuckets.symm ▸ hshrink)
  exact ⟨h'', hrun, hmoved.sized, hext.entries ▸ hmoved.entries, hmoved.nOccupied.trans hext.size⟩

theorem khResize_spec (alloc : KhAlloc) (hs : h.Sound hash) (hk : 2 ≤ k) (hn : khRoundup n = 2 ^ k)
    (hshrink : h.nBuckets ≤ 2 ^ k ∨ alloc.fewerKeys = true ∧ alloc.fewerVals = true) :
    ∃ ret h', khResize hash alloc h n = .ok (ret, h') ∧ Resized hash alloc k h ret h' := by
  rw [khResize, hn]
  dsimp only
  by_cases hsmall : acUpperBound (2 ^ k) ≤ h.size
  · rw [if_pos hsmall]
    exact ⟨0, h, rfl, .small hsmall⟩
  have hroom : h.size < acUpperBound (2 ^ k) := Nat.lt_of_not_le hsmall
  rw [if_neg hsmall]
  cases hflags : alloc.flags with
  | false => exact ⟨-1, h, rfl, .failed hroom (.inl hflags) (.refl hs)⟩
  | true =>
  rw [if_neg (by decide)]
  by_cases hlarger : h.nBuckets < 2 ^ k
  · have hle := Nat.le_of_lt hlarger
    rw [if_pos hlarger]
    cases hkeys : alloc.keys with
    | false => exact ⟨-1, h, rfl, .failed hroom (.inr ⟨hlarger, .inl hkeys⟩) (.refl hs)⟩
    | true =>
    cases hvals : alloc.vals with
    | false =>
        have hext := Extends.krealloc hs hle false
        exact ⟨-1, _, rfl, .failed hroom (.inr ⟨hlarger, .inr hvals⟩) hext⟩
    | true =>
        have hext := Extends.krealloc hs hle true
        obtain ⟨h', hrun, hmoved⟩ := khRehash_extends alloc hk hs hext
          (length_krealloc _ _).ge (length_krealloc _ _).ge hroom hshrink
        refine ⟨0, h', ?_, .moved hroom hmoved⟩
        rw [if_neg (by decide), if_neg (by decide)]
        exact congrArg (· >>= fun h => .ok ((0 : Int), h)) hrun
  · have hge := Nat.le_of_not_lt hlarger
    rw [if_neg hlarger]
    obtain ⟨h', hrun, hmoved⟩ := khRehash_extends alloc hk hs (.refl hs)
      (hge.trans hs.arrays.2.1) (hge.trans hs.arrays.2.2.1) hroom hshrink
    rw [hrun]
    exact ⟨0, h', rfl, .moved hroom hmoved⟩

end Resize

end AtxSys
