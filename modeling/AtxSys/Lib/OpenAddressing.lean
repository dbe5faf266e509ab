import Mathlib.Data.Fintype.EquivFin
import Mathlib.Data.List.Nodup
import Mathlib.Data.Nat.ModEq
import Mathlib.Data.Nat.Prime.Basic
import Mathlib.Tactic.Common
import Mathlib.Tactic.Ring

/-!
# Open addressing

A hash table that keeps its elements in one array of buckets. A key is looked for along its probe
sequence, up to the first bucket that was never used; a deleted element leaves its bucket used, so
that the keys behind it are still found. The steps 1, 2, 3, … from bucket to bucket come to every
bucket of a table whose size is a power of two.
-/

namespace OpenAddressing

/-! ### Probe sequences -/

/-- The buckets that are looked at for a key, one in each step, none of them twice in `n` steps. -/
structure Probe (κ : Type) (n : Nat) where
  bucket : κ → Nat → Nat
  bucket_lt : ∀ k s, bucket k s < n
  inj : ∀ k s t, s < n → t < n → bucket k s = bucket k t → s = t

theorem Probe.covers {κ : Type} {n : Nat} (probe : Probe κ n) (k : κ) {b : Nat} (hb : b < n) :
    ∃ s < n, probe.bucket k s = b := by
  have hinj : Function.Injective fun s : Fin n =>
      (⟨probe.bucket k s, probe.bucket_lt k s⟩ : Fin n) := by
    intro s t h
    exact Fin.ext (probe.inj k s t s.isLt t.isLt (congrArg Fin.val h))
  obtain ⟨s, hs⟩ := Finite.surjective_of_injective hinj ⟨b, hb⟩
  exact ⟨s, s.isLt, congrArg Fin.val hs⟩

/-- The sum of the steps up to `n`. -/
def tri (n : Nat) : Nat := n * (n + 1) / 2

theorem two_mul_tri (n : Nat) : 2 * tri n = n * (n + 1) :=
  Nat.mul_div_cancel' (Nat.even_mul_succ_self n).two_dvd

theorem tri_succ (n : Nat) : tri (n + 1) = tri n + (n + 1) := by
  have h := two_mul_tri n
  have h' := two_mul_tri (n + 1)
  have : (n + 1) * (n + 1 + 1) = n * (n + 1) + 2 * (n + 1) := by ring
  omega

/-- Of two consecutive sums of steps, one factor of the difference is odd. -/
theorem tri_mod_inj {k a b : Nat} (ha : a < 2 ^ k) (hb : b < 2 ^ k)
    (h : tri a % 2 ^ k = tri b % 2 ^ k) : a = b := by
  wlog hab : a ≤ b generalizing a b
  · exact (this hb ha h.symm (Nat.le_of_not_le hab)).symm
  obtain ⟨d, rfl⟩ := Nat.exists_eq_add_of_le hab
  have hle : tri a ≤ tri (a + d) :=
    Nat.div_le_div_right (Nat.mul_le_mul (by omega) (by omega))
  have hdvd : 2 ^ k ∣ tri (a + d) - tri a := (Nat.modEq_iff_dvd' hle).mp h
  have hprod : 2 ^ (k + 1) ∣ d * (2 * a + d + 1) := by
    have heq : d * (2 * a + d + 1) = 2 * (tri (a + d) - tri a) := by
      rw [Nat.mul_sub, two_mul_tri, two_mul_tri]
      have : (a + d) * (a + d + 1) = a * (a + 1) + d * (2 * a + d + 1) := by ring
      omega
    rw [heq, Nat.pow_succ, Nat.mul_comm (2 ^ k)]
    exact Nat.mul_dvd_mul_left 2 hdvd
  have hpow : 2 ^ (k + 1) = 2 * 2 ^ k := by rw [Nat.pow_succ, Nat.mul_comm]
  rcases Nat.even_or_odd d with heven | hodd
  · have hcoprime : Nat.Coprime (2 ^ (k + 1)) (2 * a + d + 1) := by
      apply Nat.Coprime.pow_left
      rw [Nat.coprime_two_left]
      obtain ⟨c, rfl⟩ := heven
      exact ⟨a + c, by ring⟩
    have hd := hcoprime.dvd_of_dvd_mul_right hprod
    have hzero : d = 0 := Nat.eq_zero_of_dvd_of_lt hd (by omega)
    omega
  · have hcoprime : Nat.Coprime (2 ^ (k + 1)) d :=
      Nat.Coprime.pow_left _ (Nat.coprime_two_left.mpr hodd)
    have hle := Nat.le_of_dvd (by omega) (hcoprime.dvd_of_dvd_mul_left hprod)
    omega

/-- From the bucket that the hash of the key gives, on by 1, 2, 3, … -/
def triangular {κ : Type} (hash : κ → Nat) (k : Nat) : Probe κ (2 ^ k) where
  bucket key s := (hash key + tri s) % 2 ^ k
  bucket_lt _ _ := Nat.mod_lt _ (Nat.two_pow_pos k)
  inj := by
    intro key s t hs ht h
    apply tri_mod_inj hs ht
    exact Nat.ModEq.add_left_cancel' (hash key) h

/-! ### Tables -/

inductive Slot (α : Type) where
  /-- never used -/
  | empty
  | deleted
  | full (a : α)

namespace Slot

variable {α : Type}

def element? : Slot α → Option α
  | .full a => some a
  | .empty | .deleted => none

def used : Slot α → Bool
  | .empty => false
  | .deleted | .full _ => true

@[simp]
theorem element?_eq_some_iff {x : Slot α} {a : α} : x.element? = some a ↔ x = .full a := by
  cases x <;> simp [element?]

theorem element?_eq_none_iff {x : Slot α} : x.element? = none ↔ ∀ a, x ≠ .full a := by
  cases x <;> simp [element?]

@[simp]
theorem used_eq_false_iff {x : Slot α} : x.used = false ↔ x = .empty := by
  cases x <;> simp [used]

end Slot

section Table

variable {κ α : Type} {n : Nat} (key : α → κ) (probe : Probe κ n) (slots : Nat → Slot α)

/-- The way of a key up to some step passes no bucket that was never used. -/
def Unbroken (k : κ) (s : Nat) : Prop := ∀ t < s, slots (probe.bucket k t) ≠ .empty

structure Valid : Prop where
  reached : ∀ b < n, ∀ a, slots b = .full a →
    ∃ s, probe.bucket (key a) s = b ∧ Unbroken probe slots (key a) s
  unique : ∀ b < n, ∀ c < n, ∀ a a', slots b = .full a → slots c = .full a' → key a = key a' → b = c

/-- The search for a key stops at its element, and at a bucket that was never used. -/
def Stops (k : κ) (s : Nat) : Prop :=
  slots (probe.bucket k s) = .empty ∨ ∃ a, slots (probe.bucket k s) = .full a ∧ key a = k

/-- The search for the key ends with this step. -/
structure Search (k : κ) (s : Nat) : Prop where
  lt : s < n
  stops : Stops key probe slots k s
  goes : ∀ t < s, ¬Stops key probe slots k t

/-- The elements, in the order of their buckets. -/
def entries (n : Nat) (slots : Nat → Slot α) : List α :=
  (List.range n).filterMap fun b => (slots b).element?

/-- How many buckets were used. -/
def used (n : Nat) (slots : Nat → Slot α) : Nat := (List.range n).countP fun b => (slots b).used

variable {key probe slots} {k : κ} {s b : Nat} {a a' : α}

theorem exists_search (hempty : ∃ b < n, slots b = .empty) (k : κ) :
    ∃ s, Search key probe slots k s := by
  classical
  have hstop : ∃ s, s < n ∧ Stops key probe slots k s := by
    obtain ⟨b, hb, hslot⟩ := hempty
    obtain ⟨s, hs, rfl⟩ := probe.covers k hb
    exact ⟨s, hs, .inl hslot⟩
  refine ⟨Nat.find hstop, (Nat.find_spec hstop).1, (Nat.find_spec hstop).2, fun t ht hgoes => ?_⟩
  exact Nat.find_min hstop ht ⟨ht.trans (Nat.find_spec hstop).1, hgoes⟩

theorem Search.unbroken (h : Search key probe slots k s) : Unbroken probe slots k s :=
  fun t ht hslot => h.goes t ht (.inl hslot)

/-- The search comes to the element with the key, if there is one. -/
theorem Valid.found (hvalid : Valid key probe slots) (h : Search key probe slots k s) (hb : b < n)
    (hslot : slots b = .full a) (hkey : key a = k) : probe.bucket k s = b := by
  subst hkey
  obtain ⟨s', hs', hunbroken⟩ := hvalid.reached b hb a hslot
  have hle : s ≤ s' := by
    by_contra hlt
    exact h.goes s' (Nat.lt_of_not_le hlt) (.inr ⟨a, hs'.symm ▸ hslot, rfl⟩)
  rcases Nat.lt_or_eq_of_le hle with hlt | rfl
  · rcases h.stops with hempty | ⟨a', hslot', hkey'⟩
    · exact absurd hempty (hunbroken s hlt)
    · exact hvalid.unique _ (probe.bucket_lt _ _) b hb a' a hslot' hslot hkey'
  · exact hs'

theorem Unbroken.update_full (h : Unbroken probe slots k s) (b : Nat) (a : α) :
    Unbroken probe (Function.update slots b (.full a)) k s := by
  intro t ht
  by_cases hb : probe.bucket k t = b
  · rw [hb, Function.update_self]
    nofun
  · rw [Function.update_of_ne hb]
    exact h t ht

/-- A new element may stand in any free bucket on the way of its key. -/
theorem Valid.insert (hvalid : Valid key probe slots) (hs : probe.bucket (key a) s = b)
    (hunbroken : Unbroken probe slots (key a) s)
    (hnew : ∀ c < n, ∀ a', slots c = .full a' → key a' ≠ key a) :
    Valid key probe (Function.update slots b (.full a)) where
  reached := by
    intro c hc a' hslot
    by_cases hcb : c = b
    · rw [hcb, Function.update_self] at hslot
      obtain rfl := Slot.full.inj hslot
      exact ⟨s, hs.trans hcb.symm, hunbroken.update_full b a⟩
    · rw [Function.update_of_ne hcb] at hslot
      obtain ⟨t, ht, hway⟩ := hvalid.reached c hc a' hslot
      exact ⟨t, ht, hway.update_full b a⟩
  unique := by
    intro c hc d hd a₁ a₂ h₁ h₂ hkey
    by_cases hcb : c = b <;> by_cases hdb : d = b
    · rw [hcb, hdb]
    · rw [hcb, Function.update_self] at h₁
      rw [Function.update_of_ne hdb] at h₂
      obtain rfl := Slot.full.inj h₁
      exact absurd hkey.symm (hnew d hd a₂ h₂)
    · rw [Function.update_of_ne hcb] at h₁
      rw [hdb, Function.update_self] at h₂
      obtain rfl := Slot.full.inj h₂
      exact absurd hkey (hnew c hc a₁ h₁)
    · rw [Function.update_of_ne hcb] at h₁
      rw [Function.update_of_ne hdb] at h₂
      exact hvalid.unique c hc d hd a₁ a₂ h₁ h₂ hkey

/-- The bucket of a deleted element stays used. -/
theorem Valid.delete (hvalid : Valid key probe slots) (b : Nat) :
    Valid key probe (Function.update slots b .deleted) where
  reached := by
    intro c hc a' hslot
    by_cases hcb : c = b
    · rw [hcb, Function.update_self] at hslot
      cases hslot
    · rw [Function.update_of_ne hcb] at hslot
      obtain ⟨t, ht, hway⟩ := hvalid.reached c hc a' hslot
      refine ⟨t, ht, fun u hu => ?_⟩
      by_cases hub : probe.bucket (key a') u = b
      · rw [hub, Function.update_self]
        nofun
      · rw [Function.update_of_ne hub]
        exact hway u hu
  unique := by
    intro c hc d hd a₁ a₂ h₁ h₂ hkey
    by_cases hcb : c = b
    · rw [hcb, Function.update_self] at h₁
      cases h₁
    by_cases hdb : d = b
    · rw [hdb, Function.update_self] at h₂
      cases h₂
    rw [Function.update_of_ne hcb] at h₁
    rw [Function.update_of_ne hdb] at h₂
    exact hvalid.unique c hc d hd a₁ a₂ h₁ h₂ hkey

/-- An element may be replaced by another one with its key. -/
theorem Valid.replace (hvalid : Valid key probe slots) (hslot : slots b = .full a)
    (hkey : key a' = key a) : Valid key probe (Function.update slots b (.full a')) where
  reached := by
    intro c hc a₁ h₁
    by_cases hcb : c = b
    · rw [hcb, Function.update_self] at h₁
      obtain rfl := Slot.full.inj h₁
      obtain ⟨t, ht, hway⟩ := hvalid.reached c hc a (hcb ▸ hslot)
      rw [hkey]
      exact ⟨t, ht, hway.update_full b _⟩
    · rw [Function.update_of_ne hcb] at h₁
      obtain ⟨t, ht, hway⟩ := hvalid.reached c hc a₁ h₁
      exact ⟨t, ht, hway.update_full b _⟩
  unique := by
    -- with the old element in place of the new one the keys are the same
    have hold : ∀ c a₁, Function.update slots b (.full a') c = .full a₁ →
        ∃ a₀, slots c = .full a₀ ∧ key a₀ = key a₁ := by
      intro c a₁ h₁
      by_cases hcb : c = b
      · rw [hcb, Function.update_self] at h₁
        obtain rfl := Slot.full.inj h₁
        exact ⟨a, hcb ▸ hslot, hkey.symm⟩
      · rw [Function.update_of_ne hcb] at h₁
        exact ⟨a₁, h₁, rfl⟩
    intro c hc d hd a₁ a₂ h₁ h₂ hsame
    obtain ⟨b₁, hb₁, hk₁⟩ := hold c a₁ h₁
    obtain ⟨b₂, hb₂, hk₂⟩ := hold d a₂ h₂
    exact hvalid.unique c hc d hd b₁ b₂ hb₁ hb₂ (by rw [hk₁, hk₂, hsame])

theorem valid_of_free (h : ∀ b < n, ∀ a, slots b ≠ .full a) : Valid key probe slots where
  reached := fun b hb a hslot => absurd hslot (h b hb a)
  unique := fun b hb _ _ a _ hslot => absurd hslot (h b hb a)

theorem Valid.congr {slots' : Nat → Slot α} (hvalid : Valid key probe slots)
    (h : ∀ b < n, slots' b = slots b) : Valid key probe slots' where
  reached := by
    intro b hb a hslot
    rw [h b hb] at hslot
    obtain ⟨s, hs, hway⟩ := hvalid.reached b hb a hslot
    refine ⟨s, hs, fun t ht => ?_⟩
    rw [h _ (probe.bucket_lt _ _)]
    exact hway t ht
  unique := by
    intro b hb c hc a a' h₁ h₂
    rw [h b hb] at h₁
    rw [h c hc] at h₂
    exact hvalid.unique b hb c hc a a' h₁ h₂

end Table

/-! ### The elements -/

section Entries

variable {α : Type} {n b : Nat} {slots slots' : Nat → Slot α} {a a' : α}

theorem mem_entries : a ∈ entries n slots ↔ ∃ b < n, slots b = .full a := by
  simp [entries]

/-- The buckets before and after one of them. -/
theorem exists_split (hb : b < n) :
    ∃ before after, List.range n = before ++ b :: after ∧ b ∉ before ∧ b ∉ after := by
  obtain ⟨before, after, hsplit⟩ := List.append_of_mem (List.mem_range.mpr hb)
  have hnodup : (List.range n).Nodup := List.nodup_range
  rw [hsplit, List.nodup_middle, List.nodup_cons, List.mem_append, not_or] at hnodup
  exact ⟨before, after, hsplit, hnodup.1⟩

theorem entries_congr (h : ∀ b < n, slots' b = slots b) : entries n slots' = entries n slots := by
  apply List.filterMap_congr
  intro b hb
  rw [h b (List.mem_range.mp hb)]

theorem used_congr (h : ∀ b < n, slots' b = slots b) : used n slots' = used n slots := by
  apply List.countP_congr
  intro b hb
  rw [h b (List.mem_range.mp hb)]

/-- What an update of one bucket does to the elements. -/
theorem exists_entries_update (slots : Nat → Slot α) (hb : b < n) (x : Slot α) :
    ∃ before after, entries n slots = before ++ ((slots b).element?.toList ++ after) ∧
      entries n (Function.update slots b x) = before ++ (x.element?.toList ++ after) := by
  obtain ⟨before, after, hsplit, hbefore, hafter⟩ := exists_split hb
  have hsame : ∀ l : List Nat, b ∉ l →
      (l.filterMap fun c => (Function.update slots b x c).element?) =
        l.filterMap fun c => (slots c).element? := by
    intro l hl
    apply List.filterMap_congr
    intro c hc
    rw [Function.update_of_ne fun h => hl (by rwa [← h])]
  refine ⟨before.filterMap fun c => (slots c).element?,
    after.filterMap fun c => (slots c).element?, ?_, ?_⟩
  · rw [entries, hsplit, List.filterMap_append, List.filterMap_cons]
    cases (slots b).element? <;> rfl
  · rw [entries, hsplit, List.filterMap_append, List.filterMap_cons, hsame before hbefore,
      hsame after hafter, Function.update_self]
    cases x.element? <;> rfl

theorem entries_insert (hb : b < n) (hfree : ∀ a', slots b ≠ .full a') (a : α) :
    (entries n (Function.update slots b (.full a))).Perm (a :: entries n slots) := by
  obtain ⟨before, after, hold, hnew⟩ := exists_entries_update slots hb (.full a)
  rw [hold, hnew, Slot.element?_eq_none_iff.mpr hfree]
  exact List.perm_middle

theorem entries_delete (hb : b < n) (hslot : slots b = .full a) :
    (entries n slots).Perm (a :: entries n (Function.update slots b .deleted)) := by
  obtain ⟨before, after, hold, hnew⟩ := exists_entries_update slots hb .deleted
  rw [hold, hnew, hslot]
  exact List.perm_middle

theorem used_update (slots : Nat → Slot α) (hb : b < n) (x : Slot α) :
    used n (Function.update slots b x) + (slots b).used.toNat = used n slots + x.used.toNat := by
  obtain ⟨before, after, hsplit, hbefore, hafter⟩ := exists_split hb
  have hsame : ∀ l : List Nat, b ∉ l → (l.countP fun c => (Function.update slots b x c).used) =
      l.countP fun c => (slots c).used := by
    intro l hl
    apply List.countP_congr
    intro c hc
    rw [Function.update_of_ne fun h => hl (by rwa [← h])]
  rw [used, used, hsplit, List.countP_append, List.countP_append, List.countP_cons,
    List.countP_cons, hsame before hbefore, hsame after hafter, Function.update_self]
  cases x.used <;> cases (slots b).used <;> simp <;> omega

theorem used_le (n : Nat) (slots : Nat → Slot α) : used n slots ≤ n :=
  List.countP_le_length.trans (by simp)

theorem exists_empty (h : used n slots < n) : ∃ b < n, slots b = .empty := by
  by_contra hnone
  have hall : ∀ b ∈ List.range n, (slots b).used = true := by
    intro b hb
    rw [← Bool.not_eq_false, Slot.used_eq_false_iff]
    exact fun hslot => hnone ⟨b, List.mem_range.mp hb, hslot⟩
  rw [used, List.countP_eq_length.mpr hall, List.length_range] at h
  exact absurd h (Nat.lt_irrefl n)

theorem length_entries_le (n : Nat) (slots : Nat → Slot α) :
    (entries n slots).length ≤ used n slots := by
  rw [entries, used]
  induction List.range n with
  | nil => exact Nat.le_refl 0
  | cons b l ih =>
      rw [List.filterMap_cons, List.countP_cons]
      cases slots b with
      | empty => exact ih
      | deleted => exact ih.trans (Nat.le_succ _)
      | full a => exact Nat.succ_le_succ ih

theorem Valid.nodup_keys {κ : Type} {key : α → κ} {probe : Probe κ n}
    (hvalid : Valid key probe slots) : ((entries n slots).map key).Nodup := by
  rw [entries, List.Nodup, List.pairwise_map, List.pairwise_filterMap]
  apply List.nodup_range.imp_of_mem
  intro b c hb hc hne a ha a' ha' hkey
  rw [Slot.element?_eq_some_iff] at ha ha'
  exact hne (hvalid.unique b (List.mem_range.mp hb) c (List.mem_range.mp hc) a a' ha ha' hkey)

end Entries

end OpenAddressing
