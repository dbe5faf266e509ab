import Mathlib.Data.Nat.Basic

/-!
# Forests in preorder

A forest written out in preorder, with the number of children beside each node, needs no pointers:
the subtree of a node is the node and the `size` subtrees that follow it. `Trees size k i j` says
that `k` whole trees fill the slots from `i` up to `j`. A forest that is built by appending leaves
stays one as long as each leaf is hung below a node whose subtree reaches the end, which is what
`Trees.grow` says.
-/

namespace FlatForest

inductive Trees (size : Nat → Nat) : Nat → Nat → Nat → Prop where
  | nil (i : Nat) : Trees size 0 i i
  | cons {k i m j : Nat} (children : Trees size (size i) (i + 1) m) (rest : Trees size k m j) :
      Trees size (k + 1) i j

/-- The subtree of the node `i` fills the slots from `i` up to `j`. -/
abbrev Subtree (size : Nat → Nat) (i j : Nat) : Prop := Trees size (size i) (i + 1) j

namespace Trees

variable {size size' : Nat → Nat} {k l i j m n p q x : Nat}

theorem le (h : Trees size k i j) : i + k ≤ j := by
  induction h with
  | nil i => exact Nat.le_refl i
  | cons _ _ hchildren hrest => omega

theorem unique (h : Trees size k i j) (h' : Trees size k i m) : j = m := by
  induction h generalizing m with
  | nil i => cases h' with | nil => rfl
  | cons _ _ hchildren hrest =>
      cases h' with
      | cons children' rest' =>
          obtain rfl := hchildren children'
          exact hrest rest'

theorem eq_zero_of_same (h : Trees size k i i) : k = 0 := by
  have := h.le
  omega

theorem congr (h : Trees size k i j) (hsize : ∀ x, i ≤ x → x < j → size' x = size x) :
    Trees size' k i j := by
  induction h with
  | nil i => exact .nil i
  | @cons k i m j children rest hchildren hrest =>
      have hle := children.le
      have hle' := rest.le
      have hi : size' i = size i := hsize i (Nat.le_refl i) (by omega)
      refine .cons (m := m) ?_ (hrest fun x hx hxj => hsize x (by omega) hxj)
      rw [hi]
      exact hchildren fun x hx hxm => hsize x (by omega) (by omega)

theorem append (h : Trees size k i m) (h' : Trees size l m j) : Trees size (l + k) i j := by
  induction h with
  | nil i => exact h'
  | cons children _ _ hrest => exact .cons children (hrest h')

theorem leaf (h : size i = 0) : Trees size 1 i (i + 1) :=
  .cons (h ▸ .nil (i + 1)) (.nil (i + 1))

theorem subtree (h : Trees size k i j) (hi : i ≤ x) (hj : x < j) :
    ∃ e, Subtree size x e ∧ e ≤ j := by
  induction h with
  | nil i => omega
  | @cons k i m j children rest hchildren hrest =>
      have hle := rest.le
      by_cases hx : x = i
      · exact ⟨m, hx ▸ children, by omega⟩
      by_cases hm : x < m
      · obtain ⟨e, he, hem⟩ := hchildren (by omega) hm
        exact ⟨e, he, by omega⟩
      · exact hrest (by omega) hj

theorem size_last (h : Trees size k i (n + 1)) (hi : i ≤ n) : size n = 0 := by
  obtain ⟨e, he, hen⟩ := h.subtree hi (Nat.lt_succ_self n)
  have := he.le
  omega

/-- A new leaf `n` below a node `p` whose subtree reaches `n`: every run of trees that ends at `n`
and contains `p` takes the leaf in. -/
theorem grow (hold : ∀ x, x < n → x ≠ p → size' x = size x) (hp : size' p = size p + 1)
    (hn : size' n = 0) (hspine : Subtree size p n) (h : Trees size k i n) (hi : i ≤ p) :
    Trees size' k i (n + 1) := by
  have hpn : p < n := by
    have := hspine.le
    omega
  suffices ∀ j, Trees size k i j → j = n → Trees size' k i (n + 1) from this n h rfl
  clear h
  intro j h
  induction h with
  | nil i => omega
  | @cons k i m j children rest hchildren hrest =>
      rintro rfl
      have hm := children.le
      have hmn := rest.le
      by_cases hx : p = i
      · -- the children of `p` reach the end, so nothing follows its tree
        subst hx
        obtain rfl := children.unique hspine
        obtain rfl := rest.eq_zero_of_same
        refine .cons (m := m + 1) ?_ (.nil (m + 1))
        rw [hp, Nat.add_comm]
        exact (children.congr fun x hx hxm => hold x hxm (by omega)).append (leaf hn)
      have hsizei : size' i = size i := hold i (by omega) (Ne.symm hx)
      by_cases hpm : p < m
      · obtain ⟨e, he, hem⟩ := children.subtree (x := p) (by omega) hpm
        obtain rfl := he.unique hspine
        obtain rfl : m = e := by omega
        obtain rfl := rest.eq_zero_of_same
        refine .cons (m := m + 1) ?_ (.nil (m + 1))
        rw [hsizei]
        exact hchildren (by omega) rfl
      · refine .cons (m := m) ?_ (hrest (by omega) rfl)
        rw [hsizei]
        exact children.congr fun x hx hxm => hold x (by omega) (by omega)

theorem grow_root (hold : ∀ x, x < n → size' x = size x) (hn : size' n = 0)
    (h : Trees size k 0 n) : Trees size' (k + 1) 0 (n + 1) := by
  have happend := (h.congr fun x _ hx => hold x hx).append (leaf hn)
  rwa [Nat.add_comm] at happend

end Trees

end FlatForest
