import AtxSys.Lib.JsonSyntax
import Mathlib.Data.List.Chain

/-!
# What a document says

The strings behind the escapes, and the fields of an object whose values are strings, numbers and
words. Decoding never makes a string heavier, for a count that weighs a backslash most, and it makes
each escape shorter.
-/

namespace JsonSyntax

open CText

/-! ### Escapes -/

/-- The byte of a backslash escape other than `\u`. -/
def escaped (c : UInt8) : UInt8 :=
  if c = 0x62 then 0x08
  else if c = 0x66 then 0x0C
  else if c = 0x6E then newline
  else if c = 0x72 then carriageReturn
  else if c = 0x74 then tab
  else c

def hexValue (c : UInt8) : Nat :=
  if c ≤ 57 then c.toNat - 48 else if c ≤ 70 then c.toNat - 55 else c.toNat - 87

def codeUnit (a b c d : UInt8) : Nat :=
  ((hexValue a * 16 + hexValue b) * 16 + hexValue c) * 16 + hexValue d

def isHigh (unit : Nat) : Bool := 0xD800 ≤ unit && unit < 0xDC00

def isLow (unit : Nat) : Bool := 0xDC00 ≤ unit && unit < 0xE000

/-- The low ten bits of each half. -/
def surrogatePair (high low : Nat) : Nat := 0x10000 + high % 0x400 * 0x400 + low % 0x400

/-- A byte behind the first one of a character. -/
def utf8Tail (n : Nat) : UInt8 := .ofNat (0x80 + n % 0x40)

def utf8 (n : Nat) : Bytes :=
  if n < 0x80 then [.ofNat n]
  else if n < 0x800 then [.ofNat (0xC0 + n / 0x40), utf8Tail n]
  else if n < 0x10000 then [.ofNat (0xE0 + n / 0x1000), utf8Tail (n / 0x40), utf8Tail n]
  else [.ofNat (0xF0 + n / 0x40000), utf8Tail (n / 0x1000), utf8Tail (n / 0x40), utf8Tail n]

/-- The string that a body stands for. A surrogate without its partner is encoded by itself. -/
def unescape : Bytes → Bytes
  | [] => []
  | c :: s =>
    if c ≠ backslash then c :: unescape s
    else match s with
      | [] => []
      | e :: s =>
        if e ≠ 0x75 then escaped e :: unescape s
        else match s with
          | a :: b :: c :: d :: s =>
            match s with
            | e :: f :: a' :: b' :: c' :: d' :: rest =>
              if isHigh (codeUnit a b c d) ∧ e = backslash ∧ f = 0x75 ∧
                  isLow (codeUnit a' b' c' d') then
                utf8 (surrogatePair (codeUnit a b c d) (codeUnit a' b' c' d')) ++ unescape rest
              else utf8 (codeUnit a b c d) ++ unescape (e :: f :: a' :: b' :: c' :: d' :: rest)
            | s => utf8 (codeUnit a b c d) ++ unescape s
          | _ => []

example : unescape (bytes "a\\n\\u00e9\\ud83d\\ude00") =
    [0x61, 0x0A, 0xC3, 0xA9, 0xF0, 0x9F, 0x98, 0x80] := by decide +kernel

/-- The escapes of one character. -/
inductive UnicodeEscape : Bytes → Nat → Prop where
  | unit {a b c d : UInt8} (ha : IsHex a) (hb : IsHex b) (hc : IsHex c) (hd : IsHex d) :
      UnicodeEscape [backslash, 0x75, a, b, c, d] (codeUnit a b c d)
  | pair {a b c d a' b' c' d' : UInt8} (ha : IsHex a) (hb : IsHex b) (hc : IsHex c) (hd : IsHex d)
      (ha' : IsHex a') (hb' : IsHex b') (hc' : IsHex c') (hd' : IsHex d') :
      UnicodeEscape [backslash, 0x75, a, b, c, d, backslash, 0x75, a', b', c', d']
        (surrogatePair (codeUnit a b c d) (codeUnit a' b' c' d'))

/-- What holds of the pieces of a body and of what they stand for holds of the whole. -/
theorem StringBody.unescape_induction {plain : UInt8 → Prop} {P : Bytes → Bytes → Prop}
    (nil : P [] [])
    (char : ∀ c s t, plain c → c ≠ quote → c ≠ backslash → P s t → P (c :: s) (c :: t))
    (escape : ∀ c s t, c ∈ escapes → P s t → P (backslash :: c :: s) (escaped c :: t))
    (unicode : ∀ esc n s t, UnicodeEscape esc n → P s t → P (esc ++ s) (utf8 n ++ t))
    {s : Bytes} (h : StringBody plain s) : P s (unescape s) := by
  have hu : (0x75 : UInt8) ∉ escapes := by decide
  fun_induction unescape s with
  | case1 => exact nil
  | case2 c s hc ih =>
      cases h with
      | plain hplain hquote hbackslash hrest =>
          exact char c s _ hplain hquote hbackslash (ih hrest)
      | escape | unicode => exact absurd rfl hc
  | case3 c hc =>
      cases h with
      | plain _ _ hbackslash _ => exact absurd hbackslash hc
  | case4 c hc e s he ih =>
      cases h with
      | plain _ _ hbackslash _ => exact absurd hbackslash hc
      | escape hescape hrest => exact escape e s _ hescape (ih hrest)
      | unicode => exact absurd rfl he
  | case5 c hc e he a b c₁ d e₁ f a' b' c' d' rest hpair ih =>
      cases h with
      | plain _ _ hbackslash _ => exact absurd hbackslash hc
      | escape hescape _ => exact absurd (not_not.mp he ▸ hescape) hu
      | unicode ha hb hc hd hrest =>
          obtain ⟨-, rfl, rfl, -⟩ := hpair
          cases hrest with
          | plain _ _ hbackslash _ => exact absurd rfl hbackslash
          | escape hescape _ => exact absurd hescape hu
          | unicode ha' hb' hc' hd' hrest =>
              exact unicode _ _ rest _ (.pair ha hb hc hd ha' hb' hc' hd') (ih hrest)
  | case6 c hc e he a b c₁ d e₁ f a' b' c' d' rest hpair ih =>
      cases h with
      | plain _ _ hbackslash _ => exact absurd hbackslash hc
      | escape hescape _ => exact absurd (not_not.mp he ▸ hescape) hu
      | unicode ha hb hc hd hrest => exact unicode _ _ _ _ (.unit ha hb hc hd) (ih hrest)
  | case7 c hc e he a b c₁ d s hshort ih =>
      cases h with
      | plain _ _ hbackslash _ => exact absurd hbackslash hc
      | escape hescape _ => exact absurd (not_not.mp he ▸ hescape) hu
      | unicode ha hb hc hd hrest => exact unicode _ _ _ _ (.unit ha hb hc hd) (ih hrest)
  | case8 c hc e s he hshort =>
      cases h with
      | plain _ _ hbackslash _ => exact absurd hbackslash hc
      | escape hescape _ => exact absurd (not_not.mp he ▸ hescape) hu
      | unicode ha hb hc hd hrest => exact absurd rfl (hshort _ _ _ _ _)

theorem hexValue_lt {c : UInt8} (h : IsHex c) : hexValue c < 16 := by
  simp only [IsHex, UInt8.le_iff_toNat_le] at h
  simp only [hexValue, UInt8.le_iff_toNat_le]
  change 48 ≤ c.toNat ∧ c.toNat ≤ 57 ∨ 65 ≤ c.toNat ∧ c.toNat ≤ 70 ∨
    97 ≤ c.toNat ∧ c.toNat ≤ 102 at h
  change (if c.toNat ≤ 57 then _ else if c.toNat ≤ 70 then _ else _) < 16
  split
  · omega
  · split <;> omega

theorem codeUnit_lt {a b c d : UInt8} (ha : IsHex a) (hb : IsHex b) (hc : IsHex c)
    (hd : IsHex d) : codeUnit a b c d < 0x10000 := by
  have ha := hexValue_lt ha
  have hb := hexValue_lt hb
  have hc := hexValue_lt hc
  have hd := hexValue_lt hd
  rw [codeUnit]
  omega

theorem surrogatePair_lt (high low : Nat) : surrogatePair high low < 0x110000 := by
  rw [surrogatePair]
  omega

namespace UnicodeEscape

variable {esc : Bytes} {n : Nat}

theorem lt (h : UnicodeEscape esc n) : n < 0x110000 := by
  cases h with
  | unit ha hb hc hd =>
      have := codeUnit_lt ha hb hc hd
      omega
  | pair => exact surrogatePair_lt _ _

theorem six_le_length (h : UnicodeEscape esc n) : 6 ≤ esc.length := by
  cases h <;> simp

theorem backslash_mem (h : UnicodeEscape esc n) : backslash ∈ esc := by
  cases h <;> simp

theorem quote_notMem (h : UnicodeEscape esc n) : quote ∉ esc := by
  have hletters : quote ≠ backslash ∧ quote ≠ 0x75 := by decide
  have hhex : ∀ {c : UInt8}, IsHex c → quote ≠ c := by
    rintro c hc rfl
    exact absurd hc (by unfold IsHex; decide)
  cases h with
  | unit ha hb hc hd =>
      simp [hhex ha, hhex hb, hhex hc, hhex hd, hletters]
  | pair ha hb hc hd ha' hb' hc' hd' =>
      simp [hhex ha, hhex hb, hhex hc, hhex hd, hhex ha', hhex hb', hhex hc', hhex hd',
        hletters]

end UnicodeEscape

theorem le_utf8Tail (n : Nat) : 0x80 ≤ utf8Tail n := by
  rw [UInt8.le_iff_toNat_le, utf8Tail, UInt8.toNat_ofNat']
  change 0x80 ≤ _
  omega

/-- A character is one byte, or bytes that are not ASCII. -/
theorem utf8_cases {n : Nat} (h : n < 0x110000) :
    (∃ c, utf8 n = [c]) ∨ (utf8 n).length ≤ 4 ∧ ∀ c ∈ utf8 n, 0x80 ≤ c := by
  have hlead : ∀ {m : Nat}, 0x80 ≤ m → m < 0x100 → 0x80 ≤ UInt8.ofNat m := by
    intro m hle hlt
    rw [UInt8.le_iff_toNat_le, UInt8.toNat_ofNat']
    change 0x80 ≤ _
    omega
  unfold utf8
  split
  · exact .inl ⟨_, rfl⟩
  · refine .inr ?_
    split
    · refine ⟨by simp, ?_⟩
      simp only [List.forall_mem_cons, List.not_mem_nil, false_imp_iff, implies_true, and_true]
      exact ⟨hlead (by omega) (by omega), le_utf8Tail n⟩
    · split
      · refine ⟨by simp, ?_⟩
        simp only [List.forall_mem_cons, List.not_mem_nil, false_imp_iff, implies_true, and_true]
        exact ⟨hlead (by omega) (by omega), le_utf8Tail _, le_utf8Tail n⟩
      · refine ⟨by simp, ?_⟩
        simp only [List.forall_mem_cons, List.not_mem_nil, false_imp_iff, implies_true, and_true]
        exact ⟨hlead (by omega) (by omega), le_utf8Tail _, le_utf8Tail _, le_utf8Tail n⟩

/-! ### Weights -/

/-- No byte weighs more than a backslash, and the bytes beyond ASCII weigh least. -/
structure Absorbs (w : UInt8 → Nat) : Prop where
  le_backslash : ∀ c, w c ≤ w backslash
  le_ascii : ∀ b, 0x80 ≤ b → ∀ c, w b ≤ w c

section Weigh

variable {w : UInt8 → Nat} {c : UInt8} {s t : Bytes}

theorem Absorbs.weigh_le (hw : Absorbs w) (hs : ∀ c ∈ s, 0x80 ≤ c) (hlength : s.length ≤ t.length) :
    weigh w s ≤ weigh w t := by
  induction s generalizing t with
  | nil => exact Nat.zero_le _
  | cons c s ih =>
      cases t with
      | nil => exact absurd hlength (Nat.not_succ_le_zero _)
      | cons d t =>
          rw [weigh_cons, weigh_cons]
          have hhead := hw.le_ascii c (hs c List.mem_cons_self) d
          have htail := ih (fun c hc => hs c (List.mem_cons_of_mem _ hc))
            (Nat.le_of_succ_le_succ hlength)
          exact Nat.add_le_add hhead htail

theorem UnicodeEscape.weigh_le {esc : Bytes} {n : Nat} (h : UnicodeEscape esc n) (hw : Absorbs w) :
    weigh w (utf8 n) ≤ weigh w esc := by
  rcases utf8_cases h.lt with ⟨c, hone⟩ | ⟨hlength, hwide⟩
  · rw [hone, weigh_cons, weigh_nil, Nat.add_zero]
    exact Nat.le_trans (hw.le_backslash c) (le_weigh_of_mem h.backslash_mem)
  · have hsix := h.six_le_length
    exact hw.weigh_le hwide (by omega)

/-- A string is no heavier than its body. -/
theorem weigh_unescape_le {plain : UInt8 → Prop} (hw : Absorbs w) (h : StringBody plain s) :
    weigh w (unescape s) ≤ weigh w s := by
  refine h.unescape_induction (P := fun s t => weigh w t ≤ weigh w s) (Nat.le_refl _) ?_ ?_ ?_
  · intro c s t _ _ _ ih
    rw [weigh_cons, weigh_cons]
    exact Nat.add_le_add_left ih _
  · intro c s t _ ih
    have hc := hw.le_backslash (escaped c)
    rw [weigh_cons, weigh_cons, weigh_cons]
    omega
  · intro esc n s t hesc ih
    have hchar := hesc.weigh_le hw
    rw [weigh_append, weigh_append]
    omega

end Weigh

/-! ### Strings that stand for themselves -/

/-- No byte of the string has to be escaped. -/
def Plain (s : Bytes) : Prop := ∀ c ∈ s, 0x20 ≤ c ∧ c ≠ quote ∧ c ≠ backslash

instance (s : Bytes) : Decidable (Plain s) := List.decidableBAll _ s

section Plain

variable {s : Bytes}

theorem Plain.body (h : Plain s) : StringBody (0x20 ≤ ·) s := by
  induction s with
  | nil => exact .nil
  | cons c s ih =>
      obtain ⟨hcontrol, hquote, hbackslash⟩ := h c List.mem_cons_self
      exact .plain hcontrol hquote hbackslash (ih fun c hc => h c (List.mem_cons_of_mem _ hc))

theorem Plain.unescape_eq (h : Plain s) : unescape s = s := by
  induction s with
  | nil => rfl
  | cons c s ih =>
      have hc := (h c List.mem_cons_self).2.2
      rw [unescape.eq_def]
      simp only [if_pos hc, ih fun c hc => h c (List.mem_cons_of_mem _ hc)]

theorem absorbs_one : Absorbs fun _ => 1 := ⟨fun _ => Nat.le_refl 1, fun _ _ _ => Nat.le_refl 1⟩

theorem length_unescape_le {plain : UInt8 → Prop} (h : StringBody plain s) :
    (unescape s).length ≤ s.length := by
  rw [← weigh_one, ← weigh_one s]
  exact weigh_unescape_le absorbs_one h

/-- An escape makes the string shorter than its body. -/
theorem plain_of_length_le (h : StringBody (0x20 ≤ ·) s) (hlength : s.length ≤ (unescape s).length) :
    Plain s := by
  have hboth : (unescape s).length ≤ s.length ∧ (s.length ≤ (unescape s).length → Plain s) := by
    refine h.unescape_induction
      (P := fun s t => t.length ≤ s.length ∧ (s.length ≤ t.length → Plain s))
      ⟨Nat.le_refl 0, fun _ c hc => absurd hc List.not_mem_nil⟩ ?_ ?_ ?_
    · rintro c s t hcontrol hquote hbackslash ⟨hle, hplain⟩
      refine ⟨Nat.succ_le_succ hle, fun hlength d hd => ?_⟩
      rcases List.mem_cons.mp hd with rfl | hd
      · exact ⟨hcontrol, hquote, hbackslash⟩
      · exact hplain (Nat.le_of_succ_le_succ hlength) d hd
    · rintro c s t - ⟨hle, -⟩
      simp only [List.length_cons]
      exact ⟨by omega, fun hlength => absurd hlength (by omega)⟩
    · rintro esc n s t hesc ⟨hle, -⟩
      have hsix := hesc.six_le_length
      have hchar : (utf8 n).length ≤ 4 := by
        rcases utf8_cases hesc.lt with ⟨c, hone⟩ | ⟨hfour, -⟩
        · rw [hone]
          exact Nat.le_add_left 1 3
        · exact hfour
      simp only [List.length_append]
      exact ⟨by omega, fun hlength => absurd hlength (by omega)⟩
  exact hboth.2 hlength

end Plain

/-! ### Quotes in a body -/

section Quotes

variable {plain : UInt8 → Prop} {s : Bytes}

/-- A quote in a body is an escaped one. -/
theorem count_quote_le (h : StringBody plain s) : s.count quote ≤ (unescape s).count quote := by
  refine h.unescape_induction (P := fun s t => s.count quote ≤ t.count quote) (Nat.le_refl 0)
    ?_ ?_ ?_
  · intro c s t _ _ _ ih
    rw [List.count_cons, List.count_cons]
    exact Nat.add_le_add_right ih _
  · intro c s t hescape ih
    have hbackslash : (backslash == quote) = false := rfl
    rw [List.count_cons, List.count_cons, List.count_cons, hbackslash]
    by_cases hc : c = quote
    · subst hc
      have hquote : escaped quote = quote := rfl
      rw [hquote]
      exact Nat.add_le_add_right ih _
    · have hne : (c == quote) = false := beq_eq_false_iff_ne.mpr hc
      rw [hne]
      exact Nat.le_trans ih (Nat.le_add_right _ _)
  · intro esc n s t hesc ih
    rw [List.count_append, List.count_append, List.count_eq_zero.mpr hesc.quote_notMem,
      Nat.zero_add]
    exact Nat.le_trans ih (Nat.le_add_left _ _)

/-- and stands behind a backslash. -/
theorem StringBody.chain (h : StringBody plain s) :
    s.head? ≠ some quote ∧ s.IsChain fun c d => d = quote → c = backslash := by
  have hcons : ∀ {c : UInt8} {s : Bytes}, s.head? ≠ some quote →
      (s.IsChain fun c d => d = quote → c = backslash) →
      (c :: s).IsChain fun c d => d = quote → c = backslash := by
    intro c s hhead hchain
    cases s with
    | nil => exact .singleton c
    | cons d s => exact .cons_cons (fun hd => absurd (congrArg some hd) hhead) hchain
  induction h with
  | nil => exact ⟨nofun, .nil⟩
  | plain _ hquote _ _ ih => exact ⟨fun h => hquote (Option.some.inj h), hcons ih.1 ih.2⟩
  | @escape c s _ _ ih =>
      exact ⟨fun h => absurd (Option.some.inj h) (by decide),
        .cons_cons (fun _ => rfl) (hcons ih.1 ih.2)⟩
  | unicode ha hb hc hd _ ih =>
      have hhex : ∀ {c : UInt8} {s : Bytes}, IsHex c → (c :: s).head? ≠ some quote := by
        intro c s hc hhead
        rw [Option.some.inj hhead] at hc
        exact absurd hc (by unfold IsHex; decide)
      refine ⟨fun h => absurd (Option.some.inj h) (by decide), .cons_cons (fun _ => rfl) ?_⟩
      exact hcons (hhex ha) (hcons (hhex hb) (hcons (hhex hc) (hcons (hhex hd)
        (hcons ih.1 ih.2))))

theorem StringBody.before_quote {a b : Bytes} {c : UInt8}
    (h : StringBody plain (a ++ c :: quote :: b)) : c = backslash :=
  (List.isChain_append_cons_cons.mp h.chain.2).2.1 rfl

end Quotes

/-! ### Fields -/

/-- A value that is not a container; numbers and words are given by their text. -/
inductive Scalar where
  | str (s : Bytes)
  | prim (text : Bytes)
  deriving DecidableEq

def Value.scalar : Value → Option Scalar
  | .str body => some (.str (unescape body))
  | .prim text => some (.prim text)
  | .arr _ _ | .obj _ _ => none

/-- The names and the values of an object, in order. -/
def Members.scalars : Members → Option (List (Bytes × Scalar))
  | .nil => some []
  | .cons _ key _ _ value _ rest => do
    let v ← value.scalar
    let fields ← rest.scalars
    some ((unescape key, v) :: fields)

/-- The text is a well-formed document, and these are the fields of its object. -/
def Decodes (text : Bytes) (fields : List (Bytes × Scalar)) : Prop :=
  ∃ d : Document, d.WellFormed ∧ d.text = text ∧ d.members.scalars = some fields

theorem Members.scalars_eq_cons {members : Members} {field : Bytes × Scalar}
    {fields : List (Bytes × Scalar)} (h : members.scalars = some (field :: fields)) :
    ∃ before key beforeColon afterColon value after rest,
      members = .cons before key beforeColon afterColon value after rest ∧
        unescape key = field.1 ∧ value.scalar = some field.2 ∧ rest.scalars = some fields := by
  cases members with
  | nil => cases h
  | cons before key beforeColon afterColon value after rest =>
      obtain ⟨v, hv, h⟩ := Option.bind_eq_some_iff.mp h
      obtain ⟨vs, hvs, h⟩ := Option.bind_eq_some_iff.mp h
      obtain ⟨rfl, rfl⟩ := List.cons.inj (Option.some.inj h)
      exact ⟨before, key, beforeColon, afterColon, value, after, rest, rfl, rfl, hv, hvs⟩

theorem Value.scalar_eq_str {v : Value} {s : Bytes} (h : v.scalar = some (.str s)) :
    ∃ body, v = .str body ∧ unescape body = s := by
  cases v with
  | str body => exact ⟨body, rfl, Scalar.str.inj (Option.some.inj h)⟩
  | prim | arr | obj => cases h

end JsonSyntax
