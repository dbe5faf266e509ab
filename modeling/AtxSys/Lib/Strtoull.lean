import AtxSys.Lib.Printf
import Mathlib.Data.List.TakeWhile

/-!
# Integers in text

`strtoull` for base 0 in the C locale. It takes the longest front of the text that consists of
blanks, a sign and an integer constant as C writes one, in decimal, octal or hexadecimal. `Subject`
is the grammar of these fronts, and `strtoull` is shown to find one exactly where there is one.
-/

namespace CText

/-! ### Digits -/

abbrev minus : UInt8 := 0x2D
abbrev plus : UInt8 := 0x2B

/-- What a byte stands for as a digit, in the bases up to 36. -/
def digitValue (c : UInt8) : Option Nat :=
  if 0x30 ≤ c ∧ c ≤ 0x39 then some (c.toNat - 48)
  else if 0x61 ≤ c ∧ c ≤ 0x7A then some (c.toNat - 97 + 10)
  else if 0x41 ≤ c ∧ c ≤ 0x5A then some (c.toNat - 65 + 10)
  else none

def isDigitIn (base : Nat) (c : UInt8) : Bool := (digitValue c).any (· < base)

/-- The number that digits denote. -/
def numberIn (base : Nat) (s : Bytes) : Nat :=
  s.foldl (fun n c => base * n + (digitValue c).getD 0) 0

section Digits

variable {base : Nat} {c : UInt8}

theorem isDigitIn_iff : isDigitIn base c = true ↔ ∃ d, digitValue c = some d ∧ d < base := by
  simp [isDigitIn, Option.any_eq_true]

theorem isDigitIn_of_none (h : digitValue c = none) : isDigitIn base c = false := by
  rw [isDigitIn, h]
  rfl

theorem digitValue_decimal (h : 48 ≤ c ∧ c ≤ 57) : digitValue c = some (c.toNat - 48) := if_pos h

theorem isDigitIn_ten : isDigitIn 10 c = true ↔ 48 ≤ c ∧ c ≤ 57 := by
  constructor
  · intro h
    obtain ⟨d, hd, hlt⟩ := isDigitIn_iff.mp h
    by_contra hc
    -- a letter stands for ten at least
    rw [digitValue, if_neg hc] at hd
    split at hd
    · obtain rfl := Option.some.inj hd
      omega
    · split at hd
      · obtain rfl := Option.some.inj hd
        omega
      · cases hd
  · intro h
    have hle : c.toNat ≤ 57 := UInt8.le_iff_toNat_le.mp h.2
    exact isDigitIn_iff.mpr ⟨_, digitValue_decimal h, by omega⟩

theorem numberIn_decimal {s : Bytes} (h : ∀ c ∈ s, 48 ≤ c ∧ c ≤ 57) :
    numberIn 10 s = decimalValue s := by
  unfold numberIn decimalValue
  refine List.foldl_ext _ _ 0 fun n c hc => ?_
  rw [digitValue_decimal (h c hc)]
  rfl

end Digits

/-! ### Integer constants -/

/-- The base that an integer constant is written in, and the length of its prefix. -/
def readBase (s : Bytes) : Nat × Nat :=
  if s.head? ≠ some digitZero then (10, 0)
  else if (s[1]? = some 0x78 ∨ s[1]? = some 0x58) ∧ (s[2]?).any (isDigitIn 16) then (16, 2)
  else (8, 0)

/-- The integer constant that a text begins with: its length and its value. -/
def readConstant (s : Bytes) : Option (Nat × Nat) :=
  let (base, lead) := readBase s
  let digits := (s.drop lead).takeWhile (isDigitIn base)
  if digits = [] then none else some (lead + digits.length, numberIn base digits)

/-- Integer constants without a suffix, and their values. -/
inductive Constant : Bytes → Nat → Prop where
  | decimal {c : UInt8} {s : Bytes} (hlead : c ≠ digitZero)
      (hdigits : ∀ d ∈ c :: s, isDigitIn 10 d) : Constant (c :: s) (numberIn 10 (c :: s))
  | octal {s : Bytes} (hdigits : ∀ d ∈ s, isDigitIn 8 d) :
      Constant (digitZero :: s) (numberIn 8 (digitZero :: s))
  | hexadecimal {x : UInt8} {s : Bytes} (hx : x = 0x78 ∨ x = 0x58) (hne : s ≠ [])
      (hdigits : ∀ d ∈ s, isDigitIn 16 d) : Constant (digitZero :: x :: s) (numberIn 16 s)

/-- The text does not go on with a digit or a letter. -/
def Ended (rest : Bytes) : Prop := ∀ c, rest.head? = some c → digitValue c = none

section Constants

variable {s rest : Bytes} {m k : Nat}

theorem takeWhile_ended {base : Nat} (hs : ∀ c ∈ s, isDigitIn base c) (hrest : Ended rest) :
    (s ++ rest).takeWhile (isDigitIn base) = s := by
  rw [List.takeWhile_append_of_pos hs]
  cases rest with
  | nil => simp
  | cons c rest =>
      rw [List.takeWhile_cons_of_neg, List.append_nil]
      simpa using isDigitIn_of_none (hrest c rfl)

theorem readConstant_of_base {base lead : Nat} {digits : Bytes} (hbase : readBase s = (base, lead))
    (hdigits : (s.drop lead).takeWhile (isDigitIn base) = digits) (hne : digits ≠ []) :
    readConstant s = some (lead + digits.length, numberIn base digits) := by
  rw [readConstant, hbase]
  dsimp only
  rw [hdigits, if_neg hne]

theorem Constant.read (h : Constant s m) (hrest : Ended rest) :
    readConstant (s ++ rest) = some (s.length, m) := by
  cases h with
  | @decimal c s hlead hdigits =>
      have hbase : readBase (c :: s ++ rest) = (10, 0) := if_pos (by simpa using hlead)
      have hread := readConstant_of_base hbase (takeWhile_ended hdigits hrest) (by simp)
      rwa [Nat.zero_add] at hread
  | @octal s hdigits =>
      have hall : ∀ d ∈ digitZero :: s, isDigitIn 8 d := by
        rintro d hd
        rcases List.mem_cons.mp hd with rfl | hd
        · rfl
        · exact hdigits d hd
      have hnext : ∀ x, (s ++ rest).head? = some x → ¬(x = 0x78 ∨ x = 0x58) := by
        rintro x hx hletter
        have hvalue : digitValue x = some 33 := by rcases hletter with rfl | rfl <;> rfl
        cases s with
        | nil => exact absurd (hrest x hx) (by rw [hvalue]; nofun)
        | cons d s =>
            obtain rfl := Option.some.inj hx
            obtain ⟨v, hv, hlt⟩ := isDigitIn_iff.mp (hdigits d (by simp))
            obtain rfl := Option.some.inj (hv.symm.trans hvalue)
            omega
      have hbase : readBase (digitZero :: s ++ rest) = (8, 0) := by
        rw [readBase, if_neg (by simp), if_neg]
        rintro ⟨hletter, -⟩
        rw [List.cons_append, List.getElem?_cons_succ, ← List.head?_eq_getElem?] at hletter
        rcases hletter with h | h
        · exact hnext _ h (.inl rfl)
        · exact hnext _ h (.inr rfl)
      have hread := readConstant_of_base hbase (takeWhile_ended hall hrest) (by simp)
      rwa [Nat.zero_add] at hread
  | @hexadecimal x s hx hne hdigits =>
      obtain ⟨d, s, rfl⟩ := List.exists_cons_of_ne_nil hne
      have hbase : readBase (digitZero :: x :: (d :: s) ++ rest) = (16, 2) := by
        rw [readBase, if_neg (by simp), if_pos]
        exact ⟨by simpa using hx, hdigits d (by simp)⟩
      have hread := readConstant_of_base hbase (takeWhile_ended hdigits hrest) hne
      rwa [Nat.add_comm] at hread

theorem readConstant_eq_some (h : readConstant s = some (k, m)) :
    ∃ base lead, readBase s = (base, lead) ∧
      k = lead + ((s.drop lead).takeWhile (isDigitIn base)).length ∧
      m = numberIn base ((s.drop lead).takeWhile (isDigitIn base)) ∧
      (s.drop lead).takeWhile (isDigitIn base) ≠ [] := by
  rw [readConstant] at h
  dsimp only at h
  split at h
  · cases h
  · next hne =>
    obtain ⟨rfl, rfl⟩ := Prod.mk.inj (Option.some.inj h)
    exact ⟨_, _, rfl, rfl, rfl, hne⟩

theorem take_takeWhile (p : UInt8 → Bool) (s : Bytes) :
    s.take (s.takeWhile p).length = s.takeWhile p :=
  (List.prefix_iff_eq_take.mp (List.takeWhile_prefix p)).symm

theorem readBase_cases (s : Bytes) :
    s.head? ≠ some digitZero ∧ readBase s = (10, 0) ∨
      (∃ x d t, s = digitZero :: x :: d :: t ∧ (x = 0x78 ∨ x = 0x58) ∧ isDigitIn 16 d ∧
        readBase s = (16, 2)) ∨
      ∃ t, s = digitZero :: t ∧ readBase s = (8, 0) := by
  by_cases hlead : s.head? = some digitZero
  swap
  · exact .inl ⟨hlead, if_pos hlead⟩
  obtain ⟨t, rfl⟩ : ∃ t, s = digitZero :: t := List.head?_eq_some_iff.mp hlead
  by_cases hx : ((digitZero :: t)[1]? = some 0x78 ∨ (digitZero :: t)[1]? = some 0x58) ∧
      ((digitZero :: t)[2]?).any (isDigitIn 16)
  · refine .inr (.inl ?_)
    have hbase : readBase (digitZero :: t) = (16, 2) := by
      rw [readBase, if_neg (not_not.mpr hlead), if_pos hx]
    obtain ⟨hletter, hdigit⟩ := hx
    match t, hletter, hdigit, hbase with
    | x :: d :: t, hletter, hdigit, hbase =>
      exact ⟨x, d, t, rfl, by simpa using hletter, hdigit, hbase⟩
  · exact .inr (.inr ⟨t, rfl, by rw [readBase, if_neg (not_not.mpr hlead), if_neg hx]⟩)

theorem constant_of_read (h : readConstant s = some (k, m)) : Constant (s.take k) m ∧ 0 < k := by
  obtain ⟨base, lead, hbase, rfl, rfl, hne⟩ := readConstant_eq_some h
  refine ⟨?_, Nat.add_pos_right _ (List.length_pos_iff.mpr hne)⟩
  obtain ⟨hlead, heq⟩ | ⟨x, d, t, rfl, hx, hd, heq⟩ | ⟨t, rfl, heq⟩ := readBase_cases s
  · obtain ⟨rfl, rfl⟩ := Prod.mk.inj (hbase.symm.trans heq)
    simp only [List.drop_zero, Nat.zero_add] at hne ⊢
    rw [take_takeWhile]
    cases s with
    | nil => exact absurd rfl hne
    | cons c s =>
        by_cases hc : isDigitIn 10 c
        · have hall : ∀ d ∈ (c :: s).takeWhile (isDigitIn 10), isDigitIn 10 d :=
            fun d => List.mem_takeWhile_imp
          rw [List.takeWhile_cons_of_pos hc] at hall ⊢
          exact .decimal (by simpa using hlead) hall
        · rw [List.takeWhile_cons_of_neg hc] at hne
          exact absurd rfl hne
  · obtain ⟨rfl, rfl⟩ := Prod.mk.inj (hbase.symm.trans heq)
    simp only [List.drop_succ_cons, List.drop_zero] at hne ⊢
    rw [Nat.add_comm, List.take_succ_cons, List.take_succ_cons, take_takeWhile]
    exact .hexadecimal hx hne fun d => List.mem_takeWhile_imp
  · obtain ⟨rfl, rfl⟩ := Prod.mk.inj (hbase.symm.trans heq)
    have hzero : isDigitIn 8 digitZero = true := rfl
    simp only [List.drop_zero, Nat.zero_add]
    rw [take_takeWhile, List.takeWhile_cons_of_pos hzero]
    exact .octal fun d => List.mem_takeWhile_imp

theorem Constant.head (h : Constant s m) : ∃ c t, s = c :: t ∧ isDigitIn 10 c := by
  cases h with
  | decimal hlead hdigits => exact ⟨_, _, rfl, hdigits _ (by simp)⟩
  | octal | hexadecimal => exact ⟨_, _, rfl, rfl⟩

theorem Constant.of_decimal (hdigits : ∀ c ∈ s, 48 ≤ c ∧ c ≤ 57) (hne : s ≠ [])
    (hlead : s = [digitZero] ∨ s.head? ≠ some digitZero) : Constant s (decimalValue s) := by
  rcases hlead with rfl | hlead
  · exact .octal (by simp)
  · obtain ⟨c, t, rfl⟩ := List.exists_cons_of_ne_nil hne
    rw [← numberIn_decimal hdigits]
    exact .decimal (by simpa using hlead) fun d hd => isDigitIn_ten.mpr (hdigits d hd)

end Constants

/-! ### Conversions -/

/-- `isspace` -/
def isSpace (c : UInt8) : Bool := c == space || (0x09 ≤ c && c ≤ 0x0D)

/-- Whether a text begins with a minus sign, and the length of the sign it begins with. -/
def readSign (s : Bytes) : Bool × Nat :=
  if s.head? = some minus then (true, 1)
  else if s.head? = some plus then (false, 1)
  else (false, 0)

/-- The magnitude with its sign as an `unsigned long long`: a minus sign negates it modulo 2^64, and
a magnitude that does not fit gives `ULLONG_MAX` with either sign. -/
def ullong (neg : Bool) (m : Nat) : Nat :=
  if 2 ^ 64 ≤ m then 2 ^ 64 - 1 else if neg then (2 ^ 64 - m) % 2 ^ 64 else m

/-- What `strtoull` returns, how far into the text its end pointer points, and whether it sets
`errno` to `ERANGE`. -/
structure Conversion where
  value : Nat
  length : Nat
  range : Bool
  deriving DecidableEq

def strtoull (s : Bytes) : Conversion :=
  let blanks := (s.takeWhile isSpace).length
  let (neg, sign) := readSign (s.drop blanks)
  match readConstant (s.drop (blanks + sign)) with
  | none => { value := 0, length := 0, range := false }
  | some (k, m) => { value := ullong neg m, length := blanks + sign + k, range := 2 ^ 64 ≤ m }

/-- The texts of a sign; the flag is set for a minus. -/
inductive Sign : Bytes → Bool → Prop where
  | absent : Sign [] false
  | plus : Sign [plus] false
  | minus : Sign [minus] true

/-- The texts that are converted as a whole, with their sign and their magnitude. -/
inductive Subject : Bytes → Bool → Nat → Prop where
  | mk {blanks sign body : Bytes} {neg : Bool} {m : Nat} (hblanks : ∀ c ∈ blanks, isSpace c)
      (hsign : Sign sign neg) (hbody : Constant body m) : Subject (blanks ++ (sign ++ body)) neg m

theorem ullong_lt (neg : Bool) (m : Nat) : ullong neg m < 2 ^ 64 := by
  unfold ullong
  split
  · omega
  · split <;> omega

section Conversions

variable {s rest body : Bytes} {neg : Bool} {m : Nat}

theorem isSpace_of_digit {c : UInt8} (h : isDigitIn 10 c) : isSpace c = false := by
  obtain ⟨hlow, -⟩ := isDigitIn_ten.mp h
  rw [Bool.eq_false_iff]
  intro hspace
  simp only [isSpace, Bool.or_eq_true, Bool.and_eq_true, beq_iff_eq, decide_eq_true_eq] at hspace
  rcases hspace with rfl | ⟨-, hhigh⟩
  · exact absurd hlow (by decide)
  · exact absurd (UInt8.le_trans hlow hhigh) (by decide)

theorem readSign_append (hsign : Sign s neg) (hbody : Constant body m) :
    readSign (s ++ (body ++ rest)) = (neg, s.length) := by
  cases hsign with
  | plus | minus => rfl
  | absent =>
      obtain ⟨c, t, rfl, hc⟩ := hbody.head
      have hne : ∀ d, isDigitIn 10 d = false → c ≠ d := by
        rintro d hd rfl
        rw [hd] at hc
        cases hc
      simp [readSign, hne minus rfl, hne plus rfl]

theorem readSign_spec (s : Bytes) :
    ∃ sign rest, s = sign ++ rest ∧ Sign sign (readSign s).1 ∧ sign.length = (readSign s).2 := by
  unfold readSign
  split
  · next h =>
    obtain ⟨t, rfl⟩ := List.head?_eq_some_iff.mp h
    exact ⟨[minus], t, rfl, .minus, rfl⟩
  · split
    · next h =>
      obtain ⟨t, rfl⟩ := List.head?_eq_some_iff.mp h
      exact ⟨[plus], t, rfl, .plus, rfl⟩
    · exact ⟨[], s, rfl, .absent, rfl⟩

theorem takeWhile_blanks (hblanks : ∀ c ∈ s, isSpace c) {sign : Bytes} (hsign : Sign sign neg)
    (hbody : Constant body m) : (s ++ (sign ++ (body ++ rest))).takeWhile isSpace = s := by
  have hnext : (sign ++ (body ++ rest)).takeWhile isSpace = [] := by
    cases hsign with
    | plus | minus => rfl
    | absent =>
        obtain ⟨c, t, rfl, hc⟩ := hbody.head
        exact List.takeWhile_cons_of_neg (by simp [isSpace_of_digit hc])
  rw [List.takeWhile_append_of_pos hblanks, hnext, List.append_nil]

/-- A subject is converted as a whole where no digit and no letter follows. -/
theorem Subject.convert (h : Subject s neg m) (hrest : Ended rest) :
    strtoull (s ++ rest) = ⟨ullong neg m, s.length, decide (2 ^ 64 ≤ m)⟩ := by
  obtain ⟨hblanks, hsign, hbody⟩ := h
  rename_i blanks sign body
  have hassoc : blanks ++ (sign ++ body) ++ rest = blanks ++ (sign ++ (body ++ rest)) := by
    simp only [List.append_assoc]
  have hdrop : (blanks ++ (sign ++ (body ++ rest))).drop (blanks.length + sign.length) =
      body ++ rest := by
    rw [← List.drop_drop, List.drop_left, List.drop_left]
  rw [strtoull, hassoc, takeWhile_blanks hblanks hsign hbody, List.drop_left,
    readSign_append hsign hbody]
  dsimp only
  rw [hdrop, hbody.read hrest]
  simp [Nat.add_assoc]

example : strtoull (bytes " -0x1Fg") = ⟨2 ^ 64 - 31, 6, false⟩ := by rfl

/-- What is converted is a subject. -/
theorem subject_of_strtoull (h : (strtoull s).length ≠ 0) :
    ∃ neg m, Subject (s.take (strtoull s).length) neg m := by
  obtain ⟨sign, rest, hrest, hsign, hlength⟩ := readSign_spec (s.drop (s.takeWhile isSpace).length)
  have hdrop : s.drop ((s.takeWhile isSpace).length + sign.length) = rest := by
    rw [← List.drop_drop, hrest, List.drop_left]
  have htake : ∀ k, s.take ((s.takeWhile isSpace).length + sign.length + k) =
      s.takeWhile isSpace ++ (sign ++ rest.take k) := by
    intro k
    rw [Nat.add_assoc, List.take_add, take_takeWhile, hrest, List.take_length_add_append]
  unfold strtoull at h ⊢
  dsimp only at h ⊢
  rw [← hlength, hdrop] at h ⊢
  split at h
  · exact absurd rfl h
  · next k m hread =>
    rw [htake]
    exact ⟨_, m, Subject.mk (fun c => List.mem_takeWhile_imp) hsign (constant_of_read hread).1⟩

theorem strtoull_none (h : (strtoull s).length = 0) : strtoull s = ⟨0, 0, false⟩ := by
  unfold strtoull at h ⊢
  dsimp only at h ⊢
  split at h
  · rfl
  · next k m hread =>
    have := (constant_of_read hread).2
    dsimp only at h
    omega

theorem Constant.subject (h : Constant s m) : Subject s false m := by
  have hblanks : ∀ c ∈ ([] : Bytes), isSpace c := nofun
  exact .mk hblanks .absent h

theorem Constant.negated (h : Constant s m) : Subject (minus :: s) true m := by
  have hblanks : ∀ c ∈ ([] : Bytes), isSpace c := nofun
  exact .mk hblanks .minus h

theorem Subject.head (h : Subject s neg m) :
    ∃ c t, s = c :: t ∧ (isSpace c ∨ c = minus ∨ c = plus ∨ isDigitIn 10 c) := by
  obtain ⟨hblanks, hsign, hbody⟩ := h
  rename_i blanks sign body
  cases blanks with
  | cons c t => exact ⟨c, _, rfl, .inl (hblanks c (by simp))⟩
  | nil =>
      cases hsign with
      | plus => exact ⟨plus, _, rfl, .inr (.inr (.inl rfl))⟩
      | minus => exact ⟨minus, _, rfl, .inr (.inl rfl)⟩
      | absent =>
          obtain ⟨c, t, rfl, hc⟩ := hbody.head
          exact ⟨c, t, rfl, .inr (.inr (.inr hc))⟩

/-- The conversion of a text that is no subject ends elsewhere than the text does, unless the text is
empty. -/
theorem length_of_not_subject (h : ∀ neg m, ¬Subject s neg m) (rest : Bytes) :
    (strtoull (s ++ rest)).length ≠ s.length ∨ s = [] ∧ strtoull (s ++ rest) = ⟨0, 0, false⟩ := by
  by_cases hlength : (strtoull (s ++ rest)).length = s.length
  swap
  · exact .inl hlength
  by_cases hempty : s.length = 0
  · exact .inr ⟨List.length_eq_zero_iff.mp hempty, strtoull_none (hlength.trans hempty)⟩
  · obtain ⟨neg, m, hsubject⟩ := subject_of_strtoull (hlength ▸ hempty)
    rw [hlength, List.take_left] at hsubject
    exact absurd hsubject (h neg m)

end Conversions

end CText
