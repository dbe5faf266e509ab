import AtxSys.Lib.CText
import Mathlib.Algebra.Ring.Int.Defs
import Mathlib.Algebra.Ring.Nat

/-!
# The conversions of printf

Formats with flags, widths, precisions and length modifiers, for arguments of type `int` and
`char*`. Where the standard leaves the behaviour undefined, `vprintf` is `none`: an incomplete or
unknown conversion, a flag or a precision that a conversion does not take, an argument that is missing
or of another type than the conversion asks for.
-/

namespace CText

/-! ### Directives -/

/-- A field width or a precision: absent, in the format, or `*`. -/
inductive Count where
  | absent
  | digits (n : Nat)
  | arg
  deriving DecidableEq

/-- What stands between a `%` and its conversion, and the conversion. -/
structure Directive where
  flags : Bytes
  width : Count
  precision : Count
  modifier : Bytes
  conv : UInt8
  deriving DecidableEq

abbrev asterisk : UInt8 := 0x2A
abbrev digitZero : UInt8 := 0x30

def isFlag (c : UInt8) : Bool := c ∈ bytes "-+ #0"

def isDecimal (c : UInt8) : Bool := c ∈ bytes "0123456789"

def isModifier (c : UInt8) : Bool := c ∈ bytes "hljztL"

def decimalValue (s : Bytes) : Nat := s.foldl (fun n c => 10 * n + (c.toNat - 48)) 0

def readCount : Bytes → Count × Bytes
  | [] => (.absent, [])
  | c :: s =>
    if c = asterisk then (.arg, s)
    else if isDecimal c then
      (.digits (decimalValue ((c :: s).takeWhile isDecimal)), (c :: s).dropWhile isDecimal)
    else (.absent, c :: s)

/-- A dot without a number is a precision of 0. -/
def readPrecision : Bytes → Count × Bytes
  | [] => (.absent, [])
  | c :: s =>
    if c ≠ dot then (.absent, c :: s)
    else match readCount s with
      | (.absent, rest) => (.digits 0, rest)
      | found => found

/-- The directive behind a `%`, and what follows it. -/
def readDirective (fmt : Bytes) : Option (Directive × Bytes) :=
  let flags := fmt.takeWhile isFlag
  let (width, fmt) := readCount (fmt.dropWhile isFlag)
  let (precision, fmt) := readPrecision fmt
  let modifier := fmt.takeWhile isModifier
  match fmt.dropWhile isModifier with
  | [] => none
  | conv :: fmt => some ({ flags, width, precision, modifier, conv }, fmt)

/-! ### Fields -/

/-- The number for a width or a precision, and the arguments that are left. -/
def Count.take : Count → List Arg → Option (Option Int × List Arg)
  | .absent, args => some (none, args)
  | .digits n, args => some (some n, args)
  | .arg, .int n :: args => some (some n, args)
  | .arg, _ => none

/-- A directive whose width and precision are known. -/
structure Field where
  left : Bool
  zero : Bool
  plus : Bool
  blank : Bool
  alt : Bool
  width : Nat
  precision : Option Nat

namespace Field

/-- A negative width is a `-` flag and a width, a negative precision is none. -/
def ofCounts (flags : Bytes) (width precision : Option Int) : Field where
  left := 0x2D ∈ flags || width.getD 0 < 0
  zero := 0x30 ∈ flags
  plus := 0x2B ∈ flags
  blank := space ∈ flags
  alt := 0x23 ∈ flags
  width := (width.getD 0).natAbs
  precision := precision.bind fun n => if n < 0 then none else some n.toNat

def pad (f : Field) (zero : Bool) (sign body : Bytes) : Bytes :=
  let fill := f.width - (sign.length + body.length)
  if f.left then sign ++ (body ++ List.replicate fill space)
  else if zero then sign ++ (List.replicate fill digitZero ++ body)
  else List.replicate fill space ++ (sign ++ body)

end Field

def numeral (base n : Nat) : Bytes := (Nat.toDigits base n).map fun c => c.toNat.toUInt8

/-- At least as many digits as the precision says, and none for 0 with a precision of 0. -/
def numeralOf (base : Nat) (precision : Option Nat) (n : Nat) : Bytes :=
  if precision = some 0 ∧ n = 0 then []
  else
    let digits := numeral base n
    List.replicate (precision.getD 1 - digits.length) digitZero ++ digits

def upper (c : UInt8) : UInt8 := if 0x61 ≤ c ∧ c ≤ 0x7A then c - 0x20 else c

/-- The bits of an `int` argument that a length modifier leaves; the other modifiers ask for another
type. -/
def intBits (modifier : Bytes) : Option Nat :=
  if modifier = [] then some 32
  else if modifier = bytes "h" then some 16
  else if modifier = bytes "hh" then some 8
  else none

namespace Field

/-- `d` and `i`. -/
def signed (f : Field) (n : Int) : Bytes :=
  let sign := if n < 0 then bytes "-" else if f.plus then bytes "+" else if f.blank then bytes " " else []
  f.pad (f.zero && f.precision.isNone) sign (numeralOf 10 f.precision n.natAbs)

/-- `u`, `o`, `x` and `X`. -/
def unsigned (f : Field) (conv : UInt8) (n : Nat) : Bytes :=
  let zero := f.zero && f.precision.isNone
  let hexSign := if f.alt && n ≠ 0 then bytes "0x" else []
  if conv = 0x75 then f.pad zero [] (numeralOf 10 f.precision n)
  else if conv = 0x6F then
    let digits := numeralOf 8 f.precision n
    f.pad zero [] (if f.alt && digits.head? ≠ some digitZero then digitZero :: digits else digits)
  else if conv = 0x78 then f.pad zero hexSign (numeralOf 16 f.precision n)
  else (f.pad zero hexSign (numeralOf 16 f.precision n)).map upper

/-- The output of a conversion with its argument. -/
def convert (f : Field) (modifier : Bytes) (conv : UInt8) : Arg → Option Bytes
  | .int n =>
    if conv = 0x63 then
      if modifier = [] ∧ f.alt = false ∧ f.zero = false ∧ f.precision = none then
        some (f.pad false [] [UInt8.ofInt n])
      else none
    else if conv = 0x64 ∨ conv = 0x69 then
      if f.alt then none
      else (intBits modifier).map fun bits => f.signed (BitVec.ofInt bits n).toInt
    else if conv = 0x75 ∧ f.alt = false ∨ conv ∈ bytes "oxX" then
      (intBits modifier).map fun bits => f.unsigned conv (BitVec.ofInt bits n).toNat
    else none
  | .str s =>
    if conv = 0x73 ∧ modifier = [] ∧ f.alt = false ∧ f.zero = false then
      some (f.pad false [] (cstr (match f.precision with | none => s | some p => s.take p)))
    else none

end Field

namespace Directive

/-- The output of a directive, and the arguments that are left. A `%%` takes nothing between its
two bytes. -/
def render (d : Directive) (args : List Arg) : Option (Bytes × List Arg) :=
  if d.conv = percent then
    if d = ⟨[], .absent, .absent, [], percent⟩ then some ([percent], args) else none
  else do
    let (width, args) ← d.width.take args
    let (precision, args) ← d.precision.take args
    match args with
    | [] => none
    | arg :: args => do
      let text ← (Field.ofCounts d.flags width precision).convert d.modifier d.conv arg
      some (text, args)

end Directive

/-- The format is read from its front; each directive is shorter than what it is read from, so the
format's length bounds the rounds. -/
def vprintfLoop : Nat → Bytes → List Arg → Option Bytes
  | _, [], _ => some []
  | 0, _, _ => none
  | fuel + 1, c :: fmt, args =>
    if c ≠ percent then (c :: ·) <$> vprintfLoop fuel fmt args
    else do
      let (d, fmt) ← readDirective fmt
      let (text, args) ← d.render args
      (text ++ ·) <$> vprintfLoop fuel fmt args

/-- What `vsnprintf` renders for a format and its arguments. -/
def vprintf (fmt : Bytes) (args : List Arg) : Option Bytes := vprintfLoop fmt.length fmt args

example : vprintf (bytes "%-5d|%05d|%+i|%#x|%.3o|%c%%") [.int 42, .int (-42), .int 7, .int 255,
    .int 8, .int 65] = some (bytes "42   |-0042|+7|0xff|010|A%") := by rfl

/-! ### The conversions of `vformat` -/

section Plain

variable {c : UInt8} {fmt text : Bytes} {args : List Arg} {ps : List Piece}

theorem readDirective_bare (hflag : isFlag c = false) (hdecimal : isDecimal c = false)
    (hmodifier : isModifier c = false) (hasterisk : c ≠ asterisk) (hdot : c ≠ dot) (fmt : Bytes) :
    readDirective (c :: fmt) = some (⟨[], .absent, .absent, [], c⟩, fmt) := by
  simp [readDirective, readCount, readPrecision, hflag, hdecimal, hmodifier, hasterisk, hdot]

theorem readDirective_strn (fmt : Bytes) :
    readDirective (dot :: asterisk :: 0x73 :: fmt) =
      some (⟨[], .absent, .arg, [], 0x73⟩, fmt) := by
  have hflag : isFlag dot = false := by decide
  have hdecimal : isDecimal dot = false := by decide
  have hmodifier : isModifier 0x73 = false := by decide
  have hne : dot ≠ asterisk := by decide
  simp [readDirective, readCount, readPrecision, hflag, hdecimal, hmodifier, hne]

theorem pad_nil (f : Field) (hf : f.width = 0) (zero : Bool) (sign body : Bytes) :
    f.pad zero sign body = sign ++ body := by
  unfold Field.pad
  rw [hf, Nat.zero_sub]
  cases f.left <;> cases zero <;> simp

theorem numeral_ten (n : Nat) : numeral 10 n = bytes n.repr := by
  rw [numeral, bytes, Nat.toList_repr]

theorem numeralOf_none (base n : Nat) : numeralOf base none n = numeral base n := by
  have hpos : 0 < (numeral base n).length := by
    rw [numeral, List.length_map]
    exact Nat.length_toDigits_pos
  have hfill : 1 - (numeral base n).length = 0 := by omega
  simp [numeralOf, hfill]

theorem signed_decimal {n : Int} (hlow : -2 ^ 31 ≤ n) (hhigh : n < 2 ^ 31) :
    (Field.ofCounts [] none none).signed (BitVec.ofInt 32 n).toInt = decimal n := by
  have hvalue : (BitVec.ofInt 32 n).toInt = n := by
    rw [BitVec.toInt_ofInt]
    exact Int.bmod_eq_of_le (by omega) (by omega)
  rw [hvalue, Field.signed, pad_nil _ rfl]
  simp only [Field.ofCounts, Option.bind_none, numeralOf_none, numeral_ten, decimal,
    Int.toString_eq_repr, Int.repr_eq_if]
  by_cases hneg : n < 0
  · have hsplit : bytes ("-" ++ (-n).toNat.repr) = bytes "-" ++ bytes (-n).toNat.repr := by
      simp [bytes]
    have habs : n.natAbs = (-n).toNat := by omega
    rw [if_pos hneg, if_neg (by omega), hsplit, habs]
  · have habs : n.natAbs = n.toNat := by omega
    rw [if_neg hneg, if_pos (by omega), habs]
    simp

theorem render_int {n : Int} (hlow : -2 ^ 31 ≤ n) (hhigh : n < 2 ^ 31) (args : List Arg) :
    (⟨[], .absent, .absent, [], 0x64⟩ : Directive).render (.int n :: args) =
      some (decimal n, args) := by
  rw [← signed_decimal hlow hhigh]
  rfl

theorem render_str (s : Bytes) (args : List Arg) :
    (⟨[], .absent, .absent, [], 0x73⟩ : Directive).render (.str s :: args) =
      some (cstr s, args) := by
  have hpad := pad_nil (Field.ofCounts [] none none) rfl false [] (cstr s)
  rw [List.nil_append] at hpad
  rw [← hpad]
  rfl

theorem render_strn (n : Int) (s : Bytes) (args : List Arg) :
    (⟨[], .absent, .arg, [], 0x73⟩ : Directive).render (.int n :: .str s :: args) =
      some (cstr (if n < 0 then s else s.take n.toNat), args) := by
  have hpad : ∀ body, (Field.ofCounts [] none (some n)).pad false [] body = body := by
    intro body
    rw [pad_nil _ rfl, List.nil_append]
  have hbody : (match (Field.ofCounts [] none (some n)).precision with
      | none => s
      | some p => s.take p) = if n < 0 then s else s.take n.toNat := by
    unfold Field.ofCounts
    by_cases hneg : n < 0 <;> simp [hneg]
  rw [← hbody, ← hpad (cstr _)]
  rfl

/-- One directive and what follows it. -/
theorem vprintfLoop_directive {fuel : Nat} {d : Directive} {rest out tail : Bytes}
    {args' : List Arg} (hread : readDirective fmt = some (d, rest))
    (hrender : d.render args = some (out, args')) (htail : vprintfLoop fuel rest args' = some tail) :
    vprintfLoop (fuel + 1) (percent :: fmt) args = some (out ++ tail) := by
  rw [vprintfLoop, if_neg (by simp), hread, Option.bind_eq_bind, Option.bind_some]
  simp [hrender, htail]

theorem output_int_eq_some {text : Bytes} (h : output (.int :: ps) args = some text) :
    ∃ n rest tail, args = .int n :: rest ∧ output ps rest = some tail ∧ text = decimal n ++ tail := by
  match args, h with
  | .int n :: rest, h =>
      obtain ⟨tail, htail, rfl⟩ := Option.map_eq_some_iff.mp h
      exact ⟨n, rest, tail, rfl, htail, rfl⟩

theorem output_str_eq_some {text : Bytes} (h : output (.str :: ps) args = some text) :
    ∃ s rest tail, args = .str s :: rest ∧ output ps rest = some tail ∧ text = cstr s ++ tail := by
  match args, h with
  | .str s :: rest, h =>
      obtain ⟨tail, htail, rfl⟩ := Option.map_eq_some_iff.mp h
      exact ⟨s, rest, tail, rfl, htail, rfl⟩

theorem output_strn_eq_some {text : Bytes} (h : output (.strn :: ps) args = some text) :
    ∃ n s rest tail, args = .int n :: .str s :: rest ∧ output ps rest = some tail ∧
      text = cstr (if n < 0 then s else s.take n.toNat) ++ tail := by
  match args, h with
  | .int n :: .str s :: rest, h =>
      obtain ⟨tail, htail, rfl⟩ := Option.map_eq_some_iff.mp h
      exact ⟨n, s, rest, tail, rfl, htail, rfl⟩

theorem exists_fuel {fuel : Nat} (h : (c :: fmt).length ≤ fuel) :
    ∃ f, fuel = f + 1 ∧ fmt.length ≤ f :=
  ⟨fuel - 1, by rw [List.length_cons] at h; omega, by rw [List.length_cons] at h; omega⟩

/-- Where `vformat` is defined, on arguments that are in the range of `int`, it renders the same. -/
theorem vprintfLoop_of_output {fuel : Nat} (hargs : ∀ n, .int n ∈ args → -2 ^ 31 ≤ n ∧ n < 2 ^ 31)
    (hfuel : fmt.length ≤ fuel) (hparse : parse fmt = some ps) (h : output ps args = some text) :
    vprintfLoop fuel fmt args = some text := by
  have hread : ∀ (c : UInt8) (fmt : Bytes), c ∈ [percent, 0x64, 0x73] →
      readDirective (c :: fmt) = some (⟨[], .absent, .absent, [], c⟩, fmt) := by
    intro c fmt hc
    simp only [List.mem_cons, List.not_mem_nil, or_false] at hc
    rcases hc with rfl | rfl | rfl <;>
      exact readDirective_bare (by decide) (by decide) (by decide) (by decide) (by decide) fmt
  fun_induction parse fmt generalizing ps args text fuel with
  | case1 =>
      obtain rfl := Option.some.inj hparse
      obtain rfl := Option.some.inj h
      cases fuel <;> rfl
  | case2 c fmt hc ih =>
      obtain ⟨rest, hrest, rfl⟩ := Option.map_eq_some_iff.mp hparse
      obtain ⟨tail, htail, rfl⟩ := Option.map_eq_some_iff.mp h
      obtain ⟨fuel, rfl, hroom⟩ := exists_fuel hfuel
      rw [vprintfLoop, if_pos hc, ih hargs hroom hrest htail]
      rfl
  | case3 | case8 | case9 => cases hparse
  | case4 =>
      rename_i c hc fmt ih
      obtain rfl := not_not.mp hc
      obtain ⟨rest, hrest, rfl⟩ := Option.map_eq_some_iff.mp hparse
      obtain ⟨tail, htail, rfl⟩ := Option.map_eq_some_iff.mp h
      obtain ⟨fuel, rfl, hroom⟩ := exists_fuel hfuel
      have hloop := @ih tail args rest fuel hargs (Nat.le_of_succ_le hroom) hrest htail
      exact vprintfLoop_directive (hread percent fmt (by simp)) rfl hloop
  | case5 =>
      rename_i c hc fmt _ ih
      obtain rfl := not_not.mp hc
      obtain ⟨rest, hrest, rfl⟩ := Option.map_eq_some_iff.mp hparse
      obtain ⟨n, args, tail, rfl, htail, rfl⟩ := output_int_eq_some h
      obtain ⟨hlow, hhigh⟩ := hargs n List.mem_cons_self
      obtain ⟨fuel, rfl, hroom⟩ := exists_fuel hfuel
      have hloop := @ih tail args rest fuel (fun m hm => hargs m (List.mem_cons_of_mem _ hm))
        (Nat.le_of_succ_le hroom) hrest htail
      exact vprintfLoop_directive (hread 0x64 fmt (by simp)) (render_int hlow hhigh args) hloop
  | case6 =>
      rename_i c hc fmt _ _ ih
      obtain rfl := not_not.mp hc
      obtain ⟨rest, hrest, rfl⟩ := Option.map_eq_some_iff.mp hparse
      obtain ⟨s, args, tail, rfl, htail, rfl⟩ := output_str_eq_some h
      obtain ⟨fuel, rfl, hroom⟩ := exists_fuel hfuel
      have hloop := @ih tail args rest fuel (fun m hm => hargs m (List.mem_cons_of_mem _ hm))
        (Nat.le_of_succ_le hroom) hrest htail
      exact vprintfLoop_directive (hread 0x73 fmt (by simp)) (render_str s args) hloop
  | case7 =>
      rename_i c hc d _ _ _ e f fmt hstrn ih
      obtain rfl := not_not.mp hc
      obtain ⟨rfl, rfl, rfl⟩ := hstrn
      obtain ⟨rest, hrest, rfl⟩ := Option.map_eq_some_iff.mp hparse
      obtain ⟨n, s, args, tail, rfl, htail, rfl⟩ := output_strn_eq_some h
      obtain ⟨fuel, rfl, hroom⟩ := exists_fuel hfuel
      have hrest' : ∀ m, .int m ∈ args → -2 ^ 31 ≤ m ∧ m < 2 ^ 31 := by
        intro m hm
        exact hargs m (List.mem_cons_of_mem _ (List.mem_cons_of_mem _ hm))
      have hloop := @ih tail args rest fuel hrest' (by simp at hroom; omega) hrest htail
      exact vprintfLoop_directive (readDirective_strn fmt) (render_strn n s args) hloop

theorem vprintf_of_vformat (hargs : ∀ n, .int n ∈ args → -2 ^ 31 ≤ n ∧ n < 2 ^ 31)
    (h : vformat fmt args = some text) : vprintf fmt args = some text := by
  rw [vformat, Option.bind_eq_bind, Option.bind_eq_some_iff] at h
  obtain ⟨ps, hparse, houtput⟩ := h
  exact vprintfLoop_of_output hargs (Nat.le_refl _) hparse houtput

end Plain

/-! ### What integers render to is lighter than its format

A `%` weighs more than the digits of an `int`. A `%c` may print a `%` again, and loses its letter. -/

def formatWeight (c : UInt8) : Nat :=
  if c = percent ∨ c = backslash then 12 else if c = 0x63 then 1 else 0

section Weight

variable {f : Field} {fmt out : Bytes} {args args' : List Arg}

theorem weigh_replicate {c : UInt8} (hc : formatWeight c = 0) (n : Nat) :
    weigh formatWeight (List.replicate n c) = 0 := by
  induction n with
  | zero => rfl
  | succ n ih => rw [List.replicate_succ, weigh_cons, hc, ih]

theorem weigh_pad (f : Field) (zero : Bool) (sign body : Bytes) :
    weigh formatWeight (f.pad zero sign body) =
      weigh formatWeight sign + weigh formatWeight body := by
  have hspace := weigh_replicate (by decide : formatWeight space = 0)
  have hzero := weigh_replicate (by decide : formatWeight digitZero = 0)
  unfold Field.pad
  dsimp only
  split
  · rw [weigh_append, weigh_append, hspace, Nat.add_zero]
  · split
    · rw [weigh_append, weigh_append, hzero, Nat.zero_add]
    · rw [weigh_append, weigh_append, hspace, Nat.zero_add]

theorem formatWeight_digitChar (d : Nat) : formatWeight d.digitChar.toNat.toUInt8 ≤ 1 := by
  have hsmall : ∀ d < 16, formatWeight (Nat.digitChar d).toNat.toUInt8 ≤ 1 := by decide
  by_cases hd : d < 16
  · exact hsmall d hd
  · have hstar : d.digitChar = '*' := by
      unfold Nat.digitChar
      repeat rw [if_neg (by omega)]
    rw [hstar]
    decide

theorem weigh_numeral_le_length {base n : Nat} (hbase : 1 < base) :
    weigh formatWeight (numeral base n) ≤ (numeral base n).length := by
  induction n using Nat.strongRecOn with
  | ind n ih =>
      have hlast := formatWeight_digitChar (n % base)
      rw [numeral, Nat.toDigits_eq_if hbase]
      split
      · simpa using formatWeight_digitChar n
      · have hhead := ih (n / base) (Nat.div_lt_self (by omega) hbase)
        rw [List.map_append, weigh_append, List.length_append]
        refine Nat.add_le_add hhead ?_
        simpa using hlast

theorem weigh_numeralOf_le {base n : Nat} (hbase : 8 ≤ base) (hn : n < 2 ^ 33)
    (precision : Option Nat) : weigh formatWeight (numeralOf base precision n) ≤ 11 := by
  have hlength : (numeral base n).length ≤ 11 := by
    rw [numeral, List.length_map, Nat.length_toDigits_le_iff (by omega) (by decide)]
    calc
      n < 2 ^ 33 := hn
      _ = 8 ^ 11 := by decide
      _ ≤ base ^ 11 := Nat.pow_le_pow_left hbase 11
  have hweight := @weigh_numeral_le_length base n (by omega)
  unfold numeralOf
  split
  · exact Nat.zero_le _
  · rw [weigh_append, weigh_replicate (by decide)]
    omega

theorem weigh_signed_le {n : Int} (hn : n.natAbs < 2 ^ 33) :
    weigh formatWeight (f.signed n) ≤ 11 := by
  unfold Field.signed
  rw [weigh_pad]
  have hsign : weigh formatWeight (if n < 0 then bytes "-" else if f.plus then bytes "+"
      else if f.blank then bytes " " else []) = 0 := by
    split_ifs <;> decide
  rw [hsign, Nat.zero_add]
  exact weigh_numeralOf_le (by decide) hn _

theorem formatWeight_upper_le (c : UInt8) : formatWeight (upper c) ≤ formatWeight c := by
  unfold upper
  split
  · next hletter =>
    rw [UInt8.le_iff_toNat_le, UInt8.le_iff_toNat_le] at hletter
    have hlow : 97 ≤ c.toNat := hletter.1
    have hhigh : c.toNat ≤ 122 := hletter.2
    have hupper : (c - 0x20).toNat = c.toNat - 32 := by
      rw [UInt8.toNat_sub_of_le]
      · rfl
      · rw [UInt8.le_iff_toNat_le]
        exact Nat.le_trans (by decide) hlow
    have hne : ∀ d : UInt8, d.toNat < 65 ∨ 90 < d.toNat → c - 0x20 ≠ d := by
      rintro d hd rfl
      omega
    have hweight : formatWeight (c - 0x20) = 0 := by
      unfold formatWeight
      rw [if_neg, if_neg (hne 0x63 (by decide))]
      exact not_or.mpr ⟨hne percent (by decide), hne backslash (by decide)⟩
    rw [hweight]
    exact Nat.zero_le _
  · exact Nat.le_refl _

theorem weigh_upper_le (s : Bytes) : weigh formatWeight (s.map upper) ≤ weigh formatWeight s := by
  induction s with
  | nil => exact Nat.le_refl _
  | cons c s ih =>
      rw [List.map_cons, weigh_cons, weigh_cons]
      exact Nat.add_le_add (formatWeight_upper_le c) ih

theorem weigh_unsigned_le {conv : UInt8} {n : Nat} (hn : n < 2 ^ 33) :
    weigh formatWeight (f.unsigned conv n) ≤ 11 := by
  have hsign : weigh formatWeight (if f.alt && n ≠ 0 then bytes "0x" else []) = 0 := by
    split <;> decide
  have hoctal : weigh formatWeight (let digits := numeralOf 8 f.precision n
      if f.alt && digits.head? ≠ some digitZero then digitZero :: digits else digits) ≤ 11 := by
    have hdigits := weigh_numeralOf_le (Nat.le_refl 8) hn f.precision
    have hzero : formatWeight digitZero = 0 := by decide
    dsimp only
    split
    · rwa [weigh_cons, hzero, Nat.zero_add]
    · exact hdigits
  have hhex := weigh_numeralOf_le (by decide : 8 ≤ 16) hn f.precision
  unfold Field.unsigned
  dsimp only
  split
  · rw [weigh_pad, weigh_nil, Nat.zero_add]
    exact weigh_numeralOf_le (by decide) hn _
  split
  · rw [weigh_pad, weigh_nil, Nat.zero_add]
    exact hoctal
  split
  · rwa [weigh_pad, hsign, Nat.zero_add]
  · refine Nat.le_trans (weigh_upper_le _) ?_
    rwa [weigh_pad, hsign, Nat.zero_add]

theorem weigh_convert_le {modifier : Bytes} {conv : UInt8} {n : Int}
    (h : f.convert modifier conv (.int n) = some out) :
    weigh formatWeight out ≤ 11 + formatWeight conv := by
  have hbits : ∀ bits ∈ intBits modifier, bits ≤ 32 := by
    intro bits hbits
    unfold intBits at hbits
    split_ifs at hbits <;> cases hbits <;> decide
  unfold Field.convert at h
  dsimp only at h
  split at h
  · next hconv =>
    split at h
    · rw [← Option.some.inj h, weigh_pad, weigh_nil, weigh_cons, weigh_nil, hconv]
      have hone : formatWeight 0x63 = 1 := by decide
      have hle : formatWeight (UInt8.ofInt n) ≤ 12 := by
        unfold formatWeight
        split_ifs <;> decide
      omega
    · cases h
  split at h
  · split at h
    · cases h
    · obtain ⟨bits, hmem, rfl⟩ := Option.map_eq_some_iff.mp h
      refine Nat.le_trans (weigh_signed_le ?_) (Nat.le_add_right _ _)
      have hlow := (BitVec.ofInt bits n).le_two_mul_toInt
      have hhigh := @BitVec.two_mul_toInt_lt bits (BitVec.ofInt bits n)
      have hpow : (2 : Nat) ^ bits ≤ 2 ^ 32 := Nat.pow_le_pow_right (by decide) (hbits bits hmem)
      have hpow : (2 : Int) ^ bits ≤ 2 ^ 32 := by exact_mod_cast hpow
      omega
  split at h
  · obtain ⟨bits, hmem, rfl⟩ := Option.map_eq_some_iff.mp h
    refine Nat.le_trans (weigh_unsigned_le ?_) (Nat.le_add_right _ _)
    calc
      (BitVec.ofInt bits n).toNat < 2 ^ bits := BitVec.isLt _
      _ ≤ 2 ^ 33 := Nat.pow_le_pow_right (by decide) (Nat.le_succ_of_le (hbits bits hmem))
  · cases h

theorem readCount_suffix (s : Bytes) : (readCount s).2 <:+ s := by
  cases s with
  | nil => exact List.suffix_refl _
  | cons c s =>
      rw [readCount]
      split
      · exact List.suffix_cons c s
      split
      · exact List.dropWhile_suffix _
      · exact List.suffix_refl _

theorem readPrecision_suffix (s : Bytes) : (readPrecision s).2 <:+ s := by
  cases s with
  | nil => exact List.suffix_refl _
  | cons c s =>
      have hcount := (readCount_suffix s).trans (List.suffix_cons c s)
      rw [readPrecision]
      split
      · exact List.suffix_refl _
      split
      · next rest hrest => rwa [hrest] at hcount
      · exact hcount

/-- The conversion and what follows it are the end of what was read. -/
theorem readDirective_suffix {d : Directive} {rest : Bytes}
    (h : readDirective fmt = some (d, rest)) : d.conv :: rest <:+ fmt := by
  unfold readDirective at h
  dsimp only at h
  split at h
  · cases h
  · next conv rest' hrest =>
    obtain ⟨rfl, rfl⟩ := Prod.mk.inj (Option.some.inj h)
    rw [← hrest]
    exact (List.dropWhile_suffix _).trans ((readPrecision_suffix _).trans
      ((readCount_suffix _).trans (List.dropWhile_suffix _)))

theorem weigh_readDirective_le {d : Directive} {rest : Bytes}
    (h : readDirective fmt = some (d, rest)) :
    formatWeight d.conv + weigh formatWeight rest ≤ weigh formatWeight fmt := by
  obtain ⟨front, hfront⟩ := readDirective_suffix h
  rw [← hfront, weigh_append, weigh_cons]
  exact Nat.le_add_left _ _

theorem take_args {count : Count} {n : Option Int} (h : count.take args = some (n, args')) :
    args' <:+ args := by
  cases count with
  | absent | digits =>
      obtain ⟨-, rfl⟩ := Prod.mk.inj (Option.some.inj h)
      exact List.suffix_refl _
  | arg =>
      match args, h with
      | .int n :: args, h =>
          obtain ⟨-, rfl⟩ := Prod.mk.inj (Option.some.inj h)
          exact List.suffix_cons _ _

/-- A directive with integers only. -/
theorem weigh_render_le {d : Directive} (hargs : ∀ s, .str s ∉ args)
    (h : d.render args = some (out, args')) :
    weigh formatWeight out ≤ 11 + formatWeight d.conv ∧ ∀ s, .str s ∉ args' := by
  unfold Directive.render at h
  split at h
  · next hconv =>
    split at h
    · obtain ⟨rfl, rfl⟩ := Prod.mk.inj (Option.some.inj h)
      rw [hconv]
      exact ⟨by decide, hargs⟩
    · cases h
  · simp only [Option.bind_eq_bind, Option.bind_eq_some_iff] at h
    obtain ⟨⟨width, args₁⟩, hwidth, ⟨precision, args₂⟩, hprecision, h⟩ := h
    have hsuffix := (take_args hprecision).trans (take_args hwidth)
    cases args₂ with
    | nil => cases h
    | cons arg rest =>
        obtain ⟨text, htext, h⟩ := Option.bind_eq_some_iff.mp h
        obtain ⟨rfl, rfl⟩ := Prod.mk.inj (Option.some.inj h)
        cases arg with
        | str s => exact absurd (hsuffix.subset List.mem_cons_self) (hargs s)
        | int n =>
            refine ⟨weigh_convert_le htext, fun s hs => ?_⟩
            exact hargs s (hsuffix.subset (List.mem_cons_of_mem _ hs))

theorem weigh_vprintfLoop {fuel : Nat} (hargs : ∀ s, .str s ∉ args)
    (h : vprintfLoop fuel fmt args = some out) :
    weigh formatWeight out ≤ weigh formatWeight fmt ∧
      (percent ∈ fmt → weigh formatWeight out < weigh formatWeight fmt) := by
  induction fuel generalizing fmt args out with
  | zero =>
      cases fmt with
      | nil =>
          rw [← Option.some.inj h]
          exact ⟨Nat.le_refl _, fun hmem => absurd hmem List.not_mem_nil⟩
      | cons c fmt => cases h
  | succ fuel ih =>
      cases fmt with
      | nil =>
          rw [← Option.some.inj h]
          exact ⟨Nat.le_refl _, fun hmem => absurd hmem List.not_mem_nil⟩
      | cons c fmt =>
          rw [vprintfLoop] at h
          split at h
          · next hc =>
            obtain ⟨tail, htail, rfl⟩ := Option.map_eq_some_iff.mp h
            obtain ⟨hle, hlt⟩ := ih hargs htail
            rw [weigh_cons, weigh_cons]
            refine ⟨Nat.add_le_add_left hle _, fun hmem => Nat.add_lt_add_left (hlt ?_) _⟩
            exact (List.mem_cons.mp hmem).resolve_left (Ne.symm hc)
          · next hc =>
            obtain rfl := not_not.mp hc
            obtain ⟨⟨d, rest⟩, hread, h⟩ := Option.bind_eq_some_iff.mp h
            obtain ⟨⟨text, args'⟩, hrender, h⟩ := Option.bind_eq_some_iff.mp h
            obtain ⟨tail, htail, rfl⟩ := Option.map_eq_some_iff.mp h
            obtain ⟨htext, hargs'⟩ := weigh_render_le hargs hrender
            have hrest := weigh_readDirective_le hread
            have hloop := (ih hargs' htail).1
            have hpercent : formatWeight percent = 12 := by decide
            rw [weigh_append, weigh_cons, hpercent]
            omega

/-- A text with a `%` that is rendered as a format with integers comes out lighter. -/
theorem weigh_vprintf_lt (hargs : ∀ s, .str s ∉ args) (h : vprintf fmt args = some out)
    (hpercent : percent ∈ fmt) : weigh formatWeight out < weigh formatWeight fmt :=
  (weigh_vprintfLoop hargs h).2 hpercent

end Weight

end CText
