import Mathlib.Data.List.Basic

/-!
# C text

C strings as byte lists and the printf family over them, for the conversions `%d`, `%s`, `%.*s`
and `%%`. A format that asks for an argument which is not there, or that holds any other
conversion, has no defined output; `vformat` is `none` there.
-/

namespace CText

abbrev Bytes := List UInt8

/-- The bytes of a string literal, without the terminating NUL. -/
def bytes (s : String) : Bytes := s.toList.map fun c => c.toNat.toUInt8

/-- A literal rewritten with this need not be decoded byte by byte to be evaluated. -/
theorem bytes_ofList (cs : List Char) :
    bytes (String.ofList cs) = cs.map fun c => c.toNat.toUInt8 := by
  rw [bytes, String.toList_ofList]

/-- The string a `char*` denotes: the bytes before the first NUL. -/
def cstr (s : Bytes) : Bytes := s.takeWhile (· ≠ 0)

theorem cstr_eq_self {s : Bytes} (h : 0 ∉ s) : cstr s = s := by
  induction s with
  | nil => rfl
  | cons c s ih =>
      simp only [List.mem_cons, not_or] at h
      rw [cstr, List.takeWhile_cons, if_pos (by simpa using Ne.symm h.1)]
      exact congrArg (c :: ·) (ih h.2)

theorem zero_notMem_cstr (s : Bytes) : 0 ∉ cstr s := by
  intro h
  have hne := List.all_takeWhile (p := fun c : UInt8 => decide (c ≠ 0)) (l := s)
  simpa using List.all_eq_true.mp hne 0 h

theorem cstr_prefixOf (s : Bytes) : cstr s <+: s := List.takeWhile_prefix _

theorem cstr_length_le (s : Bytes) : (cstr s).length ≤ s.length := (cstr_prefixOf s).length_le

theorem cstr_eq_self_iff {s : Bytes} : cstr s = s ↔ 0 ∉ s :=
  ⟨fun h => h ▸ zero_notMem_cstr s, cstr_eq_self⟩

/-- Whether `strncmp(s, t, n)` is 0. -/
def strncmpEq (s t : Bytes) (n : Nat) : Bool := (cstr s).take n == (cstr t).take n

theorem cstr_append_zero {s : Bytes} (h : 0 ∉ s) (rest : Bytes) : cstr (s ++ 0 :: rest) = s := by
  rw [cstr, List.takeWhile_append_of_pos]
  · simp
  · intro c hc
    simpa using fun heq : c = 0 => h (heq ▸ hc)

/-- A comparison bounded by the length of the slice takes what the string begins with, and what has
the string and a NUL in front. -/
theorem strncmpEq_length_iff {s t : Bytes} (ht : 0 ∉ t) :
    strncmpEq s t s.length = true ↔ s <+: t ∨ t ++ [0] <+: s := by
  have htake : (cstr s).take s.length = cstr s := List.take_of_length_le (cstr_length_le s)
  rw [strncmpEq, beq_iff_eq, cstr_eq_self ht, htake]
  by_cases hs : 0 ∈ s
  · -- the comparison ends at the NUL
    obtain ⟨front, rest, rfl, hfront⟩ := List.eq_append_cons_of_mem hs
    rw [cstr_append_zero hfront]
    constructor
    · intro h
      have hlength := congrArg List.length h
      simp only [List.length_take, List.length_append, List.length_cons] at hlength
      rw [h, List.take_of_length_le (by simp; omega)]
      exact .inr ⟨rest, by simp⟩
    · rintro (hbegin | ⟨rest', hrest⟩)
      · exact absurd (hbegin.subset hs) ht
      · have hsame := congrArg cstr hrest
        rw [List.append_assoc, List.singleton_append, cstr_append_zero ht,
          cstr_append_zero hfront] at hsame
        subst hsame
        exact (List.take_of_length_le (by simp)).symm
  · rw [cstr_eq_self hs, ← List.prefix_iff_eq_take]
    refine (or_iff_left ?_).symm
    intro hzero
    exact hs (hzero.subset (by simp))

abbrev tab : UInt8 := 0x09
abbrev newline : UInt8 := 0x0A
abbrev carriageReturn : UInt8 := 0x0D
abbrev space : UInt8 := 0x20
abbrev quote : UInt8 := 0x22
abbrev percent : UInt8 := 0x25
abbrev comma : UInt8 := 0x2C
abbrev dot : UInt8 := 0x2E
abbrev colon : UInt8 := 0x3A
abbrev lbracket : UInt8 := 0x5B
abbrev backslash : UInt8 := 0x5C
abbrev rbracket : UInt8 := 0x5D
abbrev lbrace : UInt8 := 0x7B
abbrev rbrace : UInt8 := 0x7D

/-! ### Weights -/

def weigh (w : UInt8 → Nat) : Bytes → Nat
  | [] => 0
  | c :: s => w c + weigh w s

section Weigh

variable {w : UInt8 → Nat} {c : UInt8} {s t : Bytes}

@[simp]
theorem weigh_nil : weigh w [] = 0 := rfl

@[simp]
theorem weigh_cons : weigh w (c :: s) = w c + weigh w s := rfl

@[simp]
theorem weigh_append : weigh w (s ++ t) = weigh w s + weigh w t := by
  induction s with
  | nil => exact (Nat.zero_add _).symm
  | cons c s ih => rw [List.cons_append, weigh_cons, weigh_cons, ih, Nat.add_assoc]

theorem weigh_one (s : Bytes) : weigh (fun _ => 1) s = s.length := by
  induction s with
  | nil => rfl
  | cons c s ih =>
      rw [weigh_cons, ih, List.length_cons, Nat.add_comm]

theorem le_weigh_of_mem (h : c ∈ s) : w c ≤ weigh w s := by
  induction s with
  | nil => cases h
  | cons d s ih =>
      rw [weigh_cons]
      rcases List.mem_cons.mp h with rfl | h
      · exact Nat.le_add_right _ _
      · exact Nat.le_trans (ih h) (Nat.le_add_left _ _)

end Weigh

/-- An argument of a variadic call: an `int`, or a `char*` with the bytes it points to. -/
inductive Arg where
  | int (n : Int)
  | str (s : Bytes)

def decimal (n : Int) : Bytes := bytes (toString n)

/-- A piece of a format: a byte to copy, or one of `%d`, `%s` and `%.*s`. -/
inductive Piece where
  | char (c : UInt8)
  | int
  | str
  | strn

def parse : Bytes → Option (List Piece)
  | [] => some []
  | c :: fmt =>
    if c ≠ percent then (.char c :: ·) <$> parse fmt
    else match fmt with
      | [] => none
      | d :: fmt =>
        if d = percent then (.char percent :: ·) <$> parse fmt
        else if d = 0x64 then (.int :: ·) <$> parse fmt
        else if d = 0x73 then (.str :: ·) <$> parse fmt
        else match fmt with
          | e :: f :: fmt =>
            if d = 0x2E ∧ e = 0x2A ∧ f = 0x73 then (.strn :: ·) <$> parse fmt else none
          | _ => none

def output : List Piece → List Arg → Option Bytes
  | [], _ => some []
  | .char c :: ps, args => (c :: ·) <$> output ps args
  | .int :: ps, .int n :: args => (decimal n ++ ·) <$> output ps args
  | .str :: ps, .str s :: args => (cstr s ++ ·) <$> output ps args
  -- a negative precision counts as none
  | .strn :: ps, .int n :: .str s :: args =>
    (cstr (if n < 0 then s else s.take n.toNat) ++ ·) <$> output ps args
  | _ :: _, _ => none

/-- What `vsnprintf` renders for a format and its arguments. -/
def vformat (fmt : Bytes) (args : List Arg) : Option Bytes :=
  parse fmt >>= (output · args)

@[simp]
theorem vformat_nil (args : List Arg) : vformat [] args = some [] := rfl

theorem parse_char {c : UInt8} (h : c ≠ percent) (fmt : Bytes) :
    parse (c :: fmt) = (.char c :: ·) <$> parse fmt := by
  rw [parse.eq_def]
  exact if_pos h

theorem parse_int (fmt : Bytes) : parse (bytes "%d" ++ fmt) = (.int :: ·) <$> parse fmt := by
  change parse (percent :: 0x64 :: fmt) = _
  rw [parse.eq_def]
  rfl

theorem parse_str (fmt : Bytes) : parse (bytes "%s" ++ fmt) = (.str :: ·) <$> parse fmt := by
  change parse (percent :: 0x73 :: fmt) = _
  rw [parse.eq_def]
  rfl

theorem parse_strn (fmt : Bytes) : parse (bytes "%.*s" ++ fmt) = (.strn :: ·) <$> parse fmt := by
  change parse (percent :: 0x2E :: 0x2A :: 0x73 :: fmt) = _
  rw [parse.eq_def]
  rfl

theorem vformat_cons {c : UInt8} (h : c ≠ percent) (fmt : Bytes) (args : List Arg) :
    vformat (c :: fmt) args = (c :: ·) <$> vformat fmt args := by
  rw [vformat, vformat, parse_char h]
  cases parse fmt <;> rfl

theorem vformat_append {text : Bytes} (h : percent ∉ text) (fmt : Bytes) (args : List Arg) :
    vformat (text ++ fmt) args = (text ++ ·) <$> vformat fmt args := by
  induction text with
  | nil => simp
  | cons c text ih =>
      simp only [List.mem_cons, not_or] at h
      rw [List.cons_append, vformat_cons (Ne.symm h.1), ih h.2]
      simp [Function.comp_def]

theorem vformat_text {text : Bytes} (h : percent ∉ text) (args : List Arg) :
    vformat text args = some text := by
  simpa using vformat_append h [] args

theorem vformat_int (n : Int) (fmt : Bytes) (args : List Arg) :
    vformat (bytes "%d" ++ fmt) (.int n :: args) = (decimal n ++ ·) <$> vformat fmt args := by
  rw [vformat, vformat, parse_int]
  cases parse fmt <;> rfl

/-- `%s` copies its argument up to the first NUL. -/
theorem vformat_str (s fmt : Bytes) (args : List Arg) :
    vformat (bytes "%s" ++ fmt) (.str s :: args) = (cstr s ++ ·) <$> vformat fmt args := by
  rw [vformat, vformat, parse_str]
  cases parse fmt <;> rfl

theorem vformat_precision (n : Nat) (s fmt : Bytes) (args : List Arg) :
    vformat (bytes "%.*s" ++ fmt) (.int n :: .str s :: args) =
      (cstr (s.take n) ++ ·) <$> vformat fmt args := by
  have hn : ¬ (n : Int) < 0 := by omega
  rw [vformat, vformat, parse_strn]
  cases parse fmt with
  | none => rfl
  | some ps => simp [output, hn]

/-- `%.*s` given a slice by length and pointer copies the slice up to its first NUL. -/
theorem vformat_strn (s fmt : Bytes) (args : List Arg) :
    vformat (bytes "%.*s" ++ fmt) (.int s.length :: .str s :: args) =
      (cstr s ++ ·) <$> vformat fmt args := by
  rw [vformat_precision, List.take_length]

/-! ### A format without arguments

Data passed as the format is rendered as it stands only if it has no `%`: `%%` comes out a byte
shorter, and any other conversion asks for an argument that was not passed. -/

theorem output_nil_args {ps : List Piece} {text : Bytes} (h : output ps [] = some text) :
    text.length = ps.length := by
  induction ps generalizing text with
  | nil => simp_all [output]
  | cons piece ps ih =>
      cases piece with
      | char c =>
          simp only [output, Option.map_eq_map, Option.map_eq_some_iff] at h
          obtain ⟨rest, hrest, rfl⟩ := h
          simp [ih hrest]
      | int => simp [output] at h
      | str => simp [output] at h
      | strn => simp [output] at h

theorem parse_length {fmt : Bytes} {ps : List Piece} (hparse : parse fmt = some ps) :
    ps.length ≤ fmt.length ∧ (percent ∈ fmt → ps.length < fmt.length) := by
  fun_induction parse fmt generalizing ps with
  | case1 => simp_all
  | case2 c fmt hc ih =>
      obtain ⟨rest, hrest, rfl⟩ := Option.map_eq_some_iff.mp hparse
      simp only [List.length_cons, List.mem_cons, Ne.symm hc, false_or]
      exact ⟨Nat.succ_le_succ (ih hrest).1, fun h => Nat.succ_lt_succ ((ih hrest).2 h)⟩
  | case3 => simp at hparse
  | case4 | case5 | case6 | case7 =>
      rename_i ih
      obtain ⟨rest, hrest, rfl⟩ := Option.map_eq_some_iff.mp hparse
      have hle := (ih hrest).1
      simp only [List.length_cons]
      omega
  | case8 => simp at hparse
  | case9 => simp at hparse

theorem vformat_eq_self_iff {fmt : Bytes} : vformat fmt [] = some fmt ↔ percent ∉ fmt := by
  refine ⟨fun h hmem => ?_, fun h => vformat_text h []⟩
  rw [vformat, Option.bind_eq_bind, Option.bind_eq_some_iff] at h
  obtain ⟨ps, hparse, houtput⟩ := h
  have hlt := (parse_length hparse).2 hmem
  have heq := output_nil_args houtput
  omega

/-- Every `%` is doubled. -/
def plainFormat : Bytes → Bool
  | [] => true
  | c :: fmt =>
    if c ≠ percent then plainFormat fmt
    else match fmt with
      | [] => false
      | d :: fmt => d = percent && plainFormat fmt

theorem vformat_percent (fmt : Bytes) (args : List Arg) :
    vformat (percent :: percent :: fmt) args = (percent :: ·) <$> vformat fmt args := by
  have hparse : parse (percent :: percent :: fmt) = (.char percent :: ·) <$> parse fmt := by
    rw [parse.eq_def]
    rfl
  rw [vformat, vformat, hparse]
  cases parse fmt <;> rfl

theorem vformat_conversion {d : UInt8} (hd : d ≠ percent) (fmt : Bytes) :
    vformat (percent :: d :: fmt) [] = none := by
  have hfirst : ∀ ps, parse (percent :: d :: fmt) = some ps →
      ∃ piece rest, ps = piece :: rest ∧ ∀ c, piece ≠ .char c := by
    intro ps hps
    rw [parse.eq_def] at hps
    dsimp only at hps
    rw [if_neg (by simp), if_neg hd] at hps
    split at hps
    · obtain ⟨rest, -, rfl⟩ := Option.map_eq_some_iff.mp hps
      exact ⟨.int, rest, rfl, nofun⟩
    · split at hps
      · obtain ⟨rest, -, rfl⟩ := Option.map_eq_some_iff.mp hps
        exact ⟨.str, rest, rfl, nofun⟩
      · split at hps
        · split at hps
          · obtain ⟨rest, -, rfl⟩ := Option.map_eq_some_iff.mp hps
            exact ⟨.strn, rest, rfl, nofun⟩
          · cases hps
        · cases hps
  rw [vformat, Option.bind_eq_bind, Option.bind_eq_none_iff]
  intro ps hps
  obtain ⟨piece, rest, rfl, hpiece⟩ := hfirst ps hps
  cases piece with
  | char c => exact absurd rfl (hpiece c)
  | int => rfl
  | str => rfl
  | strn => rfl

theorem vformat_nil_isSome (fmt : Bytes) :
    (vformat fmt []).isSome = plainFormat fmt := by
  fun_induction plainFormat fmt with
  | case1 => rfl
  | case2 c fmt hc ih =>
      rw [vformat_cons hc, ← ih]
      simp
  | case3 c hc =>
      rw [not_not.mp hc]
      rfl
  | case4 c hc d fmt ih =>
      rw [not_not.mp hc]
      by_cases hd : d = percent
      · rw [hd, vformat_percent]
        simp [ih]
      · rw [vformat_conversion hd]
        simp [hd]

theorem vformat_nil_length {fmt text : Bytes} (h : vformat fmt [] = some text) :
    text.length ≤ fmt.length := by
  rw [vformat, Option.bind_eq_bind, Option.bind_eq_some_iff] at h
  obtain ⟨ps, hparse, houtput⟩ := h
  rw [output_nil_args houtput]
  exact (parse_length hparse).1

end CText
