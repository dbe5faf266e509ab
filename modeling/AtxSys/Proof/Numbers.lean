import AtxSys.Lib.JsonSyntax
import AtxSys.Numbers
import AtxSys.Proof.Walk

/-!
# What the number readers take

A reader takes the text of a token where `strtoull` converts all of it, in whatever form that is, and
returns 0 without a number where `strtoull` stops elsewhere.
-/

namespace AtxSys

open CText JsonSyntax

/-! ### Literals -/

/-- A JSON integer without a sign. -/
def Natural (text : Bytes) : Prop :=
  Digits text ∧ (text = bytes "0" ∨ text.head? ≠ some digitZero)

instance (text : Bytes) : Decidable (Natural text) :=
  decidable_of_iff ((text ≠ [] ∧ text.all (fun c => decide (48 ≤ c) && decide (c ≤ 57))) ∧
    (text = bytes "0" ∨ text.head? ≠ some digitZero))
    (by simp only [Natural, Digits, List.all_eq_true, Bool.and_eq_true, decide_eq_true_eq])

/-- The JSON integers and their values. -/
inductive IntLiteral : Bytes → Int → Prop where
  | nonneg {text : Bytes} (h : Natural text) : IntLiteral text (decimalValue text)
  | neg {text : Bytes} (h : Natural text) : IntLiteral (minus :: text) (-decimalValue text)

theorem Natural.constant {text : Bytes} (h : Natural text) : Constant text (decimalValue text) :=
  .of_decimal h.1.2 h.1.1 h.2

/-! ### The conversion at a token -/

section Conversion

variable {js : Bytes} {numTokens : Nat} {p : JsmnParser} {tok : JsmnTok} {neg : Bool} {m : Nat}

theorem drop_tok {toks : List JsmnTok} (h : Tokens js toks) (htok : tok ∈ toks) :
    js.drop tok.start.toNat = tokText js tok ++ js.drop tok.stop.toNat := by
  obtain ⟨hstart, hstop, -⟩ := h.inText tok htok
  have hlength : tok.stop.toNat = tok.start.toNat + (tok.stop - tok.start).toNat := by omega
  rw [hlength, ← List.drop_drop]
  exact (List.take_append_drop _ _).symm

theorem convertAt_tok {toks : List JsmnTok} (h : Tokens js toks) (htok : tok ∈ toks) (more : Bytes) :
    convertAt (js ++ more) tok.start =
      .ok (strtoull (tokText js tok ++ (js.drop tok.stop.toNat ++ more))) := by
  obtain ⟨hstart, hstop, hlength⟩ := h.inText tok htok
  rw [convertAt, if_pos ⟨hstart, by simp; omega⟩, List.drop_append_of_le_length (by omega),
    drop_tok h htok, List.append_assoc]

/-- A token that is converted as a whole is followed by neither a digit nor a letter. -/
theorem ended_of_subject (hparse : jsmnParse js numTokens = .ok p) (htok : tok ∈ p.toks)
    (hsubject : Subject (tokText js tok) neg m) (more : Bytes) :
    Ended (js.drop tok.stop.toNat ++ more) := by
  obtain ⟨-, c, hc, hbracket⟩ | ⟨-, c, hc, hends⟩ := jsmnParse_framed hparse htok
  · -- no number starts with a bracket
    obtain ⟨d, t, hd, hstart⟩ := hsubject.head
    have hdrop := drop_tok (jsmnParse_tokens hparse).1 htok
    rw [hd, List.cons_append] at hdrop
    have hget : js[tok.start.toNat]? = some d := Slices.getElem?_of_left hdrop
    obtain rfl : c = d := Option.some.inj (hc.symm.trans hget)
    rcases hbracket with rfl | rfl <;> exact absurd hstart (by decide)
  · obtain ⟨hlt, hget⟩ := List.getElem?_eq_some_iff.mp hc
    intro d hd
    rw [List.drop_eq_getElem_cons hlt, hget] at hd
    obtain rfl : c = d := Option.some.inj hd
    rcases hends with rfl | hends
    · rfl
    · simp only [endsPrimitive, isWhitespace, Bool.or_eq_true, beq_iff_eq] at hends
      rcases hends with (((((rfl | rfl) | rfl) | rfl) | rfl) | rfl) | rfl <;> rfl

/-- The number that a converted text leaves in an `unsigned long long`. -/
def converted (neg : Bool) (m : Nat) : BitVec 64 := BitVec.ofNat 64 (ullong neg m)

/-- `errno` after the conversion of a magnitude. -/
def errnoAfter (m : Nat) (errno : Int) : Int := if 2 ^ 64 ≤ m then erange else errno

variable (limit : BitVec 64 → Bool) (errno : Int)

theorem jsonTo64_subject (hparse : jsmnParse js numTokens = .ok p) (htok : tok ∈ p.toks)
    (hsubject : Subject (tokText js tok) neg m) (more : Bytes) (n : BitVec 64) :
    jsonTo64 limit (js ++ more) tok errno n = .ok
      { ret := if limit (converted neg m) ∧ errnoAfter m errno = erange then -1 else 0
        n := converted neg m
        errno := errnoAfter m errno } := by
  have htokens := (jsmnParse_tokens hparse).1
  have hlength := tokText_length htokens htok
  rw [jsonTo64, convertAt_tok htokens htok,
    hsubject.convert (ended_of_subject hparse htok hsubject more), run_bind_ok]
  dsimp only
  rw [if_neg (by omega)]
  simp only [decide_eq_true_eq, if_true]
  change (if limit (converted neg m) ∧ errnoAfter m errno = erange then _ else _) = _
  split <;> rfl

/-- Where `strtoull` does not convert the whole text, the reader returns 0 all the same. -/
theorem jsonTo64_other (hparse : jsmnParse js numTokens = .ok p) (htok : tok ∈ p.toks)
    (hother : ∀ neg m, ¬Subject (tokText js tok) neg m) (hlimit : limit 0#64 = false)
    (more : Bytes) (n : BitVec 64) :
    ∃ x, jsonTo64 limit (js ++ more) tok errno n = .ok x ∧ x.ret = 0 ∧ (x.n = n ∨ x.n = 0) := by
  have htokens := (jsmnParse_tokens hparse).1
  have hlength := tokText_length htokens htok
  rw [jsonTo64, convertAt_tok htokens htok, run_bind_ok]
  dsimp only
  obtain hne | ⟨hempty, hzero⟩ := length_of_not_subject hother (js.drop tok.stop.toNat ++ more)
  · rw [if_pos (by omega)]
    exact ⟨_, rfl, rfl, .inl rfl⟩
  · have hstop : tok.start + (0 : Nat) = tok.stop := by
      rw [hempty] at hlength
      simp at hlength
      omega
    rw [hzero, if_neg (by simpa using hstop), if_neg (by simp [hlimit])]
    exact ⟨_, rfl, rfl, .inr rfl⟩

end Conversion

/-! ### Unsigned types -/

inductive UnsignedType where
  | u64
  | u32
  | u16
  | u8

namespace UnsignedType

def bits : UnsignedType → Nat
  | u64 => 64
  | u32 => 32
  | u16 => 16
  | u8 => 8

/-- The reader of the type. That of 64 bits has no local variable for `junk`. -/
def read (ty : UnsignedType) (buffer : Bytes) (tok : JsmnTok) (errno : Int) (junk : BitVec 64)
    (n : BitVec ty.bits) : Run (Reading ty.bits) :=
  match ty with
  | u64 => jsonToU64 buffer tok errno n
  | u32 => jsonToU32 buffer tok errno junk n
  | u16 => jsonToU16 buffer tok errno junk n
  | u8 => jsonToU8 buffer tok errno junk n

end UnsignedType

/-- The number is too large for the type, or `errno` tells `json_to_u64` so. -/
def Refused (w : Nat) (neg : Bool) (m : Nat) (errno : Int) : Prop :=
  2 ^ w ≤ ullong neg m ∨ 2 ^ 64 ≤ m ∨ ullong neg m = 2 ^ 64 - 1 ∧ errno = erange

/-- What the reader of an unsigned type makes of a text that is converted as a whole. -/
structure TakesNat {w : Nat} (neg : Bool) (m : Nat) (errno : Int) (r : Reading w) : Prop where
  refuse : Refused w neg m errno → r.ret = -1
  take : ¬Refused w neg m errno → r.ret = 0 ∧ r.n.toNat = ullong neg m

section Unsigned

variable {js : Bytes} {numTokens : Nat} {p : JsmnParser} {tok : JsmnTok} {neg : Bool} {m : Nat}
variable (errno : Int)

theorem converted_toNat (neg : Bool) (m : Nat) : (converted neg m).toNat = ullong neg m := by
  rw [converted, BitVec.toNat_ofNat]
  exact Nat.mod_eq_of_lt (ullong_lt neg m)

theorem overflow_iff : ((converted neg m == BitVec.allOnes 64) = true ∧
      errnoAfter m errno = erange) ↔
    2 ^ 64 ≤ m ∨ ullong neg m = 2 ^ 64 - 1 ∧ errno = erange := by
  rw [beq_iff_eq, ← BitVec.toNat_inj, converted_toNat, BitVec.toNat_allOnes, errnoAfter]
  by_cases hm : 2 ^ 64 ≤ m
  · rw [if_pos hm]
    exact ⟨fun _ => .inl hm, fun _ => ⟨if_pos hm, rfl⟩⟩
  · rw [if_neg hm]
    exact (or_iff_right hm).symm

theorem jsonToU64_subject (hparse : jsmnParse js numTokens = .ok p) (htok : tok ∈ p.toks)
    (hsubject : Subject (tokText js tok) neg m) (more : Bytes) (n : BitVec 64) :
    ∃ r, jsonToU64 (js ++ more) tok errno n = .ok r ∧ TakesNat neg m errno r := by
  have hlt := ullong_lt neg m
  refine ⟨_, jsonTo64_subject _ errno hparse htok hsubject more n, fun hrefused => ?_,
    fun hrefused => ?_⟩
  · rw [if_pos]
    rcases hrefused with hlarge | hoverflow
    · omega
    · exact (overflow_iff errno).mpr hoverflow
  · refine ⟨?_, converted_toNat neg m⟩
    exact if_neg fun hoverflow => hrefused (.inr ((overflow_iff errno).mp hoverflow))

theorem setWidth_setWidth_eq_iff {w : Nat} (x : BitVec 64) :
    (x.setWidth w).setWidth 64 = x ↔ x.toNat < 2 ^ w := by
  have hle := Nat.mod_le x.toNat (2 ^ w)
  have hmod : x.toNat % 2 ^ w % 2 ^ 64 = x.toNat % 2 ^ w := Nat.mod_eq_of_lt (by omega)
  rw [← BitVec.toNat_inj, BitVec.toNat_setWidth, BitVec.toNat_setWidth, hmod]
  constructor
  · intro h
    exact h ▸ Nat.mod_lt _ (Nat.two_pow_pos w)
  · exact Nat.mod_eq_of_lt

theorem makeJsonToU_subject (hparse : jsmnParse js numTokens = .ok p) (htok : tok ∈ p.toks)
    (hsubject : Subject (tokText js tok) neg m) (more : Bytes) {w : Nat} (junk : BitVec 64)
    (ret : BitVec w) :
    ∃ r, makeJsonToU (js ++ more) tok errno junk ret = .ok r ∧ TakesNat neg m errno r := by
  obtain ⟨x, hx, hrefuse, htake⟩ :=
    jsonToU64_subject errno hparse htok hsubject more junk
  have hlt := ullong_lt neg m
  rw [makeJsonToU, jsonToNarrow, hx, run_bind_ok]
  by_cases hwide : Refused 64 neg m errno
  · have hnarrow : Refused w neg m errno := .inr (hwide.resolve_left (by omega))
    rw [if_pos (by rw [hrefuse hwide]; decide)]
    exact ⟨_, rfl, fun _ => rfl, fun h => absurd hnarrow h⟩
  · obtain ⟨hret, hn⟩ := htake hwide
    rw [if_neg (not_not.mpr hret)]
    refine ⟨_, rfl, fun hrefused => ?_, fun hrefused => ?_⟩
    · have hlarge := hrefused.resolve_right fun hoverflow => hwide (.inr hoverflow)
      refine if_neg fun hsame => ?_
      have := (setWidth_setWidth_eq_iff x.n).mp hsame
      omega
    · have hfits : ullong neg m < 2 ^ w := Nat.lt_of_not_le fun hlarge => hrefused (.inl hlarge)
      refine ⟨if_pos ((setWidth_setWidth_eq_iff x.n).mpr (hn ▸ hfits)), ?_⟩
      rw [BitVec.toNat_setWidth, hn]
      exact Nat.mod_eq_of_lt hfits

theorem UnsignedType.read_subject (hparse : jsmnParse js numTokens = .ok p) (htok : tok ∈ p.toks)
    (hsubject : Subject (tokText js tok) neg m) (more : Bytes) (ty : UnsignedType)
    (junk : BitVec 64) (n : BitVec ty.bits) :
    ∃ r, ty.read (js ++ more) tok errno junk n = .ok r ∧ TakesNat neg m errno r := by
  cases ty with
  | u64 => exact jsonToU64_subject errno hparse htok hsubject more n
  | u32 | u16 | u8 => exact makeJsonToU_subject errno hparse htok hsubject more junk n

theorem UnsignedType.read_other (hparse : jsmnParse js numTokens = .ok p) (htok : tok ∈ p.toks)
    (hother : ∀ neg m, ¬Subject (tokText js tok) neg m) (more : Bytes) (ty : UnsignedType)
    (n : BitVec ty.bits) :
    ∃ r, ty.read (js ++ more) tok errno 0 n = .ok r ∧ r.ret = 0 := by
  have hread := jsonTo64_other (fun l => l == BitVec.allOnes 64) errno hparse htok hother rfl more
  have hnarrow : ∀ {w : Nat} (ret : BitVec w),
      ∃ r, makeJsonToU (js ++ more) tok errno 0 ret = .ok r ∧ r.ret = 0 := by
    intro w ret
    obtain ⟨x, hx, hret, hn⟩ := hread 0
    -- the local variable holds 0, stored or not
    have hzero : x.n = 0 := hn.elim id id
    rw [makeJsonToU, jsonToNarrow, jsonToU64, hx, run_bind_ok, if_neg (not_not.mpr hret)]
    refine ⟨_, rfl, if_pos ((setWidth_setWidth_eq_iff x.n).mpr ?_)⟩
    rw [hzero]
    exact Nat.two_pow_pos w
  cases ty with
  | u64 =>
      obtain ⟨x, hx, hret, -⟩ := hread n
      exact ⟨x, hx, hret⟩
  | u32 | u16 | u8 => exact hnarrow n

/-- What the readers of the unsigned types are for: a literal whose value fits the type is taken, and
any other text is refused. -/
structure ReadsNatural (text : Bytes) {w : Nat} (r : Reading w) : Prop where
  accept_iff : r.ret = 0 ↔ Natural text ∧ decimalValue text < 2 ^ w
  stores : r.ret = 0 → r.n.toNat = decimalValue text
  refuses : r.ret ≠ 0 → r.ret = -1

/-- The text is a literal, and `errno` does not tell so of one that fits; or it is none, and all of it
is converted to a number that is refused. -/
def UnsignedRight (w : Nat) (text : Bytes) (errno : Int) : Prop :=
  Natural text ∧
      ¬(decimalValue text < 2 ^ w ∧ decimalValue text = 2 ^ 64 - 1 ∧ errno = erange) ∨
    ¬Natural text ∧ ∃ neg m, Subject text neg m ∧ Refused w neg m errno

variable {errno} in
theorem TakesNat.reads_iff {w : Nat} {r : Reading w} (h : TakesNat neg m errno r)
    (text : Bytes) : ReadsNatural text r ↔
      (Refused w neg m errno → ¬(Natural text ∧ decimalValue text < 2 ^ w)) ∧
        (¬Refused w neg m errno →
          (Natural text ∧ decimalValue text < 2 ^ w) ∧ ullong neg m = decimalValue text) := by
  by_cases hrefused : Refused w neg m errno
  · have hret := h.refuse hrefused
    have hne : r.ret ≠ 0 := by rw [hret]; decide
    simp only [hrefused, not_true, forall_const, false_imp_iff, and_true]
    exact ⟨fun hreads hfits => hne (hreads.accept_iff.mpr hfits),
      fun hfits => ⟨(iff_of_false hne hfits), fun h => absurd h hne, fun _ => hret⟩⟩
  · obtain ⟨hret, hn⟩ := h.take hrefused
    simp only [hrefused, not_false_iff, forall_const, false_imp_iff, true_and]
    exact ⟨fun hreads => ⟨hreads.accept_iff.mp hret, hn ▸ hreads.stores hret⟩,
      fun ⟨hfits, hvalue⟩ => ⟨iff_of_true hret hfits, fun _ => hn.trans hvalue,
        fun hne => absurd hret hne⟩⟩

theorem UnsignedType.reads_subject_iff (hparse : jsmnParse js numTokens = .ok p)
    (htok : tok ∈ p.toks) {text : Bytes} (htext : tokText js tok = text)
    (hsubject : Subject text neg m) (more : Bytes) (ty : UnsignedType) :
    (∀ junk n, ∃ r, ty.read (js ++ more) tok errno junk n = .ok r ∧ ReadsNatural text r) ↔
      (Refused ty.bits neg m errno → ¬(Natural text ∧ decimalValue text < 2 ^ ty.bits)) ∧
        (¬Refused ty.bits neg m errno →
          (Natural text ∧ decimalValue text < 2 ^ ty.bits) ∧ ullong neg m = decimalValue text) := by
  have hread := ty.read_subject errno hparse htok (htext ▸ hsubject) more
  constructor
  · intro h
    obtain ⟨r, hr, htakes⟩ := hread 0 0
    obtain ⟨r', hr', hreads⟩ := h 0 0
    obtain rfl : r = r' := Except.ok.inj (hr.symm.trans hr')
    exact (htakes.reads_iff text).mp hreads
  · intro h junk n
    obtain ⟨r, hr, htakes⟩ := hread junk n
    exact ⟨r, hr, (htakes.reads_iff text).mpr h⟩

theorem UnsignedType.two_pow_bits_le (ty : UnsignedType) : 2 ^ ty.bits ≤ 2 ^ 64 := by
  cases ty <;> decide

variable {errno} in
theorem refused_iff_of_fits {w : Nat} (hfits : m < 2 ^ w) (hw : 2 ^ w ≤ 2 ^ 64) :
    Refused w false m errno ↔ m = 2 ^ 64 - 1 ∧ errno = erange := by
  have hlt : ¬2 ^ 64 ≤ m := by omega
  have hvalue : ullong false m = m := if_neg hlt
  rw [Refused, hvalue]
  exact (or_iff_right (by omega)).trans (or_iff_right hlt)

variable {errno} in
theorem refused_of_le {w : Nat} (hlarge : 2 ^ w ≤ m) : Refused w false m errno := by
  by_cases hm : 2 ^ 64 ≤ m
  · exact .inr (.inl hm)
  · have hvalue : ullong false m = m := if_neg hm
    exact .inl (hvalue.symm ▸ hlarge)

/-- **The readers of the unsigned types.** On a token of an accepted document they do what they are
for, whatever the variables hold, exactly when `UnsignedRight` holds of its text. -/
theorem jsonToU_right_iff (hparse : jsmnParse js numTokens = .ok p) (htok : tok ∈ p.toks)
    (more : Bytes) (errno : Int) (ty : UnsignedType) :
    (∀ junk n, ∃ r, ty.read (js ++ more) tok errno junk n = .ok r ∧
        ReadsNatural (tokText js tok) r) ↔
      UnsignedRight ty.bits (tokText js tok) errno := by
  generalize htext : tokText js tok = text
  have hbits := ty.two_pow_bits_le
  by_cases hnat : Natural text
  · have hsubject := hnat.constant.subject
    rw [ty.reads_subject_iff errno hparse htok htext hsubject more]
    simp only [UnsignedRight, hnat, true_and, not_true, false_and, or_false]
    by_cases hfits : decimalValue text < 2 ^ ty.bits
    · have hvalue : ullong false (decimalValue text) = decimalValue text := if_neg (by omega)
      rw [refused_iff_of_fits hfits hbits]
      simp only [hfits, hvalue, not_true, true_and, imp_false, and_true, implies_true]
    · have hrefused : Refused ty.bits false (decimalValue text) errno :=
        refused_of_le (Nat.le_of_not_lt hfits)
      simp only [hfits, hrefused, not_true, not_false_iff, false_and, false_imp_iff, imp_true_iff,
        and_true]
  · simp only [UnsignedRight, hnat, false_and, not_false_iff, true_and, false_or]
    by_cases hsome : ∃ neg m, Subject text neg m
    · constructor
      · obtain ⟨neg, m, hsubject⟩ := hsome
        rw [ty.reads_subject_iff errno hparse htok htext hsubject more]
        intro h
        refine ⟨neg, m, hsubject, ?_⟩
        by_contra hrefused
        exact hnat (h.2 hrefused).1.1
      · rintro ⟨neg, m, hsubject, hrefused⟩
        rw [ty.reads_subject_iff errno hparse htok htext hsubject more]
        exact ⟨fun _ hfits => hnat hfits.1, fun h => absurd hrefused h⟩
    · have hother : ∀ neg m, ¬Subject (tokText js tok) neg m :=
        fun neg m h => hsome ⟨neg, m, htext ▸ h⟩
      constructor
      · intro h
        obtain ⟨r, hr, hret⟩ := ty.read_other errno hparse htok hother more 0
        obtain ⟨r', hr', hreads⟩ := h 0 0
        obtain rfl : r = r' := Except.ok.inj (hr.symm.trans hr')
        exact absurd (hreads.accept_iff.mp hret).1 hnat
      · rintro ⟨neg, m, hsubject, -⟩
        exact absurd ⟨neg, m, hsubject⟩ hsome

theorem jsonToU_right_iff_sample :
    ∃ p, jsmnParse (bytes "[7]") 4 = .ok p ∧ ∃ tok ∈ p.toks,
      ((∀ junk n, ∃ r, UnsignedType.u8.read (bytes "[7]" ++ []) tok 0 junk n = .ok r ∧
          ReadsNatural (tokText (bytes "[7]") tok) r) ↔
        UnsignedRight 8 (tokText (bytes "[7]") tok) 0) := by
  have hparse : jsmnParse (bytes "[7]") 4 = .ok
      { pos := 3, toksuper := none, count := 2,
        toks := [⟨.array, 0, 3, 1⟩, ⟨.primitive, 1, 2, 0⟩] } := by
    rfl
  exact ⟨_, hparse, ⟨.primitive, 1, 2, 0⟩, by simp, jsonToU_right_iff hparse (by simp) [] 0 .u8⟩

/-- `json_to_u64` returns 0 for `true`, and stores nothing. -/
theorem jsonToU64_takes_true :
    ¬∀ (js : Bytes) (numTokens : Nat) (p : JsmnParser), jsmnParse js numTokens = .ok p →
      ∀ tok ∈ p.toks, ∀ (more : Bytes) (errno : Int) (ty : UnsignedType) (junk : BitVec 64)
        (n : BitVec ty.bits), ∃ r, ty.read (js ++ more) tok errno junk n = .ok r ∧
          ReadsNatural (tokText js tok) r := by
  intro h
  have hparse : jsmnParse (bytes "[true]") 4 = .ok
      { pos := 6, toksuper := none, count := 2,
        toks := [⟨.array, 0, 6, 1⟩, ⟨.primitive, 1, 5, 0⟩] } := by
    rfl
  obtain ⟨r, hr, hreads⟩ := h _ _ _ hparse ⟨.primitive, 1, 5, 0⟩ (by simp) [] 0 .u64 0 0
  have hread : UnsignedType.u64.read (bytes "[true]" ++ []) ⟨.primitive, 1, 5, 0⟩ 0 0 0 =
      .ok { ret := 0, n := 0, errno := 0 } := by
    rfl
  obtain rfl := Except.ok.inj (hread.symm.trans hr)
  have hdigits := (hreads.accept_iff.mp rfl).1.1.2
  exact absurd (hdigits 0x74 (by decide)) (by decide)

end Unsigned

/-! ### Signed types -/

inductive SignedType where
  | s64
  | s32
  | s16
  | s8

namespace SignedType

def bits : SignedType → Nat
  | s64 => 64
  | s32 => 32
  | s16 => 16
  | s8 => 8

def read (ty : SignedType) (long : LongWidth) (buffer : Bytes) (tok : JsmnTok) (errno : Int)
    (junk : BitVec 64) (n : BitVec ty.bits) : Run (Reading ty.bits) :=
  match ty with
  | s64 => jsonToS64 long buffer tok errno n
  | s32 => jsonToS32 long buffer tok errno junk n
  | s16 => jsonToS16 long buffer tok errno junk n
  | s8 => jsonToS8 long buffer tok errno junk n

end SignedType

def InRange (w : Nat) (v : Int) : Prop := -2 ^ (w - 1) ≤ v ∧ v < 2 ^ (w - 1)

/-- `errno` tells `json_to_s64` that a number overflowed which `strtoull` converted without an error. -/
def Stale (long : LongWidth) (v errno : Int) : Prop :=
  (v.bmod (2 ^ 64) = long.max ∨ v.bmod (2 ^ 64) = long.min) ∧ errno = erange

/-- The number is refused: `errno` tells so, or it does not come into the type modulo 2^64. -/
def RefusedInt (long : LongWidth) (w : Nat) (v errno : Int) : Prop :=
  v.natAbs < 2 ^ 64 ∧ (Stale long v errno ∨ ¬InRange w (v.bmod (2 ^ 64)))

section Signed

variable {js : Bytes} {numTokens : Nat} {p : JsmnParser} {tok : JsmnTok} {v : Int}
variable (long : LongWidth) (errno : Int)

theorem LongWidth.limits (long : LongWidth) : 2 ^ 31 ≤ long.max + 1 ∧ long.max + 1 ≤ 2 ^ 63 ∧
    long.min = -(long.max + 1) := by
  have hlow : 2 ^ 31 ≤ 2 ^ (long.bits - 1) :=
    Nat.pow_le_pow_right (by decide) (by have := long.hmin; omega)
  have hhigh : 2 ^ (long.bits - 1) ≤ 2 ^ 63 :=
    Nat.pow_le_pow_right (by decide) (by have := long.hmax; omega)
  have hmax : long.max + 1 = ((2 ^ (long.bits - 1) : Nat) : Int) := by
    rw [LongWidth.max, Int.sub_add_cancel]
    norm_cast
  have hmin : long.min = -((2 ^ (long.bits - 1) : Nat) : Int) := by
    rw [LongWidth.min]
    norm_cast
  rw [hmin, hmax]
  exact ⟨by exact_mod_cast hlow, by exact_mod_cast hhigh, rfl⟩

theorem IntLiteral.subject {text : Bytes} (h : IntLiteral text v) :
    ∃ neg, Subject text neg v.natAbs ∧ v = if neg then -(v.natAbs : Int) else v.natAbs := by
  cases h with
  | @nonneg text h => exact ⟨false, h.constant.subject, rfl⟩
  | @neg text h =>
      refine ⟨true, ?_, by simp⟩
      rw [Int.natAbs_neg]
      exact h.constant.negated

theorem converted_toInt {neg : Bool} (hv : v = if neg then -(v.natAbs : Int) else v.natAbs)
    (hlt : v.natAbs < 2 ^ 64) : (converted neg v.natAbs).toInt = v.bmod (2 ^ 64) := by
  rw [converted, BitVec.toInt_ofNat', ullong, if_neg (Nat.not_le_of_lt hlt)]
  cases neg with
  | false =>
      rw [if_neg Bool.false_ne_true] at hv ⊢
      rw [← hv]
  | true =>
      rw [if_pos rfl] at hv ⊢
      rw [Int.natCast_mod, Int.emod_bmod, Int.natCast_sub hlt.le, Int.sub_eq_add_neg,
        Int.add_bmod_left, ← hv]

theorem converted_eq_ofInt_iff {neg : Bool} {m : Nat} {n : Int} (hlow : -2 ^ 63 ≤ n)
    (hhigh : n < 2 ^ 63) :
    (converted neg m == BitVec.ofInt 64 n) = true ↔ (converted neg m).toInt = n := by
  rw [beq_iff_eq, ← BitVec.toInt_inj, BitVec.toInt_ofInt_eq_self (by decide) hlow hhigh]

/-- The number that the 64 bits of a converted literal stand for. -/
def convertedInt (v : Int) : Int := if v.natAbs < 2 ^ 64 then v.bmod (2 ^ 64) else -1

theorem converted_toInt_literal {neg : Bool}
    (hv : v = if neg then -(v.natAbs : Int) else v.natAbs) :
    (converted neg v.natAbs).toInt = convertedInt v := by
  rw [convertedInt]
  split
  · next hlt => exact converted_toInt hv hlt
  · next hge =>
    have hmax : ullong neg v.natAbs = 2 ^ 64 - 1 := if_pos (Nat.le_of_not_lt hge)
    rw [converted, hmax]
    rfl

theorem stale_iff {neg : Bool} (hv : v = if neg then -(v.natAbs : Int) else v.natAbs) :
    ((converted neg v.natAbs == BitVec.ofInt 64 long.max ||
        converted neg v.natAbs == BitVec.ofInt 64 long.min) = true ∧
      errnoAfter v.natAbs errno = erange) ↔ v.natAbs < 2 ^ 64 ∧ Stale long v errno := by
  obtain ⟨hlow, hhigh, hmin⟩ := long.limits
  rw [Bool.or_eq_true, converted_eq_ofInt_iff (by omega) (by omega),
    converted_eq_ofInt_iff (by omega) (by omega), converted_toInt_literal hv, convertedInt,
    errnoAfter, Stale]
  by_cases hlt : v.natAbs < 2 ^ 64
  · rw [if_pos hlt, if_neg (Nat.not_le_of_lt hlt)]
    exact (and_iff_right hlt).symm
  · -- an overflow gives -1, which is none of the limits
    rw [if_neg hlt]
    refine iff_of_false ?_ fun h => hlt h.1
    rintro ⟨hmax | hmin', -⟩ <;> omega

/-- What the reader of a signed type makes of a literal. -/
structure TakesInt {w : Nat} (v errno : Int) (r : Reading w) : Prop where
  refuse : RefusedInt long w v errno → r.ret = -1
  take : ¬RefusedInt long w v errno → r.ret = 0 ∧ r.n.toInt = convertedInt v

theorem two_pow_eq {w : Nat} (hpos : 0 < w) : ((2 ^ w : Nat) : Int) = 2 * 2 ^ (w - 1) := by
  obtain ⟨w, rfl⟩ : ∃ k, w = k + 1 := ⟨w - 1, by omega⟩
  rw [Nat.add_sub_cancel, Nat.pow_succ, Nat.mul_comm]
  push_cast
  rfl

theorem bmod_eq_iff_inRange {w : Nat} (hpos : 0 < w) :
    v.bmod (2 ^ w) = v ↔ InRange w v := by
  have htwo := two_pow_eq hpos
  constructor
  · intro h
    have hlow : -(((2 ^ w : Nat) : Int) / 2) ≤ v := h ▸ Int.le_bmod (Nat.two_pow_pos w)
    have hhigh : v < (((2 ^ w : Nat) : Int) + 1) / 2 := h ▸ Int.bmod_lt (Nat.two_pow_pos w)
    rw [InRange]
    omega
  · rintro ⟨hlow, hhigh⟩
    exact Int.bmod_eq_of_le_mul_two (by omega) (by omega)

theorem inRange_bmod (v : Int) : InRange 64 (v.bmod (2 ^ 64)) :=
  (bmod_eq_iff_inRange (by decide)).mp Int.bmod_bmod

theorem inRange_neg_one (w : Nat) : InRange w (-1) := by
  have hpos : (0 : Int) < 2 ^ (w - 1) := by exact_mod_cast Nat.two_pow_pos (w - 1)
  rw [InRange]
  omega

theorem jsonToS64_literal (hparse : jsmnParse js numTokens = .ok p) (htok : tok ∈ p.toks)
    (hliteral : IntLiteral (tokText js tok) v) (more : Bytes) (n : BitVec 64) :
    ∃ r, jsonToS64 long (js ++ more) tok errno n = .ok r ∧ TakesInt long v errno r := by
  obtain ⟨neg, hsubject, hv⟩ := hliteral.subject
  have hstale := stale_iff long errno hv
  refine ⟨_, jsonTo64_subject _ errno hparse htok hsubject more n, fun hrefused => ?_,
    fun hrefused => ?_⟩
  · have hhit := hrefused.2.resolve_right (not_not.mpr (inRange_bmod v))
    exact if_pos (hstale.mpr ⟨hrefused.1, hhit⟩)
  · refine ⟨if_neg fun hhit => hrefused ?_, converted_toInt_literal hv⟩
    exact ⟨(hstale.mp hhit).1, .inl (hstale.mp hhit).2⟩

theorem signExtend_setWidth_eq_iff {w : Nat} (hpos : 0 < w) (hw : w ≤ 64) (x : BitVec 64) :
    (x.setWidth w).signExtend 64 = x ↔ InRange w x.toInt := by
  have hnarrow : (x.setWidth w).toInt = x.toInt.bmod (2 ^ w) := by
    rw [BitVec.toInt_setWidth, BitVec.toInt_eq_toNat_bmod,
      Int.bmod_bmod_of_dvd (Nat.pow_dvd_pow 2 hw)]
  rw [← BitVec.toInt_inj, BitVec.toInt_signExtend_of_le hw, hnarrow]
  exact bmod_eq_iff_inRange hpos

theorem makeJsonToS_literal (hparse : jsmnParse js numTokens = .ok p) (htok : tok ∈ p.toks)
    (hliteral : IntLiteral (tokText js tok) v) (more : Bytes) {w : Nat} (hpos : 0 < w)
    (hw : w ≤ 64) (junk : BitVec 64) (ret : BitVec w) :
    ∃ r, makeJsonToS long (js ++ more) tok errno junk ret = .ok r ∧ TakesInt long v errno r := by
  obtain ⟨x, hx, hrefuse, htake⟩ :=
    jsonToS64_literal long errno hparse htok hliteral more junk
  rw [makeJsonToS, jsonToNarrow, hx, run_bind_ok]
  by_cases hwide : RefusedInt long 64 v errno
  · have hstale := hwide.2.resolve_right (not_not.mpr (inRange_bmod v))
    have hnarrow : RefusedInt long w v errno := ⟨hwide.1, .inl hstale⟩
    rw [if_pos (by rw [hrefuse hwide]; decide)]
    exact ⟨_, rfl, fun _ => rfl, fun h => absurd hnarrow h⟩
  · obtain ⟨hret, hn⟩ := htake hwide
    rw [if_neg (not_not.mpr hret)]
    refine ⟨_, rfl, fun hrefused => ?_, fun hrefused => ?_⟩
    · have hout := hrefused.2.resolve_left fun hstale => hwide ⟨hrefused.1, .inl hstale⟩
      refine if_neg fun hsame => hout ?_
      have hin := (signExtend_setWidth_eq_iff hpos hw x.n).mp hsame
      rwa [hn, convertedInt, if_pos hrefused.1] at hin
    · have hin : InRange w (convertedInt v) := by
        rw [convertedInt]
        split
        · next hlt => exact not_not.mp fun hout => hrefused ⟨hlt, .inr hout⟩
        · exact inRange_neg_one w
      have hsame := (signExtend_setWidth_eq_iff hpos hw x.n).mpr (hn.symm ▸ hin)
      refine ⟨if_pos hsame, ?_⟩
      rw [← BitVec.toInt_signExtend_of_le hw, hsame, hn]

theorem SignedType.read_literal (hparse : jsmnParse js numTokens = .ok p) (htok : tok ∈ p.toks)
    (hliteral : IntLiteral (tokText js tok) v) (more : Bytes) (ty : SignedType)
    (junk : BitVec 64) (n : BitVec ty.bits) :
    ∃ r, ty.read long (js ++ more) tok errno junk n = .ok r ∧ TakesInt long v errno r := by
  cases ty with
  | s64 => exact jsonToS64_literal long errno hparse htok hliteral more n
  | s32 | s16 | s8 =>
      exact makeJsonToS_literal long errno hparse htok hliteral more (by decide) (by decide) junk n

/-- What the readers of the signed types are for: a value that fits the type is taken, and any other
is refused. -/
structure ReadsInteger (v : Int) {w : Nat} (r : Reading w) : Prop where
  fits : InRange w v → r.ret = 0 ∧ r.n.toInt = v
  unfit : ¬InRange w v → r.ret = -1

/-- A value that fits is not one that `errno` refuses, and one that does not is refused. -/
def SignedRight (w : Nat) (v errno : Int) : Prop :=
  (InRange w v → ¬Stale long v errno) ∧ (¬InRange w v → RefusedInt long w v errno)

theorem InRange.mono {w w' : Nat} (hle : w ≤ w') (h : InRange w v) : InRange w' v := by
  have hpow : (2 : Int) ^ (w - 1) ≤ 2 ^ (w' - 1) := by
    exact_mod_cast Nat.pow_le_pow_right (by decide) (Nat.sub_le_sub_right hle 1)
  obtain ⟨hlow, hhigh⟩ := h
  rw [InRange]
  omega

theorem refusedInt_iff_of_fits {w : Nat} (hw : w ≤ 64) (hfits : InRange w v) :
    (RefusedInt long w v errno ↔ Stale long v errno) ∧ convertedInt v = v := by
  have hwide : InRange 64 v := hfits.mono hw
  have hsame : v.bmod (2 ^ 64) = v := (bmod_eq_iff_inRange (by decide)).mpr hwide
  have hlt : v.natAbs < 2 ^ 64 := by
    obtain ⟨hlow, hhigh⟩ := hwide
    omega
  refine ⟨⟨fun h => h.2.resolve_right ?_, fun h => ⟨hlt, .inl h⟩⟩, (if_pos hlt).trans hsame⟩
  rw [hsame]
  exact not_not.mpr hfits

theorem SignedType.bits_le (ty : SignedType) : ty.bits ≤ 64 := by
  cases ty <;> decide

/-- **The readers of the signed types.** On a literal in an accepted document they do what they are
for exactly when `SignedRight` holds of its value. -/
theorem jsonToS_right_iff (hparse : jsmnParse js numTokens = .ok p) (htok : tok ∈ p.toks)
    (hliteral : IntLiteral (tokText js tok) v) (more : Bytes) (ty : SignedType)
    (junk : BitVec 64) (n : BitVec ty.bits) :
    (∃ r, ty.read long (js ++ more) tok errno junk n = .ok r ∧ ReadsInteger v r) ↔
      SignedRight long ty.bits v errno := by
  obtain ⟨r, hr, hrefuse, htake⟩ :=
    ty.read_literal long errno hparse htok hliteral more junk n
  have hreads : (∃ r', ty.read long (js ++ more) tok errno junk n = .ok r' ∧ ReadsInteger v r') ↔
      ReadsInteger v r := by
    constructor
    · rintro ⟨r', hr', hreads⟩
      obtain rfl : r = r' := Except.ok.inj (hr.symm.trans hr')
      exact hreads
    · exact fun hreads => ⟨r, hr, hreads⟩
  rw [hreads]
  by_cases hfits : InRange ty.bits v
  · obtain ⟨hrefused, hvalue⟩ := refusedInt_iff_of_fits long errno ty.bits_le hfits
    constructor
    · intro h
      refine ⟨fun _ hstale => ?_, fun hout => absurd hfits hout⟩
      have hzero := (h.fits hfits).1
      rw [hrefuse (hrefused.mpr hstale)] at hzero
      cases hzero
    · intro h
      obtain ⟨hret, hn⟩ := htake fun hrefuses => h.1 hfits (hrefused.mp hrefuses)
      exact ⟨fun _ => ⟨hret, hn.trans hvalue⟩, fun hout => absurd hfits hout⟩
  · constructor
    · intro h
      refine ⟨fun hin => absurd hin hfits, fun _ => ?_⟩
      by_contra htaken
      have hzero := (htake htaken).1
      rw [h.unfit hfits] at hzero
      cases hzero
    · exact fun h => ⟨fun hin => absurd hin hfits, fun _ => hrefuse (h.2 hfits)⟩

/-- On a machine with a `long` of 64 bits. -/
def long64 : LongWidth := ⟨64, by decide, by decide⟩

theorem jsonToS_right_iff_sample :
    ∃ p, jsmnParse (bytes "[-7]") 4 = .ok p ∧ ∃ tok ∈ p.toks,
      ((∃ r, SignedType.s8.read long64 (bytes "[-7]" ++ []) tok 0 0 0 = .ok r ∧
          ReadsInteger (-7) r) ↔ SignedRight long64 8 (-7) 0) := by
  have hparse : jsmnParse (bytes "[-7]") 4 = .ok
      { pos := 4, toksuper := none, count := 2,
        toks := [⟨.array, 0, 4, 1⟩, ⟨.primitive, 1, 3, 0⟩] } := by
    rfl
  have hnatural : Natural (bytes "7") := by decide
  have hliteral : IntLiteral (tokText (bytes "[-7]") ⟨.primitive, 1, 3, 0⟩) (-7) := .neg hnatural
  exact ⟨_, hparse, ⟨.primitive, 1, 3, 0⟩, by simp,
    jsonToS_right_iff long64 0 hparse (by simp) hliteral [] .s8 0 0⟩

/-- `json_to_s64` returns 0 for 2^63, and stores -2^63. -/
theorem jsonToS64_takes_overflow :
    ¬∀ (long : LongWidth) (js : Bytes) (numTokens : Nat) (p : JsmnParser),
      jsmnParse js numTokens = .ok p → ∀ tok ∈ p.toks, ∀ v, IntLiteral (tokText js tok) v →
        ∀ (more : Bytes) (errno : Int) (ty : SignedType) (junk : BitVec 64)
          (n : BitVec ty.bits), ∃ r, ty.read long (js ++ more) tok errno junk n = .ok r ∧
            ReadsInteger v r := by
  intro h
  have hparse : jsmnParse (bytes "[9223372036854775808]") 4 = .ok
      { pos := 21, toksuper := none, count := 2,
        toks := [⟨.array, 0, 21, 1⟩, ⟨.primitive, 1, 20, 0⟩] } := by
    rfl
  have hnatural : Natural (bytes "9223372036854775808") := by decide
  have htext : tokText (bytes "[9223372036854775808]") ⟨.primitive, 1, 20, 0⟩ =
      bytes "9223372036854775808" := by rfl
  have hvalue : (decimalValue (bytes "9223372036854775808") : Int) = 2 ^ 63 := by rfl
  have hliteral : IntLiteral (tokText (bytes "[9223372036854775808]") ⟨.primitive, 1, 20, 0⟩)
      (2 ^ 63) := by
    rw [htext, ← hvalue]
    exact .nonneg hnatural
  obtain ⟨r, hr, hreads⟩ :=
    h long64 _ _ _ hparse ⟨.primitive, 1, 20, 0⟩ (by simp) _ hliteral [] 0 .s64 0 0
  have hread : SignedType.s64.read long64 (bytes "[9223372036854775808]" ++ [])
      ⟨.primitive, 1, 20, 0⟩ 0 0 0 = .ok { ret := 0, n := BitVec.intMin 64, errno := 0 } := by
    rfl
  obtain rfl := Except.ok.inj (hread.symm.trans hr)
  have hout : ¬InRange 64 (2 ^ 63) := fun hin => absurd hin.2 (by decide)
  exact absurd (hreads.unfit hout) (by decide)

end Signed

end AtxSys
