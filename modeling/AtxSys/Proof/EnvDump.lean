import AtxSys.Lib.JsonPaste
import AtxSys.Proof.EnvBuffer
import AtxSys.Proof.EnvRoute

/-!
# What the dump of the environment says

`env_read` pastes each name and each value between quotes. The only bytes it replaces are the
quotes of a value, and it cuts a value to what `temp` holds.
-/

namespace AtxSys

open CText JsonSyntax

/-! ### The rendering as an object -/

section Rendering

variable {env : List (Bytes × Bytes)} {v : Bytes × Bytes} {value : Bytes}

/-- A value with apostrophes for its quotes. -/
def unquoted (value : Bytes) : Bytes :=
  (cstr value).map fun c => if c = quote then apostrophe else c

theorem envTemp_eq_take (value : Bytes) : envTemp value = (unquoted value).take (tempSize - 1) :=
  List.map_take

theorem unquoted_length (value : Bytes) : (unquoted value).length = (cstr value).length :=
  List.length_map _

theorem envTemp_of_short (h : (cstr value).length < tempSize) : envTemp value = unquoted value := by
  rw [envTemp_eq_take, List.take_of_length_le]
  rw [unquoted_length]
  exact Nat.le_sub_one_of_lt h

theorem quote_notMem_envTemp (value : Bytes) : quote ∉ envTemp value := by
  intro hmem
  obtain ⟨c, -, hc⟩ := List.mem_map.mp hmem
  split at hc
  · exact absurd hc (by decide)
  · next hquote => exact hquote hc

/-- What is pasted for a variable, and the value that it is meant for. -/
def dumpField (meaning : Bytes × Bytes → Bytes) (v : Bytes × Bytes) : PastedField :=
  ⟨cstr v.1, envTemp v.2, meaning v⟩

def dumpFields (meaning : Bytes × Bytes → Bytes) (env : List (Bytes × Bytes)) :
    List (Bytes × Scalar) :=
  env.map fun v => (cstr v.1, .str (meaning v))

theorem envEntry_quoted (v : Bytes × Bytes) :
    envEntry v = quoted (cstr v.1) ++ colon :: quoted (envTemp v.2) := by
  have hmiddle : bytes "\":\"" = [quote, colon, quote] := by decide
  rw [envEntry, hmiddle]
  simp [quoted]

theorem envBody_fieldsText (env : List (Bytes × Bytes)) :
    envBody env = fieldsText true (dumpFields (fun v => envTemp v.2) env) := by
  induction env with
  | nil => rfl
  | cons v rest ih =>
      cases rest with
      | nil =>
          have hbody : envBody [v] = envEntry v := by simp [envBody, List.intercalate]
          rw [hbody, envEntry_quoted]
          simp [dumpFields, fieldsText, separator, Scalar.text]
      | cons w rest =>
          rw [envBody_cons, ih, envEntry_quoted]
          simp [dumpFields, fieldsText, separator, Scalar.text]

theorem envRendering_objectText (env : List (Bytes × Bytes)) :
    envRendering env = objectText (dumpFields (fun v => envTemp v.2) env) := by
  rw [envRendering_eq, envBody_fieldsText]
  rfl

/-- The dump says what is meant exactly if each field does. -/
theorem decodes_envRendering_iff (meaning : Bytes × Bytes → Bytes) :
    Decodes (envRendering env) (dumpFields meaning env) ↔
      ∀ v ∈ env, (dumpField meaning v).Sound := by
  have hpasted : dumpFields (fun v => envTemp v.2) env =
      (env.map (dumpField meaning)).map PastedField.pasted := by
    rw [List.map_map]
    rfl
  have hmeant : dumpFields meaning env =
      (env.map (dumpField meaning)).map PastedField.meant := by
    rw [List.map_map]
    rfl
  have hraw : ∀ f ∈ env.map (dumpField meaning), quote ∉ f.raw := by
    intro f hf
    obtain ⟨v, -, rfl⟩ := List.mem_map.mp hf
    exact quote_notMem_envTemp v.2
  rw [envRendering_objectText, hpasted, hmeant, decodes_pasted_iff hraw, List.forall_mem_map]

/-- A value comes out whole if `temp` holds it and none of its bytes had to be escaped. -/
theorem dumpField_sound_iff :
    (dumpField (fun v => unquoted v.2) v).Sound ↔
      Plain (cstr v.1) ∧ Plain (unquoted v.2) ∧ (cstr v.2).length < tempSize := by
  constructor
  · rintro ⟨hname, hraw, hvalue⟩
    change StringBody (0x20 ≤ ·) (envTemp v.2) at hraw
    change unescape (envTemp v.2) = unquoted v.2 at hvalue
    have hlength := length_unescape_le hraw
    have htake : (envTemp v.2).length ≤ tempSize - 1 := by
      rw [envTemp_eq_take, List.length_take]
      exact Nat.min_le_left _ _
    rw [hvalue, unquoted_length] at hlength
    have hshort : (cstr v.2).length < tempSize := by
      have hsize : tempSize = 128 := rfl
      omega
    have hwhole := envTemp_of_short hshort
    refine ⟨hname, ?_, hshort⟩
    rw [← hwhole]
    exact plain_of_length_le hraw (by rw [hvalue, hwhole])
  · rintro ⟨hname, hvalue, hshort⟩
    have hwhole := envTemp_of_short hshort
    refine ⟨hname, ?_, ?_⟩
    · change StringBody _ (envTemp v.2)
      rw [hwhole]
      exact hvalue.body
    · change unescape (envTemp v.2) = unquoted v.2
      rw [hwhole]
      exact hvalue.unescape_eq

end Rendering

/-! ### The whole call -/

/-- The result, the length and the text in the buffer, and what the text says. -/
structure EnvDump (env : List (Bytes × Bytes)) (read : EnvRead) (buff : Bytes) : Prop where
  ret : read.ret = 0
  text : ∃ text, read.b.toNat = text.length ∧ text ++ [0] <+: buff ∧
    Decodes text (dumpFields (fun v => unquoted v.2) env)

section Read

variable {env : List (Bytes × Bytes)} {len : UInt32} {buff : Bytes}

theorem envRead_fits (hentry : ∀ v ∈ env, (envEntry v).length < 2 ^ 31)
    (hsize : buff.length = len.toNat) (hfits : (envRendering env).length < len.toNat) :
    ∃ read buff', envRead env len = .ok read ∧ applyAll buff read.accesses = .ok buff' ∧
      read.ret = 0 ∧ read.b.toNat = (envRendering env).length ∧
        envRendering env ++ [0] <+: buff' := by
  have hlength := envRendering_length_eq env
  have hjoined := envRendering_length env
  have hfront := envFront_le_envBody env
  have hlen := len.toNat_lt
  obtain ⟨read, hread, hbuffer⟩ := @envRead_buffer env len buff (by omega)
    ⟨hentry, .inr (by omega)⟩ hsize
  cases hbuffer with
  | outside hout _ => omega
  | covered hlast _ _ => omega
  | cut _ _ htotal _ _ => omega
  | @fits buff' _ hret hb hr htext => exact ⟨read, buff', hread, hr, hret, hb, htext⟩

theorem envDump_iff {read : EnvRead} (hret : read.ret = 0)
    (hb : read.b.toNat = (envRendering env).length) (htext : envRendering env ++ [0] <+: buff) :
    EnvDump env read buff ↔ ∀ v ∈ env, (dumpField (fun v => unquoted v.2) v).Sound := by
  rw [← decodes_envRendering_iff]
  constructor
  · rintro ⟨-, text, hlength, hbegin, hdecodes⟩
    have hleft : text <+: buff := (List.prefix_append _ _).trans hbegin
    have hright : envRendering env <+: buff := (List.prefix_append _ _).trans htext
    have hsame : text = envRendering env :=
      (List.prefix_of_prefix_length_le hleft hright (by omega)).eq_of_length (by omega)
    rw [← hsame]
    exact hdecodes
  · intro hdecodes
    exact ⟨hret, _, hb, htext, hdecodes⟩

theorem envDump_fits_iff (hentry : ∀ v ∈ env, (envEntry v).length < 2 ^ 31)
    (hsize : buff.length = len.toNat) (hfits : (envRendering env).length < len.toNat) :
    (∃ read buff', envRead env len = .ok read ∧ applyAll buff read.accesses = .ok buff' ∧
      EnvDump env read buff') ↔ ∀ v ∈ env, (dumpField (fun v => unquoted v.2) v).Sound := by
  obtain ⟨read, buff', hread, happly, hret, hb, htext⟩ := envRead_fits hentry hsize hfits
  rw [← envDump_iff hret hb htext]
  constructor
  · rintro ⟨read₁, buff₁, hread₁, happly₁, hdump⟩
    rw [← Except.ok.inj (hread.symm.trans hread₁)] at happly₁ hdump
    rwa [← Except.ok.inj (happly.symm.trans happly₁)] at hdump
  · intro hdump
    exact ⟨read, buff', hread, happly, hdump⟩

/-- **The dump of an environment that fits** is what it should be exactly if no name has to be
escaped, no value but for its quotes, `temp` holds each value, and an `int` the length of each
variable. A string of a document may hold any byte from 0x80 on; its encoding is not looked at. -/
theorem env_read_dump_iff (env : List (Bytes × Bytes)) (len : UInt32) (buff : Bytes)
    (hsize : buff.length = len.toNat) (hfits : (envRendering env).length < len.toNat) :
    (∃ read buff', envRead env len = .ok read ∧ applyAll buff read.accesses = .ok buff' ∧
      EnvDump env read buff') ↔
      ∀ v ∈ env, Plain (cstr v.1) ∧ Plain (unquoted v.2) ∧ (cstr v.2).length < tempSize ∧
        (envEntry v).length < 2 ^ 31 := by
  constructor
  · rintro ⟨read, buff', hread, happly, hdump⟩
    have hentry := entries_printed hread happly
    have hsound := (envDump_fits_iff hentry hsize hfits).mp ⟨read, buff', hread, happly, hdump⟩
    intro v hv
    obtain ⟨hname, hvalue, hshort⟩ := dumpField_sound_iff.mp (hsound v hv)
    exact ⟨hname, hvalue, hshort, hentry v hv⟩
  · intro h
    refine (envDump_fits_iff (fun v hv => (h v hv).2.2.2) hsize hfits).mpr fun v hv => ?_
    obtain ⟨hname, hvalue, hshort, -⟩ := h v hv
    exact dumpField_sound_iff.mpr ⟨hname, hvalue, hshort⟩

/-- A variable with quotes, and one without. -/
def quotedVars : List (Bytes × Bytes) :=
  [(bytes "foo", bytes "mtdparts=\"abc\""), (bytes "bar", bytes "1")]

theorem quotedVars_escaped : ∀ v ∈ quotedVars, Plain (cstr v.1) ∧ Plain (unquoted v.2) ∧
    (cstr v.2).length < tempSize ∧ (envEntry v).length < 2 ^ 31 := by
  intro v hv
  rcases List.mem_cons.mp hv with rfl | hv
  · exact ⟨by decide, by decide, by decide, by decide⟩
  · rw [List.mem_singleton.mp hv]
    exact ⟨by decide, by decide, by decide, by decide⟩

theorem env_read_dump_iff_quotes :
    ∃ read buff', envRead quotedVars 64 = .ok read ∧
      applyAll (List.replicate 64 0) read.accesses = .ok buff' ∧ EnvDump quotedVars read buff' :=
  (env_read_dump_iff quotedVars 64 (List.replicate 64 0) (by decide) (by decide)).mpr
    quotedVars_escaped

/-- A backslash takes the quote behind it away. -/
theorem env_read_dump_backslash :
    ¬∃ read buff', envRead [(bytes "a", bytes "\\")] 32 = .ok read ∧
      applyAll (List.replicate 32 0) read.accesses = .ok buff' ∧
        EnvDump [(bytes "a", bytes "\\")] read buff' := by
  rw [envDump_fits_iff (by decide) (by decide) (by decide)]
  intro hsound
  have hfield := dumpField_sound_iff.mp (hsound _ List.mem_cons_self)
  exact absurd hfield.2.1 (by decide)

end Read

/-! ### Two ways to read a variable -/

/-- The value that `env_read_val` returns for the name of a variable. -/
def valueOfName (env : Env) (vars : List (Bytes × Bytes)) (v : Bytes × Bytes) : Bytes :=
  cstr ((envReadVal env v.1 vars).1.getD [])

section GetAll

variable {env : Env} {vars : List (Bytes × Bytes)} {buffer : EnvBuffer} {read : EnvRead}
  {response : Response}

/-- If `env_read` returns 0, the body is the rendering. -/
theorem envGetAll_rendering (hread : envRead vars (.ofNat envBufferSize) = .ok read)
    (hret : read.ret = 0) (hget : envGetAll vars buffer = .ok response) :
    response.body = envRendering vars := by
  have hsize : buffer.bytes.length = (UInt32.ofNat envBufferSize).toNat := buffer.hsize
  obtain ⟨read₁, buff, hread₁, happly, hzero, hbody⟩ := envGetAll_body hget
  have hentry := entries_printed hread₁ happly
  have hroom : EnvRoom (.ofNat envBufferSize) vars 1 := ⟨hentry, .inl (by decide)⟩
  obtain ⟨read₂, hread₂, hbuffer⟩ := @envRead_buffer vars _ buffer.bytes (by decide) hroom hsize
  rw [← Except.ok.inj (hread₁.symm.trans hread₂), happly] at hbuffer
  rw [hbody]
  cases hbuffer with
  | outside _ hr => exact absurd rfl (hr buff)
  | covered _ hr hnone =>
      rw [← Except.ok.inj hr] at hnone
      exact absurd hzero hnone
  | cut hfront _ htotal _ _ =>
      have hresult := (envRead_result (by decide) hroom hfront hread).1
      rw [hret, if_neg (by omega)] at hresult
      exact absurd hresult (by decide)
  | fits _ _ _ hr htext =>
      rw [← Except.ok.inj hr] at htext
      obtain ⟨rest, rfl⟩ := htext
      rw [List.append_assoc]
      exact Slices.takeWhile_append_cons (zero_notMem_envRendering vars)

/-- The dump reads as the values that are meant exactly if each pasted value stands for them. -/
theorem envGetAll_decodes_iff (hread : envRead vars (.ofNat envBufferSize) = .ok read)
    (hret : read.ret = 0) (hget : envGetAll vars buffer = .ok response)
    (meaning : Bytes × Bytes → Bytes) :
    Decodes response.body (dumpFields meaning vars) ↔
      ∀ v ∈ vars, (dumpField meaning v).Sound := by
  rw [envGetAll_rendering hread hret hget]
  exact decodes_envRendering_iff meaning

/-- A variable is found by its name if the first variable with the name has its value. -/
theorem valueOfName_of_first {v : Bytes × Bytes}
    (hfirst : (firstNamed vars (cstr v.1)).map cstr = some (cstr v.2)) :
    valueOfName env vars v = cstr v.2 := by
  obtain ⟨value, hvalue, hsame⟩ := Option.map_eq_some_iff.mp hfirst
  rw [valueOfName, envReadVal_fst, hvalue, Option.getD_some, hsame]

/-- **Two ways to read a variable.** Where nothing but quotes has to be escaped and `temp` holds each
value, the dump reads as the variables with apostrophes for the quotes of the values; and for each
that is the first of its name, or has the value of the first, this is what `env_read_val` returns
with apostrophes for its quotes. -/
theorem env_dump_reads_val (env : Env) (vars : List (Bytes × Bytes)) (buffer : EnvBuffer)
    (read : EnvRead) (response : Response)
    (hread : envRead vars (.ofNat envBufferSize) = .ok read) (hret : read.ret = 0)
    (hget : envGetAll vars buffer = .ok response)
    (hvars : ∀ v ∈ vars,
      Plain (cstr v.1) ∧ Plain (unquoted v.2) ∧ (cstr v.2).length < tempSize) :
    Decodes response.body (dumpFields (fun v => unquoted v.2) vars) ∧
      ∀ v, (firstNamed vars (cstr v.1)).map cstr = some (cstr v.2) →
        unquoted v.2 = unquoted (valueOfName env vars v) := by
  constructor
  · rw [envGetAll_decodes_iff hread hret hget]
    exact fun v hv => dumpField_sound_iff.mpr (hvars v hv)
  · intro v hfirst
    rw [valueOfName_of_first hfirst, unquoted, unquoted, cstr_eq_self (zero_notMem_cstr v.2)]

theorem env_dump_answered {vars : List (Bytes × Bytes)}
    (hentry : ∀ v ∈ vars, (envEntry v).length < 2 ^ 31)
    (hfits : (envRendering vars).length < (UInt32.ofNat envBufferSize).toNat)
    (hterminated : EnvTerminated vars) (buffer : EnvBuffer) :
    ∃ read response, envRead vars (.ofNat envBufferSize) = .ok read ∧ read.ret = 0 ∧
      envGetAll vars buffer = .ok response := by
  have hsize : buffer.bytes.length = (UInt32.ofNat envBufferSize).toNat := buffer.hsize
  obtain ⟨read, -, hread, -, hret, -⟩ := envRead_fits hentry hsize hfits
  obtain ⟨response, hget⟩ := envGetAll_iff.mpr hterminated
  exact ⟨read, response, hread, hret, hget⟩

/-- The second `foo` does not change what the first one and `bar` are read as. -/
theorem env_dump_reads_val_quotes :
    ∃ response, envGetAll (quotedVars ++ [(bytes "foo", bytes "2")]) zeroBuffer = .ok response ∧
      Decodes response.body
        (dumpFields (fun v => unquoted v.2) (quotedVars ++ [(bytes "foo", bytes "2")])) ∧
      quotedVars.map (fun v => unquoted v.2) = quotedVars.map fun v =>
        unquoted (valueOfName ⟨some 0, true⟩ (quotedVars ++ [(bytes "foo", bytes "2")]) v) := by
  obtain ⟨read, response, hread, hret, hget⟩ :=
    @env_dump_answered (quotedVars ++ [(bytes "foo", bytes "2")]) (by decide) (by decide)
      ⟨by decide, by decide, by decide, by decide⟩ zeroBuffer
  have hvars : ∀ v ∈ quotedVars ++ [(bytes "foo", bytes "2")],
      Plain (cstr v.1) ∧ Plain (unquoted v.2) ∧ (cstr v.2).length < tempSize := by
    intro v hv
    rcases List.mem_append.mp hv with hv | hv
    · obtain ⟨hname, hvalue, hshort, -⟩ := quotedVars_escaped v hv
      exact ⟨hname, hvalue, hshort⟩
    · rw [List.mem_singleton.mp hv]
      exact ⟨by decide, by decide, by decide⟩
  obtain ⟨hdecodes, hvalues⟩ :=
    env_dump_reads_val ⟨some 0, true⟩ _ zeroBuffer read response hread hret hget hvars
  refine ⟨response, hget, hdecodes, List.map_congr_left fun v hv => hvalues v ?_⟩
  rcases List.mem_cons.mp hv with rfl | hv
  · decide
  · rw [List.mem_singleton.mp hv]
    decide

/-- The dump has apostrophes where the value has quotes. -/
theorem env_dump_quotes :
    ∃ read response, envRead [(bytes "foo", bytes "mtdparts=\"abc\"")]
        (.ofNat envBufferSize) = .ok read ∧ read.ret = 0 ∧
      envGetAll [(bytes "foo", bytes "mtdparts=\"abc\"")] zeroBuffer = .ok response ∧
        ¬Decodes response.body (dumpFields (valueOfName ⟨some 0, true⟩
          [(bytes "foo", bytes "mtdparts=\"abc\"")])
            [(bytes "foo", bytes "mtdparts=\"abc\"")]) := by
  obtain ⟨read, response, hread, hret, hget⟩ :=
    @env_dump_answered [(bytes "foo", bytes "mtdparts=\"abc\"")] (by decide) (by decide)
      ⟨by decide, by decide, by decide, by decide⟩ zeroBuffer
  refine ⟨read, response, hread, hret, hget, ?_⟩
  rw [envGetAll_decodes_iff hread hret hget]
  intro hsound
  have hpasted : envTemp (bytes "mtdparts=\"abc\"") = bytes "mtdparts='abc'" := by decide
  have hstored : valueOfName ⟨some 0, true⟩ [(bytes "foo", bytes "mtdparts=\"abc\"")]
      (bytes "foo", bytes "mtdparts=\"abc\"") = bytes "mtdparts=\"abc\"" := by decide
  have hvalue := (hsound _ List.mem_cons_self).value
  rw [dumpField, hpasted, hstored, Plain.unescape_eq (by decide)] at hvalue
  exact absurd hvalue (by decide)

end GetAll

end AtxSys
