import AtxSys.EnvEmu
import AtxSys.Proof.EnvBuffer

/-!
# Two ways to read the environment

The contract that a caller of `env_read` relies on, and which of the device and the emulator keep
it. The comparison at the end of the emulator's `env_read` is the wrong way round.
-/

namespace AtxSys

open CText

/-- The result tells whether the text and its NUL fit, and `*b` is the length of a text that
fits. -/
structure ReadContract (text : Bytes) (len : UInt32) (read : EnvRead) : Prop where
  ret : read.ret = if text.length < len.toNat then 0 else -1
  b : text.length ≤ len.toNat → read.b.toNat = text.length

/-- The call writes inside of any buffer of this size, and its results are those of the contract. -/
def Obeys (run : Run EnvRead) (text : Bytes) (len : UInt32) : Prop :=
  ∃ read, run = .ok read ∧ ReadContract text len read ∧
    ∀ buff : Bytes, buff.length = len.toNat → ∃ buff', applyAll buff read.accesses = .ok buff'

variable {env : List (Bytes × Bytes)} {len : UInt32}

/-! ### The device -/

theorem envRead_obeys_iff (hlen : 1 < len.toNat) (hmax : len.toNat ≤ 2 ^ 31) :
    Obeys (envRead env len) (envRendering env) len ↔
      (∀ v ∈ env, (envEntry v).length < 2 ^ 31) ∧ (envFront env).length ≤ len.toNat := by
  have hlength := envRendering_length_eq env
  have hle := envFront_le_envBody env
  constructor
  · rintro ⟨read, hread, -, happly⟩
    have hsize : (List.replicate len.toNat (0 : UInt8)).length = len.toNat :=
      List.length_replicate ..
    obtain ⟨buff', hbuff'⟩ := happly _ hsize
    have hentry := entries_printed hread hbuff'
    obtain ⟨read₁, hread₁, hbuffer⟩ := envRead_buffer hlen ⟨hentry, .inl hmax⟩ hsize
    rw [← Except.ok.inj (hread.symm.trans hread₁), hbuff'] at hbuffer
    refine ⟨hentry, ?_⟩
    cases hbuffer with
    | outside _ hr => exact absurd rfl (hr buff')
    | covered hlast _ _ => omega
    | cut hfront _ _ _ _ => exact hfront
    | fits htotal _ _ _ _ => omega
  · rintro ⟨hentry, hfront⟩
    have hroom : EnvRoom len env 1 := ⟨hentry, .inl hmax⟩
    obtain ⟨read, hread⟩ := envRead_ok env len
    obtain ⟨hret, hb⟩ := envRead_result (by omega) hroom hfront hread
    refine ⟨read, hread, ⟨hret, hb⟩, fun buff hsize => ?_⟩
    obtain ⟨read₁, hread₁, hbuffer⟩ := envRead_buffer hlen hroom hsize
    rw [← Except.ok.inj (hread.symm.trans hread₁)] at hbuffer
    cases hbuffer with
    | outside hout _ => omega
    | covered _ hr _ | cut _ _ _ hr _ | fits _ _ _ hr _ => exact ⟨_, hr⟩

/-! ### The emulator -/

theorem emuEnv_text : cstr emuEnv = emuEnv ∧ emuEnv.length = 1392 := by
  unfold emuEnv
  repeat rw [bytes_ofList]
  decide +kernel

theorem envEmuRead_eq (len : UInt32) :
    envEmuRead len = .ok ⟨if len.toNat < 1392 then 0 else -1, 1392, [.print 0 len.toNat emuEnv]⟩ := by
  obtain ⟨htext, hlength⟩ := emuEnv_text
  have hresult : UInt32.ofInt (snprintfResult emuEnv) = 1392 := by
    rw [snprintfResult, hlength]
    decide
  rw [envEmuRead, formatText_str, htext, run_bind_ok, hresult]
  rfl

theorem apply_emu (buff : Bytes) (hsize : buff.length = len.toNat) :
    ∃ buff', applyAll buff [.print 0 len.toNat emuEnv] = .ok buff' := by
  have hlength := emuEnv_text.2
  rw [applyAll_singleton]
  rcases Nat.eq_zero_or_pos len.toNat with hzero | hpos
  · rw [hzero]
    exact ⟨buff, apply_print_full (by omega)⟩
  · obtain ⟨buff', hbuff', -⟩ := @apply_print buff [] emuEnv List.nil_prefix
      (by rw [List.length_nil]; omega) (by omega)
    rw [List.length_nil, Nat.sub_zero, hsize] at hbuff'
    exact ⟨buff', hbuff'⟩

/-- The result is the right one only where it does not depend on the comparison. -/
theorem envEmuRead_obeys_iff :
    Obeys (envEmuRead len) emuEnv len ↔ len.toNat = emuEnv.length := by
  have hlength := emuEnv_text.2
  rw [hlength]
  constructor
  · rintro ⟨read, hread, ⟨hret, -⟩, -⟩
    rw [envEmuRead_eq] at hread
    rw [← Except.ok.inj hread, hlength] at hret
    dsimp only at hret
    split at hret <;> split at hret
    · omega
    · exact absurd hret (by decide)
    · exact absurd hret (by decide)
    · omega
  · intro hlen
    refine ⟨_, envEmuRead_eq len, ⟨?_, fun _ => ?_⟩, fun buff hsize => apply_emu buff hsize⟩
    · rw [hlength, if_neg (by omega), if_neg (by omega)]
    · rw [hlength]
      rfl

/-- **One contract for both.** The device and the emulator keep it for a buffer exactly if the
buffer has the length of the emulator's text, without room for its NUL, and the device does not
print behind it. -/
theorem env_reads_agree_iff (env : List (Bytes × Bytes)) (len : UInt32) :
    Obeys (envRead env len) (envRendering env) len ∧ Obeys (envEmuRead len) emuEnv len ↔
      len.toNat = emuEnv.length ∧ (∀ v ∈ env, (envEntry v).length < 2 ^ 31) ∧
        (envFront env).length ≤ len.toNat := by
  have hlength := emuEnv_text.2
  rw [envEmuRead_obeys_iff]
  constructor
  · rintro ⟨hdevice, hlen⟩
    exact ⟨hlen, (envRead_obeys_iff (by omega) (by omega)).mp hdevice⟩
  · rintro ⟨hlen, hdevice⟩
    exact ⟨(envRead_obeys_iff (by omega) (by omega)).mpr hdevice, hlen⟩

/-- 4096 bytes are enough for the emulator's text, and the result is -1. -/
theorem env_reads_agree_emu :
    envEmuRead 4096 = .ok ⟨-1, 1392, [.print 0 4096 emuEnv]⟩ ∧
      ¬Obeys (envEmuRead 4096) emuEnv 4096 := by
  refine ⟨envEmuRead_eq 4096, fun hobeys => ?_⟩
  have hlen := envEmuRead_obeys_iff.mp hobeys
  rw [emuEnv_text.2] at hlen
  exact absurd hlen (by decide)

end AtxSys
