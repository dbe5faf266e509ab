import AtxSys.Env
import Mathlib.Data.List.Basic
import Mathlib.Tactic.Common

/-!
# Where `env_read` writes

`*b` counts the length that `snprintf` would have written, so after a variable that does not fit it
points behind the buffer, and the next `snprintf` is called there with a size that wrapped around.
`envRead_contract_iff` says when that happens.
-/

namespace AtxSys

open CText

/-! ### The rendering -/

def envEntry (v : Bytes × Bytes) : Bytes :=
  quote :: cstr v.1 ++ bytes "\":\"" ++ envTemp v.2 ++ [quote]

/-- The text that `env_read` makes of an environment, each value cut to what `temp` holds. -/
def envRendering (env : List (Bytes × Bytes)) : Bytes :=
  lbrace :: List.intercalate [comma] (env.map envEntry) ++ [rbrace]

/-- The access stays inside a buffer of `len` bytes, and the size of a `snprintf` did not wrap. -/
def BuffAccess.Inside (len : Nat) : BuffAccess → Prop
  | .store offset _ => offset < len
  | .print offset size _ => offset ≤ len ∧ size = len - offset

/-- Accesses stay inside the buffer, and the result tells whether the rendering and its NUL fit. -/
structure EnvContract (env : List (Bytes × Bytes)) (len : UInt32) (r : EnvRead) : Prop where
  inside : ∀ access ∈ r.accesses, access.Inside len.toNat
  result : r.ret = 0 ∧ (envRendering env).length + 1 ≤ len.toNat ∨
    r.ret = -1 ∧ len.toNat < (envRendering env).length + 1

theorem zero_notMem_envTemp (value : Bytes) : 0 ∉ envTemp value := by
  intro hmem
  obtain ⟨c, hc, hzero⟩ := List.mem_map.mp hmem
  split at hzero
  · cases hzero
  · subst hzero
    exact zero_notMem_cstr value (List.mem_of_mem_take hc)

theorem envEntry_format (v : Bytes × Bytes) :
    formatText envEntryFormat [.str v.1, .str (envTemp v.2)] =
      .ok (envEntry v) := by
  apply formatText_eq_ok
  rw [envEntryFormat, vformat_append (by decide), vformat_str, vformat_append (by decide),
    vformat_str, vformat_text (by decide), cstr_eq_self (zero_notMem_envTemp v.2)]
  simp [envEntry, bytes]

theorem envEntry_pos (v : Bytes × Bytes) : 0 < (envEntry v).length := by
  simp [envEntry]

/-! ### Offsets -/

/-- The length of the entries with commas between them. -/
def joined : List Bytes → Nat
  | [] => 0
  | [e] => e.length
  | e :: es => e.length + 1 + joined es

/-- Where the last entry comes if the text starts at `b`, without the comma before it. -/
def lastOffset : List Bytes → Nat → Nat
  | [], b => b
  | [_], b => b
  | [e, _], b => b + e.length
  | e :: es, b => lastOffset es (b + e.length + 1)

theorem joined_cons (e e' : Bytes) (es : List Bytes) :
    joined (e :: e' :: es) = e.length + 1 + joined (e' :: es) := by
  rw [joined]
  simp

theorem joined_eq_length (es : List Bytes) :
    joined es = (List.intercalate [comma] es).length := by
  induction es with
  | nil => rfl
  | cons e es ih =>
      cases es with
      | nil => simp [joined, List.intercalate]
      | cons e' es =>
          rw [joined_cons, ih]
          simp [List.intercalate, Nat.add_assoc]
          omega

theorem le_lastOffset (es : List Bytes) (b : Nat) : b ≤ lastOffset es b := by
  induction es generalizing b with
  | nil => exact Nat.le_refl b
  | cons e es ih =>
      match es, ih with
      | [], _ => exact Nat.le_refl b
      | [_], _ => exact Nat.le_add_right b e.length
      | e' :: e'' :: es, ih =>
          have := ih (b + e.length + 1)
          rw [lastOffset]
          · omega
          · simp
          · simp

theorem lastOffset_cons (e e' : Bytes) (es : List Bytes) (b : Nat) :
    b + e.length ≤ lastOffset (e :: e' :: es) b := by
  cases es with
  | nil => exact Nat.le_refl _
  | cons e'' es =>
      have := le_lastOffset (e' :: e'' :: es) (b + e.length + 1)
      rw [lastOffset]
      · omega
      · simp
      · simp

theorem lastOffset_eq_length (e : Bytes) (es : List Bytes) (b : Nat) :
    lastOffset (e :: es) b =
      b + (List.intercalate [comma] (e :: es).dropLast).length := by
  induction es generalizing e b with
  | nil => simp [lastOffset, List.intercalate]
  | cons e' es ih =>
      cases es with
      | nil => simp [lastOffset, List.intercalate]
      | cons e'' es =>
          rw [lastOffset, ih e' (b + e.length + 1)]
          · simp [List.intercalate]
            omega
          · simp
          · simp

theorem lastOffset_comma {e e' : Bytes} {es : List Bytes} {b len : Nat} (hlt : b + e.length < len) :
    lastOffset (e :: e' :: es) b ≤ len ↔ lastOffset (e' :: es) (b + e.length + 1) ≤ len := by
  cases es with
  | nil =>
      change b + e.length ≤ len ↔ b + e.length + 1 ≤ len
      omega
  | cons e'' es =>
      rw [lastOffset]
      · simp
      · simp

theorem lastOffset_full {e e' : Bytes} {es : List Bytes} {b len : Nat} (heq : b + e.length = len)
    (hpos : 0 < e'.length) :
    lastOffset (e :: e' :: es) b ≤ len ↔ lastOffset (e' :: es) len ≤ len := by
  cases es with
  | nil =>
      change b + e.length ≤ len ↔ len ≤ len
      omega
  | cons e'' es =>
      have hbehind := le_lastOffset (e' :: e'' :: es) (b + e.length + 1)
      have hfirst := lastOffset_cons e' e'' es len
      rw [lastOffset]
      · omega
      · simp
      · simp

/-! ### The loop -/

section Loop

variable {len b : UInt32} {accesses : List BuffAccess}

theorem add_snprintfResult {text : Bytes} (htext : text.length < 2 ^ 31)
    (hwrap : b.toNat + text.length < 2 ^ 32) :
    (b + UInt32.ofInt (snprintfResult text)).toNat = b.toNat + text.length := by
  have hresult : (UInt32.ofInt (snprintfResult text)).toNat = text.length := by
    rw [snprintfResult, if_pos htext, UInt32.ofInt, UInt32.toNat_ofNat']
    omega
  rw [UInt32.toNat_add, hresult]
  exact Nat.mod_eq_of_lt hwrap

theorem toNat_succ_of_lt (hlt : b.toNat < len.toNat) : (b + 1).toNat = b.toNat + 1 := by
  have hlen := len.toNat_lt
  rw [UInt32.toNat_add]
  exact Nat.mod_eq_of_lt (by change b.toNat + 1 < _; omega)

theorem envLoop_comma {v : Bytes × Bytes} {rest : List (Bytes × Bytes)} {b' : UInt32}
    (hrest : rest ≠ []) (hb' : b + UInt32.ofInt (snprintfResult (envEntry v)) = b')
    (hlt : b' < len) :
    envLoop len (v :: rest) b accesses =
      envLoop len rest (b' + 1) (accesses ++
        [.print b.toNat (len - b).toNat (envEntry v), .store b'.toNat comma]) := by
  subst hb'
  rw [envLoop, envEntry_format, run_bind_ok, if_pos ⟨hrest, hlt⟩, List.append_assoc]
  rfl

theorem envLoop_full {v : Bytes × Bytes} {rest : List (Bytes × Bytes)} {b' : UInt32}
    (hb' : b + UInt32.ofInt (snprintfResult (envEntry v)) = b') (hend : rest = [] ∨ len ≤ b') :
    envLoop len (v :: rest) b accesses =
      envLoop len rest b' (accesses ++ [.print b.toNat (len - b).toNat (envEntry v)]) := by
  subst hb'
  have hnot : ¬ (rest ≠ [] ∧ b + UInt32.ofInt (snprintfResult (envEntry v)) < len) := by
    rintro ⟨hrest, hlt⟩
    exact hend.elim hrest fun hle => absurd hlt (UInt32.not_lt.mpr hle)
  rw [envLoop, envEntry_format, run_bind_ok, if_neg hnot]

/-- A round prints the variable, and may store a comma. -/
theorem envLoop_cons (v : Bytes × Bytes) (rest : List (Bytes × Bytes)) (b : UInt32)
    (accesses : List BuffAccess) :
    ∃ b' separator, envLoop len (v :: rest) b accesses = envLoop len rest b'
      (accesses ++ .print b.toNat (len - b).toNat (envEntry v) :: separator) := by
  by_cases hcomma : rest ≠ [] ∧ b + UInt32.ofInt (snprintfResult (envEntry v)) < len
  · exact ⟨_, _, envLoop_comma hcomma.1 rfl hcomma.2⟩
  · have hend : rest = [] ∨ len ≤ b + UInt32.ofInt (snprintfResult (envEntry v)) := by
      rcases Decidable.not_and_iff_or_not.mp hcomma with hrest | hlt
      · exact .inl (not_not.mp hrest)
      · exact .inr (UInt32.not_lt.mp hlt)
    exact ⟨_, [], envLoop_full rfl hend⟩

theorem envLoop_ok (env : List (Bytes × Bytes)) (b : UInt32) (accesses : List BuffAccess) :
    ∃ b' more, envLoop len env b accesses = .ok (b', accesses ++ more) ∧
      ∀ v ∈ env.head?, .print b.toNat (len - b).toNat (envEntry v) ∈ more := by
  induction env generalizing b accesses with
  | nil =>
      refine ⟨b, [], ?_, by simp⟩
      rw [envLoop, List.append_nil]
  | cons v rest ih =>
      obtain ⟨b₁, separator, hround⟩ := envLoop_cons v rest b accesses
      obtain ⟨b', more, hloop, -⟩ := ih b₁ _
      rw [hround, hloop, List.append_assoc]
      exact ⟨b', _, rfl, by simp⟩

/-- Every variable is printed. -/
theorem envLoop_prints (env : List (Bytes × Bytes)) (b : UInt32) (accesses : List BuffAccess) :
    ∃ b' more, envLoop len env b accesses = .ok (b', accesses ++ more) ∧
      ∀ v ∈ env, ∃ offset size, .print offset size (envEntry v) ∈ more := by
  induction env generalizing b accesses with
  | nil => exact ⟨b, [], by rw [envLoop, List.append_nil], by simp⟩
  | cons v rest ih =>
      obtain ⟨b₁, separator, hround⟩ := envLoop_cons v rest b accesses
      obtain ⟨b', more, hloop, hprints⟩ := ih b₁ _
      rw [hround, hloop, List.append_assoc]
      refine ⟨b', _, rfl, fun u hu => ?_⟩
      rcases List.mem_cons.mp hu with rfl | hu
      · exact ⟨b.toNat, (len - b).toNat, by simp⟩
      · obtain ⟨offset, size, hprint⟩ := hprints u hu
        exact ⟨offset, size, by simp [hprint]⟩

theorem print_inside {text : Bytes} :
    (BuffAccess.print b.toNat (len - b).toNat text).Inside len.toNat ↔ b.toNat ≤ len.toNat := by
  constructor
  · exact And.left
  · intro hb
    exact ⟨hb, UInt32.toNat_sub_of_le len b (UInt32.le_iff_toNat_le.mpr hb)⟩

/-- Once `b` is behind the buffer, the next `snprintf` leaves it. -/
theorem envLoop_outside {env : List (Bytes × Bytes)} {b' : UInt32} {more : List BuffAccess}
    (hloop : envLoop len env b accesses = .ok (b', accesses ++ more)) (henv : env ≠ [])
    (hb : len.toNat < b.toNat) : ¬∀ access ∈ more, access.Inside len.toNat := by
  intro hall
  obtain ⟨v, rest, rfl⟩ := List.exists_cons_of_ne_nil henv
  obtain ⟨b'', more', hloop', hfirst⟩ := @envLoop_ok len (v :: rest) b accesses
  rw [hloop] at hloop'
  have hmore : more = more' :=
    List.append_cancel_left (Prod.mk.inj (Except.ok.inj hloop')).2
  subst hmore
  have := print_inside.mp (hall _ (hfirst v rfl))
  omega

/-- The loop over `entries` from inside the buffer stays inside exactly if the last one starts
inside, and then `b` counts the whole text or ends behind the buffer. -/
structure LoopEnd (len : UInt32) (entries : List Bytes) (b : Nat) (b' : UInt32)
    (more : List BuffAccess) : Prop where
  inside : (∀ access ∈ more, access.Inside len.toNat) ↔ lastOffset entries b ≤ len.toNat
  count : lastOffset entries b ≤ len.toNat →
    if b + joined entries < len.toNat then b'.toNat = b + joined entries else len.toNat ≤ b'.toNat

section LoopEnd

variable {e e' : Bytes} {es : List Bytes} {n : Nat} {b' : UInt32} {access : BuffAccess}
  {more : List BuffAccess}

theorem LoopEnd.nil (hb : b.toNat ≤ len.toNat) : LoopEnd len [] b.toNat b [] where
  inside := by simpa [lastOffset] using hb
  count := by
    intro _
    rw [joined, Nat.add_zero]
    split
    · rfl
    · omega

theorem LoopEnd.last (hn : n ≤ len.toNat) (haccess : access.Inside len.toNat)
    (hb' : b'.toNat = n + e.length) : LoopEnd len [e] n b' [access] where
  inside := by simp [haccess, lastOffset, hn]
  count := by
    intro _
    rw [joined]
    split
    · exact hb'
    · omega

theorem LoopEnd.separate (h : LoopEnd len (e' :: es) (n + e.length + 1) b' more)
    (haccess : access.Inside len.toNat) (hlt : n + e.length < len.toNat) :
    LoopEnd len (e :: e' :: es) n b' (access :: .store (n + e.length) comma :: more) where
  inside := by
    have hstore : (BuffAccess.store (n + e.length) comma).Inside len.toNat := hlt
    rw [lastOffset_comma hlt, ← h.inside]
    simp [haccess, hstore]
  count := by
    intro hlast
    have hcount := h.count ((lastOffset_comma hlt).mp hlast)
    have hsum : n + e.length + 1 + joined (e' :: es) = n + joined (e :: e' :: es) := by
      rw [joined_cons]
      omega
    rwa [hsum] at hcount

theorem LoopEnd.full (h : LoopEnd len (e' :: es) len.toNat b' more)
    (haccess : access.Inside len.toNat) (heq : n + e.length = len.toNat) (hpos : 0 < e'.length) :
    LoopEnd len (e :: e' :: es) n b' (access :: more) where
  inside := by
    rw [lastOffset_full heq hpos, ← h.inside]
    simp [haccess]
  count := by
    intro hlast
    have hcount := h.count ((lastOffset_full heq hpos).mp hlast)
    rw [if_neg (by omega)] at hcount
    rw [joined_cons, if_neg (by omega)]
    exact hcount

theorem LoopEnd.outside (hgt : len.toNat < n + e.length)
    (hout : ¬∀ access ∈ more, access.Inside len.toNat) :
    LoopEnd len (e :: e' :: es) n b' (access :: more) := by
  have hbehind := lastOffset_cons e e' es n
  refine ⟨⟨?_, ?_⟩, ?_⟩
  · intro hall
    exact absurd (fun access hmem => hall access (List.mem_cons_of_mem _ hmem)) hout
  · omega
  · omega

end LoopEnd

/-- No counter of the loop wraps before the buffer is left. -/
structure EnvRoom (len : UInt32) (env : List (Bytes × Bytes)) (b : Nat) : Prop where
  entry : ∀ v ∈ env, (envEntry v).length < 2 ^ 31
  total : len.toNat ≤ 2 ^ 31 ∨ b + joined (env.map envEntry) < 2 ^ 32

theorem EnvRoom.tail {v w : Bytes × Bytes} {rest : List (Bytes × Bytes)} {n m : Nat}
    (h : EnvRoom len (v :: w :: rest) n) (hm : m ≤ n + (envEntry v).length + 1) :
    EnvRoom len (w :: rest) m where
  entry := fun u hu => h.entry u (List.mem_cons_of_mem v hu)
  total := by
    have htotal := h.total
    rw [List.map_cons, List.map_cons, joined_cons] at htotal
    rw [List.map_cons]
    omega

theorem EnvRoom.add {v : Bytes × Bytes} {rest : List (Bytes × Bytes)}
    (h : EnvRoom len (v :: rest) b.toNat) (hb : b.toNat ≤ len.toNat) :
    (b + UInt32.ofInt (snprintfResult (envEntry v))).toNat = b.toNat + (envEntry v).length := by
  have hv := h.entry v List.mem_cons_self
  have htotal := h.total
  have hjoined : (envEntry v).length ≤ joined ((v :: rest).map envEntry) := by
    cases rest with
    | nil => exact Nat.le_refl _
    | cons w rest =>
        rw [List.map_cons, List.map_cons, joined_cons]
        omega
  exact add_snprintfResult hv (by omega)

theorem envLoop_end {env : List (Bytes × Bytes)} (hroom : EnvRoom len env b.toNat)
    (hb : b.toNat ≤ len.toNat) :
    ∃ b' more, envLoop len env b accesses = .ok (b', accesses ++ more) ∧
      LoopEnd len (env.map envEntry) b.toNat b' more := by
  induction env generalizing b accesses with
  | nil => exact ⟨b, [], by rw [envLoop, List.append_nil], .nil hb⟩
  | cons v rest ih =>
      have hprint : (BuffAccess.print b.toNat (len - b).toNat (envEntry v)).Inside len.toNat :=
        print_inside.mpr hb
      have hb₁ := hroom.add hb
      generalize hnext : b + UInt32.ofInt (snprintfResult (envEntry v)) = b₁ at hb₁
      cases rest with
      | nil =>
          rw [envLoop_full hnext (.inl rfl), envLoop]
          exact ⟨b₁, _, rfl, .last hb hprint hb₁⟩
      | cons w rest =>
          rcases Nat.lt_trichotomy b₁.toNat len.toNat with hlt | heq | hgt
          · have hone : (b₁ + 1).toNat = b.toNat + (envEntry v).length + 1 := by
              rw [toNat_succ_of_lt hlt, hb₁]
            rw [envLoop_comma (List.cons_ne_nil w rest) hnext (UInt32.lt_iff_toNat_lt.mpr hlt)]
            have hroom₁ : EnvRoom len (w :: rest) (b₁ + 1).toNat := hroom.tail (by omega)
            obtain ⟨b', more, hloop, hend⟩ := ih hroom₁ (by omega)
            rw [hloop, List.append_assoc, hb₁]
            rw [hone] at hend
            exact ⟨b', _, rfl, hend.separate hprint (by omega)⟩
          · rw [envLoop_full hnext (.inr (UInt32.le_iff_toNat_le.mpr (by omega)))]
            have hroom₁ : EnvRoom len (w :: rest) b₁.toNat := hroom.tail (by omega)
            obtain ⟨b', more, hloop, hend⟩ := ih hroom₁ (by omega)
            rw [hloop, List.append_assoc]
            rw [heq] at hend
            exact ⟨b', _, rfl, hend.full hprint (by omega) (envEntry_pos w)⟩
          · rw [envLoop_full hnext (.inr (UInt32.le_iff_toNat_le.mpr (by omega)))]
            obtain ⟨b', more, hloop, -⟩ := @envLoop_ok len (w :: rest) b₁
              (accesses ++ [.print b.toNat (len - b).toNat (envEntry v)])
            have hout := envLoop_outside hloop (List.cons_ne_nil w rest) hgt
            rw [hloop, List.append_assoc]
            exact ⟨b', _, rfl, .outside (by omega) hout⟩

end Loop

/-! ### The whole text -/

theorem envRendering_length (env : List (Bytes × Bytes)) :
    (envRendering env).length = joined (env.map envEntry) + 2 := by
  rw [joined_eq_length]
  simp [envRendering]

theorem lastOffset_one {env : List (Bytes × Bytes)} (henv : env ≠ []) :
    lastOffset (env.map envEntry) 1 =
      (lbrace :: List.intercalate [comma] (env.map envEntry).dropLast).length := by
  obtain ⟨v, rest, rfl⟩ := List.exists_cons_of_ne_nil henv
  rw [List.map_cons, lastOffset_eq_length, List.length_cons, Nat.add_comm]

section Read

variable {env : List (Bytes × Bytes)} {len b : UInt32} {accesses : List BuffAccess}

/-- The closing brace and the NUL are guarded: neither has room, or the brace has, or both. -/
theorem envRead_cases
    (hloop : envLoop len env 1 (if len ≠ 0 then [.store 0 lbrace] else []) = .ok (b, accesses)) :
    len.toNat ≤ b.toNat ∧ envRead env len = .ok ⟨-1, b, accesses⟩ ∨
      b.toNat + 1 = len.toNat ∧
        envRead env len = .ok ⟨-1, b + 1, accesses ++ [.store b.toNat rbrace]⟩ ∨
      b.toNat + 1 < len.toNat ∧ envRead env len = .ok
        ⟨0, b + 1, accesses ++ [.store b.toNat rbrace] ++ [.store (b.toNat + 1) 0]⟩ := by
  by_cases hlt : b < len
  · have hb := UInt32.lt_iff_toNat_lt.mp hlt
    have hone := toNat_succ_of_lt hb
    by_cases hend : b + 1 < len
    · have hend' := UInt32.lt_iff_toNat_lt.mp hend
      refine .inr (.inr ⟨by omega, ?_⟩)
      simp only [envRead, hloop, run_bind_ok, if_pos hlt, if_pos hend, hone]
    · have hend' := UInt32.le_iff_toNat_le.mp (UInt32.not_lt.mp hend)
      refine .inr (.inl ⟨by omega, ?_⟩)
      simp only [envRead, hloop, run_bind_ok, if_pos hlt, if_neg hend]
  · refine .inl ⟨UInt32.le_iff_toNat_le.mp (UInt32.not_lt.mp hlt), ?_⟩
    simp only [envRead, hloop, run_bind_ok, if_neg hlt]

theorem envRead_of_loop
    (hloop : envLoop len env 1 (if len ≠ 0 then [.store 0 lbrace] else []) = .ok (b, accesses)) :
    ∃ r, envRead env len = .ok r ∧
      ((∀ access ∈ r.accesses, access.Inside len.toNat) ↔
        ∀ access ∈ accesses, access.Inside len.toNat) ∧
      r.ret = if b.toNat + 1 < len.toNat then 0 else -1 := by
  rcases envRead_cases hloop with ⟨hb, hread⟩ | ⟨hb, hread⟩ | ⟨hb, hread⟩
  · refine ⟨_, hread, Iff.rfl, ?_⟩
    rw [if_neg (by omega)]
  · have hbrace : (BuffAccess.store b.toNat rbrace).Inside len.toNat := by
      change b.toNat < len.toNat
      omega
    refine ⟨_, hread, by simp [hbrace, or_imp, forall_and], ?_⟩
    rw [if_neg (by omega)]
  · have hbrace : (BuffAccess.store b.toNat rbrace).Inside len.toNat := by
      change b.toNat < len.toNat
      omega
    have hzero : (BuffAccess.store (b.toNat + 1) 0).Inside len.toNat := hb
    refine ⟨_, hread, ?_, ?_⟩
    · simp only [List.mem_append, List.mem_singleton, or_imp, forall_and, forall_eq, hbrace,
        hzero, and_true]
    · rw [if_pos hb]

theorem envRead_room (hlen : 0 < len.toNat) (hroom : EnvRoom len env 1) :
    ∃ r, envRead env len = .ok r ∧
      (EnvContract env len r ↔ lastOffset (env.map envEntry) 1 ≤ len.toNat) := by
  have hlength := envRendering_length env
  have hopening : (if len ≠ 0 then [BuffAccess.store 0 lbrace] else []) = [.store 0 lbrace] := by
    apply if_pos
    rintro rfl
    exact absurd hlen (by decide)
  have hbrace : (BuffAccess.store 0 lbrace).Inside len.toNat := hlen
  obtain ⟨b, more, hloop, hend⟩ := @envLoop_end len 1 [.store 0 lbrace] env hroom hlen
  obtain ⟨r, hr, hinside, hret⟩ := envRead_of_loop (by rw [hopening]; exact hloop)
  have hiff : (∀ access ∈ r.accesses, access.Inside len.toNat) ↔
      lastOffset (env.map envEntry) 1 ≤ len.toNat := by
    rw [hinside]
    calc
      (∀ access ∈ [.store 0 lbrace] ++ more, access.Inside len.toNat) ↔
          ∀ access ∈ more, access.Inside len.toNat := by simp [hbrace]
      _ ↔ lastOffset (env.map envEntry) 1 ≤ len.toNat := hend.inside
  refine ⟨r, hr, fun h => hiff.mp h.inside, fun hlast => ⟨hiff.mpr hlast, ?_⟩⟩
  have hcount := hend.count hlast
  change if 1 + joined (env.map envEntry) < len.toNat then b.toNat = 1 + joined (env.map envEntry)
    else len.toNat ≤ b.toNat at hcount
  split at hcount
  · rw [hret, hcount]
    split
    · exact .inl ⟨rfl, by omega⟩
    · exact .inr ⟨rfl, by omega⟩
  · rw [hret, if_neg (by omega)]
    exact .inr ⟨rfl, by omega⟩

theorem envRead_empty (env : List (Bytes × Bytes)) :
    ∃ r, envRead env 0 = .ok r ∧ (EnvContract env 0 r ↔ env = []) := by
  obtain ⟨b, more, hloop, -⟩ := @envLoop_ok 0 env 1 []
  obtain ⟨r, hr, hinside, hret⟩ := @envRead_of_loop env 0 b _ hloop
  refine ⟨r, hr, ?_, ?_⟩
  · intro h
    by_contra henv
    exact envLoop_outside hloop henv (by decide) (hinside.mp h.inside)
  · rintro rfl
    rw [envLoop] at hloop
    obtain ⟨-, hmore⟩ := Prod.mk.inj (Except.ok.inj hloop)
    refine ⟨?_, .inr ⟨?_, by decide⟩⟩
    · rw [hinside, ← hmore]
      simp
    · rw [hret, if_neg (by simp)]

theorem envRead_ok (env : List (Bytes × Bytes)) (len : UInt32) : ∃ r, envRead env len = .ok r := by
  obtain ⟨b, more, hloop, -⟩ := @envLoop_ok len env 1 (if len ≠ 0 then [.store 0 lbrace] else [])
  obtain ⟨r, hr, -⟩ := envRead_of_loop hloop
  exact ⟨r, hr⟩

/-- As long as no counter wraps, `env_read` keeps to the buffer, and tells whether the text fits,
exactly if everything before the last variable fits. -/
theorem envRead_contract_iff (env : List (Bytes × Bytes)) (len : UInt32) :
    ∃ r, envRead env len = .ok r ∧
      (EnvRoom len env 1 →
        (EnvContract env len r ↔
          env = [] ∨
            (lbrace :: List.intercalate [comma] (env.map envEntry).dropLast).length ≤
              len.toNat)) := by
  obtain ⟨r, hr⟩ := envRead_ok env len
  refine ⟨r, hr, fun hroom => ?_⟩
  rcases Nat.eq_zero_or_pos len.toNat with hzero | hlen
  · have hlen : len = 0 := UInt32.toNat_inj.mp hzero
    subst hlen
    obtain ⟨r', hr', hcontract⟩ := envRead_empty env
    obtain rfl := Except.ok.inj (hr'.symm.trans hr)
    rw [hcontract]
    simp
  · obtain ⟨r', hr', hcontract⟩ := envRead_room hlen hroom
    obtain rfl := Except.ok.inj (hr'.symm.trans hr)
    rw [hcontract]
    by_cases henv : env = []
    · subst henv
      exact iff_of_true hlen (.inl rfl)
    · rw [lastOffset_one henv]
      simp [henv]

theorem envRead_contract_pair :
    ∃ r, envRead [(bytes "a", bytes "1"), (bytes "b", bytes "2")] 18 = .ok r ∧
      EnvContract [(bytes "a", bytes "1"), (bytes "b", bytes "2")] 18 r := by
  obtain ⟨r, hr, hcontract⟩ :=
    envRead_contract_iff [(bytes "a", bytes "1"), (bytes "b", bytes "2")] 18
  exact ⟨r, hr, (hcontract ⟨by decide, by decide⟩).mpr (.inr (by decide))⟩

/-- With four bytes, the second variable is printed at offset 8 with a size that wrapped. -/
theorem envRead_leaves_buffer :
    ∃ r, envRead [(bytes "a", bytes "1"), (bytes "b", bytes "2")] 4 = .ok r ∧
      .print 8 (2 ^ 32 - 4) (bytes "\"b\":\"2\"") ∈ r.accesses ∧
      ¬EnvContract [(bytes "a", bytes "1"), (bytes "b", bytes "2")] 4 r := by
  refine ⟨⟨-1, 15, [.store 0 lbrace, .print 1 3 (bytes "\"a\":\"1\""),
    .print 8 (2 ^ 32 - 4) (bytes "\"b\":\"2\"")]⟩, by decide, by simp, ?_⟩
  intro h
  have hprint := h.inside (.print 8 (2 ^ 32 - 4) (bytes "\"b\":\"2\"")) (by simp)
  exact absurd hprint.1 (by decide)

end Read

end AtxSys
