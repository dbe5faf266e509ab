import AtxSys.EnvRoute
import AtxSys.Proof.Env

/-!
# The text in the buffer

What `env_read` leaves in a buffer: the text grows from the front, each `snprintf` terminates it,
and a comma or the brace in the last byte takes the terminator away.
-/

namespace AtxSys

open CText Slices

/-! ### One access -/

section Access

variable {buff buff' text : Bytes}

theorem applyAll_append (buff : Bytes) (accesses more : List BuffAccess) :
    applyAll buff (accesses ++ more) =
      (applyAll buff accesses >>= fun buff => applyAll buff more) := by
  induction accesses generalizing buff with
  | nil => rfl
  | cons access accesses ih =>
      rw [List.cons_append, applyAll, applyAll]
      cases access.apply buff with
      | error e => rfl
      | ok buff =>
          rw [run_bind_ok, run_bind_ok]
          exact ih buff

theorem applyAll_singleton (buff : Bytes) (access : BuffAccess) :
    applyAll buff [access] = access.apply buff := by
  rw [applyAll]
  cases access.apply buff <;> rfl

theorem apply_store {c : UInt8} (htext : text <+: buff) (hlt : text.length < buff.length) :
    ∃ buff', (BuffAccess.store text.length c).apply buff = .ok buff' ∧
      buff'.length = buff.length ∧ text ++ [c] <+: buff' := by
  refine ⟨buff.set text.length c, if_pos hlt, List.length_set .., ?_⟩
  rw [List.set_eq_take_append_cons_drop, if_pos hlt]
  exact prefix_overwrite htext [c] _

/-- `snprintf` puts what fits behind the text, and a NUL. -/
theorem apply_print {entry : Bytes} (htext : text <+: buff) (hlt : text.length < buff.length)
    (hentry : entry.length < 2 ^ 31) :
    ∃ buff', (BuffAccess.print text.length (buff.length - text.length) entry).apply buff =
        .ok buff' ∧ buff'.length = buff.length ∧
      text ++ (entry.take (buff.length - text.length - 1) ++ [0]) <+: buff' := by
  have hlength : (entry.take (buff.length - text.length - 1) ++ [0]).length ≤
      buff.length - text.length := by
    rw [List.length_append, List.length_take, List.length_singleton]
    omega
  rw [BuffAccess.apply, if_neg (by omega), if_neg (by omega)]
  generalize entry.take (buff.length - text.length - 1) ++ [0] = out at hlength
  refine ⟨_, if_pos (by omega), length_overwrite (by omega), prefix_overwrite htext out _⟩

theorem apply_print_full {entry : Bytes} {offset : Nat} (hentry : entry.length < 2 ^ 31) :
    (BuffAccess.print offset 0 entry).apply buff = .ok buff := by
  rw [BuffAccess.apply, if_neg (by omega), if_pos rfl]

theorem apply_print_ok {entry : Bytes} {offset size : Nat}
    (happly : (BuffAccess.print offset size entry).apply buff = .ok buff') :
    entry.length < 2 ^ 31 ∧ (size ≠ 0 → offset < buff.length) := by
  rw [BuffAccess.apply] at happly
  by_cases hentry : 2 ^ 31 ≤ entry.length
  · rw [if_pos hentry] at happly
    cases happly
  · rw [if_neg hentry] at happly
    refine ⟨Nat.not_le.mp hentry, fun hsize => ?_⟩
    rw [if_neg hsize] at happly
    dsimp only at happly
    split at happly
    · next hle =>
      rw [List.length_append, List.length_singleton] at hle
      omega
    · cases happly

theorem apply_length {access : BuffAccess} (happly : access.apply buff = .ok buff') :
    buff'.length = buff.length := by
  cases access with
  | store offset c =>
      rw [BuffAccess.apply] at happly
      split at happly
      · rw [← Except.ok.inj happly, List.length_set]
      · cases happly
  | print offset size entry =>
      have hentry := (apply_print_ok happly).1
      rw [BuffAccess.apply, if_neg (by omega)] at happly
      split at happly
      · rw [← Except.ok.inj happly]
      · dsimp only at happly
        split at happly
        · next hle => rw [← Except.ok.inj happly, length_overwrite hle]
        · cases happly

/-- Each access of a run that ends is one that the buffer can take. -/
theorem apply_of_applyAll {accesses : List BuffAccess} {access : BuffAccess}
    (happly : applyAll buff accesses = .ok buff') (hmem : access ∈ accesses) :
    ∃ before after, before.length = buff.length ∧ access.apply before = .ok after := by
  induction accesses generalizing buff with
  | nil => cases hmem
  | cons first accesses ih =>
      obtain ⟨buff₁, hbuff₁, happly⟩ := run_bind_eq_ok happly
      cases hmem with
      | head => exact ⟨buff, buff₁, rfl, hbuff₁⟩
      | tail _ hmem =>
          obtain ⟨before, after, hlength, hafter⟩ := ih happly hmem
          exact ⟨before, after, hlength.trans (apply_length hbuff₁), hafter⟩

theorem applyAll_length {accesses : List BuffAccess} (happly : applyAll buff accesses = .ok buff') :
    buff'.length = buff.length := by
  induction accesses generalizing buff with
  | nil => rw [← Except.ok.inj happly]
  | cons first accesses ih =>
      obtain ⟨buff₁, hbuff₁, happly⟩ := run_bind_eq_ok happly
      exact (ih happly).trans (apply_length hbuff₁)

end Access

/-! ### The loop -/

/-- The variables before the last one, with their commas. -/
def envFront (env : List (Bytes × Bytes)) : Bytes :=
  env.dropLast.flatMap fun v => envEntry v ++ [comma]

theorem envFront_cons (v w : Bytes × Bytes) (rest : List (Bytes × Bytes)) :
    envFront (v :: w :: rest) = envEntry v ++ comma :: envFront (w :: rest) := by
  simp [envFront]

theorem envFront_singleton (v : Bytes × Bytes) : (envFront [v]).length = 0 := rfl

theorem one_lt_envFront (v : Bytes × Bytes) {rest : List (Bytes × Bytes)} (hrest : rest ≠ []) :
    1 < (envFront (v :: rest)).length := by
  obtain ⟨w, rest, rfl⟩ := List.exists_cons_of_ne_nil hrest
  have hpos := envEntry_pos v
  rw [envFront_cons, List.length_append, List.length_cons]
  omega

/-- The variables with commas between them. -/
def envBody (env : List (Bytes × Bytes)) : Bytes := List.intercalate [comma] (env.map envEntry)

theorem envBody_cons (v w : Bytes × Bytes) (rest : List (Bytes × Bytes)) :
    envBody (v :: w :: rest) = envEntry v ++ comma :: envBody (w :: rest) := by
  simp [envBody, List.intercalate]

/-- What the loop makes of a buffer that begins with a text, and the count `b`. -/
inductive LoopBuffer (len : UInt32) (text : Bytes) (env : List (Bytes × Bytes)) (b : UInt32)
    (r : Run Bytes) : Prop where
  /-- a variable is printed behind the buffer -/
  | outside (hfront : len.toNat + 1 < text.length + (envFront env).length)
      (hr : ∀ buff, r ≠ .ok buff)
  /-- the last comma is the last byte -/
  | covered {buff : Bytes} (hfront : text.length + (envFront env).length = len.toNat)
      (hb : len.toNat ≤ b.toNat) (hr : r = .ok buff) (hzero : 0 ∉ buff)
  | cut {buff : Bytes} (hfront : text.length + (envFront env).length ≤ len.toNat + 1)
      (hne : text.length + (envFront env).length ≠ len.toNat)
      (htotal : len.toNat ≤ text.length + (envBody env).length)
      (hb : len.toNat ≤ b.toNat) (hr : r = .ok buff) (hzero : 0 ∈ buff)
  | fits {buff : Bytes} (htotal : text.length + (envBody env).length < len.toNat)
      (hb : b.toNat = text.length + (envBody env).length) (hr : r = .ok buff)
      (htext : text ++ envBody env <+: buff)

section Loop

variable {len b : UInt32} {buff text : Bytes} {accesses : List BuffAccess} {v w : Bytes × Bytes}
  {rest env : List (Bytes × Bytes)}

/-- Once `b` is behind the buffer, the next variable leaves it. -/
theorem envLoop_behind (henv : env ≠ []) (hsize : buff.length = len.toNat)
    (hb : len.toNat < b.toNat) :
    ∃ b' more, envLoop len env b accesses = .ok (b', accesses ++ more) ∧
      ∀ buff', applyAll buff more ≠ .ok buff' := by
  obtain ⟨v, rest, rfl⟩ := List.exists_cons_of_ne_nil henv
  obtain ⟨b', more, hloop, hfirst⟩ := @envLoop_ok len (v :: rest) b accesses
  refine ⟨b', more, hloop, fun buff' happly => ?_⟩
  obtain ⟨before, after, hlength, hafter⟩ := apply_of_applyAll happly (hfirst v rfl)
  have hwrapped : (len - b).toNat ≠ 0 := by
    rw [UInt32.toNat_sub]
    have := b.toNat_lt
    omega
  have hinside := (apply_print_ok hafter).2 hwrapped
  omega

theorem print_full (hentry : (envEntry v).length < 2 ^ 31) (hb : b.toNat = len.toNat) :
    (BuffAccess.print b.toNat (len - b).toNat (envEntry v)).apply buff = .ok buff := by
  obtain rfl := UInt32.toNat_inj.mp hb
  rw [UInt32.sub_self]
  exact apply_print_full hentry

/-- After the print of a variable that the buffer has room for, the text has grown by it. -/
theorem print_entry (hentry : (envEntry v).length < 2 ^ 31) (hb : b.toNat = text.length)
    (htext : text <+: buff) (hsize : buff.length = len.toNat) (hlt : text.length < len.toNat) :
    ∃ buff', (BuffAccess.print b.toNat (len - b).toNat (envEntry v)).apply buff = .ok buff' ∧
      buff'.length = len.toNat ∧
      text ++ ((envEntry v).take (len.toNat - text.length - 1) ++ [0]) <+: buff' := by
  have hroom : (len - b).toNat = buff.length - text.length := by
    rw [UInt32.toNat_sub_of_le len b (UInt32.le_iff_toNat_le.mpr (by omega)), hsize, hb]
  rw [hroom, hb, ← hsize]
  exact apply_print htext (by omega) hentry

theorem zero_mem_of_print {entry : Bytes} (htext : text ++ (entry ++ [0]) <+: buff) : 0 ∈ buff :=
  htext.subset (by simp)

theorem grown_of_print {entry : Bytes} (htext : text ++ (entry ++ [0]) <+: buff) :
    text ++ entry <+: buff := by
  refine List.IsPrefix.trans ⟨[0], ?_⟩ htext
  rw [List.append_assoc]

/-- With `b` at the end of the buffer, the last variable changes nothing, and after any other one
the next leaves the buffer. -/
theorem envLoop_at_end (hroom : EnvRoom len (v :: rest) b.toNat) (hb : b.toNat = len.toNat)
    (hsize : buff.length = len.toNat) :
    ∃ b' more, envLoop len (v :: rest) b accesses = .ok (b', accesses ++ more) ∧
      (rest = [] → len.toNat ≤ b'.toNat ∧ applyAll buff more = .ok buff) ∧
      (rest ≠ [] → ∀ buff', applyAll buff more ≠ .ok buff') := by
  have hentry := hroom.entry v List.mem_cons_self
  have hpos := envEntry_pos v
  have hb₁ := hroom.add (by omega)
  generalize hnext : b + UInt32.ofInt (snprintfResult (envEntry v)) = b₁ at hb₁
  have happly : ∀ more, applyAll buff
      (.print b.toNat (len - b).toNat (envEntry v) :: more) = applyAll buff more := by
    intro more
    rw [applyAll, print_full hentry hb, run_bind_ok]
  cases rest with
  | nil =>
      refine ⟨b₁, [.print b.toNat (len - b).toNat (envEntry v)], ?_, fun _ => ⟨by omega, happly []⟩,
        fun hrest => absurd rfl hrest⟩
      rw [envLoop_full hnext (.inl rfl), envLoop]
  | cons w rest =>
      obtain ⟨b', more, hloop, hout⟩ := @envLoop_behind len b₁ buff
        (accesses ++ [.print b.toNat (len - b).toNat (envEntry v)]) (w :: rest)
        (List.cons_ne_nil w rest) hsize (by omega)
      refine ⟨b', .print b.toNat (len - b).toNat (envEntry v) :: more, ?_,
        fun hrest => absurd hrest (List.cons_ne_nil w rest), ?_⟩
      · rw [envLoop_full hnext (.inr (UInt32.le_iff_toNat_le.mpr (by omega))), hloop,
          List.append_assoc]
        rfl
      · intro _ buff' hok
        exact hout buff' ((happly more).symm.trans hok)

theorem zero_notMem_envEntry (v : Bytes × Bytes) : 0 ∉ envEntry v := by
  have hname := zero_notMem_cstr v.1
  have hvalue := zero_notMem_envTemp v.2
  simp [envEntry, bytes, hname, hvalue, quote]

theorem envFront_cons_length (v w : Bytes × Bytes) (rest : List (Bytes × Bytes)) :
    (envFront (v :: w :: rest)).length =
      (envEntry v).length + 1 + (envFront (w :: rest)).length := by
  rw [envFront_cons, List.length_append, List.length_cons]
  omega

theorem envBody_cons_length (v w : Bytes × Bytes) (rest : List (Bytes × Bytes)) :
    (envBody (v :: w :: rest)).length =
      (envEntry v).length + 1 + (envBody (w :: rest)).length := by
  rw [envBody_cons, List.length_append, List.length_cons]
  omega

theorem LoopBuffer.separate {r : Run Bytes}
    (h : LoopBuffer len (text ++ (envEntry v ++ [comma])) (w :: rest) b r) :
    LoopBuffer len text (v :: w :: rest) b r := by
  have hfront := envFront_cons_length v w rest
  have hbody := envBody_cons_length v w rest
  have hlength : (text ++ (envEntry v ++ [comma])).length =
      text.length + ((envEntry v).length + 1) := by
    simp
  cases h with
  | outside hout hr => exact .outside (by omega) hr
  | covered hcomma hb hr hzero => exact .covered (by omega) hb hr hzero
  | cut hle hne htotal hb hr hzero => exact .cut (by omega) (by omega) (by omega) hb hr hzero
  | fits htotal hb hr htext =>
      refine .fits (by omega) (by omega) hr ?_
      rw [envBody_cons]
      simpa using htext

/-- A comma took the last byte. -/
theorem envLoop_covered (hroom : EnvRoom len (w :: rest) b.toNat)
    (hb : b.toNat = text.length + (envEntry v).length + 1) (hend : b.toNat = len.toNat)
    (hsize : buff.length = len.toNat) (hzero : 0 ∉ buff) :
    ∃ b' more, envLoop len (w :: rest) b accesses = .ok (b', accesses ++ more) ∧
      LoopBuffer len text (v :: w :: rest) b' (applyAll buff more) := by
  have hfront := envFront_cons_length v w rest
  obtain ⟨b', more, hloop, hlast, hout⟩ := @envLoop_at_end len b buff accesses w rest hroom hend
    hsize
  refine ⟨b', more, hloop, ?_⟩
  by_cases hnil : rest = []
  · obtain ⟨hb', hsame⟩ := hlast hnil
    subst hnil
    rw [envFront_singleton] at hfront
    exact .covered (by omega) hb' hsame hzero
  · have hpair := one_lt_envFront w hnil
    exact .outside (by omega) (hout hnil)

/-- A variable took the last byte, or more. -/
theorem envLoop_cut (hroom : b.toNat = len.toNat → EnvRoom len (w :: rest) b.toNat)
    (hb : b.toNat = text.length + (envEntry v).length) (hend : len.toNat ≤ b.toNat)
    (hsize : buff.length = len.toNat) (hzero : 0 ∈ buff) :
    ∃ b' more, envLoop len (w :: rest) b accesses = .ok (b', accesses ++ more) ∧
      LoopBuffer len text (v :: w :: rest) b' (applyAll buff more) := by
  have hfront := envFront_cons_length v w rest
  have hbody := envBody_cons_length v w rest
  rcases Nat.eq_or_lt_of_le hend with heq | hbehind
  · obtain ⟨b', more, hloop, hlast, hout⟩ := @envLoop_at_end len b buff accesses w rest
      (hroom heq.symm) heq.symm hsize
    refine ⟨b', more, hloop, ?_⟩
    by_cases hnil : rest = []
    · obtain ⟨hb', hsame⟩ := hlast hnil
      subst hnil
      rw [envFront_singleton] at hfront
      exact .cut (by omega) (by omega) (by omega) hb' hsame hzero
    · have hpair := one_lt_envFront w hnil
      exact .outside (by omega) (hout hnil)
  · obtain ⟨b', more, hloop, hout⟩ := @envLoop_behind len b buff accesses (w :: rest)
      (List.cons_ne_nil w rest) hsize hbehind
    exact ⟨b', more, hloop, .outside (by omega) hout⟩

theorem LoopBuffer.last {b' : UInt32} (hlt : text.length < len.toNat)
    (hb' : b'.toNat = text.length + (envEntry v).length)
    (htext : text ++ ((envEntry v).take (len.toNat - text.length - 1) ++ [0]) <+: buff) :
    LoopBuffer len text [v] b' (.ok buff) := by
  have hfront := envFront_singleton v
  have hbody : envBody [v] = envEntry v := by simp [envBody, List.intercalate]
  by_cases htotal : text.length + (envEntry v).length < len.toNat
  · rw [List.take_of_length_le (by omega)] at htext
    refine .fits (by rw [hbody]; exact htotal) (by rw [hbody]; exact hb') rfl ?_
    rw [hbody]
    exact grown_of_print htext
  · exact .cut (by omega) (by omega) (by rw [hbody]; omega) (by omega) rfl
      (zero_mem_of_print htext)

/-- The variable and the comma behind it fit. -/
theorem store_comma (htext : text ++ (envEntry v ++ [0]) <+: buff)
    (hb : b.toNat = text.length + (envEntry v).length) (hsize : buff.length = len.toNat)
    (hlt : b.toNat < len.toNat) :
    ∃ buff', (BuffAccess.store b.toNat comma).apply buff = .ok buff' ∧
      buff'.length = len.toNat ∧ text ++ (envEntry v ++ [comma]) <+: buff' := by
  have hgrown := grown_of_print htext
  have hplace : b.toNat = (text ++ envEntry v).length := by
    rw [List.length_append, hb]
  rw [hplace, ← hsize, ← List.append_assoc]
  exact apply_store hgrown (by omega)

/-- **The loop over a buffer.** -/
theorem envLoop_buffer (hroom : EnvRoom len env b.toNat)
    (hb : b.toNat = text.length) (htext : text <+: buff) (hsize : buff.length = len.toNat)
    (hlt : text.length < len.toNat) (hzero : 0 ∉ text) :
    ∃ b' more, envLoop len env b accesses = .ok (b', accesses ++ more) ∧
      LoopBuffer len text env b' (applyAll buff more) := by
  induction env generalizing b accesses text buff with
  | nil =>
      refine ⟨b, [], by rw [envLoop, List.append_nil], .fits ?_ ?_ rfl ?_⟩
      · exact hlt
      · exact hb
      · simpa [envBody, List.intercalate] using htext
  | cons v rest ih =>
      have hentry := hroom.entry v List.mem_cons_self
      have hb₁ := hroom.add (by omega)
      generalize hnext : b + UInt32.ofInt (snprintfResult (envEntry v)) = b₁ at hb₁
      obtain ⟨buff₁, hprint, hsize₁, htext₁⟩ := print_entry hentry hb htext hsize hlt
      have happly₁ : ∀ more, applyAll buff
          (.print b.toNat (len - b).toNat (envEntry v) :: more) = applyAll buff₁ more := by
        intro more
        rw [applyAll, hprint, run_bind_ok]
      cases rest with
      | nil =>
          refine ⟨b₁, [.print b.toNat (len - b).toNat (envEntry v)], ?_, ?_⟩
          · rw [envLoop_full hnext (.inl rfl), envLoop]
          · rw [happly₁, applyAll]
            exact .last hlt (by omega) htext₁
      | cons w rest =>
          rcases Nat.lt_or_ge b₁.toNat len.toNat with hcomma | hfull
          · rw [List.take_of_length_le (by omega)] at htext₁
            obtain ⟨buff₂, hstore, hsize₂, htext₂⟩ :=
              store_comma htext₁ (by omega) hsize₁ hcomma
            have happly₂ : ∀ more, applyAll buff (.print b.toNat (len - b).toNat (envEntry v) ::
                .store b₁.toNat comma :: more) = applyAll buff₂ more := by
              intro more
              rw [happly₁, applyAll, hstore, run_bind_ok]
            have hone := toNat_succ_of_lt hcomma
            have hlength : (b₁ + 1).toNat = (text ++ (envEntry v ++ [comma])).length := by
              simp only [List.length_append, List.length_singleton]
              omega
            have hzero₂ : 0 ∉ text ++ (envEntry v ++ [comma]) := by
              simp [hzero, zero_notMem_envEntry v, comma]
            have hroom₂ : EnvRoom len (w :: rest) (b₁ + 1).toNat := hroom.tail (by omega)
            have hrest : ∃ b' more, envLoop len (w :: rest) (b₁ + 1) (accesses ++
                [.print b.toNat (len - b).toNat (envEntry v), .store b₁.toNat comma]) =
                  .ok (b', accesses ++
                    [.print b.toNat (len - b).toNat (envEntry v), .store b₁.toNat comma] ++ more) ∧
                LoopBuffer len text (v :: w :: rest) b' (applyAll buff₂ more) := by
              rcases Nat.lt_or_ge (b₁ + 1).toNat len.toNat with hmore | hend
              · obtain ⟨b', more, hloop, hbuffer⟩ := ih hroom₂ hlength htext₂ hsize₂ (by omega)
                  hzero₂
                exact ⟨b', more, hloop, hbuffer.separate⟩
              · have heq := htext₂.eq_of_length (by omega)
                exact envLoop_covered hroom₂ (by omega) (by omega) hsize₂ (heq ▸ hzero₂)
            obtain ⟨b', more, hloop, hbuffer⟩ := hrest
            refine ⟨b', .print b.toNat (len - b).toNat (envEntry v) ::
              .store b₁.toNat comma :: more, ?_, ?_⟩
            · rw [envLoop_comma (List.cons_ne_nil w rest) hnext
                (UInt32.lt_iff_toNat_lt.mpr hcomma), hloop, List.append_assoc]
              rfl
            · rw [happly₂]
              exact hbuffer
          · obtain ⟨b', more, hloop, hbuffer⟩ := @envLoop_cut len b₁ buff₁ text
              (accesses ++ [.print b.toNat (len - b).toNat (envEntry v)]) v w rest
              (fun hend => hroom.tail (by omega)) (by omega) hfull hsize₁
              (zero_mem_of_print htext₁)
            refine ⟨b', .print b.toNat (len - b).toNat (envEntry v) :: more, ?_, ?_⟩
            · rw [envLoop_full hnext (.inr (UInt32.le_iff_toNat_le.mpr hfull)), hloop,
                List.append_assoc]
              rfl
            · rw [happly₁]
              exact hbuffer

end Loop

/-! ### The whole call -/

section Read

variable {env : List (Bytes × Bytes)} {len : UInt32} {buff : Bytes}

theorem envRendering_eq (env : List (Bytes × Bytes)) :
    envRendering env = lbrace :: (envBody env ++ [rbrace]) := rfl

/-- What `env_read` leaves in a buffer of `len` bytes. -/
inductive ReadBuffer (env : List (Bytes × Bytes)) (len : UInt32) (read : EnvRead) (r : Run Bytes) :
    Prop where
  | outside (hfront : len.toNat < (envFront env).length) (hr : ∀ buff, r ≠ .ok buff)
  /-- a comma or the brace is the last byte -/
  | covered {buff : Bytes}
      (hlast : (envFront env).length + 1 = len.toNat ∨ (envRendering env).length = len.toNat)
      (hr : r = .ok buff) (hzero : 0 ∉ buff)
  | cut {buff : Bytes} (hfront : (envFront env).length ≤ len.toNat)
      (hne : (envFront env).length + 1 ≠ len.toNat)
      (htotal : len.toNat < (envRendering env).length) (hr : r = .ok buff) (hzero : 0 ∈ buff)
  | fits {buff : Bytes} (htotal : (envRendering env).length < len.toNat) (hret : read.ret = 0)
      (hb : read.b.toNat = (envRendering env).length) (hr : r = .ok buff)
      (htext : envRendering env ++ [0] <+: buff)

theorem zero_notMem_envBody (env : List (Bytes × Bytes)) : 0 ∉ envBody env := by
  induction env with
  | nil => simp [envBody, List.intercalate]
  | cons v rest ih =>
      cases rest with
      | nil => simpa [envBody, List.intercalate] using zero_notMem_envEntry v
      | cons w rest =>
          rw [envBody_cons]
          simp [zero_notMem_envEntry v, ih, comma]

theorem zero_notMem_envRendering (env : List (Bytes × Bytes)) : 0 ∉ envRendering env := by
  rw [envRendering_eq]
  simp [zero_notMem_envBody env, lbrace, rbrace]

theorem envFront_le_envBody (env : List (Bytes × Bytes)) :
    (envFront env).length ≤ (envBody env).length := by
  induction env with
  | nil => exact Nat.le_refl 0
  | cons v rest ih =>
      cases rest with
      | nil => exact Nat.zero_le _
      | cons w rest =>
          rw [envFront_cons_length, envBody_cons_length]
          omega

theorem envRendering_length_eq (env : List (Bytes × Bytes)) :
    (envRendering env).length = (envBody env).length + 2 := by
  rw [envRendering_length, joined_eq_length, envBody]

/-- The brace behind the variables. -/
theorem store_rbrace {b : UInt32} (htext : [lbrace] ++ envBody env <+: buff)
    (hb : b.toNat = ([lbrace] : Bytes).length + (envBody env).length)
    (hlt : b.toNat < buff.length) :
    ∃ buff', (BuffAccess.store b.toNat rbrace).apply buff = .ok buff' ∧
      buff'.length = buff.length ∧ envRendering env <+: buff' := by
  have hplace : b.toNat = ([lbrace] ++ envBody env).length := by
    rw [List.length_append]
    exact hb
  rw [hplace] at hlt ⊢
  exact apply_store htext hlt

/-- The end of `env_read` with room for the brace, and for the NUL if there is more. -/
theorem ReadBuffer.close {b : UInt32} {accesses : List BuffAccess}
    (hread : b.toNat + 1 = len.toNat ∧
        envRead env len = .ok ⟨-1, b + 1, accesses ++ [.store b.toNat rbrace]⟩ ∨
      b.toNat + 1 < len.toNat ∧ envRead env len = .ok
        ⟨0, b + 1, accesses ++ [.store b.toNat rbrace] ++ [.store (b.toNat + 1) 0]⟩)
    {buff₁ : Bytes} (happly : applyAll buff accesses = .ok buff₁)
    (hsize : buff₁.length = len.toNat) (htext : [lbrace] ++ envBody env <+: buff₁)
    (hb : b.toNat = ([lbrace] : Bytes).length + (envBody env).length) :
    ∃ read, envRead env len = .ok read ∧
      ReadBuffer env len read (applyAll buff read.accesses) := by
  have hlength := envRendering_length_eq env
  have hopening : ([lbrace] : Bytes).length = 1 := rfl
  obtain ⟨buff₂, hbrace, hsize₂, htext₂⟩ := store_rbrace htext hb (by omega)
  have hclosed : applyAll buff (accesses ++ [.store b.toNat rbrace]) = .ok buff₂ := by
    rw [applyAll_append, happly, run_bind_ok, applyAll_singleton]
    exact hbrace
  rcases hread with ⟨hend, hread⟩ | ⟨hend, hread⟩
  · refine ⟨_, hread, .covered (.inr (by omega)) hclosed ?_⟩
    rw [← htext₂.eq_of_length (by omega)]
    exact zero_notMem_envRendering env
  · have hnext : b.toNat + 1 = (envRendering env).length := by omega
    obtain ⟨buff₃, hnul, hsize₃, htext₃⟩ :=
      @apply_store buff₂ (envRendering env) 0 htext₂ (by omega)
    refine ⟨_, hread, .fits (by omega) rfl ?_ ?_ htext₃⟩
    · rw [@toNat_succ_of_lt len b (by omega), hnext]
    · rw [applyAll_append, hclosed, run_bind_ok, applyAll_singleton, hnext]
      exact hnul

/-- The brace and the NUL are stored behind the variables, where there is room. -/
theorem envRead_buffer (hlen : 1 < len.toNat) (hroom : EnvRoom len env 1)
    (hsize : buff.length = len.toNat) :
    ∃ read, envRead env len = .ok read ∧
      ReadBuffer env len read (applyAll buff read.accesses) := by
  have hlength := envRendering_length_eq env
  have hopening : ([lbrace] : Bytes).length = 1 := rfl
  have hne : len ≠ 0 := by
    rintro rfl
    exact absurd hlen (by decide)
  obtain ⟨buff₁, hopen, hsize₁, htext₁⟩ :=
    @apply_store buff [] lbrace (List.nil_prefix) (by rw [List.length_nil]; omega)
  obtain ⟨b, more, hloop, hbuffer⟩ := @envLoop_buffer len 1 buff₁ [lbrace] [.store 0 lbrace] env
    hroom rfl htext₁ (hsize₁.trans hsize) hlen (by decide)
  have happly : applyAll buff ([.store 0 lbrace] ++ more) = applyAll buff₁ more := by
    rw [applyAll_append, applyAll_singleton]
    change (BuffAccess.store ([] : Bytes).length lbrace).apply buff >>= _ = _
    rw [hopen]
    rfl
  have hread := @envRead_cases env len b ([.store 0 lbrace] ++ more) (by
    rw [if_pos hne]
    exact hloop)
  cases hbuffer with
  | outside hfront hr =>
      have hout : ∀ tail buff', applyAll buff ([.store 0 lbrace] ++ more ++ tail) ≠ .ok buff' := by
        intro tail buff' hok
        rw [applyAll_append, happly] at hok
        obtain ⟨buff₂, hbuff₂, -⟩ := run_bind_eq_ok hok
        exact hr buff₂ hbuff₂
      rcases hread with ⟨-, hread⟩ | ⟨-, hread⟩ | ⟨-, hread⟩
      · refine ⟨_, hread, .outside (by omega) ?_⟩
        rw [happly]
        exact hr
      · exact ⟨_, hread, .outside (by omega) (hout _)⟩
      · refine ⟨_, hread, .outside (by omega) ?_⟩
        dsimp only
        rw [List.append_assoc _ [BuffAccess.store b.toNat rbrace]]
        exact hout _
  | covered hfront hb hr hzero =>
      obtain ⟨-, hread⟩ := hread.resolve_right (by omega)
      exact ⟨_, hread, .covered (.inl (by omega)) (happly.trans hr) hzero⟩
  | cut hfront hne htotal hb hr hzero =>
      obtain ⟨-, hread⟩ := hread.resolve_right (by omega)
      exact ⟨_, hread, .cut (by omega) (by omega) (by omega) (happly.trans hr) hzero⟩
  | fits htotal hb hr htext =>
      have hsize₂ := applyAll_length hr
      exact ReadBuffer.close (hread.resolve_left (by omega)) (happly.trans hr) (by omega) htext hb

theorem lastOffset_envFront (v w : Bytes × Bytes) (rest : List (Bytes × Bytes)) (b : Nat) :
    lastOffset ((v :: w :: rest).map envEntry) b + 1 = b + (envFront (v :: w :: rest)).length := by
  induction rest generalizing v w b with
  | nil =>
      rw [envFront_cons_length, envFront_singleton]
      exact Nat.add_assoc b _ 1
  | cons u rest ih =>
      have hlast := ih w u (b + (envEntry v).length + 1)
      simp only [List.map_cons] at hlast ⊢
      rw [lastOffset, hlast, envFront_cons_length v w]
      · omega
      · simp
      · simp

theorem lastOffset_le_iff (hlen : 0 < len.toNat) :
    lastOffset (env.map envEntry) 1 ≤ len.toNat ↔ (envFront env).length ≤ len.toNat := by
  match env with
  | [] => exact iff_of_true hlen (Nat.zero_le _)
  | [v] => exact iff_of_true hlen (Nat.zero_le _)
  | v :: w :: rest =>
      have hlast := lastOffset_envFront v w rest 1
      omega

/-- If everything before the last variable fits, the result tells whether the whole text does, and
`*b` is its length if there is room for it. -/
theorem envRead_result (hlen : 0 < len.toNat) (hroom : EnvRoom len env 1)
    (hfront : (envFront env).length ≤ len.toNat) {read : EnvRead}
    (hread : envRead env len = .ok read) :
    read.ret = (if (envRendering env).length < len.toNat then 0 else -1) ∧
      ((envRendering env).length ≤ len.toNat → read.b.toNat = (envRendering env).length) := by
  have hlength := envRendering_length env
  have hopening : (if len ≠ 0 then [BuffAccess.store 0 lbrace] else []) = [.store 0 lbrace] := by
    apply if_pos
    rintro rfl
    exact absurd hlen (by decide)
  obtain ⟨b, more, hloop, hend⟩ := @envLoop_end len 1 [.store 0 lbrace] env hroom hlen
  have hcount : if 1 + joined (env.map envEntry) < len.toNat then
      b.toNat = 1 + joined (env.map envEntry) else len.toNat ≤ b.toNat :=
    hend.count ((lastOffset_le_iff hlen).mpr hfront)
  have hone : b.toNat < len.toNat → (b + 1).toNat = b.toNat + 1 := toNat_succ_of_lt
  rcases envRead_cases (by rw [hopening]; exact hloop) with ⟨hb, hread'⟩ | ⟨hb, hread'⟩ | ⟨hb, hread'⟩
  · rw [Except.ok.inj (hread.symm.trans hread')]
    dsimp only
    split at hcount
    · omega
    · rw [if_neg (by omega)]
      exact ⟨rfl, fun _ => by omega⟩
  · rw [Except.ok.inj (hread.symm.trans hread')]
    dsimp only
    split at hcount
    · rw [if_neg (by omega)]
      exact ⟨rfl, fun _ => by omega⟩
    · omega
  · rw [Except.ok.inj (hread.symm.trans hread')]
    dsimp only
    split at hcount
    · rw [if_pos (by omega)]
      exact ⟨rfl, fun _ => by omega⟩
    · omega

theorem envRead_prints {read : EnvRead} (hread : envRead env len = .ok read) {v : Bytes × Bytes}
    (hv : v ∈ env) : ∃ offset size, .print offset size (envEntry v) ∈ read.accesses := by
  obtain ⟨b, more, hloop, hmem⟩ :=
    @envLoop_prints len env 1 (if len ≠ 0 then [.store 0 lbrace] else [])
  obtain ⟨offset, size, hprint⟩ := hmem v hv
  refine ⟨offset, size, ?_⟩
  rcases envRead_cases hloop with ⟨-, hread'⟩ | ⟨-, hread'⟩ | ⟨-, hread'⟩ <;>
    rw [← Except.ok.inj (hread'.symm.trans hread)] <;> simp [hprint]

/-- `snprintf` has printed every variable, so an `int` holds its length. -/
theorem entries_printed {read : EnvRead} {buff' : Bytes} (hread : envRead env len = .ok read)
    (happly : applyAll buff read.accesses = .ok buff') : ∀ v ∈ env, (envEntry v).length < 2 ^ 31 := by
  intro v hv
  obtain ⟨offset, size, hmem⟩ := envRead_prints hread hv
  obtain ⟨before, after, -, hafter⟩ := apply_of_applyAll happly hmem
  exact (apply_print_ok hafter).1

end Read

/-! ### The answer with every variable -/

/-- The buffer of the route holds a string after `env_read`: no variable is printed behind it, and
neither a comma nor the brace takes its last byte. -/
structure EnvTerminated (vars : List (Bytes × Bytes)) : Prop where
  entry : ∀ v ∈ vars, (envEntry v).length < 2 ^ 31
  inside : (envFront vars).length ≤ envBufferSize
  comma : (envFront vars).length + 1 ≠ envBufferSize
  brace : (envRendering vars).length ≠ envBufferSize

section GetAll

variable {vars : List (Bytes × Bytes)} {buffer : EnvBuffer}

theorem envGetAll_text {buff : Bytes} {read : EnvRead}
    (hread : envRead vars (UInt32.ofNat envBufferSize) = .ok read)
    (happly : applyAll buffer.bytes read.accesses = .ok buff) :
    (∃ response, envGetAll vars buffer = .ok response) ↔ 0 ∈ buff := by
  rw [envGetAll, hread, run_bind_ok, happly, run_bind_ok, arrayText]
  split
  · next hzero =>
    refine iff_of_true ⟨⟨200, bytes "application/json", (cstr (cstr buff)).length,
      cstr (cstr buff)⟩, ?_⟩ hzero
    rw [run_bind_ok, httpPrintfJson, cstr_eq_self (by decide), formatText_str]
    rfl
  · next hzero =>
    refine iff_of_false ?_ hzero
    rintro ⟨response, hresponse⟩
    cases hresponse

theorem envGetAll_of_entry (hentry : ∀ v ∈ vars, (envEntry v).length < 2 ^ 31) :
    (∃ response, envGetAll vars buffer = .ok response) ↔ EnvTerminated vars := by
  have hsize : buffer.bytes.length = (UInt32.ofNat envBufferSize).toNat := buffer.hsize
  have hfull : (UInt32.ofNat envBufferSize).toNat = envBufferSize := rfl
  have hlength := envRendering_length_eq vars
  have hle := envFront_le_envBody vars
  obtain ⟨read, hread, hbuffer⟩ := @envRead_buffer vars (.ofNat envBufferSize) buffer.bytes
    (by decide) ⟨hentry, .inl (by decide)⟩ hsize
  rw [hfull] at hsize
  cases hbuffer with
  | outside hfront hr =>
      rw [hfull] at hfront
      refine iff_of_false ?_ fun h => absurd h.inside (by omega)
      rintro ⟨response, hresponse⟩
      obtain ⟨read', hread', hrest⟩ := run_bind_eq_ok hresponse
      obtain rfl := Except.ok.inj (hread.symm.trans hread')
      obtain ⟨buff, happly, -⟩ := run_bind_eq_ok hrest
      exact hr buff happly
  | covered hlast hr hzero =>
      rw [hfull] at hlast
      rw [envGetAll_text hread hr]
      exact iff_of_false hzero fun h => hlast.elim h.comma h.brace
  | cut hfront hne htotal hr hzero =>
      rw [hfull] at hfront hne htotal
      rw [envGetAll_text hread hr]
      exact iff_of_true hzero ⟨hentry, hfront, hne, by omega⟩
  | fits htotal hret hb hr htext =>
      rw [hfull] at htotal
      rw [envGetAll_text hread hr]
      exact iff_of_true (htext.subset (by simp)) ⟨hentry, by omega, by omega, by omega⟩

/-- The environment is answered exactly if the buffer holds a string. -/
theorem envGetAll_iff :
    (∃ response, envGetAll vars buffer = .ok response) ↔ EnvTerminated vars := by
  by_cases hentry : ∀ v ∈ vars, (envEntry v).length < 2 ^ 31
  · exact envGetAll_of_entry hentry
  · refine iff_of_false ?_ fun h => hentry h.entry
    rintro ⟨response, hresponse⟩
    obtain ⟨read, hread, hrest⟩ := run_bind_eq_ok hresponse
    obtain ⟨buff, happly, -⟩ := run_bind_eq_ok hrest
    exact hentry (entries_printed hread happly)

/-- The body is the string that `env_read` has left in the buffer. -/
theorem envGetAll_body {response : Response} (hget : envGetAll vars buffer = .ok response) :
    ∃ read buff, envRead vars (UInt32.ofNat envBufferSize) = .ok read ∧
      applyAll buffer.bytes read.accesses = .ok buff ∧ 0 ∈ buff ∧ response.body = cstr buff := by
  obtain ⟨read, hread, hget⟩ := run_bind_eq_ok hget
  obtain ⟨buff, happly, hget⟩ := run_bind_eq_ok hget
  obtain ⟨text, htext, hget⟩ := run_bind_eq_ok hget
  rw [httpPrintfJson, cstr_eq_self (by decide), formatText_str, run_bind_ok] at hget
  rw [arrayText] at htext
  split at htext
  · next hzero =>
    refine ⟨read, buff, hread, happly, hzero, ?_⟩
    rw [← Except.ok.inj hget, ← Except.ok.inj htext]
    exact cstr_eq_self (zero_notMem_cstr buff)
  · cases htext

/-- What is answered is no longer than the buffer. -/
theorem envGetAll_length {response : Response} (hget : envGetAll vars buffer = .ok response) :
    response.body.length ≤ envBufferSize := by
  obtain ⟨read, buff, hread, happly, -, hbody⟩ := envGetAll_body hget
  rw [hbody]
  calc
    (cstr buff).length ≤ buff.length := cstr_length_le _
    _ = buffer.bytes.length := applyAll_length happly
    _ = envBufferSize := buffer.hsize

end GetAll

end AtxSys
