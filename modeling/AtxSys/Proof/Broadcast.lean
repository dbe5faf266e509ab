import AtxSys.Broadcast
import AtxSys.Lib.JsonPaste
import AtxSys.Proof.Upload

/-!
# Messages to the browsers

A message arrives whole exactly if it is short, has no `%` and nothing in it has to be escaped. A `%`
costs more than what it is replaced by, and no escape in the message can make up for it.
-/

namespace AtxSys

open CText JsonSyntax

/-! ### What is sent -/

/-- The text is an object with the type `info` and this message. -/
def SaysInfo (text payload : Bytes) : Prop :=
  ∃ fields, Decodes payload fields ∧
    (∀ x, (bytes "type", x) ∈ fields ↔ x = .str (bytes "info")) ∧
    ∀ x, (bytes "info", x) ∈ fields ↔ x = .str text

/-- Each websocket connection gets one frame, which is no longer than what was formatted and has the
message, and the others get none. -/
structure Told (connections : List Connection) (text : Bytes)
    (sent : List (Connection × TextFrame)) : Prop where
  each : sent.map Prod.fst = connections.filter (·.websocket)
  bounded : ∀ s ∈ sent, 0 ≤ s.2.len ∧ s.2.len ≤ s.2.data.length
  message : ∀ s ∈ sent, SaysInfo text (s.2.data.take s.2.len.toNat)

theorem broadcastLoop_eq (frame : TextFrame) (connections : List Connection) :
    broadcastLoop frame connections =
      (connections.filter (·.websocket)).map fun c => (c, frame) := by
  induction connections with
  | nil => rfl
  | cons c connections ih =>
      rw [broadcastLoop, List.filter_cons, ih]
      cases c.websocket <;> rfl

/-! ### The message -/

def infoFields (text : Bytes) : List (Bytes × Scalar) :=
  [(bytes "type", .str (bytes "info")), (bytes "info", .str text)]

/-- What `updater_progress_info` formats. -/
def infoText (text : Bytes) : Bytes :=
  bytes "\x7b\"type\":\"info\",\"info\":\"" ++ (text ++ bytes "\"\x7d")

theorem infoText_eq (text : Bytes) : infoText text = objectText (infoFields text) := by
  have hopen : bytes "\x7b\"type\":\"info\",\"info\":\"" =
      lbrace :: (quoted (bytes "type") ++ colon :: (quoted (bytes "info") ++
        comma :: (quoted (bytes "info") ++ [colon, quote]))) := by
    decide
  have hclose : bytes "\"\x7d" = [quote, rbrace] := by decide
  rw [infoText, hopen, hclose]
  simp [objectText, infoFields, fieldsText, Scalar.text, separator, quoted]

theorem infoText_length (text : Bytes) : (infoText text).length = 25 + text.length := by
  have hopen : (bytes "\x7b\"type\":\"info\",\"info\":\"").length = 23 := by decide
  have hclose : (bytes "\"\x7d").length = 2 := by decide
  rw [infoText, List.length_append, List.length_append, hopen, hclose]
  omega

theorem infoText_weigh (text : Bytes) :
    weigh formatWeight (infoText text) = weigh formatWeight text := by
  have hopen : weigh formatWeight (bytes "\x7b\"type\":\"info\",\"info\":\"") = 0 := by decide
  have hclose : weigh formatWeight (bytes "\"\x7d") = 0 := by decide
  rw [infoText, weigh_append, weigh_append, hopen, hclose]
  omega

theorem zero_notMem_infoText {text : Bytes} (h : 0 ∉ text) : 0 ∉ infoText text := by
  simp only [infoText, List.mem_append, h, false_or]
  decide

theorem percent_notMem_infoText {text : Bytes} (h : percent ∉ text) : percent ∉ infoText text := by
  simp only [infoText, List.mem_append, h, false_or]
  decide

theorem saysInfo_infoText {text : Bytes} (h : Plain text) : SaysInfo text (infoText text) := by
  have hnames : Plain (bytes "type") ∧ Plain (bytes "info") := by decide
  have hne : bytes "type" ≠ bytes "info" := by decide
  refine ⟨infoFields text, ?_, ?_, ?_⟩
  · rw [infoText_eq, decodes_objectText_iff]
    simp only [infoFields, List.forall_mem_cons, PlainField, Scalar.Plain, hnames, true_and]
    exact ⟨h, fun _ hmem => absurd hmem List.not_mem_nil⟩
  · simp [infoFields, hne]
  · simp [infoFields, hne.symm]

theorem absorbs_formatWeight : Absorbs formatWeight where
  le_backslash c := by
    have hbackslash : formatWeight backslash = 12 := by decide
    rw [hbackslash, formatWeight]
    split_ifs <;> decide
  le_ascii b hb c := by
    have hne : ∀ d : UInt8, d < 0x80 → b ≠ d := by
      rintro d hd rfl
      rw [UInt8.le_iff_toNat_le] at hb
      rw [UInt8.lt_iff_toNat_lt] at hd
      omega
    have hzero : formatWeight b = 0 := by
      rw [formatWeight, if_neg, if_neg (hne 0x63 (by decide))]
      exact not_or.mpr ⟨hne percent (by decide), hne backslash (by decide)⟩
    rw [hzero]
    exact Nat.zero_le _

section Says

variable {text payload : Bytes}

/-- Whatever else is in the object, it is no lighter than the message. -/
theorem SaysInfo.fields (h : SaysInfo text payload) :
    ∃ fields, Decodes payload fields ∧ (bytes "info", .str text) ∈ fields ∧
      ∀ w, weigh w (infoText text) ≤ weigh w (objectText fields) := by
  obtain ⟨fields, hdecodes, htype, hinfo⟩ := h
  have hmem := (hinfo (.str text)).mpr rfl
  have hne : (bytes "type", Scalar.str (bytes "info")) ≠ (bytes "info", .str text) := by
    intro heq
    exact absurd (Prod.mk.inj heq).1 (by decide)
  refine ⟨fields, hdecodes, hmem, fun w => ?_⟩
  have hpair := weigh_pair_le (w := w) ((htype _).mpr rfl) hmem hne true
  rw [infoText_eq, objectText, objectText, infoFields, weigh_cons, weigh_cons, weigh_append,
    weigh_append]
  exact Nat.add_le_add_left (Nat.add_le_add_right hpair _) _

theorem SaysInfo.weigh_le (h : SaysInfo text payload) :
    weigh formatWeight text ≤ weigh formatWeight payload := by
  obtain ⟨fields, hdecodes, -, hfields⟩ := h.fields
  rw [← infoText_weigh]
  exact Nat.le_trans (hfields formatWeight) (hdecodes.weigh_le absorbs_formatWeight)

theorem SaysInfo.length_le (h : SaysInfo text payload) : 25 + text.length ≤ payload.length := by
  obtain ⟨fields, hdecodes, -, hfields⟩ := h.fields
  have hlength := hfields fun _ => 1
  rw [weigh_one, weigh_one, infoText_length] at hlength
  exact Nat.le_trans hlength hdecodes.length_le

theorem SaysInfo.plain (h : SaysInfo text payload) (hlength : payload.length ≤ 25 + text.length) :
    Plain text := by
  obtain ⟨fields, hdecodes, hmem, hfields⟩ := h.fields
  have hobject := hfields fun _ => 1
  rw [weigh_one, weigh_one, infoText_length] at hobject
  exact (hdecodes.plain (Nat.le_trans hlength hobject) _ hmem).2

end Says

/-! ### The two formats -/

section Send

variable {connections : List Connection} {info : Bytes} {len : UInt32}

/-- A browser. -/
def browser : Connection := ⟨0, true⟩

theorem weigh_take_le (w : UInt8 → Nat) (s : Bytes) (n : Nat) :
    weigh w (s.take n) ≤ weigh w s := by
  have hsplit := congrArg (weigh w) (List.take_append_drop n s)
  rw [weigh_append] at hsplit
  omega

theorem vprintf_infoText (hmax : len.toNat ≤ 2048) (hzero : 0 ∉ info.take len.toNat) :
    vprintf progressInfoFormat [.int (toInt len.toNat), .str info] =
      some (infoText (info.take len.toNat)) := by
  have hint : toInt len.toNat = len.toNat := toInt_eq (by omega) (by omega)
  apply vprintf_of_vformat
  · intro n hn
    simp only [List.mem_cons, Arg.int.injEq, reduceCtorEq, List.not_mem_nil, or_false] at hn
    omega
  · rw [hint, progressInfoFormat, vformat_append (by decide), vformat_precision,
      cstr_eq_self hzero, vformat_text (by decide)]
    rfl

theorem updaterProgressInfo_eq (hmax : len.toNat ≤ 2048) (hzero : 0 ∉ info.take len.toNat)
    (hlen : len.toNat ≤ info.length) :
    updaterProgressInfo connections info len =
      httpBroadcastJson connections ((infoText (info.take len.toNat)).take (progressSize - 1))
        [.int (25 + len.toNat)] := by
  have hlength : (infoText (info.take len.toNat)).length = 25 + len.toNat := by
    rw [infoText_length, List.length_take, Nat.min_eq_left hlen]
  have hresult : snprintfResult (infoText (info.take len.toNat)) = 25 + len.toNat := by
    rw [snprintfResult, hlength, if_pos (by omega)]
    omega
  rw [updaterProgressInfo, printfText, vprintf_infoText hmax hzero]
  dsimp only
  rw [run_bind_ok, hresult]

/-- A message without a `%` is rendered as it is, whatever its argument. -/
theorem vprintf_message {text : Bytes} (hmax : len.toNat ≤ 2048) (h : percent ∉ text) :
    vprintf text [.int (25 + len.toNat)] = some text := by
  apply vprintf_of_vformat
  · intro n hn
    simp only [List.mem_singleton, Arg.int.injEq] at hn
    omega
  · exact vformat_text h _

/-- What a browser gets is a front of what the second format renders. -/
theorem httpBroadcastJson_browser {fmt : Bytes} {args : List Arg}
    {sent : List (Connection × TextFrame)} (h : httpBroadcastJson [browser] fmt args = .ok sent)
    (hsent : sent ≠ []) : ∃ out frame, vprintf (cstr fmt) args = some out ∧
      sent = [(browser, frame)] ∧ frame.data = out.take (broadcastSize - 1) := by
  obtain ⟨out, hout, h⟩ := run_bind_eq_ok h
  have hout : vprintf (cstr fmt) args = some out := by
    unfold printfText at hout
    cases hprint : vprintf (cstr fmt) args with
    | none =>
        rw [hprint] at hout
        cases hout
    | some text =>
        rw [hprint] at hout
        rw [Except.ok.inj hout]
  dsimp only at h
  split at h
  · exact ⟨out, _, hout, (Except.ok.inj h).symm, rfl⟩
  · exact absurd (Except.ok.inj h).symm hsent

/-- The message arrives at every set of connections. -/
def Arrives (info : Bytes) (len : UInt32) : Prop :=
  ∀ connections, ∃ sent, updaterProgressInfo connections info len = .ok sent ∧
    Told connections (info.take len.toNat) sent

theorem short_of_arrives (hmax : len.toNat ≤ 2048) (hzero : 0 ∉ info.take len.toNat)
    (hlen : len.toNat ≤ info.length) (h : Arrives info len) :
    len.toNat ≤ 486 ∧ Plain (info.take len.toNat) ∧ percent ∉ info.take len.toNat := by
  obtain ⟨sent, hsent, htold⟩ := h [browser]
  rw [updaterProgressInfo_eq hmax hzero hlen] at hsent
  have hlength : (info.take len.toNat).length = len.toNat := by
    rw [List.length_take, Nat.min_eq_left hlen]
  generalize info.take len.toNat = text at hzero hlength hsent htold ⊢
  have hne : sent ≠ [] := by
    rintro rfl
    exact absurd htold.each (by simp [browser])
  obtain ⟨out, frame, hout, rfl, hdata⟩ := httpBroadcastJson_browser hsent hne
  have hsays := htold.message _ List.mem_cons_self
  dsimp only at hsays
  rw [hdata] at hsays
  have hfmt : 0 ∉ (infoText text).take (progressSize - 1) := by
    intro hmem
    exact zero_notMem_infoText hzero (List.mem_of_mem_take hmem)
  rw [cstr_eq_self hfmt] at hout
  have hargs : ∀ s, .str s ∉ [Arg.int (25 + len.toNat)] := by simp
  -- a `%` would make what is sent lighter than the message
  have hpercent : percent ∉ (infoText text).take (progressSize - 1) := by
    intro hmem
    have hlighter := weigh_vprintf_lt hargs hout hmem
    have hcut := weigh_take_le formatWeight (infoText text) (progressSize - 1)
    have hfront := weigh_take_le formatWeight out (broadcastSize - 1)
    have hframe := weigh_take_le formatWeight (out.take (broadcastSize - 1)) frame.len.toNat
    have hheavy := hsays.weigh_le
    rw [infoText_weigh] at hcut
    omega
  obtain rfl := Option.some.inj (hout.symm.trans (vprintf_message hmax hpercent))
  have hpayload := hsays.length_le
  simp only [List.length_take, infoText_length] at hpayload
  have hprogress : progressSize = 512 := rfl
  have hshort : len.toNat ≤ 486 := by omega
  refine ⟨hshort, hsays.plain ?_, fun hmem => hpercent ?_⟩
  · simp only [List.length_take, infoText_length]
    omega
  · rw [List.take_of_length_le (by rw [infoText_length]; omega)]
    exact List.mem_append_right _ (List.mem_append_left _ hmem)

theorem arrives_of_short (hzero : 0 ∉ info.take len.toNat)
    (hlen : len.toNat ≤ info.length) (hshort : len.toNat ≤ 486)
    (hplain : Plain (info.take len.toNat)) (hpercent : percent ∉ info.take len.toNat) :
    Arrives info len := by
  intro connections
  rw [updaterProgressInfo_eq (by omega) hzero hlen]
  have hlength : (info.take len.toNat).length = len.toNat := by
    rw [List.length_take, Nat.min_eq_left hlen]
  generalize info.take len.toNat = text at hzero hlength hplain hpercent ⊢
  have hsize : (infoText text).length = 25 + len.toNat := by rw [infoText_length, hlength]
  have hmax : len.toNat ≤ 2048 := by omega
  have hprint := vprintf_message hmax (percent_notMem_infoText hpercent)
  have hresult : snprintfResult (infoText text) = 25 + len.toNat := by
    rw [snprintfResult, hsize, if_pos (by omega)]
    omega
  have hprogress : progressSize - 1 = 511 := rfl
  have hbroadcast : broadcastSize - 1 = 1023 := rfl
  rw [List.take_of_length_le (by omega), httpBroadcastJson,
    cstr_eq_self (zero_notMem_infoText hzero), printfText, hprint, run_bind_ok]
  dsimp only
  rw [hresult, if_pos (by omega), List.take_of_length_le (by omega), broadcastLoop_eq]
  refine ⟨_, rfl, ?_, ?_, ?_⟩
  · simp [List.map_map, Function.comp_def]
  · intro s hs
    obtain ⟨c, -, rfl⟩ := List.mem_map.mp hs
    dsimp only
    omega
  · intro s hs
    obtain ⟨c, -, rfl⟩ := List.mem_map.mp hs
    dsimp only
    rw [List.take_of_length_le (by omega)]
    exact saysInfo_infoText hplain

/-- **A message arrives** at the websocket connections and nowhere else, whole and well formed,
exactly if it has at most 486 bytes, nothing in it has to be escaped, and there is no `%` in it. It
may hold any byte from 0x80 on; its encoding is not looked at. -/
theorem updaterProgressInfo_iff (hlen : len.toNat ≤ info.length) (hmax : len.toNat ≤ 2048)
    (hzero : 0 ∉ info.take len.toNat) :
    Arrives info len ↔
      len.toNat ≤ 486 ∧ Plain (info.take len.toNat) ∧ percent ∉ info.take len.toNat := by
  constructor
  · exact short_of_arrives hmax hzero hlen
  · rintro ⟨hshort, hplain, hpercent⟩
    exact arrives_of_short hzero hlen hshort hplain hpercent

theorem updaterProgressInfo_iff_short : Arrives (bytes "Installed") 9 := by
  have hzero : 0 ∉ (bytes "Installed").take (9 : UInt32).toNat := by decide
  have hplain : Plain ((bytes "Installed").take (9 : UInt32).toNat) := by decide
  exact (updaterProgressInfo_iff (by decide) (by decide) hzero).mpr
    ⟨by decide, hplain, by decide⟩

/-- The quotes of `"a"` are sent as they are. -/
theorem updaterProgressInfo_quote :
    updaterProgressInfo [browser] (bytes "\"a\"") 3 =
        .ok [(browser, ⟨bytes "\x7b\"type\":\"info\",\"info\":\"\"a\"\"\x7d", 28⟩)] ∧
      ¬Arrives (bytes "\"a\"") 3 := by
  refine ⟨by rfl, fun h => ?_⟩
  have hzero : 0 ∉ (bytes "\"a\"").take (3 : UInt32).toNat := by decide
  have hplain := (short_of_arrives (by decide) hzero (by decide) h).2.1
  exact absurd rfl (hplain quote (by decide)).2.1

end Send

end AtxSys
