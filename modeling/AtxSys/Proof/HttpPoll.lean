import AtxSys.HttpPoll
import AtxSys.Proof.Broadcast
import AtxSys.Proof.Progress

/-!
# From the updater to the browsers

A poll tells the browsers what the message that it received changes. The server lives on as long as
no message has a status or a source without a name, and every text of the updater can be a format.
-/

namespace AtxSys

open CText JsonSyntax Changes

/-! ### What a call says -/

/-- The object that a call sends. -/
def callFields : ProgressCall → List (Bytes × Scalar)
  | .status status => [(bytes "type", .str (bytes "status")),
      (bytes "status", .str (statusMessages[status.toNat]?.getD []))]
  | .source source => [(bytes "type", .str (bytes "source")),
      (bytes "source", .str (sourceMessages[source.toNat]?.getD []))]
  | .info info len => infoFields (info.take len.toNat)
  | .step _ step total per => [(bytes "type", .str (bytes "step")),
      (bytes "step", .prim (decimal step.toNat)), (bytes "total", .prim (decimal total.toNat)),
      (bytes "percent", .prim (decimal per.toNat))]

/-- The frame is no longer than what was formatted, and is the object of the call. -/
structure Shows (call : ProgressCall) (frame : TextFrame) : Prop where
  bounded : 0 ≤ frame.len ∧ frame.len ≤ frame.data.length
  object : Decodes (frame.data.take frame.len.toNat) (callFields call)

/-- A text of the updater arrives only if it is short and nothing in it has a meaning. -/
def Showable : ProgressCall → Prop
  | .info info len => len.toNat ≤ info.length ∧ len.toNat ≤ 486 ∧ Plain (info.take len.toNat) ∧
      percent ∉ info.take len.toNat
  | .status _ | .source _ | .step .. => True

/-- A text of the updater can be rendered, and what was rendered can be a format. -/
def Renders (info : Bytes) (len : UInt32) : Prop :=
  ∃ text out, vprintf progressInfoFormat [.int (toInt len.toNat), .str info] = some text ∧
    vprintf (cstr (text.take (progressSize - 1))) [.int (snprintfResult text)] = some out

/-- A call that returns. -/
def CallReturns : ProgressCall → Prop
  | .status status => status < 9
  | .source source => source < 5
  | .info info len => Renders info len
  | .step .. => True

/-- The frame goes to each websocket connection. -/
def broadcast (frame : TextFrame) (connections : List Connection) : List (Connection × TextFrame) :=
  (connections.filter (·.websocket)).map fun c => (c, frame)

/-! ### The texts -/

section Texts

variable {connections : List Connection} {fmt text : Bytes} {args : List Arg}

theorem printfText_eq (h : vprintf fmt args = some text) : printfText fmt args = .ok text := by
  rw [printfText, h]

/-- A short text without a `%` is a format that says itself. -/
theorem progressBroadcast_eq (h : vprintf fmt args = some text) (hpercent : percent ∉ text)
    (hzero : 0 ∉ text) (hne : text ≠ []) (hshort : text.length < progressSize) :
    progressBroadcast connections fmt args = .ok (broadcast ⟨text, text.length⟩ connections) := by
  have hsize : progressSize = 512 := rfl
  have hmem : broadcastSize - 1 = 1023 := rfl
  have hresult : snprintfResult text = text.length := if_pos (by omega)
  have hpos := List.length_pos_iff.mpr hne
  have hprint : vprintf text [.int text.length] = some text := by
    apply vprintf_of_vformat _ (vformat_text hpercent _)
    intro n hn
    obtain rfl : n = text.length := by simpa using hn
    omega
  rw [progressBroadcast, printfText_eq h, run_bind_ok, hresult,
    List.take_of_length_le (by omega), httpBroadcastJson, cstr_eq_self hzero,
    printfText_eq hprint, run_bind_ok]
  dsimp only
  rw [hresult, if_pos (by omega), List.take_of_length_le (by omega), broadcastLoop_eq]
  rfl

theorem shows_text {call : ProgressCall} (h : Decodes text (callFields call)) :
    Shows call ⟨text, text.length⟩ where
  bounded := ⟨Int.natCast_nonneg _, Int.le_refl _⟩
  object := by
    have htake : text.take (text.length : Int).toNat = text := List.take_length
    dsimp only
    rwa [htake]

end Texts

/-! ### The status and the source -/

section Named

theorem messages_plain : ∀ m ∈ statusMessages ++ sourceMessages,
    Plain m ∧ percent ∉ m ∧ 0 ∉ m ∧ m.length ≤ 10 := by
  decide

/-- What is formatted around a name, where `kind` is the type and the field. -/
def namedText (kind name : Bytes) : Bytes :=
  bytes "\x7b\"type\":\"" ++ (kind ++ (bytes "\",\"" ++ (kind ++ (bytes "\":\"" ++
    (name ++ bytes "\"\x7d")))))

theorem namedText_eq (kind name : Bytes) :
    namedText kind name =
      objectText [(bytes "type", .str kind), (kind, .str name)] := by
  have hopen : bytes "\x7b\"type\":\"" = lbrace :: (quoted (bytes "type") ++ [colon, quote]) := by
    decide
  have hnext : bytes "\",\"" = [quote, comma, quote] := by decide
  have hvalue : bytes "\":\"" = [quote, colon, quote] := by decide
  have hclose : bytes "\"\x7d" = [quote, rbrace] := by decide
  rw [namedText, hopen, hnext, hvalue, hclose]
  simp [objectText, fieldsText, Scalar.text, separator, quoted]

def namedFormat (kind : Bytes) : Bytes :=
  bytes "\x7b\"type\":\"" ++ (kind ++ (bytes "\",\"" ++ (kind ++ (bytes "\":\"" ++
    (bytes "%s" ++ bytes "\"\x7d")))))

theorem namedFormat_eq :
    progressStatusFormat = namedFormat (bytes "status") ∧
      progressSourceFormat = namedFormat (bytes "source") := by
  decide

/-- A name of at most ten bytes, behind one of the two formats. -/
theorem progressBroadcast_named (connections : List Connection) {fmt kind name : Bytes}
    (hfmt : fmt = namedFormat kind)
    (hkind : kind ∈ [bytes "status", bytes "source"])
    (hname : name ∈ statusMessages ++ sourceMessages) :
    progressBroadcast connections fmt [.str name] =
        .ok (broadcast ⟨namedText kind name, (namedText kind name).length⟩ connections) ∧
      Decodes (namedText kind name) [(bytes "type", .str kind), (kind, .str name)] := by
  obtain ⟨hplain, hpercent, hzero, hlength⟩ := messages_plain name hname
  have hkinds : ∀ k ∈ [bytes "status", bytes "source"],
      Plain k ∧ percent ∉ k ∧ 0 ∉ k ∧ k.length = 6 := by decide
  obtain ⟨hplain', hpercent', hzero', hlength'⟩ := hkinds kind hkind
  have hopen : percent ∉ bytes "\x7b\"type\":\"" ∧ 0 ∉ bytes "\x7b\"type\":\"" ∧
      (bytes "\x7b\"type\":\"").length = 9 := by decide
  have hnext : percent ∉ bytes "\",\"" ∧ 0 ∉ bytes "\",\"" ∧ (bytes "\",\"").length = 3 := by
    decide
  have hvalue : percent ∉ bytes "\":\"" ∧ 0 ∉ bytes "\":\"" ∧ (bytes "\":\"").length = 3 := by
    decide
  have hclose : percent ∉ bytes "\"\x7d" ∧ 0 ∉ bytes "\"\x7d" ∧ (bytes "\"\x7d").length = 2 := by
    decide
  constructor
  · apply progressBroadcast_eq
    · apply vprintf_of_vformat
      · intro n hn
        simp at hn
      · rw [hfmt, namedFormat, vformat_append hopen.1, vformat_append hpercent',
          vformat_append hnext.1,
          vformat_append hpercent', vformat_append hvalue.1, vformat_str, vformat_text hclose.1,
          cstr_eq_self hzero]
        rfl
    · simp only [namedText, List.mem_append, hopen.1, hpercent', hnext.1, hvalue.1, hpercent,
        hclose.1, or_self, not_false_iff]
    · simp only [namedText, List.mem_append, hopen.2.1, hzero', hnext.2.1, hvalue.2.1, hzero,
        hclose.2.1, or_self, not_false_iff]
    · rw [namedText_eq]
      exact List.cons_ne_nil _ _
    · simp only [namedText, List.length_append, hopen.2.2, hlength', hnext.2.2, hvalue.2.2,
        hclose.2.2]
      rw [progressSize]
      omega
  · rw [namedText_eq, decodes_objectText_iff]
    have htype : Plain (bytes "type") := by decide
    simp only [List.forall_mem_cons, PlainField, Scalar.Plain]
    exact ⟨⟨htype, hplain'⟩, ⟨hplain', hplain⟩, fun _ hmem => absurd hmem List.not_mem_nil⟩

theorem progressMessage_eq {msgs : List Bytes} {i : UInt32} (h : i.toNat < msgs.length) :
    progressMessage msgs i = .ok (msgs[i.toNat]?.getD []) ∧ msgs[i.toNat]?.getD [] ∈ msgs := by
  rw [progressMessage, List.getElem?_eq_getElem h]
  exact ⟨rfl, List.getElem_mem h⟩

theorem progressMessage_error {msgs : List Bytes} {i : UInt32} (h : msgs.length ≤ i.toNat) :
    progressMessage msgs i = .error .abort := by
  rw [progressMessage, List.getElem?_eq_none h]

theorem updaterProgressStatus_eq {status : UInt32} (h : status < 9) :
    ∃ frame, (∀ connections, updaterProgressStatus connections status =
      .ok (broadcast frame connections)) ∧ Shows (.status status) frame := by
  obtain ⟨hmsg, hmem⟩ := @progressMessage_eq statusMessages status h
  have hnamed := fun connections => progressBroadcast_named connections namedFormat_eq.1
    List.mem_cons_self (List.mem_append_left sourceMessages hmem)
  refine ⟨_, fun connections => ?_, shows_text (hnamed []).2⟩
  rw [updaterProgressStatus, updaterProgressStatusMessage, hmsg]
  exact (hnamed connections).1

theorem updaterProgressSource_eq {source : UInt32} (h : source < 5) :
    ∃ frame, (∀ connections, updaterProgressSource connections source =
      .ok (broadcast frame connections)) ∧ Shows (.source source) frame := by
  obtain ⟨hmsg, hmem⟩ := @progressMessage_eq sourceMessages source h
  have hnamed := fun connections => progressBroadcast_named connections namedFormat_eq.2
    (List.mem_cons_of_mem _ List.mem_cons_self) (List.mem_append_right statusMessages hmem)
  refine ⟨_, fun connections => ?_, shows_text (hnamed []).2⟩
  rw [updaterProgressSource, updaterProgressSourceMessage, hmsg]
  exact (hnamed connections).1

end Named

/-! ### The step -/

section Step

variable {connections : List Connection}

theorem length_repr_le {n k : Nat} (h : n < 10 ^ (k + 1)) : (bytes n.repr).length ≤ k + 1 := by
  induction k generalizing n with
  | zero =>
      rw [bytes_repr, if_pos (by omega)]
      exact Nat.le_refl 1
  | succ k ih =>
      rw [bytes_repr]
      split
      · exact Nat.le_add_left 1 _
      · rw [Nat.pow_succ] at h
        rw [List.length_append, List.length_singleton]
        exact Nat.succ_le_succ (ih (Nat.div_lt_of_lt_mul (by omega)))

theorem decimal_plain (b : UInt8) :
    percent ∉ decimal b.toNat ∧ 0 ∉ decimal b.toNat ∧ (decimal b.toNat).length ≤ 3 := by
  have hdecimal : decimal b.toNat = bytes b.toNat.repr := rfl
  obtain ⟨⟨-, hdigits⟩, -⟩ := digits_repr b.toNat
  rw [hdecimal]
  refine ⟨fun hmem => ?_, fun hmem => ?_, length_repr_le (k := 2) ?_⟩
  · exact absurd (hdigits _ hmem).1 (by decide)
  · exact absurd (hdigits _ hmem).1 (by decide)
  · have hb := b.toNat_lt
    omega

def stepText (step total per : Bytes) : Bytes :=
  bytes "\x7b\"type\":\"step\",\"step\":" ++ (step ++ (bytes ",\"total\":" ++ (total ++
    (bytes ",\"percent\":" ++ (per ++ bytes "\x7d")))))

theorem stepText_eq (step total per : Bytes) :
    stepText step total per =
      objectText [(bytes "type", .str (bytes "step")), (bytes "step", .prim step),
        (bytes "total", .prim total), (bytes "percent", .prim per)] := by
  have hopen : bytes "\x7b\"type\":\"step\",\"step\":" =
      lbrace :: (quoted (bytes "type") ++ colon :: (quoted (bytes "step") ++
        comma :: (quoted (bytes "step") ++ [colon]))) := by
    decide
  have htotal : bytes ",\"total\":" = comma :: (quoted (bytes "total") ++ [colon]) := by decide
  have hper : bytes ",\"percent\":" = comma :: (quoted (bytes "percent") ++ [colon]) := by decide
  have hclose : bytes "\x7d" = [rbrace] := by decide
  rw [stepText, hopen, htotal, hper, hclose]
  simp [objectText, fieldsText, Scalar.text, separator]

theorem updaterProgressStep_eq (name : Bytes) (step total per : UInt8) :
    ∃ frame, (∀ connections, updaterProgressStep connections name step total per =
      .ok (broadcast frame connections)) ∧ Shows (.step name step total per) frame := by
  obtain ⟨hstep, hstep', hstepl⟩ := decimal_plain step
  obtain ⟨htotal, htotal', htotall⟩ := decimal_plain total
  obtain ⟨hper, hper', hperl⟩ := decimal_plain per
  have hopen : percent ∉ bytes "\x7b\"type\":\"step\",\"step\":" ∧
      0 ∉ bytes "\x7b\"type\":\"step\",\"step\":" ∧
        (bytes "\x7b\"type\":\"step\",\"step\":").length = 22 := by
    decide
  have hnext : percent ∉ bytes ",\"total\":" ∧ 0 ∉ bytes ",\"total\":" ∧
      (bytes ",\"total\":").length = 9 := by
    decide
  have hlast : percent ∉ bytes ",\"percent\":" ∧ 0 ∉ bytes ",\"percent\":" ∧
      (bytes ",\"percent\":").length = 11 := by
    decide
  have hclose : percent ∉ bytes "\x7d" ∧ 0 ∉ bytes "\x7d" ∧ (bytes "\x7d").length = 1 := by decide
  refine ⟨⟨stepText (decimal step.toNat) (decimal total.toNat) (decimal per.toNat), _⟩,
    fun connections => progressBroadcast_eq ?_ ?_ ?_ ?_ ?_, shows_text ?_⟩
  · apply vprintf_of_vformat
    · have hbounds : ∀ b : UInt8, -2 ^ 31 ≤ (b.toNat : Int) ∧ (b.toNat : Int) < 2 ^ 31 := by
        intro b
        have hb := b.toNat_lt
        omega
      intro n hn
      simp only [List.mem_cons, Arg.int.injEq, List.not_mem_nil, or_false] at hn
      obtain rfl | rfl | rfl := hn
      · exact hbounds step
      · exact hbounds total
      · exact hbounds per
    · rw [progressStepFormat, vformat_append hopen.1, vformat_int, vformat_append hnext.1,
        vformat_int, vformat_append hlast.1, vformat_int, vformat_text hclose.1]
      rfl
  · simp only [stepText, List.mem_append, hopen.1, hstep, hnext.1, htotal, hlast.1, hper,
      hclose.1, or_self, not_false_iff]
  · simp only [stepText, List.mem_append, hopen.2.1, hstep', hnext.2.1, htotal', hlast.2.1, hper',
      hclose.2.1, or_self, not_false_iff]
  · rw [stepText_eq]
    exact List.cons_ne_nil _ _
  · simp only [stepText, List.length_append, hopen.2.2, hnext.2.2, hlast.2.2, hclose.2.2]
    rw [progressSize]
    omega
  · rw [stepText_eq]
    apply decodes_objectText_iff.mpr
    have hnames : Plain (bytes "type") ∧ Plain (bytes "step") ∧ Plain (bytes "total") ∧
        Plain (bytes "percent") := by decide
    have hprim : ∀ b : UInt8, json.prim (decimal b.toNat) :=
      fun b => .inr (.inr (.inr (number_decimal _)))
    simp only [List.forall_mem_cons, PlainField, Scalar.Plain]
    exact ⟨⟨hnames.1, hnames.2.1⟩, ⟨hnames.2.1, hprim _⟩, ⟨hnames.2.2.1, hprim _⟩,
      ⟨hnames.2.2.2, hprim _⟩, fun _ hmem => absurd hmem List.not_mem_nil⟩

end Step

/-! ### The text of the updater -/

section Info

variable {info : Bytes} {len : UInt32}

/-- What begins with no `%` is rendered with the same first byte. -/
theorem vprintf_head {c : UInt8} (hc : c ≠ percent) {fmt out : Bytes} {args : List Arg}
    (h : vprintf (c :: fmt) args = some out) : ∃ rest, out = c :: rest := by
  rw [vprintf, List.length_cons, vprintfLoop, if_pos hc] at h
  obtain ⟨rest, -, rfl⟩ := Option.map_eq_some_iff.mp h
  exact ⟨rest, rfl⟩

theorem printfText_eq_ok {fmt : Bytes} {args : List Arg} {text : Bytes}
    (h : printfText fmt args = .ok text) : vprintf fmt args = some text := by
  rw [printfText] at h
  split at h
  · cases h
  · next hprint => rw [hprint, Except.ok.inj h]

/-- Whoever is connected, a text that can be rendered is one frame. -/
theorem updaterProgressInfo_eq_ok (h : Renders info len) :
    ∃ frame, ∀ connections, updaterProgressInfo connections info len =
      .ok (broadcast frame connections) := by
  obtain ⟨text, out, htext, hout⟩ := h
  obtain ⟨fmt, hformat⟩ : ∃ fmt, progressInfoFormat = lbrace :: fmt := ⟨_, rfl⟩
  have hhead := htext
  rw [hformat] at hhead
  obtain ⟨rest, rfl⟩ := vprintf_head (by decide) hhead
  obtain ⟨fmt', hfmt⟩ : ∃ fmt', cstr ((lbrace :: rest).take (progressSize - 1)) = lbrace :: fmt' :=
    ⟨_, rfl⟩
  have hhead' := hout
  rw [hfmt] at hhead'
  obtain ⟨rest', rfl⟩ := vprintf_head (by decide) hhead'
  have hsome : snprintfResult (lbrace :: rest') ≠ 0 := by
    rw [snprintfResult, List.length_cons]
    split <;> omega
  refine ⟨⟨(lbrace :: rest').take (broadcastSize - 1), snprintfResult (lbrace :: rest')⟩,
    fun connections => ?_⟩
  rw [updaterProgressInfo, printfText_eq htext, run_bind_ok, httpBroadcastJson, printfText_eq hout,
    run_bind_ok]
  dsimp only
  rw [if_pos hsome, broadcastLoop_eq]
  rfl

theorem updaterProgressInfo_shows {name : ProgressCall} (hname : name = .info info len)
    (h : Showable name) : ∃ frame, (∀ connections, updaterProgressInfo connections info len =
      .ok (broadcast frame connections)) ∧ Shows name frame := by
  subst hname
  obtain ⟨hlen, hshort, hplain, hpercent⟩ := h
  have hzero : 0 ∉ info.take len.toNat := fun hmem => absurd (hplain 0 hmem).1 (by decide)
  have hlength : (infoText (info.take len.toNat)).length = 25 + len.toNat := by
    rw [infoText_length, List.length_take, Nat.min_eq_left hlen]
  have hne : infoText (info.take len.toNat) ≠ [] := by
    rw [infoText_eq]
    exact List.cons_ne_nil _ _
  have hsize : progressSize = 512 := rfl
  refine ⟨_, fun connections => progressBroadcast_eq (vprintf_infoText (by omega) hzero)
    (percent_notMem_infoText hpercent) (zero_notMem_infoText hzero) hne (by omega),
    shows_text ?_⟩
  rw [infoText_eq]
  apply decodes_objectText_iff.mpr
  have hnames : Plain (bytes "type") ∧ Plain (bytes "info") := by decide
  simp only [infoFields, List.forall_mem_cons, PlainField, Scalar.Plain]
  exact ⟨hnames, ⟨hnames.2, hplain⟩, fun _ hmem => absurd hmem List.not_mem_nil⟩

theorem renders_of_ok {connections : List Connection} {sent : List (Connection × TextFrame)}
    (h : updaterProgressInfo connections info len = .ok sent) : Renders info len := by
  obtain ⟨text, htext, h⟩ := run_bind_eq_ok h
  obtain ⟨out, hout, -⟩ := run_bind_eq_ok h
  exact ⟨text, out, printfText_eq_ok htext, printfText_eq_ok hout⟩

end Info

/-! ### The calls of a poll -/

section Calls

variable {connections : List Connection} {call : ProgressCall} {calls : List ProgressCall}

theorem progressCallback_ok (h : CallReturns call) :
    ∃ frame, (∀ connections, progressCallback connections call =
      .ok (broadcast frame connections)) ∧ (Showable call → Shows call frame) := by
  cases call with
  | status status =>
      obtain ⟨frame, hsent, hshows⟩ := updaterProgressStatus_eq h
      exact ⟨frame, hsent, fun _ => hshows⟩
  | source source =>
      obtain ⟨frame, hsent, hshows⟩ := updaterProgressSource_eq h
      exact ⟨frame, hsent, fun _ => hshows⟩
  | info info len =>
      by_cases hshowable : Showable (.info info len)
      · obtain ⟨frame, hsent, hshows⟩ := updaterProgressInfo_shows rfl hshowable
        exact ⟨frame, hsent, fun _ => hshows⟩
      · obtain ⟨frame, hsent⟩ := updaterProgressInfo_eq_ok h
        exact ⟨frame, hsent, fun hshow => absurd hshow hshowable⟩
  | step name step total per =>
      obtain ⟨frame, hsent, hshows⟩ := updaterProgressStep_eq name step total per
      exact ⟨frame, hsent, fun _ => hshows⟩

theorem returns_of_callback {sent : List (Connection × TextFrame)}
    (h : progressCallback connections call = .ok sent) : CallReturns call := by
  -- the `assert` of an array with `n` messages
  have hassert : ∀ {msgs : List Bytes} {i n : UInt32}
      {f : Bytes → Run (List (Connection × TextFrame))},
      msgs.length = n.toNat → (progressMessage msgs i >>= f) = .ok sent → i < n := by
    intro msgs i n f hlength hok
    rw [UInt32.lt_iff_toNat_lt, ← hlength]
    by_contra hge
    rw [progressMessage_error (Nat.le_of_not_lt hge)] at hok
    cases hok
  cases call with
  | status status => exact hassert rfl h
  | source source => exact hassert rfl h
  | info info len => exact renders_of_ok h
  | step name step total per => trivial

theorem runProgressCalls_ok (h : ∀ call ∈ calls, CallReturns call) :
    ∃ frames, List.Forall₂ (fun call frame => Showable call → Shows call frame) calls frames ∧
      ∀ connections, runProgressCalls connections calls =
        .ok (frames.flatMap fun frame => broadcast frame connections) := by
  induction calls with
  | nil => exact ⟨[], .nil, fun _ => rfl⟩
  | cons call calls ih =>
      obtain ⟨hcall, hcalls⟩ := List.forall_mem_cons.mp h
      obtain ⟨frame, hsent, hshows⟩ := progressCallback_ok hcall
      obtain ⟨frames, hforall, hmore⟩ := ih hcalls
      refine ⟨frame :: frames, .cons hshows hforall, fun connections => ?_⟩
      rw [runProgressCalls, hsent, run_bind_ok, hmore, run_bind_ok, List.flatMap_cons]

theorem returns_of_calls {sent : List (Connection × TextFrame)}
    (h : runProgressCalls connections calls = .ok sent) : ∀ call ∈ calls, CallReturns call := by
  induction calls generalizing sent with
  | nil => exact fun _ hmem => absurd hmem List.not_mem_nil
  | cons call calls ih =>
      obtain ⟨first, hfirst, h⟩ := run_bind_eq_ok h
      obtain ⟨more, hmore, -⟩ := run_bind_eq_ok h
      exact List.forall_mem_cons.mpr ⟨returns_of_callback hfirst, ih hmore⟩

end Calls

/-! ### Messages and calls -/

/-- The texts that were passed on. -/
def infos (calls : List ProgressCall) : List (Bytes × UInt32) :=
  calls.filterMap fun
    | .info info len => some (info, len)
    | _ => none

/-- The calls tell what changes over the messages, every failure, and every text; and the last
values are remembered. -/
structure Tells (u : UpdaterProgress) (messages : List ProgressMsg) (u' : UpdaterProgress)
    (calls : List ProgressCall) : Prop where
  status : u'.status = last u.status (messages.map ProgressMsg.status)
  statuses : statuses calls = reported isFailure u.status (messages.map ProgressMsg.status)
  source : u'.source = last u.source (messages.map ProgressMsg.source)
  sources : sources calls = reported never u.source (messages.map ProgressMsg.source)
  infos : infos calls =
    (messages.filter fun msg => msg.infolen ≠ 0).map fun msg => (msg.info, msg.infolen)
  step : (u'.step, u'.percent) =
    last (u.step, u.percent) (messages.filterMap ProgressMsg.position)
  steps : steps calls =
    (reported never (u.step, u.percent) (messages.filterMap ProgressMsg.position)).map narrow

section Tells

variable {u u' u'' : UpdaterProgress} {messages messages' : List ProgressMsg}
  {calls calls' : List ProgressCall}

theorem Tells.quiet (u : UpdaterProgress) (ipc : Int) : Tells u [] { u with ipc } [] :=
  ⟨rfl, rfl, rfl, rfl, rfl, rfl, rfl⟩

theorem Tells.append (h : Tells u messages u' calls) (h' : Tells u' messages' u'' calls') :
    Tells u (messages ++ messages') u'' (calls ++ calls') where
  status := by rw [h'.status, h.status, List.map_append, last_append]
  statuses := by
    rw [statuses_append, h.statuses, h'.statuses, h.status, List.map_append, reported_append]
  source := by rw [h'.source, h.source, List.map_append, last_append]
  sources := by
    rw [sources_append, h.sources, h'.sources, h.source, List.map_append, reported_append]
  infos := by
    rw [AtxSys.infos, List.filterMap_append, ← AtxSys.infos, ← AtxSys.infos, h.infos, h'.infos,
      List.filter_append, List.map_append]
  step := by rw [h'.step, h.step, List.filterMap_append, last_append]
  steps := by
    rw [steps_append, h.steps, h'.steps, h.step, List.filterMap_append, reported_append,
      List.map_append]

theorem tells_message (u : UpdaterProgress) (msg : ProgressMsg) :
    Tells u [msg] (pollMessage updaterProgressCallbacks u msg).1
      (pollMessage updaterProgressCallbacks u msg).2 := by
  have hinfos : infos (pollMessage updaterProgressCallbacks u msg).2 =
      ([msg].filter fun msg => msg.infolen ≠ 0).map fun msg => (msg.info, msg.infolen) := by
    rw [pollMessage_eq]
    by_cases hlen : msg.infolen = 0
    · simp [infos, List.filterMap_map, Function.comp_def, stepCall, pollInfo, hlen]
    · simp [infos, List.filterMap_map, Function.comp_def, stepCall, pollInfo, hlen,
        updaterProgressCallbacks]
  rw [pollMessage_eq] at hinfos ⊢
  refine ⟨rfl, ?_, rfl, ?_, hinfos, ?_, ?_⟩
  · simp [reported]
  · simp [reported]
  · cases hposition : msg.position <;> simp [hposition, last]
  · cases hposition : msg.position <;> simp [hposition, reported]

end Tells

/-! ### Polls -/

/-- A poll where the callbacks return: the progress, and the calls. -/
def pollOutcome (valid : Bool) (u : UpdaterProgress) (io : PollIo) :
    UpdaterProgress × List ProgressCall :=
  if valid then updaterProgressPoll updaterProgressCallbacks u io.progress else (u, [])

def pollReceived (valid : Bool) (handle : Int) (io : PollIo) : Option ProgressMsg :=
  if valid then receivedOn handle io.progress else none

/-- The full messages that the IPC delivers behind the handle. -/
def httpMessages (valid : Bool) (handle : Int) (ios : List PollIo) : List ProgressMsg :=
  if valid then received handle (ios.map PollIo.progress) else []

def httpCalls (valid : Bool) : UpdaterProgress → List PollIo → List (List ProgressCall)
  | _, [] => []
  | u, io :: ios => (pollOutcome valid u io).2 :: httpCalls valid (pollOutcome valid u io).1 ios

section Polls

variable {valid : Bool} {u : UpdaterProgress} {io : PollIo} {ios : List PollIo}
  {sent : List (List (Connection × TextFrame))}

theorem httpMessages_cons (valid : Bool) (u : UpdaterProgress) (io : PollIo) (ios : List PollIo) :
    httpMessages valid u.ipc (io :: ios) =
      (pollReceived valid u.ipc io).toList ++
        httpMessages valid (pollOutcome valid u io).1.ipc ios := by
  cases valid with
  | false => rfl
  | true =>
      have hhandle : (pollOutcome true u io).1.ipc = nextHandle u.ipc io.progress :=
        updaterProgressPoll_ipc u io.progress
      rw [hhandle]
      rfl

theorem pollOutcome_none (hnone : pollReceived valid u.ipc io = none) :
    ∃ ipc, pollOutcome valid u io = ({ u with ipc }, []) := by
  cases valid with
  | false => exact ⟨u.ipc, rfl⟩
  | true => exact ⟨_, updaterProgressPoll_none hnone⟩

theorem pollOutcome_some {msg : ProgressMsg}
    (hsome : pollReceived valid u.ipc io = some msg) :
    ∃ ipc, pollOutcome valid u io = pollMessage updaterProgressCallbacks { u with ipc } msg := by
  cases valid with
  | false => cases hsome
  | true => exact ⟨_, updaterProgressPoll_some hsome⟩

theorem pollOutcome_tells (valid : Bool) (u : UpdaterProgress) (io : PollIo) :
    Tells u (pollReceived valid u.ipc io).toList
      (pollOutcome valid u io).1 (pollOutcome valid u io).2 := by
  cases hreceived : pollReceived valid u.ipc io with
  | none =>
      obtain ⟨ipc, hquiet⟩ := pollOutcome_none hreceived
      rw [hquiet]
      exact Tells.quiet u ipc
  | some msg =>
      obtain ⟨ipc, hmessage⟩ := pollOutcome_some hreceived
      rw [hmessage]
      exact (Tells.quiet u ipc).append (tells_message _ msg)

theorem httpCalls_tells (valid : Bool) (u : UpdaterProgress) (ios : List PollIo) :
    ∃ u', Tells u (httpMessages valid u.ipc ios) u' (httpCalls valid u ios).flatten := by
  induction ios generalizing u with
  | nil => exact ⟨u, by cases valid <;> exact Tells.quiet u u.ipc⟩
  | cons io ios ih =>
      obtain ⟨u', htells⟩ := ih (pollOutcome valid u io).1
      rw [httpMessages_cons]
      exact ⟨u', (pollOutcome_tells valid u io).append htells⟩

theorem httpPoll_eq (valid : Bool) (u : UpdaterProgress) (io : PollIo) :
    httpPoll valid u io =
      (runProgressCalls io.connections (pollOutcome valid u io).2 >>= fun sent =>
        .ok ((pollOutcome valid u io).1, sent)) := by
  cases valid <;> rfl

/-- What a connection gets. -/
def framesTo (c : Connection) (sent : List (Connection × TextFrame)) : List TextFrame :=
  sent.filterMap fun s => if s.1 = c then some s.2 else none

theorem framesTo_broadcast {connections : List Connection} (hnodup : connections.Nodup)
    (c : Connection) (frame : TextFrame) :
    framesTo c (broadcast frame connections) =
      if c.websocket = true ∧ c ∈ connections then [frame] else [] := by
  induction connections with
  | nil => simp [framesTo, broadcast]
  | cons d connections ih =>
      obtain ⟨hnew, hnodup⟩ := List.nodup_cons.mp hnodup
      have hrest := ih hnodup
      rw [framesTo, broadcast] at hrest ⊢
      rw [List.filter_cons]
      by_cases heq : d = c
      · subst heq
        rw [if_neg fun h => hnew h.2] at hrest
        cases hws : d.websocket with
        | false => simpa [hws] using hrest
        | true => simp [hrest]
      · have hmem : c ∈ d :: connections ↔ c ∈ connections := by
          rw [List.mem_cons, or_iff_right (Ne.symm heq)]
        simp only [hmem]
        rw [← hrest]
        cases d.websocket <;> simp [heq]

theorem framesTo_frames {connections : List Connection} (hnodup : connections.Nodup)
    (c : Connection) (frames : List TextFrame) :
    framesTo c (frames.flatMap fun frame => broadcast frame connections) =
      if c.websocket = true ∧ c ∈ connections then frames else [] := by
  induction frames with
  | nil => simp [framesTo]
  | cons frame frames ih =>
      rw [List.flatMap_cons, framesTo, List.filterMap_append, ← framesTo, ← framesTo, ih,
        framesTo_broadcast hnodup]
      split <;> rfl

/-- **What the browsers see.** In each poll a connection gets all frames if it is an open websocket,
and nothing otherwise. There is a frame for each call, which is the object of the call if it has a
message of the server or a text that needs no escapes. The calls tell every change of the status,
the source and the step over all full messages, every failure, and every text. -/
theorem httpPolls_seen {valid : Bool} {ios : List PollIo}
    {sent : List (List (Connection × TextFrame))} (hnodup : ∀ io ∈ ios, io.connections.Nodup)
    (h : httpPolls valid updaterProgressInit ios = .ok sent) :
    (∃ frames, List.Forall₂ (List.Forall₂ fun call frame => Showable call → Shows call frame)
          (httpCalls valid updaterProgressInit ios) frames ∧
        ∀ c, sent.map (framesTo c) = List.zipWith
          (fun io fs => if c.websocket = true ∧ c ∈ io.connections then fs else []) ios frames) ∧
      ∃ u, Tells updaterProgressInit (httpMessages valid 0 ios) u
        (httpCalls valid updaterProgressInit ios).flatten := by
  refine ⟨?_, httpCalls_tells valid updaterProgressInit ios⟩
  generalize updaterProgressInit = u at h ⊢
  induction ios generalizing u sent with
  | nil =>
      obtain rfl := Except.ok.inj h
      exact ⟨[], .nil, fun _ => rfl⟩
  | cons io ios ih =>
      obtain ⟨hnodup, hrest⟩ := List.forall_mem_cons.mp hnodup
      rw [httpPolls, httpPoll_eq] at h
      obtain ⟨⟨u', first⟩, hfirst, h⟩ := run_bind_eq_ok h
      obtain ⟨first', hcalls, hfirst⟩ := run_bind_eq_ok hfirst
      obtain ⟨rfl, rfl⟩ := Prod.mk.inj (Except.ok.inj hfirst)
      obtain ⟨more, hmore, hsent⟩ := run_bind_eq_ok h
      obtain rfl := Except.ok.inj hsent
      obtain ⟨frames, hshows, hframes⟩ := runProgressCalls_ok (returns_of_calls hcalls)
      obtain rfl := Except.ok.inj (hcalls.symm.trans (hframes io.connections))
      obtain ⟨later, hlater, hgets⟩ := ih hrest _ hmore
      refine ⟨frames :: later, .cons hshows hlater, fun c => ?_⟩
      rw [List.map_cons, framesTo_frames hnodup, hgets, List.zipWith_cons_cons]

/-- A browser, a poll that connects to the updater, and one that receives the start of an update. -/
def startPolls : List PollIo :=
  [⟨[browser], ⟨none, 0, 7⟩⟩, ⟨[browser], ⟨some ⟨1, 3, 1, 50, [], 1, 0, []⟩, 7, 0⟩⟩]

def startFrames : List TextFrame :=
  [⟨bytes "\x7b\"type\":\"status\",\"status\":\"start\"\x7d", 34⟩,
    ⟨bytes "\x7b\"type\":\"source\",\"source\":\"webserver\"\x7d", 38⟩,
    ⟨bytes "\x7b\"type\":\"step\",\"step\":1,\"total\":3,\"percent\":50\x7d", 47⟩]

theorem httpPolls_seen_start :
    httpPolls true updaterProgressInit startPolls =
        .ok [[], startFrames.map fun frame => (browser, frame)] ∧
      ∃ u, Tells updaterProgressInit (httpMessages true 0 startPolls) u
        (httpCalls true updaterProgressInit startPolls).flatten := by
  have hpolls : httpPolls true updaterProgressInit startPolls =
      .ok [[], startFrames.map fun frame => (browser, frame)] := by rfl
  exact ⟨hpolls, (httpPolls_seen (by decide) hpolls).2⟩

end Polls

end AtxSys
