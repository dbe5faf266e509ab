import AtxSys.NetworkRoute
import AtxSys.Proof.NetworkConfig

/-!
# Storing and sending the configuration

What `put` leaves in the file and what it answers, and what `get` makes of the file.
-/

namespace AtxSys

open CText JsonSyntax

/-! ### Responses -/

theorem httpPrintfJson_eq_ok {code : Nat} {fmt : Bytes} {args : List Arg} {response : Response}
    (h : httpPrintfJson code fmt args = .ok response) :
    response.code = code ∧ formatText (cstr fmt) args = .ok response.body ∧
      response.contentLength = response.body.length := by
  obtain ⟨text, htext, h⟩ := run_bind_eq_ok h
  obtain rfl := Except.ok.inj h
  exact ⟨rfl, htext, rfl⟩

theorem formatText_eq_ok_iff {fmt text : Bytes} {args : List Arg} :
    formatText fmt args = .ok text ↔ vformat fmt args = some text := by
  unfold formatText
  cases vformat fmt args with
  | none => simp
  | some text' => simp

/-- A text without a NUL that is sent as a format arrives unchanged exactly if it has no `%`. -/
theorem httpPrintfJson_stored_iff {code : Nat} {content : Bytes} (hzero : 0 ∉ content) :
    (∃ response, httpPrintfJson code content [] = .ok response ∧ response.body = content) ↔
      percent ∉ content := by
  rw [← vformat_eq_self_iff]
  constructor
  · rintro ⟨response, hresponse, hbody⟩
    obtain ⟨-, htext, -⟩ := httpPrintfJson_eq_ok hresponse
    rw [cstr_eq_self hzero, hbody] at htext
    exact formatText_eq_ok_iff.mp htext
  · intro htext
    refine ⟨⟨code, bytes "application/json", content.length, content⟩, ?_, rfl⟩
    rw [httpPrintfJson, cstr_eq_self hzero, formatText_eq_ok htext]
    rfl

/-! ### What `put` can do -/

section Put

variable {stack : Stack} {b : Bytes} {io : PutIo} {file : Option Bytes} {r : PutResult}

theorem putConfig_of_toks {mem : TokMem} {toks : NetToks} {c : NetConfig}
    (htoks : putToks stack b = .ok (some (mem, toks)))
    (hc : networkConfigToks b mem toks = .ok c) : putConfig stack b = .ok (some c) := by
  rw [putConfig, htoks, run_bind_ok]
  change (networkConfigToks b mem toks >>= _) = _
  rw [hc]
  rfl

theorem putConfig_eq_none_iff : putConfig stack b = .ok none ↔ putToks stack b = .ok none := by
  constructor
  · intro h
    obtain ⟨found, hfound, h⟩ := run_bind_eq_ok h
    cases found with
    | none => exact hfound
    | some found =>
        obtain ⟨c, -, h⟩ := run_bind_eq_ok h
        cases h
  · intro h
    rw [putConfig, h]
    rfl

/-- The outcomes of `put`: the body is rejected, the file can't be opened, or it is written. -/
inductive PutOutcome (stack : Stack) (b : Bytes) (io : PutIo) (file : Option Bytes)
    (r : PutResult) : Prop where
  | rejected (hconfig : putConfig stack b = .ok none) (hfile : r.file = file)
      (hcode : r.response.code = 500)
  | closed (htoks : putConfig stack b ≠ .ok none) (hopened : io.opened = false)
      (hfile : r.file = file) (hcode : r.response.code = 500)
  | written {c : NetConfig} (hconfig : putConfig stack b = .ok (some c))
      (hopened : io.opened = true)
      (hfile : r.file = some ((configText c.printed).take io.kept))
      (hcode : r.response.code = if io.printed < 0 then 500 else 200)

theorem networkPut_outcome (hput : networkPut stack b io file = .ok r) :
    PutOutcome stack b io file r := by
  obtain ⟨found, hfound, hput⟩ := run_bind_eq_ok hput
  cases found with
  | none =>
      obtain ⟨response, hresponse, hput⟩ := run_bind_eq_ok hput
      obtain rfl := Except.ok.inj hput
      exact .rejected (putConfig_eq_none_iff.mpr hfound) rfl (httpPrintfJson_eq_ok hresponse).1
  | some found =>
      obtain ⟨mem, toks⟩ := found
      dsimp only at hput
      split at hput
      · next hopened =>
        obtain ⟨c, hc, hput⟩ := run_bind_eq_ok hput
        obtain ⟨text, htext, hput⟩ := run_bind_eq_ok hput
        obtain rfl := Except.ok.inj ((printNetworkConfig_eq c).symm.trans htext)
        split at hput
        · next hprinted =>
          obtain ⟨response, hresponse, hput⟩ := run_bind_eq_ok hput
          obtain rfl := Except.ok.inj hput
          refine .written (putConfig_of_toks hfound hc) hopened rfl ?_
          rw [if_pos hprinted]
          exact (httpPrintfJson_eq_ok hresponse).1
        · next hprinted =>
          obtain ⟨response, hresponse, hput⟩ := run_bind_eq_ok hput
          obtain rfl := Except.ok.inj hput
          refine .written (putConfig_of_toks hfound hc) hopened rfl ?_
          rw [if_neg hprinted]
          exact (httpPrintfJson_eq_ok hresponse).1
      · next hopened =>
        obtain ⟨response, hresponse, hput⟩ := run_bind_eq_ok hput
        obtain rfl := Except.ok.inj hput
        refine .closed ?_ (Bool.eq_false_iff.mpr hopened) rfl (httpPrintfJson_eq_ok hresponse).1
        rw [Ne, putConfig_eq_none_iff, hfound]
        simp

/-- **The stored document comes back.** After an accepted `put`, `get` sends the content of the file
exactly if the content has no `%`: it is rendered as a format. -/
theorem networkGet_after_put_iff (hput : networkPut stack b io file = .ok r)
    (hcode : r.response.code = 200) :
    ∃ content, r.file = some content ∧
      ((∃ response, networkGet r.file (.success content) = .ok response ∧ response.code = 200 ∧
        response.body = content ∧ response.contentLength = content.length) ↔
          percent ∉ content) := by
  cases networkPut_outcome hput with
  | rejected hconfig hfile hfail | closed hconfig hopened hfile hfail =>
      rw [hcode] at hfail
      exact absurd hfail (by decide)
  | @written c hconfig hopened hfile hprinted =>
      have hzero : 0 ∉ (configText c.printed).take io.kept := by
        intro hmem
        exact zero_notMem_configText c (List.mem_of_mem_take hmem)
      refine ⟨_, hfile, ?_⟩
      rw [hfile, ← httpPrintfJson_stored_iff hzero]
      generalize (configText c.printed).take io.kept = content
      have hget : networkGet (some content) (.success content) = httpPrintfJson 200 content [] := by
        simp [networkGet, GetIo.success]
      rw [hget]
      constructor
      · rintro ⟨response, hresponse, -, hbody, -⟩
        exact ⟨response, hresponse, hbody⟩
      · rintro ⟨response, hresponse, hbody⟩
        obtain ⟨hcode, -, hlength⟩ := httpPrintfJson_eq_ok hresponse
        exact ⟨response, hresponse, hcode, hbody, hbody ▸ hlength⟩

theorem networkGet_after_put_sample :
    ∃ r content response, networkPut zeroStack (documentOf (quoted (bytes "x")))
        (.success (configText (configOf (bytes "x")))) none = .ok r ∧
      r.file = some content ∧ networkGet r.file (.success content) = .ok response ∧
      response.body = content := by
  have hput : networkPut zeroStack (documentOf (quoted (bytes "x")))
      (.success (configText (configOf (bytes "x")))) none = .ok
        { file := some (configText (configOf (bytes "x")))
          response := ⟨200, bytes "application/json", 14, bytes "\x7b\"error\":\"ok\"\x7d"⟩ } := by
    decide +kernel
  obtain ⟨content, hfile, hget⟩ := networkGet_after_put_iff hput rfl
  have hcontent : content = configText (configOf (bytes "x")) := (Option.some.inj hfile).symm
  have hpercent : percent ∉ content := by
    rw [hcontent]
    decide
  obtain ⟨response, hresponse, -, hbody, -⟩ := hget.mpr hpercent
  exact ⟨_, content, response, hput, hfile, hresponse, hbody⟩

/-- `100%%` is stored and `100%` is sent. -/
theorem networkGet_drops_percent :
    ∃ r content response, networkPut zeroStack (documentOf (quoted (bytes "100%%")))
        (.success (configText (configOf (bytes "100%%")))) none = .ok r ∧
      r.response.code = 200 ∧ r.file = some content ∧
      networkGet r.file (.success content) = .ok response ∧ response.body ≠ content := by
  refine ⟨{ file := some (configText (configOf (bytes "100%%")))
            response := ⟨200, bytes "application/json", 14, bytes "\x7b\"error\":\"ok\"\x7d"⟩ },
    configText (configOf (bytes "100%%")),
    ⟨200, bytes "application/json", (configText (configOf (bytes "100%"))).length,
      configText (configOf (bytes "100%"))⟩, ?_, rfl, rfl, ?_, ?_⟩
  · decide +kernel
  · decide +kernel
  · decide

/-- What a client may conclude from the answer. -/
structure PutContract (stack : Stack) (b : Bytes) (file : Option Bytes) (r : PutResult) : Prop where
  unchanged : r.response.code ≠ 200 → r.file = file
  stored : r.response.code = 200 → ∃ c text, putConfig stack b = .ok (some c) ∧
    printNetworkConfig c = .ok text ∧ r.file = some text

/-- **The answer of `put` tells what the file holds** exactly if the body was rejected, or the file
was not opened, or nothing failed after that, or what a failure left is what was there before. -/
theorem networkPut_contract_iff (hput : networkPut stack b io file = .ok r) :
    PutContract stack b file r ↔
      putConfig stack b = .ok none ∨ io.opened = false ∨
        ∃ c text, putConfig stack b = .ok (some c) ∧ printNetworkConfig c = .ok text ∧
          (0 ≤ io.printed ∧ text.length ≤ io.kept ∨
            io.printed < 0 ∧ file = some (text.take io.kept)) := by
  cases networkPut_outcome hput with
  | rejected hconfig hfile hcode =>
      refine iff_of_true ⟨fun _ => hfile, fun hok => ?_⟩ (.inl hconfig)
      rw [hcode] at hok
      exact absurd hok (by decide)
  | closed hconfig hopened hfile hcode =>
      refine iff_of_true ⟨fun _ => hfile, fun hok => ?_⟩ (.inr (.inl hopened))
      rw [hcode] at hok
      exact absurd hok (by decide)
  | @written c hconfig hopened hfile hcode =>
      have hprint := printNetworkConfig_eq c
      constructor
      · intro h
        refine .inr (.inr ⟨c, _, hconfig, hprint, ?_⟩)
        by_cases hprinted : io.printed < 0
        · rw [if_pos hprinted] at hcode
          refine .inr ⟨hprinted, ?_⟩
          rw [← hfile]
          exact (h.unchanged (by rw [hcode]; decide)).symm
        · rw [if_neg hprinted] at hcode
          obtain ⟨c', text, hconfig', hprint', hfile'⟩ := h.stored hcode
          obtain rfl := Option.some.inj (Except.ok.inj (hconfig.symm.trans hconfig'))
          obtain rfl := Except.ok.inj (hprint.symm.trans hprint')
          have htake := congrArg List.length (Option.some.inj (hfile.symm.trans hfile'))
          rw [List.length_take] at htake
          exact .inl ⟨by omega, by omega⟩
      · rintro (hnone | hclosed | ⟨c', text, hconfig', hprint', hio⟩)
        · rw [hconfig] at hnone
          cases hnone
        · rw [hopened] at hclosed
          cases hclosed
        · obtain rfl := Option.some.inj (Except.ok.inj (hconfig.symm.trans hconfig'))
          obtain rfl := Except.ok.inj (hprint.symm.trans hprint')
          rcases hio with ⟨hprinted, hkept⟩ | ⟨hprinted, hsame⟩
          · rw [if_neg (by omega)] at hcode
            refine ⟨fun hne => absurd hcode hne, fun _ => ⟨c, _, hconfig, hprint, ?_⟩⟩
            rw [hfile, List.take_of_length_le hkept]
          · rw [if_pos hprinted] at hcode
            refine ⟨fun _ => hfile.trans hsame.symm, fun hok => ?_⟩
            rw [hcode] at hok
            exact absurd hok (by decide)

/-- A document that is stored over an old file. -/
theorem networkPut_contract_sample :
    ∃ r, networkPut zeroStack (documentOf (quoted (bytes "x")))
        (.success (configText (configOf (bytes "x")))) (some (bytes "old")) = .ok r ∧
      r.response.code = 200 ∧ r.file = some (configText (configOf (bytes "x"))) ∧
      PutContract zeroStack (documentOf (quoted (bytes "x"))) (some (bytes "old")) r := by
  have hput : networkPut zeroStack (documentOf (quoted (bytes "x")))
      (.success (configText (configOf (bytes "x")))) (some (bytes "old")) = .ok
        { file := some (configText (configOf (bytes "x")))
          response := ⟨200, bytes "application/json", 14, bytes "\x7b\"error\":\"ok\"\x7d"⟩ } := by
    decide +kernel
  have hconfig : putConfig zeroStack (documentOf (quoted (bytes "x"))) =
      .ok (some (configOf (bytes "x"))) := by
    rfl
  have hprint := printNetworkConfig_eq (configOf (bytes "x"))
  have hkept : (configText (configOf (bytes "x")).printed).length ≤
      (PutIo.success (configText (configOf (bytes "x")))).kept := by
    decide
  exact ⟨_, hput, rfl, rfl, (networkPut_contract_iff hput).mpr
    (.inr (.inr ⟨_, _, hconfig, hprint, .inl ⟨by decide, hkept⟩⟩))⟩

/-- `fprintf` fails, `put` answers 500, and the file that was there is empty. -/
theorem networkPut_loses_file :
    ∃ r, networkPut zeroStack (documentOf (quoted (bytes "x")))
        { opened := true, openError := [], printed := -1, printError := bytes "EIO", kept := 0 }
        (some (bytes "old")) = .ok r ∧
      r.response.code = 500 ∧ r.file = some [] ∧
      ¬PutContract zeroStack (documentOf (quoted (bytes "x"))) (some (bytes "old")) r := by
  refine ⟨{ file := some []
            response := ⟨500, bytes "application/json", 15, bytes "\x7b\"error\":\"EIO\"\x7d"⟩ },
    by decide +kernel, rfl, rfl, ?_⟩
  intro h
  have hfile := h.unchanged (by decide)
  exact absurd hfile (by decide)

end Put

end AtxSys
