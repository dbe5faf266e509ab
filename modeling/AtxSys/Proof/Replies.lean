import AtxSys.Lib.JsonPaste
import AtxSys.Proof.EnvRoute
import AtxSys.Updater

/-!
# Replies with pasted texts

The replies for one variable lack the brace that closes them. The reply of `PART_END` has it, and
pastes the name of the file as it was sent.
-/

namespace AtxSys

open CText JsonSyntax

/-- The body is labelled as JSON, an `int` holds its length, and these are its fields. -/
structure Response.Says (r : Response) (fields : List (Bytes × Scalar)) : Prop where
  label : r.contentType = bytes "application/json"
  length : r.body.length < 2 ^ 31
  decodes : Decodes r.body fields

/-! ### One variable -/

/-- A document ends with a brace and blanks. -/
theorem not_decodes_of_quote {text : Bytes} {fields : List (Bytes × Scalar)} :
    ¬Decodes (text ++ [quote]) fields := by
  rintro ⟨d, ⟨-, -, htrail⟩, htext, -⟩
  have hbrace : d.text =
      (d.lead ++ lbrace :: (d.pad ++ d.members.text true)) ++ rbrace :: d.trail := by
    simp [Document.text, Document.value, Value.text]
  have hlast := congrArg List.getLast? (hbrace.symm.trans htext)
  rw [List.getLast?_concat, List.getLast?_append, List.getLast?_cons, Option.some_or] at hlast
  have hquote := Option.some.inj hlast
  cases hend : d.trail.getLast? with
  | none =>
      rw [hend] at hquote
      exact absurd hquote (by decide)
  | some c =>
      rw [hend] at hquote
      exact htrail.quote_notMem (hquote ▸ List.mem_of_getLast? hend)

section Var

variable {abi : Abi} {strstr : MgStrstr} {env : Env} {vars : List (Bytes × Bytes)}
  {buffer : EnvBuffer} {q : QueryString} {keyp keyl : Nat}

theorem envGet_var (hopen : env.isOpen = true)
    (hparse : httpParseQueryStr strstr q (bytes "var") = .ok (some (keyp, keyl))) :
    ∃ response text, envGet abi strstr env vars buffer q = .ok response ∧
      response.contentType = bytes "application/json" ∧ response.body = text ++ [quote] := by
  rw [envGet, hparse, run_bind_ok]
  dsimp only
  rw [envKey_eq, run_bind_ok, libubootIterator_open hopen, run_bind_ok]
  cases (envReadVal env ((cstr ((q.text.drop keyp).take keyl)).take (abi.pointerSize - 1)) vars).1 with
  | some value =>
      refine ⟨_, bytes "\x7b\"val\":\"" ++ cstr value, envValFormat_renders value, rfl, ?_⟩
      exact (List.append_assoc ..).symm
  | none => exact ⟨_, bytes "\x7b\"error\":\"not found", envErrorFormat_renders, rfl, by decide⟩

end Var

/-! ### The end of a part -/

theorem plain_httpErrorMessage (e : Int) : Plain (httpErrorMessage e) := by
  unfold httpErrorMessage
  dsimp only
  split_ifs <;> decide

theorem cstr_of_plain {s : Bytes} (h : Plain s) : cstr s = s := by
  apply cstr_eq_self
  intro hmem
  exact absurd (h 0 hmem).1 (by decide)

section PartEnd

variable {u : Updater} {mp : MultipartPart}

/-- The fields of the reply of `PART_END`. -/
def partEndFields (u : Updater) (fileName : Bytes) : List (Bytes × Scalar) :=
  [(bytes "error", .str (httpErrorMessage (partEndReply u fileName).1)),
    (bytes "received", .prim (decimal (toInt u.len.toNat))),
    (bytes "from", .str (cstr fileName))]

def partEndText (u : Updater) (fileName : Bytes) : Bytes := objectText (partEndFields u fileName)

theorem partEnd_objectText (message number name : Bytes) :
    bytes "\x7b\"error\":\"" ++ (message ++ (bytes "\",\"received\":" ++ (number ++
      (bytes ",\"from\":\"" ++ (name ++ bytes "\"\x7d"))))) =
    objectText [(bytes "error", .str message), (bytes "received", .prim number),
      (bytes "from", .str name)] := by
  have hopen : bytes "\x7b\"error\":\"" = lbrace :: (quoted (bytes "error") ++ [colon, quote]) := by
    decide
  have hreceived : bytes "\",\"received\":" =
      quote :: comma :: (quoted (bytes "received") ++ [colon]) := by
    decide
  have hfrom : bytes ",\"from\":\"" = comma :: (quoted (bytes "from") ++ [colon, quote]) := by
    decide
  have hclose : bytes "\"\x7d" = [quote, rbrace] := by decide
  rw [hopen, hreceived, hfrom, hclose]
  simp [objectText, fieldsText, Scalar.text, separator, quoted]

theorem partEnd_renders (u : Updater) (fileName : Bytes) :
    httpPrintfJson (partEndReply u fileName).1 partEndFormat (partEndReply u fileName).2 =
      .ok ⟨(partEndReply u fileName).1, bytes "application/json",
        (partEndText u fileName).length, partEndText u fileName⟩ := by
  have hcstr : cstr partEndFormat = partEndFormat := cstr_eq_self (by decide)
  have hmessage := cstr_of_plain (plain_httpErrorMessage (partEndReply u fileName).1)
  have hargs : (partEndReply u fileName).2 =
      [.str (httpErrorMessage (partEndReply u fileName).1), .int (toInt u.len.toNat),
        .str fileName] := rfl
  have htext : vformat partEndFormat (partEndReply u fileName).2 =
      some (partEndText u fileName) := by
    rw [partEndText, partEndFields, ← partEnd_objectText, partEndFormat, hargs,
      vformat_append (by decide), vformat_str, hmessage, vformat_append (by decide), vformat_int,
      vformat_append (by decide), vformat_str, vformat_text (by decide)]
    rfl
  rw [httpPrintfJson, hcstr, formatText_eq_ok htext]
  rfl

theorem updateHandler_partEnd (u : Updater) (mp : MultipartPart) :
    ∃ o, updateHandler u mp .partEnd = .ok o ∧
      o.replies = [⟨(partEndReply u mp.fileName).1, bytes "application/json",
        (partEndText u mp.fileName).length, partEndText u mp.fileName⟩] := by
  refine ⟨⟨.clear, { mp with userData := false }, ipcEnd u, _⟩, ?_, rfl⟩
  change httpPrintfJson (partEndReply u mp.fileName).1 partEndFormat
    (partEndReply u mp.fileName).2 >>= _ = _
  rw [partEnd_renders]
  rfl

theorem decodes_partEndText_iff :
    Decodes (partEndText u mp.fileName) (partEndFields u mp.fileName) ↔
      Plain (cstr mp.fileName) := by
  have hmessage := plain_httpErrorMessage (partEndReply u mp.fileName).1
  have hnumber : (Scalar.prim (decimal (toInt u.len.toNat))).Plain :=
    .inr (.inr (.inr (number_decimal _)))
  have hnames : Plain (bytes "error") ∧ Plain (bytes "received") ∧ Plain (bytes "from") := by decide
  rw [partEndText, decodes_objectText_iff]
  simp only [partEndFields, List.forall_mem_cons, PlainField, hnames, true_and]
  constructor
  · rintro ⟨-, -, hname, -⟩
    exact hname
  · intro hname
    exact ⟨hmessage, hnumber, hname, fun _ h => absurd h List.not_mem_nil⟩

end PartEnd

/-- **Replies with pasted texts.** The reply for one variable of an open context is labelled as JSON
and never a document; the one of `PART_END` is what it should be exactly if nothing in the name of
the file has to be escaped, and an `int` holds its length. A name may hold any byte from 0x80 on;
its encoding is not looked at. -/
theorem pasted_replies_iff (abi : Abi) (strstr : MgStrstr) (env : Env)
    (vars : List (Bytes × Bytes)) (buffer : EnvBuffer) (q : QueryString) (keyp keyl : Nat)
    (hopen : env.isOpen = true)
    (hparse : httpParseQueryStr strstr q (bytes "var") = .ok (some (keyp, keyl))) (u : Updater)
    (mp : MultipartPart) :
    (∃ response, envGet abi strstr env vars buffer q = .ok response ∧
      response.contentType = bytes "application/json" ∧ ∀ fields, ¬response.Says fields) ∧
    ((∃ o response, updateHandler u mp .partEnd = .ok o ∧ o.replies = [response] ∧
        response.Says (partEndFields u mp.fileName)) ↔
      Plain (cstr mp.fileName) ∧ (partEndText u mp.fileName).length < 2 ^ 31) := by
  constructor
  · obtain ⟨response, text, hget, hlabel, hbody⟩ :=
      @envGet_var abi strstr env vars buffer q _ _ hopen hparse
    refine ⟨response, hget, hlabel, fun fields hsays => ?_⟩
    have hdecodes := hsays.decodes
    rw [hbody] at hdecodes
    exact not_decodes_of_quote hdecodes
  · obtain ⟨o, ho, hreplies⟩ := updateHandler_partEnd u mp
    constructor
    · rintro ⟨o₁, response, ho₁, hreplies₁, -, hlength, hdecodes⟩
      rw [← Except.ok.inj (ho.symm.trans ho₁), hreplies] at hreplies₁
      rw [← List.singleton_inj.mp hreplies₁] at hlength hdecodes
      exact ⟨decodes_partEndText_iff.mp hdecodes, hlength⟩
    · rintro ⟨hname, hlength⟩
      exact ⟨o, _, ho, hreplies, rfl, hlength, decodes_partEndText_iff.mpr hname⟩

theorem pasted_replies_iff_plain :
    (∃ response, envGet lp64 .scan ⟨some 0, true⟩ [(bytes "ver", bytes "1")] zeroBuffer
        (varQuery (bytes "ver") space) = .ok response ∧
      response.contentType = bytes "application/json" ∧ ∀ fields, ¬response.Says fields) ∧
    ∃ o response, updateHandler .clear ⟨bytes "a.swu", [], 0, true⟩ .partEnd = .ok o ∧
      o.replies = [response] ∧ response.Says (partEndFields .clear (bytes "a.swu")) := by
  obtain ⟨hvar, hpart⟩ := pasted_replies_iff lp64 .scan ⟨some 0, true⟩ [(bytes "ver", bytes "1")]
    zeroBuffer (varQuery (bytes "ver") space) 4 3 rfl (parse_varQuery (by decide)) .clear
    ⟨bytes "a.swu", [], 0, true⟩
  exact ⟨hvar, hpart.mpr ⟨by decide, by decide⟩⟩

/-- The answer for a variable with the value `1` is not closed. -/
theorem pasted_replies_open :
    ∃ response, envGet lp64 .scan ⟨some 0, true⟩ [(bytes "ver", bytes "1")] zeroBuffer
        (varQuery (bytes "ver") space) = .ok response ∧
      response.contentType = bytes "application/json" ∧
      response.body = bytes "\x7b\"val\":\"1\"" ∧
      ¬response.Says [(bytes "val", .str (bytes "1"))] := by
  refine ⟨_, (envGet_varQuery rfl (by decide)).trans (envValFormat_renders (bytes "1")), rfl, by decide,
    fun hsays => ?_⟩
  exact @not_decodes_of_quote (bytes "\x7b\"val\":\"1") _ hsays.decodes

end AtxSys
