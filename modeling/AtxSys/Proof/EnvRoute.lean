import AtxSys.EnvRoute
import AtxSys.Proof.Query

/-!
# Asking for one variable

The name is copied with the size of a pointer for the size of the buffer, so the variable that is
answered is the one of the cut name.
-/

namespace AtxSys

open CText Slices

/-! ### The two answers -/

section Answers

variable {vars : List (Bytes × Bytes)} {env : Env} {value : Bytes}

/-- The value of the first variable with this name. -/
def firstNamed (vars : List (Bytes × Bytes)) (name : Bytes) : Option Bytes :=
  (vars.find? fun v => cstr v.1 = name).map Prod.snd

theorem envReadVal_fst (env : Env) (key : Bytes) (vars : List (Bytes × Bytes)) :
    (envReadVal env key vars).1 = firstNamed vars (cstr key) := by
  induction vars with
  | nil => rfl
  | cons v vars ih =>
      by_cases hname : cstr v.1 = cstr key
      · simp [envReadVal, firstNamed, hname]
      · simp only [envReadVal, if_neg hname, ih]
        simp [firstNamed, hname]

/-- The body of an answer with a value. -/
def envValText (value : Bytes) : Bytes := bytes "\x7b\"val\":\"" ++ (cstr value ++ bytes "\"")

theorem envValFormat_renders (value : Bytes) :
    httpPrintfJson 200 envValFormat [.str value] = .ok
      ⟨200, bytes "application/json", (envValText value).length, envValText value⟩ := by
  have hcstr : cstr envValFormat = envValFormat := cstr_eq_self (by decide)
  have htext : vformat envValFormat [.str value] = some (envValText value) := by
    rw [envValFormat, vformat_append (by decide), vformat_str, vformat_text (by decide)]
    rfl
  rw [httpPrintfJson, hcstr, formatText_eq_ok htext]
  rfl

theorem envErrorFormat_renders :
    httpPrintfJson 404 envErrorFormat [.str (httpErrorMessage 404)] = .ok
      ⟨404, bytes "application/json", 20, bytes "\x7b\"error\":\"not found\""⟩ := by
  decide +kernel

/-- 200 with the value of the first variable with this name, or 404 if there is none. -/
def AnswersFor (vars : List (Bytes × Bytes)) (name : Bytes) (r : Run Response) : Prop :=
  match firstNamed vars name with
  | some value => ∃ response, r = .ok response ∧ response.code = 200 ∧
    response.body = envValText value
  | none => ∃ response, r = .ok response ∧ response.code = 404

theorem answersFor_congr {name name' : Bytes} {r : Run Response}
    (h : (firstNamed vars name).map cstr = (firstNamed vars name').map cstr)
    (hr : AnswersFor vars name r) : AnswersFor vars name' r := by
  unfold AnswersFor at hr ⊢
  cases hname : firstNamed vars name with
  | none =>
      rw [hname, Option.map_none, eq_comm, Option.map_eq_none_iff] at h
      rw [hname] at hr
      rw [h]
      exact hr
  | some value =>
      rw [hname, Option.map_some, eq_comm, Option.map_eq_some_iff] at h
      obtain ⟨value', hname', hvalue⟩ := h
      rw [hname] at hr
      rw [hname']
      dsimp only at hr ⊢
      rw [envValText, hvalue]
      exact hr

theorem answersFor_unique {name name' : Bytes} {r : Run Response} (hr : AnswersFor vars name r)
    (hr' : AnswersFor vars name' r) :
    (firstNamed vars name).map cstr = (firstNamed vars name').map cstr := by
  unfold AnswersFor at hr hr'
  cases hname : firstNamed vars name with
  | none =>
      rw [hname] at hr
      obtain ⟨response, rfl, hcode⟩ := hr
      cases hname' : firstNamed vars name' with
      | none => rfl
      | some value' =>
          rw [hname'] at hr'
          obtain ⟨response', hresponse, hcode', -⟩ := hr'
          rw [← Except.ok.inj hresponse, hcode] at hcode'
          exact absurd hcode' (by decide)
  | some value =>
      rw [hname] at hr
      obtain ⟨response, rfl, hcode, hbody⟩ := hr
      cases hname' : firstNamed vars name' with
      | none =>
          rw [hname'] at hr'
          obtain ⟨response', hresponse, hcode'⟩ := hr'
          rw [← Except.ok.inj hresponse, hcode] at hcode'
          exact absurd hcode' (by decide)
      | some value' =>
          rw [hname'] at hr'
          obtain ⟨response', hresponse, -, hbody'⟩ := hr'
          rw [← Except.ok.inj hresponse, hbody, envValText, envValText] at hbody'
          have hvalue := List.append_cancel_right (List.append_cancel_left hbody')
          rw [Option.map_some, Option.map_some, hvalue]

end Answers

/-! ### The request -/

section Request

variable {abi : Abi} {strstr : MgStrstr} {env : Env} {vars : List (Bytes × Bytes)}
  {buffer : EnvBuffer} {name : Bytes} {next : UInt8}

/-- `var=` and a name. -/
def varQuery (name : Bytes) (next : UInt8) : QueryString := ⟨bytes "var=" ++ name, next⟩

theorem parse_varQuery (hname : ampersand ∉ name) :
    httpParseQueryStr strstr (varQuery name next) (bytes "var") = .ok (some (4, name.length)) := by
  have hfirst : FirstAt (bytes "var=" ++ name) (bytes "var") 0 :=
    ⟨⟨bytes "=" ++ name, rfl⟩, fun j hj => absurd hj (Nat.not_lt_zero j)⟩
  have hfind := (strstr.hfind _ _ 0 (by decide)).mpr hfirst
  have hlen : (bytes "var=" ++ name).length = name.length + 4 := by
    rw [List.length_append]
    exact Nat.add_comm _ _
  have hcstr : cstr (bytes "var") = bytes "var" := by decide
  have hbyte : (varQuery name next).byte (0 + (bytes "var").length) = equals := rfl
  have hvalue : (List.idxOf? ampersand name).getD name.length = name.length := by
    rw [List.idxOf?_eq_none_iff.mpr hname]
    rfl
  have hwantlen : (bytes "var").length = 3 := rfl
  rw [httpParseQueryStr, hcstr, varQuery, hfind]
  dsimp only
  rw [if_pos ⟨by omega, by omega, hbyte⟩, if_neg (by omega)]
  exact congrArg (fun l => Except.ok (some (4, l))) hvalue

/-- The name that is looked for. -/
def cutName (abi : Abi) (name : Bytes) : Bytes := (cstr name).take (abi.pointerSize - 1)

theorem envKey_eq (abi : Abi) (q : QueryString) (keyp keyl : Nat) :
    envKey abi q keyp keyl =
      .ok ((cstr ((q.text.drop keyp).take keyl)).take (abi.pointerSize - 1)) := by
  rw [envKey, formatText_precision, run_bind_ok]

theorem libubootIterator_open (hopen : env.isOpen = true) : libubootIterator env = .ok () :=
  if_pos hopen

theorem envGet_varQuery (hopen : env.isOpen = true) (hname : ampersand ∉ name) :
    envGet abi strstr env vars buffer (varQuery name next) =
      match firstNamed vars (cutName abi name) with
      | some val => httpPrintfJson 200 envValFormat [.str val]
      | none => httpPrintfJson 404 envErrorFormat [.str (httpErrorMessage 404)] := by
  have hdrop : ((varQuery name next).text.drop 4).take name.length = name := List.take_length ..
  have hcstr : cstr (cutName abi name) = cutName abi name := by
    apply cstr_eq_self
    intro hmem
    exact zero_notMem_cstr name (List.mem_of_mem_take hmem)
  rw [envGet, parse_varQuery hname, run_bind_ok]
  dsimp only
  rw [envKey_eq, run_bind_ok, libubootIterator_open hopen, run_bind_ok, hdrop, envReadVal_fst,
    ← cutName]
  cases hfirst : firstNamed vars (cutName abi name) with
  | none => simp only [hcstr, hfirst]
  | some value => simp only [hcstr, hfirst]

/-- The request is answered for the cut name, -/
theorem envGet_cut (hopen : env.isOpen = true) (hname : ampersand ∉ name) :
    AnswersFor vars (cutName abi name)
      (envGet abi strstr env vars buffer (varQuery name next)) := by
  rw [envGet_varQuery hopen hname, AnswersFor]
  cases firstNamed vars (cutName abi name) with
  | none => exact ⟨_, envErrorFormat_renders, rfl⟩
  | some value => exact ⟨_, envValFormat_renders value, rfl, rfl⟩

/-- **One variable.** With an open context the answer is the one for the name if and only if the
first variable with the cut name has the value of the first one with the whole name, or neither
exists. -/
theorem env_get_var_iff (abi : Abi) (strstr : MgStrstr) (env : Env) (vars : List (Bytes × Bytes))
    (buffer : EnvBuffer) (name : Bytes) (next : UInt8) (hopen : env.isOpen = true)
    (hname : ampersand ∉ name) :
    AnswersFor vars name (envGet abi strstr env vars buffer (varQuery name next)) ↔
      (firstNamed vars (cutName abi name)).map cstr = (firstNamed vars name).map cstr := by
  have hcut : AnswersFor vars (cutName abi name)
      (envGet abi strstr env vars buffer (varQuery name next)) := envGet_cut hopen hname
  constructor
  · intro hanswers
    exact answersFor_unique hcut hanswers
  · intro hsame
    exact answersFor_congr hsame hcut

/-- which is right for the names that a pointer has room for. -/
theorem cutName_eq_self (hzero : 0 ∉ name) (hlength : name.length < abi.pointerSize) :
    cutName abi name = name := by
  rw [cutName, cstr_eq_self hzero, List.take_of_length_le (by omega)]

section Concrete

/-- Pointers of eight bytes. -/
def lp64 : Abi := ⟨8, by decide, by decide⟩

def zeroBuffer : EnvBuffer := ⟨List.replicate envBufferSize 0, List.length_replicate ..⟩

/-- `version` fits, and is not answered with the value of `ver`. -/
theorem env_get_var_iff_short :
    AnswersFor [(bytes "ver", bytes "1"), (bytes "version", bytes "2")] (bytes "version")
      (envGet lp64 .scan ⟨some 0, true⟩ [(bytes "ver", bytes "1"), (bytes "version", bytes "2")]
        zeroBuffer (varQuery (bytes "version") space)) := by
  apply (env_get_var_iff lp64 .scan ⟨some 0, true⟩ _ zeroBuffer (bytes "version") space rfl
    (by decide)).mpr
  rw [cutName_eq_self (by decide) (by decide)]

/-- `bootcmd_b` is answered with the value of `bootcmd`. -/
theorem env_get_var_cut :
    ¬ AnswersFor [(bytes "bootcmd", bytes "a"), (bytes "bootcmd_b", bytes "b")]
      (bytes "bootcmd_b") (envGet lp64 .scan ⟨some 0, true⟩
        [(bytes "bootcmd", bytes "a"), (bytes "bootcmd_b", bytes "b")] zeroBuffer
        (varQuery (bytes "bootcmd_b") space)) := by
  intro hanswers
  have hsame := answersFor_unique (envGet_cut rfl (by decide)) hanswers
  exact absurd hsame (by decide)

end Concrete

end Request

end AtxSys
