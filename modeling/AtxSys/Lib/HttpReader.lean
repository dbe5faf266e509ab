import AtxSys.Lib.JsonPaste
import AtxSys.Lib.Printf
import AtxSys.Lib.Slices
import Mathlib.Data.List.DropRight

/-!
# Reading responses from a stream

A client of HTTP/1.0 that keeps its connection: it reads a status line and fields up to an empty
line, then as many bytes as `Content-Length` says. A message that was written so is read back with
everything behind it untouched. So a stream of messages is read as these messages, and a stream that
is cut anywhere as those that are complete.
-/

namespace HttpText

open CText

def crlf : Bytes := [carriageReturn, newline]

/-! ### The reader -/

/-- The bytes before the first CRLF, and those behind it. -/
def splitLine : Bytes → Option (Bytes × Bytes)
  | [] => none
  | c :: text =>
    if c = carriageReturn ∧ text.head? = some newline then some ([], text.tail)
    else (splitLine text).map fun r => (c :: r.1, r.2)

def isBlank (c : UInt8) : Bool := c = space || c = tab

def trim (s : Bytes) : Bytes := (s.dropWhile isBlank).rdropWhile isBlank

def isDigit (c : UInt8) : Bool := 48 ≤ c && c ≤ 57

/-- The status code of a line like `HTTP/1.0 200 OK`. -/
def readStatus (line : Bytes) : Option Nat :=
  let code := (line.drop 9).take 3
  if (line.take 9 = bytes "HTTP/1.0 " ∨ line.take 9 = bytes "HTTP/1.1 ") ∧ code.length = 3 ∧
      code.all isDigit ∧ (line.drop 12).head? = some space then
    some (decimalValue code)
  else none

def readField (line : Bytes) : Option (Bytes × Bytes) :=
  let name := line.takeWhile (· ≠ colon)
  if name = [] ∨ name.any isBlank ∨ colon ∉ line then none
  else some (name, trim (line.drop (name.length + 1)))

/-- The fields up to an empty line; there are no more of them than `fuel`. -/
def readFields : Nat → Bytes → Option (List (Bytes × Bytes) × Bytes)
  | 0, _ => none
  | fuel + 1, text =>
    (splitLine text).bind fun (line, text) =>
      if line = [] then some ([], text)
      else (readField line).bind fun field =>
        (readFields fuel text).map fun (fields, text) => (field :: fields, text)

def lower (c : UInt8) : UInt8 := if 65 ≤ c ∧ c ≤ 90 then c + 32 else c

def contentLength (fields : List (Bytes × Bytes)) : Option Nat :=
  (fields.find? fun field => field.1.map lower = bytes "content-length").bind fun field =>
    if field.2 ≠ [] ∧ field.2.all isDigit then some (decimalValue field.2) else none

structure Message where
  code : Nat
  fields : List (Bytes × Bytes)
  body : Bytes
  deriving DecidableEq

/-- Messages with these codes have no body. -/
def bodyless (code : Nat) : Bool := code < 200 || code = 204 || code = 304

def readMessage (text : Bytes) : Option (Message × Bytes) :=
  (splitLine text).bind fun (line, text) =>
    (readStatus line).bind fun code =>
      (readFields text.length text).bind fun (fields, text) =>
        (if bodyless code then some 0 else contentLength fields).bind fun n =>
          if n ≤ text.length then some (⟨code, fields, text.take n⟩, text.drop n) else none

def readMessages : Nat → Bytes → List Message × Bytes
  | 0, text => ([], text)
  | fuel + 1, text =>
    match readMessage text with
    | none => ([], text)
    | some (m, text) =>
      let (ms, text) := readMessages fuel text
      (m :: ms, text)

/-- The complete messages of a stream, and what is behind them. -/
def readStream (text : Bytes) : List Message × Bytes := readMessages text.length text

/-! ### The writer -/

def fieldText (field : Bytes × Bytes) : Bytes := field.1 ++ bytes ": " ++ field.2 ++ crlf

def statusText (code : Nat) : Bytes := bytes "HTTP/1.0 " ++ decimal code ++ bytes " " ++ crlf

def Message.text (m : Message) : Bytes :=
  statusText m.code ++ m.fields.flatMap fieldText ++ crlf ++ m.body

/-- A field that a line can hold. -/
structure PlainField (field : Bytes × Bytes) : Prop where
  name : field.1 ≠ [] ∧ colon ∉ field.1 ∧ carriageReturn ∉ field.1
  unbroken : field.1.any isBlank = false
  value : carriageReturn ∉ field.2 ∧ trim field.2 = field.2

structure Message.Plain (m : Message) : Prop where
  code : 100 ≤ m.code ∧ m.code < 1000
  body : bodyless m.code = false
  fields : ∀ field ∈ m.fields, PlainField field
  length : contentLength m.fields = some m.body.length

/-! ### Lines -/

theorem splitLine_line {line : Bytes} (h : carriageReturn ∉ line) (text : Bytes) :
    splitLine (line ++ crlf ++ text) = some (line, text) := by
  induction line with
  | nil => rfl
  | cons c line ih =>
      rw [List.mem_cons, not_or] at h
      rw [List.cons_append, List.cons_append, splitLine, if_neg fun hc => h.1 hc.1.symm, ih h.2]
      rfl

theorem splitLine_append {text line rest : Bytes} (h : splitLine text = some (line, rest))
    (more : Bytes) : splitLine (text ++ more) = some (line, rest ++ more) := by
  induction text generalizing line with
  | nil => cases h
  | cons c text ih =>
      rw [splitLine] at h
      rw [List.cons_append, splitLine]
      split at h
      · rename_i hend
        obtain ⟨hc, hhead⟩ := hend
        obtain ⟨tail, rfl⟩ := List.head?_eq_some_iff.mp hhead
        cases h
        rw [if_pos ⟨hc, rfl⟩]
        rfl
      · rename_i hend
        obtain ⟨⟨line', rest'⟩, hline, heq⟩ := Option.map_eq_some_iff.mp h
        cases heq
        have hne : text ≠ [] := by
          rintro rfl
          cases hline
        rw [if_neg, ih hline]
        · rfl
        · rw [List.head?_append_of_ne_nil _ hne]
          exact hend

/-! ### Numbers -/

theorem decimalValue_snoc (s : Bytes) (c : UInt8) :
    decimalValue (s ++ [c]) = 10 * decimalValue s + (c.toNat - 48) := by
  rw [decimalValue, List.foldl_append]
  rfl

theorem decimal_natCast (n : Nat) : decimal n = bytes n.repr := rfl

theorem decimalValue_decimal (n : Nat) : decimalValue (decimal n) = n := by
  rw [decimal_natCast]
  induction n using Nat.strongRecOn with
  | ind n ih =>
      have hdigit : ∀ m < 10, (JsonSyntax.digitByte m).toNat - 48 = m := by
        intro m hm
        rw [JsonSyntax.digitByte, UInt8.toNat_ofNat']
        omega
      rw [JsonSyntax.bytes_repr]
      split
      · rename_i hlt
        rw [← List.nil_append [_], decimalValue_snoc, hdigit n hlt]
        exact Nat.zero_add n
      · rw [decimalValue_snoc, ih _ (by omega), hdigit _ (by omega)]
        omega

theorem digits_decimal (n : Nat) : decimal n ≠ [] ∧ ∀ c ∈ decimal n, 48 ≤ c ∧ c ≤ 57 :=
  (JsonSyntax.digits_repr n).1

theorem all_isDigit_decimal (n : Nat) : (decimal n).all isDigit = true := by
  rw [List.all_eq_true]
  intro c hc
  simpa [isDigit] using (digits_decimal n).2 c hc

theorem length_decimal {n : Nat} (hlow : 100 ≤ n) (hhigh : n < 1000) : (decimal n).length = 3 := by
  rw [decimal_natCast, JsonSyntax.bytes_repr, if_neg (by omega), JsonSyntax.bytes_repr,
    if_neg (by omega), JsonSyntax.bytes_repr, if_pos (by omega)]
  rfl

theorem notMem_of_digits {s : Bytes} {c : UInt8} (h : ∀ d ∈ s, 48 ≤ d ∧ d ≤ 57)
    (hc : ¬(48 ≤ c ∧ c ≤ 57)) : c ∉ s := fun hmem => hc (h c hmem)

/-! ### What is read of a line -/

theorem readStatus_decimal {code : Nat} (h : 100 ≤ code ∧ code < 1000) :
    readStatus (bytes "HTTP/1.0 " ++ decimal code ++ bytes " ") = some code := by
  have hlength := length_decimal h.1 h.2
  have hnine : (bytes "HTTP/1.0 ").length = 9 := rfl
  have hcode : ((bytes "HTTP/1.0 " ++ decimal code ++ bytes " ").drop 9).take 3 = decimal code := by
    rw [List.append_assoc, List.drop_left' hnine, List.take_left' hlength]
  have hversion : (bytes "HTTP/1.0 " ++ decimal code ++ bytes " ").take 9 = bytes "HTTP/1.0 " := by
    rw [List.append_assoc, List.take_left' hnine]
  have hspace : (bytes "HTTP/1.0 " ++ decimal code ++ bytes " ").drop 12 = bytes " " := by
    apply List.drop_left'
    rw [List.length_append, hnine, hlength]
  rw [readStatus, hcode, hversion, if_pos, decimalValue_decimal]
  exact ⟨.inl rfl, hlength, all_isDigit_decimal code, congrArg List.head? hspace⟩

theorem trim_space (s : Bytes) : trim (space :: s) = trim s := by
  rw [trim, List.dropWhile_cons_of_pos rfl, trim]

theorem trim_eq_self {s : Bytes} (h : ∀ c ∈ s, isBlank c = false) : trim s = s := by
  have hdrop : s.dropWhile isBlank = s := by
    cases s with
    | nil => rfl
    | cons c s => rw [List.dropWhile_cons_of_neg (by simp [h c List.mem_cons_self])]
  rw [trim, hdrop, List.rdropWhile_eq_self_iff]
  intro hne
  simp [h _ (List.getLast_mem hne)]

theorem plain_decimal (n : Nat) : carriageReturn ∉ decimal n ∧ trim (decimal n) = decimal n := by
  have hdigits := (digits_decimal n).2
  have hspace : space ∉ decimal n := notMem_of_digits hdigits (by decide)
  have htab : tab ∉ decimal n := notMem_of_digits hdigits (by decide)
  refine ⟨notMem_of_digits hdigits (by decide), trim_eq_self fun c hc => ?_⟩
  simp [isBlank, ne_of_mem_of_not_mem hc hspace, ne_of_mem_of_not_mem hc htab]

theorem plainField_of_name {name value : Bytes}
    (hname : name ≠ [] ∧ colon ∉ name ∧ carriageReturn ∉ name)
    (hunbroken : name.any isBlank = false)
    (hvalue : carriageReturn ∉ value ∧ trim value = value) : PlainField (name, value) :=
  ⟨hname, hunbroken, hvalue⟩

theorem readField_line {field : Bytes × Bytes} (h : PlainField field) :
    readField (field.1 ++ bytes ": " ++ field.2) = some field := by
  obtain ⟨name, value⟩ := field
  obtain ⟨⟨hne, hcolon, -⟩, hblank, -, htrim⟩ := h
  have hline : name ++ bytes ": " ++ value = name ++ colon :: space :: value := by
    rw [List.append_assoc]
    rfl
  have hname : (name ++ colon :: space :: value).takeWhile (· ≠ colon) = name :=
    Slices.takeWhile_append_cons hcolon
  have hrest : (name ++ colon :: space :: value).drop (name.length + 1) = space :: value := by
    rw [List.append_cons]
    exact List.drop_left' List.length_append
  rw [readField, hline, hname, if_neg, hrest, trim_space, htrim]
  rintro (hnil | hany | hmem)
  · exact hne hnil
  · rw [hblank] at hany
    cases hany
  · exact hmem (by simp)

/-! ### Fields -/

theorem readFields_append {fuel fuel' : Nat} {text rest : Bytes} {fields : List (Bytes × Bytes)}
    (h : readFields fuel text = some (fields, rest)) (hle : fuel ≤ fuel') (more : Bytes) :
    readFields fuel' (text ++ more) = some (fields, rest ++ more) := by
  induction fuel generalizing fuel' text fields with
  | zero => cases h
  | succ fuel ih =>
      obtain ⟨fuel', rfl⟩ : ∃ n, fuel' = n + 1 := ⟨fuel' - 1, by omega⟩
      obtain ⟨⟨line, behind⟩, hline, h⟩ := Option.bind_eq_some_iff.mp h
      rw [readFields, splitLine_append hline, Option.bind_some]
      dsimp only at h ⊢
      split at h
      · rename_i hnil
        cases h
        rw [if_pos hnil]
      · rename_i hne
        obtain ⟨field, hfield, h⟩ := Option.bind_eq_some_iff.mp h
        obtain ⟨⟨fields', rest'⟩, hfields, heq⟩ := Option.map_eq_some_iff.mp h
        cases heq
        rw [if_neg hne, hfield, Option.bind_some, ih hfields (by omega)]
        rfl

theorem readFields_text {fields : List (Bytes × Bytes)} (h : ∀ field ∈ fields, PlainField field)
    {fuel : Nat} (hfuel : fields.length < fuel) (text : Bytes) :
    readFields fuel (fields.flatMap fieldText ++ crlf ++ text) = some (fields, text) := by
  induction fields generalizing fuel with
  | nil =>
      obtain ⟨fuel, rfl⟩ : ∃ n, fuel = n + 1 := ⟨fuel - 1, by simp at hfuel; omega⟩
      rfl
  | cons field fields ih =>
      obtain ⟨fuel, rfl⟩ : ∃ n, fuel = n + 1 := ⟨fuel - 1, by simp at hfuel; omega⟩
      have hplain := h field List.mem_cons_self
      have hbroken : carriageReturn ∉ field.1 ++ bytes ": " ++ field.2 := by
        simp only [List.mem_append, not_or]
        exact ⟨⟨hplain.name.2.2, by decide⟩, hplain.value.1⟩
      have hne : field.1 ++ bytes ": " ++ field.2 ≠ [] := by
        simp [hplain.name.1]
      have htext : (field :: fields).flatMap fieldText ++ crlf ++ text =
          field.1 ++ bytes ": " ++ field.2 ++ crlf ++
            (fields.flatMap fieldText ++ crlf ++ text) := by
        simp only [List.flatMap_cons, fieldText, List.append_assoc]
      rw [htext, readFields, splitLine_line hbroken, Option.bind_some]
      dsimp only
      rw [if_neg hne, readField_line hplain, Option.bind_some,
        ih (fun f hf => h f (List.mem_cons_of_mem _ hf))]
      · rfl
      · rw [List.length_cons] at hfuel
        omega

theorem length_le_fieldTexts (fields : List (Bytes × Bytes)) :
    fields.length ≤ (fields.flatMap fieldText).length := by
  induction fields with
  | nil => exact Nat.le_refl 0
  | cons field fields ih =>
      have hpos : 0 < (fieldText field).length := by
        rw [fieldText, List.length_append]
        exact Nat.lt_add_left _ (by decide)
      rw [List.flatMap_cons, List.length_append, List.length_cons]
      omega

/-! ### Messages -/

theorem readMessage_append {text rest : Bytes} {m : Message}
    (h : readMessage text = some (m, rest)) (more : Bytes) :
    readMessage (text ++ more) = some (m, rest ++ more) := by
  obtain ⟨⟨line, text₁⟩, hline, h⟩ := Option.bind_eq_some_iff.mp h
  obtain ⟨code, hcode, h⟩ := Option.bind_eq_some_iff.mp h
  obtain ⟨⟨fields, text₂⟩, hfields, h⟩ := Option.bind_eq_some_iff.mp h
  obtain ⟨n, hn, h⟩ := Option.bind_eq_some_iff.mp h
  split at h
  · rename_i hle
    cases h
    have hlonger : text₁.length ≤ (text₁ ++ more).length := by
      rw [List.length_append]
      exact Nat.le_add_right _ _
    have hmore := readFields_append hfields hlonger more
    rw [readMessage, splitLine_append hline, Option.bind_some]
    dsimp only
    rw [hcode, Option.bind_some, hmore, Option.bind_some]
    dsimp only
    rw [hn, Option.bind_some, if_pos (by rw [List.length_append]; omega),
      List.take_append_of_le_length hle, List.drop_append_of_le_length hle]
  · cases h

/-- A message that is written is read back, with what is behind it. -/
theorem readMessage_text {m : Message} (h : m.Plain) (rest : Bytes) :
    readMessage (m.text ++ rest) = some (m, rest) := by
  have hstatus : carriageReturn ∉ bytes "HTTP/1.0 " ++ decimal m.code ++ bytes " " := by
    simp only [List.mem_append, not_or]
    exact ⟨⟨by decide, notMem_of_digits (digits_decimal m.code).2 (by decide)⟩, by decide⟩
  have htext : m.text ++ rest = bytes "HTTP/1.0 " ++ decimal m.code ++ bytes " " ++ crlf ++
      (m.fields.flatMap fieldText ++ crlf ++ (m.body ++ rest)) := by
    simp only [Message.text, statusText, List.append_assoc]
  have hfuel : m.fields.length <
      (m.fields.flatMap fieldText ++ crlf ++ (m.body ++ rest)).length := by
    have hle := length_le_fieldTexts m.fields
    have hcrlf : crlf.length = 2 := rfl
    simp only [List.length_append]
    omega
  rw [htext, readMessage, splitLine_line hstatus, Option.bind_some]
  dsimp only
  rw [readStatus_decimal h.code, Option.bind_some, readFields_text h.fields hfuel, Option.bind_some,
    h.body, if_neg Bool.false_ne_true, h.length, Option.bind_some,
    if_pos (by rw [List.length_append]; omega), List.take_left, List.drop_left]

/-- A message that is cut is not read. -/
theorem readMessage_cut {m : Message} (h : m.Plain) {part : Bytes} (hpart : part <+: m.text)
    (hne : part ≠ m.text) : readMessage part = none := by
  cases hread : readMessage part with
  | none => rfl
  | some r =>
      obtain ⟨m', rest⟩ := r
      obtain ⟨more, hmore⟩ := hpart
      have hwhole := readMessage_append hread more
      have htext := readMessage_text h []
      rw [List.append_nil, ← hmore, hwhole] at htext
      have hnil := (List.append_eq_nil_iff.mp (congrArg Prod.snd (Option.some.inj htext))).2
      rw [hnil, List.append_nil] at hmore
      exact absurd hmore hne

/-! ### Streams -/

theorem readMessages_texts {ms : List Message} (h : ∀ m ∈ ms, m.Plain) {part : Bytes}
    (hpart : readMessage part = none) {fuel : Nat} (hfuel : ms.length ≤ fuel) :
    readMessages fuel (ms.flatMap Message.text ++ part) = (ms, part) := by
  induction ms generalizing fuel with
  | nil =>
      cases fuel with
      | zero => rfl
      | succ fuel => rw [List.flatMap_nil, List.nil_append, readMessages, hpart]
  | cons m ms ih =>
      obtain ⟨fuel, rfl⟩ : ∃ n, fuel = n + 1 := ⟨fuel - 1, by simp at hfuel; omega⟩
      rw [List.flatMap_cons, List.append_assoc, readMessages,
        readMessage_text (h m List.mem_cons_self)]
      dsimp only
      rw [ih (fun m hm => h m (List.mem_cons_of_mem _ hm)) (Nat.le_of_succ_le_succ hfuel)]

theorem Message.text_ne_nil (m : Message) : m.text ≠ [] := by
  rw [Message.text, statusText]
  exact List.append_ne_nil_of_left_ne_nil (by simp [crlf]) _

theorem length_le_texts (ms : List Message) : ms.length ≤ (ms.flatMap Message.text).length := by
  induction ms with
  | nil => exact Nat.le_refl 0
  | cons m ms ih =>
      have hpos := List.length_pos_of_ne_nil m.text_ne_nil
      rw [List.flatMap_cons, List.length_append, List.length_cons]
      omega

/-- A stream of messages is read as these messages. -/
theorem readStream_texts {ms : List Message} (h : ∀ m ∈ ms, m.Plain) :
    readStream (ms.flatMap Message.text) = (ms, []) := by
  have hnil : readMessage [] = none := rfl
  have hread := readMessages_texts h hnil (length_le_texts ms)
  rw [List.append_nil] at hread
  exact hread

/-- A prefix of a stream ends inside of a message, or between two. -/
theorem prefix_texts {ms : List Message} {part : Bytes} (h : part <+: ms.flatMap Message.text) :
    ∃ k rest, part = (ms.take k).flatMap Message.text ++ rest ∧
      (rest = [] ∨ ∃ m, ms[k]? = some m ∧ rest <+: m.text ∧ rest ≠ m.text) := by
  induction ms generalizing part with
  | nil => exact ⟨0, [], List.prefix_nil.mp h, .inl rfl⟩
  | cons m ms ih =>
      rw [List.flatMap_cons] at h
      rcases List.prefix_or_prefix_of_prefix h (List.prefix_append m.text _) with hinside | hbehind
      · by_cases hwhole : part = m.text
        · refine ⟨1, [], ?_, .inl rfl⟩
          simp [hwhole]
        · exact ⟨0, part, rfl, .inr ⟨m, rfl, hinside, hwhole⟩⟩
      · obtain ⟨part', rfl⟩ := hbehind
        obtain ⟨k, rest, rfl, hrest⟩ := ih ((List.prefix_append_right_inj m.text).mp h)
        refine ⟨k + 1, rest, ?_, hrest⟩
        rw [List.take_succ_cons, List.flatMap_cons, List.append_assoc]

/-- What has arrived of a stream is read as the messages that are complete in it. -/
theorem readStream_prefix {ms : List Message} (h : ∀ m ∈ ms, m.Plain) {part : Bytes}
    (hpart : part <+: ms.flatMap Message.text) :
    ∃ k rest, part = (ms.take k).flatMap Message.text ++ rest ∧
      readStream part = (ms.take k, rest) ∧
      (rest = [] ∨ ∃ m, ms[k]? = some m ∧ rest <+: m.text ∧ rest ≠ m.text) := by
  obtain ⟨k, rest, rfl, hrest⟩ := prefix_texts hpart
  refine ⟨k, rest, rfl, ?_, hrest⟩
  have hnone : readMessage rest = none := by
    rcases hrest with rfl | ⟨m, hm, hinside, hne⟩
    · rfl
    · exact readMessage_cut (h m (List.mem_of_getElem? hm)) hinside hne
  apply readMessages_texts (fun m hm => h m (List.mem_of_mem_take hm)) hnone
  rw [List.length_append]
  exact Nat.le_add_right_of_le (length_le_texts _)

end HttpText
