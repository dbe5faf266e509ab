import AtxSys.Proof.Continuation
import AtxSys.Proof.NetworkConfig
import Mathlib.Data.List.Induction

/-!
# What is read back

The values that `print_network_config` writes come back through `parse_network_config` exactly if
each of them is the body of a string for the tokenizer. From right to left the text is a document
and the walks find its places. From left to right the values are taken in the order in which they
stand in the text: as long as the ones before are strings, the tokenizer comes to the opening quote
of the next one, and what it scans from there is what the guide of this value leads to.
-/

namespace AtxSys

open CText JsonSyntax Slices

/-! ### Up to the value of a member -/

def opening : Bytes := bytes "\x7b\"ipv4\":\x7b"

/-- The tokens of `{"ipv4":` -/
def frontToks : List JsmnTok := [⟨.object, 0, -1, 1⟩, ⟨.string, 2, 6, 1⟩]

theorem str_of_plain {s : Bytes} (h : 0 ∉ s ∧ quote ∉ s ∧ backslash ∉ s) :
    jsmnLexicon.str s := by
  induction s with
  | nil => exact StringBody.nil
  | cons c s ih =>
      simp only [List.mem_cons, not_or] at h
      obtain ⟨⟨hzero, hs⟩, ⟨hquote, hs'⟩, ⟨hbackslash, hs''⟩⟩ := h
      exact StringBody.plain (Ne.symm hzero) (Ne.symm hquote) (Ne.symm hbackslash)
        (ih ⟨hs, hs', hs''⟩)

section Reach

variable {js rest : Bytes} {numTokens : Nat}

theorem jsmnStep_lbrace (p : JsmnParser) :
    jsmnStep js numTokens lbrace p = openContainer numTokens .object p := rfl

theorem opening_run (hroom : 3 ≤ numTokens) (hleft : js.drop 0 = opening ++ rest) :
    JsmnRun js numTokens jsmnInit
      { pos := 9, toks := frontToks ++ [⟨.object, 8, -1, 0⟩], toksuper := some 2, count := 3 } := by
  have hsplit : opening ++ rest =
      lbrace :: ((quoted (bytes "ipv4") ++ [] ++ colon :: []) ++ lbrace :: rest) := rfl
  rw [hsplit] at hleft
  let top : JsmnParser :=
    { pos := 1, toks := [⟨.object, 0, -1, 0⟩], toksuper := some 0, count := 1 }
  have htop : jsmnStep js numTokens lbrace jsmnInit = .ok { top with pos := 0 } := by
    have hnext : jsmnInit.toknext = 0 := rfl
    rw [jsmnStep_lbrace, openContainer_eq jsmnInit_spine.superIn, hnext, if_neg (by omega)]
    rfl
  have hfirst : JsmnRun js numTokens jsmnInit top := JsmnRun.one hleft (by decide) htop
  have hin : Inside .object [] ⟨.object, 0, -1, 0⟩ [] top := ⟨rfl, rfl, rfl, by simp⟩
  have hnext : top.toknext = 1 := rfl
  have htwo : top.toknext < numTokens := by omega
  have hkey := key_run hin rfl (str_of_plain (by decide)) (by simp [Blank]) (by simp [Blank]) htwo
    (left_cons hleft)
  let keyed : JsmnParser :=
    { pos := 8, toks := [⟨.object, 0, -1, 1⟩, ⟨.string, 2, 6, 0⟩], toksuper := some 1, count := 2 }
  have hkeyed : jsmnStep js numTokens lbrace keyed = .ok
      { pos := 8, toks := frontToks ++ [⟨.object, 8, -1, 0⟩], toksuper := some 2, count := 3 } := by
    have hsuper : keyed.SuperIn := by
      intro s hs
      obtain rfl := Option.some.inj hs
      exact Nat.lt_succ_self 1
    have hnext : keyed.toknext = 2 := rfl
    rw [jsmnStep_lbrace, openContainer_eq hsuper, hnext, if_neg (by omega)]
    rfl
  have hlast := JsmnRun.one (p := keyed) (left_append (left_cons hleft)) (by decide) hkeyed
  exact (hfirst.trans hkey).trans hlast

def isFirst : Members → Bool
  | .nil => true
  | .cons .. => false

/-- Up to the opening quote of a value, with the members `done` before it. -/
def reaching (done : Members) (key : Bytes) : Bytes :=
  opening ++ (done.text true ++ (separator (isFirst done) ++ (quoted key ++ [colon])))

/-- The parser at the opening quote of the value. -/
def reached (done : Members) (key : Bytes) : JsmnParser where
  pos := (reaching done key).length
  toks := frontToks ++ ⟨.object, 8, -1, done.length + 1⟩ :: (membersToks done true 9 ++
    [⟨.string, (9 + (done.text true ++ separator (isFirst done)).length + 1 : Nat),
      (9 + (done.text true ++ separator (isFirst done)).length + 1 + key.length : Nat), 0⟩])
  toksuper := some (3 + done.count)
  count := 4 + done.count

theorem members_reached {done : Members} (hdone : done.Lexical jsmnLexicon)
    (hroom : 3 + done.count ≤ numTokens)
    (hleft : js.drop 0 = opening ++ (done.text true ++ (separator (isFirst done) ++ rest))) :
    ∃ q : JsmnParser, JsmnRun js numTokens jsmnInit q ∧
      Inside .object frontToks ⟨.object, 8, -1, done.length⟩ (membersToks done true 9) q ∧
      q.pos = 9 + (done.text true).length ∧ q.count = 3 + done.count ∧ Resumes frontToks q ∧
      (isFirst done = true → q.toksuper = some 2) := by
  have hthree : 3 ≤ numTokens := by omega
  have hstart := opening_run hthree hleft
  have hin : Inside .object frontToks ⟨.object, 8, -1, 0⟩ []
      { pos := 9, toks := frontToks ++ [⟨.object, 8, -1, 0⟩], toksuper := some 2, count := 3 } :=
    ⟨rfl, rfl, rfl, by simp⟩
  cases done with
  | nil => exact ⟨_, hstart, hin, rfl, rfl, .inl rfl, fun _ => rfl⟩
  | cons before key beforeColon afterColon value after rest' =>
      obtain ⟨s, hrun, hresumes⟩ := members_run _ true hdone hin
        (fun _ => rfl) (.inl rfl) hroom (left_append hleft) (.cons rfl)
      refine ⟨_, hstart.trans hrun, ⟨?_, rfl, rfl, membersToks_closed _ true 9⟩, rfl, rfl, hresumes,
        fun h => by cases h⟩
      simp [JsmnParser.afterMembers]

theorem member_reached {done : Members} {key : Bytes} (hdone : done.Lexical jsmnLexicon)
    (hkey : jsmnLexicon.str key) (hroom : 4 + done.count ≤ numTokens)
    (hleft : js.drop 0 = reaching done key ++ rest) :
    JsmnRun js numTokens jsmnInit (reached done key) := by
  have hsplit : reaching done key ++ rest = opening ++ (done.text true ++
      (separator (isFirst done) ++ ((quoted key ++ [] ++ colon :: []) ++ rest))) := by
    simp [reaching]
  rw [hsplit] at hleft
  have hroom' : 3 + done.count ≤ numTokens := by omega
  obtain ⟨q, hrun, hin, hpos, hcount, hresumes, hfirst⟩ := members_reached hdone hroom' hleft
  have hqLeft : js.drop q.pos =
      separator (isFirst done) ++ ([] ++ ((quoted key ++ [] ++ colon :: []) ++ rest)) := by
    rw [hpos]
    exact left_append (left_append hleft)
  let entry : JsmnParser :=
    { q with toksuper := some frontToks.length
             pos := q.pos + (separator (isFirst done) ++ []).length }
  have hentry : JsmnRun js numTokens q entry :=
    entry_run hin (.inl rfl) hfirst hresumes (by simp [Blank]) hqLeft
  have hinEntry : Inside .object frontToks ⟨.object, 8, -1, done.length⟩ (membersToks done true 9)
      entry := ⟨hin.toks, hin.type, hin.opened, hin.closed⟩
  have hnext : entry.toknext = 3 + done.count := by
    simp only [JsmnParser.toknext, hinEntry.toks, frontToks, List.length_append, List.length_cons,
      List.length_nil, membersToks_length]
    omega
  have hkeyLeft : js.drop entry.pos = (quoted key ++ [] ++ colon :: []) ++ rest := by
    simpa [entry] using left_append hqLeft
  have hentryRoom : entry.toknext < numTokens := by omega
  have hkeyRun := key_run hinEntry rfl hkey (by simp [Blank]) (by simp [Blank]) hentryRoom hkeyLeft
  have hentryPos : entry.pos = 9 + (done.text true ++ separator (isFirst done)).length := by
    simp only [entry, hpos, List.length_append, List.length_nil]
    omega
  have hend : (reaching done key).length =
      entry.pos + (quoted key ++ [] ++ colon :: []).length := by
    have hopening : opening.length = 9 := rfl
    simp only [reaching, hentryPos, List.length_append, List.length_cons, List.length_nil, hopening]
    omega
  have hsuper : frontToks.length + 1 + (membersToks done true 9).length = 3 + done.count := by
    rw [membersToks_length]
    rfl
  have hcountEntry : entry.count + 1 = 4 + done.count := by
    change q.count + 1 = _
    omega
  rw [reached, hend, ← hentryPos, ← hsuper, ← hcountEntry]
  exact (hrun.trans hentry).trans hkeyRun

end Reach

/-! ### The value that is scanned there -/

theorem tokText_congr {js : Bytes} {t t' : JsmnTok} (h : t.Grows t') (hclosed : t.isOpen = false) :
    tokText js t' = tokText js t := by
  rw [tokText, h.start, h.stop hclosed, tokText]

theorem Names.grown {js : Bytes} {toks toks' : List JsmnTok} (hgrown : Grown toks toks')
    {key : Bytes} {i : Nat} {t : JsmnTok} (ht : toks[i]? = some t) (hclosed : t.isOpen = false)
    (htype : t.type = .string) (htext : tokText js t = key) : Names js toks' key i := by
  obtain ⟨t', ht', hgrows⟩ := hgrown i t ht
  exact ⟨t', ht', hgrows.type.trans htype, (tokText_congr hgrows hclosed).trans htext⟩

/-- What the tokens show of a text that begins with `reaching done key` and a quote. -/
structure MemberSeen (js : Bytes) (toks : List JsmnTok) (done : Members) (key : Bytes) : Prop where
  root : ∃ t, toks[0]? = some t ∧ t.type = .object ∧ 1 ≤ t.size
  ipv4 : Names js toks (bytes "ipv4") 1
  object : ∃ t, toks[2]? = some t ∧ t.type = .object ∧ done.length + 1 ≤ t.size
  members : MembersAt js toks done true 3 9
  key : Names js toks key (3 + done.count)
  value : ∃ t, toks[4 + done.count]? = some t ∧ jsmnLexicon.str (tokText js t)

section Seen

variable {js rest : Bytes} {numTokens : Nat} {done : Members} {key : Bytes}

theorem reached_toknext : (reached done key).toknext = 4 + done.count := by
  simp only [JsmnParser.toknext, reached, frontToks, List.length_append, List.length_cons,
    List.length_nil, membersToks_length]
  omega

theorem reached_members : At (reached done key).toks 3 (membersToks done true 9) :=
  List.prefix_append _ _

theorem reached_key :
    (reached done key).toks[3 + done.count]? = some
      ⟨.string, (9 + (done.text true ++ separator (isFirst done)).length + 1 : Nat),
        (9 + (done.text true ++ separator (isFirst done)).length + 1 + key.length : Nat), 0⟩ := by
  have hget := getElem?_key frontToks (membersToks done true 9) [] ⟨.object, 8, -1, done.length + 1⟩
    ⟨.string, (9 + (done.text true ++ separator (isFirst done)).length + 1 : Nat),
      (9 + (done.text true ++ separator (isFirst done)).length + 1 + key.length : Nat), 0⟩
  rw [membersToks_length] at hget
  exact hget

/-- Where the loop goes from the opening quote: a string is scanned, and becomes the last token. -/
theorem string_of_loop {p r : JsmnParser} {fuel : Nat} (hspine : p.Spine)
    (hleft : js.drop p.pos = quote :: rest) (hfuel : js.length ≤ p.pos + fuel)
    (hloop : jsmnLoop js numTokens fuel p = .ok r) :
    ∃ stop fuel, scanString js (js.length + 1) (p.pos + 1) = .ok stop ∧
      ∃ q : JsmnParser, q.toks = (p.push ⟨.string, (p.pos + 1 : Nat), stop, 0⟩).toks ∧
        q.toksuper = p.toksuper ∧ q.Spine ∧ jsmnLoop js numTokens fuel q = .ok r := by
  have hlen := length_of_left hleft
  obtain ⟨fuel, rfl⟩ : ∃ f, fuel = f + 1 := ⟨fuel - 1, by omega⟩
  have hpeek : peek js p.pos = some quote := peek_of_left hleft (by decide)
  rw [jsmnLoop, hpeek] at hloop
  obtain ⟨q, hq, hloop⟩ := except_bind_eq_ok hloop
  have hspineNext := (jsmnStep_move hspine.superIn hpeek hq).spine hspine
  change countToken <$> jsmnParseString js numTokens p = .ok q at hq
  rw [jsmnParseString_eq hspine.superIn] at hq
  obtain ⟨stop, hscan, hq⟩ := except_bind_eq_ok hq
  split at hq
  · cases hq
  · obtain rfl := Except.ok.inj hq
    exact ⟨stop, fuel, hscan, { p.push ⟨.string, (p.pos + 1 : Nat), stop, 0⟩ with pos := stop + 1 },
      rfl, rfl, hspineNext, hloop⟩

/-- The state after the value: the tokens before its key are as they were. -/
structure Passed (done : Members) (key : Bytes) (t : JsmnTok) (q : JsmnParser) : Prop where
  toks : q.toks = ((reached done key).push t).toks
  super : q.toksuper = (reached done key).toksuper

theorem Passed.before {q : JsmnParser} {t u : JsmnTok} (h : Passed done key t q) {i : Nat}
    (hi : i < 3 + done.count) (hu : (reached done key).toks[i]? = some u) :
    q.toks[i]? = some u := by
  have hnext := @reached_toknext done key
  have hne : (reached done key).toksuper ≠ some i := by
    intro heq
    have := Option.some.inj heq
    omega
  rw [h.toks, getElem?_push_of_lt (by omega), if_neg hne]
  exact hu

theorem Passed.members_settled {q : JsmnParser} {t u : JsmnTok} (h : Passed done key t q) {i : Nat}
    (hlow : 3 ≤ i) (hhigh : i < 3 + done.count) (hu : (reached done key).toks[i]? = some u) :
    q.Settled i u where
  tok := h.before hhigh hu
  closed := by
    obtain ⟨j, rfl⟩ : ∃ j, i = 3 + j := ⟨i - 3, by omega⟩
    have hj : j < (membersToks done true 9).length := by
      rw [membersToks_length]
      omega
    have hmem : (reached done key).toks[3 + j]? = (membersToks done true 9)[j]? := by
      obtain ⟨rest, hrest⟩ := @reached_members done key
      rw [← List.getElem?_drop, ← hrest, List.getElem?_append_left hj]
    exact membersToks_closed done true 9 u (List.mem_of_getElem? (hmem.symm.trans hu))
  before := by
    have hnext : q.toknext = 5 + done.count := by
      change q.toks.length = _
      rw [h.toks]
      change ((reached done key).push t).toknext = _
      rw [push_toknext, reached_toknext]
      omega
    omega
  super := by
    rw [h.super]
    intro heq
    have := Option.some.inj heq
    omega

theorem Passed.key_tok {q : JsmnParser} {t : JsmnTok} (h : Passed done key t q) :
    q.toks[3 + done.count]? = some
      ⟨.string, (9 + (done.text true ++ separator (isFirst done)).length + 1 : Nat),
        (9 + (done.text true ++ separator (isFirst done)).length + 1 + key.length : Nat), 1⟩ := by
  have hsuper : (reached done key).toksuper = some (3 + done.count) := rfl
  rw [h.toks, getElem?_push_of_lt (by rw [reached_toknext]; omega), if_pos hsuper, reached_key]
  rfl

theorem Passed.value_tok {q : JsmnParser} {t : JsmnTok} (h : Passed done key t q) :
    q.toks[4 + done.count]? = some t := by
  rw [h.toks, ← @reached_toknext done key]
  exact getElem?_push_last

theorem reaching_text (hleft : js.drop 0 = reaching done key ++ rest) :
    At js 0 opening ∧ At js 9 (done.text true) ∧
      At js (9 + (done.text true ++ separator (isFirst done)).length) (quoted key) := by
  have htext : At js 0 (reaching done key) := ⟨rest, hleft.symm⟩
  rw [reaching, at_append_iff, at_append_iff, at_append_iff, at_append_iff] at htext
  obtain ⟨hopening, hmembers, -, hkey, -⟩ := htext
  rw [List.length_append, ← Nat.add_assoc]
  exact ⟨hopening, hmembers, hkey⟩

theorem member_seen (hdone : done.Lexical jsmnLexicon) (hkey : jsmnLexicon.str key)
    (hroom : 4 + done.count ≤ numTokens) (hleft : js.drop 0 = reaching done key ++ quote :: rest)
    {p : JsmnParser} (hparse : jsmnParse js numTokens = .ok p) : MemberSeen js p.toks done key := by
  obtain ⟨r, hloop, hparse⟩ := except_bind_eq_ok hparse
  have hr : r = p := by
    split at hparse
    · cases hparse
    · exact Except.ok.inj hparse
  subst hr
  obtain ⟨hspine, fuel, hfuel, hloop⟩ := (member_reached hdone hkey hroom hleft).continues
    jsmnInit_spine (by simp [jsmnInit]) hloop
  have hvalueLeft : js.drop (reached done key).pos = quote :: rest := by
    simpa [reached] using left_append hleft
  obtain ⟨stop, fuel, hscan, q, hq, hsuper, hspineNext, hloop⟩ :=
    string_of_loop hspine hvalueLeft hfuel hloop
  have hpassed : Passed done key _ q := ⟨hq, hsuper⟩
  have hgrown := jsmnLoop_grown hspineNext hloop
  obtain ⟨hopening, hmembersText, hkeyText⟩ := reaching_text hleft
  refine ⟨?_, ?_, ?_, ⟨?_, hmembersText⟩, ?_, ?_⟩
  · obtain ⟨t, ht, hgrows⟩ := hgrown 0 ⟨.object, 0, -1, 1⟩ (hpassed.before (by omega) rfl)
    exact ⟨t, ht, hgrows.type, hgrows.size⟩
  · have hipv4 : At js 2 (bytes "ipv4") := by
      have hsplit : opening = bytes "\x7b\"" ++ (bytes "ipv4" ++ bytes "\":\x7b") := rfl
      rw [hsplit] at hopening
      exact (at_append_iff.mp (at_append_iff.mp hopening).2).1
    exact Names.grown (t := ⟨.string, 2, 6, 1⟩) hgrown (hpassed.before (by omega) rfl) rfl rfl
      (tokText_at hipv4 rfl)
  · obtain ⟨t, ht, hgrows⟩ := hgrown 2 ⟨.object, 8, -1, done.length + 1⟩
      (hpassed.before (by omega) rfl)
    exact ⟨t, ht, hgrows.type, hgrows.size⟩
  · -- nothing changes the tokens of the members any more
    apply At.of_same (@reached_members done key)
    intro i t hlow hhigh ht
    rw [membersToks_length] at hhigh
    exact jsmnLoop_settled hspineNext (hpassed.members_settled hlow hhigh ht) hloop
  · exact Names.grown hgrown hpassed.key_tok (isOpen_closed _ _ _ _) rfl
      (tokText_at (at_of_quoted hkeyText) rfl)
  · obtain ⟨t, ht, hgrows⟩ := hgrown _ _ hpassed.value_tok
    refine ⟨t, ht, ?_⟩
    rw [tokText_congr hgrows (isOpen_closed _ _ _ _)]
    have hbounds := (scanString_bounds hscan).1
    have hlen : ((stop : Int) - ((reached done key).pos + 1 : Nat)).toNat =
        stop - ((reached done key).pos + 1) := by omega
    rw [tokText, hlen]
    exact scanString_str hscan

end Seen

/-! ### Its guide leads there -/

section Guide

variable {js : Bytes} {toks : List JsmnTok} {depth : Nat}

theorem Names.lt {key : Bytes} {i : Nat} (h : Names js toks key i) : i < toks.length := by
  obtain ⟨t, ht, -⟩ := h
  exact (List.getElem?_eq_some_iff.mp ht).1

theorem memberLoop_past (htokens : Tokens js toks) (hdepth : toks.length ≤ depth) {key : Bytes}
    {members : Members} (hnone : members.find key = none) {first : Bool} {index off n : Nat}
    (h : MembersAt js toks members first index off) :
    memberLoop (filled toks) js key depth (members.length + n) index =
      memberLoop (filled toks) js key depth n (index + members.count) := by
  induction members using Members.find.induct key generalizing first index off with
  | case1 =>
      rw [Members.length, Members.count, Nat.zero_add]
      rfl
  | case2 before beforeColon afterColon value after rest =>
      rw [Members.find, if_pos rfl] at hnone
      cases hnone
  | case3 before k beforeColon afterColon value after rest hne ih =>
      obtain ⟨⟨hkey, hkeyText⟩, ⟨hvalue, -⟩, hrest⟩ := h.cons
      have hlt := (List.getElem?_eq_some_iff.mp hkey).1
      have hnames : ¬ Names js toks key index := fun hnames =>
        hne ((names_key hkey hkeyText).mp hnames)
      have hlength : rest.length + 1 + n = rest.length + n + 1 := by omega
      have hcount : index + (value.count + 1 + rest.count) =
          index + 1 + value.count + rest.count := by omega
      rw [Members.find, if_neg hne] at hnone
      rw [Members.length, Members.count, hlength, hcount,
        (memberLoop_filled htokens hlt key).2 hnames, jsonNext_value hvalue hdepth, run_bind_ok]
      exact ih hnone hrest

theorem memberLoop_names (htokens : Tokens js toks) {key : Bytes} {i n : Nat}
    (h : Names js toks key i) :
    memberLoop (filled toks) js key depth (n + 1) i = .ok (some (i + 1)) :=
  (memberLoop_filled htokens h.lt key).1 h

theorem jsonGetMember_object {key : Bytes} {i n : Nat} {t : JsmnTok} (ht : toks[i]? = some t)
    (htype : t.type = .object) (hsize : t.size = n) :
    jsonGetMember (filled toks) js key depth i =
      memberLoop (filled toks) js key depth n (i + 1) := by
  obtain ⟨hi, rfl⟩ := List.getElem?_eq_some_iff.mp ht
  rw [jsonGetMember_filled hi htype, sizeAt_eq hi, hsize]

theorem delveLoop_object {key : Bytes} (hkey : IsGuideKey key) {keys : List Bytes} {fuel i v : Nat}
    {t : JsmnTok} (ht : toks[i]? = some t) (htype : t.type = .object)
    (hmember : jsonGetMember (filled toks) js key depth i = .ok (some v)) :
    delveLoop (filled toks) js depth (fuel + 1) i (guideOf (key :: keys)) =
      delveLoop (filled toks) js depth fuel v (guideOf keys) := by
  obtain ⟨hi, rfl⟩ := List.getElem?_eq_some_iff.mp ht
  rw [delveLoop_cons _ _ _ _ _ hkey, readTok_filled hi, run_bind_ok, if_neg (by simp [htype]),
    hmember]
  rfl

theorem MemberSeen.delve {done : Members} {key : Bytes} (h : MemberSeen js toks done key)
    (htokens : Tokens js toks) (hdepth : toks.length ≤ depth) (hkey : IsGuideKey key)
    (hnone : done.find key = none) :
    jsonDelve (filled toks) js depth 0 (guideOf [bytes "ipv4", key]) =
      .ok (some (4 + done.count)) := by
  obtain ⟨root, hroot, hrootType, hrootSize⟩ := h.root
  obtain ⟨object, hobject, hobjectType, hobjectSize⟩ := h.object
  obtain ⟨n, hn⟩ : ∃ n, root.size = n + 1 := ⟨root.size - 1, by omega⟩
  obtain ⟨m, hm⟩ : ∃ m, object.size = done.length + (m + 1) :=
    ⟨object.size - done.length - 1, by omega⟩
  have hfirst : jsonGetMember (filled toks) js (bytes "ipv4") depth 0 = .ok (some 2) := by
    rw [jsonGetMember_object hroot hrootType hn]
    exact memberLoop_names htokens h.ipv4
  have hsecond : jsonGetMember (filled toks) js key depth 2 = .ok (some (4 + done.count)) := by
    rw [jsonGetMember_object hobject hobjectType hm, memberLoop_past htokens hdepth hnone h.members,
      memberLoop_names htokens h.key]
    congr 2
    omega
  obtain ⟨fuel, hfuel⟩ : ∃ f, (guideOf [bytes "ipv4", key]).length = f + 2 :=
    ⟨(guideOf [bytes "ipv4", key]).length - 2, by
      have := length_le_guideOf [bytes "ipv4", key]
      simp only [List.length_cons, List.length_nil] at this
      omega⟩
  rw [jsonDelve, hfuel,
    delveLoop_object ⟨by decide, by decide, by decide⟩ hroot hrootType hfirst,
    delveLoop_object hkey hobject hobjectType hsecond]
  cases fuel <;> rfl

end Guide

/-! ### Documents of strings -/

def stringMembers : List (Bytes × Bytes) → Members
  | [] => .nil
  | (key, value) :: fields => .cons [] key [] [] (.str value) [] (stringMembers fields)

/-- `{"ipv4":{…}}` with these strings. -/
def fieldsDocument (fields : List (Bytes × Bytes)) : Document where
  lead := []
  pad := []
  members := .cons [] (bytes "ipv4") [] [] (.obj [] (stringMembers fields)) [] .nil
  trail := []

section Fields

variable {fields pre post : List (Bytes × Bytes)} {key value : Bytes}

theorem stringMembers_count (fields : List (Bytes × Bytes)) :
    (stringMembers fields).count = 2 * fields.length := by
  induction fields with
  | nil => rfl
  | cons f fields ih =>
      rw [stringMembers, Members.count, ih, List.length_cons]
      change 1 + 1 + 2 * fields.length = _
      omega

theorem isFirst_stringMembers (fields : List (Bytes × Bytes)) :
    isFirst (stringMembers fields) = fields.isEmpty := by
  cases fields <;> rfl

theorem stringMembers_text (pre post : List (Bytes × Bytes)) (first : Bool) :
    (stringMembers (pre ++ post)).text first =
      (stringMembers pre).text first ++ (stringMembers post).text (first && pre.isEmpty) := by
  induction pre generalizing first with
  | nil => simp [stringMembers, Members.text]
  | cons f pre ih =>
      rw [List.cons_append, stringMembers, Members.text, ih, stringMembers, Members.text]
      simp

theorem fieldsDocument_text (fields : List (Bytes × Bytes)) :
    (fieldsDocument fields).text =
      opening ++ ((stringMembers fields).text true ++ [rbrace, rbrace]) := by
  simp [fieldsDocument, Document.text, Document.value, Value.text, Members.text, separator, quoted,
    opening, bytes]

theorem fieldsDocument_reaching (pre post : List (Bytes × Bytes)) (key value : Bytes) :
    ∃ rest, (fieldsDocument (pre ++ (key, value) :: post)).text =
      reaching (stringMembers pre) key ++ quote :: rest := by
  rw [fieldsDocument_text, stringMembers_text, reaching, isFirst_stringMembers]
  simp [stringMembers, Members.text, Value.text, quoted]

theorem stringMembers_find_none (h : key ∉ fields.map Prod.fst) :
    (stringMembers fields).find key = none := by
  induction fields with
  | nil => rfl
  | cons f fields ih =>
      rw [List.map_cons, List.mem_cons, not_or] at h
      rw [stringMembers, Members.find, if_neg (Ne.symm h.1)]
      exact ih h.2

theorem stringMembers_find (hkeys : (fields.map Prod.fst).Nodup) (hmem : (key, value) ∈ fields) :
    (stringMembers fields).find key = some (.str value) := by
  induction fields with
  | nil => cases hmem
  | cons f fields ih =>
      rw [List.map_cons, List.nodup_cons] at hkeys
      rw [stringMembers, Members.find]
      rcases List.mem_cons.mp hmem with rfl | hmem
      · rw [if_pos rfl]
      · have hne : f.1 ≠ key := by
          rintro rfl
          exact hkeys.1 (List.mem_map.mpr ⟨(f.1, value), hmem, rfl⟩)
        rw [if_neg hne]
        exact ih hkeys.2 hmem

theorem stringMembers_lexical
    (h : ∀ f ∈ fields, jsmnLexicon.str f.1 ∧ jsmnLexicon.str f.2) :
    (stringMembers fields).Lexical jsmnLexicon := by
  have hblank : Blank [] := by simp [Blank]
  induction fields with
  | nil => trivial
  | cons f fields ih =>
      obtain ⟨hkey, hvalue⟩ := h f List.mem_cons_self
      exact ⟨hblank, hkey, hblank, hblank, hvalue, hblank,
        ih fun g hg => h g (List.mem_cons_of_mem f hg)⟩

end Fields

/-! ### The round trip -/

section Found

variable {js : Bytes} {toks : List JsmnTok} {n : Nat} {stack : Stack}

theorem tokArray_of_filled (hroom : toks.length ≤ n) (i : Nat) (t : JsmnTok)
    (h : filled toks i = some t) : tokArray n toks stack i = some t := by
  have hi : i < toks.length := (List.getElem?_eq_some_iff.mp h).1
  rw [tokArray, if_pos (by omega)]
  exact withJunk_of_filled toks stack.junk i t h

theorem jsonTokValue_tokArray (htokens : Tokens js toks) (hroom : toks.length ≤ n) {i : Nat}
    {t : JsmnTok} (ht : toks[i]? = some t) :
    jsonTokValue js (tokArray n toks stack) i = .ok (tokText js t) := by
  rw [jsonTokValue, readTok, tokArray_of_filled hroom i t ht]
  exact readText_tok htokens (List.mem_of_getElem? ht)

theorem found_iff (htokens : Tokens js toks) (hroom : toks.length ≤ n) {depth i : Nat}
    {guide s : Bytes} {t : JsmnTok} (ht : toks[i]? = some t)
    (hdelve : jsonDelve (filled toks) js depth 0 guide = .ok (some i)) :
    Found (tokArray n toks stack) js depth guide s ↔ s = tokText js t := by
  have hmem : ∀ i t, filled toks i = some t → tokArray n toks stack i = some t :=
    tokArray_of_filled hroom
  have hdelve' := jsonDelve_mono hmem hdelve
  have hvalue : jsonTokValue js (tokArray n toks stack) i = .ok (tokText js t) :=
    jsonTokValue_tokArray htokens hroom ht
  constructor
  · rintro ⟨j, hj, hs⟩
    obtain rfl := Option.some.inj (Except.ok.inj (hdelve'.symm.trans hj))
    exact Except.ok.inj (hs.symm.trans hvalue)
  · rintro rfl
    exact ⟨i, hdelve', hvalue⟩

end Found

section Trip

variable {fields : List (Bytes × Bytes)} {n : Nat} {stack : Stack} {p : JsmnParser}

/-- The keys of the fields are guide keys, and no two of them are the same. -/
structure FieldKeys (fields : List (Bytes × Bytes)) : Prop where
  nodup : (fields.map Prod.fst).Nodup
  guide : ∀ key ∈ fields.map Prod.fst, IsGuideKey key
  str : ∀ key ∈ fields.map Prod.fst, jsmnLexicon.str key

theorem str_zero {s : Bytes} (h : jsmnLexicon.str s) : 0 ∉ s := by
  change StringBody (· ≠ 0) s at h
  have hhex : ∀ {c : UInt8}, IsHex c → 0 ≠ c := by
    rintro c hc rfl
    exact absurd hc (by simp [IsHex])
  have hbackslash : 0 ≠ backslash := by decide
  induction h with
  | nil => exact List.not_mem_nil
  | plain hplain _ _ _ ih => simp [Ne.symm hplain, ih]
  | @escape c s hescape _ ih =>
      have hc : 0 ≠ c := by
        rintro rfl
        exact absurd hescape (by decide)
      simp [hbackslash, hc, ih]
  | unicode ha hb hc hd _ ih => simp [hbackslash, hhex ha, hhex hb, hhex hc, hhex hd, ih]

def printedFields (fields : List (Bytes × Bytes)) : List (Bytes × Bytes) :=
  fields.map fun f => (f.1, cstr f.2)

theorem printedFields_eq_self (h : ∀ f ∈ fields, jsmnLexicon.str f.2) :
    printedFields fields = fields := by
  calc
    printedFields fields = fields.map id := by
      apply List.map_congr_left
      intro f hf
      rw [cstr_eq_self (str_zero (h f hf))]
      rfl
    _ = fields := List.map_id fields

theorem field_str {pre post : List (Bytes × Bytes)} {f : Bytes × Bytes}
    (hkeys : FieldKeys (pre ++ f :: post)) (hroom : 4 + 2 * pre.length ≤ n)
    (hdepth : n ≤ stack.depth) (hpre : ∀ g ∈ pre, jsmnLexicon.str g.2)
    (hparse : jsmnParse (fieldsDocument (printedFields (pre ++ f :: post))).text n = .ok p)
    (hfound : Found (tokArray n p.toks stack)
      (fieldsDocument (printedFields (pre ++ f :: post))).text stack.depth
        (guideOf [bytes "ipv4", f.1]) f.2) : jsmnLexicon.str f.2 := by
  obtain ⟨htokens, -, hlen⟩ := jsmnParse_tokens hparse
  have hkey : f.1 ∈ (pre ++ f :: post).map Prod.fst := List.mem_map_of_mem (by simp)
  have hprinted :
      printedFields (pre ++ f :: post) = pre ++ (f.1, cstr f.2) :: printedFields post := by
    have hself := printedFields_eq_self hpre
    rw [printedFields, List.map_append]
    change printedFields pre ++ _ = _
    rw [hself]
    rfl
  have hlexical : (stringMembers pre).Lexical jsmnLexicon := by
    refine stringMembers_lexical fun g hg => ⟨hkeys.str g.1 ?_, hpre g hg⟩
    rw [List.map_append]
    exact List.mem_append_left _ (List.mem_map_of_mem hg)
  have hnone : (stringMembers pre).find f.1 = none := by
    apply stringMembers_find_none
    intro hin
    have hnodup := hkeys.nodup
    rw [List.map_append] at hnodup
    exact (List.nodup_append.mp hnodup).2.2 f.1 hin f.1 (by simp) rfl
  obtain ⟨rest, hrest⟩ := fieldsDocument_reaching pre (printedFields post) f.1 (cstr f.2)
  rw [← hprinted] at hrest
  have hseen :=
    member_seen hlexical (hkeys.str f.1 hkey) (by rwa [stringMembers_count]) hrest hparse
  obtain ⟨t, ht, hstr⟩ := hseen.value
  have hdelve := hseen.delve htokens (by omega : p.toks.length ≤ stack.depth)
    (hkeys.guide f.1 hkey) hnone
  rw [(found_iff htokens hlen ht hdelve).mp hfound]
  exact hstr

theorem str_of_found (hkeys : FieldKeys fields) (hroom : 2 + 2 * fields.length ≤ n)
    (hdepth : n ≤ stack.depth)
    (hparse : jsmnParse (fieldsDocument (printedFields fields)).text n = .ok p)
    (hfound : ∀ f ∈ fields, Found (tokArray n p.toks stack)
      (fieldsDocument (printedFields fields)).text stack.depth
        (guideOf [bytes "ipv4", f.1]) f.2) : ∀ f ∈ fields, jsmnLexicon.str f.2 := by
  -- the induction is from the front of the text, where a string ends the one before it
  have hall : ∀ pre post, fields = pre ++ post → ∀ f ∈ pre, jsmnLexicon.str f.2 := by
    intro pre
    induction pre using List.reverseRecOn with
    | nil => exact fun post _ f hf => absurd hf List.not_mem_nil
    | append_singleton pre f ih =>
        intro post hsplit
        rw [List.append_assoc] at hsplit
        have hpre := ih _ hsplit
        have hlength := congrArg List.length hsplit
        simp only [List.length_append, List.length_cons, List.length_nil] at hlength
        have hmem : f ∈ fields := by
          rw [hsplit]
          simp
        have hfoundf := hfound f hmem
        rw [hsplit] at hkeys hparse hfoundf
        have hf := field_str hkeys (by omega) hdepth hpre hparse hfoundf
        intro g hg
        rcases List.mem_append.mp hg with hg | hg
        · exact hpre g hg
        · rw [List.mem_singleton.mp hg]
          exact hf
  exact hall fields [] (List.append_nil fields).symm

theorem fieldsDocument_count (fields : List (Bytes × Bytes)) :
    (fieldsDocument fields).value.count = 3 + 2 * fields.length := by
  simp only [fieldsDocument, Document.value, Value.count, Members.count, stringMembers_count]
  omega

theorem fieldsDocument_lexical (hkeys : FieldKeys fields)
    (hstr : ∀ f ∈ fields, jsmnLexicon.str f.2) : (fieldsDocument fields).Lexical jsmnLexicon := by
  have hblank : Blank [] := by simp [Blank]
  have hfields := stringMembers_lexical fun f hf =>
    ⟨hkeys.str f.1 (List.mem_map_of_mem hf), hstr f hf⟩
  exact ⟨hblank, ⟨hblank, hblank, str_of_plain (by decide), hblank, hblank, ⟨hblank, hfields⟩,
    hblank, trivial⟩, hblank⟩

theorem found_of_str (hkeys : FieldKeys fields) (hroom : 3 + 2 * fields.length ≤ n)
    (hdepth : n ≤ stack.depth) (hstr : ∀ f ∈ fields, jsmnLexicon.str f.2) :
    ∃ p, jsmnParse (fieldsDocument fields).text n = .ok p ∧ p.count ≠ 0 ∧
      ∀ f ∈ fields, Found (tokArray n p.toks stack) (fieldsDocument fields).text stack.depth
        (guideOf [bytes "ipv4", f.1]) f.2 := by
  have hlexical := fieldsDocument_lexical hkeys hstr
  have hcount := fieldsDocument_count fields
  have hparse := jsmnParse_lexical hlexical (hcount.trans_le hroom)
  obtain ⟨htokens, -, hlen⟩ := jsmnParse_tokens hparse
  have hroot := root_placed hlexical hparse
  refine ⟨_, hparse, by simp only [hcount]; omega, fun f hf => ?_⟩
  have hkeys' : ∀ key ∈ [bytes "ipv4", f.1], IsGuideKey key := by
    intro key hkey
    rcases List.mem_cons.mp hkey with rfl | hkey
    · exact ⟨by decide, by decide, by decide⟩
    · rw [List.mem_singleton.mp hkey]
      exact hkeys.guide f.1 (List.mem_map_of_mem hf)
  have hdelve := delveLoop_place htokens (hlen.trans hdepth) hkeys'
    (length_le_guideOf [bytes "ipv4", f.1]) hroot
  have hvalue : (fieldsDocument fields).value.follow [bytes "ipv4", f.1] = some (.str f.2) := by
    have hfind := stringMembers_find hkeys.nodup hf
    change (stringMembers fields).find f.1 >>= Value.follow [] = _
    rw [hfind]
    rfl
  obtain ⟨place, hplace, hstring⟩ := Option.map_eq_some_iff.mp
    (((fieldsDocument fields).root.follow_value _).trans hvalue)
  obtain ⟨t, ht, hholds⟩ := (hroot.follow hplace).holds
  rw [hstring] at hholds
  rw [hplace] at hdelve
  exact (found_iff htokens hlen ht hdelve).mpr hholds.2.symm

end Trip

/-! ### The configuration -/

/-- The fields in the order in which they are printed. -/
def configFields (c : NetConfig) : List (Bytes × Bytes) :=
  [(bytes "meth", c.meth), (bytes "hn", c.hn), (bytes "ip", c.ip), (bytes "sn", c.sn),
    (bytes "gw", c.gw)]

section Config

variable {stack : Stack} {c : NetConfig} {v : NetValues}

theorem configFields_keys (c : NetConfig) : FieldKeys (configFields c) := by
  have hkeys : (configFields c).map Prod.fst =
      [bytes "meth", bytes "hn", bytes "ip", bytes "sn", bytes "gw"] := rfl
  refine ⟨?_, ?_, ?_⟩
  · rw [hkeys]
    decide
  · rw [hkeys]
    simp only [List.forall_mem_cons, IsGuideKey]
    decide
  · rw [hkeys]
    simp only [List.forall_mem_cons]
    exact ⟨str_of_plain (by decide), str_of_plain (by decide), str_of_plain (by decide),
      str_of_plain (by decide), str_of_plain (by decide), by simp⟩

theorem configText_document (c : NetConfig) :
    configText c = (fieldsDocument (configFields c)).text := by
  rw [fieldsDocument_text]
  simp [configText, configFields, stringMembers, Members.text, Value.text, separator, quoted,
    opening, bytes]

theorem foundConfig_iff {mem : TokMem} {buff : Bytes} {depth : Nat} :
    FoundConfig mem buff depth c ↔
      ∀ f ∈ configFields c, Found mem buff depth (guideOf [bytes "ipv4", f.1]) f.2 := by
  simp only [configFields, List.forall_mem_cons, List.not_mem_nil, false_imp_iff, implies_true,
    and_true]
  constructor
  · intro h
    exact ⟨h.meth, h.hn, h.ip, h.sn, h.gw⟩
  · rintro ⟨hmeth, hhn, hip, hsn, hgw⟩
    exact ⟨hmeth, hip, hsn, hgw, hhn⟩

/-- **What is written is read back** exactly if each value is the body of a string. -/
theorem parseNetworkConfig_configText_iff :
    parseNetworkConfig stack (configText c.printed) v = .ok (0, .ofConfig c) ↔
      ∀ f ∈ configFields c, StringBody (· ≠ 0) f.2 := by
  have hdepth : configToks ≤ stack.depth := Nat.le_trans (by decide) stack.hdepth
  have hprinted : printedFields (configFields c) = configFields c.printed := rfl
  rw [parseNetworkConfig_eq_zero_iff, configText_document, ← hprinted]
  constructor
  · rintro ⟨p, c', hparse, -, hc, hfound⟩
    have hc' : c' = c := by
      cases c
      cases c'
      simp_all [NetFields.ofConfig]
    subst hc'
    exact str_of_found (configFields_keys c') (by decide : 2 + 2 * 5 ≤ configToks) hdepth hparse
      (foundConfig_iff.mp hfound)
  · intro hstr
    rw [printedFields_eq_self hstr]
    obtain ⟨p, hparse, hcount, hfound⟩ := found_of_str (configFields_keys c) (n := configToks)
      (by decide : 3 + 2 * 5 ≤ configToks) hdepth hstr
    exact ⟨p, c, hparse, hcount, rfl, foundConfig_iff.mpr hfound⟩

/-- **The round trip** of `print_network_config` and `parse_network_config`: the values come back
exactly if each of them is the body of a string as the tokenizer takes it. -/
theorem network_config_round_trip_iff (stack : Stack) (c : NetConfig) (v : NetValues) :
    ∃ text, printNetworkConfig c = .ok text ∧
      (parseNetworkConfig stack text v = .ok (0, .ofConfig c) ↔
        StringBody (· ≠ 0) c.meth ∧ StringBody (· ≠ 0) c.hn ∧ StringBody (· ≠ 0) c.ip ∧
          StringBody (· ≠ 0) c.sn ∧ StringBody (· ≠ 0) c.gw) := by
  refine ⟨configText c.printed, printNetworkConfig_eq c, ?_⟩
  rw [parseNetworkConfig_configText_iff]
  simp only [configFields, List.forall_mem_cons, List.not_mem_nil, false_imp_iff, implies_true,
    and_true]

end Config

end AtxSys
