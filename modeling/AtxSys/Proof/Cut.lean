import AtxSys.Proof.Continuation
import AtxSys.Proof.UserConfig

/-!
# Documents that are cut short

The steps that the tokenizer makes on the first part of a text it makes on the whole text too. The
root object of a document is closed by its last brace only, so a text that ends before that brace
leaves it open.
-/

namespace AtxSys

open CText JsonSyntax Slices

/-! ### A text and a longer one -/

section Longer

variable {l rest : Bytes} {n fuel pos stop : Nat} {p q : JsmnParser}

theorem peek_append {c : UInt8} (h : peek l pos = some c) : peek (l ++ rest) pos = some c := by
  obtain ⟨hlt, hget, hne⟩ := peek_lt h
  rw [peek, List.getElem?_append_left hlt, hget]
  simp [hne]

theorem scanPrimitive_append {fuel' : Nat} (hfuel : fuel ≤ fuel')
    (h : scanPrimitive l fuel pos = .ok stop) : scanPrimitive (l ++ rest) fuel' pos = .ok stop := by
  induction fuel generalizing pos fuel' with
  | zero => cases h
  | succ fuel ih =>
      obtain ⟨fuel', rfl⟩ : ∃ f, fuel' = f + 1 := ⟨fuel' - 1, by omega⟩
      rw [scanPrimitive] at h
      split at h
      · cases h
      · next c hpeek =>
        rw [scanPrimitive, peek_append hpeek]
        dsimp only
        split at h
        · rw [if_pos ‹_›]
          exact h
        · rw [if_neg ‹_›]
          split at h
          · cases h
          · rw [if_neg ‹_›]
            exact ih (by omega) h

/-- The string that ends in `l` ends there in the longer text. -/
theorem scanString_append {fuel' : Nat} (hfuel : l.length ≤ fuel')
    (h : scanString l fuel pos = .ok stop) : scanString (l ++ rest) fuel' pos = .ok stop := by
  obtain ⟨hle, hlt⟩ := scanString_bounds h
  have hlen : ((l.drop pos).take (stop - pos)).length = stop - pos := by
    rw [List.length_take, List.length_drop]
    omega
  have hquote : l.drop stop = quote :: l.drop (stop + 1) := by
    obtain ⟨hstop, hget⟩ := List.getElem?_eq_some_iff.mp (scanString_quote h)
    rw [List.drop_eq_getElem_cons hstop, hget]
  have hleft : (l ++ rest).drop pos =
      (l.drop pos).take (stop - pos) ++ quote :: (l.drop (stop + 1) ++ rest) := by
    have hstop : pos + (stop - pos) = stop := by omega
    calc
      (l ++ rest).drop pos = l.drop pos ++ rest := List.drop_append_of_le_length (by omega)
      _ = ((l.drop pos).take (stop - pos) ++ (l.drop pos).drop (stop - pos)) ++ rest := by
        rw [List.take_append_drop]
      _ = (l.drop pos).take (stop - pos) ++ quote :: (l.drop (stop + 1) ++ rest) := by
        rw [List.drop_drop, hstop, hquote, List.append_assoc, List.cons_append]
  have hscan : scanString (l ++ rest) fuel' pos =
      .ok (pos + ((l.drop pos).take (stop - pos)).length) :=
    scanString_body (scanString_str h) hleft (by omega)
  rw [hscan, hlen]
  congr 1
  omega

theorem jsmnParseString_append (h : jsmnParseString l n p = .ok q) :
    jsmnParseString (l ++ rest) n p = .ok q := by
  obtain ⟨stop, hstop, h⟩ := except_bind_eq_ok h
  have hfuel : l.length ≤ (l ++ rest).length + 1 := by
    rw [List.length_append]
    omega
  rw [jsmnParseString, scanString_append hfuel hstop]
  exact h

theorem jsmnParsePrimitive_append (h : jsmnParsePrimitive l n p = .ok q) :
    jsmnParsePrimitive (l ++ rest) n p = .ok q := by
  obtain ⟨stop, hstop, h⟩ := except_bind_eq_ok h
  have hfuel : l.length + 1 ≤ (l ++ rest).length + 1 := by
    rw [List.length_append]
    omega
  rw [jsmnParsePrimitive, scanPrimitive_append hfuel hstop]
  exact h

/-- Only the scans look at the text. -/
theorem jsmnStep_append {c : UInt8} (h : jsmnStep l n c p = .ok q) :
    jsmnStep (l ++ rest) n c p = .ok q := by
  obtain ⟨type, -, hstep⟩ | ⟨type, hstep⟩ | hstep | ⟨-, hstep⟩ | ⟨r, -, hstep⟩ | hstep :=
    jsmnStep_cases c p <;> rw [hstep] at h ⊢
  · exact h
  · exact h
  · obtain ⟨r, hr, rfl⟩ := except_map_eq_ok h
    rw [jsmnParseString_append hr]
    rfl
  · obtain ⟨r, hr, rfl⟩ := except_map_eq_ok h
    rw [jsmnParsePrimitive_append hr]
    rfl
  · exact h
  · exact h

/-- What the tokenizer makes of `l` it makes of `l` in front of anything. -/
theorem jsmnLoop_append (h : jsmnLoop l n fuel p = .ok q) : JsmnRun (l ++ rest) n p q := by
  induction fuel generalizing p with
  | zero =>
      obtain rfl := Except.ok.inj h
      exact .refl p
  | succ fuel ih =>
      rw [jsmnLoop] at h
      split at h
      · obtain rfl := Except.ok.inj h
        exact .refl p
      · next c hpeek =>
        obtain ⟨r, hr, h⟩ := except_bind_eq_ok h
        exact .step (peek_append hpeek) (jsmnStep_append hr) (ih h)

end Longer

/-! ### The root of a document -/

section Cut

variable {d : Document} {l : Bytes}

theorem jsmnParse_eq_ok {js : Bytes} {n : Nat} {p : JsmnParser} (h : jsmnParse js n = .ok p) :
    jsmnLoop js n js.length jsmnInit = .ok p ∧ ∀ t ∈ p.toks, t.isOpen = false := by
  obtain ⟨q, hloop, h⟩ := except_bind_eq_ok h
  split at h
  · cases h
  · next hopen =>
    obtain rfl := Except.ok.inj h
    refine ⟨hloop, fun t ht => ?_⟩
    by_contra hnot
    exact hopen (List.any_eq_true.mpr ⟨t, ht, Bool.not_eq_false _ ▸ hnot⟩)

/-- A tokenizer that ends before the last brace of a document ends without a token, or fails. -/
theorem jsmnParse_cut (hd : d.Lexical jsmnLexicon) (hl : l <+: d.text)
    (hcut : l.length < d.lead.length + d.value.text.length) {n : Nat} {p : JsmnParser}
    (hparse : jsmnParse l n = .ok p) : p.count = 0 := by
  obtain ⟨rest, hrest⟩ := hl
  by_contra hcount
  -- with room for all tokens
  have hmore := jsmnParse_mono (Nat.le_max_left n d.value.count) hparse
  have hwhole := jsmnParse_lexical hd (Nat.le_max_right n d.value.count)
  generalize max n d.value.count = m at hmore hwhole
  obtain ⟨htokens, hlen, -⟩ := jsmnParse_tokens hmore
  obtain ⟨hloop, hclosed⟩ := jsmnParse_eq_ok hmore
  obtain ⟨hloop', -⟩ := jsmnParse_eq_ok hwhole
  -- the run on the document comes by where the run on `l` ends
  have hrun : JsmnRun (l ++ rest) m jsmnInit p := jsmnLoop_append hloop
  rw [hrest] at hrun
  obtain ⟨hspine, fuel, -, hcontinued⟩ :=
    hrun.continues jsmnInit_spine (Nat.le_add_left d.text.length 0) hloop'
  have hgrown := jsmnLoop_grown hspine hcontinued
  obtain ⟨root, htoks⟩ : ∃ root, p.toks[0]? = some root := by
    cases htoks : p.toks with
    | nil => exact absurd (hlen.trans (by rw [htoks]; rfl)) hcount
    | cons root toks => exact ⟨root, rfl⟩
  have hmem : root ∈ p.toks := List.mem_of_getElem? htoks
  obtain ⟨root', hroot', hgrows⟩ := hgrown 0 root htoks
  have hstop' : root'.stop = (d.lead.length + d.value.text.length : Nat) := by
    have hvalue : (valueToks d.value d.lead.length)[0]? = some
        ⟨.object, d.lead.length, (d.lead.length + d.value.text.length : Nat), d.members.length⟩ :=
      rfl
    rw [← Option.some.inj (hvalue.symm.trans hroot')]
  have hstop := hgrows.stop (hclosed root hmem)
  obtain ⟨-, -, hin⟩ := htokens.inText root hmem
  omega

/-- How a text is turned away, whatever is on the stack and in the file. -/
structure Rejected (l : Bytes) : Prop where
  parse : ∀ (α : Type) (value : TokMem → Nat → Run α) stack v,
    parseNetworkFields value stack l v = .ok (-1, v)
  put : ∃ response, response.code = 500 ∧
    response.body = bytes "\x7b\"error\":\"parser error\"\x7d" ∧
    ∀ stack io file, networkPut stack l io file = .ok { file, response }

theorem rejected_of_count (h : ∀ n p, jsmnParse l n = .ok p → p.count = 0) : Rejected l := by
  refine ⟨fun α value stack v => ?_, ?_⟩
  · unfold parseNetworkFields
    cases hjsmn : jsmnParse l configToks with
    | error e => rfl
    | ok p => exact if_pos (h configToks p hjsmn)
  have htoks : ∀ stack, putToks stack l = .ok none := by
    intro stack
    unfold putToks
    cases hjsmn : jsmnParse l putNumToks with
    | error e => rfl
    | ok p => exact if_pos (h putNumToks p hjsmn)
  refine ⟨⟨500, bytes "application/json", 24, bytes "\x7b\"error\":\"parser error\"\x7d"⟩, rfl,
    rfl, fun stack io file => ?_⟩
  have hresponse : httpPrintfJson 500 putErrorFormat [.str (bytes "parser error")] = .ok
      ⟨500, bytes "application/json", 24, bytes "\x7b\"error\":\"parser error\"\x7d"⟩ := by
    decide +kernel
  rw [networkPut, htoks, run_bind_ok]
  dsimp only
  rw [hresponse]
  rfl

end Cut

/-! ### The next start -/

section Start

variable {l : Bytes} {usr : Option Bytes} {io : UserIo}

/-- Whatever the stack holds, the start turns the file away: `read_user_config` returns -1, and the
interfaces stay as they are. -/
def StartRejects (usr : Option Bytes) (io : UserIo) : Prop :=
  ∀ stack, ∃ r, readUserSlices stack usr io = .ok r ∧ r.ret = -1 ∧
    ∀ interfacesIo old, atxsysInterfacesSlices stack usr io interfacesIo old = .ok old

/-- The tokenizer takes the text as a whole, and it is not so that the walks stay among its tokens
and miss a value. -/
def TakenWhole (l : Bytes) : Prop :=
  ∃ p, jsmnParse l configToks = .ok p ∧ p.count ≠ 0 ∧
    ¬(ConfigFits l p.toks ∧ ¬ConfigLeads l p.toks)

theorem not_takenWhole_of_count (h : ∀ n p, jsmnParse l n = .ok p → p.count = 0) :
    ¬TakenWhole l := by
  rintro ⟨p, hparse, hcount, -⟩
  exact hcount (h configToks p hparse)

theorem leads_of_assigned {content : Bytes} {toks : List JsmnTok} {v : NetSlices}
    (h : Assigned (SliceOf content toks) v) : ConfigLeads content toks := by
  obtain ⟨⟨_, -, hmeth⟩, ⟨_, -, hip⟩, ⟨_, -, hsn⟩, ⟨_, -, hgw⟩, ⟨_, -, hhn⟩⟩ := h
  have hleads : ∀ key x, SliceOf content toks key x →
      ∃ i, Leads content toks 0 [bytes "ipv4", key] i := by
    rintro key x ⟨i, t, hi, -⟩
    exact ⟨i, hi⟩
  intro key hkey
  simp only [valueKeys, List.mem_cons, List.not_mem_nil, or_false] at hkey
  rcases hkey with rfl | rfl | rfl | rfl | rfl
  · exact hleads _ _ hmeth
  · exact hleads _ _ hip
  · exact hleads _ _ hsn
  · exact hleads _ _ hgw
  · exact hleads _ _ hhn

/-- On every stack the parse fails, exactly if the text is not taken whole. -/
theorem parseNetworkSlices_fails_iff :
    (∀ stack, ∃ err v, parseNetworkSlices stack l .unset = .ok (err, v) ∧ err ≠ 0) ↔
      ¬TakenWhole l := by
  constructor
  · rintro h ⟨p, hparse, hcount, htaken⟩
    obtain ⟨err, v, hv, herr⟩ := h trapStack
    rw [parseNetworkSlices, parseNetworkFields_tokens hparse hcount] at hv
    obtain ⟨key, hkey, hnone⟩ := networkTags_failed herr hv
    obtain ⟨htokens, hlength, hroom⟩ := jsmnParse_tokens hparse
    have hconfig : configToks ≤ trapStack.depth := Nat.le_trans (by decide) trapStack.hdepth
    exact htaken (configFits_of_missing htokens hroom (Nat.le_trans hroom hconfig) (by omega) hkey
      hnone)
  · intro htaken stack
    have hmiss : ∀ p, jsmnParse l configToks = .ok p → p.count ≠ 0 →
        ConfigFits l p.toks ∧ ¬ConfigLeads l p.toks := fun p hparse hcount => by
      by_contra hnot
      exact htaken ⟨p, hparse, hcount, hnot⟩
    obtain ⟨⟨err, v⟩, hv⟩ := @parseNetworkSlices_ends stack l
      fun p hparse hcount => (hmiss p hparse hcount).1
    refine ⟨err, v, hv, ?_⟩
    rintro rfl
    obtain ⟨p, hparse, hcount, -⟩ := parseNetworkFields_eq_zero_iff.mp hv
    obtain ⟨hfits, hleads⟩ := hmiss p hparse hcount
    exact hleads (leads_of_assigned (assigned_of_parse hparse hcount hfits hv))

/-- A start that finds the text in the file. -/
theorem startRejects_iff (hstat : io.stat = .found l) :
    StartRejects usr io ↔ ¬UserSkips usr io ∧ (UserReads usr io l → ¬TakenWhole l) := by
  constructor
  · refine fun h => ⟨fun hskips => ?_, fun hreads => ?_⟩
    · obtain ⟨r, hr, hret, -⟩ := h zeroStack
      obtain rfl := Except.ok.inj ((readUserFields_skips hskips).symm.trans hr)
      cases hret
    · refine parseNetworkSlices_fails_iff.mp fun stack => ?_
      obtain ⟨r, hr, hret, -⟩ := h stack
      rw [readUserSlices, readUserFields_reads hreads] at hr
      obtain ⟨⟨err, v⟩, hv, hr⟩ := run_bind_eq_ok hr
      obtain rfl := Except.ok.inj hr
      refine ⟨err, v, hv, ?_⟩
      rintro rfl
      cases hret
  · rintro ⟨hskips, htaken⟩ stack
    have hread : ∀ content, UserReads usr io content →
        ∃ err v, parseNetworkSlices stack content .unset = .ok (err, v) ∧ err ≠ 0 := by
      intro content hreads
      obtain rfl := Stat.found.inj (hstat.symm.trans hreads.stat)
      exact parseNetworkSlices_fails_iff.mpr (htaken hreads) stack
    obtain ⟨r, hr⟩ : ∃ r, readUserSlices stack usr io = .ok r :=
      readUserFields_ends fun content hreads => by
        obtain ⟨err, v, hv, -⟩ := hread content hreads
        exact ⟨_, hv⟩
    have hret : r.ret = -1 := by
      cases readUserFields_outcome hr with
      | pathless hpath hret hstreams | failed hpath hret hstreams => exact hret
      | skipped hskipped hr => exact absurd hskipped hskips
      | read hreads hparse hret hstreams =>
          obtain ⟨err, v, hv, herr⟩ := hread _ hreads
          obtain ⟨rfl, -⟩ := Prod.mk.inj (Except.ok.inj (hv.symm.trans hparse))
          rw [hret, if_pos herr]
      | created hcreates hr => cases hstat.symm.trans hcreates.stat
    refine ⟨r, hr, hret, fun interfacesIo old => ?_⟩
    rw [atxsysInterfacesSlices, hr, run_bind_ok, interfacesAfter, if_neg]
    rintro ⟨hzero, -⟩
    rw [hret] at hzero
    exact absurd hzero (by decide)

end Start

/-! ### The cut -/

section Rejects

/-- A cut of a configuration whose values are the bodies of strings. -/
theorem jsmnParse_cut_config {c : NetConfig} {text l : Bytes}
    (hstr : ∀ f ∈ configFields c, StringBody (· ≠ 0) f.2) (hprint : printNetworkConfig c = .ok text)
    (hl : l <+: text) (hne : l ≠ text) {n : Nat} {p : JsmnParser}
    (hparse : jsmnParse l n = .ok p) : p.count = 0 := by
  have htext : text = (fieldsDocument (configFields c)).text := by
    rw [← Except.ok.inj ((printNetworkConfig_eq c).symm.trans hprint), printed_eq_self hstr,
      configText_document]
  rw [htext] at hl hne
  have hlexical := fieldsDocument_lexical (configFields_keys c) hstr
  refine jsmnParse_cut hlexical hl ?_ hparse
  have hlength : (fieldsDocument (configFields c)).text.length =
      (fieldsDocument (configFields c)).lead.length +
        (fieldsDocument (configFields c)).value.text.length := by
    simp [Document.text, fieldsDocument]
  rw [← hlength]
  by_contra hge
  exact hne (hl.eq_of_length_le (Nat.le_of_not_lt hge))

/-- **Documents that are cut short.** What is left of a document without its last brace is turned
away. The next start turns away what is left of a configuration, exactly if it does not pass over
the file and what it reads is not taken whole; and if the five values are the bodies of strings, no
cut is. -/
theorem cut_documents_rejected (usr : Option Bytes) (io : UserIo) :
    (∀ (d : Document) (l : Bytes), d.WellFormed → l <+: d.text →
      l.length < d.lead.length + d.value.text.length → Rejected l) ∧
    ∀ (c : NetConfig) (text l : Bytes),
      printNetworkConfig c = .ok text → l <+: text → l ≠ text → io.stat = .found l →
        (StartRejects usr io ↔ ¬UserSkips usr io ∧ (UserReads usr io l → ¬TakenWhole l)) ∧
        ((∀ f ∈ configFields c, StringBody (· ≠ 0) f.2) → Rejected l ∧ ¬TakenWhole l) := by
  constructor
  · intro d l hd hl hcut
    apply rejected_of_count
    intro n p hparse
    exact jsmnParse_cut (hd.mono json_within_jsmnLexicon) hl hcut hparse
  · intro c text l hprint hl hne hstat
    refine ⟨startRejects_iff hstat, fun hstr => ?_⟩
    have hcount : ∀ n p, jsmnParse l n = .ok p → p.count = 0 := fun n p hparse =>
      jsmnParse_cut_config hstr hprint hl hne hparse
    exact ⟨rejected_of_count hcount, not_takenWhole_of_count hcount⟩

theorem defaults_cut : bytes "\x7b\"ipv4\"" <+: configText networkDefaults ∧
    bytes "\x7b\"ipv4\"" ≠ configText networkDefaults := by
  constructor
  · rw [configText]
    exact List.prefix_append_of_prefix (by decide)
  · intro heq
    have hlen := congrArg List.length heq
    simp [configText, networkDefaults, bytes] at hlen

/-- The defaults, of which only the first bytes were written. -/
theorem cut_documents_rejected_defaults :
    Rejected (bytes "\x7b\"ipv4\"") ∧
      StartRejects (some (bytes "/u")) (.success (bytes "\x7b\"ipv4\"")) := by
  have hprint := printNetworkConfig_eq networkDefaults
  rw [printed_eq_self defaults_str] at hprint
  obtain ⟨hiff, hstr⟩ := (cut_documents_rejected (some (bytes "/u"))
    (.success (bytes "\x7b\"ipv4\""))).2 networkDefaults _ _ hprint defaults_cut.1 defaults_cut.2 rfl
  obtain ⟨hrejected, htaken⟩ := hstr defaults_str
  refine ⟨hrejected, hiff.mpr ⟨?_, fun _ => htaken⟩⟩
  rintro ⟨-, content, hstat, hlarge | hclosed⟩
  · obtain rfl := Stat.found.inj hstat
    exact absurd hlarge (by decide)
  · cases hclosed

/-- The same cut is not turned away when the next start can't open the file. And a gateway with a
quote and braces ends the document early: it is taken at a cut. -/
theorem cut_documents_applied :
    (bytes "\x7b\"ipv4\"" <+: configText networkDefaults ∧
      bytes "\x7b\"ipv4\"" ≠ configText networkDefaults ∧
      ¬StartRejects (some (bytes "/u")) { UserIo.success (bytes "\x7b\"ipv4\"") with
        opened := false }) ∧
    ∃ (c : NetConfig) (text l : Bytes) (r : UserConfig JsmnValue),
      printNetworkConfig c = .ok text ∧ l <+: text ∧ l ≠ text ∧
      readUserSlices zeroStack (some (bytes "/u")) (.success l) = .ok r ∧ r.ret = 0 := by
  refine ⟨⟨defaults_cut.1, defaults_cut.2, fun h => ?_⟩, ?_⟩
  · obtain ⟨r, hr, hret, -⟩ := h zeroStack
    have hzero : readUserSlices zeroStack (some (bytes "/u"))
        { UserIo.success (bytes "\x7b\"ipv4\"") with opened := false } =
          .ok ⟨0, .unset, [], none⟩ := rfl
    obtain rfl := Except.ok.inj (hzero.symm.trans hr)
    cases hret
  · refine ⟨⟨bytes "DHCP", bytes "1", bytes "2", bytes "\"\x7d\x7d", bytes "x"⟩,
      configText ⟨bytes "DHCP", bytes "1", bytes "2", bytes "\"\x7d\x7d", bytes "x"⟩,
      configText ⟨bytes "DHCP", bytes "1", bytes "2", [], bytes "x"⟩,
      ⟨0, ⟨some (.slice 17 4), some (.slice 38 1), some (.slice 47 1), some (.slice 56 0),
        some (.slice 29 1)⟩, [.fopen, .fclose], none⟩, ?_, ?_, ?_, ?_, rfl⟩
    · rw [printNetworkConfig_eq]
      rfl
    · decide +kernel
    · decide +kernel
    · decide +kernel

end Rejects

end AtxSys
