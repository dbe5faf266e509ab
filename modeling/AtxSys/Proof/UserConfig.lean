import AtxSys.Lib.Handles
import AtxSys.UserConfig
import AtxSys.Proof.AnyStack
import AtxSys.Proof.Interfaces
import AtxSys.Proof.NetworkRoute

/-!
# The configuration at startup

When the values behind a return of 0 are assigned, and when each stream is closed.
-/

namespace AtxSys

open CText JsonSyntax

/-! ### The ways through `read_user_config` -/

/-- `fread` takes the whole file. -/
structure UserReads (usr : Option Bytes) (io : UserIo) (content : Bytes) : Prop where
  path : (usr.map cstr).getD [] ≠ []
  stat : io.stat = .found content
  size : content.length < userConfigSize
  opened : io.opened = true
  read : io.read = content.length

/-- The defaults are written to a new file. -/
structure UserCreates (usr : Option Bytes) (io : UserIo) : Prop where
  path : (usr.map cstr).getD [] ≠ []
  stat : io.stat = .missing
  opened : io.opened = true
  printed : 0 < io.printed

/-- The path that goes by both branches: `stat` succeeds, and the file is not read. -/
def UserSkips (usr : Option Bytes) (io : UserIo) : Prop :=
  (usr.map cstr).getD [] ≠ [] ∧
    ∃ content, io.stat = .found content ∧ (userConfigSize ≤ content.length ∨ io.opened = false)

section Outcomes

variable {α : Type} {parse : Bytes → Run (Int × NetFields α)} {defaults : NetFields α}
  {usr : Option Bytes} {io : UserIo} {r : UserConfig α}

inductive UserOutcome (parse : Bytes → Run (Int × NetFields α)) (defaults : NetFields α)
    (usr : Option Bytes) (io : UserIo) (r : UserConfig α) : Prop where
  | pathless (hpath : (usr.map cstr).getD [] = []) (hret : r.ret = -1)
      (hstreams : r.streams = [.fcloseUnset])
  | skipped (hskips : UserSkips usr io) (hr : r = ⟨0, .unset, [], none⟩)
  | read {content : Bytes} {err : Int} (hreads : UserReads usr io content)
      (hparse : parse content = .ok (err, r.values)) (hret : r.ret = if err ≠ 0 then -1 else err)
      (hstreams : r.streams = [.fopen, .fclose])
  | created (hcreates : UserCreates usr io)
      (hr : r = ⟨0, defaults, [.fopen, .fclose],
        some ((configText networkDefaults.printed).take io.kept)⟩)
  | failed (hpath : (usr.map cstr).getD [] ≠ []) (hret : r.ret = -1)
      (hstreams : r.streams = [] ∨ r.streams = [.fopen, .fclose])

/-- All that a call can do. -/
theorem readUserFields_outcome (h : readUserFields parse defaults usr io = .ok r) :
    UserOutcome parse defaults usr io r := by
  unfold readUserFields at h
  split at h
  · next hpath =>
    obtain rfl := Except.ok.inj h
    exact .pathless hpath rfl rfl
  · next hpath =>
    split at h
    · next content hstat =>
      split at h
      · next hread =>
        split at h
        · obtain rfl := Except.ok.inj h
          exact .failed hpath rfl (.inr rfl)
        · next hwhole =>
          obtain ⟨⟨err, values⟩, hparse, h⟩ := run_bind_eq_ok h
          obtain rfl := Except.ok.inj h
          exact .read ⟨hpath, hstat, hread.1, hread.2, not_not.mp hwhole⟩ hparse rfl rfl
      · next hread =>
        obtain rfl := Except.ok.inj h
        refine .skipped ⟨hpath, content, hstat, ?_⟩ rfl
        rcases Decidable.not_and_iff_or_not.mp hread with hlarge | hclosed
        · exact .inl (Nat.le_of_not_lt hlarge)
        · exact .inr (Bool.eq_false_iff.mpr hclosed)
    · next hstat =>
      split at h
      · next hopened =>
        rw [printNetworkConfig_eq, run_bind_ok] at h
        obtain rfl := Except.ok.inj h
        by_cases hprinted : io.printed ≤ 0
        · exact .failed hpath (if_pos hprinted) (.inr rfl)
        · rw [if_neg hprinted]
          exact .created ⟨hpath, hstat, hopened, Int.not_le.mp hprinted⟩ rfl
      · obtain rfl := Except.ok.inj h
        exact .failed hpath rfl (.inl rfl)
    · obtain rfl := Except.ok.inj h
      exact .failed hpath rfl (.inl rfl)

theorem readUserFields_skips (h : UserSkips usr io) :
    readUserFields parse defaults usr io = .ok ⟨0, .unset, [], none⟩ := by
  obtain ⟨husr, content, hstat, hskip⟩ := h
  have hnot : ¬(content.length < userConfigSize ∧ io.opened) := by
    rintro ⟨hsize, hopened⟩
    rcases hskip with hlarge | hclosed
    · omega
    · rw [hclosed] at hopened
      cases hopened
  rw [readUserFields, if_neg husr, hstat]
  exact if_neg hnot

theorem readUserFields_reads {content : Bytes} (h : UserReads usr io content) :
    readUserFields parse defaults usr io = parse content >>= fun found =>
      .ok { ret := if found.1 ≠ 0 then -1 else found.1, values := found.2
            streams := [.fopen, .fclose], created := none } := by
  rw [readUserFields, if_neg h.path, h.stat]
  dsimp only
  rw [if_pos ⟨h.size, h.opened⟩, if_neg (not_not_intro h.read)]

theorem readUserFields_creates (h : UserCreates usr io) :
    readUserFields parse defaults usr io = .ok ⟨0, defaults, [.fopen, .fclose],
      some ((configText networkDefaults.printed).take io.kept)⟩ := by
  rw [readUserFields, if_neg h.path, h.stat]
  dsimp only
  rw [if_pos h.opened, printNetworkConfig_eq, run_bind_ok, if_neg (Int.not_le.mpr h.printed)]

/-- The call returns, if the parse of what it read does. -/
theorem readUserFields_ends
    (h : ∀ content, UserReads usr io content → ∃ found, parse content = .ok found) :
    ∃ r, readUserFields parse defaults usr io = .ok r := by
  by_cases hreads : ∃ content, UserReads usr io content
  · obtain ⟨content, hreads⟩ := hreads
    obtain ⟨found, hfound⟩ := h content hreads
    rw [readUserFields_reads hreads, hfound]
    exact ⟨_, rfl⟩
  unfold readUserFields
  split
  · exact ⟨_, rfl⟩
  · next hpath =>
    split
    · next content hstat =>
      split
      · next hread =>
        split
        · exact ⟨_, rfl⟩
        · next hwhole =>
          exact absurd ⟨content, hpath, hstat, hread.1, hread.2, not_not.mp hwhole⟩ hreads
      · exact ⟨_, rfl⟩
    · rw [printNetworkConfig_eq, run_bind_ok]
      split <;> exact ⟨_, rfl⟩
    · exact ⟨_, rfl⟩

end Outcomes

/-! ### Where the values come from -/

section Read

variable {stack : Stack} {usr : Option Bytes} {io : UserIo} {r : UserConfig JsmnValue}

/-- The value is the slice of the token that the guide leads to. -/
def SliceOf (content : Bytes) (toks : List JsmnTok) (key : Bytes) (value : JsmnValue) : Prop :=
  ∃ i t, Leads content toks 0 [bytes "ipv4", key] i ∧ toks[i]? = some t ∧
    value = .slice t.start (t.stop - t.start)

/-- Each of the five variables is assigned, to a value that its key allows. -/
structure Assigned (P : Bytes → JsmnValue → Prop) (v : NetSlices) : Prop where
  meth : ∃ s, v.meth = some s ∧ P (bytes "meth") s
  ip : ∃ s, v.ip = some s ∧ P (bytes "ip") s
  sn : ∃ s, v.sn = some s ∧ P (bytes "sn") s
  gw : ∃ s, v.gw = some s ∧ P (bytes "gw") s
  hn : ∃ s, v.hn = some s ∧ P (bytes "hn") s

/-- Where the five values may come from: tokens of the whole file, or the defaults, of which the
whole text is in the new file. -/
inductive UserSource (usr : Option Bytes) (io : UserIo) (r : UserConfig JsmnValue) : Prop where
  | file {content : Bytes} {p : JsmnParser} (hreads : UserReads usr io content)
      (hparse : jsmnParse content configToks = .ok p)
      (hvalues : Assigned (SliceOf content p.toks) r.values)
  | defaults {text : Bytes} (hcreates : UserCreates usr io) (hvalues : r.values = defaultSlices)
      (hprint : printNetworkConfig networkDefaults = .ok text) (hcreated : r.created = some text)

/-- A return of 0 comes with five values, and the interfaces are written from these only. -/
structure UserContract (stack : Stack) (usr : Option Bytes) (io : UserIo)
    (r : UserConfig JsmnValue) : Prop where
  values : r.ret = 0 → UserSource usr io r
  written : ∀ interfacesIo old, r.ret = 0 → interfacesIo.opened = true → ∃ c text,
    r.values.read (JsmnValue.text io.buffer) = .ok c ∧ printNetworkInterface c = .ok text ∧
      atxsysInterfacesSlices stack usr io interfacesIo old =
        .ok (some (text.take interfacesIo.kept))
  untouched : ∀ interfacesIo old, (r.ret ≠ 0 ∨ interfacesIo.opened = false) →
    atxsysInterfacesSlices stack usr io interfacesIo old = .ok old

theorem jsonTokSlice_tokArray {toks : List JsmnTok} {n i : Nat} {t : JsmnTok}
    (hroom : toks.length ≤ n) (ht : toks[i]? = some t) :
    jsonTokSlice (tokArray n toks stack) i = .ok (.slice t.start (t.stop - t.start)) := by
  rw [jsonTokSlice, readTok, tokArray_of_filled hroom i t ht]
  rfl

section Parsed

variable {content : Bytes} {p : JsmnParser}

/-- Where no walk leaves the tokens, what is found are slices of them. -/
theorem sliceOf_of_found (hparse : jsmnParse content configToks = .ok p) (hcount : p.count ≠ 0)
    (hfits : ConfigFits content p.toks) {key : Bytes} (hkey : key ∈ valueKeys) {x : JsmnValue}
    (hx : FoundBy (jsonTokSlice (tokArray configToks p.toks stack))
      (tokArray configToks p.toks stack) content stack.depth (guideOf [bytes "ipv4", key]) x) :
    SliceOf content p.toks key x := by
  obtain ⟨htokens, hlength, hroom⟩ := jsmnParse_tokens hparse
  have hconfig : configToks ≤ stack.depth := Nat.le_trans (by decide) stack.hdepth
  obtain ⟨found, hfound, hleads, hvalue⟩ := jsonDelve_fits htokens hroom
    (Nat.le_trans hroom hconfig) (by omega) (networkKeys key hkey) (hfits key hkey)
  obtain ⟨tok, htok, hx⟩ := hx
  obtain rfl := Except.ok.inj (hfound.symm.trans htok)
  obtain ⟨t, ht, -⟩ := hvalue tok rfl
  exact ⟨tok, t, (hleads tok).mp rfl, ht,
    Except.ok.inj (hx.symm.trans (jsonTokSlice_tokArray hroom ht))⟩

theorem assigned_of_parse (hparse : jsmnParse content configToks = .ok p) (hcount : p.count ≠ 0)
    (hfits : ConfigFits content p.toks) {v : NetSlices}
    (h : parseNetworkSlices stack content .unset = .ok (0, v)) :
    Assigned (SliceOf content p.toks) v := by
  rw [parseNetworkSlices, parseNetworkFields_tokens hparse hcount, tagLoop_networkTags] at h
  obtain ⟨meth, ip, sn, gw, hn, rfl, hmeth, hip, hsn, hgw, hhn⟩ := h
  exact {
    meth := ⟨meth, rfl, sliceOf_of_found hparse hcount hfits (by simp [valueKeys]) hmeth⟩
    ip := ⟨ip, rfl, sliceOf_of_found hparse hcount hfits (by simp [valueKeys]) hip⟩
    sn := ⟨sn, rfl, sliceOf_of_found hparse hcount hfits (by simp [valueKeys]) hsn⟩
    gw := ⟨gw, rfl, sliceOf_of_found hparse hcount hfits (by simp [valueKeys]) hgw⟩
    hn := ⟨hn, rfl, sliceOf_of_found hparse hcount hfits (by simp [valueKeys]) hhn⟩ }

/-- The parse ends where no walk leaves the tokens. -/
theorem parseNetworkSlices_ends (hfits : ∀ p, jsmnParse content configToks = .ok p → p.count ≠ 0 →
    ConfigFits content p.toks) :
    ∃ found, parseNetworkSlices stack content .unset = .ok found := by
  apply parseNetworkFields_ends
  intro p hparse hcount
  obtain ⟨htokens, hlength, hroom⟩ := jsmnParse_tokens hparse
  have hconfig : configToks ≤ stack.depth := Nat.le_trans (by decide) stack.hdepth
  exact walksEnd_of_fits htokens hroom (Nat.le_trans hroom hconfig) (by omega)
    (hfits p hparse hcount) fun i t ht => ⟨_, jsonTokSlice_tokArray hroom ht⟩

theorem SliceOf.start {key : Bytes} {start len : Int}
    (hparse : jsmnParse content configToks = .ok p)
    (h : SliceOf content p.toks key (.slice start len)) : 0 ≤ start := by
  obtain ⟨i, t, -, ht, hslice⟩ := h
  obtain ⟨rfl, -⟩ := JsmnValue.slice.inj hslice
  exact ((jsmnParse_tokens hparse).1.inText t (List.mem_of_getElem? ht)).1

/-- If the loop ends well over `trapStack`, no walk left the tokens. -/
theorem configFits_of_trap (hparse : jsmnParse content configToks = .ok p) (hcount : p.count ≠ 0)
    {err : Int} {v : NetSlices}
    (h : parseNetworkSlices trapStack content .unset = .ok (err, v))
    (hvalues : err = 0 → Assigned (SliceOf content p.toks) v) : ConfigFits content p.toks := by
  obtain ⟨htokens, hlength, hroom⟩ := jsmnParse_tokens hparse
  have hconfig : configToks ≤ trapStack.depth := Nat.le_trans (by decide) trapStack.hdepth
  have hdepth := Nat.le_trans hroom hconfig
  rw [parseNetworkSlices, parseNetworkFields_tokens hparse hcount] at h
  by_cases herr : err = 0
  · subst herr
    have hfound : ∀ key x, key ∈ valueKeys → SliceOf content p.toks key x →
        FoundBy (jsonTokSlice (tokArray configToks p.toks trapStack))
          (tokArray configToks p.toks trapStack) content trapStack.depth
          (guideOf [bytes "ipv4", key]) x → GuideFits content p.toks 0 [bytes "ipv4", key] := by
      rintro key x hkey hslice ⟨tok, htok, hx⟩
      refine guideFits_of_trap htokens hroom hdepth (by omega) (networkKeys key hkey) htok ?_
      rintro _ ⟨⟩
      by_contra hge
      obtain ⟨t, ht, hx⟩ := run_bind_eq_ok hx
      rw [readTok_trap (Nat.le_of_not_lt hge) ht] at hx
      rw [← Except.ok.inj hx] at hslice
      exact absurd (hslice.start hparse) (by decide)
    rw [tagLoop_networkTags] at h
    obtain ⟨meth, ip, sn, gw, hn, rfl, hmeth, hip, hsn, hgw, hhn⟩ := h
    obtain ⟨⟨_, ⟨⟩, hmeth'⟩, ⟨_, ⟨⟩, hip'⟩, ⟨_, ⟨⟩, hsn'⟩, ⟨_, ⟨⟩, hgw'⟩, ⟨_, ⟨⟩, hhn'⟩⟩ := hvalues rfl
    intro key hkey
    have hmem := hkey
    simp only [valueKeys, List.mem_cons, List.not_mem_nil, or_false] at hmem
    rcases hmem with rfl | rfl | rfl | rfl | rfl
    · exact hfound _ meth hkey hmeth' hmeth
    · exact hfound _ ip hkey hip' hip
    · exact hfound _ sn hkey hsn' hsn
    · exact hfound _ gw hkey hgw' hgw
    · exact hfound _ hn hkey hhn' hhn
  · obtain ⟨key, hkey, hnone⟩ := networkTags_failed herr h
    exact (configFits_of_missing htokens hroom hdepth (by omega) hkey hnone).1

end Parsed

theorem Assigned.read {P : Bytes → JsmnValue → Prop} {v : NetSlices} {b : Bytes}
    (h : Assigned P v) (htext : ∀ key x, P key x → ∃ s, x.text b = .ok s) :
    ∃ c, v.read (JsmnValue.text b) = .ok c := by
  obtain ⟨meth, ip, sn, gw, hn⟩ := v
  obtain ⟨⟨_, rfl, hmeth⟩, ⟨_, rfl, hip⟩, ⟨_, rfl, hsn⟩, ⟨_, rfl, hgw⟩, ⟨_, rfl, hhn⟩⟩ := h
  obtain ⟨meth, hmeth⟩ := htext _ _ hmeth
  obtain ⟨ip, hip⟩ := htext _ _ hip
  obtain ⟨sn, hsn⟩ := htext _ _ hsn
  obtain ⟨gw, hgw⟩ := htext _ _ hgw
  obtain ⟨hn, hhn⟩ := htext _ _ hhn
  refine ⟨⟨meth, ip, sn, gw, hn⟩, ?_⟩
  simp only [NetFields.read, hmeth, hip, hsn, hgw, hhn, run_bind_ok]

/-- The five values can be read. -/
theorem UserSource.read (h : UserSource usr io r) :
    ∃ c, r.values.read (JsmnValue.text io.buffer) = .ok c := by
  cases h with
  | @file content p hreads hparse hvalues =>
      have hbuffer : io.buffer = content := by rw [UserIo.buffer, hreads.stat]
      rw [hbuffer]
      apply hvalues.read
      rintro key _ ⟨i, t, -, ht, rfl⟩
      have hstop : t.start + (t.stop - t.start) = t.stop := by omega
      rw [JsmnValue.text, hstop]
      exact ⟨_, readText_tok (jsmnParse_tokens hparse).1 (List.mem_of_getElem? ht)⟩
  | defaults hcreates hvalues hprint hcreated =>
      rw [hvalues]
      exact ⟨networkDefaults, rfl⟩

/-- With a source for its values the call keeps the contract. -/
theorem userContract_of_source (h : readUserSlices stack usr io = .ok r)
    (hsource : r.ret = 0 → UserSource usr io r) : UserContract stack usr io r := by
  refine ⟨hsource, fun interfacesIo old hret hopened => ?_, fun interfacesIo old hnot => ?_⟩
  · obtain ⟨c, hc⟩ := (hsource hret).read
    have hprint := printNetworkInterface_eq c
    refine ⟨c, _, hc, hprint, ?_⟩
    rw [atxsysInterfacesSlices, h, run_bind_ok, interfacesAfter, if_pos ⟨hret, hopened⟩, hc,
      run_bind_ok, hprint]
    rfl
  · rw [atxsysInterfacesSlices, h, run_bind_ok, interfacesAfter, if_neg]
    rintro ⟨hret, hopened⟩
    rcases hnot with hne | hclosed
    · exact hne hret
    · rw [hclosed] at hopened
      cases hopened

/-- What the contract asks of the path and of the file. -/
structure UserSafe (usr : Option Bytes) (io : UserIo) : Prop where
  skips : ¬UserSkips usr io
  fits : ∀ content p, UserReads usr io content → jsmnParse content configToks = .ok p →
    p.count ≠ 0 → ConfigFits content p.toks
  kept : UserCreates usr io → ∀ text, printNetworkConfig networkDefaults = .ok text →
    text.length ≤ io.kept

theorem userSource_of_safe (hsafe : UserSafe usr io) (h : readUserSlices stack usr io = .ok r)
    (hret : r.ret = 0) : UserSource usr io r := by
  cases readUserFields_outcome h with
  | pathless hpath hneg hstreams | failed hpath hneg hstreams =>
      rw [hneg] at hret
      exact absurd hret (by decide)
  | skipped hskips hr => exact absurd hskips hsafe.skips
  | @read content err hreads hparse herr hstreams =>
      have hzero : err = 0 := by
        by_contra hne
        rw [herr, if_pos hne] at hret
        exact absurd hret (by decide)
      subst hzero
      obtain ⟨p, hjsmn, hcount, -⟩ := parseNetworkFields_eq_zero_iff.mp hparse
      exact .file hreads hjsmn
        (assigned_of_parse hjsmn hcount (hsafe.fits content p hreads hjsmn hcount) hparse)
  | created hcreates hr =>
      have hprint := printNetworkConfig_eq networkDefaults
      subst hr
      refine .defaults hcreates rfl hprint ?_
      dsimp only
      rw [List.take_of_length_le (hsafe.kept hcreates _ hprint)]

/-- **A return of 0 means that the values are there**: whatever the stack holds, the call returns
and keeps the contract, exactly if the file is not passed over, no walk to a value leaves the tokens
of a file that was read, and new defaults are in their file as a whole. -/
theorem readUserConfig_contract_iff (usr : Option Bytes) (io : UserIo) :
    (∀ stack, ∃ r, readUserSlices stack usr io = .ok r ∧ UserContract stack usr io r) ↔
      UserSafe usr io := by
  constructor
  · intro h
    obtain ⟨r, hr, hcontract⟩ := h trapStack
    refine ⟨fun hskips => ?_, fun content p hreads hparse hcount => ?_, fun hcreates text htext => ?_⟩
    · obtain rfl := Except.ok.inj ((readUserFields_skips hskips).symm.trans hr)
      cases hcontract.values rfl with
      | file hreads hparse hvalues =>
          obtain ⟨_, hnone, -⟩ := hvalues.meth
          cases hnone
      | defaults hcreates hvalues hprint hcreated => cases hvalues
    · rw [readUserSlices, readUserFields_reads hreads] at hr
      obtain ⟨⟨err, values⟩, hvalues, hr⟩ := run_bind_eq_ok hr
      obtain rfl := Except.ok.inj hr
      refine configFits_of_trap hparse hcount hvalues fun herr => ?_
      subst herr
      cases hcontract.values rfl with
      | file hreads' hparse' hassigned =>
          obtain rfl := Stat.found.inj (hreads.stat.symm.trans hreads'.stat)
          obtain rfl := Except.ok.inj (hparse.symm.trans hparse')
          exact hassigned
      | defaults hcreates hvalues hprint hcreated =>
          cases hreads.stat.symm.trans hcreates.stat
    · obtain rfl := Except.ok.inj ((readUserFields_creates hcreates).symm.trans hr)
      cases hcontract.values rfl with
      | file hreads hparse hvalues => cases hcreates.stat.symm.trans hreads.stat
      | defaults hcreates' hvalues hprint hcreated =>
          obtain rfl := Except.ok.inj (htext.symm.trans hprint)
          have hsame := Except.ok.inj ((printNetworkConfig_eq networkDefaults).symm.trans htext)
          rw [← hsame] at hcreated ⊢
          have htake := congrArg List.length (Option.some.inj hcreated)
          rw [List.length_take] at htake
          omega
  · intro hsafe stack
    obtain ⟨r, hr⟩ : ∃ r, readUserSlices stack usr io = .ok r :=
      readUserFields_ends fun content hreads =>
        parseNetworkSlices_ends fun p => hsafe.fits content p hreads
    exact ⟨r, hr, userContract_of_source hr (userSource_of_safe hsafe hr)⟩

theorem defaults_str : ∀ f ∈ configFields networkDefaults, StringBody (· ≠ 0) f.2 := by
  simp only [configFields, List.forall_mem_cons]
  exact ⟨str_of_plain (by decide), str_of_plain (by decide), str_of_plain (by decide),
    str_of_plain (by decide), str_of_plain (by decide), by simp⟩

/-- The path `/u` with the defaults in the file; and without a file, which is created. -/
theorem readUserConfig_contract_defaults :
    (∀ stack, ∃ r, readUserSlices stack (some (bytes "/u"))
        (.success (configText networkDefaults)) = .ok r ∧
      UserContract stack (some (bytes "/u")) (.success (configText networkDefaults)) r) ∧
    ∀ stack, ∃ r, readUserSlices stack (some (bytes "/u"))
        { stat := .missing, opened := true, read := 0, printed := 103, kept := 103 } = .ok r ∧
      UserContract stack (some (bytes "/u"))
        { stat := .missing, opened := true, read := 0, printed := 103, kept := 103 } r := by
  constructor
  · refine (readUserConfig_contract_iff _ _).mpr ⟨?_, fun content p hreads hparse hcount => ?_, ?_⟩
    · rintro ⟨-, content, hstat, hlarge | hclosed⟩
      · obtain rfl := Stat.found.inj hstat
        exact absurd hlarge (by decide +kernel)
      · cases hclosed
    · obtain rfl := Stat.found.inj hreads.stat
      rw [configText_document] at hparse ⊢
      have hlex := fieldsDocument_lexical (configFields_keys networkDefaults) defaults_str
      exact configFits_lexical hlex hparse
    · intro hcreates
      cases hcreates.stat
  · refine (readUserConfig_contract_iff _ _).mpr ⟨?_, fun content p hreads => ?_, ?_⟩
    · rintro ⟨-, content, hstat, -⟩
      cases hstat
    · cases hreads.stat
    · intro hcreates text htext
      rw [← Except.ok.inj ((printNetworkConfig_eq _).symm.trans htext)]
      decide

/-- A file that exists and can't be opened: 0 is returned, no value is assigned, and
`atxsys_create` reads them. And a file with a key `hn` that has no value: the variable takes what the
stack held in the next slot. -/
theorem readUserConfig_unset :
    (∃ r, readUserSlices zeroStack (some (bytes "/u"))
        { stat := .found [], opened := false, read := 0, printed := 0, kept := 0 } = .ok r ∧
      r.ret = 0 ∧ r.values = .unset ∧
      atxsysInterfacesSlices zeroStack (some (bytes "/u"))
        { stat := .found [], opened := false, read := 0, printed := 0, kept := 0 }
        { opened := true, kept := 0 } none = .error .unset ∧
      ¬UserContract zeroStack (some (bytes "/u"))
        { stat := .found [], opened := false, read := 0, printed := 0, kept := 0 } r) ∧
    ∃ r, readUserSlices trapStack (some (bytes "/u")) (.success (bytes
        "\x7b\"ipv4\":\x7b\"ip\":\"1\",\"sn\":\"2\",\"gw\":\"3\",\"meth\":\"4\",\"hn\"\x7d\x7d")) =
        .ok r ∧
      r.ret = 0 ∧ r.values.hn = some (.slice (-1) 0) := by
  constructor
  · refine ⟨⟨0, .unset, [], none⟩, rfl, rfl, rfl, rfl, fun hcontract => ?_⟩
    cases hcontract.values rfl with
    | file hreads hparse hvalues => cases hreads.opened
    | defaults hcreates hvalues hprint hcreated => cases hvalues
  · refine ⟨⟨0, ⟨some (.slice 44 1), some (.slice 15 1), some (.slice 24 1), some (.slice 33 1),
      some (.slice (-1) 0)⟩, [.fopen, .fclose], none⟩, ?_, rfl, rfl⟩
    decide +kernel

end Read

/-! ### The stream -/

/-- A stream that the call opened, or whatever the variable held before. -/
inductive Handle where
  | stream
  | unset
  deriving DecidableEq

def StreamOp.call : StreamOp → Handles.Call Handle
  | .fopen => .acquire .stream
  | .fclose => .release .stream
  | .fcloseUnset => .release .unset

/-- Only streams that were opened are closed, and in the end each of them is. -/
def StreamsClosed (streams : List StreamOp) : Prop :=
  Handles.Moves none (streams.map StreamOp.call) none

theorem streamsClosed_nil : StreamsClosed [] := .refl none

theorem streamsClosed_pair : StreamsClosed [.fopen, .fclose] :=
  (Handles.Moves.acquire Handle.stream).trans (.release Handle.stream)

theorem not_streamsClosed_unset : ¬StreamsClosed [.fcloseUnset] := by
  intro h
  exact List.not_mem_nil (h.legal [] (.release .unset) [] rfl)

section Streams

variable {α : Type} {parse : Bytes → Run (Int × NetFields α)} {defaults : NetFields α}
  {usr : Option Bytes} {io : UserIo} {r : UserConfig α}

/-- Behind the check of the path there are two exits: before `fopen`, and after `fclose`. -/
theorem readUserFields_streams (h : readUserFields parse defaults usr io = .ok r)
    (husr : (usr.map cstr).getD [] ≠ []) : r.streams = [] ∨ r.streams = [.fopen, .fclose] := by
  cases readUserFields_outcome h with
  | pathless hpath hret hstreams => exact absurd hpath husr
  | skipped hskips hr => exact .inl (by rw [hr])
  | read hreads hparse hret hstreams => exact .inr hstreams
  | created hcreates hr => exact .inr (by rw [hr])
  | failed hpath hret hstreams => exact hstreams

/-- **Each stream is closed once, and nothing else is,** exactly if there is a path; whatever
`parse_network_config` makes of the file, as long as it returns. -/
theorem readUserConfig_streams_iff (h : readUserFields parse defaults usr io = .ok r) :
    StreamsClosed r.streams ↔ (usr.map cstr).getD [] ≠ [] := by
  by_cases husr : (usr.map cstr).getD [] = []
  · rw [readUserFields, if_pos husr] at h
    rw [← Except.ok.inj h]
    exact iff_of_false not_streamsClosed_unset (not_not.mpr husr)
  · refine iff_of_true ?_ husr
    rcases readUserFields_streams h husr with hnil | hpair
    · rw [hnil]
      exact streamsClosed_nil
    · rw [hpair]
      exact streamsClosed_pair

/-- A file with one byte that `fread` does not get, and one that does not parse: the stream that was
opened is closed at the shared label. -/
theorem readUserConfig_streams_failed :
    (∃ r, readUserSlices zeroStack (some (bytes "/u"))
        { stat := .found (bytes "x"), opened := true, read := 0, printed := 0, kept := 0 } = .ok r ∧
      r.ret = -1 ∧ r.streams = [.fopen, .fclose] ∧ StreamsClosed r.streams) ∧
    ∃ r, readUserSlices zeroStack (some (bytes "/u")) (.success (bytes "x")) = .ok r ∧
      r.ret = -1 ∧ r.streams = [.fopen, .fclose] ∧ StreamsClosed r.streams := by
  have hpath : ((some (bytes "/u")).map cstr).getD [] ≠ [] := by decide
  have hshort : readUserSlices zeroStack (some (bytes "/u"))
      { stat := .found (bytes "x"), opened := true, read := 0, printed := 0, kept := 0 } =
        .ok { ret := -1, values := .unset, streams := [.fopen, .fclose], created := none } := by
    rfl
  have hrejected : readUserSlices zeroStack (some (bytes "/u")) (.success (bytes "x")) =
      .ok { ret := -1, values := .unset, streams := [.fopen, .fclose], created := none } := by
    rfl
  exact ⟨⟨_, hshort, rfl, rfl, (readUserConfig_streams_iff hshort).mpr hpath⟩,
    _, hrejected, rfl, rfl, (readUserConfig_streams_iff hrejected).mpr hpath⟩

/-- Without a path the shared label closes a variable that was never assigned. -/
theorem readUserConfig_closes_unset :
    ∃ r, readUserSlices zeroStack none (.success []) = .ok r ∧
      r.streams = [.fcloseUnset] ∧ ¬StreamsClosed r.streams :=
  ⟨⟨-1, .unset, [.fcloseUnset], none⟩, by decide, rfl, not_streamsClosed_unset⟩

end Streams

/-! ### What a caller finds at the values -/

section Bytes

variable {stack : Stack} {usr : Option Bytes} {io : UserIo}

end Bytes

/-! ### The next start -/

section Restart

variable {stack stack' : Stack} {b path : Bytes} {io : PutIo} {file : Option Bytes} {r : PutResult}

theorem readUserConfig_found_iff (hpath : cstr path ≠ []) {content : Bytes} {c : NetConfig} :
    (∃ res, readUserConfig stack (some path) (.success content) = .ok res ∧ res.ret = 0 ∧
        res.values = .ofConfig c) ↔
      content.length < userConfigSize ∧
        parseNetworkConfig stack content .unset = .ok (0, .ofConfig c) := by
  by_cases hsize : content.length < userConfigSize
  · have hread : readUserConfig stack (some path) (.success content) =
        parseNetworkConfig stack content .unset >>= fun found =>
          .ok { ret := if found.1 ≠ 0 then -1 else found.1, values := found.2
                streams := [.fopen, .fclose], created := none } := by
      have hreads : UserReads (some path) (.success content) content :=
        ⟨hpath, rfl, hsize, rfl, rfl⟩
      exact readUserFields_reads hreads
    rw [hread]
    constructor
    · rintro ⟨res, hres, hret, hvalues⟩
      obtain ⟨⟨err, values⟩, hparse, hres⟩ := run_bind_eq_ok hres
      obtain rfl := Except.ok.inj hres
      dsimp only at hret hvalues
      subst hvalues
      split at hret
      · exact absurd hret (by decide)
      · subst hret
        exact ⟨hsize, hparse⟩
    · rintro ⟨-, hparse⟩
      rw [hparse]
      exact ⟨_, rfl, rfl, rfl⟩
  · refine iff_of_false ?_ fun h => hsize h.1
    rintro ⟨res, hres, -, hvalues⟩
    have hskip : UserSkips (some path) (.success content) :=
      ⟨hpath, content, rfl, .inl (Nat.le_of_not_lt hsize)⟩
    rw [readUserConfig, readUserFields_skips hskip] at hres
    obtain rfl := Except.ok.inj hres
    cases hvalues

/-- A value with a NUL is not the body of a string. -/
theorem printed_eq_self {c : NetConfig} (h : ∀ f ∈ configFields c, StringBody (· ≠ 0) f.2) :
    c.printed = c := by
  simp only [configFields, List.forall_mem_cons] at h
  obtain ⟨hmeth, hhn, hip, hsn, hgw, -⟩ := h
  rw [NetConfig.printed, cstr_eq_self (str_zero hmeth), cstr_eq_self (str_zero hip),
    cstr_eq_self (str_zero hsn), cstr_eq_self (str_zero hgw), cstr_eq_self (str_zero hhn)]

/-- **The stored configuration is the one of the next start** exactly if each of the five values is
the body of a string for the tokenizer and the document of them is shorter than the buffer. -/
theorem networkPut_restart_iff (hput : networkPut stack b io file = .ok r)
    (hcode : r.response.code = 200)
    (hkept : ∀ c text, putConfig stack b = .ok (some c) → printNetworkConfig c = .ok text →
      text.length ≤ io.kept) (hpath : cstr path ≠ []) :
    ∃ c content, putConfig stack b = .ok (some c) ∧ r.file = some content ∧
      ((∃ res, readUserConfig stack' (some path) (.success content) = .ok res ∧ res.ret = 0 ∧
          res.values = .ofConfig c) ↔
        (∀ value ∈ [c.meth, c.ip, c.sn, c.gw, c.hn], StringBody (· ≠ 0) value) ∧
          (configText c).length < userConfigSize) := by
  cases networkPut_outcome hput with
  | rejected hconfig hfile hfail | closed hconfig hopened hfile hfail =>
      rw [hcode] at hfail
      exact absurd hfail (by decide)
  | @written c hconfig hopened hfile hprinted =>
      have hwhole := hkept c _ hconfig (printNetworkConfig_eq c)
      rw [List.take_of_length_le hwhole] at hfile
      refine ⟨c, configText c.printed, hconfig, hfile, ?_⟩
      have hfields : (∀ value ∈ [c.meth, c.ip, c.sn, c.gw, c.hn], StringBody (· ≠ 0) value) ↔
          ∀ f ∈ configFields c, StringBody (· ≠ 0) f.2 := by
        simp only [configFields, List.forall_mem_cons]
        tauto
      rw [readUserConfig_found_iff hpath, parseNetworkConfig_configText_iff, hfields, And.comm]
      apply and_congr_right
      intro hstr
      rw [printed_eq_self hstr]

theorem networkPut_restart_sample :
    ∃ r content res, networkPut zeroStack (documentOf (quoted (bytes "x")))
        (.success (configText (configOf (bytes "x")))) none = .ok r ∧ r.file = some content ∧
      readUserConfig zeroStack (some (bytes "/u")) (.success content) = .ok res ∧ res.ret = 0 ∧
      res.values = .ofConfig (configOf (bytes "x")) := by
  have hput : networkPut zeroStack (documentOf (quoted (bytes "x")))
      (.success (configText (configOf (bytes "x")))) none = .ok
        { file := some (configText (configOf (bytes "x")))
          response := ⟨200, bytes "application/json", 14, bytes "\x7b\"error\":\"ok\"\x7d"⟩ } := by
    decide +kernel
  have hconfig : putConfig zeroStack (documentOf (quoted (bytes "x"))) =
      .ok (some (configOf (bytes "x"))) := by
    rfl
  have hprinted : (configOf (bytes "x")).printed = configOf (bytes "x") := by decide
  have hkept : ∀ c text, putConfig zeroStack (documentOf (quoted (bytes "x"))) = .ok (some c) →
      printNetworkConfig c = .ok text →
        text.length ≤ (PutIo.success (configText (configOf (bytes "x")))).kept := by
    intro c text hc htext
    obtain rfl := Option.some.inj (Except.ok.inj (hconfig.symm.trans hc))
    obtain rfl := Except.ok.inj ((printNetworkConfig_eq _).symm.trans htext)
    rw [hprinted]
    exact Nat.le_refl _
  have hpath : cstr (bytes "/u") ≠ [] := by decide
  obtain ⟨c, content, hc, hfile, hiff⟩ :=
    @networkPut_restart_iff zeroStack zeroStack _ _ _ none _ hput rfl hkept hpath
  obtain rfl := Option.some.inj (Except.ok.inj (hconfig.symm.trans hc))
  obtain rfl := Option.some.inj hfile
  have hstr : ∀ value ∈ [bytes "DHCP", bytes "1", bytes "2", bytes "3", bytes "x"],
      StringBody (· ≠ 0) value := by
    intro value hvalue
    apply str_of_plain
    revert value
    decide
  obtain ⟨res, hres, hret, hvalues⟩ := hiff.mpr ⟨hstr, by decide⟩
  exact ⟨_, _, res, hput, rfl, hres, hret, hvalues⟩

/-- A host name that is an object is written with its quotes between quotes, and the next start
rejects the file. -/
theorem networkPut_unreadable :
    ∃ r content res, networkPut zeroStack (documentOf (bytes "\x7b\"a\":1\x7d"))
        (.success (configText (configOf (bytes "\x7b\"a\":1\x7d")))) none = .ok r ∧
      r.response.code = 200 ∧ r.file = some content ∧
      readUserConfig zeroStack (some (bytes "/u")) (.success content) = .ok res ∧ res.ret = -1 := by
  refine ⟨{ file := some (configText (configOf (bytes "\x7b\"a\":1\x7d")))
            response := ⟨200, bytes "application/json", 14, bytes "\x7b\"error\":\"ok\"\x7d"⟩ },
    configText (configOf (bytes "\x7b\"a\":1\x7d")),
    ⟨-1, .unset, [.fopen, .fclose], none⟩, ?_, rfl, rfl, ?_, rfl⟩
  · decide +kernel
  · rfl

end Restart

end AtxSys
