import AtxSys.Proof.RoundTrip
import AtxSys.Proof.Routes

/-!
# Two readers of one document

`put` and `parse_network_config` walk the same guides over token arrays of different sizes. They
agree where each walk stays among the tokens, and either both arrays hold them or a value is missing.
A walk that leaves the tokens depends on what the stack held: over `trapStack` it never ends well.
-/

namespace AtxSys

open CText

/-! ### The configuration -/

theorem configFields_key {c : NetConfig} {f : Bytes × Bytes} (hf : f ∈ configFields c) :
    f.1 ∈ valueKeys := by
  have hkeys : (configFields c).map Prod.fst =
      [bytes "meth", bytes "hn", bytes "ip", bytes "sn", bytes "gw"] := rfl
  have hkey := List.mem_map_of_mem (f := Prod.fst) hf
  rw [hkeys] at hkey
  revert hkey
  generalize f.1 = key
  simp only [valueKeys, List.mem_cons, List.not_mem_nil, or_false]
  tauto

theorem exists_configField {c : NetConfig} {key : Bytes} (hkey : key ∈ valueKeys) :
    ∃ s, (key, s) ∈ configFields c := by
  simp only [valueKeys, List.mem_cons, List.not_mem_nil, or_false] at hkey
  rcases hkey with rfl | rfl | rfl | rfl | rfl
  · exact ⟨c.meth, by simp [configFields]⟩
  · exact ⟨c.ip, by simp [configFields]⟩
  · exact ⟨c.sn, by simp [configFields]⟩
  · exact ⟨c.gw, by simp [configFields]⟩
  · exact ⟨c.hn, by simp [configFields]⟩

/-- The values that `put` reads are those that its guides lead to. -/
theorem networkToks_config_iff {mem : TokMem} {b : Bytes} {depth : Nat} {c : NetConfig} :
    (∃ toks, networkToks mem b depth = .ok (some toks) ∧ networkConfigToks b mem toks = .ok c) ↔
      FoundConfig mem b depth c := by
  constructor
  · rintro ⟨toks, h, hc⟩
    simp only [networkToks_eq_some_iff, toksFields, List.forall_mem_cons] at h
    obtain ⟨hmeth, hip, hsn, hgw, hhn, -⟩ := h
    obtain ⟨methText, hmethText, hc⟩ := run_bind_eq_ok hc
    obtain ⟨ipText, hipText, hc⟩ := run_bind_eq_ok hc
    obtain ⟨snText, hsnText, hc⟩ := run_bind_eq_ok hc
    obtain ⟨gwText, hgwText, hc⟩ := run_bind_eq_ok hc
    obtain ⟨hnText, hhnText, hc⟩ := run_bind_eq_ok hc
    obtain rfl := Except.ok.inj hc
    exact ⟨⟨toks.meth, hmeth, hmethText⟩, ⟨toks.ip, hip, hipText⟩, ⟨toks.sn, hsn, hsnText⟩,
      ⟨toks.gw, hgw, hgwText⟩, ⟨toks.hn, hhn, hhnText⟩⟩
  · rintro ⟨⟨meth, hmeth, hmethText⟩, ⟨ip, hip, hipText⟩, ⟨sn, hsn, hsnText⟩, ⟨gw, hgw, hgwText⟩,
      ⟨hn, hhn, hhnText⟩⟩
    refine ⟨⟨meth, ip, sn, gw, hn⟩, ?_, ?_⟩
    · simp only [networkToks, hmeth, hip, hsn, hgw, hhn, run_bind_ok]
    · simp only [networkConfigToks, hmethText, hipText, hsnText, hgwText, hhnText, run_bind_ok]

theorem putConfig_eq_some_iff {stack : Stack} {b : Bytes} {c : NetConfig} :
    putConfig stack b = .ok (some c) ↔
      ∃ p, jsmnParse b putNumToks = .ok p ∧ p.count ≠ 0 ∧
        FoundConfig (tokArray putNumToks p.toks stack) b stack.depth c := by
  unfold putConfig putToks
  cases hparse : jsmnParse b putNumToks with
  | error e => simp
  | ok p =>
      simp only [Except.ok.injEq, exists_eq_left']
      by_cases hzero : p.count = 0
      · simp [hzero]
      rw [if_neg hzero, ← networkToks_config_iff]
      simp only [hzero, not_false_eq_true, ne_eq, true_and]
      constructor
      · intro h
        obtain ⟨found, hfound, h⟩ := guard_eq_some h rfl
        obtain ⟨c', hc, h⟩ := run_bind_eq_ok h
        obtain rfl := Option.some.inj (Except.ok.inj h)
        obtain ⟨toks, htoks, hfound⟩ := guard_eq_some hfound rfl
        obtain rfl := Option.some.inj (Except.ok.inj hfound)
        exact ⟨toks, htoks, hc⟩
      · rintro ⟨toks, htoks, hc⟩
        rw [htoks]
        simp only [run_bind_ok, hc]

/-! ### The two readers -/

/-- `put` and `parse_network_config` both accept the text with the same values, or both reject it. -/
def ReadersAgree (stack stack' : Stack) (b : Bytes) (v : NetValues) : Prop :=
  ∃ found ret v', putConfig stack b = .ok found ∧ parseNetworkConfig stack' b v = .ok (ret, v') ∧
    (found.isSome ↔ ret = 0) ∧ ∀ c ∈ found, v' = .ofConfig c

section Readers

variable {b : Bytes} {p : JsmnParser} {stack stack' : Stack} {v : NetValues}

theorem configFound_iff_leads (hparse : jsmnParse b putNumToks = .ok p) (hcount : p.count ≠ 0)
    (hfits : ConfigFits b p.toks) {n : Nat} (hroom : p.toks.length ≤ n) {c : NetConfig} :
    FoundConfig (tokArray n p.toks stack) b stack.depth c ↔ ∀ f ∈ configFields c,
      ∃ v t, Leads b p.toks 0 [bytes "ipv4", f.1] v ∧ p.toks[v]? = some t ∧ f.2 = tokText b t := by
  obtain ⟨htokens, hlength, hput⟩ := jsmnParse_tokens hparse
  have hdepth : p.toks.length ≤ stack.depth := Nat.le_trans hput stack.hdepth
  rw [foundConfig_iff]
  refine forall₂_congr fun f hf => ?_
  have hkey := configFields_key hf
  exact found_iff_leads htokens hroom hdepth (by omega) (networkKeys f.1 hkey) (hfits f.1 hkey) f.2

theorem walksEnd_value (hparse : jsmnParse b putNumToks = .ok p) (hcount : p.count ≠ 0)
    (hfits : ConfigFits b p.toks) {n : Nat} (hroom : p.toks.length ≤ n) :
    WalksEnd (jsonTokValue b (tokArray n p.toks stack)) (tokArray n p.toks stack) b
      stack.depth := by
  obtain ⟨htokens, hlength, hput⟩ := jsmnParse_tokens hparse
  have hdepth : p.toks.length ≤ stack.depth := Nat.le_trans hput stack.hdepth
  exact walksEnd_of_fits htokens hroom hdepth (by omega) hfits fun i t ht =>
    ⟨_, jsonTokValue_tokArray htokens hroom ht⟩

/-- A parse into the smaller array is the parse into the larger one. -/
theorem configParse_unique (hparse : jsmnParse b putNumToks = .ok p) {q : JsmnParser}
    (hq : jsmnParse b configToks = .ok q) : q = p ∧ p.toks.length ≤ configToks := by
  have hmono := jsmnParse_mono (by decide : configToks ≤ putNumToks) hq
  obtain rfl := Except.ok.inj (hmono.symm.trans hparse)
  exact ⟨rfl, (jsmnParse_tokens hq).2.2⟩

/-- Both readers end, and the one accepts what the other does. -/
theorem readersAgree_of_iff (hput : ∃ found, putConfig stack b = .ok found)
    (hread : ∃ r, parseNetworkConfig stack' b v = .ok r)
    (h : ∀ c, putConfig stack b = .ok (some c) ↔
      parseNetworkConfig stack' b v = .ok (0, .ofConfig c)) :
    ReadersAgree stack stack' b v := by
  obtain ⟨found, hfound⟩ := hput
  obtain ⟨⟨ret, v'⟩, hret⟩ := hread
  refine ⟨found, ret, v', hfound, hret, ?_, ?_⟩
  · constructor
    · intro hsome
      obtain ⟨c, rfl⟩ := Option.isSome_iff_exists.mp hsome
      exact (Prod.mk.inj (Except.ok.inj (hret.symm.trans ((h c).mp hfound)))).1
    · rintro rfl
      obtain ⟨p, c, -, -, rfl, -⟩ := parseNetworkConfig_eq_zero_iff.mp hret
      rw [Except.ok.inj (hfound.symm.trans ((h c).mpr hret))]
      rfl
  · rintro c rfl
    exact (Prod.mk.inj (Except.ok.inj (hret.symm.trans ((h c).mp hfound)))).2

theorem putConfig_ends (h : ∀ p, jsmnParse b putNumToks = .ok p → p.count ≠ 0 →
    WalksEnd (jsonTokValue b (tokArray putNumToks p.toks stack)) (tokArray putNumToks p.toks stack)
      b stack.depth) :
    ∃ found, putConfig stack b = .ok found := by
  cases hparse : jsmnParse b putNumToks with
  | error e => exact ⟨none, by simp only [putConfig, putToks, hparse, run_bind_ok]⟩
  | ok p =>
      by_cases hcount : p.count = 0
      · exact ⟨none, by simp only [putConfig, putToks, hparse, if_pos hcount, run_bind_ok]⟩
      have hwalks := h p hparse hcount
      obtain ⟨found, hfound⟩ := networkToks_ends fun key hkey =>
        (hwalks key hkey).imp fun _ hwalk => hwalk.1
      rw [putConfig, putToks_tokens hparse hcount, hfound, run_bind_ok, run_bind_ok]
      cases found with
      | none => exact ⟨none, rfl⟩
      | some toks =>
          obtain ⟨c, hc⟩ := networkConfigToks_ends_iff.mpr fun f hf => by
            obtain ⟨found, hdelve, hvalue⟩ := hwalks f.1 (toksFields_key hf)
            have hsame := networkToks_eq_some_iff.mp hfound f hf
            exact hvalue f.2 (Except.ok.inj (hdelve.symm.trans hsame))
          exact ⟨some c, by simp only [Option.map_some, hc, run_bind_ok]⟩

theorem ofConfig_inj {c c' : NetConfig} (h : NetFields.ofConfig c = .ofConfig c') : c = c' := by
  cases c
  cases c'
  simpa [NetFields.ofConfig] using h

theorem readersAgree_of_fits (h : ∀ p, jsmnParse b putNumToks = .ok p → p.count ≠ 0 →
    ConfigFits b p.toks ∧ (p.toks.length ≤ configToks ∨ ¬ConfigLeads b p.toks)) :
    ReadersAgree stack stack' b v := by
  apply readersAgree_of_iff
  · apply putConfig_ends
    intro p hparse hcount
    exact walksEnd_value hparse hcount (h p hparse hcount).1 (jsmnParse_tokens hparse).2.2
  · apply parseNetworkFields_ends
    intro q hq hcount
    have hparse := jsmnParse_mono (by decide : configToks ≤ putNumToks) hq
    exact walksEnd_value hparse hcount (h q hparse hcount).1 (jsmnParse_tokens hq).2.2
  intro c
  rw [putConfig_eq_some_iff, parseNetworkConfig_eq_zero_iff]
  constructor
  · rintro ⟨p, hparse, hcount, hc⟩
    obtain ⟨hfits, hroom⟩ := h p hparse hcount
    have hput := (jsmnParse_tokens hparse).2.2
    have hvalues := (configFound_iff_leads hparse hcount hfits hput).mp hc
    have hleads : ConfigLeads b p.toks := by
      intro key hkey
      obtain ⟨s, hs⟩ := @exists_configField c key hkey
      obtain ⟨v, t, hv, -⟩ := hvalues (key, s) hs
      exact ⟨v, hv⟩
    have hroom : p.toks.length ≤ configToks := hroom.resolve_right (not_not.mpr hleads)
    exact ⟨p, c, jsmnParse_resize hparse hroom, hcount, rfl,
      (configFound_iff_leads hparse hcount hfits hroom).mpr hvalues⟩
  · rintro ⟨q, c', hq, hcount, hsame, hc⟩
    obtain rfl := ofConfig_inj hsame
    have hparse := jsmnParse_mono (by decide : configToks ≤ putNumToks) hq
    have hfits := (h q hparse hcount).1
    have hvalues := (configFound_iff_leads hparse hcount hfits (jsmnParse_tokens hq).2.2).mp hc
    exact ⟨q, hparse, hcount,
      (configFound_iff_leads hparse hcount hfits (jsmnParse_tokens hparse).2.2).mpr hvalues⟩

theorem fits_of_readersAgree (h : ∀ stack stack' v, ReadersAgree stack stack' b v)
    (hparse : jsmnParse b putNumToks = .ok p) (hcount : p.count ≠ 0) :
    ConfigFits b p.toks ∧ (p.toks.length ≤ configToks ∨ ¬ConfigLeads b p.toks) := by
  obtain ⟨htokens, hlength, hroom⟩ := jsmnParse_tokens hparse
  have hdepth : p.toks.length ≤ trapStack.depth := Nat.le_trans hroom trapStack.hdepth
  obtain ⟨found, ret, v', hfound, hret, hsame, -⟩ := h trapStack trapStack .unset
  cases found with
  | some c =>
      obtain ⟨p', hparse', -, hc⟩ := putConfig_eq_some_iff.mp hfound
      obtain rfl := Except.ok.inj (hparse.symm.trans hparse')
      constructor
      · intro key hkey
        obtain ⟨s, hs⟩ := @exists_configField c key hkey
        obtain ⟨v, hv, hs⟩ := foundConfig_iff.mp hc (key, s) hs
        refine guideFits_of_trap htokens hroom hdepth (by omega) (networkKeys key hkey) hv ?_
        rintro _ ⟨⟩
        by_contra hge
        exact jsonTokValue_trap (Nat.le_of_not_lt hge) hs
      · obtain rfl := hsame.mp rfl
        obtain ⟨q, _, hq, -⟩ := parseNetworkConfig_eq_zero_iff.mp hret
        exact .inl (configParse_unique hparse hq).2
  | none =>
      have hnone := putConfig_eq_none_iff.mp hfound
      rw [putToks_tokens hparse hcount] at hnone
      obtain ⟨toks, htoks, hnone⟩ := run_bind_eq_ok hnone
      cases toks with
      | some toks => cases hnone
      | none =>
          obtain ⟨hfits, hleads⟩ := configFits_of_none hparse hcount htoks
          exact ⟨hfits, .inr hleads⟩

/-- **Two readers of one document.** `put` and `parse_network_config` accept the same texts with the
same values, whatever the stack holds, exactly if no walk to a value leaves the tokens, and the
smaller array holds the tokens unless a value is missing. -/
theorem readers_agree_iff (b : Bytes) :
    (∀ stack stack' v, ReadersAgree stack stack' b v) ↔
      ∀ p, jsmnParse b putNumToks = .ok p → p.count ≠ 0 →
        ConfigFits b p.toks ∧ (p.toks.length ≤ configToks ∨ ¬ConfigLeads b p.toks) := by
  constructor
  · intro h p hparse hcount
    exact fits_of_readersAgree h hparse hcount
  · intro h stack stack' v
    exact readersAgree_of_fits h

/-- The five values, and an array with this many further elements. -/
def documentWith (elements : Nat) : Bytes :=
  bytes "\x7b\"ipv4\":\x7b\"meth\":1,\"ip\":2,\"sn\":3,\"gw\":4,\"hn\":5\x7d,\"x\":[0" ++
    ((List.replicate elements (bytes ",0")).flatten ++ bytes "]\x7d")

/-- `put` takes a document with 129 tokens that `parse_network_config` rejects. -/
theorem readers_disagree_on_long :
    putConfig zeroStack (documentWith 113) =
        .ok (some ⟨bytes "1", bytes "2", bytes "3", bytes "4", bytes "5"⟩) ∧
      parseNetworkConfig zeroStack (documentWith 113) .unset = .ok (-1, .unset) ∧
      ¬∀ stack stack' v, ReadersAgree stack stack' (documentWith 113) v := by
  have hput : putConfig zeroStack (documentWith 113) =
      .ok (some ⟨bytes "1", bytes "2", bytes "3", bytes "4", bytes "5"⟩) := by
    decide +kernel
  have hread : parseNetworkConfig zeroStack (documentWith 113) .unset = .ok (-1, .unset) := by
    decide +kernel
  refine ⟨hput, hread, fun h => ?_⟩
  obtain ⟨found, ret, v', hfound, hret, hsame, -⟩ := h zeroStack zeroStack .unset
  obtain rfl := Except.ok.inj (hput.symm.trans hfound)
  obtain ⟨rfl, -⟩ := Prod.mk.inj (Except.ok.inj (hread.symm.trans hret))
  exact absurd (hsame.mp rfl) (by decide)

end Readers

end AtxSys
