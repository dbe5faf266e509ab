import AtxSys.NetworkManagement
import AtxSys.Proof.Document

/-!
# Reading a configuration

`parse_network_config` succeeds exactly when each of its guides leads to a token, and then its five
variables are the values of these tokens.
-/

namespace AtxSys

open CText JsonSyntax

/-! ### The values that were found -/

/-- The guide leads to a token of which `value` makes `s`. -/
def FoundBy {α : Type} (value : Nat → Run α) (mem : TokMem) (buff : Bytes) (depth : Nat)
    (guide : Bytes) (s : α) : Prop :=
  ∃ tok, jsonDelve mem buff depth 0 guide = .ok (some tok) ∧ value tok = .ok s

/-- The guide leads to a token with the text `s`. -/
def Found (mem : TokMem) (buff : Bytes) (depth : Nat) (guide s : Bytes) : Prop :=
  FoundBy (jsonTokValue buff mem) mem buff depth guide s

section Tags

variable {α : Type} {value : Nat → Run α} {mem : TokMem} {buff : Bytes} {depth : Nat}

/-- The variables after the loop assigned the values that the tags lead to. -/
def assignAll (tags : List (Tag α × α)) (v : NetFields α) : NetFields α :=
  tags.foldl (fun v tag => tag.1.assign v tag.2) v

theorem tagLoop_eq_zero_iff {tags : List (Tag α)} {v v' : NetFields α} :
    tagLoop mem buff depth value tags v = .ok (0, v') ↔
      ∃ found : List (Tag α × α), found.map Prod.fst = tags ∧ v' = assignAll found v ∧
        ∀ f ∈ found, FoundBy value mem buff depth f.1.key f.2 := by
  induction tags generalizing v with
  | nil =>
      constructor
      · intro h
        obtain ⟨-, rfl⟩ := Prod.mk.inj (Except.ok.inj h)
        exact ⟨[], rfl, rfl, by simp⟩
      · rintro ⟨found, hfound, rfl, -⟩
        rw [List.map_eq_nil_iff.mp hfound]
        rfl
  | cons tag tags ih =>
      constructor
      · intro h
        obtain ⟨tok, htok, h⟩ := run_bind_eq_ok h
        cases tok with
        | none =>
            obtain ⟨hret, -⟩ := Prod.mk.inj (Except.ok.inj h)
            exact absurd hret (by decide)
        | some tok =>
            obtain ⟨s, hs, h⟩ := run_bind_eq_ok h
            obtain ⟨found, rfl, rfl, hall⟩ := ih.mp h
            refine ⟨(tag, s) :: found, rfl, rfl, ?_⟩
            intro f hf
            rcases List.mem_cons.mp hf with rfl | hf
            · exact ⟨tok, htok, hs⟩
            · exact hall f hf
      · rintro ⟨found, hfound, rfl, hall⟩
        obtain ⟨⟨tag', s⟩, found, rfl⟩ : ∃ f fs, found = f :: fs :=
          List.exists_cons_of_ne_nil (by rintro rfl; cases hfound)
        obtain ⟨rfl, hrest⟩ := List.cons.inj hfound
        obtain ⟨tok, htok, hs⟩ := hall (tag', s) List.mem_cons_self
        rw [tagLoop, htok, run_bind_ok]
        change (value tok >>= _) = _
        rw [hs, run_bind_ok]
        exact ih.mpr ⟨found, hrest, rfl, fun f hf => hall f (List.mem_cons_of_mem _ hf)⟩

/-- Where the loop fails, the walk of a tag finds nothing. -/
theorem tagLoop_failed {tags : List (Tag α)} {v v' : NetFields α} {ret : Int} (hret : ret ≠ 0)
    (h : tagLoop mem buff depth value tags v = .ok (ret, v')) :
    ∃ tag ∈ tags, jsonDelve mem buff depth 0 tag.key = .ok none := by
  induction tags generalizing v with
  | nil =>
      obtain ⟨rfl, -⟩ := Prod.mk.inj (Except.ok.inj h)
      exact absurd rfl hret
  | cons tag tags ih =>
      obtain ⟨tok, htok, h⟩ := run_bind_eq_ok h
      cases tok with
      | none => exact ⟨tag, List.mem_cons_self, htok⟩
      | some tok =>
          obtain ⟨s, -, h⟩ := run_bind_eq_ok h
          obtain ⟨tag', htag, hnone⟩ := ih h
          exact ⟨tag', List.mem_cons_of_mem _ htag, hnone⟩

/-- The loop over the tags ends if each walk does. -/
theorem tagLoop_ends {tags : List (Tag α)} {v : NetFields α}
    (h : ∀ tag ∈ tags, ∃ found, jsonDelve mem buff depth 0 tag.key = .ok found ∧
      ∀ tok ∈ found, ∃ s, value tok = .ok s) :
    ∃ r, tagLoop mem buff depth value tags v = .ok r := by
  induction tags generalizing v with
  | nil => exact ⟨_, rfl⟩
  | cons tag tags ih =>
      obtain ⟨found, hfound, hvalue⟩ := h tag List.mem_cons_self
      rw [tagLoop, hfound, run_bind_ok]
      cases found with
      | none => exact ⟨_, rfl⟩
      | some tok =>
          obtain ⟨s, hs⟩ := hvalue tok rfl
          simp only [hs, run_bind_ok]
          exact ih fun tag htag => h tag (List.mem_cons_of_mem _ htag)

/-- The loop over the five tags assigns all five variables, or fails. -/
theorem tagLoop_networkTags {v v' : NetFields α} :
    tagLoop mem buff depth value networkTags v = .ok (0, v') ↔
      ∃ meth ip sn gw hn, v' = ⟨some meth, some ip, some sn, some gw, some hn⟩ ∧
        FoundBy value mem buff depth (bytes ".ipv4.meth") meth ∧
        FoundBy value mem buff depth (bytes ".ipv4.ip") ip ∧
        FoundBy value mem buff depth (bytes ".ipv4.sn") sn ∧
        FoundBy value mem buff depth (bytes ".ipv4.gw") gw ∧
        FoundBy value mem buff depth (bytes ".ipv4.hn") hn := by
  rw [tagLoop_eq_zero_iff]
  constructor
  · rintro ⟨found, hfound, rfl, hall⟩
    match found, hfound with
    | [(_, ip), (_, sn), (_, gw), (_, meth), (_, hn)], hfound =>
        simp only [List.map_cons, List.map_nil, networkTags, List.cons.injEq, and_true] at hfound
        obtain ⟨rfl, rfl, rfl, rfl, rfl⟩ := hfound
        simp only [List.forall_mem_cons] at hall
        exact ⟨meth, ip, sn, gw, hn, rfl, hall.2.2.2.1, hall.1, hall.2.1, hall.2.2.1,
          hall.2.2.2.2.1⟩
  · rintro ⟨meth, ip, sn, gw, hn, rfl, hmeth, hip, hsn, hgw, hhn⟩
    refine ⟨networkTags.zip [ip, sn, gw, meth, hn], rfl, rfl, ?_⟩
    simp only [networkTags, List.zip_cons_cons, List.zip_nil_left, List.forall_mem_cons]
    exact ⟨hip, hsn, hgw, hmeth, hhn, by simp⟩

end Tags

structure FoundConfig (mem : TokMem) (buff : Bytes) (depth : Nat) (c : NetConfig) : Prop where
  meth : Found mem buff depth (bytes ".ipv4.meth") c.meth
  ip : Found mem buff depth (bytes ".ipv4.ip") c.ip
  sn : Found mem buff depth (bytes ".ipv4.sn") c.sn
  gw : Found mem buff depth (bytes ".ipv4.gw") c.gw
  hn : Found mem buff depth (bytes ".ipv4.hn") c.hn

theorem tagLoop_networkTags_iff {mem : TokMem} {buff : Bytes} {depth : Nat} {v v' : NetValues} :
    tagLoop mem buff depth (jsonTokValue buff mem) networkTags v = .ok (0, v') ↔
      ∃ c, v' = .ofConfig c ∧ FoundConfig mem buff depth c := by
  rw [tagLoop_networkTags]
  constructor
  · rintro ⟨meth, ip, sn, gw, hn, rfl, hmeth, hip, hsn, hgw, hhn⟩
    exact ⟨⟨meth, ip, sn, gw, hn⟩, rfl, ⟨hmeth, hip, hsn, hgw, hhn⟩⟩
  · rintro ⟨c, rfl, h⟩
    exact ⟨c.meth, c.ip, c.sn, c.gw, c.hn, rfl, h.meth, h.ip, h.sn, h.gw, h.hn⟩

/-- With tokens `parse_network_config` is the loop over its tags. -/
theorem parseNetworkFields_tokens {α : Type} {value : TokMem → Nat → Run α} {stack : Stack}
    {buff : Bytes} {v : NetFields α} {p : JsmnParser} (hparse : jsmnParse buff configToks = .ok p)
    (hcount : p.count ≠ 0) :
    parseNetworkFields value stack buff v =
      tagLoop (tokArray configToks p.toks stack) buff stack.depth
        (value (tokArray configToks p.toks stack)) networkTags v := by
  simp only [parseNetworkFields, hparse, if_neg hcount]

theorem parseNetworkFields_eq_zero_iff {α : Type} {value : TokMem → Nat → Run α} {stack : Stack}
    {buff : Bytes} {v v' : NetFields α} :
    parseNetworkFields value stack buff v = .ok (0, v') ↔
      ∃ p, jsmnParse buff configToks = .ok p ∧ p.count ≠ 0 ∧
        tagLoop (tokArray configToks p.toks stack) buff stack.depth
          (value (tokArray configToks p.toks stack)) networkTags v = .ok (0, v') := by
  constructor
  · intro h
    cases hparse : jsmnParse buff configToks with
    | error e =>
        rw [parseNetworkFields, hparse] at h
        obtain ⟨hret, -⟩ := Prod.mk.inj (Except.ok.inj h)
        exact absurd hret (by decide)
    | ok p =>
        by_cases hcount : p.count = 0
        · simp only [parseNetworkFields, hparse, if_pos hcount] at h
          obtain ⟨hret, -⟩ := Prod.mk.inj (Except.ok.inj h)
          exact absurd hret (by decide)
        · exact ⟨p, rfl, hcount, (parseNetworkFields_tokens hparse hcount).symm.trans h⟩
  · rintro ⟨p, hparse, hcount, h⟩
    rw [parseNetworkFields_tokens hparse hcount, h]

/-- **Success of `parse_network_config`**: jsmn accepts the text with at least one token, and every
guide leads to a token. -/
theorem parseNetworkConfig_eq_zero_iff {stack : Stack} {buff : Bytes} {v v' : NetValues} :
    parseNetworkConfig stack buff v = .ok (0, v') ↔
      ∃ p c, jsmnParse buff configToks = .ok p ∧ p.count ≠ 0 ∧ v' = .ofConfig c ∧
        FoundConfig (tokArray configToks p.toks stack) buff stack.depth c := by
  rw [parseNetworkConfig, parseNetworkFields_eq_zero_iff]
  simp only [tagLoop_networkTags_iff]
  constructor
  · rintro ⟨p, hparse, hcount, c, hv, hc⟩
    exact ⟨p, c, hparse, hcount, hv, hc⟩
  · rintro ⟨p, c, hparse, hcount, hv, hc⟩
    exact ⟨p, hparse, hcount, c, hv, hc⟩

/-! ### Pointers, and what is there -/

section Reads

/-- The variables correspond one by one. -/
structure NetFields.Rel {α β : Type} (R : α → β → Prop) (v : NetFields α) (w : NetFields β) :
    Prop where
  meth : Option.Rel R v.meth w.meth
  ip : Option.Rel R v.ip w.ip
  sn : Option.Rel R v.sn w.sn
  gw : Option.Rel R v.gw w.gw
  hn : Option.Rel R v.hn w.hn

variable {buff : Bytes}

/-- The bytes are those that a reader finds at the pointer. -/
def Delimits (buff : Bytes) (x : JsmnValue) (s : Bytes) : Prop := x.text buff = .ok s

theorem NetFields.Rel.read {v : NetSlices} {w : NetValues} {c : NetConfig}
    (h : NetFields.Rel (Delimits buff) v w) (hw : w.read .ok = .ok c) :
    v.read (JsmnValue.text buff) = .ok c := by
  obtain ⟨meth, ip, sn, gw, hn⟩ := v
  obtain ⟨meth', ip', sn', gw', hn'⟩ := w
  obtain ⟨hmeth, hip, hsn, hgw, hhn⟩ := h
  cases hmeth with
  | none => cases hw
  | some hmeth =>
  cases hip with
  | none => cases hw
  | some hip =>
  cases hsn with
  | none => cases hw
  | some hsn =>
  cases hgw with
  | none => cases hw
  | some hgw =>
  cases hhn with
  | none => cases hw
  | some hhn =>
  rw [NetFields.read, show JsmnValue.text buff _ = _ from hmeth,
    show JsmnValue.text buff _ = _ from hip, show JsmnValue.text buff _ = _ from hsn,
    show JsmnValue.text buff _ = _ from hgw, show JsmnValue.text buff _ = _ from hhn]
  exact hw

end Reads

/-! ### The text that is written -/

/-- The values as `%.*s` prints them. -/
def NetConfig.printed (c : NetConfig) : NetConfig where
  meth := cstr c.meth
  ip := cstr c.ip
  sn := cstr c.sn
  gw := cstr c.gw
  hn := cstr c.hn

/-- The text of `print_network_config` for values that it prints whole. -/
def configText (c : NetConfig) : Bytes :=
  bytes "\x7b\"ipv4\":\x7b\"meth\":\"" ++ (c.meth ++ (bytes "\",\"hn\":\"" ++ (c.hn ++
  (bytes "\",\"ip\":\"" ++ (c.ip ++ (bytes "\",\"sn\":\"" ++ (c.sn ++
  (bytes "\",\"gw\":\"" ++ (c.gw ++ bytes "\"\x7d\x7d")))))))))

theorem printNetworkConfig_eq (c : NetConfig) :
    printNetworkConfig c = .ok (configText c.printed) := by
  apply formatText_eq_ok
  rw [networkManagementJsonFormat, vformat_append (by decide), vformat_strn,
    vformat_append (by decide), vformat_strn, vformat_append (by decide), vformat_strn,
    vformat_append (by decide), vformat_strn, vformat_append (by decide), vformat_strn,
    vformat_text (by decide)]
  rfl

theorem zero_notMem_configText (c : NetConfig) : 0 ∉ configText c.printed := by
  have hmeth := zero_notMem_cstr c.meth
  have hhn := zero_notMem_cstr c.hn
  have hip := zero_notMem_cstr c.ip
  have hsn := zero_notMem_cstr c.sn
  have hgw := zero_notMem_cstr c.gw
  simp only [configText, NetConfig.printed, List.mem_append, hmeth, hhn, hip, hsn, hgw, false_or]
  decide

/-! ### Samples -/

def zeroStack : Stack where
  junk _ := ⟨.undefined, 0, 0, 0⟩
  depth := 256
  hdepth := Nat.le_refl 256

/-- A document with this text for its host name. -/
def documentOf (hn : Bytes) : Bytes :=
  bytes "\x7b\"ipv4\":\x7b\"meth\":\"DHCP\",\"ip\":1,\"sn\":2,\"gw\":3,\"hn\":" ++ hn ++
    bytes "\x7d\x7d"

def configOf (hn : Bytes) : NetConfig := ⟨bytes "DHCP", bytes "1", bytes "2", bytes "3", hn⟩

end AtxSys
