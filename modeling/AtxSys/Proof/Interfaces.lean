import AtxSys.Lib.Slices
import AtxSys.Proof.NetworkConfig
import Mathlib.Algebra.Ring.Nat

/-!
# The lines of `/etc/network/interfaces`

Read back line by line, the text that `print_network_interface` writes is its template exactly if no
value in it has a newline.
-/

namespace AtxSys

open CText JsonSyntax Slices

/-! ### The template -/

def interfacesHead : List Bytes :=
  [bytes "# This file is generated by altronix atx-sys program.",
    bytes "# This file will be overwritten on startup.",
    bytes "# To configure the network please consult atx-sys.", [],
    bytes "auto lo", bytes "iface lo inet loopback", [], bytes "iface eth0 inet static",
    bytes "  address 127.0.0.1", bytes "  netmask 255.255.255.0", []]

def dhcpLines (c : NetConfig) : List Bytes :=
  [bytes "iface eth0.10 inet dhcp", bytes "  pre-up /etc/network/nfs_check",
    bytes "  wait-delay 15", bytes "  hostname " ++ c.hn, []]

def staticLines (c : NetConfig) : List Bytes :=
  [bytes "iface eth0.10 inet static", bytes "  address " ++ c.ip, bytes "  netmask " ++ c.sn,
    bytes "  gateway " ++ c.gw, bytes "  pre-up /etc/network/nfs_check", bytes "  wait-delay 15",
    bytes "  hostname " ++ c.hn, []]

def interfacesLan : List Bytes :=
  [bytes "iface eth0.20 inet static", bytes "  address 192.168.168.100",
    bytes "  netmask 255.255.255.0"]

/-- The lines of the template, with the values of a configuration. -/
def interfacesLines (dhcp : Bool) (c : NetConfig) : List Bytes :=
  interfacesHead ++ (if dhcp then dhcpLines c else staticLines c) ++ interfacesLan ++ [[]]

def interfacesValues (dhcp : Bool) (c : NetConfig) : List Bytes :=
  if dhcp then [c.hn] else [c.ip, c.sn, c.gw, c.hn]

theorem interfacesHead_text :
    interfacesHeader ++ interfacesCommon = interfacesHead.flatMap (· ++ [newline]) := by
  unfold interfacesHeader interfacesCommon interfacesHead
  repeat rw [bytes_ofList]
  rfl

theorem interfacesLan_text :
    interfacesDeviceLan = interfacesLan.flatMap (· ++ [newline]) := by
  unfold interfacesDeviceLan interfacesLan
  repeat rw [bytes_ofList]
  rfl

theorem dhcpLines_text (c : NetConfig) :
    bytes
      "iface eth0.10 inet dhcp\n  pre-up /etc/network/nfs_check\n  wait-delay 15\n  hostname " ++
      (c.hn ++ bytes "\n\n") = (dhcpLines c).flatMap (· ++ [newline]) := by
  have hfront : bytes
      "iface eth0.10 inet dhcp\n  pre-up /etc/network/nfs_check\n  wait-delay 15\n  hostname " =
      [bytes "iface eth0.10 inet dhcp", bytes "  pre-up /etc/network/nfs_check",
        bytes "  wait-delay 15"].flatMap (· ++ [newline]) ++ bytes "  hostname " := by
    repeat rw [bytes_ofList]
    rfl
  have hend : bytes "\n\n" = [newline] ++ [newline] := by decide
  rw [hfront, hend]
  simp only [dhcpLines, List.flatMap_cons, List.flatMap_nil, List.append_assoc, List.nil_append,
    List.append_nil]

theorem staticLines_text (c : NetConfig) :
    bytes "iface eth0.10 inet static\n  address " ++ (c.ip ++ (bytes "\n  netmask " ++ (c.sn ++
      (bytes "\n  gateway " ++ (c.gw ++
      (bytes "\n  pre-up /etc/network/nfs_check\n  wait-delay 15\n  hostname " ++ (c.hn ++
      bytes "\n\n"))))))) = (staticLines c).flatMap (· ++ [newline]) := by
  have haddress : bytes "iface eth0.10 inet static\n  address " =
      bytes "iface eth0.10 inet static" ++ [newline] ++ bytes "  address " := by
    repeat rw [bytes_ofList]
    rfl
  have hnetmask : bytes "\n  netmask " = [newline] ++ bytes "  netmask " := by decide
  have hgateway : bytes "\n  gateway " = [newline] ++ bytes "  gateway " := by decide
  have hhostname : bytes "\n  pre-up /etc/network/nfs_check\n  wait-delay 15\n  hostname " =
      [newline] ++ bytes "  pre-up /etc/network/nfs_check" ++ [newline] ++
        bytes "  wait-delay 15" ++ [newline] ++ bytes "  hostname " := by
    repeat rw [bytes_ofList]
    rfl
  have hend : bytes "\n\n" = [newline] ++ [newline] := by decide
  rw [haddress, hnetmask, hgateway, hhostname, hend]
  simp only [staticLines, List.flatMap_cons, List.flatMap_nil, List.append_assoc, List.nil_append,
    List.append_nil]

theorem interfaces_plain :
    percent ∉ interfacesHeader ∧ percent ∉ interfacesCommon ∧ percent ∉ interfacesDeviceLan := by
  unfold interfacesHeader interfacesCommon interfacesDeviceLan
  repeat rw [bytes_ofList]
  decide

theorem interfacesDhcp_plain : percent ∉ bytes
    "iface eth0.10 inet dhcp\n  pre-up /etc/network/nfs_check\n  wait-delay 15\n  hostname " := by
  rw [bytes_ofList]
  decide

theorem interfacesStatic_plain : percent ∉ bytes "iface eth0.10 inet static\n  address " ∧
    percent ∉ bytes "\n  pre-up /etc/network/nfs_check\n  wait-delay 15\n  hostname " := by
  repeat rw [bytes_ofList]
  decide

theorem printNetworkInterface_eq (c : NetConfig) :
    printNetworkInterface c =
      .ok ([newline].intercalate (interfacesLines (methIsDhcp c.meth) c.printed)) := by
  rw [interfacesLines, intercalate_ended, List.flatMap_append, List.flatMap_append,
    ← interfacesHead_text, ← interfacesLan_text]
  obtain ⟨hheader, hcommon, hlan⟩ := interfaces_plain
  have hend : percent ∉ bytes "\n\n" ++ interfacesDeviceLan :=
    List.not_mem_append (by decide) hlan
  unfold printNetworkInterface
  split
  · next hdhcp =>
    apply formatText_eq_ok
    rw [vformat_append hheader, vformat_append hcommon, interfacesDhcp, List.append_assoc,
      List.append_assoc, vformat_append interfacesDhcp_plain, vformat_strn, vformat_text hend,
      ← dhcpLines_text]
    simp [NetConfig.printed]
  · next hstatic =>
    apply formatText_eq_ok
    obtain ⟨haddress, hhostname⟩ := interfacesStatic_plain
    rw [vformat_append hheader, vformat_append hcommon, interfacesStatic]
    simp only [List.append_assoc]
    rw [vformat_append haddress, vformat_strn, vformat_append (by decide), vformat_strn,
      vformat_append (by decide), vformat_strn, vformat_append hhostname, vformat_strn,
      vformat_text hend, ← staticLines_text]
    simp [NetConfig.printed]

/-! ### Reading it back -/

theorem newline_lines_iff (dhcp : Bool) (c : NetConfig) :
    (∀ line ∈ interfacesLines dhcp c, newline ∉ line) ↔
      ∀ value ∈ interfacesValues dhcp c, newline ∉ value := by
  have hhead : ∀ line ∈ interfacesHead, newline ∉ line := by
    unfold interfacesHead
    repeat rw [bytes_ofList]
    decide
  have hlan : ∀ line ∈ interfacesLan, newline ∉ line := by
    unfold interfacesLan
    repeat rw [bytes_ofList]
    decide
  have hwords : newline ∉ bytes "iface eth0.10 inet dhcp" ∧
      newline ∉ bytes "iface eth0.10 inet static" ∧
      newline ∉ bytes "  pre-up /etc/network/nfs_check" ∧ newline ∉ bytes "  wait-delay 15" ∧
      newline ∉ bytes "  address " ∧ newline ∉ bytes "  netmask " ∧
      newline ∉ bytes "  gateway " ∧ newline ∉ bytes "  hostname " := by
    repeat rw [bytes_ofList]
    decide
  simp only [interfacesLines, interfacesValues, List.forall_mem_append]
  rw [eq_true hhead, eq_true hlan]
  split
  · simp [hwords, dhcpLines]
  · simp [hwords, staticLines]

theorem lines_length (dhcp : Bool) (c : NetConfig) :
    ([newline].intercalate (interfacesLines dhcp c)).length =
      ([newline].intercalate (interfacesLines dhcp ⟨[], [], [], [], []⟩)).length +
        ((interfacesValues dhcp c).map List.length).sum := by
  simp only [interfacesLines, intercalate_ended, interfacesValues, List.flatMap_append]
  split
  · simp only [dhcpLines, List.flatMap_cons, List.flatMap_nil, List.length_append, List.length_nil,
      List.map_cons, List.map_nil, List.sum_cons, List.sum_nil]
    omega
  · simp only [staticLines, List.flatMap_cons, List.flatMap_nil, List.length_append,
      List.length_nil, List.map_cons, List.map_nil, List.sum_cons, List.sum_nil]
    omega

theorem interfacesValues_printed (dhcp : Bool) (c : NetConfig) :
    interfacesValues dhcp c.printed = (interfacesValues dhcp c).map cstr := by
  cases dhcp <;> rfl

theorem interfacesLines_congr {dhcp : Bool} {c c' : NetConfig}
    (h : interfacesValues dhcp c = interfacesValues dhcp c') :
    interfacesLines dhcp c = interfacesLines dhcp c' := by
  cases dhcp with
  | true =>
      have hhn : c.hn = c'.hn := (List.cons.inj h).1
      simp only [interfacesLines, dhcpLines, hhn, if_true]
  | false =>
      simp only [interfacesValues, Bool.false_eq_true, if_false, List.cons.injEq, and_true] at h
      obtain ⟨hip, hsn, hgw, hhn⟩ := h
      simp only [interfacesLines, staticLines, hip, hsn, hgw, hhn, Bool.false_eq_true, if_false]

theorem map_cstr_of_zero_notMem {values : List Bytes} (h : ∀ value ∈ values, 0 ∉ value) :
    values.map cstr = values := by
  calc
    values.map cstr = values.map id :=
      List.map_congr_left fun value hvalue => cstr_eq_self (h value hvalue)
    _ = values := List.map_id _

theorem map_cstr_eq_self {values : List Bytes}
    (h : ((values.map cstr).map List.length).sum = (values.map List.length).sum) :
    ∀ value ∈ values, 0 ∉ value := by
  induction values with
  | nil => exact fun _ hmem => absurd hmem List.not_mem_nil
  | cons value values ih =>
      have hsum : ∀ values : List Bytes,
          ((values.map cstr).map List.length).sum ≤ (values.map List.length).sum := by
        intro values
        induction values with
        | nil => exact Nat.le_refl _
        | cons v vs ih => exact Nat.add_le_add (cstr_length_le v) ih
      have hhead := cstr_length_le value
      have htail := hsum values
      simp only [List.map_cons, List.sum_cons] at h
      intro v hv
      rcases List.mem_cons.mp hv with rfl | hv
      · have hlen : (cstr v).length = v.length := by omega
        exact cstr_eq_self_iff.mp ((cstr_prefixOf v).eq_of_length hlen)
      · exact ih (by omega) v hv

theorem printNetworkInterface_lines_iff (c : NetConfig) :
    ∃ text, printNetworkInterface c = .ok text ∧
      (text.splitOn newline = interfacesLines (methIsDhcp c.meth) c ↔
        ∀ value ∈ interfacesValues (methIsDhcp c.meth) c, newline ∉ value ∧ 0 ∉ value) := by
  refine ⟨_, printNetworkInterface_eq c, ?_⟩
  generalize methIsDhcp c.meth = dhcp
  have hne : interfacesLines dhcp c ≠ [] := by simp [interfacesLines]
  rw [splitOn_eq_iff hne, newline_lines_iff]
  constructor
  · rintro ⟨htext, hnewline⟩ value hvalue
    refine ⟨hnewline value hvalue, ?_⟩
    have hlength := congrArg List.length htext
    rw [lines_length, lines_length dhcp c, interfacesValues_printed] at hlength
    exact map_cstr_eq_self (by omega) value hvalue
  · intro h
    refine ⟨?_, fun value hvalue => (h value hvalue).1⟩
    rw [interfacesLines_congr]
    rw [interfacesValues_printed]
    exact map_cstr_of_zero_notMem fun value hvalue => (h value hvalue).2

/-- **The lines of the interfaces file.** For a document that `parse_network_config` accepts, the
text has exactly the lines of its template if and only if no value that it uses has a newline or a
NUL. -/
theorem printNetworkInterface_parsed {stack : Stack} {buff : Bytes} {v v' : NetValues}
    (hparse : parseNetworkConfig stack buff v = .ok (0, v')) :
    ∃ c text, v' = .ofConfig c ∧ printNetworkInterface c = .ok text ∧
      (text.splitOn newline = interfacesLines (methIsDhcp c.meth) c ↔
        ∀ value ∈ interfacesValues (methIsDhcp c.meth) c, newline ∉ value ∧ 0 ∉ value) := by
  obtain ⟨-, c, -, -, hv, -⟩ := parseNetworkConfig_eq_zero_iff.mp hparse
  obtain ⟨text, htext, hlines⟩ := printNetworkInterface_lines_iff c
  exact ⟨c, text, hv, htext, hlines⟩

theorem printNetworkInterface_parsed_sample :
    ∃ text, printNetworkInterface (configOf (bytes "x")) = .ok text ∧
      text.splitOn newline = interfacesLines true (configOf (bytes "x")) := by
  have hparse : parseNetworkConfig zeroStack (documentOf (quoted (bytes "x"))) .unset =
      .ok (0, .ofConfig (configOf (bytes "x"))) := by
    rfl
  obtain ⟨c, text, hv, htext, hlines⟩ := printNetworkInterface_parsed hparse
  have hc : c = configOf (bytes "x") := by
    simp only [NetFields.ofConfig, NetFields.mk.injEq, Option.some.injEq] at hv
    cases c
    simp_all [configOf]
  subst hc
  exact ⟨text, htext, hlines.mpr (by decide)⟩

/-- A host name with a newline adds a directive. -/
theorem printNetworkInterface_adds_line :
    parseNetworkConfig zeroStack (documentOf (quoted (bytes "x\n  pre-up sh"))) .unset =
        .ok (0, .ofConfig (configOf (bytes "x\n  pre-up sh"))) ∧
      ∃ text, printNetworkInterface (configOf (bytes "x\n  pre-up sh")) = .ok text ∧
        bytes "  pre-up sh" ∈ text.splitOn newline ∧
        text.splitOn newline ≠ interfacesLines true (configOf (bytes "x\n  pre-up sh")) := by
  obtain ⟨_, htext, hlines⟩ := printNetworkInterface_lines_iff (configOf (bytes "x\n  pre-up sh"))
  obtain rfl := Except.ok.inj ((printNetworkInterface_eq _).symm.trans htext)
  refine ⟨by rfl, _, htext, ?_, fun heq => ?_⟩
  · decide +kernel
  · have hplain := hlines.mp heq (bytes "x\n  pre-up sh") (by decide)
    exact absurd hplain.1 (by decide)

/-! ### Which stanza -/

def dhcpKeywords : List Bytes := [bytes "DHCP", bytes "dhcp", bytes "Dhcp"]

/-- The text with the stanza that the whole method asks for. -/
def interfacesText (c : NetConfig) : Bytes :=
  [newline].intercalate (interfacesLines (decide (c.meth ∈ dhcpKeywords)) c)

/-- The methods that `strncmp` takes for a keyword: a keyword begins with it, or it has a keyword and
a NUL in front. -/
def MistakenMeth (meth : Bytes) : Prop :=
  ∃ keyword ∈ dhcpKeywords, (meth <+: keyword ∧ meth ≠ keyword) ∨ keyword ++ [0] <+: meth

theorem methIsDhcp_iff (meth : Bytes) :
    methIsDhcp meth = true ↔
      ∃ keyword ∈ dhcpKeywords, meth <+: keyword ∨ keyword ++ [0] <+: meth := by
  unfold methIsDhcp dhcpKeywords
  rw [Bool.or_eq_true, Bool.or_eq_true, strncmpEq_length_iff (by decide),
    strncmpEq_length_iff (by decide), strncmpEq_length_iff (by decide)]
  simp only [List.exists_mem_cons_iff, List.not_mem_nil, false_and, exists_false, or_false,
    or_assoc]

theorem methIsDhcp_eq_iff (meth : Bytes) :
    methIsDhcp meth = decide (meth ∈ dhcpKeywords) ↔ ¬MistakenMeth meth := by
  by_cases hmem : meth ∈ dhcpKeywords
  · have hdhcp : methIsDhcp meth = true :=
      (methIsDhcp_iff meth).mpr ⟨meth, hmem, .inl (List.prefix_refl _)⟩
    rw [hdhcp, decide_eq_true hmem]
    refine iff_of_true rfl ?_
    have hall : ∀ word ∈ dhcpKeywords, ∀ keyword ∈ dhcpKeywords,
        ¬((word <+: keyword ∧ word ≠ keyword) ∨ keyword ++ [0] <+: word) := by
      decide
    rintro ⟨keyword, hkeyword, hmistaken⟩
    exact hall meth hmem keyword hkeyword hmistaken
  · rw [decide_eq_false hmem, ← Bool.not_eq_true, methIsDhcp_iff, not_iff_not]
    refine exists_congr fun keyword => and_congr_right fun hkeyword => or_congr_left ?_
    refine (and_iff_left ?_).symm
    rintro rfl
    exact hmem hkeyword

theorem intercalate_lines (dhcp : Bool) (c : NetConfig) :
    [newline].intercalate (interfacesLines dhcp c) =
      interfacesHead.flatMap (· ++ [newline]) ++
        ((if dhcp then dhcpLines c else staticLines c).flatMap (· ++ [newline]) ++
          interfacesLan.flatMap (· ++ [newline])) := by
  rw [interfacesLines, intercalate_ended, List.flatMap_append, List.flatMap_append,
    List.append_assoc]

/-- The method of the stanza is in its first line, before any value. -/
theorem intercalate_lines_inj {dhcp dhcp' : Bool} {c c' : NetConfig}
    (h : [newline].intercalate (interfacesLines dhcp c) =
      [newline].intercalate (interfacesLines dhcp' c')) : dhcp = dhcp' := by
  rw [intercalate_lines, intercalate_lines, List.append_right_inj] at h
  have hword : ∀ (b : Bool) (d : NetConfig) (rest : Bytes),
      ((if b then dhcpLines d else staticLines d).flatMap (· ++ [newline]) ++ rest).take 22 =
        bytes "iface eth0.10 inet " ++ if b then bytes "dhc" else bytes "sta" := by
    intro b d rest
    cases b <;> rfl
  have htake := congrArg (List.take 22) h
  rw [hword, hword, List.append_right_inj] at htake
  revert htake
  cases dhcp <;> cases dhcp' <;> decide

/-- **The stanza follows the method** and has the configured values exactly if the method is not
mistaken for a keyword and the values that are printed have no NUL. -/
theorem printNetworkInterface_stanza_iff (c : NetConfig) :
    ∃ text, printNetworkInterface c = .ok text ∧
      (text = interfacesText c ↔ ¬MistakenMeth c.meth ∧
        ∀ value ∈ interfacesValues (decide (c.meth ∈ dhcpKeywords)) c, 0 ∉ value) := by
  refine ⟨_, printNetworkInterface_eq c, ?_⟩
  rw [← methIsDhcp_eq_iff, interfacesText]
  constructor
  · intro h
    have hdhcp := intercalate_lines_inj h
    refine ⟨hdhcp, ?_⟩
    rw [hdhcp] at h
    have hlength := congrArg List.length h
    rw [lines_length, lines_length _ c, interfacesValues_printed] at hlength
    exact map_cstr_eq_self (by omega)
  · rintro ⟨hdhcp, hzero⟩
    rw [hdhcp]
    congr 1
    apply interfacesLines_congr
    rw [interfacesValues_printed]
    exact map_cstr_of_zero_notMem hzero

/-- An empty method is stored, and its stanza is the one of DHCP. -/
theorem printNetworkInterface_empty_meth :
    parseNetworkConfig zeroStack
        (bytes "\x7b\"ipv4\":\x7b\"meth\":\"\",\"ip\":1,\"sn\":2,\"gw\":3,\"hn\":4\x7d\x7d") .unset =
        .ok (0, .ofConfig ⟨[], bytes "1", bytes "2", bytes "3", bytes "4"⟩) ∧
      ∃ text, printNetworkInterface ⟨[], bytes "1", bytes "2", bytes "3", bytes "4"⟩ = .ok text ∧
        bytes "iface eth0.10 inet dhcp" ∈ text.splitOn newline ∧
        text ≠ interfacesText ⟨[], bytes "1", bytes "2", bytes "3", bytes "4"⟩ := by
  obtain ⟨text, htext, hlines⟩ :=
    printNetworkInterface_lines_iff ⟨[], bytes "1", bytes "2", bytes "3", bytes "4"⟩
  have hdhcp : methIsDhcp [] = true := by decide
  rw [hdhcp] at hlines
  refine ⟨by rfl, text, htext, ?_, ?_⟩
  · rw [hlines.mpr (by decide)]
    simp [interfacesLines, dhcpLines]
  · rintro rfl
    have hsame := intercalate_lines_inj
      (Except.ok.inj ((printNetworkInterface_eq _).symm.trans htext))
    exact absurd hsame (by decide)

end AtxSys
