import HevTunnel.TProxyConf

/-! # From the preferences to the configuration

The app writes its preferences into a file, and the service loads its configuration from there
(`Prefs.loaded`).  It has the values of the preferences if all strings that are written stand for
themselves between quotes. -/

namespace HevTunnel

open Yaml (Kept Verbatim content field lineFeeds plainText quote weight)

/-! ### Strings and bytes -/

/-- The bytes of characters beyond ASCII are none of ASCII characters. -/
theorem utf8EncodeChar_cases (c : Char) :
    (c.toNat < 128 ∧ String.utf8EncodeChar c = [UInt8.ofNat c.toNat]) ∨
      (128 ≤ c.toNat ∧ ∀ b ∈ String.utf8EncodeChar c, 128 ≤ b.toNat) := by
  have hval : c.val.toNat = c.toNat := rfl
  simp only [String.utf8EncodeChar, hval]
  split_ifs with h₁ h₂ h₃
  · exact Or.inl ⟨by omega, rfl⟩
  all_goals
    refine Or.inr ⟨by omega, ?_⟩
    intro b hb
    simp only [List.mem_cons, List.not_mem_nil, or_false] at hb
    rcases hb with rfl | rfl | rfl | rfl <;> rw [UInt8.toNat_ofNat'] <;> omega

/-- An ASCII character is found in the bytes where it is found in the text. -/
theorem count_utf8EncodeChar {c d : Char} (hd : d.toNat < 128) :
    (String.utf8EncodeChar c).count (UInt8.ofNat d.toNat) = if c = d then 1 else 0 := by
  have hbyte : (UInt8.ofNat d.toNat).toNat = d.toNat := by
    rw [UInt8.toNat_ofNat']
    omega
  rcases utf8EncodeChar_cases c with ⟨hc, henc⟩ | ⟨hc, henc⟩
  · have hiff : UInt8.ofNat c.toNat = UInt8.ofNat d.toNat ↔ c = d := by
      rw [← UInt8.toNat_inj, hbyte, UInt8.toNat_ofNat', ← Char.toNat_inj]
      omega
    rw [henc, List.count_singleton]
    simp only [beq_iff_eq, hiff]
  · have hne : c ≠ d := by
      rintro rfl
      omega
    rw [if_neg hne, List.count_eq_zero]
    intro hmem
    have := henc _ hmem
    omega

theorem count_utf8 {d : Char} (hd : d.toNat < 128) (s : List Char) :
    (utf8 s).count (UInt8.ofNat d.toNat) = s.count d := by
  induction s with
  | nil => rfl
  | cons c cs ih =>
      rw [utf8, List.flatMap_cons, List.count_append, count_utf8EncodeChar hd, List.count_cons, ← ih,
        utf8, Nat.add_comm]
      simp only [beq_iff_eq]

/-- A printable text has no null character. -/
theorem zero_not_mem_utf8 {s : List Char} (hs : ∀ c ∈ s, Yaml.printable c) : (0 : Byte) ∉ utf8 s := by
  have hchar : Char.ofNat 0 ∉ s := fun h => absurd (hs _ h) (by decide)
  have hcount := count_utf8 (d := Char.ofNat 0) (by decide) s
  rw [List.count_eq_zero.mpr hchar] at hcount
  exact List.count_eq_zero.mp hcount

theorem cText_bytes {s : List Char} (hs : ∀ c ∈ s, Yaml.printable c) : (cText s).bytes = utf8 s := by
  apply List.takeWhile_eq_self_iff.mpr
  intro b hb
  simp only [bne_iff_ne, ne_eq]
  rintro rfl
  exact zero_not_mem_utf8 hs hb

theorem strncpy_bytes (s : CStr) (n : ℕ) : (strncpy s n).bytes = s.bytes.take n := rfl

/-- A printable text arrives as it is. -/
theorem strncpy_cText {s : List Char} (hs : ∀ c ∈ s, Yaml.printable c) (hlen : (utf8 s).length ≤ 255) :
    (strncpy (cText s) (256 - 1)).bytes = utf8 s := by
  rw [strncpy_bytes, cText_bytes hs]
  exact List.take_of_length_le hlen

theorem length_utf8 (s : List Char) : (utf8 s).length = weight Char.utf8Size s := by
  simp only [utf8, List.length_flatMap, String.length_utf8EncodeChar, weight]

theorem utf8_injective : Function.Injective utf8 := by
  intro s t h
  have henc : s.utf8Encode = t.utf8Encode := congrArg List.toByteArray h
  have hdec := congrArg ByteArray.utf8Decode? henc
  rw [List.utf8Decode?_utf8Encode, List.utf8Decode?_utf8Encode] at hdec
  exact congrArg Array.toList (Option.some.inj hdec)

/-- The content of a text takes at most as many bytes as the text. -/
theorem length_utf8_content {s v : List Char} (h : content s = some v) :
    (utf8 v).length ≤ (utf8 s).length := by
  have hfeeds : weight Char.utf8Size (lineFeeds s) ≤ weight Char.utf8Size s := by
    have hfeed : Char.utf8Size '\n' = 1 := by decide
    clear h
    induction s with
    | nil => exact le_rfl
    | cons c cs ih =>
        have hpos := Char.utf8Size_pos c
        rw [lineFeeds, Yaml.weight_cons]
        split_ifs
        · omega
        · rw [Yaml.weight_cons, hfeed]
          omega
        · rw [Yaml.weight_cons]
          omega
  obtain ⟨sc, hscan, rfl⟩ := Option.map_eq_some_iff.mp h
  have hscan' := Yaml.Scalar.scan_weight Char.utf8Size (by decide) hscan
  rw [length_utf8, length_utf8]
  exact hscan'.trans ((Nat.zero_add _).le.trans hfeeds)

theorem printable_content {s v : List Char} (hs : ∀ c ∈ s, Yaml.printable c) (h : content s = some v) :
    ∀ c ∈ v, Yaml.printable c := by
  have hfeeds : ∀ c ∈ lineFeeds s, Yaml.printable c := by
    have hfeed : Yaml.printable '\n' := by decide
    clear h
    induction s with
    | nil => simp [lineFeeds]
    | cons c cs ih =>
        have ih := ih (fun d hd => hs d (List.mem_cons_of_mem _ hd))
        rw [lineFeeds]
        split_ifs
        · exact ih
        · exact List.forall_mem_cons.mpr ⟨hfeed, ih⟩
        · exact List.forall_mem_cons.mpr ⟨hs c List.mem_cons_self, ih⟩
  obtain ⟨sc, hscan, rfl⟩ := Option.map_eq_some_iff.mp h
  intro c hc
  obtain hc | hc | rfl := Yaml.Scalar.mem_out_of_scan hscan hc
  · cases hc
  · exact hfeeds c hc
  · decide

/-- A string that arrives stands for itself. -/
theorem verbatim_of_kept {s v : List Char} (hs : ∀ c ∈ s, Yaml.printable c) (h : Kept s v)
    (hbytes : (strncpy (cText v) (256 - 1)).bytes = utf8 s) : Verbatim s := by
  rcases h with ⟨hq, hv⟩ | hlt
  · -- The content is not longer than the text, so nothing of it is cut off.
    have hvs : v = s := by
      apply utf8_injective
      rw [strncpy_bytes, cText_bytes (printable_content hs hv)] at hbytes
      have hfront : utf8 s <+: utf8 v := by
        rw [← hbytes]
        exact List.take_prefix _ _
      exact (hfront.eq_of_length_le (length_utf8_content hv)).symm
    rw [hvs] at hv
    exact Yaml.verbatim_of_content hs hq hv
  · have hsub : List.Sublist (utf8 s) (utf8 v) := by
      rw [← hbytes, strncpy_bytes]
      exact (List.take_sublist _ _).trans (List.takeWhile_sublist _)
    have hquote := hsub.count_le (UInt8.ofNat quote.toNat)
    rw [count_utf8 (by decide), count_utf8 (by decide)] at hquote
    omega

/-! ### Numbers -/

theorem toNat_of_isDigit {c : Char} (hc : c.isDigit) : 48 ≤ c.toNat ∧ c.toNat ≤ 57 :=
  Char.isDigit_iff_toNat.mp hc

theorem toNat_ofNat_of_isDigit {c : Char} (hc : c.isDigit) : (UInt8.ofNat c.toNat).toNat = c.toNat := by
  have := toNat_of_isDigit hc
  rw [UInt8.toNat_ofNat']
  omega

theorem digit_of_isDigit {c : Char} (hc : c.isDigit) : digit (UInt8.ofNat c.toNat) = c.toNat - 48 := by
  have := toNat_of_isDigit hc
  have hle : 48 ≤ UInt8.ofNat c.toNat ∧ UInt8.ofNat c.toNat ≤ 57 := by
    rw [UInt8.le_iff_toNat_le, UInt8.le_iff_toNat_le, toNat_ofNat_of_isDigit hc]
    exact this
  rw [digit, if_pos hle, toNat_ofNat_of_isDigit hc]

theorem utf8_digits {s : List Char} (hs : ∀ c ∈ s, c.isDigit) :
    utf8 s = s.map (fun c => UInt8.ofNat c.toNat) := by
  induction s with
  | nil => rfl
  | cons c cs ih =>
      have hc := toNat_of_isDigit (hs c List.mem_cons_self)
      have henc := ((utf8EncodeChar_cases c).resolve_right (fun h => by omega)).2
      rw [utf8, List.flatMap_cons, henc, ← utf8, ih (fun d hd => hs d (List.mem_cons_of_mem _ hd))]
      rfl

theorem numeral_digits {s : List Char} (hs : ∀ c ∈ s, c.isDigit) :
    numeral 10 (utf8 s) = Nat.ofDigitChars 10 s 0 := by
  have hall : (s.map (fun c => UInt8.ofNat c.toNat)).takeWhile (fun b => digit b < 10) =
      s.map (fun c => UInt8.ofNat c.toNat) := by
    apply List.takeWhile_eq_self_iff.mpr
    intro b hb
    obtain ⟨c, hc, rfl⟩ := List.mem_map.mp hb
    have := toNat_of_isDigit (hs c hc)
    rw [digit_of_isDigit (hs c hc), decide_eq_true_eq]
    omega
  rw [numeral, utf8_digits hs, hall, List.foldl_map, Nat.ofDigitChars_eq_foldl]
  apply List.foldl_ext
  intro n c hc
  rw [digit_of_isDigit (hs c hc), Nat.mul_comm]
  rfl

/-- A decimal number is read back. -/
theorem strtoul_toDigits {n : ℕ} (hn : n < 2 ^ 64) : strtoul (cText (Nat.toDigits 10 n)) 10 = n := by
  have hdigits : ∀ c ∈ Nat.toDigits 10 n, c.isDigit := fun c hc =>
    Nat.isDigit_of_mem_toDigits (by omega) (by omega) hc
  obtain ⟨c, cs, hcs⟩ := List.exists_cons_of_ne_nil (Nat.toDigits_ne_nil (n := n) (b := 10))
  have hc : c.isDigit := hdigits c (by rw [hcs]; exact List.mem_cons_self)
  have hrange := toNat_of_isDigit hc
  have hbyte := toNat_ofNat_of_isDigit hc
  have hhead : utf8 (Nat.toDigits 10 n) = UInt8.ofNat c.toNat :: utf8 cs := by
    rw [utf8_digits hdigits, hcs, utf8_digits (fun d hd => hdigits d (by rw [hcs]; exact .tail _ hd))]
    rfl
  have hspace : isspace (UInt8.ofNat c.toNat) = false := by
    simp only [isspace, decide_eq_false_iff_not, ← UInt8.toNat_inj, UInt8.le_iff_toNat_le, hbyte]
    simp
    omega
  have hsign : splitSign (utf8 (Nat.toDigits 10 n)) = (false, utf8 (Nat.toDigits 10 n)) := by
    -- A digit is above both signs.
    have hne : ∀ b : Byte, b.toNat < 48 → UInt8.ofNat c.toNat ≠ b := by
      rintro b hb rfl
      omega
    simp [splitSign, hhead, hne 45 (by decide), hne 43 (by decide)]
  have hread : readNumber (cText (Nat.toDigits 10 n)) 10 = (false, n) := by
    have hdrop : (utf8 (Nat.toDigits 10 n)).dropWhile isspace = utf8 (Nat.toDigits 10 n) := by
      rw [hhead, List.dropWhile_cons_of_neg (by simp [hspace])]
    rw [readNumber, cText_bytes (Yaml.clean_of_isWord (Prefs.isWord_toDigits n)).printable, hdrop, hsign]
    simp [splitBase, numeral_digits hdigits]
  rw [strtoul, hread]
  simp
  omega

namespace Prefs

/-- The configuration that a new process loads from the file. -/
def loaded (load : ByteArray → Option YamlDoc) (pton : CStr → Option (Vector Byte 4)) (p : Prefs) :
    Int × Config :=
  Config.load pton (load p.tproxyConf.toUTF8) Config.fresh

/-- The mapped DNS is configured, or it is off. -/
structure HasMapdns (c : Config) (address port network netmask cacheSize : BitVec 32) : Prop where
  address : c.int .mapdnsAddress = address
  port : c.int .mapdnsPort = port
  network : c.int .mapdnsNetwork = network
  netmask : c.int .mapdnsNetmask = netmask
  cacheSize : c.int .mapdnsCacheSize = cacheSize

/-- The configuration has the values of the preferences. -/
structure RoundTrip (load : ByteArray → Option YamlDoc) (pton : CStr → Option (Vector Byte 4))
    (p : Prefs) : Prop where
  ok : (p.loaded load pton).1 = 0
  addr : ((p.loaded load pton).2.str .srvAddr).bytes = utf8 p.socksAddress.toList
  port : (p.loaded load pton).2.int .srvPort = BitVec.ofNat 32 p.socksPort
  udpAddr : ((p.loaded load pton).2.str .srvUdpAddr).bytes = utf8 p.socksUdpAddress.toList
  auth : (p.loaded load pton).2.auth.map (fun a => (a.1.bytes, a.2.bytes)) =
    if p.socksUsername = "" ∨ p.socksPassword = "" then none
    else some (utf8 p.socksUsername.toList, utf8 p.socksPassword.toList)
  udpInUdp : (p.loaded load pton).2.int .srvUdpInUdp = if p.udpInTcp then 0 else 1
  mapdns : if p.remoteDns then
      HasMapdns (p.loaded load pton).2 (leInt #v[198, 18, 0, 2]) 53 0xF0000000 0xF0000000 10000
    else HasMapdns (p.loaded load pton).2 0 0 0 0 0

/-! ### What is loaded -/

def socks5Entries (p : Prefs) (s : Strings) : List (List Char × List Char) :=
  ("port".toList, Nat.toDigits 10 p.socksPort) :: ("address".toList, s.addr) ::
    ("udp".toList, p.udpMode) :: (s.udpa.toList.map (("udp-address".toList, ·)) ++
      (s.user.toList.map (("username".toList, ·)) ++ s.pass.toList.map (("password".toList, ·))))

def mapdnsSection : Section :=
  ("mapdns".toList, [("address".toList, mappedDns.toList), ("port".toList, "53".toList),
    ("network".toList, "240.0.0.0".toList), ("netmask".toList, "240.0.0.0".toList),
    ("cache-size".toList, "10000".toList)])

/-- The sections of the text if its strings are read as `s`. -/
def sections (p : Prefs) (s : Strings) : List Section :=
  ("misc".toList, [("task-stack-size".toList, Nat.toDigits 10 taskStackSize)]) ::
    ("tunnel".toList, [("mtu".toList, Nat.toDigits 10 tunnelMtu)]) ::
      ("socks5".toList, p.socks5Entries s) :: (if p.remoteDns then [mapdnsSection] else [])

theorem sections_events (p : Prefs) (s : Strings) :
    Yaml.sections (p.events s) = some (p.sections s) := by
  obtain ⟨addr, udpa, user, pass⟩ := s
  rw [events, tailEvents, mapdnsEvents, sections]
  cases p.remoteDns <;> cases udpa <;> cases user <;> cases pass <;> rfl

/-- `inet_pton` reads the addresses that the app writes. -/
structure ReadsAddresses (pton : CStr → Option (Vector Byte 4)) : Prop where
  mappedDns : pton (lit "198.18.0.2") = some #v[198, 18, 0, 2]
  network : pton (lit "240.0.0.0") = some #v[240, 0, 0, 0]

/-- The document is accepted if it has both credentials or none. -/
theorem accepted_sections (p : Prefs) (s : Strings) :
    ((p.sections s).map ConfigSection.ofText).all ConfigSection.accepted =
      (s.user.isSome == s.pass.isSome) := by
  obtain ⟨addr, udpa, user, pass⟩ := s
  rw [sections]
  cases p.remoteDns <;> cases udpa <;> cases user <;> cases pass <;> rfl

theorem accepted_of_complete {p : Prefs} {s : Strings} (h : s.user.isSome = s.pass.isSome) :
    ((p.sections s).map ConfigSection.ofText).all ConfigSection.accepted := by
  rw [accepted_sections]
  exact beq_iff_eq.mpr h

section values
variable (pton : CStr → Option (Vector Byte 4)) (p : Prefs) (s : Strings)

open ConfigSection

/-- The sections in front of SOCKS5. -/
def frontSections : List Section :=
  [("misc".toList, [("task-stack-size".toList, Nat.toDigits 10 taskStackSize)]),
    ("tunnel".toList, [("mtu".toList, Nat.toDigits 10 tunnelMtu)])]

theorem name_ne_of_mem_front {key : CStr} (hkey : key = lit "socks5" ∨ key = lit "mapdns") :
    ∀ sec ∈ frontSections.map ofText, sec.name ≠ key := by
  rcases hkey with rfl | rfl <;> decide

/-- A variable of SOCKS5 has the value that the section gives it. -/
theorem foldl_sections_socks5 {x : ConfigVar} (hx : x.sectionKey = lit "socks5") (y : x.Value) :
    ((p.sections s).map ofText).foldl (overwrite (given pton x) (inPlace x)) y =
      (value pton (cPairs (p.socks5Entries s)) x).getD y := by
  have hrest : ∀ sec ∈ (if p.remoteDns then [mapdnsSection] else []).map ofText,
      sec.name ≠ x.sectionKey := by
    rw [hx]
    cases p.remoteDns <;> decide
  have h := Config.foldl_overwrite_of_eq pton (cPairs (p.socks5Entries s))
    (name_ne_of_mem_front (.inl hx)) hrest y
  rw [Config.ntohl_eff_of_ne (by rw [hx]; decide), hx] at h
  exact h

/-- A variable of the mapped DNS is set if the app writes the section. -/
theorem foldl_sections_mapdns {x : ConfigVar} (hx : x.sectionKey = lit "mapdns") (y : x.Value) :
    ((p.sections s).map ofText).foldl (overwrite (given pton x) (inPlace x)) y =
      if p.remoteDns then Assign.ntohl.eff x ((value pton (cPairs mapdnsSection.2) x).getD y) else y := by
  have hfront : ∀ sec ∈ frontSections.map ofText ++
      [⟨lit "socks5", some (cPairs (p.socks5Entries s))⟩], sec.name ≠ x.sectionKey := by
    refine List.forall_mem_append.mpr ⟨name_ne_of_mem_front (.inr hx), List.forall_mem_singleton.mpr ?_⟩
    rw [hx]
    exact (by decide : lit "socks5" ≠ lit "mapdns")
  rw [sections]
  split_ifs
  · have h := Config.foldl_overwrite_of_eq pton (cPairs mapdnsSection.2) hfront
      (List.forall_mem_nil _) y
    rw [hx] at h
    exact h
  · exact Config.foldl_overwrite_of_ne hfront y

theorem value_addr :
    value pton (cPairs (p.socks5Entries s)) (.str .srvAddr) = some (strncpy (cText s.addr) (256 - 1)) := by
  obtain ⟨addr, udpa, user, pass⟩ := s
  cases udpa <;> cases user <;> cases pass <;> rfl

theorem value_udpAddr : value pton (cPairs (p.socks5Entries s)) (.str .srvUdpAddr) =
    s.udpa.map (fun udpa => strncpy (cText udpa) (256 - 1)) := by
  obtain ⟨addr, udpa, user, pass⟩ := s
  cases udpa <;> cases user <;> cases pass <;> rfl

theorem credentials_entries : credentials (cPairs (p.socks5Entries s)) =
    s.user.bind (fun user => s.pass.map (fun pass =>
      (strncpy (cText user) (256 - 1), strncpy (cText pass) (256 - 1)))) := by
  obtain ⟨addr, udpa, user, pass⟩ := s
  cases udpa <;> cases user <;> cases pass <;> rfl

theorem value_port :
    value pton (cPairs (p.socks5Entries s)) (.int .srvPort) = some (BitVec.ofNat 32 p.socksPort) := by
  have hport : strtoul (cText (Nat.toDigits 10 p.socksPort)) 10 % 2 ^ 16 = p.socksPort := by
    have := p.port_lt
    rw [strtoul_toDigits (by omega)]
    omega
  have hlast : lastValue (lit "port") (cPairs (p.socks5Entries s)) =
      some (cText (Nat.toDigits 10 p.socksPort)) := by
    obtain ⟨addr, udpa, user, pass⟩ := s
    cases udpa <;> cases user <;> cases pass <;> rfl
  rw [value, intValue, hlast, Option.map_some, hport]

theorem value_udpInUdp : value pton (cPairs (p.socks5Entries s)) (.int .srvUdpInUdp) =
    if p.udpInTcp then none else some 1 := by
  have hlast : lastValue (lit "udp") (cPairs (p.socks5Entries s)) = some (cText p.udpMode) := by
    obtain ⟨addr, udpa, user, pass⟩ := s
    cases udpa <;> cases user <;> cases pass <;> rfl
  rw [value, intValue, switch, hlast, Option.bind_some, udpMode]
  cases p.udpInTcp <;> rfl

end values

section load
variable {load : ByteArray → Option YamlDoc} {pton : CStr → Option (Vector Byte 4)} {p : Prefs}
  {s : Strings} {doc : YamlDoc} (hload : load p.tproxyConf.toUTF8 = some doc)
  (hdoc : doc.Represents (p.sections s))
include hload hdoc

/-- A configuration with one of the credentials is refused. -/
theorem loaded_incomplete (h : s.user.isSome ≠ s.pass.isSome) : (p.loaded load pton).1 = -1 := by
  rw [loaded, hload]
  apply Config.load_of_not_accepted hdoc
  rw [accepted_sections]
  exact beq_eq_false_iff_ne.mpr h

section complete
variable (hcomplete : s.user.isSome = s.pass.isSome)
include hcomplete

theorem loaded_ok : (p.loaded load pton).1 = 0 := by
  rw [loaded, hload]
  exact (Config.load_of_accepted (x := .auth) hdoc (accepted_of_complete hcomplete) Config.fresh).1

theorem get_loaded {x : ConfigVar} (htcp : x ≠ .int .tcpBufferSize) (hstack : x ≠ .int .taskStackSize) :
    (p.loaded load pton).2.get x = ((p.sections s).map ConfigSection.ofText).foldl
      (overwrite (ConfigSection.given pton x) (ConfigSection.inPlace x)) (Config.fresh.get x) := by
  rw [loaded, hload]
  exact (Config.load_of_accepted hdoc (accepted_of_complete hcomplete) Config.fresh).2 htcp hstack

theorem loaded_addr : (p.loaded load pton).2.str .srvAddr = strncpy (cText s.addr) (256 - 1) := by
  refine (get_loaded (x := .str .srvAddr) hload hdoc hcomplete (by decide) (by decide)).trans ?_
  rw [foldl_sections_socks5 pton p s rfl, value_addr]
  rfl

theorem loaded_udpAddr : (p.loaded load pton).2.str .srvUdpAddr =
    (s.udpa.map (fun udpa => strncpy (cText udpa) (256 - 1))).getD (lit "") := by
  refine (get_loaded (x := .str .srvUdpAddr) hload hdoc hcomplete (by decide) (by decide)).trans ?_
  rw [foldl_sections_socks5 pton p s rfl, value_udpAddr]
  rfl

theorem loaded_auth : (p.loaded load pton).2.auth =
    s.user.bind (fun user => s.pass.map (fun pass =>
      (strncpy (cText user) (256 - 1), strncpy (cText pass) (256 - 1)))) := by
  refine (get_loaded (x := .auth) hload hdoc hcomplete (by decide) (by decide)).trans ?_
  rw [foldl_sections_socks5 pton p s rfl, ConfigSection.value, credentials_entries]
  cases s.user <;> cases s.pass <;> rfl

theorem loaded_port : (p.loaded load pton).2.int .srvPort = BitVec.ofNat 32 p.socksPort := by
  refine (get_loaded (x := .int .srvPort) hload hdoc hcomplete (by decide) (by decide)).trans ?_
  rw [foldl_sections_socks5 pton p s rfl, value_port]
  rfl

theorem loaded_udpInUdp :
    (p.loaded load pton).2.int .srvUdpInUdp = if p.udpInTcp then 0 else 1 := by
  refine (get_loaded (x := .int .srvUdpInUdp) hload hdoc hcomplete (by decide) (by decide)).trans ?_
  rw [foldl_sections_socks5 pton p s rfl, value_udpInUdp]
  cases p.udpInTcp <;> rfl

theorem loaded_mapdns (hpton : ReadsAddresses pton) :
    if p.remoteDns then
      HasMapdns (p.loaded load pton).2 (leInt #v[198, 18, 0, 2]) 53 0xF0000000 0xF0000000 10000
    else HasMapdns (p.loaded load pton).2 0 0 0 0 0 := by
  have hnet : ntohl (leInt #v[240, 0, 0, 0]) = 0xF0000000 :=
    ntohl_bytes (a := 240) (b := 0) (c := 0) (d := 0) (by omega) (by omega) (by omega) (by omega)
  have haddr : pton (cText mappedDns.toList) = some #v[198, 18, 0, 2] := hpton.mappedDns
  have hnetwork : pton (cText "240.0.0.0".toList) = some #v[240, 0, 0, 0] := hpton.network
  have hget : ∀ v : IntVar, v ≠ .tcpBufferSize → v ≠ .taskStackSize →
      (ConfigVar.int v).sectionKey = lit "mapdns" → (p.loaded load pton).2.int v =
        if p.remoteDns then Assign.ntohl.eff (.int v)
          ((ConfigSection.value pton (cPairs mapdnsSection.2) (.int v)).getD (Config.fresh.int v))
        else Config.fresh.int v := by
    intro v htcp hstack hsec
    refine (get_loaded (x := .int v) hload hdoc hcomplete (fun h => htcp (ConfigVar.int.inj h))
      (fun h => hstack (ConfigVar.int.inj h))).trans ?_
    exact foldl_sections_mapdns pton p s hsec _
  have hlast : ∀ {key value v}, valuesOf key (cPairs mapdnsSection.2) = [value] → pton value = some v →
      ConfigSection.lastAddress pton key (cPairs mapdnsSection.2) = some (leInt v) := by
    intro key value v hvalues hv
    simp [ConfigSection.lastAddress, hvalues, hv]
  split_ifs with hremote
  · constructor <;> rw [hget _ (by decide) (by decide) rfl, if_pos hremote, ConfigSection.value]
    · rw [ConfigSection.intValue, hlast rfl haddr]
      rfl
    · rfl
    · rw [ConfigSection.intValue, hlast rfl hnetwork]
      exact hnet
    · rw [ConfigSection.intValue, hlast rfl hnetwork]
      exact hnet
    · rfl
  · constructor <;> rw [hget _ (by decide) (by decide) rfl, if_neg hremote] <;> rfl

end complete

end load

/-! ### The round trip -/

theorem toUTF8_eq (p : Prefs) : p.tproxyConf.toUTF8 = p.tproxyConf.toList.utf8Encode := by
  rw [String.utf8Encode_toList]
  rfl

theorem strings_udpa (p : Prefs) :
    (p.socksUdpAddress = "" ∧ p.strings.udpa = none) ∨
      (p.socksUdpAddress ≠ "" ∧ p.strings.udpa = some p.socksUdpAddress.toList) := by
  by_cases h : p.socksUdpAddress = ""
  · exact Or.inl ⟨h, if_neg (not_not_intro h)⟩
  · exact Or.inr ⟨h, if_pos h⟩

theorem strings_auth (p : Prefs) :
    ((p.socksUsername = "" ∨ p.socksPassword = "") ∧ p.strings.user = none ∧ p.strings.pass = none) ∨
      (¬ (p.socksUsername = "" ∨ p.socksPassword = "") ∧
        p.strings.user = some p.socksUsername.toList ∧ p.strings.pass = some p.socksPassword.toList) := by
  by_cases h : p.socksUsername = "" ∨ p.socksPassword = ""
  · have hneg : ¬ (p.socksUsername ≠ "" ∧ p.socksPassword ≠ "") := by
      rw [← not_or]
      exact not_not_intro h
    exact Or.inl ⟨h, if_neg hneg, if_neg hneg⟩
  · exact Or.inr ⟨h, if_pos (not_or.mp h), if_pos (not_or.mp h)⟩

/-! ### The size of the file -/

section size

theorem weight_utf8Size_le (s : List Char) : weight Char.utf8Size s ≤ 4 * s.length := by
  induction s with
  | nil => exact le_rfl
  | cons c cs ih =>
      have := Char.utf8Size_le_four c
      rw [Yaml.weight_cons, List.length_cons]
      omega

theorem weight_field (key s : List Char) :
    weight Char.utf8Size (field key s) =
      weight Char.utf8Size (Yaml.entryStart key) + weight Char.utf8Size s + 3 := by
  have hquote : Char.utf8Size quote = 1 := by decide
  have hend : weight Char.utf8Size [quote, '\n'] = 2 := by decide
  rw [field, Yaml.weight_append, Yaml.weight_cons, Yaml.weight_append, hquote, hend]
  omega

theorem weight_optField {key : String} {s : Option (List Char)}
    (hs : ∀ t, s = some t → weight Char.utf8Size t ≤ 255) :
    weight Char.utf8Size (optField key s) ≤ weight Char.utf8Size (Yaml.entryStart key.toList) + 258 := by
  cases s with
  | none => exact Nat.zero_le _
  | some t =>
      have := hs t rfl
      have hfield : optField key (some t) = field key.toList t := List.append_nil _
      rw [hfield, weight_field]
      omega

theorem length_headEvents (p : Prefs) : (plainText p.headEvents).length ≤ 90 := by
  have hdigits : ∀ n, n < 10 ^ 5 → (Nat.toDigits 10 n).length ≤ 5 := fun n hn =>
    (Nat.length_toDigits_le_iff (by omega) (by omega)).mpr hn
  have hport := hdigits p.socksPort (by have := p.port_lt; omega)
  have hstack := hdigits taskStackSize (by decide)
  have hmtu := hdigits tunnelMtu (by decide)
  simp [headEvents, plainText, Yaml.Event.line, Yaml.entryStart]
  omega

theorem weight_written {p : Prefs} {t : List Char} (ht : t ∈ p.written) : weight Char.utf8Size t ≤ 255 := by
  rw [← length_utf8]
  rcases mem_written.mp ht with rfl | ht | ht | ht
  · exact p.address_le
  · rcases p.strings_udpa with ⟨_, hs⟩ | ⟨_, hs⟩
    · exact absurd (hs.symm.trans ht) (by simp)
    · exact Option.some.inj (hs.symm.trans ht) ▸ p.udpAddress_le
  · rcases p.strings_auth with ⟨_, hs, _⟩ | ⟨_, hs, _⟩
    · exact absurd (hs.symm.trans ht) (by simp)
    · exact Option.some.inj (hs.symm.trans ht) ▸ p.username_le
  · rcases p.strings_auth with ⟨_, _, hs⟩ | ⟨_, _, hs⟩
    · exact absurd (hs.symm.trans ht) (by simp)
    · exact Option.some.inj (hs.symm.trans ht) ▸ p.password_le

/-- The file fits into the raw buffer of libyaml. -/
theorem size_tproxyConf (p : Prefs) : p.tproxyConf.toList.utf8Encode.size ≤ rawBufferSize := by
  have hsize : p.tproxyConf.toList.utf8Encode.size = weight Char.utf8Size p.tproxyConf.toList :=
    List.size_toByteArray.trans (length_utf8 _)
  have haddr : weight Char.utf8Size p.strings.addr ≤ 255 := weight_written (mem_written.mpr (.inl rfl))
  have hudpa := @weight_optField "udp-address" p.strings.udpa
    (fun t ht => weight_written (mem_written.mpr (.inr (.inl ht))))
  have huser := @weight_optField "username" p.strings.user
    (fun t ht => weight_written (mem_written.mpr (.inr (.inr (.inl ht)))))
  have hpass := @weight_optField "password" p.strings.pass
    (fun t ht => weight_written (mem_written.mpr (.inr (.inr (.inr ht)))))
  have hmode : weight Char.utf8Size p.udpMode = 3 := by
    rw [udpMode]
    cases p.udpInTcp <;> rfl
  have hmapdns : weight Char.utf8Size (plainText p.mapdnsEvents) ≤ 120 := by
    rw [mapdnsEvents]
    cases p.remoteDns <;> decide
  have hhead := (weight_utf8Size_le _).trans (Nat.mul_le_mul_left 4 p.length_headEvents)
  have k₁ : weight Char.utf8Size (Yaml.entryStart "udp-address".toList) ≤ 20 := by decide
  have k₂ : weight Char.utf8Size (Yaml.entryStart "username".toList) ≤ 20 := by decide
  have k₃ : weight Char.utf8Size (Yaml.entryStart "password".toList) ≤ 20 := by decide
  have k₄ : weight Char.utf8Size (Yaml.entryStart "address".toList) ≤ 20 := by decide
  have k₅ : weight Char.utf8Size (Yaml.entryStart "udp".toList) ≤ 20 := by decide
  rw [hsize, toList_tproxyConf, stringText, credentialText, rawBufferSize]
  simp only [Yaml.weight_append, weight_field]
  omega

end size

section roundTrip
variable {load : ByteArray → Option YamlDoc} (hload : Conforms load)
  {pton : CStr → Option (Vector Byte 4)} (hpton : ReadsAddresses pton) {p : Prefs}
include hload hpton

theorem roundTrip_of_verbatim (hp : ∀ s ∈ p.written, Verbatim s) : p.RoundTrip load pton := by
  obtain ⟨doc, hdoc, hrep⟩ := hload.accepts _ _ _ p.size_tproxyConf (read_of_verbatim hp)
    (p.sections_events p.strings)
  rw [← toUTF8_eq] at hdoc
  have hcomplete : p.strings.user.isSome = p.strings.pass.isSome := by
    rcases p.strings_auth with ⟨_, hu, hw⟩ | ⟨_, hu, hw⟩
    · rw [hu, hw]
    · rw [hu, hw]
      rfl
  constructor
  · exact loaded_ok hdoc hrep hcomplete
  · rw [loaded_addr hdoc hrep hcomplete]
    exact strncpy_cText (hp _ (mem_written.mpr (.inl rfl))).printable p.address_le
  · exact loaded_port hdoc hrep hcomplete
  · rw [loaded_udpAddr hdoc hrep hcomplete]
    rcases p.strings_udpa with ⟨hempty, hs⟩ | ⟨_, hs⟩
    · rw [hs, hempty]
      rfl
    · rw [hs]
      exact strncpy_cText (hp _ (mem_written.mpr (.inr (.inl hs)))).printable p.udpAddress_le
  · rw [loaded_auth hdoc hrep hcomplete]
    rcases p.strings_auth with ⟨hempty, hu, hw⟩ | ⟨hne, hu, hw⟩
    · rw [hu, hw, if_pos hempty]
      rfl
    · have huser := (hp _ (mem_written.mpr (.inr (.inr (.inl hu))))).printable
      have hpass := (hp _ (mem_written.mpr (.inr (.inr (.inr hw))))).printable
      rw [hu, hw, if_neg hne, ← strncpy_cText huser p.username_le, ← strncpy_cText hpass p.password_le]
      rfl
  · exact loaded_udpInUdp hdoc hrep hcomplete
  · exact loaded_mapdns hdoc hrep hcomplete hpton

omit hpton in
/-- A text that is refused gives no configuration. -/
theorem not_roundTrip_of_refused (h : Yaml.read p.tproxyConf.toList = .error .refused) :
    ¬ p.RoundTrip load pton := by
  intro hp
  have hok := hp.ok
  rw [loaded, toUTF8_eq, hload.refuses _ p.size_tproxyConf h] at hok
  cases hok

omit hpton in
/-- The strings that were read. -/
theorem exists_strings (hreg : p.Regular) (h : p.RoundTrip load pton) :
    (∀ t ∈ p.written, ∀ c ∈ t, Yaml.printable c) ∧ ∃ s doc, load p.tproxyConf.toUTF8 = some doc ∧
      doc.Represents (p.sections s) ∧ p.Possible s ∧ s.user.isSome = s.pass.isSome := by
  rcases ends_tproxyConf hreg with hrefused | ⟨es, hread, hprint, s, rfl, hposs⟩
  · exact absurd h (not_roundTrip_of_refused hload hrefused)
  · obtain ⟨doc, hdoc, hrep⟩ := hload.accepts _ _ _ p.size_tproxyConf hread (p.sections_events s)
    rw [← toUTF8_eq] at hdoc
    refine ⟨hprint, s, doc, hdoc, hrep, hposs, ?_⟩
    by_contra hne
    have hok := h.ok
    rw [loaded_incomplete hdoc hrep hne] at hok
    cases hok

omit hpton in
theorem verbatim_of_roundTrip (hreg : p.Regular) (h : p.RoundTrip load pton) :
    ∀ s ∈ p.written, Verbatim s := by
  obtain ⟨hprint, ⟨addr, udpa, user, pass⟩, doc, hdoc, hrep, hposs, hcomplete⟩ :=
    exists_strings hload hreg h
  have haddr := h.addr
  have hudpa := h.udpAddr
  have hauth := h.auth
  rw [loaded_addr hdoc hrep hcomplete] at haddr
  rw [loaded_udpAddr hdoc hrep hcomplete] at hudpa
  rw [loaded_auth hdoc hrep hcomplete] at hauth
  rcases hposs with ⟨hsome, hnone⟩ | ⟨hkaddr, hkudpa, hkuser, hkpass⟩
  · -- Without credentials in the file there are none in the configuration.
    rcases p.strings_auth with ⟨_, hu, _⟩ | ⟨hne, _, _⟩
    · rw [hu] at hsome
      cases hsome
    · rw [if_neg hne] at hauth
      cases user <;> cases pass
      · cases hauth
      · cases hcomplete
      · cases hcomplete
      · rcases hnone with hnone | hnone <;> cases hnone
  · intro t ht
    have htprint := hprint t ht
    rcases mem_written.mp ht with rfl | hs | hs
    · exact verbatim_of_kept htprint hkaddr haddr
    · rcases p.strings_udpa with ⟨_, hu⟩ | ⟨_, hu⟩
      · rw [hu] at hs
        cases hs
      · obtain rfl := Option.some.inj (hu.symm.trans hs)
        rw [hu] at hkudpa
        cases hkudpa with
        | some hk => exact verbatim_of_kept htprint hk hudpa
    · rcases p.strings_auth with ⟨_, hu, hw⟩ | ⟨hne, hu, hw⟩
      · rw [hu, hw] at hs
        rcases hs with hs | hs <;> cases hs
      · rw [hu] at hkuser hs
        rw [hw] at hkpass hs
        cases hkuser with
        | some hku =>
            cases hkpass with
            | some hkw =>
                rw [if_neg hne] at hauth
                obtain ⟨huser, hpass⟩ := Prod.mk.inj (Option.some.inj hauth)
                rcases hs with hs | hs
                · obtain rfl := Option.some.inj hs
                  exact verbatim_of_kept htprint hku huser
                · obtain rfl := Option.some.inj hs
                  exact verbatim_of_kept htprint hkw hpass

end roundTrip

/-- The configuration has the values of the preferences if the strings in the file stand for themselves.
For other strings the converse is shown where the text stays in the form of `Yaml.read`. -/
theorem roundTrip_iff_verbatim (load : ByteArray → Option YamlDoc) (hload : Conforms load)
    (pton : CStr → Option (Vector Byte 4)) (hpton : ReadsAddresses pton) (p : Prefs) :
    ((∀ s ∈ p.written, Verbatim s) → p.RoundTrip load pton) ∧
      (p.Regular → (p.RoundTrip load pton ↔ ∀ s ∈ p.written, Verbatim s)) :=
  ⟨roundTrip_of_verbatim hload hpton, fun hreg =>
    ⟨verbatim_of_roundTrip hload hreg, roundTrip_of_verbatim hload hpton⟩⟩

/-- Preferences with a user name. -/
def samplePrefs (user : String) (huser : (utf8 user.toList).length ≤ 255) : Prefs where
  socksAddress := "10.0.0.2"
  socksUdpAddress := ""
  socksUsername := user
  socksPassword := "a: \"b\" #c\\ "
  socksPort := 1080
  udpInTcp := false
  remoteDns := true
  address_le := by decide
  udpAddress_le := by decide
  username_le := huser
  password_le := by decide
  port_lt := by decide

/-- The two addresses of the file. -/
def samplePton (s : CStr) : Option (Vector Byte 4) :=
  if s = lit "198.18.0.2" then some #v[198, 18, 0, 2]
  else if s = lit "240.0.0.0" then some #v[240, 0, 0, 0]
  else none

theorem readsAddresses_samplePton : ReadsAddresses samplePton := ⟨by decide, by decide⟩

theorem written_samplePrefs {user : String} (h : (utf8 user.toList).length ≤ 255) (hne : user ≠ "") :
    (samplePrefs user h).written = ["10.0.0.2".toList, user.toList, "a: \"b\" #c\\ ".toList] := by
  simp [written, strings, samplePrefs, hne]

/-- A name with a line separator arrives, one with a quote or a line feed does not. -/
theorem roundTrip_sample :
    (samplePrefs "b\u2028rien" (by decide)).RoundTrip loadText samplePton ∧
      ¬ (samplePrefs "o'brien" (by decide)).RoundTrip loadText samplePton ∧
      ¬ (samplePrefs "o\nbrien" (by decide)).RoundTrip loadText samplePton := by
  have h := roundTrip_iff_verbatim loadText conforms_loadText samplePton readsAddresses_samplePton
  refine ⟨?_, ?_, ?_⟩
  · apply (h _).1
    rw [written_samplePrefs _ (by simp)]
    simp only [List.forall_mem_cons]
    refine ⟨Yaml.Clean.verbatim (by decide), ?_, Yaml.Clean.verbatim (by decide), fun _ h => nomatch h⟩
    exact Yaml.verbatim_of_content (List.all_eq_true.mp (by decide)) (by decide) (by decide)
  · have hreg : (samplePrefs "o'brien" (by decide)).Regular := by
      rw [Regular, written_samplePrefs _ (by simp)]
      exact .inl (by decide)
    rw [(h _).2 hreg, written_samplePrefs _ (by simp)]
    exact fun hv => absurd (hv "o'brien".toList (by simp)).quote (by decide)
  · have hreg : (samplePrefs "o\nbrien" (by decide)).Regular := by
      rw [Regular, written_samplePrefs _ (by simp)]
      simp only [List.forall_mem_cons]
      exact .inr ⟨Yaml.paired_of_not_mem (by decide), Yaml.paired_of_not_mem (by decide),
        Yaml.paired_of_not_mem (by decide), fun _ h => nomatch h⟩
    rw [(h _).2 hreg, written_samplePrefs _ (by simp)]
    exact fun hv => absurd (hv "o\nbrien".toList (by simp)).content_eq (by decide)

/-- A quote in the user name makes the file unreadable. -/
theorem quote_in_username :
    Yaml.read (samplePrefs "o'brien" (by decide)).tproxyConf.toList = .error .refused ∧
      ¬ (samplePrefs "o'brien" (by decide)).RoundTrip loadText samplePton := by
  have hread : Yaml.read (samplePrefs "o'brien" (by decide)).tproxyConf.toList = .error .refused := by
    have hprint : ∀ s ∈ (samplePrefs "o'brien" (by decide)).written, ∀ c ∈ s, Yaml.printable c := by
      rw [written_samplePrefs _ (by simp)]
      simp only [List.forall_mem_cons]
      exact ⟨List.all_eq_true.mp (by decide), List.all_eq_true.mp (by decide),
        List.all_eq_true.mp (by decide), fun _ h => nomatch h⟩
    have haddr : Verbatim (samplePrefs "o'brien" (by decide)).strings.addr :=
      Yaml.Clean.verbatim (by decide)
    have hudpa : (samplePrefs "o'brien" (by decide)).strings.udpa = none := by simp [strings, samplePrefs]
    have huser : (samplePrefs "o'brien" (by decide)).strings.user = some "o'brien".toList := by
      simp [strings, samplePrefs]
    have hname : lineFeeds "o'brien".toList = ['o'] ++ quote :: 'b' :: "rien".toList := by decide
    rw [read_tproxyConf hprint, stringText, Yaml.Reader.verdict_field (by decide) haddr, verdict_udpMode,
      credentialText, hudpa, huser]
    simp only [optField, Option.toList_some, Option.toList_none, List.flatMap_cons, List.flatMap_nil,
      List.nil_append, List.append_nil]
    rw [Yaml.lineFeeds_field (by decide), Yaml.Reader.verdict_open (by decide), hname, List.append_assoc]
    exact Yaml.Reader.verdict_inside_other (t := ['o']) (c := 'b') (by decide) (by decide) (fun _ => rfl) _
  exact ⟨hread, not_roundTrip_of_refused conforms_loadText hread⟩

end Prefs
end HevTunnel
