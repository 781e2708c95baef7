import HevTunnel.YamlLoad

/-! # The configuration file of the app

`TProxyService.startService` writes the preferences into a file (`Prefs.tproxyConf`).  The strings are
put between quotes as they are, so a quote of a string ends the scalar, or is lost with the next one,
and line breaks are folded.

The text of strings that stand for themselves is read with these strings (`Prefs.read_of_verbatim`).
For other strings `Prefs.ends_tproxyConf` follows the lines of the text: libyaml refuses it, or each
string is read as its content or with fewer quotes than it has, or a scalar has swallowed a line. -/

namespace HevTunnel

open Yaml (Event Kept OneLine Reader Verbatim field isKey lineFeeds plainText quote)
open Yaml.Reader (Ends verdict)

/-- The `Preferences` that are written.  A string takes at most 255 bytes in UTF-8. -/
structure Prefs where
  socksAddress : String
  socksUdpAddress : String
  socksUsername : String
  socksPassword : String
  socksPort : ℕ
  udpInTcp : Bool
  remoteDns : Bool
  address_le : (utf8 socksAddress.toList).length ≤ 255
  udpAddress_le : (utf8 socksUdpAddress.toList).length ≤ 255
  username_le : (utf8 socksUsername.toList).length ≤ 255
  password_le : (utf8 socksPassword.toList).length ≤ 255
  port_lt : socksPort < 2 ^ 16

namespace Prefs

/-- `getTaskStackSize`. -/
def taskStackSize : ℕ := 81920

/-- `getTunnelMtu`. -/
def tunnelMtu : ℕ := 8500

/-- `getMappedDns`. -/
def mappedDns : String := "198.18.0.2"

/-- The text that `startService` writes. -/
def tproxyConf (p : Prefs) : String :=
  "misc:\n" ++
    "  task-stack-size: " ++ toString taskStackSize ++ "\n" ++
    "tunnel:\n" ++
    "  mtu: " ++ toString tunnelMtu ++ "\n" ++
  ("socks5:\n" ++
    "  port: " ++ toString p.socksPort ++ "\n" ++
    "  address: '" ++ p.socksAddress ++ "'\n" ++
    "  udp: '" ++ (if p.udpInTcp then "tcp" else "udp") ++ "'\n") ++
  (if p.socksUdpAddress ≠ "" then
    "  udp-address: '" ++ p.socksUdpAddress ++ "'\n"
  else "") ++
  (if p.socksUsername ≠ "" ∧ p.socksPassword ≠ "" then
    "  username: '" ++ p.socksUsername ++ "'\n" ++
    "  password: '" ++ p.socksPassword ++ "'\n"
  else "") ++
  (if p.remoteDns then
    "mapdns:\n" ++
      "  address: " ++ mappedDns ++ "\n" ++
      "  port: 53\n" ++
      "  network: 240.0.0.0\n" ++
      "  netmask: 240.0.0.0\n" ++
      "  cache-size: 10000\n"
  else "")

/-! ### The lines of the text -/

/-- The strings of the section for SOCKS5, `none` where there is no line. -/
structure Strings where
  addr : List Char
  udpa : Option (List Char)
  user : Option (List Char)
  pass : Option (List Char)

/-- The strings that are written. -/
def strings (p : Prefs) : Strings where
  addr := p.socksAddress.toList
  udpa := if p.socksUdpAddress ≠ "" then some p.socksUdpAddress.toList else none
  user := if p.socksUsername ≠ "" ∧ p.socksPassword ≠ "" then some p.socksUsername.toList else none
  pass := if p.socksUsername ≠ "" ∧ p.socksPassword ≠ "" then some p.socksPassword.toList else none

def written (p : Prefs) : List (List Char) :=
  p.strings.addr :: (p.strings.udpa.toList ++ (p.strings.user.toList ++ p.strings.pass.toList))

theorem mem_written {p : Prefs} {t : List Char} :
    t ∈ p.written ↔ t = p.strings.addr ∨ p.strings.udpa = some t ∨ p.strings.user = some t ∨
      p.strings.pass = some t := by
  simp [written]

def udpMode (p : Prefs) : List Char := if p.udpInTcp then "tcp".toList else "udp".toList

/-- The lines in front of the first string. -/
def headEvents (p : Prefs) : List Event :=
  [.header "misc".toList, .entry "task-stack-size".toList (Nat.toDigits 10 taskStackSize),
    .header "tunnel".toList, .entry "mtu".toList (Nat.toDigits 10 tunnelMtu),
    .header "socks5".toList, .entry "port".toList (Nat.toDigits 10 p.socksPort)]

/-- The lines behind the last string. -/
def mapdnsEvents (p : Prefs) : List Event :=
  if p.remoteDns then
    [.header "mapdns".toList, .entry "address".toList mappedDns.toList,
      .entry "port".toList "53".toList, .entry "network".toList "240.0.0.0".toList,
      .entry "netmask".toList "240.0.0.0".toList, .entry "cache-size".toList "10000".toList]
  else []

/-- The line of a string that may be missing. -/
def optField (key : String) (s : Option (List Char)) : List Char := s.toList.flatMap (field key.toList)

/-- The lines from the credentials on. -/
def credentialText (p : Prefs) : List Char :=
  optField "username" p.strings.user ++ (optField "password" p.strings.pass ++ plainText p.mapdnsEvents)

def stringText (p : Prefs) : List Char :=
  field "address".toList p.strings.addr ++ (field "udp".toList p.udpMode ++
    (optField "udp-address" p.strings.udpa ++ p.credentialText))

theorem toList_tproxyConf (p : Prefs) : p.tproxyConf.toList = plainText p.headEvents ++ p.stringText := by
  have hnum : ∀ n : ℕ, (toString n).toList = Nat.toDigits 10 n := fun n => Nat.toList_repr
  have hudpa : (if p.socksUdpAddress ≠ "" then "  udp-address: '" ++ p.socksUdpAddress ++ "'\n"
      else "").toList = optField "udp-address" p.strings.udpa := by
    simp only [strings]
    split_ifs <;> simp [optField, field, Yaml.entryStart, quote]
  have hauth : (if p.socksUsername ≠ "" ∧ p.socksPassword ≠ "" then
      "  username: '" ++ p.socksUsername ++ "'\n" ++ "  password: '" ++ p.socksPassword ++ "'\n"
      else "").toList = optField "username" p.strings.user ++ optField "password" p.strings.pass := by
    simp only [strings]
    split_ifs <;> simp [optField, field, Yaml.entryStart, quote]
  have hmapdns : (if p.remoteDns then
      "mapdns:\n" ++ "  address: " ++ mappedDns ++ "\n" ++ "  port: 53\n" ++ "  network: 240.0.0.0\n" ++
        "  netmask: 240.0.0.0\n" ++ "  cache-size: 10000\n"
      else "").toList = plainText p.mapdnsEvents := by
    rw [mapdnsEvents]
    split_ifs <;> simp [plainText, Event.line, Yaml.entryStart, mappedDns]
  have hmode : (if p.udpInTcp then "tcp" else "udp").toList = p.udpMode := by
    rw [udpMode]
    split_ifs <;> rfl
  unfold tproxyConf
  simp only [String.toList_append, hnum, hmode, hudpa, hauth, hmapdns, stringText, credentialText,
    headEvents]
  simp [quote, strings, plainText, Event.line, Yaml.entryStart, field]

/-! ### The frame of the strings -/

theorem alphanumeric_of_isDigit {c : Char} (hc : c.isDigit) : Yaml.alphanumeric c := by
  have hrange := Char.isDigit_iff_toNat.mp hc
  simp only [Yaml.alphanumeric, decide_eq_true_eq]
  exact Or.inl hrange

theorem isWord_toDigits (n : ℕ) : Yaml.isWord (Nat.toDigits 10 n) := by
  have hdigit : ∀ c ∈ Nat.toDigits 10 n, Yaml.alphanumeric c := fun c hc =>
    alphanumeric_of_isDigit (Nat.isDigit_of_mem_toDigits (by omega) (by omega) hc)
  obtain ⟨c, cs, hcs⟩ := List.exists_cons_of_ne_nil (Nat.toDigits_ne_nil (n := n) (b := 10))
  rw [hcs] at hdigit ⊢
  rw [Yaml.isWord, Bool.and_eq_true, List.all_eq_true]
  constructor
  · simp [hdigit c List.mem_cons_self]
  · intro d hd
    simp [Yaml.wordChar, hdigit d hd]

theorem isPlain_headEvents (p : Prefs) : ∀ e ∈ p.headEvents, e.isPlain := by
  have hentry : ∀ (key : List Char) n, isKey key → (Event.entry key (Nat.toDigits 10 n)).isPlain := by
    intro key n hkey
    simp [Event.isPlain, hkey, isWord_toDigits]
  simp only [headEvents, List.mem_cons, List.not_mem_nil, or_false]
  rintro e (rfl | rfl | rfl | rfl | rfl | rfl)
  · decide
  · exact hentry _ _ (by decide)
  · decide
  · exact hentry _ _ (by decide)
  · decide
  · exact hentry _ _ (by decide)

theorem isPlain_mapdnsEvents (p : Prefs) : ∀ e ∈ p.mapdnsEvents, e.isPlain := by
  rw [mapdnsEvents]
  split_ifs <;> decide

theorem lineFeeds_mapdns (p : Prefs) : lineFeeds (plainText p.mapdnsEvents) = plainText p.mapdnsEvents := by
  have := Yaml.lineFeeds_plainText p.isPlain_mapdnsEvents []
  simpa only [List.append_nil, lineFeeds] using this

theorem clean_udpMode (p : Prefs) : Yaml.Clean p.udpMode := by
  rw [udpMode]
  split_ifs <;> decide

theorem printable_optField {key : String} (hkey : Yaml.isWord key.toList) (s : Option (List Char)) :
    (optField key s).all Yaml.printable = s.toList.all (fun t => t.all Yaml.printable) := by
  cases s with
  | none => rfl
  | some t => simp [optField, Yaml.printable_field hkey]

/-- The text is printable if the strings are. -/
theorem printable_tproxyConf (p : Prefs) :
    p.tproxyConf.toList.all Yaml.printable = p.written.all (fun s => s.all Yaml.printable) := by
  have hhead : (plainText p.headEvents).all Yaml.printable = true :=
    List.all_eq_true.mpr (Yaml.printable_of_mem_plainText p.isPlain_headEvents)
  have hmapdns : (plainText p.mapdnsEvents).all Yaml.printable = true :=
    List.all_eq_true.mpr (Yaml.printable_of_mem_plainText p.isPlain_mapdnsEvents)
  have hmode : p.udpMode.all Yaml.printable = true := List.all_eq_true.mpr p.clean_udpMode.printable
  rw [toList_tproxyConf, stringText, credentialText, written]
  simp only [List.all_append, List.all_cons, hhead, hmapdns, Bool.true_and, Bool.and_true]
  rw [Yaml.printable_field (by decide), Yaml.printable_field (by decide), hmode,
    printable_optField (by decide), printable_optField (by decide), printable_optField (by decide),
    Bool.true_and]

/-! ### Strings that stand for themselves -/

/-- The events from the credentials on. -/
def tailEvents (p : Prefs) (user pass : Option (List Char)) : List Event :=
  user.toList.map (.entry "username".toList) ++
    (pass.toList.map (.entry "password".toList) ++ p.mapdnsEvents)

/-- The events of the text if its strings are read as `s`. -/
def events (p : Prefs) (s : Strings) : List Event :=
  p.headEvents ++ .entry "address".toList s.addr :: .entry "udp".toList p.udpMode ::
    (s.udpa.toList.map (.entry "udp-address".toList) ++ p.tailEvents s.user s.pass)

section reading
variable {es : List Event}

/-- The text behind its first lines. -/
theorem read_tproxyConf {p : Prefs} (hp : ∀ s ∈ p.written, ∀ c ∈ s, Yaml.printable c) :
    Yaml.read p.tproxyConf.toList = verdict ⟨p.headEvents, .line []⟩ (lineFeeds p.stringText) := by
  have hprint : p.tproxyConf.toList.all Yaml.printable = true := by
    rw [printable_tproxyConf, List.all_eq_true]
    exact fun s hs => List.all_eq_true.mpr (hp s hs)
  rw [Yaml.read, if_pos hprint, toList_tproxyConf, Yaml.lineFeeds_plainText p.isPlain_headEvents,
    Yaml.Reader.verdict_plainText _ p.isPlain_headEvents, List.nil_append]

theorem verdict_udpMode (p : Prefs) (rest : List Char) :
    verdict ⟨es, .line []⟩ (lineFeeds (field "udp".toList p.udpMode ++ rest)) =
      verdict ⟨es ++ [.entry "udp".toList p.udpMode], .line []⟩ (lineFeeds rest) :=
  Yaml.Reader.verdict_field (by decide) p.clean_udpMode.verbatim

theorem verdict_mapdns (p : Prefs) :
    verdict ⟨es, .line []⟩ (plainText p.mapdnsEvents) = .ok (es ++ p.mapdnsEvents) := by
  have := Yaml.Reader.verdict_plainText es p.isPlain_mapdnsEvents []
  rw [List.append_nil] at this
  rw [this]
  rfl

theorem verdict_optField {key : String} (hkey : isKey key.toList) {s : Option (List Char)}
    (hs : ∀ t, s = some t → Verbatim t) (rest : List Char) :
    verdict ⟨es, .line []⟩ (lineFeeds (optField key s ++ rest)) =
      verdict ⟨es ++ s.toList.map (.entry key.toList), .line []⟩ (lineFeeds rest) := by
  cases s with
  | none => simp [optField]
  | some t => simpa [optField] using Yaml.Reader.verdict_field hkey (hs t rfl)

/-- Strings that stand for themselves are read as they are. -/
theorem read_of_verbatim {p : Prefs} (hp : ∀ s ∈ p.written, Verbatim s) :
    Yaml.read p.tproxyConf.toList = .ok (p.events p.strings) := by
  have haddr : Verbatim p.strings.addr := hp _ (mem_written.mpr (.inl rfl))
  have hudpa : ∀ t, p.strings.udpa = some t → Verbatim t := fun t ht =>
    hp t (mem_written.mpr (.inr (.inl ht)))
  have huser : ∀ t, p.strings.user = some t → Verbatim t := fun t ht =>
    hp t (mem_written.mpr (.inr (.inr (.inl ht))))
  have hpass : ∀ t, p.strings.pass = some t → Verbatim t := fun t ht =>
    hp t (mem_written.mpr (.inr (.inr (.inr ht))))
  rw [read_tproxyConf (fun s hs => (hp s hs).printable), stringText, credentialText,
    Yaml.Reader.verdict_field (by decide) haddr, verdict_udpMode, verdict_optField (by decide) hudpa,
    verdict_optField (by decide) huser, verdict_optField (by decide) hpass, lineFeeds_mapdns, verdict_mapdns]
  simp [events, tailEvents]

end reading

/-! ### Other strings -/

/-- No string has a line break, or the quotes of all strings are paired. -/
def Regular (p : Prefs) : Prop := (∀ s ∈ p.written, OneLine s) ∨ ∀ s ∈ p.written, Yaml.paired s

/-- What can be read if libyaml accepts the text: each string as its content, or with fewer quotes than
it has, unless a scalar has swallowed one of the lines of the credentials. -/
def Possible (p : Prefs) (s : Strings) : Prop :=
  (p.strings.user.isSome ∧ (s.user = none ∨ s.pass = none)) ∨
    (Kept p.strings.addr s.addr ∧ Option.Rel Kept p.strings.udpa s.udpa ∧
      Option.Rel Kept p.strings.user s.user ∧ Option.Rel Kept p.strings.pass s.pass)

section regular
variable {p : Prefs} {P : List Event → Prop} {es : List Event} {rest : List Char}

theorem ends_mapdns (h : P (es ++ p.mapdnsEvents)) :
    Ends P (verdict ⟨es, .line []⟩ (lineFeeds (plainText p.mapdnsEvents))) := by
  rw [lineFeeds_mapdns, verdict_mapdns]
  exact .inr ⟨_, rfl, h⟩

/-- Behind the strings there is no quote that could close a scalar. -/
theorem ends_mapdns_inside {key : List Char} (sc : Yaml.Scalar) :
    Ends P (verdict ⟨es, .inside key sc⟩ (lineFeeds (plainText p.mapdnsEvents))) := by
  rw [lineFeeds_mapdns]
  exact .inl (Yaml.Reader.verdict_inside_end (Yaml.quote_not_mem_plainText p.isPlain_mapdnsEvents))

/-- Inside a scalar the quote of this line closes it, and the UDP mode is behind the quote. -/
theorem ends_udpMode_inside {key : List Char} (sc : Yaml.Scalar) :
    Ends P (verdict ⟨es, .inside key sc⟩ (lineFeeds (field "udp".toList p.udpMode ++ rest))) := by
  have hstart : quote ∉ Yaml.entryStart "udp".toList := by decide
  obtain ⟨c, cs, hmode, hc, hafter⟩ : ∃ c cs, lineFeeds p.udpMode = c :: cs ∧ c ≠ quote ∧
      ∀ es, Yaml.Reader.afterQuoted es c = .error .refused := by
    rw [udpMode]
    cases p.udpInTcp
    · exact ⟨'u', _, rfl, by decide, fun _ => rfl⟩
    · exact ⟨'t', _, rfl, by decide, fun _ => rfl⟩
  rw [Yaml.lineFeeds_field (by decide), hmode, List.cons_append]
  exact .inl (Yaml.Reader.verdict_inside_other hstart hc hafter _)

/-- A string that has to be read. -/
theorem ends_string (hp : p.Regular) {key : List Char} (hkey : isKey key) {s : List Char}
    (hs : s ∈ p.written)
    (hclosed : ∀ v, Kept s v → Ends P (verdict ⟨es ++ [.entry key v], .line []⟩ (lineFeeds rest)))
    (hopened : (∀ s ∈ p.written, OneLine s) → ∀ sc, Ends P (verdict ⟨es, .inside key sc⟩ (lineFeeds rest))) :
    Ends P (verdict ⟨es, .line []⟩ (lineFeeds (field key s ++ rest))) := by
  apply Yaml.Reader.ends_field hkey (hp.imp (fun h => h s hs) (fun h => h s hs)) hclosed
  intro hpaired
  exact hopened (hp.resolve_right (fun h => hpaired (h s hs)))

section password
variable {pass : List Char} (hpass : p.strings.pass = some pass)
include hpass

theorem ends_password (hp : p.Regular)
    (h : ∀ v, Kept pass v → P (es ++ .entry "password".toList v :: p.mapdnsEvents)) :
    Ends P (verdict ⟨es, .line []⟩
      (lineFeeds (optField "password" p.strings.pass ++ plainText p.mapdnsEvents))) := by
  rw [hpass]
  simp only [optField, Option.toList_some, List.flatMap_cons, List.flatMap_nil, List.append_nil]
  apply ends_string hp (by decide) (mem_written.mpr (.inr (.inr (.inr hpass))))
  · intro v hv
    apply ends_mapdns
    rw [List.append_assoc]
    exact h v hv
  · exact fun _ => ends_mapdns_inside

theorem ends_password_inside (hline : ∀ s ∈ p.written, OneLine s) {key : List Char} {sc : Yaml.Scalar}
    (h : ∀ v, P (es ++ .entry key v :: p.mapdnsEvents)) :
    Ends P (verdict ⟨es, .inside key sc⟩
      (lineFeeds (optField "password" p.strings.pass ++ plainText p.mapdnsEvents))) := by
  have hmem : pass ∈ p.written := mem_written.mpr (.inr (.inr (.inr hpass)))
  rw [hpass]
  simp only [optField, Option.toList_some, List.flatMap_cons, List.flatMap_nil, List.append_nil]
  apply Yaml.Reader.ends_field_inside (by decide) (hline pass hmem)
  · intro v
    apply ends_mapdns
    rw [List.append_assoc]
    exact h v
  · exact ends_mapdns_inside

end password

/-- The lines from the credentials on, inside a scalar: the user name is lost. -/
theorem ends_credentials_inside (hp : p.Regular) (hline : ∀ s ∈ p.written, OneLine s) {key : List Char}
    {sc : Yaml.Scalar}
    (h : ∀ v w, p.strings.user.isSome → P (es ++ .entry key v :: p.tailEvents none w)) :
    Ends P (verdict ⟨es, .inside key sc⟩ (lineFeeds p.credentialText)) := by
  rw [credentialText]
  by_cases hcred : p.socksUsername ≠ "" ∧ p.socksPassword ≠ ""
  · have huser : p.strings.user = some p.socksUsername.toList := if_pos hcred
    have hpass : p.strings.pass = some p.socksPassword.toList := if_pos hcred
    have hmem : p.socksUsername.toList ∈ p.written := mem_written.mpr (.inr (.inr (.inl huser)))
    have hsome : p.strings.user.isSome := by rw [huser]; rfl
    rw [huser]
    simp only [optField, Option.toList_some, List.flatMap_cons, List.flatMap_nil, List.append_nil]
    apply Yaml.Reader.ends_field_inside (by decide) (hline _ hmem)
    · intro v
      apply ends_password hpass hp
      intro w _
      rw [List.append_assoc]
      exact h v (some w) hsome
    · intro sc
      exact ends_password_inside hpass hline (fun v => h v none hsome)
  · have huser : p.strings.user = none := if_neg hcred
    have hpass : p.strings.pass = none := if_neg hcred
    rw [huser, hpass]
    exact ends_mapdns_inside sc

/-- The lines from the credentials on. -/
theorem ends_credentials (hp : p.Regular)
    (hincomplete : ∀ u w, p.strings.user.isSome → u = none ∨ w = none → P (es ++ p.tailEvents u w))
    (hkept : ∀ u w, Option.Rel Kept p.strings.user u → Option.Rel Kept p.strings.pass w →
      P (es ++ p.tailEvents u w)) :
    Ends P (verdict ⟨es, .line []⟩ (lineFeeds p.credentialText)) := by
  rw [credentialText]
  by_cases hcred : p.socksUsername ≠ "" ∧ p.socksPassword ≠ ""
  · have huser : p.strings.user = some p.socksUsername.toList := if_pos hcred
    have hpass : p.strings.pass = some p.socksPassword.toList := if_pos hcred
    have hmem : p.socksUsername.toList ∈ p.written := mem_written.mpr (.inr (.inr (.inl huser)))
    rw [huser] at hkept hincomplete ⊢
    simp only [optField, Option.toList_some, List.flatMap_cons, List.flatMap_nil, List.append_nil]
    apply ends_string hp (by decide) hmem
    · intro v hv
      apply ends_password hpass hp
      intro w hw
      rw [hpass] at hkept
      rw [List.append_assoc]
      exact hkept (some v) (some w) (.some hv) (.some hw)
    · intro hline sc
      exact ends_password_inside hpass hline (fun v => hincomplete (some v) none rfl (.inr rfl))
  · have huser : p.strings.user = none := if_neg hcred
    have hpass : p.strings.pass = none := if_neg hcred
    rw [huser, hpass] at hkept ⊢
    exact ends_mapdns (hkept none none .none .none)

/-- What libyaml can read. -/
theorem ends_tproxyConf (hp : p.Regular) :
    Ends (fun es => (∀ s ∈ p.written, ∀ c ∈ s, Yaml.printable c) ∧ ∃ s, es = p.events s ∧ p.Possible s)
      (Yaml.read p.tproxyConf.toList) := by
  by_cases hprint : p.tproxyConf.toList.all Yaml.printable
  · have hstrings : ∀ s ∈ p.written, ∀ c ∈ s, Yaml.printable c := by
      rw [printable_tproxyConf, List.all_eq_true] at hprint
      exact fun s hs => List.all_eq_true.mp (hprint s hs)
    rw [read_tproxyConf hstrings, stringText]
    apply ends_string hp (by decide) (mem_written.mpr (.inl rfl))
    · intro addr haddr
      rw [verdict_udpMode]
      cases hudpa : p.strings.udpa with
      | none =>
          apply ends_credentials hp
          · intro u w hsome hnone
            exact ⟨hstrings, ⟨addr, none, u, w⟩, by simp [events], .inl ⟨hsome, hnone⟩⟩
          · intro u w hu hw
            refine ⟨hstrings, ⟨addr, none, u, w⟩, by simp [events], .inr ⟨haddr, ?_, hu, hw⟩⟩
            rw [hudpa]
            exact .none
      | some udpa =>
          simp only [optField, Option.toList_some, List.flatMap_cons, List.flatMap_nil, List.append_nil]
          apply ends_string hp (by decide) (mem_written.mpr (.inr (.inl hudpa)))
          · intro v hv
            apply ends_credentials hp
            · intro u w hsome hnone
              exact ⟨hstrings, ⟨addr, some v, u, w⟩, by simp [events], .inl ⟨hsome, hnone⟩⟩
            · intro u w hu hw
              refine ⟨hstrings, ⟨addr, some v, u, w⟩, by simp [events], .inr ⟨haddr, ?_, hu, hw⟩⟩
              rw [hudpa]
              exact .some hv
          · intro hline sc
            apply ends_credentials_inside hp hline
            intro v w hsome
            exact ⟨hstrings, ⟨addr, some v, none, w⟩, by simp [events], .inl ⟨hsome, .inl rfl⟩⟩
    · exact fun _ => ends_udpMode_inside
  · rw [Yaml.read, if_neg hprint]
    exact .inl rfl

end regular

end Prefs
end HevTunnel
