import HevTunnel.ConfigVars

/-! # The entries of a document

What `hev-config.c` makes of a document, said of the entries of its sections.

`YamlDoc.sections` are the sections of a document with their entries, `ConfigSection.accepted` tells
behind which of them the parser goes on, and `ConfigSection.given` is the value that a section gives to
a variable: that of the last entry with the key of the variable, for most of them.  After a document a
variable has the last value that the sections in front of the first rejected one have given
(`Config.get_exec_parsed`), except that each section `mapdns` converts two variables in place. -/

namespace HevTunnel

/-! ### Values that are overwritten -/

section overwriting
variable {ε ξ : Type*} {g : ε → Option ξ} {h : ε → ξ → ξ}

/-- A value is overwritten or left as it is, and then changed in place. -/
def overwrite (g : ε → Option ξ) (h : ε → ξ → ξ) (y : ξ) (e : ε) : ξ := h e ((g e).getD y)

theorem getLast?_filterMap_cons_getD (e : ε) (es : List ε) (y : ξ) :
    ((e :: es).filterMap g).getLast?.getD y = (es.filterMap g).getLast?.getD ((g e).getD y) := by
  cases he : g e with
  | none => rw [List.filterMap_cons_none he, Option.getD_none]
  | some w => rw [List.filterMap_cons_some he, List.getLast?_cons, Option.getD_some, Option.getD_some]

theorem foldl_overwrite_id (es : List ε) (y : ξ) :
    es.foldl (overwrite g (fun _ => id)) y = (es.filterMap g).getLast?.getD y := by
  induction es generalizing y with
  | nil => rfl
  | cons e es ih =>
      rw [List.foldl_cons, ih, getLast?_filterMap_cons_getD]
      rfl

end overwriting

/-! ### Values of a key -/

/-- The values of a key. -/
def valuesOf (key : CStr) (es : List (CStr × CStr)) : List CStr :=
  es.filterMap (fun e => if e.1 = key then some e.2 else none)

def lastValue (key : CStr) (es : List (CStr × CStr)) : Option CStr := (valuesOf key es).getLast?

section fields
variable {σ ξ : Type*} {step : σ → CStr × CStr → σ} {π : σ → ξ} {key : CStr} {f : CStr → Option ξ}

/-- A field that the entries of one key set, as far as their values can be read. -/
def FieldOf (step : σ → CStr × CStr → σ) (π : σ → ξ) (key : CStr) (f : CStr → Option ξ) : Prop :=
  ∀ s e, π (step s e) = if e.1 = key then (f e.2).getD (π s) else π s

theorem FieldOf.comm (h : FieldOf step π key f) {e e' : CStr × CStr} (hne : e.1 ≠ e'.1) (s : σ) :
    π (step (step s e) e') = π (step (step s e') e) := by
  rw [h, h, h, h]
  by_cases he : e.1 = key
  · have he' : e'.1 ≠ key := fun he' => hne (he.trans he'.symm)
    rw [if_neg he', if_neg he']
  · rw [if_neg he, if_neg he]

/-- The field has the last value that could be read. -/
theorem FieldOf.foldl (h : FieldOf step π key f) (es : List (CStr × CStr)) (s : σ) :
    π (es.foldl step s) = ((valuesOf key es).filterMap f).getLast?.getD (π s) := by
  induction es generalizing s with
  | nil => rfl
  | cons e es ih =>
      rw [List.foldl_cons, ih, h]
      by_cases he : e.1 = key
      · have hvalues : valuesOf key (e :: es) = e.2 :: valuesOf key es :=
          List.filterMap_cons_some (if_pos he)
        rw [if_pos he, hvalues, getLast?_filterMap_cons_getD]
      · have hvalues : valuesOf key (e :: es) = valuesOf key es :=
          List.filterMap_cons_none (if_neg he)
        rw [if_neg he, hvalues]

theorem FieldOf.foldl_map {f : CStr → ξ} (h : FieldOf step π key (fun value => some (f value)))
    (es : List (CStr × CStr)) (s : σ) :
    π (es.foldl step s) = ((lastValue key es).map f).getD (π s) := by
  have hmap : (valuesOf key es).filterMap (fun value => some (f value)) = (valuesOf key es).map f :=
    congrFun List.filterMap_eq_map _
  rw [h.foldl, lastValue, hmap, List.getLast?_map]

/-- An optional field, at first `none`. -/
theorem FieldOf.foldl_none {π : σ → Option CStr}
    (h : FieldOf step π key (fun value => some (some value))) (es : List (CStr × CStr)) {s : σ}
    (hs : π s = none) : π (es.foldl step s) = lastValue key es := by
  rw [h.foldl_map, hs]
  cases lastValue key es <;> rfl

end fields

theorem isSome_lastValue {key : CStr} {es : List (CStr × CStr)} :
    (lastValue key es).isSome ↔ ∃ value, (key, value) ∈ es := by
  rw [lastValue, List.getLast?_isSome, Ne, valuesOf, List.filterMap_eq_nil_iff, not_forall]
  constructor
  · rintro ⟨⟨k, value⟩, h⟩
    simp only [Classical.not_imp] at h
    obtain ⟨hmem, h⟩ := h
    split_ifs at h with hk
    · exact ⟨value, hk ▸ hmem⟩
    · exact absurd rfl h
  · rintro ⟨value, hmem⟩
    exact ⟨(key, value), fun h => by simpa using h hmem⟩

/-- A branch for another key that does the same as the last one. -/
theorem ite_other {ξ : Type*} {k a b : CStr} {x y : ξ} (hab : a ≠ b) :
    (if k = a then y else if k = b then x else y) = if k = b then x else y := by
  by_cases ha : k = a
  · rw [if_pos ha, if_neg (fun hb => hab (ha.symm.trans hb))]
  · rw [if_neg ha]

namespace Socks5Values

theorem fieldOf_port : FieldOf pair port (lit "port") (fun value => some (some value)) := by
  intro v e
  simp only [pair, apply_ite port, ite_self]
  rfl

theorem fieldOf_addr : FieldOf pair addr (lit "address") (fun value => some (some value)) := by
  intro v e
  simp only [pair, apply_ite addr, ite_self]
  exact ite_other (by decide)

theorem fieldOf_udpm : FieldOf pair udpm (lit "udp") (fun value => some (some value)) := by
  intro v e
  simp only [pair, apply_ite udpm, ite_self, Option.getD_some]
  rw [ite_other, ite_other] <;> decide

theorem fieldOf_udpa : FieldOf pair udpa (lit "udp-address") (fun value => some (some value)) := by
  intro v e
  simp only [pair, apply_ite udpa, ite_self, Option.getD_some]
  rw [ite_other, ite_other, ite_other] <;> decide

theorem fieldOf_pipe : FieldOf pair pipe (lit "pipeline") (fun value => some (some value)) := by
  intro v e
  simp only [pair, apply_ite pipe, ite_self, Option.getD_some]
  rw [ite_other, ite_other, ite_other, ite_other] <;> decide

theorem fieldOf_user : FieldOf pair user (lit "username") (fun value => some (some value)) := by
  intro v e
  simp only [pair, apply_ite user, ite_self, Option.getD_some]
  rw [ite_other, ite_other, ite_other, ite_other, ite_other] <;> decide

theorem fieldOf_pass : FieldOf pair pass (lit "password") (fun value => some (some value)) := by
  intro v e
  simp only [pair, apply_ite pass, ite_self, Option.getD_some]
  rw [ite_other, ite_other, ite_other, ite_other, ite_other, ite_other] <;> decide

theorem fieldOf_mark : FieldOf pair mark (lit "mark") (fun value => some (some value)) := by
  intro v e
  simp only [pair, apply_ite mark, Option.getD_some]
  rw [ite_other, ite_other, ite_other, ite_other, ite_other, ite_other, ite_other] <;> decide

end Socks5Values

/-- The number that a value stands for, as an `int`. -/
def number (value : CStr) : BitVec 32 := BitVec.ofNat 32 (strtoul value 10)

namespace MiscTimeouts

theorem fieldOf_rw :
    FieldOf pair rw (lit "read-write-timeout") (fun value => some (number value)) := by
  intro t e
  simp only [pair, apply_ite rw, ite_self]
  rfl

theorem fieldOf_tcp :
    FieldOf pair tcp (lit "tcp-read-write-timeout") (fun value => some (number value)) := by
  intro t e
  simp only [pair, apply_ite tcp, ite_self]
  exact ite_other (by decide)

theorem fieldOf_udp :
    FieldOf pair udp (lit "udp-read-write-timeout") (fun value => some (number value)) := by
  intro t e
  simp only [pair, apply_ite udp]
  rw [ite_other, ite_other]
  · rfl
  · decide
  · decide

end MiscTimeouts

/-! ### Sections -/

/-- A section of a document: its key, and its entries if it is a mapping. -/
structure ConfigSection where
  name : CStr
  entries : Option (List (CStr × CStr))

namespace YamlDoc
variable (doc : YamlDoc)

/-- The addresses in the mapping of an address of the tunnel. -/
def addresses (node : YamlNode) : List CStr :=
  valuesOf (lit "address") ((doc.sectionPairs (some node)).getD [])

/-- The entries of the section `tunnel`.  An address with a mapping is an entry for each address in
it. -/
def tunnelEntries : List (ℕ × ℕ) → List (CStr × CStr)
  | [] => []
  | (k, v) :: ps =>
      match doc.scalarAt k, doc.getNode v with
      | some key, some (.scalar value) => (key, value) :: tunnelEntries ps
      | some key, some node =>
          (if key = lit "ipv4" ∨ key = lit "ipv6" then (doc.addresses node).map (key, ·) else []) ++
            tunnelEntries ps
      | _, _ => []

/-- The entries of the section with a name, up to the first that the parser does not read. -/
def sectionEntries (name : CStr) : Option YamlNode → Option (List (CStr × CStr))
  | some (.mapping ps) => some (if name = lit "tunnel" then doc.tunnelEntries ps else doc.scalarPairs ps)
  | _ => none

/-- The sections for pairs of the root mapping. -/
def sectionsOf : List (ℕ × ℕ) → List ConfigSection
  | [] => []
  | (k, v) :: ps =>
      match doc.scalarAt k with
      | none => []
      | some name =>
          if v = 0 then [] else ⟨name, doc.sectionEntries name (doc.getNode v)⟩ :: sectionsOf ps

/-- The sections of a document, `none` if it is not a mapping. -/
def sections : Option (List ConfigSection) :=
  match doc.getRootNode with
  | some (.mapping ps) => some (doc.sectionsOf ps)
  | _ => none

end YamlDoc

namespace ConfigSection

/-- The parser goes on behind the section. -/
def accepted (s : ConfigSection) : Bool :=
  if s.name = lit "socks5" then
    match s.entries with
    | none => false
    | some es =>
        (lastValue (lit "port") es).isSome && (lastValue (lit "address") es).isSome &&
          ((lastValue (lit "username") es).isSome == (lastValue (lit "password") es).isSome)
  else if s.name = lit "tunnel" ∨ s.name = lit "mapdns" ∨ s.name = lit "misc" then s.entries.isSome
  else true

/-- The key of an array. -/
def strKey : StrVar → CStr
  | .tunName => lit "name"
  | .tunIpv4Address => lit "ipv4"
  | .tunIpv6Address => lit "ipv6"
  | .tunPostUpScript => lit "post-up-script"
  | .tunPreDownScript => lit "pre-down-script"
  | .srvUdpAddr => lit "udp-address"
  | .srvAddr => lit "address"
  | .logFile => lit "log-file"
  | .pidFile => lit "pid-file"

/-- The size of an array. -/
def strSize : StrVar → ℕ
  | .tunIpv4Address => 16
  | .srvUdpAddr | .srvAddr => 256
  | .logFile | .pidFile => 1024
  | _ => 64

/-- A setting that is switched on by a text, in any case. -/
def switch (key text : CStr) (es : List (CStr × CStr)) : Option (BitVec 32) :=
  (lastValue key es).bind (fun value => if strcasecmp value text = 0 then some 1 else none)

/-- The last address of a key that can be read. -/
def lastAddress (pton : CStr → Option (Vector Byte 4)) (key : CStr) (es : List (CStr × CStr)) :
    Option (BitVec 32) :=
  ((valuesOf key es).filterMap (fun value => (pton value).map leInt)).getLast?

/-- The last number of a key, if it is positive. -/
def lastPositive (key : CStr) (es : List (CStr × CStr)) : Option (BitVec 32) :=
  ((lastValue key es).map number).filter (fun n => 0 < n.toInt)

/-- The timeout of a key, or else that of both protocols. -/
def timeout (key : CStr) (es : List (CStr × CStr)) : Option (BitVec 32) :=
  (lastPositive key es).or (lastPositive (lit "read-write-timeout") es)

/-- The value that the entries of its section give to a number. -/
def intValue (pton : CStr → Option (Vector Byte 4)) (es : List (CStr × CStr)) :
    IntVar → Option (BitVec 32)
  | .tunMtu => (lastValue (lit "mtu") es).map number
  | .multiQueue => (lastValue (lit "multi-queue") es).map
      (fun value => BitVec.ofInt 32 (strcasecmp value (lit "false")))
  | .srvMark => (lastValue (lit "mark") es).map (fun value => BitVec.ofNat 32 (strtoul value 0))
  | .srvUdpInUdp => switch (lit "udp") (lit "udp") es
  | .srvPort => (lastValue (lit "port") es).map
      (fun value => BitVec.ofNat 32 (strtoul value 10 % 2 ^ 16))
  | .srvPipeline => switch (lit "pipeline") (lit "true") es
  | .mapdnsAddress => lastAddress pton (lit "address") es
  | .mapdnsPort => (lastValue (lit "port") es).map number
  | .mapdnsNetwork => lastAddress pton (lit "network") es
  | .mapdnsNetmask => lastAddress pton (lit "netmask") es
  | .mapdnsCacheSize => (lastValue (lit "cache-size") es).map number
  | .maxSessionCount => (lastValue (lit "max-session-count") es).map number
  | .taskStackSize => (lastValue (lit "task-stack-size") es).map number
  | .tcpBufferSize => (lastValue (lit "tcp-buffer-size") es).map number
  | .udpRecvBufferSize => (lastValue (lit "udp-recv-buffer-size") es).map number
  | .udpCopyBufferNums => (lastValue (lit "udp-copy-buffer-nums") es).map number
  | .connectTimeout => (lastValue (lit "connect-timeout") es).map number
  | .tcpReadWriteTimeout => timeout (lit "tcp-read-write-timeout") es
  | .udpReadWriteTimeout => timeout (lit "udp-read-write-timeout") es
  | .limitNofile => (lastValue (lit "limit-nofile") es).map (fun value => BitVec.ofInt 32 (strtol value 10))
  | .logLevel => (lastValue (lit "log-level") es).map parseLogLevel

/-- The user name and the password of a section with both. -/
def credentials (es : List (CStr × CStr)) : Option (CStr × CStr) :=
  match lastValue (lit "username") es, lastValue (lit "password") es with
  | some user, some pass => some (strncpy user (256 - 1), strncpy pass (256 - 1))
  | _, _ => none

/-- The value that the entries of its section give to a variable. -/
def value (pton : CStr → Option (Vector Byte 4)) (es : List (CStr × CStr)) :
    (x : ConfigVar) → Option x.Value
  | .str v => (lastValue (strKey v) es).map (fun value => strncpy value (strSize v - 1))
  | .int v => intValue pton es v
  | .auth => (credentials es).map some

/-- The value that a section gives to a variable. -/
def given (pton : CStr → Option (Vector Byte 4)) (x : ConfigVar) (s : ConfigSection) :
    Option x.Value :=
  if s.name = x.sectionKey then s.entries.bind (fun es => value pton es x) else none

/-- What a section does to the value of a variable at its end. -/
def inPlace (x : ConfigVar) (s : ConfigSection) (y : x.Value) : x.Value :=
  if s.name = x.sectionKey then Assign.ntohl.eff x y else y

/-- Only two variables are converted. -/
theorem inPlace_eq_id {x : ConfigVar} (hnet : x ≠ .int .mapdnsNetwork) (hmask : x ≠ .int .mapdnsNetmask) :
    inPlace x = fun _ => id := by
  have hkeep : ¬ Assign.ntohl.Writes x := fun h => Or.elim h hnet hmask
  funext s y
  unfold inPlace
  rw [Assign.eff_of_not_writes hkeep, ite_self]
  rfl

end ConfigSection

/-! ### The parsers of the sections -/

namespace Config
variable {pton : CStr → Option (Vector Byte 4)} {es : List (CStr × CStr)} {x : ConfigVar}

open ConfigSection

section entries
variable (pair : CStr → CStr → List Assign) {sec : CStr}
  (hwrites : ∀ key value, ∀ a ∈ pair key value, EntryAssign sec key a)
include hwrites

/-- A variable that the entries of its key assign, as far as their values can be read. -/
theorem get_exec_entries {f : CStr → Option x.Value}
    (hself : ∀ value (c : Config), (c.exec (pair x.entryKey value)).get x = (f value).getD (c.get x))
    (c : Config) :
    (c.exec (es.flatMap (fun e => pair e.1 e.2))).get x =
      ((valuesOf x.entryKey es).filterMap f).getLast?.getD (c.get x) := by
  have hfield : FieldOf (fun (c : Config) e => c.exec (pair e.1 e.2)) (fun c => c.get x) x.entryKey f := by
    intro c e
    by_cases he : e.1 = x.entryKey
    · simp only [if_pos he]
      rw [he, hself]
    · simp only [if_neg he]
      exact get_exec_of_not_writes (fun a ha hx => he (hwrites e.1 e.2 a ha x hx).2.symm) c
  rw [exec_flatMap]
  exact hfield.foldl es c

theorem get_exec_entries_map {f : CStr → x.Value}
    (hself : ∀ value (c : Config), (c.exec (pair x.entryKey value)).get x = f value) (c : Config) :
    (c.exec (es.flatMap (fun e => pair e.1 e.2))).get x =
      ((lastValue x.entryKey es).map f).getD (c.get x) := by
  have hmap : (valuesOf x.entryKey es).filterMap (fun value => some (f value)) =
      (valuesOf x.entryKey es).map f := congrFun List.filterMap_eq_map _
  refine (get_exec_entries pair (f := fun value => some (f value)) hwrites hself c).trans ?_
  rw [lastValue, hmap, List.getLast?_map]

theorem get_exec_array {v : StrVar}
    (hself : ∀ value, pair (ConfigVar.str v).entryKey value =
      [.str v (strncpy value (strSize v - 1))]) (c : Config) :
    (c.exec (es.flatMap (fun e => pair e.1 e.2))).get (.str v) =
      ((lastValue (ConfigVar.str v).entryKey es).map (fun value => strncpy value (strSize v - 1))).getD
        (c.get (.str v)) :=
  get_exec_entries_map pair (x := .str v) hwrites (fun value c => by rw [hself]; exact if_pos rfl) c

theorem get_exec_number {v : IntVar} {f : CStr → BitVec 32}
    (hself : ∀ value, pair (ConfigVar.int v).entryKey value = [.int v (f value)]) (c : Config) :
    (c.exec (es.flatMap (fun e => pair e.1 e.2))).get (.int v) =
      ((lastValue (ConfigVar.int v).entryKey es).map f).getD (c.get (.int v)) :=
  get_exec_entries_map pair (x := .int v) hwrites (fun value c => by rw [hself]; exact if_pos rfl) c

end entries

theorem get_exec_tunnel (hx : x.sectionKey = lit "tunnel") (c : Config) :
    (c.exec (es.flatMap (fun e => tunnelScalar e.1 e.2))).get x = (value pton es x).getD (c.get x) := by
  cases x with
  | str v =>
      cases v <;> first
        | exact absurd hx (by decide)
        | exact get_exec_array tunnelScalar (fun _ _ => tunnelScalar_writes) (fun _ => rfl) c
  | int v =>
      cases v with
      | tunMtu =>
          exact get_exec_number tunnelScalar (f := number) (fun _ _ => tunnelScalar_writes)
            (fun _ => rfl) c
      | multiQueue => exact get_exec_number tunnelScalar (fun _ _ => tunnelScalar_writes) (fun _ => rfl) c
      | _ => exact absurd hx (by decide)
  | auth => exact absurd hx (by decide)

/-- The addresses that `inet_pton` reads. -/
theorem get_exec_lastAddress {v : IntVar}
    (hself : ∀ value, mapdnsPair pton (ConfigVar.int v).entryKey value = ptonAssign pton v value)
    (c : Config) :
    (c.exec (es.flatMap (fun e => mapdnsPair pton e.1 e.2))).get (.int v) =
      (lastAddress pton (ConfigVar.int v).entryKey es).getD (c.get (.int v)) := by
  refine get_exec_entries (mapdnsPair pton) (x := .int v) (f := fun value => (pton value).map leInt)
    (fun _ _ => mapdnsPair_writes) ?_ c
  intro value c
  rw [hself, ptonAssign]
  cases pton value with
  | none => rfl
  | some addr => exact if_pos rfl

/-- The entries of the section `mapdns`, without the conversion at its end. -/
theorem get_exec_mapdns (hx : x.sectionKey = lit "mapdns") (c : Config) :
    (c.exec (es.flatMap (fun e => mapdnsPair pton e.1 e.2))).get x =
      (value pton es x).getD (c.get x) := by
  have hwrites := fun key value => @mapdnsPair_writes pton key value
  cases x with
  | str v => cases v <;> exact absurd hx (by decide)
  | int v =>
      cases v with
      | mapdnsAddress => exact get_exec_lastAddress (fun _ => rfl) c
      | mapdnsPort => exact get_exec_number (mapdnsPair pton) (f := number) hwrites (fun _ => rfl) c
      | mapdnsNetwork => exact get_exec_lastAddress (fun _ => rfl) c
      | mapdnsNetmask => exact get_exec_lastAddress (fun _ => rfl) c
      | mapdnsCacheSize => exact get_exec_number (mapdnsPair pton) (f := number) hwrites (fun _ => rfl) c
      | _ => exact absurd hx (by decide)
  | auth => exact absurd hx (by decide)

/-- The entries of the section `misc`, without the timeouts at its end. -/
theorem get_exec_misc (hx : x.sectionKey = lit "misc") (htcp : x ≠ .int .tcpReadWriteTimeout)
    (hudp : x ≠ .int .udpReadWriteTimeout) (c : Config) :
    (c.exec (es.flatMap (fun e => miscPair e.1 e.2))).get x = (value pton es x).getD (c.get x) := by
  cases x with
  | str v =>
      cases v <;> first
        | exact absurd hx (by decide)
        | exact get_exec_array miscPair (fun _ _ => miscPair_writes) (fun _ => rfl) c
  | int v =>
      cases v with
      | tcpReadWriteTimeout => exact absurd rfl htcp
      | udpReadWriteTimeout => exact absurd rfl hudp
      | logLevel =>
          exact get_exec_number miscPair (f := parseLogLevel) (fun _ _ => miscPair_writes)
            (fun _ => rfl) c
      | limitNofile => exact get_exec_number miscPair (fun _ _ => miscPair_writes) (fun _ => rfl) c
      | _ => first
        | exact absurd hx (by decide)
        | exact get_exec_number miscPair (f := number) (fun _ _ => miscPair_writes) (fun _ => rfl) c
  | auth => exact absurd hx (by decide)

/-- The choice of a timeout at the end of `hev_config_parse_misc`, where `-1` stands for none. -/
theorem timeout_getD (key : CStr) (es : List (CStr × CStr)) (y : BitVec 32) :
    (timeout key es).getD y =
      let tcp := ((lastValue key es).map number).getD (-1)
      let rw := ((lastValue (lit "read-write-timeout") es).map number).getD (-1)
      let n := if tcp.toInt ≤ 0 then rw else tcp
      if n.toInt > 0 then n else y := by
  have hneg : (-1 : BitVec 32).toInt ≤ 0 := by decide
  unfold timeout lastPositive
  cases (lastValue key es).map number with
  | none =>
      cases (lastValue (lit "read-write-timeout") es).map number with
      | none => rfl
      | some b =>
          simp only [Option.getD_none, Option.getD_some, if_pos hneg]
          by_cases hb : 0 < b.toInt <;> simp [Option.filter, hb]
  | some a =>
      by_cases ha : 0 < a.toInt
      · simp [Option.filter, ha, not_le.mpr ha]
      · cases (lastValue (lit "read-write-timeout") es).map number with
        | none => simp [Option.filter, ha, not_lt.mp ha]
        | some b => by_cases hb : 0 < b.toInt <;> simp [Option.filter, ha, not_lt.mp ha, hb]

theorem exec_timeouts (c : Config) :
    (c.exec (es.foldl MiscTimeouts.pair {}).assigns).int .tcpReadWriteTimeout =
        (timeout (lit "tcp-read-write-timeout") es).getD (c.int .tcpReadWriteTimeout) ∧
      (c.exec (es.foldl MiscTimeouts.pair {}).assigns).int .udpReadWriteTimeout =
        (timeout (lit "udp-read-write-timeout") es).getD (c.int .udpReadWriteTimeout) := by
  have htcp := MiscTimeouts.fieldOf_tcp.foldl_map es {}
  have hudp := MiscTimeouts.fieldOf_udp.foldl_map es {}
  have hrw := MiscTimeouts.fieldOf_rw.foldl_map es {}
  rw [timeout_getD, timeout_getD, ← htcp, ← hudp, ← hrw]
  generalize es.foldl MiscTimeouts.pair {} = t
  unfold MiscTimeouts.assigns
  constructor
  · simp only [exec_append]
    split_ifs <;> rfl
  · simp only [exec_append]
    split_ifs <;> rfl

/-- The assignments of `hev_config_parse_socks5`, one behind the other. -/
theorem socks5_assigns_eq (es : List (CStr × CStr)) (addr port : CStr) :
    (es.foldl Socks5Values.pair {}).assigns addr port =
      [.str .srvAddr (strncpy addr (256 - 1)), .int .srvPort (BitVec.ofNat 32 (strtoul port 10 % 2 ^ 16))] ++
      ((switch (lit "pipeline") (lit "true") es).map (.int .srvPipeline)).toList ++
      ((switch (lit "udp") (lit "udp") es).map (.int .srvUdpInUdp)).toList ++
      ((lastValue (lit "udp-address") es).map
        (fun value => .str .srvUdpAddr (strncpy value (256 - 1)))).toList ++
      ((credentials es).map (fun auth => .auth auth.1 auth.2)).toList ++
      ((lastValue (lit "mark") es).map
        (fun value => .int .srvMark (BitVec.ofNat 32 (strtoul value 0)))).toList := by
  unfold Socks5Values.assigns switch credentials
  rw [Socks5Values.fieldOf_udpm.foldl_none es rfl, Socks5Values.fieldOf_udpa.foldl_none es rfl,
    Socks5Values.fieldOf_pipe.foldl_none es rfl, Socks5Values.fieldOf_user.foldl_none es rfl,
    Socks5Values.fieldOf_pass.foldl_none es rfl, Socks5Values.fieldOf_mark.foldl_none es rfl]
  congr 1
  · congr 1
    · congr 1
      · congr 1
        · congr 1
          cases lastValue (lit "pipeline") es with
          | none => rfl
          | some pipe => by_cases h : strcasecmp pipe (lit "true") = 0 <;> simp [h]
        · cases lastValue (lit "udp") es with
          | none => rfl
          | some udpm => by_cases h : strcasecmp udpm (lit "udp") = 0 <;> simp [h]
      · cases lastValue (lit "udp-address") es <;> rfl
    · cases lastValue (lit "username") es <;> cases lastValue (lit "password") es <;> rfl
  · cases lastValue (lit "mark") es <;> rfl

/-- An assignment to another variable that may be missing. -/
theorem get_exec_toList_of_ne {α : Type*} {f : α → Assign} (hf : ∀ p, ¬ (f p).Writes x) (o : Option α)
    (c : Config) : (c.exec (o.map f).toList).get x = c.get x := by
  cases o with
  | none => rfl
  | some p => exact (get_assign c (f p) x).trans (Assign.eff_of_not_writes (hf p) _)

/-- An assignment to the variable that may be missing. -/
theorem get_exec_toList {α : Type*} {f : α → Assign} {g : α → x.Value}
    (hf : ∀ p (c : Config), (c.assign (f p)).get x = g p) (o : Option α) (c : Config) :
    (c.exec (o.map f).toList).get x = (o.map g).getD (c.get x) := by
  cases o with
  | none => rfl
  | some p => exact hf p c

/-- What the values of a section `socks5` assign. -/
theorem get_exec_socks5 {addr port : CStr} (hx : x.sectionKey = lit "socks5")
    (hport : lastValue (lit "port") es = some port) (haddr : lastValue (lit "address") es = some addr)
    (c : Config) :
    (c.exec ((es.foldl Socks5Values.pair {}).assigns addr port)).get x =
      (value pton es x).getD (c.get x) := by
  rw [socks5_assigns_eq]
  simp only [exec_append]
  -- one variable after the other: the assignments behind its own leave it as it is
  have hpipe : x ≠ .int .srvPipeline → ∀ o (c : Config),
      (c.exec (Option.map (.int .srvPipeline) o).toList).get x = c.get x :=
    fun h => get_exec_toList_of_ne (fun _ => h)
  have hudp : x ≠ .int .srvUdpInUdp → ∀ o (c : Config),
      (c.exec (Option.map (.int .srvUdpInUdp) o).toList).get x = c.get x :=
    fun h => get_exec_toList_of_ne (fun _ => h)
  have hudpa : x ≠ .str .srvUdpAddr → ∀ o (c : Config), (c.exec (Option.map
      (fun value => .str .srvUdpAddr (strncpy value (256 - 1))) o).toList).get x = c.get x :=
    fun h => get_exec_toList_of_ne (fun _ => h)
  have hauth : x ≠ .auth → ∀ o (c : Config), (c.exec (Option.map
      (fun auth : CStr × CStr => .auth auth.1 auth.2) o).toList).get x = c.get x :=
    fun h => get_exec_toList_of_ne (fun _ => h)
  have hmark : x ≠ .int .srvMark → ∀ o (c : Config), (c.exec (Option.map
      (fun value => .int .srvMark (BitVec.ofNat 32 (strtoul value 0))) o).toList).get x = c.get x :=
    fun h => get_exec_toList_of_ne (fun _ => h)
  cases x with
  | str v =>
      cases v with
      | srvAddr =>
          rw [hmark (by decide), hauth (by decide), hudpa (by decide), hudp (by decide), hpipe (by decide),
            value, strKey, haddr]
          rfl
      | srvUdpAddr =>
          rw [hmark (by decide), hauth (by decide), get_exec_toList (fun _ _ => rfl), hudp (by decide),
            hpipe (by decide)]
          rfl
      | _ => exact absurd hx (by decide)
  | int v =>
      cases v with
      | srvPort =>
          rw [hmark (by decide), hauth (by decide), hudpa (by decide), hudp (by decide), hpipe (by decide),
            value, intValue, hport]
          rfl
      | srvPipeline =>
          rw [hmark (by decide), hauth (by decide), hudpa (by decide), hudp (by decide),
            get_exec_toList (fun _ _ => rfl), Option.map_id']
          rfl
      | srvUdpInUdp =>
          rw [hmark (by decide), hauth (by decide), hudpa (by decide), get_exec_toList (fun _ _ => rfl),
            hpipe (by decide), Option.map_id']
          rfl
      | srvMark =>
          rw [get_exec_toList (fun _ _ => rfl), hauth (by decide), hudpa (by decide), hudp (by decide),
            hpipe (by decide)]
          rfl
      | _ => exact absurd hx (by decide)
  | auth =>
      rw [hmark (by decide), get_exec_toList (fun _ _ => rfl), hudpa (by decide), hudp (by decide),
        hpipe (by decide)]
      rfl

/-! ### The document -/

section document
variable {doc : YamlDoc}

theorem tunnelNode_eq (key : CStr) (node : YamlNode) :
    tunnelNode doc key node =
      (if key = lit "ipv4" ∨ key = lit "ipv6" then (doc.addresses node).map (key, ·) else []).flatMap
        (fun e => tunnelScalar e.1 e.2) := by
  have haddr : ∀ v size, (parseTunnelAddress doc v size (some node)).getD [] =
      (doc.addresses node).map (fun value => .str v (strncpy value (size - 1))) := by
    intro v size
    unfold parseTunnelAddress YamlDoc.addresses valuesOf
    cases doc.sectionPairs (some node) with
    | none => rfl
    | some pairs =>
        simp only [Option.pure_def, Option.bind_eq_bind, Option.bind_some, Option.getD_some]
        rw [List.map_filterMap]
        induction pairs with
        | nil => rfl
        | cons e pairs ih =>
            rw [List.flatMap_cons, ih, List.filterMap_cons]
            split_ifs <;> rfl
  unfold tunnelNode parseTunnelIpv4 parseTunnelIpv6
  rw [haddr, haddr]
  by_cases h₄ : key = lit "ipv4"
  · rw [if_pos h₄, if_pos (.inl h₄), List.flatMap_map, h₄, List.map_eq_flatMap]
    rfl
  · by_cases h₆ : key = lit "ipv6"
    · rw [if_neg h₄, if_pos h₆, if_pos (.inr h₆), List.flatMap_map, h₆, List.map_eq_flatMap]
      rfl
    · rw [if_neg h₄, if_neg h₆, if_neg (not_or.mpr ⟨h₄, h₆⟩)]
      rfl

theorem parseTunnelPairs_eq (ps : List (ℕ × ℕ)) :
    parseTunnelPairs doc ps = (doc.tunnelEntries ps).flatMap (fun e => tunnelScalar e.1 e.2) := by
  induction ps with
  | nil => rfl
  | cons p ps ih =>
      obtain ⟨k, v⟩ := p
      rw [parseTunnelPairs, YamlDoc.tunnelEntries]
      rcases doc.scalarAt k with _ | key
      · rfl
      · rcases doc.getNode v with _ | _ | _ | _
        · rfl
        · simp only [List.flatMap_cons, ih]
        · simp only [List.flatMap_append, ih, tunnelNode_eq]
        · simp only [List.flatMap_append, ih, tunnelNode_eq]

theorem parseSocks5_eq (node : Option YamlNode) :
    parseSocks5 doc node = (doc.sectionPairs node).bind (fun es =>
      (lastValue (lit "port") es).bind (fun port => (lastValue (lit "address") es).bind (fun addr =>
        if (lastValue (lit "username") es).isSome ≠ (lastValue (lit "password") es).isSome then none
        else some ((es.foldl Socks5Values.pair {}).assigns addr port)))) := by
  have hport := fun es => Socks5Values.fieldOf_port.foldl_none es (s := {}) rfl
  have haddr := fun es => Socks5Values.fieldOf_addr.foldl_none es (s := {}) rfl
  have huser := fun es => Socks5Values.fieldOf_user.foldl_none es (s := {}) rfl
  have hpass := fun es => Socks5Values.fieldOf_pass.foldl_none es (s := {}) rfl
  unfold parseSocks5
  simp only [Option.bind_eq_bind, Option.pure_def, hport, haddr, huser, hpass]

theorem sectionEntries_of_ne {name : CStr} (h : name ≠ lit "tunnel") (node : Option YamlNode) :
    doc.sectionEntries name node = doc.sectionPairs node := by
  rcases node with _ | _ | _ | ps
  · rfl
  · rfl
  · rfl
  · exact congrArg some (if_neg h)

/-- A section is accepted as its entries say. -/
theorem isSome_parseSection (pton : CStr → Option (Vector Byte 4)) (name : CStr)
    (node : Option YamlNode) :
    (parseSection pton doc name node).isSome =
      ConfigSection.accepted ⟨name, doc.sectionEntries name node⟩ := by
  unfold parseSection ConfigSection.accepted
  by_cases htunnel : name = lit "tunnel"
  · simp only [htunnel, true_or, if_true]
    rcases node with _ | _ | _ | ps <;> rfl
  · rw [sectionEntries_of_ne htunnel]
    simp only [htunnel, if_false, false_or]
    by_cases hsocks5 : name = lit "socks5"
    · simp only [hsocks5, if_true, parseSocks5_eq]
      cases doc.sectionPairs node with
      | none => rfl
      | some es =>
          simp only [Option.bind_some]
          cases lastValue (lit "port") es with
          | none => rfl
          | some port =>
              cases lastValue (lit "address") es with
              | none => rfl
              | some addr =>
                  cases lastValue (lit "username") es <;> cases lastValue (lit "password") es <;> rfl
    · simp only [hsocks5, if_false]
      by_cases hmapdns : name = lit "mapdns"
      · simp only [hmapdns, if_true, true_or, parseMapdns]
        cases doc.sectionPairs node <;> rfl
      · simp only [hmapdns, if_false, false_or]
        by_cases hmisc : name = lit "misc"
        · simp only [hmisc, if_true, parseMisc]
          cases doc.sectionPairs node <;> rfl
        · simp only [hmisc, if_false]
          rfl

/-- Only the section `mapdns` converts variables. -/
theorem ntohl_eff_of_ne (h : x.sectionKey ≠ lit "mapdns") (y : x.Value) : Assign.ntohl.eff x y = y := by
  apply Assign.eff_of_not_writes
  rintro (rfl | rfl)
  · exact h rfl
  · exact h rfl

theorem get_exec_parseMisc (hx : x.sectionKey = lit "misc") (c : Config) :
    (c.exec (es.flatMap (fun e => miscPair e.1 e.2) ++ (es.foldl MiscTimeouts.pair {}).assigns)).get x =
      (value pton es x).getD (c.get x) := by
  -- the two timeouts have no key that `miscPair` knows
  have hkeep : x.entryKey = lit "" → (c.exec (es.flatMap (fun e => miscPair e.1 e.2))).get x = c.get x := by
    intro hkey
    refine get_exec_of_not_writes (fun a ha hax => ?_) c
    obtain ⟨e, -, ha⟩ := List.mem_flatMap.mp ha
    rw [← (miscPair_writes a ha x hax).2, hkey] at ha
    exact absurd ha (List.not_mem_nil)
  rw [exec_append]
  by_cases htcp : x = .int .tcpReadWriteTimeout
  · subst htcp
    exact (exec_timeouts _).1.trans (congrArg _ (hkeep rfl))
  · by_cases hudp : x = .int .udpReadWriteTimeout
    · subst hudp
      exact (exec_timeouts _).2.trans (congrArg _ (hkeep rfl))
    · rw [← get_exec_misc hx htcp hudp]
      exact get_exec_of_not_writes (fun a ha hax => (timeouts_writes ha hax).elim htcp hudp) _

theorem sectionKey_cases (x : ConfigVar) : x.sectionKey = lit "tunnel" ∨ x.sectionKey = lit "socks5" ∨
    x.sectionKey = lit "mapdns" ∨ x.sectionKey = lit "misc" := by
  cases x with
  | str v => cases v <;> simp [ConfigVar.sectionKey]
  | int v => cases v <;> simp [ConfigVar.sectionKey]
  | auth => simp [ConfigVar.sectionKey]

/-- What a section does to a variable. -/
theorem get_exec_parseSection {name : CStr} {node : Option YamlNode} {as : List Assign}
    (h : parseSection pton doc name node = some as) (c : Config) :
    (c.exec as).get x =
      overwrite (given pton x) (inPlace x) (c.get x) ⟨name, doc.sectionEntries name node⟩ := by
  unfold overwrite given inPlace
  by_cases hx : name = x.sectionKey
  · simp only [if_pos hx]
    unfold parseSection at h
    split_ifs at h with htunnel hsocks5 hmapdns hmisc
    · rw [ntohl_eff_of_ne (by rw [← hx, htunnel]; decide)]
      rcases node with _ | _ | _ | ps
      · cases h
      · cases h
      · cases h
      · obtain rfl := Option.some.inj h
        rw [parseTunnelPairs_eq, htunnel]
        exact get_exec_tunnel (hx.symm.trans htunnel) c
    · rw [ntohl_eff_of_ne (by rw [← hx, hsocks5]; decide), sectionEntries_of_ne htunnel]
      rw [parseSocks5_eq] at h
      simp only [Option.bind_eq_some_iff] at h
      obtain ⟨es, hes, port, hport, addr, haddr, h⟩ := h
      split_ifs at h
      obtain rfl := Option.some.inj h
      rw [hes]
      exact get_exec_socks5 (hx.symm.trans hsocks5) hport haddr c
    · rw [sectionEntries_of_ne htunnel]
      simp only [parseMapdns, Option.bind_eq_bind, Option.bind_eq_some_iff] at h
      obtain ⟨es, hes, h⟩ := h
      obtain rfl := Option.some.inj h
      rw [hes, exec_append]
      change (assign _ .ntohl).get x = _
      rw [get_assign, get_exec_mapdns (hx.symm.trans hmapdns)]
      rfl
    · rw [ntohl_eff_of_ne (by rw [← hx, hmisc]; decide), sectionEntries_of_ne htunnel]
      simp only [parseMisc, Option.bind_eq_bind, Option.bind_eq_some_iff] at h
      obtain ⟨es, hes, h⟩ := h
      obtain rfl := Option.some.inj h
      rw [hes]
      exact get_exec_parseMisc (hx.symm.trans hmisc) c
    · simpa [← hx, htunnel, hsocks5, hmapdns, hmisc] using sectionKey_cases x
  · simp only [if_neg hx]
    exact get_exec_of_not_writes (fun a ha hax => hx (parseSection_writes h ha hax).symm) c

theorem accepted_parseDocPairs (pton : CStr → Option (Vector Byte 4)) (ps : List (ℕ × ℕ)) :
    (parseDocPairs pton doc ps).2 = (doc.sectionsOf ps).all ConfigSection.accepted := by
  induction ps with
  | nil => rfl
  | cons p ps ih =>
      obtain ⟨k, v⟩ := p
      rw [parseDocPairs, YamlDoc.sectionsOf]
      cases doc.scalarAt k with
      | none => rfl
      | some name =>
          by_cases hv : v = 0
          · simp only [hv, if_true, List.all_nil]
          · simp only [hv, if_false, List.all_cons, ← isSome_parseSection pton, ← ih]
            cases parseSection pton doc name (doc.getNode v) <;> rfl

theorem get_exec_parseDocPairs (ps : List (ℕ × ℕ)) (c : Config) :
    (c.exec (parseDocPairs pton doc ps).1).get x =
      ((doc.sectionsOf ps).takeWhile ConfigSection.accepted).foldl
        (overwrite (ConfigSection.given pton x) (inPlace x)) (c.get x) := by
  induction ps generalizing c with
  | nil => rfl
  | cons p ps ih =>
      obtain ⟨k, v⟩ := p
      rw [parseDocPairs, YamlDoc.sectionsOf]
      cases doc.scalarAt k with
      | none => rfl
      | some name =>
          by_cases hv : v = 0
          · simp only [hv, if_true]
            rfl
          · simp only [hv, if_false, List.takeWhile_cons, ← isSome_parseSection pton]
            cases hs : parseSection pton doc name (doc.getNode v) with
            | none => rfl
            | some as =>
                simp only [Option.isSome_some, if_true, List.foldl_cons]
                rw [exec_append, ih, get_exec_parseSection hs]

end document

/-- The sections of a document that are read: those in front of the first that is not accepted. -/
def sectionsRead (d : Option YamlDoc) : List ConfigSection :=
  ((d.bind YamlDoc.sections).getD []).takeWhile ConfigSection.accepted

/-- All sections of the document are accepted. -/
def accepted (d : Option YamlDoc) : Bool :=
  (d.bind YamlDoc.sections).any (fun secs => secs.all ConfigSection.accepted)

/-- The values that a document gives to a variable. -/
def given (pton : CStr → Option (Vector Byte 4)) (x : ConfigVar) (d : Option YamlDoc) : List x.Value :=
  (sectionsRead d).filterMap (ConfigSection.given pton x)

/-- The assignments of a document that may be missing, and whether it is accepted. -/
def parsed (pton : CStr → Option (Vector Byte 4)) : Option YamlDoc → List Assign × Bool
  | none => ([], false)
  | some doc => parseDoc pton doc

/-- The limits, if the document is accepted. -/
def finishIf (ok : Bool) (c : Config) : Config := if ok then c.finish else c

theorem load_eq (pton : CStr → Option (Vector Byte 4)) (d : Option YamlDoc) (c : Config) :
    c.load pton d = (if (parsed pton d).2 then 0 else -1,
      finishIf (parsed pton d).2 (c.exec (parsed pton d).1)) := by
  cases d with
  | none => rfl
  | some doc =>
      by_cases hok : (parseDoc pton doc).2 = true
      · simp [load, parsed, finishIf, hok]
      · simp [load, parsed, finishIf, hok]

theorem parsed_accepted (pton : CStr → Option (Vector Byte 4)) (d : Option YamlDoc) :
    (parsed pton d).2 = accepted d := by
  cases d with
  | none => rfl
  | some doc =>
      simp only [parsed, accepted, parseDoc, Option.bind_some, YamlDoc.sections]
      rcases doc.getRootNode with _ | _ | _ | ps
      · rfl
      · rfl
      · rfl
      · exact accepted_parseDocPairs pton ps

/-- A variable after a document: the sections that are read overwrite it, one after the other. -/
theorem get_exec_parsed (d : Option YamlDoc) (c : Config) :
    (c.exec (parsed pton d).1).get x =
      (sectionsRead d).foldl (overwrite (ConfigSection.given pton x) (inPlace x)) (c.get x) := by
  cases d with
  | none => rfl
  | some doc =>
      simp only [parsed, sectionsRead, parseDoc, Option.bind_some, YamlDoc.sections]
      rcases doc.getRootNode with _ | _ | _ | ps
      · rfl
      · rfl
      · rfl
      · exact get_exec_parseDocPairs ps c

/-- A variable that is not converted has the last value that the document gives. -/
theorem get_exec_parsed_eq (hnet : x ≠ .int .mapdnsNetwork) (hmask : x ≠ .int .mapdnsNetmask)
    (d : Option YamlDoc) (c : Config) :
    (c.exec (parsed pton d).1).get x = (given pton x d).getLast?.getD (c.get x) := by
  rw [get_exec_parsed, inPlace_eq_id hnet hmask, foldl_overwrite_id, given]

theorem get_finish (c : Config) (htcp : x ≠ .int .tcpBufferSize) (hstack : x ≠ .int .taskStackSize) :
    c.finish.get x = c.get x := by
  cases x with
  | str v => rfl
  | int v => exact finish_int c (fun h => htcp (congrArg _ h)) (fun h => hstack (congrArg _ h))
  | auth => rfl

theorem get_finishIf (ok : Bool) (c : Config) (htcp : x ≠ .int .tcpBufferSize)
    (hstack : x ≠ .int .taskStackSize) : (finishIf ok c).get x = c.get x := by
  cases ok with
  | false => rfl
  | true => exact get_finish c htcp hstack

end Config

end HevTunnel
