import HevTunnel.Addr

/-! # The configuration

`hev-config.c` keeps the configuration in static variables and fills them from a YAML document.  The
input of the model is the document tree of libyaml (`YamlDoc`).

No parser of the file reads one of the variables, except for `ntohl`, which is applied to two of them
in place.  So what a section does to them is a list of assignments (`Assign`), in the order of the
source, and the parsers are functions from a document to such lists, `none` where the source returns
`-1`.  `Config.exec` makes the assignments, `Config.finish` is the end of `hev_config_parse_doc`,
where some variables are limited by others, and `Config.load` is the whole.

`inet_pton` is a parameter: the address that it reads from a string, in network order. -/

namespace HevTunnel

/-! ### The C library -/

/-- A string literal. -/
def lit (s : String) : CStr := cstrOf (s.toList.map (fun c => UInt8.ofNat c.toNat))

/-- What `strncpy` of `n` bytes leaves in a longer buffer whose last byte is `NUL`. -/
def strncpy (s : CStr) (n : ℕ) : CStr := ⟨s.bytes.take n, fun h => s.noNul (List.mem_of_mem_take h)⟩

/-- `tolower` in the C locale. -/
def tolower (b : Byte) : Byte := if 65 ≤ b ∧ b ≤ 90 then b + 32 else b

def strcasecmp (a b : CStr) : Int :=
  memcmp ((a.bytes ++ [0]).map tolower) ((b.bytes ++ [0]).map tolower)

/-- `isspace` in the C locale. -/
def isspace (b : Byte) : Bool := b = 32 ∨ (9 ≤ b ∧ b ≤ 13)

/-- The value of a digit or letter, `36` for other bytes. -/
def digit (b : Byte) : ℕ :=
  if 48 ≤ b ∧ b ≤ 57 then b.toNat - 48
  else if 97 ≤ b ∧ b ≤ 122 then b.toNat - 87
  else if 65 ≤ b ∧ b ≤ 90 then b.toNat - 55
  else 36

/-- The number that the leading digits of a base stand for. -/
def numeral (base : ℕ) (bs : List Byte) : ℕ :=
  (bs.takeWhile (fun b => digit b < base)).foldl (fun n b => n * base + digit b) 0

/-- Whether there is a minus sign, and what is behind the sign. -/
def splitSign (bs : List Byte) : Bool × List Byte :=
  if bs.head? = some 45 then (true, bs.tail)
  else if bs.head? = some 43 then (false, bs.tail)
  else (false, bs)

/-- The base, which for `0` the number itself says, and the digits. -/
def splitBase (base : ℕ) (bs : List Byte) : ℕ × List Byte :=
  if base ≠ 0 then (base, bs)
  else if bs.head? ≠ some 48 then (10, bs)
  else if (bs.getD 1 0 = 120 ∨ bs.getD 1 0 = 88) ∧ digit (bs.getD 2 0) < 16 then (16, bs.drop 2)
  else (8, bs)

/-- The sign and the number that `strtoul` and `strtol` read. -/
def readNumber (s : CStr) (base : ℕ) : Bool × ℕ :=
  let (neg, bs) := splitSign (s.bytes.dropWhile isspace)
  let (base, bs) := splitBase base bs
  (neg, numeral base bs)

/-- `strtoul` with an `unsigned long` of 64 bits, as on arm64-v8a; with the 32 bits of armeabi-v7a, which
is built too, it stops at `2 ^ 32 - 1`. -/
def strtoul (s : CStr) (base : ℕ) : ℕ :=
  let (neg, n) := readNumber s base
  if 2 ^ 64 ≤ n then 2 ^ 64 - 1
  else if neg then (2 ^ 64 - n) % 2 ^ 64
  else n

/-- `strtol` with a `long` of 64 bits, as `strtoul`. -/
def strtol (s : CStr) (base : ℕ) : Int :=
  let (neg, n) := readNumber s base
  if neg then max (-(n : Int)) (-2 ^ 63) else min (n : Int) (2 ^ 63 - 1)

/-- The value of four bytes of memory on a little-endian machine. -/
def leInt (bs : Vector Byte 4) : BitVec 32 :=
  BitVec.ofNat 32 ((bs.get 0).toNat + (bs.get 1).toNat * 2 ^ 8 + (bs.get 2).toNat * 2 ^ 16 +
    (bs.get 3).toNat * 2 ^ 24)

/-- `ntohl` on a little-endian machine. -/
def ntohl (x : BitVec 32) : BitVec 32 :=
  BitVec.ofNat 32 (x.toNat % 2 ^ 8 * 2 ^ 24 + x.toNat / 2 ^ 8 % 2 ^ 8 * 2 ^ 16 +
    x.toNat / 2 ^ 16 % 2 ^ 8 * 2 ^ 8 + x.toNat / 2 ^ 24)

/-- `ntohl` turns the bytes of a number round. -/
theorem ntohl_bytes {a b c d : ℕ} (ha : a < 256) (hb : b < 256) (hc : c < 256) (hd : d < 256) :
    ntohl (BitVec.ofNat 32 (a + b * 2 ^ 8 + c * 2 ^ 16 + d * 2 ^ 24)) =
      BitVec.ofNat 32 (d + c * 2 ^ 8 + b * 2 ^ 16 + a * 2 ^ 24) := by
  have hn : (BitVec.ofNat 32 (a + b * 2 ^ 8 + c * 2 ^ 16 + d * 2 ^ 24)).toNat =
      a + b * 2 ^ 8 + c * 2 ^ 16 + d * 2 ^ 24 := by
    rw [BitVec.toNat_ofNat]
    omega
  have h₀ : (a + b * 2 ^ 8 + c * 2 ^ 16 + d * 2 ^ 24) % 2 ^ 8 = a := by omega
  have h₁ : (a + b * 2 ^ 8 + c * 2 ^ 16 + d * 2 ^ 24) / 2 ^ 8 % 2 ^ 8 = b := by omega
  have h₂ : (a + b * 2 ^ 8 + c * 2 ^ 16 + d * 2 ^ 24) / 2 ^ 16 % 2 ^ 8 = c := by omega
  have h₃ : (a + b * 2 ^ 8 + c * 2 ^ 16 + d * 2 ^ 24) / 2 ^ 24 = d := by omega
  rw [ntohl, hn, h₀, h₁, h₂, h₃]
  congr 1
  omega

theorem ntohl_ntohl (x : BitVec 32) : ntohl (ntohl x) = x := by
  obtain ⟨a, b, c, d, ha, hb, hc, hd, rfl⟩ : ∃ a b c d, a < 256 ∧ b < 256 ∧ c < 256 ∧ d < 256 ∧
      x = BitVec.ofNat 32 (a + b * 2 ^ 8 + c * 2 ^ 16 + d * 2 ^ 24) := by
    have hlt := x.isLt
    refine ⟨x.toNat % 256, x.toNat / 256 % 256, x.toNat / 65536 % 256, x.toNat / 16777216,
      by omega, by omega, by omega, by omega, ?_⟩
    apply BitVec.eq_of_toNat_eq
    rw [BitVec.toNat_ofNat]
    omega
  rw [ntohl_bytes ha hb hc hd, ntohl_bytes hd hc hb ha]

/-! ### Documents -/

/-- `yaml_node_t`.  The pairs of a mapping are indices of nodes, counted from `1`. -/
inductive YamlNode where
  | scalar (value : CStr)
  | sequence
  | mapping (pairs : List (ℕ × ℕ))
deriving DecidableEq

/-- `yaml_document_t`. -/
structure YamlDoc where
  nodes : List YamlNode
deriving DecidableEq

namespace YamlDoc

/-- `yaml_document_get_node`. -/
def getNode (doc : YamlDoc) (i : ℕ) : Option YamlNode := if i = 0 then none else doc.nodes[i - 1]?

/-- `yaml_document_get_root_node`. -/
def getRootNode (doc : YamlDoc) : Option YamlNode := doc.nodes.head?

/-- The value of a scalar node. -/
def scalarAt (doc : YamlDoc) (i : ℕ) : Option CStr :=
  match doc.getNode i with
  | some (.scalar value) => some value
  | _ => none

/-- The keys and values that the loops over a mapping of scalars see.  They end at the first pair
with another node. -/
def scalarPairs (doc : YamlDoc) : List (ℕ × ℕ) → List (CStr × CStr)
  | [] => []
  | (k, v) :: ps =>
      match doc.scalarAt k, doc.scalarAt v with
      | some key, some value => (key, value) :: doc.scalarPairs ps
      | _, _ => []

/-- The pairs of a section, `none` if it is not a mapping. -/
def sectionPairs (doc : YamlDoc) : Option YamlNode → Option (List (CStr × CStr))
  | some (.mapping pairs) => some (doc.scalarPairs pairs)
  | _ => none

end YamlDoc

/-! ### The variables -/

/-- The character arrays. -/
inductive StrVar where
  | tunName
  | tunIpv4Address
  | tunIpv6Address
  | tunPostUpScript
  | tunPreDownScript
  | srvUdpAddr
  | srvAddr
  | logFile
  | pidFile
deriving DecidableEq

/-- The numbers. -/
inductive IntVar where
  | tunMtu
  | multiQueue
  | srvMark
  | srvUdpInUdp
  | srvPort
  | srvPipeline
  | mapdnsAddress
  | mapdnsPort
  | mapdnsNetwork
  | mapdnsNetmask
  | mapdnsCacheSize
  | maxSessionCount
  | taskStackSize
  | tcpBufferSize
  | udpRecvBufferSize
  | udpCopyBufferNums
  | connectTimeout
  | tcpReadWriteTimeout
  | udpReadWriteTimeout
  | limitNofile
  | logLevel
deriving DecidableEq

/-- The static variables of `hev-config.c`.  `auth` is what `srv.user` and `srv.pass` point to, `none`
while they are `NULL`. -/
structure Config where
  str : StrVar → CStr
  int : IntVar → BitVec 32
  auth : Option (CStr × CStr)

/-- An assignment to one of the variables. -/
inductive Assign where
  | str (v : StrVar) (s : CStr)
  | int (v : IntVar) (n : BitVec 32)
  /-- `srv.user` and `srv.pass`, with the arrays that they point to. -/
  | auth (user pass : CStr)
  /-- `mapdns_network` and `mapdns_netmask` become `ntohl` of themselves. -/
  | ntohl

namespace Config

/-- The variables of a fresh process. -/
def fresh : Config where
  str := fun _ => lit ""
  int := fun v =>
    match v with
    | .tunMtu => 8500
    | .taskStackSize => 86016
    | .tcpBufferSize => 65536
    | .udpRecvBufferSize => 524288
    | .udpCopyBufferNums => 10
    | .connectTimeout => 10000
    | .tcpReadWriteTimeout => 300000
    | .udpReadWriteTimeout => 60000
    | .limitNofile => 65535
    | .logLevel => 2
    | _ => 0
  auth := none

def assign (c : Config) : Assign → Config
  | .str v s => { c with str := fun w => if w = v then s else c.str w }
  | .int v n => { c with int := fun w => if w = v then n else c.int w }
  | .auth user pass => { c with auth := some (user, pass) }
  | .ntohl => { c with int := fun w =>
      if w = .mapdnsNetwork ∨ w = .mapdnsNetmask then HevTunnel.ntohl (c.int w) else c.int w }

/-- The assignments, one after the other. -/
def exec (as : List Assign) (c : Config) : Config := as.foldl assign c

end Config

/-! ### The sections -/

section parsers
variable (pton : CStr → Option (Vector Byte 4)) (doc : YamlDoc)

/-- `hev_config_parse_tunnel_ipv4` and `hev_config_parse_tunnel_ipv6`, which differ in the array and
in its size. -/
def parseTunnelAddress (v : StrVar) (size : ℕ) (base : Option YamlNode) : Option (List Assign) := do
  let pairs ← doc.sectionPairs base
  pure (pairs.flatMap (fun (key, value) =>
    if key = lit "address" then [.str v (strncpy value (size - 1))] else []))

/-- `hev_config_parse_tunnel_ipv4`. -/
def parseTunnelIpv4 (base : Option YamlNode) : Option (List Assign) :=
  parseTunnelAddress doc .tunIpv4Address 16 base

/-- `hev_config_parse_tunnel_ipv6`. -/
def parseTunnelIpv6 (base : Option YamlNode) : Option (List Assign) :=
  parseTunnelAddress doc .tunIpv6Address 64 base

/-- A pair of the tunnel section with a scalar. -/
def tunnelScalar (key value : CStr) : List Assign :=
  if key = lit "name" then [.str .tunName (strncpy value (64 - 1))]
  else if key = lit "mtu" then [.int .tunMtu (BitVec.ofNat 32 (strtoul value 10))]
  else if key = lit "multi-queue" then
    [.int .multiQueue (BitVec.ofInt 32 (strcasecmp value (lit "false")))]
  else if key = lit "ipv4" then [.str .tunIpv4Address (strncpy value (16 - 1))]
  else if key = lit "ipv6" then [.str .tunIpv6Address (strncpy value (64 - 1))]
  else if key = lit "post-up-script" then [.str .tunPostUpScript (strncpy value (64 - 1))]
  else if key = lit "pre-down-script" then [.str .tunPreDownScript (strncpy value (64 - 1))]
  else []

/-- A pair of the tunnel section with another node.  The results of the two parsers are ignored. -/
def tunnelNode (key : CStr) (node : YamlNode) : List Assign :=
  if key = lit "ipv4" then (parseTunnelIpv4 doc (some node)).getD []
  else if key = lit "ipv6" then (parseTunnelIpv6 doc (some node)).getD []
  else []

/-- The loop of `hev_config_parse_tunnel`. -/
def parseTunnelPairs : List (ℕ × ℕ) → List Assign
  | [] => []
  | (k, v) :: ps =>
      match doc.scalarAt k, doc.getNode v with
      | some key, some (.scalar value) => tunnelScalar key value ++ parseTunnelPairs ps
      | some key, some node => tunnelNode doc key node ++ parseTunnelPairs ps
      | _, _ => []

/-- `hev_config_parse_tunnel`. -/
def parseTunnel : Option YamlNode → Option (List Assign)
  | some (.mapping pairs) => some (parseTunnelPairs doc pairs)
  | _ => none

/-- The values that `hev_config_parse_socks5` finds, `none` for `NULL`. -/
structure Socks5Values where
  addr : Option CStr := none
  port : Option CStr := none
  udpm : Option CStr := none
  udpa : Option CStr := none
  user : Option CStr := none
  pass : Option CStr := none
  mark : Option CStr := none
  pipe : Option CStr := none

/-- A pair of the SOCKS5 section. -/
def Socks5Values.pair (v : Socks5Values) (p : CStr × CStr) : Socks5Values :=
  if p.1 = lit "port" then { v with port := p.2 }
  else if p.1 = lit "address" then { v with addr := p.2 }
  else if p.1 = lit "udp" then { v with udpm := p.2 }
  else if p.1 = lit "udp-address" then { v with udpa := p.2 }
  else if p.1 = lit "pipeline" then { v with pipe := p.2 }
  else if p.1 = lit "username" then { v with user := p.2 }
  else if p.1 = lit "password" then { v with pass := p.2 }
  else if p.1 = lit "mark" then { v with mark := p.2 }
  else v

/-- The assignments of `hev_config_parse_socks5`, once the values are there. -/
def Socks5Values.assigns (v : Socks5Values) (addr port : CStr) : List Assign :=
  [.str .srvAddr (strncpy addr (256 - 1)), .int .srvPort (BitVec.ofNat 32 (strtoul port 10 % 2 ^ 16))] ++
  (match v.pipe with
    | some pipe => if strcasecmp pipe (lit "true") = 0 then [.int .srvPipeline 1] else []
    | none => []) ++
  (match v.udpm with
    | some udpm => if strcasecmp udpm (lit "udp") = 0 then [.int .srvUdpInUdp 1] else []
    | none => []) ++
  (match v.udpa with
    | some udpa => [.str .srvUdpAddr (strncpy udpa (256 - 1))]
    | none => []) ++
  (match v.user, v.pass with
    | some user, some pass => [.auth (strncpy user (256 - 1)) (strncpy pass (256 - 1))]
    | _, _ => []) ++
  (match v.mark with
    | some mark => [.int .srvMark (BitVec.ofNat 32 (strtoul mark 0))]
    | none => [])

/-- `hev_config_parse_socks5`. -/
def parseSocks5 (base : Option YamlNode) : Option (List Assign) := do
  let pairs ← doc.sectionPairs base
  let v := pairs.foldl Socks5Values.pair {}
  let port ← v.port
  let addr ← v.addr
  if v.user.isSome ≠ v.pass.isSome then none
  else pure (v.assigns addr port)

/-- `inet_pton` into a variable, which it leaves alone if the address is not valid. -/
def ptonAssign (v : IntVar) (value : CStr) : List Assign :=
  match pton value with
  | some addr => [.int v (leInt addr)]
  | none => []

/-- A pair of the mapped DNS section. -/
def mapdnsPair (key value : CStr) : List Assign :=
  if key = lit "address" then ptonAssign pton .mapdnsAddress value
  else if key = lit "port" then [.int .mapdnsPort (BitVec.ofNat 32 (strtoul value 10))]
  else if key = lit "network" then ptonAssign pton .mapdnsNetwork value
  else if key = lit "netmask" then ptonAssign pton .mapdnsNetmask value
  else if key = lit "cache-size" then [.int .mapdnsCacheSize (BitVec.ofNat 32 (strtoul value 10))]
  else []

/-- `hev_config_parse_mapdns`. -/
def parseMapdns (base : Option YamlNode) : Option (List Assign) := do
  let pairs ← doc.sectionPairs base
  pure (pairs.flatMap (fun (key, value) => mapdnsPair pton key value) ++ [.ntohl])

/-- `hev_config_parse_log_level`. -/
def parseLogLevel (value : CStr) : BitVec 32 :=
  if value = lit "debug" then 0
  else if value = lit "info" then 1
  else if value = lit "error" then 3
  else 2

/-- A pair of the miscellaneous section, without the timeouts for reading and writing. -/
def miscPair (key value : CStr) : List Assign :=
  if key = lit "task-stack-size" then [.int .taskStackSize (BitVec.ofNat 32 (strtoul value 10))]
  else if key = lit "tcp-buffer-size" then [.int .tcpBufferSize (BitVec.ofNat 32 (strtoul value 10))]
  else if key = lit "udp-recv-buffer-size" then
    [.int .udpRecvBufferSize (BitVec.ofNat 32 (strtoul value 10))]
  else if key = lit "udp-copy-buffer-nums" then
    [.int .udpCopyBufferNums (BitVec.ofNat 32 (strtoul value 10))]
  else if key = lit "max-session-count" then
    [.int .maxSessionCount (BitVec.ofNat 32 (strtoul value 10))]
  else if key = lit "connect-timeout" then [.int .connectTimeout (BitVec.ofNat 32 (strtoul value 10))]
  else if key = lit "pid-file" then [.str .pidFile (strncpy value (1024 - 1))]
  else if key = lit "log-file" then [.str .logFile (strncpy value (1024 - 1))]
  else if key = lit "log-level" then [.int .logLevel (parseLogLevel value)]
  else if key = lit "limit-nofile" then [.int .limitNofile (BitVec.ofInt 32 (strtol value 10))]
  else []

/-- The local variables of `hev_config_parse_misc`. -/
structure MiscTimeouts where
  tcp : BitVec 32 := -1
  udp : BitVec 32 := -1
  rw : BitVec 32 := -1

/-- A pair of the miscellaneous section with a timeout for reading and writing. -/
def MiscTimeouts.pair (t : MiscTimeouts) (p : CStr × CStr) : MiscTimeouts :=
  if p.1 = lit "read-write-timeout" then { t with rw := BitVec.ofNat 32 (strtoul p.2 10) }
  else if p.1 = lit "tcp-read-write-timeout" then { t with tcp := BitVec.ofNat 32 (strtoul p.2 10) }
  else if p.1 = lit "udp-read-write-timeout" then { t with udp := BitVec.ofNat 32 (strtoul p.2 10) }
  else t

/-- The end of `hev_config_parse_misc`. -/
def MiscTimeouts.assigns (t : MiscTimeouts) : List Assign :=
  let tcp := if t.tcp.toInt ≤ 0 then t.rw else t.tcp
  let udp := if t.udp.toInt ≤ 0 then t.rw else t.udp
  (if tcp.toInt > 0 then [.int .tcpReadWriteTimeout tcp] else []) ++
  (if udp.toInt > 0 then [.int .udpReadWriteTimeout udp] else [])

/-- `hev_config_parse_misc`. -/
def parseMisc (base : Option YamlNode) : Option (List Assign) := do
  let pairs ← doc.sectionPairs base
  pure (pairs.flatMap (fun (key, value) => miscPair key value) ++
    (pairs.foldl MiscTimeouts.pair {}).assigns)

/-! ### The document -/

/-- The parser of a section, by its key. -/
def parseSection (key : CStr) (node : Option YamlNode) : Option (List Assign) :=
  if key = lit "tunnel" then parseTunnel doc node
  else if key = lit "socks5" then parseSocks5 doc node
  else if key = lit "mapdns" then parseMapdns pton doc node
  else if key = lit "misc" then parseMisc doc node
  else some []

/-- The loop of `hev_config_parse_doc`: the assignments, and whether all sections were accepted. -/
def parseDocPairs : List (ℕ × ℕ) → List Assign × Bool
  | [] => ([], true)
  | (k, v) :: ps =>
      match doc.scalarAt k with
      | none => ([], true)
      | some key =>
          if v = 0 then ([], true)
          else
            match parseSection pton doc key (doc.getNode v) with
            | none => ([], false)
            | some as =>
                let (rest, ok) := parseDocPairs ps
                (as ++ rest, ok)

/-- `hev_config_parse_doc` up to the limits. -/
def parseDoc : List Assign × Bool :=
  match doc.getRootNode with
  | some (.mapping pairs) => parseDocPairs pton doc pairs
  | _ => ([], false)

end parsers

/-- `TCP_SND_BUF`. -/
def Config.tcpSndBuf : BitVec 32 := 65528

/-- `min_task_stack_size`: room for the buffers on the stack of a task. -/
def minTaskStackSize (tcpBufferSize udpCopyBufferNums : BitVec 32) : BitVec 32 :=
  let udpBufferSize := 1500 * udpCopyBufferNums
  if tcpBufferSize.toInt > udpBufferSize.toInt then 20480 + tcpBufferSize
  else 20480 + udpBufferSize

namespace Config

/-- `tcp_buffer_size` at the end of `hev_config_parse_doc`. -/
def limitTcp (n : BitVec 32) : BitVec 32 := if n.toInt > tcpSndBuf.toInt then tcpSndBuf else n

/-- The end of `hev_config_parse_doc`. -/
def finish (c : Config) : Config :=
  let tcp := limitTcp (c.int .tcpBufferSize)
  let minStack := minTaskStackSize tcp (c.int .udpCopyBufferNums)
  let stack := c.int .taskStackSize
  (c.assign (.int .tcpBufferSize tcp)).assign
    (.int .taskStackSize (if stack.toInt < minStack.toInt then minStack else stack))

theorem finish_int (c : Config) {v : IntVar} (htcp : v ≠ .tcpBufferSize) (hstack : v ≠ .taskStackSize) :
    c.finish.int v = c.int v := by
  simp only [finish, assign, if_neg htcp, if_neg hstack]

/-- `hev_config_init_from_file` and `hev_config_init_from_str`; without a document the file could not
be opened, or the parser has refused it. -/
def load (pton : CStr → Option (Vector Byte 4)) (doc : Option YamlDoc) (c : Config) : Int × Config :=
  match doc with
  | none => (-1, c)
  | some doc =>
      let (as, ok) := parseDoc pton doc
      if ok then (0, (c.exec as).finish) else (-1, c.exec as)

/-! ### What the getters return -/

end Config

end HevTunnel
