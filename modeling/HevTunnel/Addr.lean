import HevTunnel.CString
import Mathlib.Data.List.TakeWhile

/-! # SOCKS5 addresses

`HevSocks5Addr` is a packed union over a type byte.  An `Addr` is what its meaningful bytes say:
the address and the port of the member that the type selects, with the lengths as part of the
types.

* `Addr.bytes` are those bytes as they lie in memory and go over the wire, ports in network
  order; `Addr.len` is how many there are.
* `addrLen` is `hev_socks5_addr_len`, which reads the type and the first byte behind it from
  whatever bytes are there and refuses unknown types.  On the bytes of an address it is its
  length (`addrLen_bytes`).
* `Addr.ofBytes` reads an address from memory, and gives back what `Addr.bytes` has written
  (`ofBytes_data`).
* `Sockaddr6` is the socket address that the server and the client work with. -/

namespace HevTunnel

/-- The two bytes of a port in network order. -/
def portBytes (port : UInt16) : List Byte :=
  [UInt8.ofNat (port.toNat / 256), UInt8.ofNat port.toNat]

@[simp] theorem length_portBytes (port : UInt16) : (portBytes port).length = 2 := rfl

inductive Addr where
  | ipv4 (addr : Vector Byte 4) (port : UInt16)
  | ipv6 (addr : Vector Byte 16) (port : UInt16)
  | name (domain : List Byte) (short : domain.length ≤ 255) (port : UInt16)
deriving DecidableEq

namespace Addr

/-- The bytes of the union that the type gives a meaning. -/
def bytes : Addr → List Byte
  | ipv4 addr port => 1 :: (addr.toList ++ portBytes port)
  | ipv6 addr port => 4 :: (addr.toList ++ portBytes port)
  | name domain _ port => 3 :: UInt8.ofNat domain.length :: (domain ++ portBytes port)

def len : Addr → ℕ
  | ipv4 .. => 7
  | ipv6 .. => 19
  | name domain .. => 4 + domain.length

@[simp] theorem length_bytes (a : Addr) : a.bytes.length = a.len := by
  cases a with
  | ipv4 addr port => simp [bytes, len]
  | ipv6 addr port => simp [bytes, len]
  | name domain short port =>
      simp only [bytes, len, List.length_cons, List.length_append, length_portBytes]
      omega

theorem len_ge (a : Addr) : 4 ≤ a.len := by
  cases a <;> simp [len]

/-- Is the destination given by name? -/
def IsName : Addr → Prop
  | name .. => True
  | _ => False

end Addr

/-- `hev_socks5_addr_len` from the type and the byte behind it. -/
def addrLen (atype len : Byte) : Int :=
  if atype = 1 then 7
  else if atype = 4 then 19
  else if atype = 3 then 4 + (len.toNat : Int)
  else -1

/-- The length the first two bytes of an address announce is the length of the address. -/
theorem addrLen_bytes (a : Addr) : ∃ t l rest, a.bytes = t :: l :: rest ∧ addrLen t l = a.len := by
  cases a with
  | ipv4 addr port =>
      obtain ⟨l, rest, h⟩ : ∃ l rest, addr.toList = l :: rest :=
        List.exists_cons_of_length_pos (by simp)
      exact ⟨1, l, rest ++ portBytes port, by simp [Addr.bytes, h], rfl⟩
  | ipv6 addr port =>
      obtain ⟨l, rest, h⟩ : ∃ l rest, addr.toList = l :: rest :=
        List.exists_cons_of_length_pos (by simp)
      exact ⟨4, l, rest ++ portBytes port, by simp [Addr.bytes, h], rfl⟩
  | name domain short port =>
      refine ⟨3, UInt8.ofNat domain.length, domain ++ portBytes port, rfl, ?_⟩
      have : domain.length % 256 = domain.length := by omega
      simp [addrLen, Addr.len, this]

/-! ### Reading an address -/

/-- The port in two bytes of memory. -/
def portOf (bs : List Byte) : UInt16 := UInt16.ofNat ((bs.getD 0 0).toNat * 256 + (bs.getD 1 0).toNat)

theorem portOf_portBytes (port : UInt16) : portOf (portBytes port) = port := by
  have hlt := port.toNat_lt
  apply UInt16.toNat_inj.mp
  simp only [portOf, portBytes, List.getD_cons_zero, List.getD_cons_succ, UInt16.toNat_ofNat',
    UInt8.toNat_ofNat']
  omega

/-- The two bytes of a number in network order. -/
theorem ofNat_hi_lo (hi lo : Byte) :
    UInt8.ofNat ((hi.toNat * 256 + lo.toNat) / 256) = hi ∧
      UInt8.ofNat (hi.toNat * 256 + lo.toNat) = lo := by
  have := hi.toNat_lt
  have := lo.toNat_lt
  constructor
  · apply UInt8.toNat_inj.mp
    rw [UInt8.toNat_ofNat']
    omega
  · apply UInt8.toNat_inj.mp
    rw [UInt8.toNat_ofNat']
    omega

theorem portBytes_portOf {bs : List Byte} (h : bs.length = 2) : portBytes (portOf bs) = bs := by
  obtain ⟨hi, lo, rfl⟩ := List.length_eq_two.mp h
  have := hi.toNat_lt
  have := lo.toNat_lt
  have hport : (portOf [hi, lo]).toNat = hi.toNat * 256 + lo.toNat := by
    simp only [portOf, List.getD_cons_zero, List.getD_cons_succ, UInt16.toNat_ofNat']
    omega
  rw [portBytes, hport, (ofNat_hi_lo hi lo).1, (ofNat_hi_lo hi lo).2]

namespace Addr

/-- The address of a type in the bytes behind the type, `none` if it is not there. -/
def ofBytes (atype : Byte) (data : List Byte) : Option Addr :=
  if atype = 1 then
    if h : data.length = 6 then
      some (.ipv4 ⟨(data.take 4).toArray, by simp [h]⟩ (portOf (data.drop 4)))
    else none
  else if atype = 4 then
    if h : data.length = 18 then
      some (.ipv6 ⟨(data.take 16).toArray, by simp [h]⟩ (portOf (data.drop 16)))
    else none
  else if atype = 3 then
    match data with
    | [] => none
    | len :: rest =>
        if h : rest.length = len.toNat + 2 then
          some (.name (rest.take len.toNat)
            (by have := len.toNat_lt; rw [List.length_take]; omega) (portOf (rest.drop len.toNat)))
        else none
  else none

/-- The type of an address and the bytes behind it. -/
def atype : Addr → Byte
  | ipv4 .. => 1
  | ipv6 .. => 4
  | name .. => 3

def data : Addr → List Byte
  | ipv4 addr port => addr.toList ++ portBytes port
  | ipv6 addr port => addr.toList ++ portBytes port
  | name domain _ port => UInt8.ofNat domain.length :: (domain ++ portBytes port)

theorem bytes_eq (a : Addr) : a.bytes = a.atype :: a.data := by
  cases a <;> rfl

/-- Reading an address gives back what was written. -/
theorem ofBytes_data (a : Addr) : ofBytes a.atype a.data = some a := by
  cases a with
  | ipv4 addr port => simp [ofBytes, atype, data, portOf_portBytes, Vector.toList]
  | ipv6 addr port => simp [ofBytes, atype, data, portOf_portBytes, Vector.toList]
  | name domain short port =>
      have hlen : domain.length % 256 = domain.length := by omega
      simp [ofBytes, atype, data, portOf_portBytes, hlen]

/-- Bytes that announce their own length as an address are the bytes of an address. -/
theorem ofBytes_of_addrLen {t l : Byte} {rest : List Byte}
    (h : addrLen t l = (rest.length + 2 : ℕ)) :
    ∃ a, ofBytes t (l :: rest) = some a ∧ a.bytes = t :: l :: rest := by
  unfold addrLen at h
  split_ifs at h with h1 h4 h3
  · have hlen : (l :: rest).length = 6 := by
      rw [List.length_cons]
      omega
    refine ⟨_, by rw [ofBytes, if_pos h1, dif_pos hlen], ?_⟩
    rw [bytes, portBytes_portOf (by rw [List.length_drop, hlen]), h1]
    exact congrArg _ (List.take_append_drop 4 _)
  · have hlen : (l :: rest).length = 18 := by
      rw [List.length_cons]
      omega
    refine ⟨_, by rw [ofBytes, if_neg h1, if_pos h4, dif_pos hlen], ?_⟩
    rw [bytes, portBytes_portOf (by rw [List.length_drop, hlen]), h4]
    exact congrArg _ (List.take_append_drop 16 _)
  · have hlen : rest.length = l.toNat + 2 := by omega
    refine ⟨_, by rw [ofBytes, if_neg h1, if_neg h4, if_pos h3]; exact dif_pos hlen, ?_⟩
    have htake : (rest.take l.toNat).length = l.toNat := by
      rw [List.length_take]
      omega
    rw [bytes, portBytes_portOf (by rw [List.length_drop, hlen]; omega), htake, h3,
      UInt8.ofNat_toNat, List.take_append_drop]

end Addr

/-! ### Socket addresses -/

/-- `struct sockaddr_in6` without its constant fields. -/
structure Sockaddr6 where
  addr : Vector Byte 16
  port : UInt16
deriving DecidableEq

/-- `IN6_IS_ADDR_V4MAPPED`. -/
def isV4Mapped (addr : Vector Byte 16) : Bool :=
  addr.toList.take 12 == [0, 0, 0, 0, 0, 0, 0, 0, 0, 0, 0xff, 0xff]

/-- `hev_socks5_addr_from_sockaddr6`. -/
def addrFromSockaddr6 (saddr : Sockaddr6) : Addr :=
  if isV4Mapped saddr.addr then
    .ipv4 #v[saddr.addr[12], saddr.addr[13], saddr.addr[14], saddr.addr[15]] saddr.port
  else .ipv6 saddr.addr saddr.port

/-- `hev_socks5_ipv4_into_sockaddr6` on the address. -/
def v4Mapped (addr : Vector Byte 4) : Vector Byte 16 :=
  #v[0, 0, 0, 0, 0, 0, 0, 0, 0, 0, 0xff, 0xff, addr[0], addr[1], addr[2], addr[3]]

/-- The string at the start of some bytes that are followed by a `NUL`. -/
def cstrOf (bs : List Byte) : CStr :=
  ⟨bs.takeWhile (· != 0), fun h => by simpa using List.mem_takeWhile_imp h⟩

/-- `hev_socks5_addr_into_sockaddr6`; names are resolved by `resolve`. -/
def addrIntoSockaddr6 (resolve : CStr → Option (Vector Byte 16)) : Addr → Option Sockaddr6
  | .ipv4 addr port => some ⟨v4Mapped addr, port⟩
  | .ipv6 addr port => some ⟨addr, port⟩
  | .name domain _ port => (resolve (cstrOf domain)).map (fun addr => ⟨addr, port⟩)

/-! ### Addresses of the tunnel -/

/-- An address of the stack behind the tunnel, `ip_addr_t`.  An IPv4 address is given by its value
in host order. -/
inductive IpAddr where
  | v4 (addr : BitVec 32)
  | v6 (addr : Vector Byte 16)
  | any
deriving DecidableEq

/-- The bytes of an IPv4 address in network order. -/
def ipv4Bytes (ip : BitVec 32) : Vector Byte 4 :=
  #v[UInt8.ofNat (ip.toNat / 2 ^ 24), UInt8.ofNat (ip.toNat / 2 ^ 16),
    UInt8.ofNat (ip.toNat / 2 ^ 8), UInt8.ofNat ip.toNat]

/-- The length field `hev_socks5_addr_from_name` stores.  `strncpy` copies 256 bytes at most and
then does not terminate them; `beyond` is the number of bytes that `strlen` finds in the memory
behind, before the next `NUL`. -/
def nameLen (name : CStr) (beyond : ℕ) : ℕ :=
  (if name.bytes.length < 256 then name.bytes.length else 256 + beyond) % 256

/-- `hev_socks5_addr_from_name`. -/
def addrFromName (name : CStr) (port : UInt16) (beyond : ℕ) : Addr :=
  .name (name.bytes.take (nameLen name beyond))
    (by
      have : nameLen name beyond < 256 := Nat.mod_lt _ (by decide)
      rw [List.length_take]
      omega)
    port

/-- `hev_socks5_addr_from_ipv4`. -/
def addrFromIpv4 (ip : BitVec 32) (port : UInt16) : Addr := .ipv4 (ipv4Bytes ip) port

/-- `hev_socks5_addr_from_ipv6`. -/
def addrFromIpv6 (ip : Vector Byte 16) (port : UInt16) : Addr := .ipv6 ip port

end HevTunnel
