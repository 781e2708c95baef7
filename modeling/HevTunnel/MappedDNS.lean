import HevTunnel.CString
import HevTunnel.RBTree

/-! # The mapped DNS cache

`hev-mapped-dns.c` answers an A query for a name with an address of a private network and
remembers the name under the host part of that address.  The cache keeps its nodes in three
structures at once: a red-black tree by name, a list by recency (oldest first) and an array by
index.

* Nodes live in `heap`; the tree, the list and the array hold pointers to them, so that the
  same node can be found in all three.  Allocation takes the next unused pointer.
* A result `none` of an operation is a memory fault: a `NULL` or freed pointer that is
  dereferenced, or an index outside `records`.
* `Alloc` is the outcome of `hev_mapped_dns_node_alloc`.  It checks `hev_malloc0` but not
  `strdup`, so a node may be left without a name.

`handle` works on the request in memory.  Nothing bounds its first reads by `qlen`, so memory
beyond the request is part of the input. -/

namespace HevTunnel

/-- A pointer to a heap node. -/
abbrev Ptr := ℕ

/-- `HevMappedDNSNode` without its links; `name` is `none` for a `NULL` pointer. -/
structure DNSNode where
  name : Option CStr
  idx : ℕ
deriving DecidableEq

/-- The outcome of `hev_mapped_dns_node_alloc`. -/
inductive Alloc where
  | ok
  | noNode
  | noName
deriving DecidableEq, Repr

/-- `HevMappedDNS` together with the nodes it owns. -/
structure MappedDNS where
  use : ℕ
  max : Int
  net : BitVec 32
  mask : BitVec 32
  list : List Ptr
  tree : RBTree Ptr
  records : List (Option Ptr)
  heap : Ptr → Option DNSNode
  /-- The next unused pointer. -/
  brk : Ptr

namespace MappedDNS

/-- `hev_mapped_dns_new` with `hev_mapped_dns_construct`: `none` when the cache is larger than
the host part of the mask allows. -/
def construct (net mask : BitVec 32) (max : Int) : Option MappedDNS :=
  if max > (~~~mask).toInt then none
  else some {
    use := 0
    max := max
    net := net
    mask := mask
    list := []
    tree := .nil
    records := List.replicate max.toNat none
    heap := fun _ => none
    brk := 0 }

/-- `hev_list_del` and `hev_list_add_tail` of one node. -/
def touch (self : MappedDNS) (p : Ptr) : MappedDNS :=
  { self with list := self.list.erase p ++ [p] }

/-- `strcmp (node->name, name)`. -/
def compare (self : MappedDNS) (name : CStr) (p : Ptr) : Option Int := do
  let node ← self.heap p
  let nname ← node.name
  pure (strcmp nname name)

/-- `node_alloc`, `hev_rbtree_node_link`, `hev_rbtree_insert_color` and `hev_list_add_tail`. -/
def insert (self : MappedDNS) (slot : RBTree.Path Ptr) (name : Option CStr) : Option MappedDNS := do
  let tree ← RBTree.link self.brk slot
  pure { self with
    tree := tree
    list := self.list ++ [self.brk]
    heap := fun p => if p = self.brk then some ⟨name, 0⟩ else self.heap p
    brk := self.brk + 1 }

/-- The index for the new node: the next unused one, or that of the least recent node, which
is erased and freed. -/
def takeIndex (self : MappedDNS) : Option (MappedDNS × ℕ) :=
  if (self.use : Int) < self.max then some ({ self with use := self.use + 1 }, self.use)
  else do
    let nl ← self.list.head?
    let nf ← self.heap nl
    let tree ← self.tree.erase (· == nl)
    pure ({ self with
      tree := tree
      list := self.list.erase nl
      heap := fun p => if p = nl then none else self.heap p }, nf.idx)

/-- `self->records[idx] = node; node->idx = idx`. -/
def store (self : MappedDNS) (p : Ptr) (idx : ℕ) : Option MappedDNS :=
  if idx < self.records.length then do
    let node ← self.heap p
    pure { self with
      records := self.records.set idx (some p)
      heap := fun q => if q = p then some { node with idx := idx } else self.heap q }
  else none

/-- `hev_mapped_dns_find` from the allocated node on. -/
def addNode (self : MappedDNS) (slot : RBTree.Path Ptr) (name : Option CStr) :
    Option (MappedDNS × Int) := do
  let self₁ ← self.insert slot name
  let (self₂, idx) ← self₁.takeIndex
  let self₃ ← self₂.store self.brk idx
  pure (self₃, (idx : Int))

/-- `hev_mapped_dns_find`. -/
def find (self : MappedDNS) (name : CStr) (alloc : Alloc) : Option (MappedDNS × Int) := do
  let (hit, slot) ← self.tree.descend (self.compare name) []
  match hit with
  | some p => do
      let node ← self.heap p
      pure (self.touch p, (node.idx : Int))
  | none =>
      if alloc = .noNode then pure (self, -1)
      else self.addNode slot (if alloc = .ok then some name else none)

/-- The index an address asks for. -/
def hostIndex (self : MappedDNS) (ip : BitVec 32) : Int := (ip &&& ~~~self.mask).toInt

/-- `hev_mapped_dns_lookup`. -/
def lookup (self : MappedDNS) (ip : BitVec 32) : Option (MappedDNS × Option CStr) :=
  let idx := self.hostIndex ip
  if self.max ≤ idx then some (self, none)
  else if idx < 0 then none
  else
    match self.records[idx.toNat]? with
    | none => none
    | some none => some (self, none)
    | some (some p) => do
        let node ← self.heap p
        pure (self.touch p, node.name)

/-! ### The message handler -/

/-- `read_u16`. -/
def readU16 (m : Mem) (i : ℕ) : ℕ := (m i).toNat * 256 + (m (i + 1)).toNat

/-- `write_u16`. -/
def writeU16 (m : Mem) (i v : ℕ) : Mem :=
  (m.write i (UInt8.ofNat (v / 256))).write (i + 1) (UInt8.ofNat v)

/-- `write_u32`. -/
def writeU32 (m : Mem) (i v : ℕ) : Mem :=
  writeU16 (writeU16 m i (v / 65536)) (i + 2) v

/-- The label loop of `hev_mapped_dns_handle`: every length byte becomes a dot, and the answer
is the offset of the closing zero.  Each round moves the offset forward and goes on only below
`qlen`, so `qlen + 1` rounds are enough. -/
def skipName (qlen : ℕ) : ℕ → Mem → ℕ → Mem × Option ℕ
  | 0, rb, _ => (rb, none)
  | n + 1, rb, off =>
      if rb off = 0 then (rb, some off)
      else
        let next := off + (1 + (rb off).toNat)
        if qlen ≤ next then (rb, none)
        else skipName qlen n (rb.write off 46) next

/-- The string a question's name is looked up as. -/
def questionName (rb : Mem) (ipo qlen : ℕ) : CStr :=
  ⟨cstrAt rb (ipo + 1) qlen, zero_notMem_cstrAt rb (ipo + 1) qlen⟩

/-- The question loop, with `n` questions left.  `out` collects the offset of the name and the
address for each answer; the last component is `none` when the message is refused. -/
def questions (qlen : ℕ) (alloc : ℕ → Alloc) :
    ℕ → MappedDNS → Mem → ℕ → List (ℕ × BitVec 32) →
      Option (MappedDNS × Mem × Option (ℕ × List (ℕ × BitVec 32)))
  | 0, self, rb, off, out => some (self, rb, some (off, out))
  | n + 1, self, rb, ipo, out =>
      match skipName qlen (qlen + 1) rb ipo with
      | (rb, none) => some (self, rb, none)
      | (rb, some stop) =>
          let off := stop + 1
          if qlen ≤ off + 3 then some (self, rb, none)
          else if readU16 rb off = 1 ∧ readU16 rb (off + 2) = 1 then do
            let (self, idx) ← self.find (questionName rb ipo qlen) (alloc n)
            questions qlen alloc n self rb (off + 4)
              (if 0 ≤ idx then out ++ [(ipo, self.net ||| BitVec.ofInt 32 idx)] else out)
          else questions qlen alloc n self rb (off + 4) out

/-- The answer loop: the response and the offset behind it, unless it outgrows `slen`. -/
def answers (slen : ℕ) : List (ℕ × BitVec 32) → Mem → ℕ → Option (Mem × ℕ)
  | [], sb, off => some (sb, off)
  | (ipo, ip) :: rest, sb, off =>
      if slen ≤ off + 15 then none
      else
        let sb := (sb.write off 0xc0).write (off + 1) (UInt8.ofNat ipo)
        let sb := writeU32 (writeU16 (writeU16 sb (off + 2) 1) (off + 4) 1) (off + 6) 1
        let sb := writeU32 (writeU16 sb (off + 10) 4) (off + 12) ip.toNat
        answers slen rest sb (off + 16)

/-- What a call of `hev_mapped_dns_handle` leaves behind: the cache, the edited request, and
the response with its length. -/
structure Handled where
  self : MappedDNS
  req : Mem
  res : Option (Mem × ℕ)

/-- The flags of the response: `QR`, and `RA` when the request has `RD`. -/
def responseFlags (fl : ℕ) : ℕ := fl ||| 0x8000 ||| ((fl &&& 0x100) >>> 1)

/-- `hev_mapped_dns_handle`; the result `-1` is a response `none`.  The source also converts the number of
questions in place, in bytes 4 and 5 of the request; here the request keeps them. -/
def handle (self : MappedDNS) (req : Mem) (qlen : ℕ) (res : Mem) (slen : ℕ) (alloc : ℕ → Alloc) :
    Option Handled :=
  if slen < qlen then some ⟨self, req, none⟩
  else
    let sb : Mem := fun i => if i < qlen then req i else res i
    let fl := readU16 sb 2
    let sb := writeU16 (writeU16 sb 8 0) 10 0
    let qd := readU16 req 4
    if 32 < qd then some ⟨self, req, none⟩
    else do
      let (self, rb, r) ← questions qlen alloc qd self req 12 []
      match r with
      | none => pure ⟨self, rb, none⟩
      | some (off, out) =>
          match answers slen out sb off with
          | none => pure ⟨self, rb, none⟩
          | some (sb, off) =>
              let sb := writeU16 sb 2 (responseFlags fl)
              pure ⟨self, rb, some (writeU16 sb 6 out.length, off)⟩

end MappedDNS

end HevTunnel
