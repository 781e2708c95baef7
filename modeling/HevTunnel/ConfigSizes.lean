import HevTunnel.ConfigHistory

/-! # The sizes of a configuration

At the end of `hev_config_parse_doc` the size of the TCP buffer is limited from above, and the stack of
a task is made large enough for the buffers that are put on it, with some room for the rest.  The
numbers come from `strtoul` and are `int`s, so they can be negative, zero or so large that the
computation overflows.  Next to its buffers `hev_socks5_session_udp_fwd_b` has an array of messages, for
which the room is not enough if there are many of them.

`Config.sizesSound_iff` says for which numbers of a document the sizes are sound. -/

namespace HevTunnel

namespace Config

/-! ### The sizes -/

/-- The values of an `int`. -/
def IsInt (n : Int) : Prop := -2 ^ 31 ≤ n ∧ n < 2 ^ 31

/-- What `hev_ring_buffer_alloca` takes from the stack in `hev_socks5_session_tcp_splice`.  The size
becomes a `size_t`, and `40` is the size of the header. -/
def spliceBuffer (c : Config) : ℕ := ((40 + (c.int .tcpBufferSize).toInt) % 2 ^ 64).toNat

/-- The sizes of `buf` and `msgv` in `hev_socks5_session_udp_fwd_b`.  That of `buf` is computed as an
`unsigned int`, and `24` is the size of a `HevSocks5UDPMsg` with pointers of 64 bits. -/
def fwdBuffer (c : Config) : ℕ :=
  1500 * (c.int .udpCopyBufferNums).toNat % 2 ^ 32 + 24 * (c.int .udpCopyBufferNums).toNat

/-- The sizes are positive and limited, the stack has room for the buffers, and no `int` computation
overflows. -/
structure SizesSound (c : Config) : Prop where
  tcp_pos : 0 < (c.int .tcpBufferSize).toInt
  tcp_le : (c.int .tcpBufferSize).toInt ≤ tcpSndBuf.toInt
  nums_pos : 0 < (c.int .udpCopyBufferNums).toInt
  stack_tcp : 20480 + (c.int .tcpBufferSize).toInt ≤ (c.int .taskStackSize).toInt
  stack_udp : 20480 + 1500 * (c.int .udpCopyBufferNums).toInt ≤ (c.int .taskStackSize).toInt
  splice : (c.spliceBuffer : Int) ≤ (c.int .taskStackSize).toInt
  fwd : (c.fwdBuffer : Int) ≤ (c.int .taskStackSize).toInt
  product : IsInt (1500 * (c.int .udpCopyBufferNums).toInt)
  sum : IsInt (20480 + max (c.int .tcpBufferSize).toInt (1500 * (c.int .udpCopyBufferNums).toInt))

theorem toInt_limitTcp (n : BitVec 32) : (limitTcp n).toInt = min n.toInt 65528 := by
  have h : tcpSndBuf.toInt = 65528 := by decide
  unfold limitTcp
  split_ifs with hn
  · omega
  · omega

theorem toInt_add_of_isInt {x y : BitVec 32} (h : IsInt (x.toInt + y.toInt)) :
    (x + y).toInt = x.toInt + y.toInt := by
  obtain ⟨h₁, h₂⟩ := h
  rw [BitVec.toInt_add]
  exact Int.bmod_eq_of_le (by omega) (by omega)

theorem toInt_mul_of_isInt {x y : BitVec 32} (h : IsInt (x.toInt * y.toInt)) :
    (x * y).toInt = x.toInt * y.toInt := by
  obtain ⟨h₁, h₂⟩ := h
  rw [BitVec.toInt_mul]
  exact Int.bmod_eq_of_le (by omega) (by omega)

/-- Without an overflow the least stack has room for the larger buffer. -/
theorem toInt_minTaskStackSize {tcp nums : BitVec 32} (hproduct : IsInt (1500 * nums.toInt))
    (hsum : IsInt (20480 + max tcp.toInt (1500 * nums.toInt))) :
    (minTaskStackSize tcp nums).toInt = 20480 + max tcp.toInt (1500 * nums.toInt) := by
  have h1500 : (1500 : BitVec 32).toInt = 1500 := by decide
  have h20480 : (20480 : BitVec 32).toInt = 20480 := by decide
  have hmul : (1500 * nums).toInt = 1500 * nums.toInt := by
    rw [toInt_mul_of_isInt (by rwa [h1500]), h1500]
  unfold minTaskStackSize
  simp only [hmul]
  split_ifs with hlt
  · rw [max_eq_left (by omega)] at hsum ⊢
    rw [toInt_add_of_isInt (by rwa [h20480]), h20480]
  · rw [max_eq_right (by omega)] at hsum ⊢
    rw [toInt_add_of_isInt (by rwa [h20480, hmul]), h20480, hmul]

theorem toInt_finish_stack (c : Config) :
    (c.finish.int .taskStackSize).toInt = max (c.int .taskStackSize).toInt c.minStack.toInt := by
  rw [finish_stack]
  unfold limitStack
  split_ifs <;> omega

/-- The least stack, unless there are so many buffers that its size overflows. -/
theorem toInt_minStack {c : Config} (hpos : 0 < (c.int .udpCopyBufferNums).toInt)
    (hle : (c.int .udpCopyBufferNums).toInt ≤ 1431642) :
    IsInt (1500 * (c.int .udpCopyBufferNums).toInt) ∧
      IsInt (20480 + max (limitTcp (c.int .tcpBufferSize)).toInt
        (1500 * (c.int .udpCopyBufferNums).toInt)) ∧
      c.minStack.toInt = 20480 + max (min (c.int .tcpBufferSize).toInt 65528)
        (1500 * (c.int .udpCopyBufferNums).toInt) := by
  have hproduct : IsInt (1500 * (c.int .udpCopyBufferNums).toInt) := by
    constructor <;> omega
  have hsum : IsInt (20480 + max (limitTcp (c.int .tcpBufferSize)).toInt
      (1500 * (c.int .udpCopyBufferNums).toInt)) := by
    rw [toInt_limitTcp]
    constructor <;> omega
  refine ⟨hproduct, hsum, ?_⟩
  rw [minStack, toInt_minTaskStackSize hproduct hsum, toInt_limitTcp]

theorem fwdBuffer_eq {c : Config} (hpos : 0 < (c.int .udpCopyBufferNums).toInt)
    (hle : (c.int .udpCopyBufferNums).toInt ≤ 1431642) :
    (c.fwdBuffer : Int) = 1524 * (c.int .udpCopyBufferNums).toInt := by
  have hnat : ((c.int .udpCopyBufferNums).toNat : Int) = (c.int .udpCopyBufferNums).toInt := by
    have hcond := BitVec.toInt_eq_toNat_cond (c.int .udpCopyBufferNums)
    split_ifs at hcond <;> omega
  rw [fwdBuffer, Nat.mod_eq_of_lt (by omega)]
  omega

/-- The sizes at the end of `hev_config_parse_doc`, for the numbers before. -/
theorem sizesSound_finish_iff (c : Config) :
    c.finish.SizesSound ↔ 0 < c.sizes.tcpBufferSize.toInt ∧ 0 < c.sizes.udpCopyBufferNums.toInt ∧
      (c.sizes.udpCopyBufferNums.toInt ≤ 853 ∨
        1524 * c.sizes.udpCopyBufferNums.toInt ≤ c.sizes.taskStackSize.toInt) := by
  simp only [sizes]
  have htcp : (c.finish.int .tcpBufferSize).toInt = min (c.int .tcpBufferSize).toInt 65528 := by
    rw [finish_tcp, toInt_limitTcp]
  have hnums : c.finish.int .udpCopyBufferNums = c.int .udpCopyBufferNums :=
    finish_int c (by decide) (by decide)
  have hstack := c.toInt_finish_stack
  have hlt := BitVec.toInt_lt (x := c.finish.int .taskStackSize)
  constructor
  · intro h
    have hpos := h.tcp_pos
    have hpos' := h.nums_pos
    have hudp := h.stack_udp
    have hfwd := h.fwd
    rw [htcp] at hpos
    rw [fwdBuffer_eq hpos' (by omega)] at hfwd
    rw [hnums] at hpos' hudp hfwd
    obtain ⟨-, -, hmin⟩ := toInt_minStack hpos' (by omega)
    refine ⟨by omega, hpos', ?_⟩
    omega
  · rintro ⟨hpos, hpos', hroom⟩
    have hstacklt := BitVec.toInt_lt (x := c.int .taskStackSize)
    obtain ⟨hproduct, hsum, hmin⟩ := toInt_minStack hpos' (by omega)
    have hfwd : (c.finish.fwdBuffer : Int) = 1524 * (c.int .udpCopyBufferNums).toInt := by
      rw [← hnums] at hpos' hroom ⊢
      exact fwdBuffer_eq hpos' (by omega)
    refine ⟨?_, ?_, ?_, ?_, ?_, ?_, ?_, ?_, ?_⟩
    · omega
    · rw [htcp]
      exact min_le_right _ _
    · rw [hnums]
      exact hpos'
    · omega
    · rw [hnums]
      omega
    · unfold spliceBuffer
      rw [htcp]
      omega
    · omega
    · rw [hnums]
      exact hproduct
    · rw [hnums, finish_tcp]
      exact hsum

/-- The sizes of an accepted document are sound, exactly if the numbers for the TCP buffer and for the
UDP buffers are positive as `int`s, and either there are at most `853` UDP buffers, or the document asks
for a stack that has room for them. -/
theorem sizesSound_iff (pton : CStr → Option (Vector Byte 4)) (doc : YamlDoc) (c : Config)
    (h : (c.load pton (some doc)).1 = 0) :
    (c.load pton (some doc)).2.SizesSound ↔
      0 < (c.sizes.given pton (some doc)).tcpBufferSize.toInt ∧
      0 < (c.sizes.given pton (some doc)).udpCopyBufferNums.toInt ∧
      ((c.sizes.given pton (some doc)).udpCopyBufferNums.toInt ≤ 853 ∨
        1524 * (c.sizes.given pton (some doc)).udpCopyBufferNums.toInt ≤
          (c.sizes.given pton (some doc)).taskStackSize.toInt) := by
  rw [load_eq] at h ⊢
  cases hok : (parsed pton (some doc)).2 with
  | false =>
      rw [hok] at h
      cases h
  | true =>
      rw [← sizes_exec_parsed]
      exact sizesSound_finish_iff _

/-- A document with one entry in the section `misc`. -/
def miscDoc (key value : String) : YamlDoc where
  nodes := [.mapping [(2, 3)], .scalar (lit "misc"), .mapping [(4, 5)], .scalar (lit key),
    .scalar (lit value)]

theorem sizesSound_small_buffer :
    (fresh.load (fun _ => none) (some (miscDoc "tcp-buffer-size" "4096"))).1 = 0 ∧
    (fresh.load (fun _ => none) (some (miscDoc "tcp-buffer-size" "4096"))).2.SizesSound :=
  have h : (fresh.load (fun _ => none) (some (miscDoc "tcp-buffer-size" "4096"))).1 = 0 := by
    decide +kernel
  ⟨h, (sizesSound_iff _ _ fresh h).mpr (by decide +kernel)⟩

/-- A thousand UDP buffers with their messages do not fit the stack that is made for them.  A million and
a half overflow the computation of its size, which stays as it is by default, and a negative size of the
TCP buffer is accepted. -/
theorem stack_too_small :
    ((fresh.load (fun _ => none) (some (miscDoc "udp-copy-buffer-nums" "1000"))).1 = 0 ∧
      ((fresh.load (fun _ => none) (some (miscDoc "udp-copy-buffer-nums" "1000"))).2.int
        .taskStackSize).toInt = 1520480 ∧
      (fresh.load (fun _ => none) (some (miscDoc "udp-copy-buffer-nums" "1000"))).2.fwdBuffer = 1524000 ∧
      ¬ (fresh.load (fun _ => none) (some (miscDoc "udp-copy-buffer-nums" "1000"))).2.SizesSound) ∧
    ((fresh.load (fun _ => none) (some (miscDoc "udp-copy-buffer-nums" "1500000"))).1 = 0 ∧
      ((fresh.load (fun _ => none) (some (miscDoc "udp-copy-buffer-nums" "1500000"))).2.int
        .taskStackSize).toInt = 86016 ∧
      ¬ (fresh.load (fun _ => none) (some (miscDoc "udp-copy-buffer-nums" "1500000"))).2.SizesSound) ∧
    (fresh.load (fun _ => none) (some (miscDoc "tcp-buffer-size" "-1"))).1 = 0 ∧
      ¬ (fresh.load (fun _ => none) (some (miscDoc "tcp-buffer-size" "-1"))).2.SizesSound :=
  ⟨⟨by decide +kernel, by decide +kernel, by decide +kernel,
      fun h => absurd h.fwd (by decide +kernel)⟩,
    ⟨by decide +kernel, by decide +kernel, fun h => absurd h.stack_udp (by decide +kernel)⟩,
    by decide +kernel, fun h => absurd h.tcp_pos (by decide +kernel)⟩

end Config

end HevTunnel
