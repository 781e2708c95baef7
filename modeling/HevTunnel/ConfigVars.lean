import HevTunnel.Config

/-! # The variables of a section

Each parser of `hev-config.c` assigns variables of its own section (`parseSection_writes`), and in
the sections `tunnel`, `mapdns` and `misc` the entry of a key assigns the variables of this key.
Assignments to different variables commute (`Config.exec_comm`), so blocks of them can be made in
any order (`Config.exec_flatMap_perm`). -/

namespace HevTunnel

/-! ### Updates of one part of a state -/

section updates
variable {σ ε ξ : Type*} {step : σ → ε → σ} (π : σ → ξ) {eff : ε → ξ → ξ}

/-- A part of a state on which each update sets a value or is injective: after some updates it is
the same if one of them has set it, or if it was the same before. -/
theorem foldl_part_eq_iff (heff : ∀ s a, π (step s a) = eff a (π s)) {Sets : ε → Prop}
    (hset : ∀ a, Sets a → ∀ x y, eff a x = eff a y)
    (hinj : ∀ a, ¬ Sets a → Function.Injective (eff a)) (as : List ε) (s t : σ) :
    π (as.foldl step s) = π (as.foldl step t) ↔ (∃ a ∈ as, Sets a) ∨ π s = π t := by
  induction as generalizing s t with
  | nil => simp
  | cons a as ih =>
      rw [List.foldl_cons, List.foldl_cons, ih, heff, heff]
      by_cases ha : Sets a
      · constructor
        · exact fun _ => .inl ⟨a, by simp, ha⟩
        · exact fun _ => .inr (hset a ha _ _)
      · rw [(hinj a ha).eq_iff]
        simp [ha]

/-- Updates that leave a part alone. -/
theorem foldl_part_eq (heff : ∀ s a, π (step s a) = eff a (π s)) {as : List ε}
    (hid : ∀ a ∈ as, ∀ x, eff a x = x) (s : σ) : π (as.foldl step s) = π s := by
  induction as generalizing s with
  | nil => rfl
  | cons a as ih =>
      rw [List.foldl_cons, ih (fun b hb => hid b (List.mem_cons_of_mem _ hb)), heff]
      exact hid a (by simp) _

end updates

/-! ### Variables -/

/-- A static variable of `hev-config.c`; the two pointers `srv.user` and `srv.pass` are one. -/
inductive ConfigVar where
  | str (v : StrVar)
  | int (v : IntVar)
  | auth
deriving DecidableEq

namespace ConfigVar

/-- The type of the values. -/
abbrev Value : ConfigVar → Type
  | str _ => CStr
  | int _ => BitVec 32
  | auth => Option (CStr × CStr)

/-- The section that assigns a variable. -/
def sectionKey : ConfigVar → CStr
  | str .tunName | str .tunIpv4Address | str .tunIpv6Address | str .tunPostUpScript
  | str .tunPreDownScript | int .tunMtu | int .multiQueue => lit "tunnel"
  | str .srvUdpAddr | str .srvAddr | int .srvMark | int .srvUdpInUdp | int .srvPort
  | int .srvPipeline | auth => lit "socks5"
  | int .mapdnsAddress | int .mapdnsPort | int .mapdnsNetwork | int .mapdnsNetmask
  | int .mapdnsCacheSize => lit "mapdns"
  | _ => lit "misc"

/-- The key that assigns a variable, where an entry is enough for this. -/
def entryKey : ConfigVar → CStr
  | str .tunName => lit "name"
  | int .tunMtu => lit "mtu"
  | int .multiQueue => lit "multi-queue"
  | str .tunIpv4Address => lit "ipv4"
  | str .tunIpv6Address => lit "ipv6"
  | str .tunPostUpScript => lit "post-up-script"
  | str .tunPreDownScript => lit "pre-down-script"
  | int .mapdnsAddress => lit "address"
  | int .mapdnsPort => lit "port"
  | int .mapdnsNetwork => lit "network"
  | int .mapdnsNetmask => lit "netmask"
  | int .mapdnsCacheSize => lit "cache-size"
  | int .taskStackSize => lit "task-stack-size"
  | int .tcpBufferSize => lit "tcp-buffer-size"
  | int .udpRecvBufferSize => lit "udp-recv-buffer-size"
  | int .udpCopyBufferNums => lit "udp-copy-buffer-nums"
  | int .maxSessionCount => lit "max-session-count"
  | int .connectTimeout => lit "connect-timeout"
  | str .pidFile => lit "pid-file"
  | str .logFile => lit "log-file"
  | int .logLevel => lit "log-level"
  | int .limitNofile => lit "limit-nofile"
  | _ => lit ""

end ConfigVar

namespace Assign

/-- The assignment sets the variable to a new value. -/
def Sets : Assign → ConfigVar → Prop
  | .str v _, x => x = .str v
  | .int v _, x => x = .int v
  | .auth _ _, x => x = .auth
  | .ntohl, _ => False

/-- The assignment can change the variable. -/
def Writes : Assign → ConfigVar → Prop
  | .ntohl, x => x = .int .mapdnsNetwork ∨ x = .int .mapdnsNetmask
  | a, x => a.Sets x

/-- What an assignment does to an array. -/
def strEff (v : StrVar) : Assign → CStr → CStr
  | .str w s, y => if v = w then s else y
  | _, y => y

def intEff (v : IntVar) : Assign → BitVec 32 → BitVec 32
  | .int w n, y => if v = w then n else y
  | .ntohl, y => if v = .mapdnsNetwork ∨ v = .mapdnsNetmask then HevTunnel.ntohl y else y
  | _, y => y

def authEff : Assign → Option (CStr × CStr) → Option (CStr × CStr)
  | .auth user pass, _ => some (user, pass)
  | _, y => y

/-- What an assignment does to the value of a variable. -/
def eff (a : Assign) : (x : ConfigVar) → x.Value → x.Value
  | .str v => a.strEff v
  | .int v => a.intEff v
  | .auth => a.authEff

theorem Sets.writes {a : Assign} {x : ConfigVar} (h : a.Sets x) : a.Writes x := by
  cases a with
  | ntohl => exact h.elim
  | _ => exact h

/-- A value that is set does not depend on the one before. -/
theorem eff_of_sets {a : Assign} {x : ConfigVar} (h : a.Sets x) (y z : x.Value) :
    a.eff x y = a.eff x z := by
  cases a with
  | str v s =>
      obtain rfl : x = .str v := h
      exact (if_pos rfl).trans (if_pos rfl).symm
  | int v n =>
      obtain rfl : x = .int v := h
      exact (if_pos rfl).trans (if_pos rfl).symm
  | auth user pass =>
      obtain rfl : x = .auth := h
      rfl
  | ntohl => exact h.elim

theorem eff_of_not_writes {a : Assign} {x : ConfigVar} (h : ¬ a.Writes x) (y : x.Value) :
    a.eff x y = y := by
  cases a with
  | str v s =>
      cases x with
      | str w => exact if_neg (fun hw => h (congrArg ConfigVar.str hw))
      | _ => rfl
  | int v n =>
      cases x with
      | int w => exact if_neg (fun hw => h (congrArg ConfigVar.int hw))
      | _ => rfl
  | auth user pass =>
      cases x with
      | auth => exact absurd rfl h
      | _ => rfl
  | ntohl =>
      cases x with
      | int w => exact if_neg (fun hw => h (hw.imp (congrArg ConfigVar.int) (congrArg ConfigVar.int)))
      | _ => rfl

/-- Other assignments can be undone: the conversion in place by itself. -/
theorem eff_injective {a : Assign} {x : ConfigVar} (h : ¬ a.Sets x) : Function.Injective (a.eff x) := by
  by_cases hw : a.Writes x
  · cases a with
    | ntohl =>
        intro y z hyz
        obtain rfl | rfl := hw
        · exact ((ntohl_ntohl y).symm.trans (congrArg HevTunnel.ntohl hyz)).trans (ntohl_ntohl z)
        · exact ((ntohl_ntohl y).symm.trans (congrArg HevTunnel.ntohl hyz)).trans (ntohl_ntohl z)
    | _ => exact absurd hw h
  · intro y z hyz
    rwa [eff_of_not_writes hw, eff_of_not_writes hw] at hyz

end Assign

namespace Config
variable {as bs : List Assign} {x : ConfigVar} {c d : Config}

/-- The value of a variable. -/
def get (c : Config) : (x : ConfigVar) → x.Value
  | .str v => c.str v
  | .int v => c.int v
  | .auth => c.auth

theorem eq_of_get (h : ∀ x, c.get x = d.get x) : c = d := by
  obtain ⟨str, int, auth⟩ := c
  obtain ⟨str', int', auth'⟩ := d
  obtain rfl : str = str' := funext (fun v => h (.str v))
  obtain rfl : int = int' := funext (fun v => h (.int v))
  obtain rfl : auth = auth' := h .auth
  rfl

theorem get_assign (c : Config) (a : Assign) (x : ConfigVar) :
    (c.assign a).get x = a.eff x (c.get x) := by
  cases x with
  | str v => cases a <;> rfl
  | int v => cases a <;> rfl
  | auth => cases a <;> rfl

theorem exec_append (as bs : List Assign) (c : Config) : c.exec (as ++ bs) = (c.exec as).exec bs :=
  List.foldl_append

/-- A variable depends on its own value alone. -/
theorem get_exec_congr (as : List Assign) (h : c.get x = d.get x) :
    (c.exec as).get x = (d.exec as).get x := by
  induction as generalizing c d with
  | nil => exact h
  | cons a as ih => exact ih (by rw [get_assign, get_assign, h])

theorem get_exec_of_not_writes (h : ∀ a ∈ as, ¬ a.Writes x) (c : Config) :
    (c.exec as).get x = c.get x :=
  foldl_part_eq (fun c : Config => c.get x) (fun c a => get_assign c a x)
    (fun a ha => Assign.eff_of_not_writes (h a ha)) c

/-- After some assignments a variable is the same if one of them has set it, or if it was the same
before. -/
theorem get_exec_eq_iff (as : List Assign) (c d : Config) (x : ConfigVar) :
    (c.exec as).get x = (d.exec as).get x ↔ (∃ a ∈ as, a.Sets x) ∨ c.get x = d.get x :=
  foldl_part_eq_iff (fun c : Config => c.get x) (fun c a => get_assign c a x)
    (fun _ ha y z => Assign.eff_of_sets ha y z) (fun _ ha => Assign.eff_injective ha) as c d

/-- A number that is not converted in place. -/
theorem exec_int_of_not_sets {v : IntVar} (h : ¬ ∃ a ∈ as, a.Sets (.int v))
    (hv : ¬ (v = .mapdnsNetwork ∨ v = .mapdnsNetmask)) (c : Config) :
    (c.exec as).int v = c.int v := by
  refine get_exec_of_not_writes (x := .int v) (fun a ha hx => ?_) c
  cases a with
  | ntohl => exact hv (Or.imp ConfigVar.int.inj ConfigVar.int.inj hx)
  | _ => exact h ⟨_, ha, hx⟩

/-- Assignments to different variables commute. -/
theorem exec_comm (h : ∀ a ∈ as, ∀ b ∈ bs, ∀ x, a.Writes x → ¬ b.Writes x) (c : Config) :
    (c.exec as).exec bs = (c.exec bs).exec as := by
  apply eq_of_get
  intro x
  by_cases hx : ∃ a ∈ as, a.Writes x
  · obtain ⟨a, ha, hax⟩ := hx
    have hbs : ∀ b ∈ bs, ¬ b.Writes x := fun b hb => h a ha b hb x hax
    rw [get_exec_of_not_writes hbs]
    exact get_exec_congr as (get_exec_of_not_writes hbs c).symm
  · have has : ∀ a ∈ as, ¬ a.Writes x := fun a ha hax => hx ⟨a, ha, hax⟩
    rw [get_exec_of_not_writes has]
    exact get_exec_congr bs (get_exec_of_not_writes has c)

section blocks
variable {α : Type*} {f g : α → List Assign} {l l' : List α}

theorem exec_flatMap (f : α → List Assign) (l : List α) (c : Config) :
    c.exec (l.flatMap f) = l.foldl (fun c y => c.exec (f y)) c := by
  induction l generalizing c with
  | nil => rfl
  | cons y l ih =>
      rw [List.flatMap_cons, exec_append, ih]
      rfl

theorem exec_flatMap_congr (h : ∀ y ∈ l, ∀ c : Config, c.exec (f y) = c.exec (g y)) (c : Config) :
    c.exec (l.flatMap f) = c.exec (l.flatMap g) := by
  induction l generalizing c with
  | nil => rfl
  | cons y l ih =>
      rw [List.flatMap_cons, List.flatMap_cons, exec_append, exec_append, h y (by simp)]
      exact ih (fun z hz => h z (List.mem_cons_of_mem _ hz)) _

/-- Blocks that assign different variables can be made in any order. -/
theorem exec_flatMap_perm (hperm : l.Perm l')
    (h : ∀ y ∈ l, ∀ z ∈ l, y ≠ z → ∀ a ∈ f y, ∀ b ∈ f z, ∀ x, a.Writes x → ¬ b.Writes x)
    (c : Config) : c.exec (l.flatMap f) = c.exec (l'.flatMap f) := by
  rw [exec_flatMap, exec_flatMap]
  apply hperm.foldl_eq'
  intro y hy z hz c
  obtain rfl | hne := eq_or_ne y z
  · rfl
  · exact exec_comm (h y hy z hz hne) c

end blocks

end Config

/-! ### The sections -/

section writes
variable {pton : CStr → Option (Vector Byte 4)} {doc : YamlDoc} {key value : CStr} {a : Assign}
  {x : ConfigVar}

/-- What holds of the assignments of a branch, if it is taken, and of those of the other one. -/
theorem forall_mem_ite {α : Type*} {P : α → Prop} {c : Prop} [Decidable c] {l l' : List α}
    (h : c → ∀ a ∈ l, P a) (h' : ∀ a ∈ l', P a) : ∀ a ∈ if c then l else l', P a := by
  by_cases hc : c
  · rw [if_pos hc]
    exact h hc
  · rw [if_neg hc]
    exact h'

/-- An assignment of the section and of the entry with a key. -/
def EntryAssign (sec key : CStr) (a : Assign) : Prop :=
  ∀ x, a.Writes x → x.sectionKey = sec ∧ x.entryKey = key

theorem entryAssign_branch {sec key k : CStr} {y : ConfigVar} (ha : ∀ x, a.Writes x → x = y)
    (hsec : y.sectionKey = sec) (hkey : y.entryKey = k) (h : key = k) :
    ∀ b ∈ [a], EntryAssign sec key b := by
  intro b hb x hx
  rw [ha x (List.mem_singleton.mp hb ▸ hx), hsec, hkey, h]
  exact ⟨rfl, rfl⟩

theorem tunnelScalar_writes : ∀ a ∈ tunnelScalar key value, EntryAssign (lit "tunnel") key a := by
  unfold tunnelScalar
  iterate 7 refine forall_mem_ite (entryAssign_branch (fun _ => id) rfl rfl) ?_
  simp

theorem parseTunnelAddress_writes {v : StrVar} {size : ℕ} {node : Option YamlNode}
    (ha : a ∈ (parseTunnelAddress doc v size node).getD []) (hx : a.Writes x) : x = .str v := by
  unfold parseTunnelAddress at ha
  cases hpairs : doc.sectionPairs node with
  | none => simp [hpairs] at ha
  | some pairs =>
      simp only [hpairs, Option.pure_def, Option.bind_eq_bind, Option.bind_some, Option.getD_some,
        List.mem_flatMap] at ha
      obtain ⟨⟨key, value⟩, -, ha⟩ := ha
      split_ifs at ha <;> simp only [List.mem_singleton, List.not_mem_nil] at ha
      subst ha
      exact hx

theorem tunnelNode_writes {node : YamlNode} :
    ∀ a ∈ tunnelNode doc key node, EntryAssign (lit "tunnel") key a := by
  unfold tunnelNode
  refine forall_mem_ite (fun h a ha x hx => ?_) (forall_mem_ite (fun h a ha x hx => ?_) (by simp))
  · rw [parseTunnelAddress_writes ha hx, h]
    exact ⟨rfl, rfl⟩
  · rw [parseTunnelAddress_writes ha hx, h]
    exact ⟨rfl, rfl⟩

theorem ptonAssign_writes {v : IntVar} {k : CStr}
    (hsec : (ConfigVar.int v).sectionKey = lit "mapdns") (hkey : (ConfigVar.int v).entryKey = k)
    (h : key = k) : ∀ a ∈ ptonAssign pton v value, EntryAssign (lit "mapdns") key a := by
  unfold ptonAssign
  split
  · exact entryAssign_branch (fun _ => id) hsec hkey h
  · simp

theorem mapdnsPair_writes : ∀ a ∈ mapdnsPair pton key value, EntryAssign (lit "mapdns") key a := by
  unfold mapdnsPair
  refine forall_mem_ite (ptonAssign_writes rfl rfl) ?_
  refine forall_mem_ite (entryAssign_branch (fun _ => id) rfl rfl) ?_
  iterate 2 refine forall_mem_ite (ptonAssign_writes rfl rfl) ?_
  refine forall_mem_ite (entryAssign_branch (fun _ => id) rfl rfl) ?_
  simp

theorem miscPair_writes : ∀ a ∈ miscPair key value, EntryAssign (lit "misc") key a := by
  unfold miscPair
  iterate 10 refine forall_mem_ite (entryAssign_branch (fun _ => id) rfl rfl) ?_
  simp

theorem timeouts_writes {t : MiscTimeouts} (ha : a ∈ t.assigns) (hx : a.Writes x) :
    x = .int .tcpReadWriteTimeout ∨ x = .int .udpReadWriteTimeout := by
  unfold MiscTimeouts.assigns at ha
  rw [List.mem_append] at ha
  obtain ha | ha := ha
  · left
    split_ifs at ha <;> simp only [List.mem_singleton, List.not_mem_nil] at ha <;> subst ha <;> exact hx
  · right
    split_ifs at ha <;> simp only [List.mem_singleton, List.not_mem_nil] at ha <;> subst ha <;> exact hx

theorem socks5_writes {v : Socks5Values} {addr port : CStr} (ha : a ∈ v.assigns addr port)
    (hx : a.Writes x) : x.sectionKey = lit "socks5" := by
  unfold Socks5Values.assigns at ha
  simp only [List.mem_append, List.mem_cons, List.not_mem_nil, or_false] at ha
  obtain (((((rfl | rfl) | ha) | ha) | ha) | ha) | ha := ha
  · cases hx
    rfl
  · cases hx
    rfl
  all_goals
    split at ha <;> (try split_ifs at ha) <;> simp only [List.mem_singleton, List.not_mem_nil] at ha
    subst ha
    cases hx
    rfl

/-- The assignments of `hev_config_parse_tunnel` for one pair. -/
def tunnelBlock (doc : YamlDoc) (p : ℕ × ℕ) : List Assign :=
  match doc.scalarAt p.1, doc.getNode p.2 with
  | some key, some (.scalar value) => tunnelScalar key value
  | some key, some node => tunnelNode doc key node
  | _, _ => []

theorem tunnelBlock_writes {p : ℕ × ℕ} (ha : a ∈ tunnelBlock doc p) (hx : a.Writes x) :
    x.sectionKey = lit "tunnel" ∧ doc.scalarAt p.1 = some x.entryKey := by
  unfold tunnelBlock at ha
  split at ha
  · rename_i hkey _
    obtain ⟨hsec, hentry⟩ := tunnelScalar_writes a ha x hx
    exact ⟨hsec, by rw [hkey, hentry]⟩
  · rename_i hkey _
    obtain ⟨hsec, hentry⟩ := tunnelNode_writes a ha x hx
    exact ⟨hsec, by rw [hkey, hentry]⟩
  · simp at ha

theorem parseTunnelPairs_cons (p : ℕ × ℕ) (ps : List (ℕ × ℕ)) :
    parseTunnelPairs doc (p :: ps) =
      if (doc.scalarAt p.1).isSome ∧ (doc.getNode p.2).isSome then
        tunnelBlock doc p ++ parseTunnelPairs doc ps
      else [] := by
  obtain ⟨k, v⟩ := p
  rw [parseTunnelPairs, tunnelBlock]
  rcases hk : doc.scalarAt k with _ | key
  · simp
  · rcases hv : doc.getNode v with _ | _ | _ | _ <;> simp

theorem mem_parseTunnelPairs {ps : List (ℕ × ℕ)} (ha : a ∈ parseTunnelPairs doc ps) :
    ∃ p ∈ ps, a ∈ tunnelBlock doc p := by
  induction ps with
  | nil => simp [parseTunnelPairs] at ha
  | cons p ps ih =>
      rw [parseTunnelPairs_cons] at ha
      split_ifs at ha
      · obtain ha | ha := List.mem_append.mp ha
        · exact ⟨p, by simp, ha⟩
        · obtain ⟨q, hq, ha⟩ := ih ha
          exact ⟨q, List.mem_cons_of_mem _ hq, ha⟩
      · simp at ha

/-- A parser assigns the variables of its section. -/
theorem parseSection_writes {node : Option YamlNode} {as : List Assign}
    (h : parseSection pton doc key node = some as) (ha : a ∈ as) (hx : a.Writes x) :
    x.sectionKey = key := by
  unfold parseSection at h
  split_ifs at h with htunnel hsocks5 hmapdns hmisc
  · unfold parseTunnel at h
    split at h
    · obtain ⟨p, -, ha⟩ := mem_parseTunnelPairs (Option.some.inj h ▸ ha)
      rw [htunnel]
      exact (tunnelBlock_writes ha hx).1
    · cases h
  · unfold parseSocks5 at h
    simp only [Option.bind_eq_bind, Option.bind_eq_some_iff] at h
    obtain ⟨pairs, -, port, -, addr, -, h⟩ := h
    split_ifs at h
    rw [hsocks5]
    exact socks5_writes (Option.some.inj h ▸ ha) hx
  · unfold parseMapdns at h
    simp only [Option.bind_eq_bind, Option.bind_eq_some_iff] at h
    obtain ⟨pairs, -, h⟩ := h
    obtain rfl := Option.some.inj h
    rw [List.mem_append, List.mem_flatMap, List.mem_singleton] at ha
    rw [hmapdns]
    obtain ⟨e, -, ha⟩ | rfl := ha
    · exact (mapdnsPair_writes a ha x hx).1
    · obtain rfl | rfl := hx <;> rfl
  · unfold parseMisc at h
    simp only [Option.bind_eq_bind, Option.bind_eq_some_iff] at h
    obtain ⟨pairs, -, h⟩ := h
    obtain rfl := Option.some.inj h
    rw [List.mem_append, List.mem_flatMap] at ha
    rw [hmisc]
    obtain ⟨e, -, ha⟩ | ha := ha
    · exact (miscPair_writes a ha x hx).1
    · obtain rfl | rfl := timeouts_writes ha hx <;> rfl
  · obtain rfl := Option.some.inj h
    simp at ha

end writes

end HevTunnel
