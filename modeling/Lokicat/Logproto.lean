import Lokicat.CString

/-!
# Push request messages

The fields of the generated protobuf messages that the forwarder fills in. A
`char *` member is the stored string, a repeated member with its count is a
list, and an unset sub-message is `none`.
-/

namespace Lokicat.Logproto

open CString

structure Timestamp where
  seconds : Int
  nanos : Int
  deriving DecidableEq, Repr

/-- `GOOGLE__PROTOBUF__TIMESTAMP__INIT` -/
def Timestamp.init : Timestamp := ⟨0, 0⟩

structure Entry where
  timestamp : Option Timestamp
  line : List Byte
  deriving DecidableEq, Repr

/-- `LOGPROTO__ENTRY__INIT`: no timestamp, and the static empty string as line. -/
def Entry.init : Entry := ⟨none, []⟩

structure Stream where
  labels : List Byte
  entries : List Entry
  deriving DecidableEq, Repr

structure PushRequest where
  streams : List Stream
  deriving DecidableEq, Repr

@[simp] theorem init_line : Entry.init.line = [] := rfl

theorem eq_init {e : Entry} (hl : e.line = []) (ht : e.timestamp = none) : e = Entry.init := by
  cases e
  simp_all [Entry.init]

end Lokicat.Logproto
