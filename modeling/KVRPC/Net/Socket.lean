import KVRPC.Library.Bytes

/-!
# Sockets

What calls of `send` and `recv` on a non-blocking socket can return. Both are the
environment's to choose; a script of outcomes runs out like a socket that would block.
-/
namespace KVRPC.Net

open Library

/-- A call of `send` accepts some octets, would block, is interrupted or fails. -/
inductive SendOutcome where
  | wrote (n : Nat)
  | wouldBlock
  | interrupted
  | failed
  deriving DecidableEq

/-- A call of `recv` returns octets, none at the end of the stream, would block, is
interrupted or fails. -/
inductive ReceiveOutcome where
  | data (bytes : Bytes)
  | wouldBlock
  | interrupted
  | failed
  deriving DecidableEq

end KVRPC.Net
