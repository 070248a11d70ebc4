import Simuless.Io.Socket

/-! The transport-independent io object.

An io refers to the callback table of its transport and to a private context;
packets and descriptors are plain records. Null pointers are `none`.
-/

set_option autoImplicit false

namespace Simuless.Io

open Foundation

inductive IoStatus where
  | ok
  | invalidArg
  | invalidState
  | notSupported
  | timeout
  | io
  | closed
  deriving DecidableEq

def IoStatus.code : IoStatus → Int
  | .ok => 0
  | .invalidArg => -1
  | .invalidState => -2
  | .notSupported => -3
  | .timeout => -4
  | .io => -5
  | .closed => -6

inductive IoKind where
  | none
  | stream
  | packet
  | pubsub
  | shm
  deriving DecidableEq

/-- What of `smls_packet_t` is read; the payload is referred to by its address. -/
structure Packet where
  data : Option Nat
  len : UInt32

/-- `smls_io_desc_t`; a URI is the octets of its string, without the terminating zero. -/
structure IoDesc where
  uri : Option Bytes
  nonblock : Int

/-- `smls_io_tcp_ctx_t`; `host` is the string in the array of 64 characters. -/
structure TcpCtx where
  sock : Int
  listenSock : Int
  host : Bytes
  port : UInt16
  isServer : UInt8
  nonblock : UInt8

/-- The addresses of the shared callback tables. -/
inductive IoOpsRef where
  | tcp
  deriving DecidableEq

/-- `smls_io_t`. -/
structure SmlsIo where
  ops : Option IoOpsRef
  kind : IoKind
  priv : Option TcpCtx

/-- Return code and object of a call that may change the object. -/
structure Returned where
  ret : Int
  io : Option SmlsIo

end Simuless.Io
