import Simuless.Io.Object

/-! The TCP transport.

A context serves as client or as server. A client owns one socket; a server owns
a listening socket and, once a client was accepted, that client's socket.
-/

set_option autoImplicit false

namespace Simuless.Io

open Foundation

variable (layer : SocketLayer)

def ctxReset (ctx : TcpCtx) : TcpCtx :=
  { ctx with
    sock := socketInvalid
    listenSock := socketInvalid
    host := []
    port := 0
    isServer := 0
    nonblock := 0 }

def tcpCtx (io : Option SmlsIo) : Option TcpCtx := io.bind (·.priv)

/-! The C library's string functions as far as the parser of the URI uses them. -/

/-- The position of the last occurrence of a character. -/
def strrchr : Bytes → UInt8 → Option Nat
  | [], _ => none
  | first :: rest, char =>
      match strrchr rest char with
      | some i => some (i + 1)
      | none => if first = char then some 0 else none

def isSpace (char : UInt8) : Bool := char = 32 || (9 ≤ char && char ≤ 13)

def isDigit (char : UInt8) : Bool := 48 ≤ char && char ≤ 57

def digitsValue (text : Bytes) : Nat :=
  (text.takeWhile isDigit).foldl (fun value digit => value * 10 + (digit.toNat - 48)) 0

/-- `strtol` in base 10: blanks, a sign, then as many digits as there are; a
value out of range is clamped to a 64-bit `long`. -/
def strtol (text : Bytes) : Int :=
  match text.dropWhile isSpace with
  | 45 :: digits => max (-2 ^ 63) (-digitsValue digits)
  | 43 :: digits => min (2 ^ 63 - 1) (digitsValue digits)
  | digits => min (2 ^ 63 - 1) (digitsValue digits)

/-- Conversion of an integer to a 32-bit `int`. -/
def toInt (value : Int) : Int := value.bmod (2 ^ 32)

theorem toInt_small {value : Int} (low : -2 ^ 31 ≤ value) (high : value < 2 ^ 31) :
    toInt value = value := by
  rw [toInt, Int.bmod_eq_of_le] <;> omega

def atoi (text : Bytes) : Int := toInt (strtol text)

/-- `"tcp://"`. -/
def tcpPrefix : Bytes := [116, 99, 112, 58, 47, 47]

/-- `"0.0.0.0"`. -/
def anyHost : Bytes := [48, 46, 48, 46, 48, 46, 48]

/-- `sizeof(ctx->host)`. -/
def hostSize : Nat := 64

/-- The parser of the URI behind its null checks, with this reading of the port. -/
def tcpParseUrlBy (atoi : Bytes → Int) (ctx : TcpCtx) (url : Bytes) : Int × TcpCtx :=
  if url.take tcpPrefix.length ≠ tcpPrefix then (IoStatus.invalidArg.code, ctx)
  else
    let addr := url.drop tcpPrefix.length
    match strrchr addr 58 with
    | none => (IoStatus.invalidArg.code, ctx)
    | some hostLen =>
        if hostLen = 0 ∨ hostSize ≤ hostLen then (IoStatus.invalidArg.code, ctx)
        else
          -- the host is there even if the port turns out to be none
          let ctx := { ctx with host := addr.take hostLen }
          let port := atoi (addr.drop (hostLen + 1))
          if port ≤ 0 ∨ 65535 < port then (IoStatus.invalidArg.code, ctx)
          else (IoStatus.ok.code, { ctx with
            port := .ofNat port.toNat
            isServer := if ctx.host = anyHost then 1 else 0 })

/-- Open has made the null checks already. -/
def tcpParseUrl (ctx : TcpCtx) (url : Bytes) : Int × TcpCtx := tcpParseUrlBy atoi ctx url

/-- The part of opening a server that may fail, with the context it has reached. -/
def openServer (ctx : TcpCtx) (addr : Address) : Talk (Bool × TcpCtx) := do
  let sock ← layer.ask .socket
  let ctx := { ctx with listenSock := sock }
  if sock = socketInvalid then return (false, ctx)
  let bound ← layer.ask (.bind sock addr)
  if bound < 0 then return (false, ctx)
  let listening ← layer.ask (.listen sock 8)
  if listening < 0 then return (false, ctx)
  if ctx.nonblock = 0 then return (true, ctx)
  let set ← layer.ask (.setNonblock sock)
  return (decide (0 ≤ set), ctx)

def openClient (ctx : TcpCtx) (addr : Address) : Talk (Bool × TcpCtx) := do
  let sock ← layer.ask .socket
  let ctx := { ctx with sock := sock }
  if sock = socketInvalid then return (false, ctx)
  if ctx.nonblock = 0 then
    let connected ← layer.ask (.connect sock addr)
    return (decide (0 ≤ connected), ctx)
  else
    let set ← layer.ask (.setNonblock sock)
    if set < 0 then return (false, ctx)
    -- the connection may still be in progress, so any answer will do
    let _ ← layer.ask (.connect sock addr)
    return (true, ctx)

def openSockets (ctx : TcpCtx) : Talk (Bool × TcpCtx) := do
  let addr : Address := ⟨ctx.host, ctx.port⟩
  let made ← layer.ask (.makeIpv4Addr addr)
  if made < 0 then return (false, ctx)
  if ctx.isServer ≠ 0 then openServer layer ctx addr
  else openClient layer ctx addr

/-- Close a socket unless it is invalid. -/
def closeValid (sock : Int) : Talk Unit :=
  if sock = socketInvalid then pure ()
  else do
    let _ ← layer.ask (.close sock)
    return ()

/-- Close both sockets and reset the context: what a failed open and a close end with. -/
def closeSockets (io : SmlsIo) (ctx : TcpCtx) : Talk SmlsIo := do
  closeValid layer ctx.sock
  closeValid layer ctx.listenSock
  return { io with kind := .none, priv := some (ctxReset ctx) }

def tcpOpen (io : Option SmlsIo) (desc : Option IoDesc) : Talk Returned :=
  match io, desc with
  | some io, some desc =>
      match desc.uri, io.priv with
      | none, _ => return ⟨IoStatus.invalidArg.code, some io⟩
      | some _, none => return ⟨IoStatus.invalidState.code, some io⟩
      | some uri, some ctx => do
          let ctx := { ctxReset ctx with nonblock := if desc.nonblock = 0 then 0 else 1 }
          let io := { io with kind := .stream }
          let (parsed, ctx) := tcpParseUrl ctx uri
          let (opened, ctx) ← if parsed < 0 then pure (false, ctx) else openSockets layer ctx
          if opened then return ⟨IoStatus.ok.code, some { io with priv := some ctx }⟩
          let io ← closeSockets layer io ctx
          return ⟨IoStatus.io.code, some io⟩
  | _, _ => return ⟨IoStatus.invalidArg.code, io⟩

def tcpClose (io : Option SmlsIo) : Talk Returned :=
  match io, tcpCtx io with
  | some io, some ctx => do
      let io ← closeSockets layer io ctx
      return ⟨IoStatus.ok.code, some io⟩
  | _, _ => return ⟨IoStatus.invalidState.code, io⟩

/-- Push and pop make one request on the socket, if there is one. -/
def tcpTransfer (request : Int → Nat → UInt32 → Request) (io : Option SmlsIo)
    (pkt : Option Packet) : Talk Int :=
  match io, pkt with
  | some io, some pkt =>
      match pkt.data, io.priv with
      | none, _ => return IoStatus.invalidArg.code
      | some _, none => return IoStatus.invalidState.code
      | some data, some ctx => do
          if ctx.sock = socketInvalid then return IoStatus.closed.code
          let transferred ← layer.ask (request ctx.sock data pkt.len)
          return toInt transferred
  | _, _ => return IoStatus.invalidArg.code

def tcpPush (io : Option SmlsIo) (pkt : Option Packet) : Talk Int := tcpTransfer layer .send io pkt

def tcpPop (io : Option SmlsIo) (pkt : Option Packet) : Talk Int := tcpTransfer layer .recv io pkt

/-- The socket that poll waits on. -/
def pollTarget (ctx : TcpCtx) : Int :=
  if ctx.isServer ≠ 0 then
    if ctx.sock ≠ socketInvalid then ctx.sock else ctx.listenSock
  else ctx.sock

/-- Accept a client on the listening socket. -/
def acceptClient (io : SmlsIo) (ctx : TcpCtx) : Talk Returned := do
  let client ← layer.ask (.accept ctx.listenSock)
  if client = socketInvalid then return ⟨IoStatus.io.code, some io⟩
  let set ← if ctx.nonblock = 0 then pure 0 else layer.ask (.setNonblock client)
  if set < 0 then
    let _ ← layer.ask (.close client)
    return ⟨IoStatus.io.code, some io⟩
  closeValid layer ctx.sock
  return ⟨2, some { io with priv := some { ctx with sock := client } }⟩

def tcpPoll (io : Option SmlsIo) (timeoutMs : UInt32) : Talk Returned :=
  match io, tcpCtx io with
  | some io, some ctx => do
      let target := pollTarget ctx
      if target = socketInvalid then return ⟨IoStatus.closed.code, some io⟩
      let ret ← layer.ask (.poll target timeoutMs)
      if ret ≤ 0 then return ⟨ret, some io⟩
      if ctx.isServer ≠ 0 ∧ target = ctx.listenSock then acceptClient layer io ctx
      else return ⟨1, some io⟩
  | _, _ => return ⟨IoStatus.invalidState.code, io⟩

/-! What a call ends with. -/

section
variable {layer} {history : History}

theorem tcpParseUrl_sockets (ctx : TcpCtx) (url : Bytes) :
    (tcpParseUrl ctx url).2.sock = ctx.sock ∧ (tcpParseUrl ctx url).2.listenSock = ctx.listenSock := by
  rw [tcpParseUrl, tcpParseUrlBy]
  grind

/-- An open with a URI ends as an attempt on a context without sockets does: with
success, or by closing what the attempt has opened. -/
theorem tcpOpen_ensures (attempted : Bool × TcpCtx → History → Prop)
    {post : Returned → History → Prop}
    (attempts : ∀ ctx : TcpCtx, ctx.sock = socketInvalid → ctx.listenSock = socketInvalid →
      attempted (false, ctx) history ∧ (openSockets layer ctx).Ensures history attempted)
    (success : ∀ ctx later, attempted (true, ctx) later →
      post ⟨IoStatus.ok.code, some ⟨some .tcp, .stream, some ctx⟩⟩ later)
    (failure : ∀ ctx later, attempted (false, ctx) later → ∀ priv,
      (closeSockets layer ⟨some .tcp, .stream, priv⟩ ctx).Ensures later
        fun io later => post ⟨IoStatus.io.code, some io⟩ later)
    (kind : IoKind) (ctx : TcpCtx) (uri : Bytes) (nonblock : Int) :
    (tcpOpen layer (some ⟨some .tcp, kind, some ctx⟩) (some ⟨some uri, nonblock⟩)).Ensures history
      post := by
  have finish : ∀ (attempt : Bool × TcpCtx) later, attempted attempt later →
      Dialogue.Ensures
        (if attempt.1 then pure ⟨IoStatus.ok.code, some ⟨some .tcp, .stream, some attempt.2⟩⟩
          else do
            let io ← closeSockets layer ⟨some .tcp, .stream, some ctx⟩ attempt.2
            return (⟨IoStatus.io.code, some io⟩ : Returned)) later post := by
    rintro ⟨opened, reached⟩ later holds
    apply Dialogue.Ensures.check
    · rintro rfl
      exact .done (success reached later holds)
    · intro closed
      obtain rfl : opened = false := Bool.not_eq_true _ ▸ closed
      exact (failure reached later holds _).follow fun _ _ => .done
  simp only [tcpOpen]
  obtain ⟨noSock, noListenSock⟩ := tcpParseUrl_sockets
    { ctxReset ctx with nonblock := if nonblock = 0 then 0 else 1 } uri
  generalize tcpParseUrl _ uri = parsed at noSock noListenSock
  obtain ⟨refused, attempt⟩ := attempts parsed.2 noSock noListenSock
  apply Dialogue.Ensures.check
  · intro _
    exact .next (.done (finish _ _ refused))
  · intro _
    exact attempt.follow finish

end

end Simuless.Io
