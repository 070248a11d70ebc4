import Simuless.Io.Tcp

/-! The public io interface.

The interface checks what it is given and goes through the callback table of the
io's transport. A caller's sequence of calls on one io is a session.
-/

set_option autoImplicit false

namespace Simuless.Io

open Foundation

/-- A callback table; a missing callback is `none`. -/
structure IoOps where
  openBackend : Option (Option SmlsIo → Option IoDesc → Talk Returned)
  close : Option (Option SmlsIo → Talk Returned)
  push : Option (Option SmlsIo → Option Packet → Talk Int)
  pop : Option (Option SmlsIo → Option Packet → Talk Int)
  poll : Option (Option SmlsIo → UInt32 → Talk Returned)

variable (layer : SocketLayer)

def tcpOps : IoOps where
  openBackend := some (tcpOpen layer)
  close := some (tcpClose layer)
  push := some (tcpPush layer)
  pop := some (tcpPop layer)
  poll := some (tcpPoll layer)

def IoOpsRef.deref : IoOpsRef → IoOps
  | .tcp => tcpOps layer

/-- The table of an io that is valid: neither the io, its table nor its context is null. -/
def validOps (io : Option SmlsIo) : Option IoOps := do
  let io ← io
  let ops ← io.ops
  if io.priv.isNone then none else some (ops.deref layer)

def ioCreate (io : Option SmlsIo) (desc : Option IoDesc) : Talk Returned :=
  match io, desc with
  | some io, some desc =>
      match io.ops, io.priv with
      | some ops, some _ =>
          match (ops.deref layer).openBackend with
          | none => return ⟨IoStatus.notSupported.code, some io⟩
          | some openBackend => openBackend (some { io with kind := .none }) (some desc)
      | _, _ => return ⟨IoStatus.invalidArg.code, some io⟩
  | _, _ => return ⟨IoStatus.invalidArg.code, io⟩

def ioDestroy (io : Option SmlsIo) : Talk Returned :=
  match validOps layer io with
  | none => return ⟨IoStatus.invalidArg.code, io⟩
  | some ops =>
      match ops.close with
      | none => return ⟨IoStatus.notSupported.code, io⟩
      | some close => do
          let returned ← close io
          if returned.ret = IoStatus.ok.code then
            return { returned with io := returned.io.map fun io => { io with kind := .none } }
          return returned

/-- Push and pop check the packet and call their callback. -/
def ioTransfer (callback : IoOps → Option (Option SmlsIo → Option Packet → Talk Int))
    (io : Option SmlsIo) (pkt : Option Packet) : Talk Int :=
  match validOps layer io, pkt with
  | some ops, some pkt =>
      if pkt.data.isNone then return IoStatus.invalidArg.code
      else if pkt.len = 0 then return IoStatus.invalidArg.code
      else
        match callback ops with
        | none => return IoStatus.notSupported.code
        | some transfer => transfer io (some pkt)
  | _, _ => return IoStatus.invalidArg.code

def ioPush (io : Option SmlsIo) (pkt : Option Packet) : Talk Int := ioTransfer layer IoOps.push io pkt

def ioPop (io : Option SmlsIo) (pkt : Option Packet) : Talk Int := ioTransfer layer IoOps.pop io pkt

def ioPoll (io : Option SmlsIo) (timeoutMs : UInt32) : Talk Returned :=
  match validOps layer io with
  | none => return ⟨IoStatus.invalidArg.code, io⟩
  | some ops =>
      match ops.poll with
      | none => return ⟨IoStatus.notSupported.code, io⟩
      | some poll => poll io timeoutMs

/-! Sessions. -/

inductive IoCall where
  | create (desc : Option IoDesc)
  | destroy
  | push (pkt : Option Packet)
  | pop (pkt : Option Packet)
  | poll (timeoutMs : UInt32)

def IoCall.IsCreate : IoCall → Prop
  | .create _ => True
  | _ => False

/-- A call that neither begins nor ends the use of the io. -/
def IoCall.IsUse : IoCall → Prop
  | .push _ | .pop _ | .poll _ => True
  | _ => False

def ioCall (io : Option SmlsIo) : IoCall → Talk Returned
  | .create desc => ioCreate layer io desc
  | .destroy => ioDestroy layer io
  | .push pkt => do
      let ret ← ioPush layer io pkt
      return ⟨ret, io⟩
  | .pop pkt => do
      let ret ← ioPop layer io pkt
      return ⟨ret, io⟩
  | .poll timeoutMs => ioPoll layer io timeoutMs

/-- An io between two calls: what has been asked of the socket layer, and whether
the last create succeeded with no destroy since. -/
structure Session where
  io : Option SmlsIo
  history : History
  isOpen : Bool

/-- The return code of the next call. -/
def Session.answer (session : Session) (call : IoCall) : Int :=
  ((ioCall layer session.io call).result session.history).ret

def Session.step (session : Session) (call : IoCall) : Session where
  io := ((ioCall layer session.io call).result session.history).io
  history := (ioCall layer session.io call).after session.history
  isOpen := match call with
    | .create _ => decide (session.answer layer call = IoStatus.ok.code)
    | .destroy => false
    | _ => session.isOpen

def Session.run (session : Session) (calls : List IoCall) : Session :=
  calls.foldl (Session.step layer) session

/-- A create is called with a URI and only while the io is not open. -/
def Session.Admits (session : Session) : IoCall → Prop
  | .create desc => session.isOpen = false ∧ ∃ uri nonblock, desc = some ⟨some uri, nonblock⟩
  | _ => True

def Session.Permits : Session → List IoCall → Prop
  | _, [] => True
  | session, call :: rest => session.Admits call ∧ (session.step layer call).Permits rest

/-- A TCP io over a context of any contents, before its first create. -/
def uncreated (kind : IoKind) (ctx : TcpCtx) : Session := ⟨some ⟨some .tcp, kind, some ctx⟩, [], false⟩

variable {layer}

/-- A packet with data and a length. -/
def PacketValid (pkt : Option Packet) : Prop :=
  ∃ packet data, pkt = some packet ∧ packet.data = some data ∧ packet.len ≠ 0

/-- A callback that makes this request on the socket. -/
structure Transfers (callback : IoOps → Option (Option SmlsIo → Option Packet → Talk Int))
    (request : Int → Nat → UInt32 → Request) : Prop where
  calls : ∀ layer, callback (tcpOps layer) = some (tcpTransfer layer request)
  plain : ∀ sock data len answer, handling (request sock data len, answer) = [.access sock]

theorem push_transfers : Transfers IoOps.push .send := ⟨fun _ => rfl, fun _ _ _ _ => rfl⟩

theorem pop_transfers : Transfers IoOps.pop .recv := ⟨fun _ => rfl, fun _ _ _ _ => rfl⟩

/-! An io of the TCP transport that has its context. -/

section
variable (layer) (kind : IoKind) (ctx : TcpCtx)

theorem validOps_tcp : validOps layer (some ⟨some .tcp, kind, some ctx⟩) = some (tcpOps layer) := rfl

theorem ioCreate_tcp (desc : IoDesc) : ioCreate layer (some ⟨some .tcp, kind, some ctx⟩) (some desc) =
    tcpOpen layer (some ⟨some .tcp, .none, some ctx⟩) (some desc) := rfl

theorem ioPoll_tcp (timeoutMs : UInt32) : ioPoll layer (some ⟨some .tcp, kind, some ctx⟩) timeoutMs =
    tcpPoll layer (some ⟨some .tcp, kind, some ctx⟩) timeoutMs := rfl

/-- Away from the listening socket, poll only waits. -/
theorem ioPoll_waits (valid : pollTarget ctx ≠ socketInvalid)
    (elsewhere : ¬ (ctx.isServer ≠ 0 ∧ pollTarget ctx = ctx.listenSock)) (timeoutMs : UInt32) :
    ioPoll layer (some ⟨some .tcp, kind, some ctx⟩) timeoutMs = do
      let ret ← layer.ask (.poll (pollTarget ctx) timeoutMs)
      return ⟨if ret ≤ 0 then ret else 1, some ⟨some .tcp, kind, some ctx⟩⟩ := by
  rw [ioPoll_tcp]
  simp only [tcpPoll, tcpCtx, Option.bind_some, if_neg valid, if_neg elsewhere]
  congr 1
  funext ret
  by_cases ready : ret ≤ 0
  · rw [if_pos ready, if_pos ready]
  · rw [if_neg ready, if_neg ready]

/-- On the listening socket, poll accepts once a client is there. -/
theorem ioPoll_accepts (valid : pollTarget ctx ≠ socketInvalid)
    (listening : ctx.isServer ≠ 0 ∧ pollTarget ctx = ctx.listenSock) (timeoutMs : UInt32) :
    ioPoll layer (some ⟨some .tcp, kind, some ctx⟩) timeoutMs = (do
      let ret ← layer.ask (.poll (pollTarget ctx) timeoutMs)
      if ret ≤ 0 then return ⟨ret, some ⟨some .tcp, kind, some ctx⟩⟩
      acceptClient layer ⟨some .tcp, kind, some ctx⟩ ctx) := by
  rw [ioPoll_tcp]
  simp only [tcpPoll, tcpCtx, Option.bind_some, if_neg valid, if_pos listening]

theorem ioPoll_closed (invalid : pollTarget ctx = socketInvalid) (timeoutMs : UInt32) :
    ioPoll layer (some ⟨some .tcp, kind, some ctx⟩) timeoutMs =
      pure ⟨IoStatus.closed.code, some ⟨some .tcp, kind, some ctx⟩⟩ := by
  rw [ioPoll_tcp]
  simp only [tcpPoll, tcpCtx, Option.bind_some, if_pos invalid]

variable {callback : IoOps → Option (Option SmlsIo → Option Packet → Talk Int)}
  {request : Int → Nat → UInt32 → Request} {pkt : Packet} {data : Nat}

/-- A valid packet is transferred by one request on the socket. -/
theorem ioTransfer_tcp (transfers : Transfers callback request) (present : pkt.data = some data)
    (filled : pkt.len ≠ 0) :
    ioTransfer layer callback (some ⟨some .tcp, kind, some ctx⟩) (some pkt) =
      if ctx.sock = socketInvalid then return IoStatus.closed.code
      else do
        let transferred ← layer.ask (request ctx.sock data pkt.len)
        return toInt transferred := by
  have there : pkt.data.isNone = false := by rw [present]; rfl
  simp only [ioTransfer, validOps_tcp, transfers.calls, there, filled]
  simp only [tcpTransfer, present]
  rfl

theorem ioTransfer_invalid {io : Option SmlsIo} {pkt : Option Packet} (invalid : ¬ PacketValid pkt) :
    ioTransfer layer callback io pkt = pure IoStatus.invalidArg.code := by
  unfold ioTransfer
  cases validOps layer io with
  | none => rfl
  | some ops =>
      cases pkt with
      | none => rfl
      | some packet =>
          cases present : packet.data with
          | none => simp only [present, Option.isNone_none, if_true]
          | some data =>
              have empty : packet.len = 0 := by
                by_contra filled
                exact invalid ⟨packet, data, rfl, present, filled⟩
              simp only [empty, if_true, ite_self]

end

/-- What every admitted call keeps holds after every permitted sequence of calls. -/
theorem Session.run_invariant {holds : Session → Prop}
    (step : ∀ session, holds session → ∀ call, session.Admits call → holds (session.step layer call))
    {session : Session} (start : holds session) {calls : List IoCall}
    (permitted : session.Permits layer calls) : holds (session.run layer calls) := by
  induction calls generalizing session with
  | nil => exact start
  | cons call rest ih => exact ih (step session start call permitted.1) permitted.2

end Simuless.Io
