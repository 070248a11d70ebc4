import Simuless.Io.Ownership

/-! A server after its client's disconnect.

Pop hands on that the client is gone but keeps its handle, and poll waits on the
handle of a client as long as there is one. So a server that has accepted a client
never waits on its listening socket again, until it is destroyed.
-/

set_option autoImplicit false

namespace Simuless.Io

open Foundation

variable (layer : SocketLayer)

/-- The server goes on without the client it had: it does not use the dead handle,
and waits for a new client with push and pop closed. -/
structure Session.Survives (session : Session) (dead listening : Int) : Prop where
  unused : ∀ call : IoCall, ¬ call.IsCreate →
    ∀ exchange ∈ (ioCall layer session.io call).asked session.history, exchange.1.handle ≠ some dead
  waits : ∀ timeoutMs, ∃ answer rest,
    (ioPoll layer session.io timeoutMs).asked session.history = (.poll listening timeoutMs, answer) :: rest
  accepts : ∀ timeoutMs client,
    let polled := (.poll listening timeoutMs, layer.answer session.history (.poll listening timeoutMs))
    0 < polled.2 → layer.answer (session.history ++ [polled]) (.accept listening) = client →
      client ≠ socketInvalid → (∀ history, 0 ≤ layer.answer history (.setNonblock client)) →
        session.answer layer (.poll timeoutMs) = 2 ∧
          ∃ ctx, tcpCtx (session.step layer (.poll timeoutMs)).io = some ctx ∧ ctx.sock = client
  push : ∀ pkt, PacketValid pkt → session.answer layer (.push pkt) = IoStatus.closed.code
  pop : ∀ pkt, PacketValid pkt → session.answer layer (.pop pkt) = IoStatus.closed.code

variable {layer} {session : Session} {kind : IoKind} {ctx : TcpCtx}

/-- A server with a client. -/
structure TcpCtx.Connected (ctx : TcpCtx) : Prop where
  server : ctx.isServer ≠ 0
  client : ctx.sock ≠ socketInvalid
  apart : ctx.sock ≠ ctx.listenSock

theorem TcpCtx.Connected.poll (connected : ctx.Connected) (timeoutMs : UInt32) :
    ioPoll layer (some ⟨some .tcp, kind, some ctx⟩) timeoutMs = do
      let ret ← layer.ask (.poll ctx.sock timeoutMs)
      return ⟨if ret ≤ 0 then ret else 1, some ⟨some .tcp, kind, some ctx⟩⟩ := by
  have target : pollTarget ctx = ctx.sock := by
    rw [pollTarget, if_pos connected.server, if_pos connected.client]
  have waits := ioPoll_waits layer kind ctx
  rw [target] at waits
  exact waits connected.client (fun listening => connected.apart listening.2) timeoutMs

/-- Use of a connected server leaves the io as it is. -/
theorem TcpCtx.Connected.step (layer : SocketLayer) (connected : ctx.Connected)
    (bound : session.io = some ⟨some .tcp, kind, some ctx⟩) {call : IoCall} (use : call.IsUse) :
    (session.step layer call).io = session.io := by
  cases call with
  | create desc => exact absurd use id
  | destroy => exact absurd use id
  | push pkt => rfl
  | pop pkt => rfl
  | poll timeoutMs =>
      simp only [Session.step, ioCall]
      rw [bound, connected.poll]
      rfl

theorem TcpCtx.Connected.run (connected : ctx.Connected)
    (bound : session.io = some ⟨some .tcp, kind, some ctx⟩) {calls : List IoCall}
    (uses : ∀ call ∈ calls, call.IsUse) :
    (session.run layer calls).io = some ⟨some .tcp, kind, some ctx⟩ := by
  induction calls generalizing session with
  | nil => exact bound
  | cons call rest ih =>
      have same := connected.step layer bound (uses call List.mem_cons_self)
      exact ih (same.trans bound) fun later among => uses later (List.mem_cons_of_mem call among)

/-- Poll of a connected server uses the handle of its client. -/
theorem TcpCtx.Connected.uses (connected : ctx.Connected)
    (bound : session.io = some ⟨some .tcp, kind, some ctx⟩) :
    ¬ session.Survives layer ctx.sock ctx.listenSock := by
  intro survives
  let polled := layer.answer session.history (.poll ctx.sock 0)
  apply survives.unused (.poll 0) id (.poll ctx.sock 0, polled) _ rfl
  simp only [ioCall]
  rw [bound, connected.poll]
  exact List.mem_cons_self

theorem Session.Owned.connected (owned : session.Owned) {current : TcpCtx}
    (holds : tcpCtx session.io = some current) (server : current.isServer ≠ 0)
    (client : current.sock ≠ socketInvalid) :
    current.Connected ∧ ∃ kind, session.io = some ⟨some .tcp, kind, some current⟩ := by
  obtain ⟨kind, ctx, settled⟩ := owned
  rw [settled.bound] at holds
  obtain rfl : ctx = current := Option.some.inj holds
  exact ⟨⟨server, client, fun same => client (settled.owns.apart same)⟩, kind, settled.bound⟩

/-- In no run does a server survive its client's disconnect: once pop has returned 0
because its recv did, poll uses the dead handle, also after any further use of the io. -/
theorem disconnect_never_survived (layer : SocketLayer) (kind : IoKind) (ctx : TcpCtx)
    (desc : Option IoDesc) (calls : List IoCall)
    (permitted : (uncreated kind ctx).Permits layer (.create desc :: calls))
    (current : TcpCtx) (packet : Packet) (data : Nat) :
    let session := (uncreated kind ctx).run layer (.create desc :: calls)
    tcpCtx session.io = some current → current.isServer ≠ 0 → current.sock ≠ socketInvalid →
      packet.data = some data → packet.len ≠ 0 →
      layer.answer session.history (.recv current.sock data packet.len) = 0 →
      session.answer layer (.pop (some packet)) = 0 ∧
        ∀ later : List IoCall, (∀ call ∈ later, call.IsUse) →
          ¬ ((session.step layer (.pop (some packet))).run layer later).Survives layer
            current.sock current.listenSock := by
  intro session holds server client present filled shutdown
  obtain ⟨connected, kind, bound⟩ := (owned_of_permits permitted).connected holds server client
  constructor
  · have popped := ioTransfer_tcp layer kind current pop_transfers present filled
    rw [if_neg client, ← bound] at popped
    simp only [Session.answer, ioCall, ioPop, session, popped]
    exact congrArg toInt shutdown
  · intro later uses
    -- pop leaves the io as it is
    have afterPop : (session.step layer (.pop (some packet))).io =
        some ⟨some .tcp, kind, some current⟩ := bound
    exact connected.uses (connected.run afterPop uses)

/-- A layer with one client, which is gone as soon as it was accepted. -/
def hastyClient : SocketLayer := .scripted fun
  | .socket => 3
  | .accept _ => 4
  | .poll _ _ => 1
  | _ => 0

/-- "tcp://0.0.0.0:80", blocking. -/
def anyServer : IoDesc := ⟨some (tcpPrefix ++ anyHost ++ [58, 56, 48]), 0⟩

theorem disconnect_never_survived_hasty :
    let session := (uncreated .none ⟨0, 0, [], 0, 0, 0⟩).run hastyClient [.create (some anyServer), .poll 0]
    ¬ (session.step hastyClient (.pop (some ⟨some 0, 1⟩))).Survives hastyClient 4 3 := by
  intro session
  have popped := disconnect_never_survived hastyClient .none ⟨0, 0, [], 0, 0, 0⟩ (some anyServer) [.poll 0]
    ⟨⟨rfl, _, _, rfl⟩, trivial, trivial⟩ ⟨4, 3, anyHost, 80, 1, 0⟩ ⟨some 0, 1⟩ 0 rfl (by decide)
    (by decide) rfl (by decide) rfl
  exact popped.2 [] nofun

/-- A server whose client is gone after one pop waits for it for ever. -/
theorem server_stuck :
    ¬ ∀ (layer : SocketLayer) (kind : IoKind) (ctx : TcpCtx) (desc : Option IoDesc) (calls : List IoCall),
      (uncreated kind ctx).Permits layer (.create desc :: calls) →
        ∀ (current : TcpCtx) (packet : Packet),
          let session := (uncreated kind ctx).run layer (.create desc :: calls)
          tcpCtx session.io = some current → current.isServer ≠ 0 → current.sock ≠ socketInvalid →
            PacketValid (some packet) → session.answer layer (.pop (some packet)) = 0 →
              (session.step layer (.pop (some packet))).Survives layer current.sock current.listenSock := by
  intro survives
  have survived := survives hastyClient .none ⟨0, 0, [], 0, 0, 0⟩ (some anyServer) [.poll 0]
    ⟨⟨rfl, _, _, rfl⟩, trivial, trivial⟩ ⟨4, 3, anyHost, 80, 1, 0⟩ ⟨some 0, 1⟩ rfl (by decide)
    (by decide) ⟨_, 0, rfl, rfl, by decide⟩ (by decide)
  have connected : TcpCtx.Connected ⟨4, 3, anyHost, 80, 1, 0⟩ := ⟨by decide, by decide, by decide⟩
  exact connected.uses rfl survived

end Simuless.Io
