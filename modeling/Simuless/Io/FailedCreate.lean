import Simuless.Io.Api

/-! What a create that fails leaves behind.

Every failure behind the reset of the context closes what was opened and resets
the context again. A descriptor without a URI is refused before the first reset,
so that the context stays as the caller had it.
-/

set_option autoImplicit false

namespace Simuless.Io

open Foundation

variable (layer : SocketLayer)

/-- The next call finds the io closed, and a destroy has nothing to close. -/
structure Session.IsClosed (session : Session) : Prop where
  push : ∀ pkt, PacketValid pkt → session.answer layer (.push pkt) = IoStatus.closed.code
  pop : ∀ pkt, PacketValid pkt → session.answer layer (.pop pkt) = IoStatus.closed.code
  poll : ∀ timeoutMs, session.answer layer (.poll timeoutMs) = IoStatus.closed.code
  destroy : ∀ sock answer, (.close sock, answer) ∉ (ioDestroy layer session.io).asked session.history

/-- The io is closed, and stays so until it is created again. -/
def Session.StaysClosed (session : Session) : Prop :=
  ∀ calls : List IoCall, (∀ call ∈ calls, ¬ call.IsCreate) → (session.run layer calls).IsClosed layer

/-- The io has a context without sockets. -/
def Session.Socketless (session : Session) : Prop :=
  ∃ kind ctx, session.io = some ⟨some .tcp, kind, some ctx⟩ ∧
    ctx.sock = socketInvalid ∧ ctx.listenSock = socketInvalid

variable {layer} {session : Session} {history : History} {ctx : TcpCtx}

/-! Without sockets. -/

theorem transfer_closed {callback : IoOps → Option (Option SmlsIo → Option Packet → Talk Int)}
    {request : Int → Nat → UInt32 → Request} (transfers : Transfers callback request)
    (socketless : session.Socketless) {pkt : Option Packet} (valid : PacketValid pkt) :
    ioTransfer layer callback session.io pkt = pure IoStatus.closed.code := by
  obtain ⟨kind, ctx, bound, noSock, -⟩ := socketless
  obtain ⟨packet, data, rfl, present, filled⟩ := valid
  rw [bound, ioTransfer_tcp layer kind ctx transfers present filled, if_pos noSock]

theorem pollTarget_closed (noSock : ctx.sock = socketInvalid)
    (noListenSock : ctx.listenSock = socketInvalid) : pollTarget ctx = socketInvalid := by
  simp [pollTarget, noSock, noListenSock]

theorem poll_closed (socketless : session.Socketless) (timeoutMs : UInt32) :
    ioPoll layer session.io timeoutMs = pure ⟨IoStatus.closed.code, session.io⟩ := by
  obtain ⟨kind, ctx, bound, noSock, noListenSock⟩ := socketless
  rw [bound]
  exact ioPoll_closed layer kind ctx (pollTarget_closed noSock noListenSock) timeoutMs

/-- A destroy closes both sockets and resets the context. -/
theorem ioDestroy_tcp (kind : IoKind) : ioDestroy layer (some ⟨some .tcp, kind, some ctx⟩) = do
    let io ← closeSockets layer ⟨some .tcp, kind, some ctx⟩ ctx
    return ⟨IoStatus.ok.code, some { io with kind := .none }⟩ := by
  simp [ioDestroy, validOps_tcp, tcpOps, tcpClose, tcpCtx]

theorem destroy_socketless (layer : SocketLayer) (socketless : session.Socketless) :
    ∃ kind ctx, ioDestroy layer session.io = pure ⟨IoStatus.ok.code, some ⟨some .tcp, kind, some ctx⟩⟩ ∧
      ctx.sock = socketInvalid ∧ ctx.listenSock = socketInvalid := by
  obtain ⟨kind, ctx, bound, noSock, noListenSock⟩ := socketless
  refine ⟨.none, ctxReset ctx, ?_, rfl, rfl⟩
  rw [bound, ioDestroy_tcp]
  simp [closeSockets, closeValid, noSock, noListenSock]

theorem Session.Socketless.isClosed (socketless : session.Socketless) : session.IsClosed layer where
  push pkt valid := by
    simp [Session.answer, ioCall, ioPush, transfer_closed push_transfers socketless valid]
  pop pkt valid := by
    simp [Session.answer, ioCall, ioPop, transfer_closed pop_transfers socketless valid]
  poll timeoutMs := by
    simp [Session.answer, ioCall, poll_closed socketless]
  destroy sock answer := by
    obtain ⟨kind, ctx, nothing, -⟩ := destroy_socketless layer socketless
    simp [nothing]

theorem Session.Socketless.step (layer : SocketLayer) (socketless : session.Socketless) {call : IoCall}
    (other : ¬ call.IsCreate) : (session.step layer call).Socketless := by
  cases call with
  | create desc => exact absurd trivial other
  | destroy =>
      obtain ⟨kind, ctx, nothing, none⟩ := destroy_socketless layer socketless
      refine ⟨kind, ctx, ?_, none⟩
      simp [Session.step, ioCall, nothing]
  | push pkt => exact socketless
  | pop pkt => exact socketless
  | poll timeoutMs =>
      obtain ⟨kind, ctx, bound, none⟩ := id socketless
      refine ⟨kind, ctx, ?_, none⟩
      simp only [Session.step, ioCall, poll_closed socketless]
      exact bound

theorem Session.Socketless.staysClosed (socketless : session.Socketless) : session.StaysClosed layer := by
  intro calls others
  induction calls generalizing session with
  | nil => exact socketless.isClosed
  | cons call rest ih =>
      have next := socketless.step layer (others call List.mem_cons_self)
      exact ih next fun later among => others later (List.mem_cons_of_mem call among)

/-- A valid socket is closed by a destroy. -/
theorem closeValid_asked (layer : SocketLayer) (history : History) {sock : Int}
    (valid : sock ≠ socketInvalid) :
    ∃ answer, (.close sock, answer) ∈ (closeValid layer sock).asked history := by
  refine ⟨layer.answer history (.close sock), ?_⟩
  simp [closeValid, if_neg valid, SocketLayer.ask]

/-- With nothing to close at a destroy, there are no sockets. -/
theorem Session.IsClosed.socketless {kind : IoKind} (bound : session.io = some ⟨some .tcp, kind, some ctx⟩)
    (closed : session.IsClosed layer) : ctx.sock = socketInvalid ∧ ctx.listenSock = socketInvalid := by
  have nothing := closed.destroy
  rw [bound, ioDestroy_tcp] at nothing
  simp only [closeSockets, Dialogue.asked_bind, List.mem_append, not_or] at nothing
  constructor
  · by_contra valid
    obtain ⟨answer, among⟩ := closeValid_asked layer session.history valid
    exact (nothing _ answer).1.1 among
  · by_contra valid
    obtain ⟨answer, among⟩ := closeValid_asked layer _ valid
    exact (nothing _ answer).1.2.1 among

/-! Failing. -/

/-- An open with a URI succeeds or leaves no sockets. -/
theorem tcpOpen_resets (layer : SocketLayer) (history : History) (kind : IoKind) (ctx : TcpCtx)
    (uri : Bytes) (nonblock : Int) :
    (tcpOpen layer (some ⟨some .tcp, kind, some ctx⟩) (some ⟨some uri, nonblock⟩)).Ensures history
      fun returned _ => returned.ret = IoStatus.ok.code ∨
        ∃ ctx, returned.io = some ⟨some .tcp, .none, some (ctxReset ctx)⟩ := by
  apply tcpOpen_ensures fun _ _ => True
  case attempts =>
    intro _ _ _
    exact ⟨trivial, trivial⟩
  case success =>
    intro _ _ _
    exact .inl rfl
  case failure =>
    intro ctx _ _ _
    exact .inr ⟨ctx, rfl⟩

/-- A create that fails leaves the io closed if and only if it was given a URI, or
there were no sockets in the context before. -/
theorem failed_create_closed_iff (layer : SocketLayer) (session : Session) (kind : IoKind) (ctx : TcpCtx)
    (bound : session.io = some ⟨some .tcp, kind, some ctx⟩) (desc : IoDesc)
    (failed : session.answer layer (.create (some desc)) < 0) :
    (session.step layer (.create (some desc))).StaysClosed layer ↔
      desc.uri ≠ none ∨ (ctx.sock = socketInvalid ∧ ctx.listenSock = socketInvalid) := by
  obtain ⟨uri, nonblock⟩ := desc
  cases uri with
  | none =>
      -- the io stays as it was but for its kind
      have refused : (session.step layer (.create (some ⟨none, nonblock⟩))).io =
          some ⟨some .tcp, .none, some ctx⟩ := by
        simp only [Session.step, ioCall, bound]
        rfl
      constructor
      · intro closed
        have first : Session.IsClosed layer _ := closed [] nofun
        exact .inr (first.socketless refused)
      · intro none
        have before := none.resolve_left (fun some => some rfl)
        exact Session.Socketless.staysClosed ⟨.none, ctx, refused, before⟩
  | some uri =>
      refine ⟨fun _ => .inl nofun, fun _ => ?_⟩
      apply Session.Socketless.staysClosed
      have resets := tcpOpen_resets layer session.history .none ctx uri nonblock
      rw [← ioCreate_tcp layer kind, ← bound] at resets
      rcases resets with succeeded | ⟨ctx, reset⟩
      · exact absurd failed (Int.not_lt.mpr (Int.le_of_eq succeeded.symm))
      · exact ⟨.none, ctxReset ctx, reset, rfl, rfl⟩

/-- A layer that hands out a socket and cannot bind it. -/
def unbindable : SocketLayer := .scripted fun
  | .socket => 3
  | .bind _ _ => -1
  | _ => 0

/-- "tcp://0.0.0.0:80" over a context of zeros: the server's socket is got, and given back. -/
theorem failed_create_closed_unbindable :
    let create : IoCall := .create (some ⟨some (tcpPrefix ++ anyHost ++ [58, 56, 48]), 0⟩)
    let session := (uncreated .none ⟨0, 0, [], 0, 0, 0⟩).step unbindable create
    (Request.socket, 3) ∈ session.history ∧ (Request.close 3, 0) ∈ session.history ∧
      session.StaysClosed unbindable := by
  intro create session
  have same := failed_create_closed_iff unbindable (uncreated .none ⟨0, 0, [], 0, 0, 0⟩) .none
    ⟨0, 0, [], 0, 0, 0⟩ rfl ⟨some (tcpPrefix ++ anyHost ++ [58, 56, 48]), 0⟩ (by decide)
  exact ⟨by decide, by decide, same.mpr (.inl nofun)⟩

/-- With a context of zeros, as a caller fills it, poll waits on handle 0. -/
theorem refused_create_not_closed :
    ¬ ∀ (layer : SocketLayer) (kind : IoKind) (ctx : TcpCtx) (desc : IoDesc),
      (uncreated kind ctx).answer layer (.create (some desc)) < 0 →
        ((uncreated kind ctx).step layer (.create (some desc))).IsClosed layer := by
  intro closed
  have refused := closed (.scripted fun _ => 0) .none ⟨0, 0, [], 0, 0, 0⟩ ⟨none, 0⟩ (by decide)
  exact absurd (refused.poll 0) (by decide)

end Simuless.Io
