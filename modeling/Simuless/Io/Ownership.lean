import Simuless.Io.Api

/-! Who closes which socket.

A context owns the open handles: it names every one of them, and no two of its
fields name the same. Each transport call keeps that, whatever the socket layer
answers; hence every permitted sequence of calls does.
-/

set_option autoImplicit false

namespace Simuless.Io

open Foundation

/-- The valid handles among the two sockets of a context. -/
def TcpCtx.handles (ctx : TcpCtx) : Finset Int :=
  ({ctx.sock, ctx.listenSock} : Finset Int).erase socketInvalid

/-- The context names exactly the open handles, and each of them once. -/
structure TcpCtx.Owns (ctx : TcpCtx) (history : History) : Prop where
  keeping : Keeping history ctx.handles
  apart : ctx.sock = ctx.listenSock → ctx.sock = socketInvalid

/-- A server holds a listening handle and a client holds none. -/
structure TcpCtx.Serving (ctx : TcpCtx) : Prop where
  server : ctx.isServer ≠ 0 → ctx.listenSock ≠ socketInvalid
  client : ctx.isServer = 0 → ctx.listenSock = socketInvalid

variable {layer : SocketLayer} {history : History} {ctx : TcpCtx}

namespace TcpCtx

theorem invalid_notMem : socketInvalid ∉ ctx.handles := Finset.notMem_erase _ _

theorem sock_mem (valid : ctx.sock ≠ socketInvalid) : ctx.sock ∈ ctx.handles :=
  Finset.mem_erase.mpr ⟨valid, Finset.mem_insert_self _ _⟩

theorem listenSock_mem (valid : ctx.listenSock ≠ socketInvalid) : ctx.listenSock ∈ ctx.handles :=
  Finset.mem_erase.mpr ⟨valid, Finset.mem_insert_of_mem (Finset.mem_singleton_self _)⟩

/-- With one of the sockets invalid, the other is the only handle. -/
theorem handles_sock (none : ctx.listenSock = socketInvalid) :
    ctx.handles = ({ctx.sock} : Finset Int).erase socketInvalid := by
  rw [handles, none, Finset.pair_comm, Finset.erase_insert_eq_erase]

theorem handles_listenSock (none : ctx.sock = socketInvalid) :
    ctx.handles = ({ctx.listenSock} : Finset Int).erase socketInvalid := by
  rw [handles, none, Finset.erase_insert_eq_erase]

theorem reset_handles : (ctxReset ctx).handles = ∅ := by
  rw [handles_sock rfl]
  rfl

theorem Owns.ofSock (none : ctx.listenSock = socketInvalid)
    (keeping : Keeping history (({ctx.sock} : Finset Int).erase socketInvalid)) : ctx.Owns history where
  keeping := by rw [handles_sock none]; exact keeping
  apart same := same.trans none

theorem Owns.ofListenSock (none : ctx.sock = socketInvalid)
    (keeping : Keeping history (({ctx.listenSock} : Finset Int).erase socketInvalid)) :
    ctx.Owns history where
  keeping := by rw [handles_listenSock none]; exact keeping
  apart _ := none

theorem Owns.closed (noSock : ctx.sock = socketInvalid) (noListenSock : ctx.listenSock = socketInvalid)
    (keeping : Keeping history ∅) : ctx.Owns history := by
  apply Owns.ofSock noListenSock
  rw [noSock, ← insert_empty_eq, Finset.erase_insert (Finset.notMem_empty _)]
  exact keeping

end TcpCtx

/-- What follows the answer of a request follows the request. -/
theorem ensures_ask {Result : Type} {request : Request} {rest : Int → Talk Result}
    {post : Result → History → Prop}
    (holds : (rest (layer.answer history request)).Ensures
      (history ++ [(request, layer.answer history request)]) post) :
    (layer.ask request >>= rest).Ensures history post := Dialogue.Ensures.next holds

/-- A request on an owned handle leaves the handles as they are, whatever the answer. -/
theorem TcpCtx.Owns.ensures (owns : ctx.Owns history) {sock : Int} (present : sock ∈ ctx.handles)
    {request : Request} (plain : ∀ answer, handling (request, answer) = [.access sock])
    {Result : Type} {rest : Int → Talk Result} {post : Result → History → Prop}
    (holds : ∀ answer later, ctx.Owns later → (rest answer).Ensures later post) :
    (layer.ask request >>= rest).Ensures history post := by
  apply ensures_ask
  apply holds
  exact ⟨owns.keeping.access present (plain _), owns.apart⟩

/-! Opening. -/

/-- What an attempt to open sockets ends with. -/
structure Attempted (attempt : Bool × TcpCtx) (later : History) : Prop where
  owns : attempt.2.Owns later
  serving : attempt.1 = true → attempt.2.Serving

theorem Attempted.failed (owns : ctx.Owns history) : Attempted (false, ctx) history where
  owns := owns
  serving same := Bool.noConfusion same

theorem openServer_attempted (keeping : Keeping history ∅) (server : ctx.isServer ≠ 0)
    (closed : ctx.sock = socketInvalid) (addr : Address) :
    (openServer layer ctx addr).Ensures history Attempted := by
  apply ensures_ask
  have keeping := keeping.socket layer (Finset.notMem_empty _)
  generalize layer.answer history .socket = sock at keeping
  have owns : ({ ctx with listenSock := sock } : TcpCtx).Owns (history ++ [(.socket, sock)]) :=
    .ofListenSock closed keeping
  apply Dialogue.Ensures.check fun _ => .done (.failed owns)
  intro valid
  have present : sock ∈ ({ ctx with listenSock := sock } : TcpCtx).handles := TcpCtx.listenSock_mem valid
  have serving : ({ ctx with listenSock := sock } : TcpCtx).Serving :=
    ⟨fun _ => valid, fun client => absurd client server⟩
  apply owns.ensures present fun _ => rfl
  intro bound later owns
  apply Dialogue.Ensures.check fun _ => .done (.failed owns)
  intro _
  apply owns.ensures present fun _ => rfl
  intro listening later owns
  apply Dialogue.Ensures.check fun _ => .done (.failed owns)
  intro _
  apply Dialogue.Ensures.check fun _ => .done ⟨owns, fun _ => serving⟩
  intro _
  apply owns.ensures present fun _ => rfl
  intro set later owns
  exact .done ⟨owns, fun _ => serving⟩

theorem openClient_attempted (keeping : Keeping history ∅) (client : ctx.isServer = 0)
    (closed : ctx.listenSock = socketInvalid) (addr : Address) :
    (openClient layer ctx addr).Ensures history Attempted := by
  apply ensures_ask
  have keeping := keeping.socket layer (Finset.notMem_empty _)
  generalize layer.answer history .socket = sock at keeping
  have owns : ({ ctx with sock } : TcpCtx).Owns (history ++ [(.socket, sock)]) := .ofSock closed keeping
  apply Dialogue.Ensures.check fun _ => .done (.failed owns)
  intro valid
  have present : sock ∈ ({ ctx with sock } : TcpCtx).handles := TcpCtx.sock_mem valid
  have serving : ({ ctx with sock } : TcpCtx).Serving :=
    ⟨fun server => absurd client server, fun _ => closed⟩
  apply Dialogue.Ensures.check
  · intro _
    apply owns.ensures present fun _ => rfl
    intro connected later owns
    exact .done ⟨owns, fun _ => serving⟩
  · intro _
    apply owns.ensures present fun _ => rfl
    intro set later owns
    apply Dialogue.Ensures.check fun _ => .done (.failed owns)
    intro _
    apply owns.ensures present fun _ => rfl
    intro connected later owns
    exact .done ⟨owns, fun _ => serving⟩

theorem openSockets_attempted (keeping : Keeping history ∅) (noSock : ctx.sock = socketInvalid)
    (noListenSock : ctx.listenSock = socketInvalid) :
    (openSockets layer ctx).Ensures history Attempted := by
  apply ensures_ask
  let addr : Address := ⟨ctx.host, ctx.port⟩
  have keeping := keeping.makeIpv4Addr addr (layer.answer history (.makeIpv4Addr addr))
  apply Dialogue.Ensures.check fun _ => .done (.failed (.closed noSock noListenSock keeping))
  intro _
  apply Dialogue.Ensures.check
  · intro server
    exact openServer_attempted keeping server noSock _
  · intro client
    exact openClient_attempted keeping (of_not_not client) noListenSock _

/-! Closing. -/

theorem closeValid_keeping {handles : Finset Int} (keeping : Keeping history handles) {sock : Int}
    (present : sock ≠ socketInvalid → sock ∈ handles) (invalid : socketInvalid ∉ handles) :
    (closeValid layer sock).Ensures history fun _ later => Keeping later (handles.erase sock) := by
  apply Dialogue.Ensures.check
  · intro same
    rw [same, Finset.erase_eq_of_notMem invalid]
    exact .done keeping
  · intro valid
    apply ensures_ask
    exact .done (keeping.close (present valid) _)

/-- Closing both sockets closes every open handle, and each once. -/
theorem closeSockets_keeping (owns : ctx.Owns history) (io : SmlsIo) :
    (closeSockets layer io ctx).Ensures history fun closed later =>
      closed = { io with kind := .none, priv := some (ctxReset ctx) } ∧ Keeping later ∅ := by
  apply (closeValid_keeping owns.keeping TcpCtx.sock_mem TcpCtx.invalid_notMem).follow
  intro _ later keeping
  have present : ctx.listenSock ≠ socketInvalid → ctx.listenSock ∈ ctx.handles.erase ctx.sock := by
    intro valid
    have other : ctx.listenSock ≠ ctx.sock := fun same => valid (same.trans (owns.apart same.symm))
    exact Finset.mem_erase.mpr ⟨other, TcpCtx.listenSock_mem valid⟩
  have invalid : socketInvalid ∉ ctx.handles.erase ctx.sock := fun among =>
    TcpCtx.invalid_notMem (Finset.mem_of_mem_erase among)
  apply (closeValid_keeping keeping present invalid).follow
  intro _ later keeping
  have none : (ctx.handles.erase ctx.sock).erase ctx.listenSock = ∅ := by
    apply Finset.eq_empty_of_forall_notMem
    intro handle
    simp only [TcpCtx.handles, Finset.mem_erase, Finset.mem_insert, Finset.mem_singleton]
    tauto
  rw [none] at keeping
  exact .done ⟨rfl, keeping⟩

/-! Sessions. -/

/-- What a TCP io and the open handles are like between two calls. -/
structure Settled (session : Session) (kind : IoKind) (ctx : TcpCtx) : Prop where
  bound : session.io = some ⟨some .tcp, kind, some ctx⟩
  owns : ctx.Owns session.history
  whileOpen : session.isOpen = true → kind = .stream ∧ ctx.Serving
  whileClosed : session.isOpen = false → kind = .none ∧ ctx.handles = ∅

def Session.Owned (session : Session) : Prop := ∃ kind ctx, Settled session kind ctx

theorem Session.Owned.bound {session : Session} (owned : session.Owned) :
    ∃ kind ctx, session.io = some ⟨some .tcp, kind, some ctx⟩ := by
  obtain ⟨kind, ctx, settled⟩ := owned
  exact ⟨kind, ctx, settled.bound⟩

theorem owned_closed (keeping : Keeping history ∅) :
    Session.Owned ⟨some ⟨some .tcp, .none, some (ctxReset ctx)⟩, history, false⟩ :=
  ⟨.none, ctxReset ctx, rfl, .closed rfl rfl keeping, nofun, fun _ => ⟨rfl, TcpCtx.reset_handles⟩⟩

/-- Whatever the attempt, what is open in the end belongs to the io. -/
theorem tcpOpen_owned (layer : SocketLayer) (keeping : Keeping history ∅) (kind : IoKind) (ctx : TcpCtx)
    (uri : Bytes) (nonblock : Int) :
    (tcpOpen layer (some ⟨some .tcp, kind, some ctx⟩) (some ⟨some uri, nonblock⟩)).Ensures history
      fun returned later =>
        Session.Owned ⟨returned.io, later, decide (returned.ret = IoStatus.ok.code)⟩ := by
  apply tcpOpen_ensures Attempted
  case attempts =>
    intro ctx noSock noListenSock
    exact ⟨.failed (.closed noSock noListenSock keeping), openSockets_attempted keeping noSock noListenSock⟩
  case success =>
    intro ctx later attempted
    exact ⟨.stream, ctx, rfl, attempted.owns, fun _ => ⟨rfl, attempted.serving rfl⟩, nofun⟩
  case failure =>
    intro ctx later attempted priv
    apply (closeSockets_keeping attempted.owns _).imp
    rintro _ later ⟨rfl, keeping⟩
    exact owned_closed keeping

/-! Polling. -/

/-- A call that leaves a context of the same role, with the same listening socket. -/
def Continues (kind : IoKind) (ctx : TcpCtx) (returned : Returned) (later : History) : Prop :=
  ∃ next : TcpCtx, returned.io = some ⟨some .tcp, kind, some next⟩ ∧ next.Owns later ∧
    next.isServer = ctx.isServer ∧ next.listenSock = ctx.listenSock

theorem pollTarget_mem (valid : pollTarget ctx ≠ socketInvalid) : pollTarget ctx ∈ ctx.handles := by
  rw [pollTarget] at valid ⊢
  split
  · split
    · rename_i valid
      exact TcpCtx.sock_mem valid
    · grind [TcpCtx.listenSock_mem]
  · grind [TcpCtx.sock_mem]

/-- Poll waits on the listening socket only while there is no client. -/
theorem pollTarget_listenSock (owns : ctx.Owns history) (server : ctx.isServer ≠ 0)
    (listening : pollTarget ctx = ctx.listenSock) : ctx.sock = socketInvalid := by
  by_contra valid
  rw [pollTarget, if_pos server, if_pos valid] at listening
  exact valid (owns.apart listening)

/-- The handles with an accepted client among them. -/
theorem handles_accepted (noSock : ctx.sock = socketInvalid) (client : Int) :
    ({ ctx with sock := client } : TcpCtx).handles = (insert client ctx.handles).erase socketInvalid := by
  ext handle
  simp only [TcpCtx.handles, noSock, Finset.mem_erase, Finset.mem_insert, Finset.mem_singleton]
  tauto

/-- An accepted client takes the place of none, or is closed again. -/
theorem acceptRest_continues (layer : SocketLayer)
    (apart : ctx.sock = ctx.listenSock → ctx.sock = socketInvalid)
    (noSock : ctx.sock = socketInvalid) {client : Int} (valid : client ≠ socketInvalid)
    (absent : client ∉ ctx.handles) (kind : IoKind) (set : Int) (later : History)
    (owns : ({ ctx with sock := client } : TcpCtx).Owns later) :
    Dialogue.Ensures
      (if set < 0 then do
          let _ ← layer.ask (.close client)
          return ⟨IoStatus.io.code, some ⟨some .tcp, kind, some ctx⟩⟩
        else do
          closeValid layer ctx.sock
          return (⟨2, some ⟨some .tcp, kind, some { ctx with sock := client }⟩⟩ : Returned)) later
      (Continues kind ctx) := by
  apply Dialogue.Ensures.check
  · intro _
    apply ensures_ask
    have keeping := owns.keeping.close (TcpCtx.sock_mem valid) (layer.answer later (.close client))
    rw [handles_accepted noSock, Finset.erase_right_comm, Finset.erase_insert absent,
      Finset.erase_eq_of_notMem TcpCtx.invalid_notMem] at keeping
    exact .done ⟨ctx, rfl, ⟨keeping, apart⟩, rfl, rfl⟩
  · intro _
    rw [closeValid, if_pos noSock]
    exact .next (.done (.done ⟨_, rfl, owns, rfl, rfl⟩))

theorem acceptClient_continues (owns : ctx.Owns history) (noSock : ctx.sock = socketInvalid)
    (listening : ctx.listenSock ≠ socketInvalid) (kind : IoKind) :
    (acceptClient layer ⟨some .tcp, kind, some ctx⟩ ctx).Ensures history (Continues kind ctx) := by
  have fresh := layer.fresh history (.accept ctx.listenSock) trivial
  rw [opened, owns.keeping.exact_handles] at fresh
  have keeping := owns.keeping.accept layer TcpCtx.invalid_notMem (TcpCtx.listenSock_mem listening)
  apply ensures_ask
  generalize layer.answer history (.accept ctx.listenSock) = client at fresh keeping
  generalize history ++ [(Request.accept ctx.listenSock, client)] = accepted at keeping
  apply Dialogue.Ensures.check
  · intro invalid
    rw [invalid, Finset.erase_insert TcpCtx.invalid_notMem] at keeping
    exact .done ⟨ctx, rfl, ⟨keeping, owns.apart⟩, rfl, rfl⟩
  intro valid
  have absent := fresh.resolve_left valid
  rw [← handles_accepted noSock] at keeping
  have next : ({ ctx with sock := client } : TcpCtx).Owns accepted := by
    refine ⟨keeping, fun same => absurd ?_ absent⟩
    rw [show client = ctx.listenSock from same]
    exact TcpCtx.listenSock_mem listening
  have rest := acceptRest_continues layer owns.apart noSock valid absent kind
  apply Dialogue.Ensures.check
  · intro _
    exact .next (.done (rest 0 accepted next))
  · intro _
    exact next.ensures (TcpCtx.sock_mem valid) (fun _ => rfl) rest

theorem ioPoll_owned {session : Session} (owned : session.Owned) (timeoutMs : UInt32) :
    (ioPoll layer session.io timeoutMs).Ensures session.history
      fun returned later => Session.Owned ⟨returned.io, later, session.isOpen⟩ := by
  obtain ⟨kind, ctx, settled⟩ := owned
  rw [settled.bound, ioPoll_tcp]
  have unchanged : ∀ later, ctx.Owns later →
      Session.Owned ⟨some ⟨some .tcp, kind, some ctx⟩, later, session.isOpen⟩ := fun later owns =>
    ⟨kind, ctx, rfl, owns, settled.whileOpen, settled.whileClosed⟩
  simp only [tcpPoll, tcpCtx, Option.bind_some]
  apply Dialogue.Ensures.check fun _ => .done (unchanged _ settled.owns)
  intro valid
  apply settled.owns.ensures (pollTarget_mem valid) fun _ => rfl
  intro ready later owns
  apply Dialogue.Ensures.check fun _ => .done (unchanged later owns)
  intro _
  apply Dialogue.Ensures.check
  · rintro ⟨server, listening⟩
    have noSock := pollTarget_listenSock owns server listening
    apply (acceptClient_continues owns noSock (listening ▸ valid) kind).imp
    rintro returned later ⟨next, same, owns, role, listenSock⟩
    refine ⟨kind, next, same, owns, fun isOpen => ?_, fun isClosed => ?_⟩
    · obtain ⟨stream, serving⟩ := settled.whileOpen isOpen
      exact ⟨stream, role ▸ listenSock ▸ serving.server, role ▸ listenSock ▸ serving.client⟩
    · have present := pollTarget_mem valid
      rw [(settled.whileClosed isClosed).2] at present
      exact absurd present (Finset.notMem_empty _)
  · intro _
    exact .done (unchanged later owns)

/-! Transfers. -/

/-- A transfer makes at most a request on the socket. -/
theorem ioTransfer_owns (layer : SocketLayer) (owns : ctx.Owns history) (kind : IoKind)
    {callback : IoOps → Option (Option SmlsIo → Option Packet → Talk Int)}
    {request : Int → Nat → UInt32 → Request} (transfers : Transfers callback request)
    (pkt : Option Packet) :
    (ioTransfer layer callback (some ⟨some .tcp, kind, some ctx⟩) pkt).Ensures history
      fun _ later => ctx.Owns later := by
  by_cases valid : PacketValid pkt
  · obtain ⟨packet, data, rfl, present, filled⟩ := valid
    rw [ioTransfer_tcp layer kind ctx transfers present filled]
    apply Dialogue.Ensures.check
    · intro _
      exact .done owns
    · intro connected
      apply owns.ensures (TcpCtx.sock_mem connected) (transfers.plain _ _ _)
      intro _ later owns
      exact .done owns
  · rw [ioTransfer_invalid layer valid]
    exact .done owns

theorem Session.Owned.transfer {session : Session} (owned : session.Owned)
    {callback : IoOps → Option (Option SmlsIo → Option Packet → Talk Int)}
    {request : Int → Nat → UInt32 → Request} (transfers : Transfers callback request)
    (pkt : Option Packet) :
    Dialogue.Ensures
      (do
        let ret ← ioTransfer layer callback session.io pkt
        return (⟨ret, session.io⟩ : Returned)) session.history
      fun returned later => Session.Owned ⟨returned.io, later, session.isOpen⟩ := by
  obtain ⟨kind, ctx, settled⟩ := owned
  have transferred := ioTransfer_owns layer settled.owns kind transfers pkt
  rw [← settled.bound] at transferred
  apply transferred.follow
  intro ret later owns
  exact .done ⟨kind, ctx, settled.bound, owns, settled.whileOpen, settled.whileClosed⟩

/-! Whole sessions. -/

theorem ioDestroy_owned {session : Session} (owned : session.Owned) :
    (ioDestroy layer session.io).Ensures session.history
      fun returned later => Session.Owned ⟨returned.io, later, false⟩ := by
  obtain ⟨kind, ctx, settled⟩ := owned
  rw [settled.bound]
  simp only [ioDestroy, validOps_tcp]
  have closes : (tcpClose layer (some ⟨some .tcp, kind, some ctx⟩)).Ensures session.history
      fun returned later => returned = ⟨IoStatus.ok.code, some ⟨some .tcp, .none, some (ctxReset ctx)⟩⟩ ∧
        Keeping later ∅ := by
    apply (closeSockets_keeping settled.owns _).follow
    rintro closed later ⟨rfl, keeping⟩
    exact .done ⟨rfl, keeping⟩
  apply closes.follow
  rintro returned later ⟨rfl, keeping⟩
  exact .done (owned_closed keeping)

theorem Session.Owned.step {session : Session} (owned : session.Owned) (call : IoCall)
    (admitted : session.Admits call) : (session.step layer call).Owned := by
  cases call with
  | create desc =>
      obtain ⟨closed, uri, nonblock, rfl⟩ := admitted
      obtain ⟨kind, ctx, settled⟩ := owned
      have keeping : Keeping session.history ∅ := (settled.whileClosed closed).2 ▸ settled.owns.keeping
      have created := tcpOpen_owned layer keeping .none ctx uri nonblock
      rw [← ioCreate_tcp, ← settled.bound] at created
      exact created
  | destroy => exact ioDestroy_owned owned
  | push pkt => exact owned.transfer push_transfers pkt
  | pop pkt => exact owned.transfer pop_transfers pkt
  | poll timeoutMs => exact ioPoll_owned owned timeoutMs

/-- A first create may find a context of any contents. -/
theorem uncreated_owned {kind : IoKind} {desc : Option IoDesc}
    (admitted : (uncreated kind ctx).Admits (.create desc)) :
    ((uncreated kind ctx).step layer (.create desc)).Owned := by
  obtain ⟨-, uri, nonblock, rfl⟩ := admitted
  have none : Keeping (uncreated kind ctx).history ∅ := Handling.Keeps.nil
  exact tcpOpen_owned layer none .none ctx uri nonblock

theorem owned_of_permits {kind : IoKind} {desc : Option IoDesc} {calls : List IoCall}
    (permitted : (uncreated kind ctx).Permits layer (.create desc :: calls)) :
    ((uncreated kind ctx).run layer (.create desc :: calls)).Owned :=
  Session.run_invariant (fun _ => Session.Owned.step) (uncreated_owned permitted.1) permitted.2

/-- After every permitted sequence of calls the open handles are exactly the valid
ones among the two sockets of the context. None is closed twice or used after its
close, a server in operation holds a listening handle and a client none, and an io
that is not open holds none at all. -/
theorem sockets_owned (layer : SocketLayer) (kind : IoKind) (ctx : TcpCtx) (desc : Option IoDesc)
    (calls : List IoCall) (permitted : (uncreated kind ctx).Permits layer (.create desc :: calls)) :
    let session := (uncreated kind ctx).run layer (.create desc :: calls)
    ∃ kind ctx, session.io = some ⟨some .tcp, kind, some ctx⟩ ∧
      opened session.history = ctx.handles ∧
      Handling.Disciplined (trace session.history) ∧
      (session.isOpen = true → kind = .stream ∧
        (ctx.isServer ≠ 0 → ctx.listenSock ≠ socketInvalid) ∧
        (ctx.isServer = 0 → ctx.listenSock = socketInvalid)) ∧
      (session.isOpen = false → kind = .none ∧ opened session.history = ∅) := by
  obtain ⟨kind, ctx, settled⟩ := owned_of_permits permitted
  have exact_handles := settled.owns.keeping.exact_handles
  refine ⟨kind, ctx, settled.bound, exact_handles, settled.owns.keeping.disciplined, ?_, ?_⟩
  · intro isOpen
    obtain ⟨stream, serving⟩ := settled.whileOpen isOpen
    exact ⟨stream, serving.server, serving.client⟩
  · intro isClosed
    obtain ⟨reset, none⟩ := settled.whileClosed isClosed
    exact ⟨reset, exact_handles.trans none⟩

/-- A server, served by a layer on which everything goes well. -/
theorem sockets_owned_server :
    let layer := SocketLayer.scripted fun
      | .socket => 3
      | .accept _ => 4
      | .poll _ _ => 1
      | _ => 0
    -- "tcp://0.0.0.0:80"
    let desc : IoDesc := ⟨some (tcpPrefix ++ anyHost ++ [58, 56, 48]), 0⟩
    let calls : List IoCall := [.create (some desc), .poll 0]
    let session := (uncreated .none ⟨0, 0, [], 0, 0, 0⟩).run layer calls
    opened session.history = {3, 4} ∧ Handling.Disciplined (trace session.history) := by
  intro layer desc calls session
  have owned := sockets_owned layer .none ⟨0, 0, [], 0, 0, 0⟩ (some desc) [.poll 0]
    ⟨⟨rfl, _, _, rfl⟩, trivial, trivial⟩
  obtain ⟨kind, ctx, -, -, disciplined, -⟩ := owned
  exact ⟨by decide, disciplined⟩

end Simuless.Io
