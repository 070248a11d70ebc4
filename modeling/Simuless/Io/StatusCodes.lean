import Simuless.Io.Ownership

/-! Which failures a caller can tell from invalid arguments.

Push, pop and poll hand on the raw answer of their request to the socket layer, and
the answer of a failed request is the code of an invalid argument. What poll asks
for beyond that, it reports by a code of its own.
-/

set_option autoImplicit false

namespace Simuless.Io

open Foundation

/-- A request whose answer a call hands on. -/
def Request.IsTransport : Request → Prop
  | .send _ _ _ | .recv _ _ _ | .poll _ _ => True
  | _ => False

/-- The answers by which the socket layer reports a failure of the transport. -/
def Failed : Request × Int → Prop
  | (.send _ _ _, answer) | (.recv _ _ _, answer) | (.poll _ _, answer)
  | (.setNonblock _, answer) => answer < 0
  | (.accept _, answer) => answer = socketInvalid
  | _ => False

/-- A use of the io with valid arguments. -/
def IoCall.Valid : IoCall → Prop
  | .push pkt | .pop pkt => PacketValid pkt
  | .poll _ => True
  | _ => False

/-- What `send`, `recv` and `select` on one socket may answer. -/
structure SocketLayer.Documented (layer : SocketLayer) : Prop where
  failure : ∀ history request, request.IsTransport → -1 ≤ layer.answer history request
  single : ∀ history sock timeoutMs, layer.answer history (.poll sock timeoutMs) ≤ 1

variable (layer : SocketLayer)

/-- The call does not report an invalid argument, and reports a failure of the
transport by another negative status. -/
structure Session.Faithful (session : Session) (call : IoCall) : Prop where
  valid : session.answer layer call ≠ IoStatus.invalidArg.code
  failure : (∃ exchange ∈ (ioCall layer session.io call).asked session.history, Failed exchange) →
    ∃ status : IoStatus, status ≠ .ok ∧ status ≠ .invalidArg ∧ session.answer layer call = status.code

/-- No answer that the call hands on is -1 as an `int`. -/
def Session.Undisturbed (session : Session) (call : IoCall) : Prop :=
  ∀ exchange ∈ (ioCall layer session.io call).asked session.history,
    exchange.1.IsTransport → toInt exchange.2 ≠ -1

variable {layer} {session : Session} {kind : IoKind} {ctx : TcpCtx} {history : History}

/-- Accepting a client succeeds, or reports what failed. -/
theorem acceptClient_reports (layer : SocketLayer) (history : History) (io : SmlsIo) (ctx : TcpCtx) :
    let accepts := acceptClient layer io ctx
    (∀ exchange ∈ accepts.asked history, ¬ exchange.1.IsTransport) ∧
      ((accepts.result history).ret = IoStatus.io.code ∨
        (accepts.result history).ret = 2 ∧ ∀ exchange ∈ accepts.asked history, ¬ Failed exchange) := by
  intro accepts
  generalize found : layer.answer history (.accept ctx.listenSock) = client
  simp only [accepts, acceptClient, closeValid, SocketLayer.ask]
  by_cases invalid : client = socketInvalid
  · simp [found, invalid, Request.IsTransport]
  by_cases blocking : ctx.nonblock = 0
  · by_cases replaced : ctx.sock = socketInvalid <;>
      simp [found, invalid, blocking, replaced, Request.IsTransport, Failed]
  let accepted := history ++ [(.accept ctx.listenSock, client)]
  generalize asked : layer.answer accepted (.setNonblock client) = set
  simp only [accepted] at asked
  by_cases failed : set < 0
  · simp [found, invalid, blocking, asked, failed, Request.IsTransport]
  · by_cases replaced : ctx.sock = socketInvalid <;>
      simp [found, invalid, blocking, asked, failed, replaced, Request.IsTransport, Failed]

/-! One call. -/

/-- A call that finds the io closed says so, and asks for nothing. -/
theorem faithful_closed (call : IoCall) {io : Option SmlsIo}
    (program : ioCall layer session.io call = pure ⟨IoStatus.closed.code, io⟩) :
    session.Faithful layer call ∧ session.Undisturbed layer call := by
  refine ⟨⟨?_, fun _ => ⟨.closed, nofun, nofun, ?_⟩⟩, ?_⟩
  · simp [Session.answer, program, IoStatus.code]
  · simp [Session.answer, program]
  · simp [Session.Undisturbed, program]

theorem failed_transport {request : Request} (transport : request.IsTransport) {answer : Int}
    (failed : Failed (request, answer)) : answer < 0 := by
  cases request <;> first | exact failed | exact absurd transport id

/-- A call that hands on the answer of its only request. -/
theorem faithful_single {call : IoCall} {request : Request} {answer ret : Int}
    (asked : (ioCall layer session.io call).asked session.history = [(request, answer)])
    (answered : session.answer layer call = ret) (transport : request.IsTransport)
    (same : ret = -1 ↔ toInt answer = -1) (failure : -1 ≤ answer) :
    session.Faithful layer call ↔ session.Undisturbed layer call := by
  constructor
  · intro faithful exchange among _
    rw [asked, List.mem_singleton] at among
    subst among
    intro raw
    exact faithful.valid (answered.trans (same.mpr raw))
  · intro undisturbed
    have among : (request, answer) ∈ (ioCall layer session.io call).asked session.history := by
      rw [asked]
      exact List.mem_singleton_self _
    have distinct : toInt answer ≠ -1 := undisturbed _ among transport
    constructor
    · rw [answered]
      exact fun raw => distinct (same.mp raw)
    · rintro ⟨exchange, among, failed⟩
      rw [asked, List.mem_singleton] at among
      subst among
      have negative := failed_transport transport failed
      obtain rfl : answer = -1 := by omega
      exact absurd (toInt_small (by decide) (by decide)) distinct

/-- A poll that was answered by 1 and then reports by itself what failed. -/
theorem faithful_reported {sock ret : Int} {timeoutMs : UInt32} {rest : History}
    (asked : (ioCall layer session.io (.poll timeoutMs)).asked session.history =
      (.poll sock timeoutMs, 1) :: rest)
    (answered : session.answer layer (.poll timeoutMs) = ret)
    (plain : ∀ exchange ∈ rest, ¬ exchange.1.IsTransport)
    (reports : ret = IoStatus.io.code ∨ ret = 2 ∧ ∀ exchange ∈ rest, ¬ Failed exchange) :
    session.Faithful layer (.poll timeoutMs) ∧ session.Undisturbed layer (.poll timeoutMs) := by
  refine ⟨⟨?_, ?_⟩, ?_⟩
  · rw [answered]
    rcases reports with rfl | ⟨rfl, -⟩ <;> decide
  · rintro ⟨exchange, among, failed⟩
    rw [asked, List.mem_cons] at among
    rcases reports with rfl | ⟨rfl, succeeded⟩
    · exact ⟨.io, nofun, nofun, answered⟩
    · rcases among with rfl | among
      · exact absurd failed (by decide : ¬ (1 : Int) < 0)
      · exact absurd failed (succeeded exchange among)
  · intro exchange among transport
    rw [asked, List.mem_cons] at among
    rcases among with rfl | among
    · show toInt 1 ≠ -1
      decide
    · exact absurd transport (plain exchange among)

section
variable (documented : layer.Documented)
include documented

theorem transfer_faithful_iff {callback : IoOps → Option (Option SmlsIo → Option Packet → Talk Int)}
    {request : Int → Nat → UInt32 → Request} (transfers : Transfers callback request)
    (transport : ∀ sock data len, (request sock data len).IsTransport)
    (bound : session.io = some ⟨some .tcp, kind, some ctx⟩) {pkt : Option Packet} (valid : PacketValid pkt)
    {call : IoCall} (program : ioCall layer session.io call = (do
      let ret ← ioTransfer layer callback session.io pkt
      return ⟨ret, session.io⟩)) :
    session.Faithful layer call ↔ session.Undisturbed layer call := by
  obtain ⟨packet, data, rfl, present, filled⟩ := valid
  have transferred := ioTransfer_tcp layer kind ctx transfers present filled
  rw [← bound] at transferred
  rw [transferred] at program
  by_cases noSock : ctx.sock = socketInvalid
  · rw [if_pos noSock, pure_bind] at program
    have closed := faithful_closed call program
    exact iff_of_true closed.1 closed.2
  · rw [if_neg noSock] at program
    have sends := transport ctx.sock data packet.len
    generalize request ctx.sock data packet.len = made at program sends
    have asked : (ioCall layer session.io call).asked session.history =
        [(made, layer.answer session.history made)] := by
      rw [program]
      rfl
    have answered : session.answer layer call = toInt (layer.answer session.history made) := by
      rw [Session.answer, program]
      rfl
    exact faithful_single asked answered sends Iff.rfl (documented.failure _ _ sends)

/-- Poll waits first, and accepts only when that succeeded. -/
theorem poll_faithful_iff (bound : session.io = some ⟨some .tcp, kind, some ctx⟩) (timeoutMs : UInt32) :
    session.Faithful layer (.poll timeoutMs) ↔ session.Undisturbed layer (.poll timeoutMs) := by
  by_cases invalid : pollTarget ctx = socketInvalid
  · have closed := ioPoll_closed layer kind ctx invalid timeoutMs
    rw [← bound] at closed
    have faithful := faithful_closed (.poll timeoutMs) closed
    exact iff_of_true faithful.1 faithful.2
  have least := documented.failure session.history (.poll (pollTarget ctx) timeoutMs) trivial
  have most := documented.single session.history (pollTarget ctx) timeoutMs
  generalize found : layer.answer session.history (.poll (pollTarget ctx) timeoutMs) = answer at least most
  have small : toInt answer = answer := toInt_small (by omega) (by omega)
  by_cases listening : ctx.isServer ≠ 0 ∧ pollTarget ctx = ctx.listenSock
  · have program := ioPoll_accepts layer kind ctx invalid listening timeoutMs
    rw [← bound] at program
    by_cases ready : answer ≤ 0
    · have asked : (ioCall layer session.io (.poll timeoutMs)).asked session.history =
          [(.poll (pollTarget ctx) timeoutMs, answer)] := by
        simp [ioCall, program, SocketLayer.ask, found, ready]
      have answered : session.answer layer (.poll timeoutMs) = answer := by
        simp [Session.answer, ioCall, program, SocketLayer.ask, found, ready]
      exact faithful_single asked answered trivial (by rw [small]) least
    · obtain rfl : answer = 1 := by omega
      let polled : History := session.history ++ [(.poll (pollTarget ctx) timeoutMs, 1)]
      obtain ⟨plain, reports⟩ := acceptClient_reports layer polled ⟨some .tcp, kind, some ctx⟩ ctx
      generalize acceptClient layer ⟨some .tcp, kind, some ctx⟩ ctx = rest at program plain reports
      have asked : (ioCall layer session.io (.poll timeoutMs)).asked session.history =
          (.poll (pollTarget ctx) timeoutMs, 1) :: rest.asked polled := by
        simp [ioCall, program, SocketLayer.ask, found, polled]
      have answered : session.answer layer (.poll timeoutMs) = (rest.result polled).ret := by
        simp [Session.answer, ioCall, program, SocketLayer.ask, found, polled]
      have faithful := faithful_reported asked answered plain reports
      exact iff_of_true faithful.1 faithful.2
  · have program := ioPoll_waits layer kind ctx invalid listening timeoutMs
    rw [← bound] at program
    have asked : (ioCall layer session.io (.poll timeoutMs)).asked session.history =
        [(.poll (pollTarget ctx) timeoutMs, answer)] := by
      simp [ioCall, program, SocketLayer.ask, found]
    have answered : session.answer layer (.poll timeoutMs) = if answer ≤ 0 then answer else 1 := by
      simp [Session.answer, ioCall, program, SocketLayer.ask, found]
    apply faithful_single asked answered trivial _ least
    rw [small]
    grind

end

/-- In every reachable state a use of the io with valid arguments is reported
faithfully if and only if no answer that it hands on is -1. -/
theorem status_faithful_iff (layer : SocketLayer) (documented : layer.Documented) (kind : IoKind)
    (ctx : TcpCtx) (desc : Option IoDesc) (calls : List IoCall)
    (permitted : (uncreated kind ctx).Permits layer (.create desc :: calls)) (call : IoCall)
    (valid : call.Valid) :
    let session := (uncreated kind ctx).run layer (.create desc :: calls)
    session.Faithful layer call ↔ session.Undisturbed layer call := by
  intro session
  obtain ⟨kind, ctx, bound⟩ := (owned_of_permits permitted).bound
  cases call with
  | create desc => exact absurd valid id
  | destroy => exact absurd valid id
  | push pkt => exact transfer_faithful_iff documented push_transfers (fun _ _ _ => trivial) bound valid rfl
  | pop pkt => exact transfer_faithful_iff documented pop_transfers (fun _ _ _ => trivial) bound valid rfl
  | poll timeoutMs => exact poll_faithful_iff documented bound timeoutMs

theorem scripted_documented {answers : Request → Int} (least : ∀ request, -1 ≤ answers request)
    (single : ∀ sock timeoutMs, answers (.poll sock timeoutMs) ≤ 1) :
    (SocketLayer.scripted answers).Documented where
  failure history request transport := by
    simp only [SocketLayer.scripted]
    split
    · decide
    · exact least request
  single history sock timeoutMs := by
    simp only [SocketLayer.scripted, Request.HandsOut, false_and, if_false]
    exact single sock timeoutMs

/-- "tcp://1:80", non-blocking. -/
def someClient : IoDesc := ⟨some (tcpPrefix ++ [49, 58, 56, 48]), 1⟩

/-- A layer on which every call would block. -/
def blockedLayer : SocketLayer := .scripted fun
  | .socket => 3
  | .send _ _ _ | .recv _ _ _ | .connect _ _ => -1
  | _ => 0

theorem blockedLayer_documented : blockedLayer.Documented := by
  apply scripted_documented
  · intro request
    cases request <;> simp
  · intro _ _
    exact Int.zero_le_ofNat 1

/-- A poll that times out is reported as such. -/
theorem status_faithful_poll :
    let session := (uncreated .none ⟨0, 0, [], 0, 0, 0⟩).run blockedLayer [.create (some someClient)]
    session.Faithful blockedLayer (.poll 0) := by
  intro session
  have same := status_faithful_iff blockedLayer blockedLayer_documented .none ⟨0, 0, [], 0, 0, 0⟩
    (some someClient) [] ⟨⟨rfl, _, _, rfl⟩, trivial⟩ (.poll 0) trivial
  apply same.mpr
  intro exchange among _
  obtain rfl : exchange = (.poll 3 0, 0) := List.mem_singleton.mp among
  decide

/-- A pop that would block is reported as an invalid argument. -/
theorem blocked_pop_unfaithful :
    ¬ ∀ (layer : SocketLayer), layer.Documented → ∀ (kind : IoKind) (ctx : TcpCtx) (desc : Option IoDesc)
      (calls : List IoCall), (uncreated kind ctx).Permits layer (.create desc :: calls) →
        let session := (uncreated kind ctx).run layer (.create desc :: calls)
        session.isOpen = true → ∀ call : IoCall, call.Valid → session.Faithful layer call := by
  intro faithful
  have pops := faithful blockedLayer blockedLayer_documented .none ⟨0, 0, [], 0, 0, 0⟩ (some someClient) []
    ⟨⟨rfl, _, _, rfl⟩, trivial⟩ (by decide) (.pop (some ⟨some 0, 1⟩)) ⟨_, 0, rfl, rfl, by decide⟩
  exact absurd pops.valid (by decide)

end Simuless.Io
