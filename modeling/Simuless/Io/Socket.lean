import Simuless.Foundation.Dialogue
import Simuless.Foundation.Ledger
import Simuless.Foundation.LittleEndian

/-! The socket layer below the transports.

Each function of the socket port is a request with an integer answer. The
operating system behind it may answer as it likes, by everything that happened
before; only a new handle is either invalid or not open already.
-/

set_option autoImplicit false

namespace Simuless.Io

open Foundation

/-- `SMLS_SOCKET_INVALID`. -/
def socketInvalid : Int := -1

/-- What `smls_socket_make_ipv4_addr` builds an address from. -/
structure Address where
  host : Bytes
  port : UInt16
  deriving DecidableEq

/-- A call of the socket port; buffers are passed by address. -/
inductive Request where
  | makeIpv4Addr (addr : Address)
  | socket
  | bind (sock : Int) (addr : Address)
  | listen (sock : Int) (backlog : Nat)
  | setNonblock (sock : Int)
  | connect (sock : Int) (addr : Address)
  | accept (sock : Int)
  | close (sock : Int)
  | send (sock : Int) (data : Nat) (len : UInt32)
  | recv (sock : Int) (data : Nat) (len : UInt32)
  | poll (sock : Int) (timeoutMs : UInt32)
  deriving DecidableEq

abbrev History := Exchanges Request Int

/-- A program that calls the socket port. -/
abbrev Talk (Result : Type) := Dialogue Request Int Result

/-- The handle a request is made on. -/
def Request.handle : Request → Option Int
  | .makeIpv4Addr _ | .socket => none
  | .bind sock _ | .listen sock _ | .setNonblock sock | .connect sock _ | .accept sock
  | .close sock | .send sock _ _ | .recv sock _ _ | .poll sock _ => some sock

/-- A handle handed out, unless the answer is the invalid one. -/
def handedOut (answer : Int) : List (Handling Int) :=
  if answer = socketInvalid then [] else [.acquire answer]

/-- What an exchange does to handles. -/
def handling : Request × Int → List (Handling Int)
  | (.makeIpv4Addr _, _) => []
  | (.socket, answer) => handedOut answer
  | (.accept sock, answer) => .access sock :: handedOut answer
  | (.close sock, _) => [.release sock]
  | (.bind sock _, _) | (.listen sock _, _) | (.setNonblock sock, _) | (.connect sock _, _)
  | (.send sock _ _, _) | (.recv sock _ _, _) | (.poll sock _, _) => [.access sock]

def trace (history : History) : List (Handling Int) := history.flatMap handling

/-- The handles obtained and not closed yet. -/
def opened (history : History) : Finset Int := Handling.held (trace history)

/-- A request that hands out a handle. -/
def Request.HandsOut : Request → Prop
  | .socket | .accept _ => True
  | _ => False

instance : DecidablePred Request.HandsOut
  | .socket | .accept _ => isTrue trivial
  | .makeIpv4Addr _ | .bind _ _ | .listen _ _ | .setNonblock _ | .connect _ _ | .close _
  | .send _ _ _ | .recv _ _ _ | .poll _ _ => isFalse id

/-- The socket layer as any environment that never hands out an open handle. -/
structure SocketLayer where
  answer : Environment Request Int
  fresh : ∀ (history : History) (request : Request), request.HandsOut →
    answer history request = socketInvalid ∨ answer history request ∉ opened history

/-- The layer that answers a request always the same, except for an open handle. -/
def SocketLayer.scripted (answers : Request → Int) : SocketLayer where
  answer history request :=
    if request.HandsOut ∧ answers request ∈ opened history then socketInvalid else answers request
  fresh history request handsOut := by
    by_cases taken : answers request ∈ opened history
    · exact .inl (if_pos ⟨handsOut, taken⟩)
    · right
      rw [if_neg fun both => taken both.2]
      exact taken

def SocketLayer.ask (layer : SocketLayer) (request : Request) : Talk Int :=
  Dialogue.ask layer.answer request

/-! Histories that keep these handles open. -/

abbrev Keeping (history : History) (handles : Finset Int) : Prop :=
  Handling.Keeps (trace history) handles

variable {layer : SocketLayer} {history : History} {handles : Finset Int}

theorem trace_concat (exchange : Request × Int) :
    trace (history ++ [exchange]) = trace history ++ handling exchange := by
  rw [trace, List.flatMap_append, List.flatMap_singleton]
  rfl

/-- A handle handed out joins the others. -/
theorem keeping_handedOut {later : List (Handling Int)} (keeps : Handling.Keeps later handles)
    (valid : socketInvalid ∉ handles) {answer : Int} (fresh : answer = socketInvalid ∨ answer ∉ handles) :
    Handling.Keeps (later ++ handedOut answer) ((insert answer handles).erase socketInvalid) := by
  rw [handedOut]
  by_cases invalid : answer = socketInvalid
  · rw [if_pos invalid, List.append_nil, invalid, Finset.erase_insert valid]
    exact keeps
  · have absent : socketInvalid ∉ insert answer handles := by
      rw [Finset.mem_insert, not_or]
      exact ⟨Ne.symm invalid, valid⟩
    rw [if_neg invalid, Finset.erase_eq_of_notMem absent]
    exact keeps.acquire (fresh.resolve_left invalid)

section
variable (keeps : Keeping history handles)
include keeps

theorem Keeping.makeIpv4Addr (addr : Address) (answer : Int) :
    Keeping (history ++ [(.makeIpv4Addr addr, answer)]) handles := by
  rw [Keeping, trace_concat, handling, List.append_nil]
  exact keeps

theorem Keeping.socket (layer : SocketLayer) (valid : socketInvalid ∉ handles) :
    Keeping (history ++ [(.socket, layer.answer history .socket)])
      ((insert (layer.answer history .socket) handles).erase socketInvalid) := by
  have fresh := layer.fresh history .socket trivial
  rw [opened, keeps.exact_handles] at fresh
  rw [Keeping, trace_concat]
  exact keeping_handedOut keeps valid fresh

theorem Keeping.accept (layer : SocketLayer) (valid : socketInvalid ∉ handles) {sock : Int}
    (present : sock ∈ handles) :
    Keeping (history ++ [(.accept sock, layer.answer history (.accept sock))])
      ((insert (layer.answer history (.accept sock)) handles).erase socketInvalid) := by
  have fresh := layer.fresh history (.accept sock) trivial
  rw [opened, keeps.exact_handles] at fresh
  rw [Keeping, trace_concat, handling, ← List.singleton_append, ← List.append_assoc]
  exact keeping_handedOut (Handling.Keeps.access keeps present) valid fresh

theorem Keeping.close {sock : Int} (present : sock ∈ handles) (answer : Int) :
    Keeping (history ++ [(.close sock, answer)]) (handles.erase sock) := by
  rw [Keeping, trace_concat]
  exact Handling.Keeps.release keeps present

/-- Any other request on an open handle keeps what is open. -/
theorem Keeping.access {request : Request} {sock answer : Int} (present : sock ∈ handles)
    (plain : handling (request, answer) = [.access sock]) :
    Keeping (history ++ [(request, answer)]) handles := by
  rw [Keeping, trace_concat, plain]
  exact Handling.Keeps.access keeps present

end

end Simuless.Io
