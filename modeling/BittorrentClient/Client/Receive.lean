import BittorrentClient.Client.Udp
import BittorrentClient.Lib.Operations

/-! `AsyncReceiveWithTimeout` (tracker_requests.cpp), event by event: the coroutine, the callback of the receive, two
    timers and the operation on the socket. -/

namespace BittorrentClient
open Runs

/-- The arguments of the callback of the receive. -/
structure Received where
  ec : Option SocketError
  read : Nat
  deriving DecidableEq, Repr

/-- How a wait on a timer ends: `none` when the timer has expired. -/
abbrev Waited := Option SocketError

/-- Where the coroutine is. -/
inductive ReceivePoint where
  | awaitTimeout
  | awaitReadEnd
  | assertionFailed
  | returned (result : Except UdpError Nat)
  deriving DecidableEq, Repr

/-- The frame of the coroutine, and the operations that were started from it: the waits on the two timers and the
    receive. -/
structure ReceiveFrame where
  timeout : Operation Waited
  read_end : Operation Waited := .idle
  receive : Operation Received
  error : Option SocketError := none
  finished : Bool := false
  read_total : Nat := 0
  point : ReceivePoint
  deriving DecidableEq, Repr

/-- What can happen: the timeout expires, the receive completes by itself, the callback is run, and the coroutine is
    resumed from one of its two waits. The timer `read_end` does not expire. -/
inductive ReceiveEvent where
  | expire
  | received (completion : Received)
  | callback
  | resumeTimeout
  | resumeReadEnd
  deriving DecidableEq, Repr

namespace ReceiveFrame

/-- The coroutine has run up to its first wait. -/
def start : ReceiveFrame := { timeout := .pending, receive := .pending, point := .awaitTimeout }

/-- The callback of the receive. -/
def callback (frame : ReceiveFrame) (completion : Received) : ReceiveFrame :=
  let wasCanceled := completion.ec = some .operationAborted
  let frame := if wasCanceled then frame else { frame with timeout := frame.timeout.cancel (some .operationAborted) }
  { frame with
    error := completion.ec
    read_total := completion.read
    finished := true
    read_end := frame.read_end.cancel (some .operationAborted) }

/-- The end of the coroutine. -/
def return_ (readMinimum : Nat) (frame : ReceiveFrame) : ReceiveFrame :=
  { frame with point := .returned (receiveResult frame.error frame.read_total readMinimum) }

/-- The coroutine from the end of its first wait on. -/
def afterTimeout (readMinimum : Nat) (frame : ReceiveFrame) (ok : Waited) : ReceiveFrame :=
  let frame :=
    if ok ≠ some .operationAborted then { frame with receive := frame.receive.cancel ⟨some .operationAborted, 0⟩ }
    else frame
  if !frame.finished then { frame with read_end := .pending, point := .awaitReadEnd } else frame.return_ readMinimum

/-- The coroutine from the end of its second wait on. -/
def afterReadEnd (readMinimum : Nat) (frame : ReceiveFrame) (ok : Waited) : ReceiveFrame :=
  if ok = some .operationAborted then frame.return_ readMinimum else { frame with point := .assertionFailed }

/-- The frame after an event, where it can happen. The handlers in the queue may be run in any order; a receive that
    completes by itself does not say that it was aborted. -/
def step (readMinimum : Nat) (frame : ReceiveFrame) : ReceiveEvent → Option ReceiveFrame
  | .expire => (frame.timeout.complete none).map fun timeout => { frame with timeout }
  | .received completion =>
    if completion.ec = some .operationAborted then none
    else (frame.receive.complete completion).map fun receive => { frame with receive }
  | .callback => frame.receive.dispatch.map fun (completion, receive) => callback { frame with receive } completion
  | .resumeTimeout => frame.timeout.dispatch.map fun (ok, timeout) => afterTimeout readMinimum { frame with timeout } ok
  | .resumeReadEnd => frame.read_end.dispatch.map fun (ok, read_end) => afterReadEnd readMinimum { frame with read_end } ok

end ReceiveFrame

/-- The frame after the events. -/
def receiveRun (readMinimum : Nat) (events : List ReceiveEvent) : Option ReceiveFrame :=
  run (ReceiveFrame.step readMinimum) .start events

end BittorrentClient
