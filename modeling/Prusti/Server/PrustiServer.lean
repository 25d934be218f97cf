/-
The verification server: requests are handled by verifier threads that are kept for
reuse.  Several requests are handled at a time; every step is one that nothing
interrupts, because it holds the lock of the pool or uses a channel once.
-/
import Mathlib.Data.List.Basic

namespace Prusti.Server

inductive VerificationBackend where
  | silicon
  | carbon
deriving DecidableEq

/-- The backend and the arguments it is started with. -/
structure ViperBackendConfig where
  backend : VerificationBackend
  verifierArgs : List String
deriving DecidableEq

structure VerificationRequest (Program : Type) where
  program : Program
  programName : String
  backendConfig : ViperBackendConfig

inductive VerifierPanicked where
  | verifierPanicked

variable {Id Program Result : Type}

/-- What is sent to a verifier thread, with the request that the result is for. -/
structure Message (Id Program : Type) where
  program : Program
  programName : String
  sender : Id

/-- Where a verifier thread is; it can panic while its verifier starts or works. -/
inductive ThreadPhase (Id Program : Type) where
  | starting
  | listening
  | verifying (message : Message Id Program)
  | panicked

/-- A verifier thread with the messages in its channel. -/
structure VerifierThread (Id Program : Type) where
  backendConfig : ViperBackendConfig
  phase : ThreadPhase Id Program
  queue : List (Message Id Program)

/-- The channel for the result of one request; it is canceled when the sender is dropped. -/
inductive Reply (Result : Type) where
  | pending
  | sent (result : Result)
  | canceled

/-- What a thread does, with the replies that this causes. -/
inductive VerifierThread.Step (Verdict : ViperBackendConfig → Program → Result → Prop) :
    VerifierThread Id Program → List (Id × Reply Result) → VerifierThread Id Program → Prop where
  | start {config queue} : Step Verdict ⟨config, .starting, queue⟩ [] ⟨config, .listening, queue⟩
  | receive {config message queue} :
      Step Verdict ⟨config, .listening, message :: queue⟩ [] ⟨config, .verifying message, queue⟩
  | verify {config message queue result} (hverdict : Verdict config message.program result) :
      Step Verdict ⟨config, .verifying message, queue⟩ [(message.sender, .sent result)]
        ⟨config, .listening, queue⟩
  | panicStarting {config queue} : Step Verdict ⟨config, .starting, queue⟩
      (queue.map fun message => (message.sender, .canceled)) ⟨config, .panicked, []⟩
  | panicVerifying {config message queue} : Step Verdict ⟨config, .verifying message, queue⟩
      ((message :: queue).map fun message => (message.sender, .canceled)) ⟨config, .panicked, []⟩

/-- The threads that wait for reuse, the one that was used last in front. -/
structure PrustiServer (Id Program : Type) where
  threads : List (VerifierThread Id Program)
  cacheSize : Nat

namespace PrustiServer

variable (server : PrustiServer Id Program)

/-- Try to find and take out an existing thread. -/
def takeThread (config : ViperBackendConfig) :
    Option (VerifierThread Id Program) × PrustiServer Id Program :=
  let found (thread : VerifierThread Id Program) : Bool := thread.backendConfig = config
  (server.threads.find? found, { server with threads := server.threads.eraseP found })

/-- Put a thread back; if the pool is full, the least recently used one is dropped. -/
def putBack (thread : VerifierThread Id Program) :
    PrustiServer Id Program × Option (VerifierThread Id Program) :=
  if server.cacheSize ≤ server.threads.length then
    ({ server with threads := thread :: server.threads.dropLast }, server.threads.getLast?)
  else ({ server with threads := thread :: server.threads }, none)

end PrustiServer

/-- Where the handling of a request is. -/
inductive WorkerPhase (Id Program Result : Type) where
  | arrived
  | holding (thread : VerifierThread Id Program)
  /-- The program was sent to the thread. -/
  | waiting (thread : VerifierThread Id Program) (reply : Reply Result)
  | answered (response : Except VerifierPanicked Result)
  /-- The operating system did not spawn a thread. -/
  | refused
  /-- Nothing received the program that was sent. -/
  | panicked

namespace WorkerPhase

def IsFinished : WorkerPhase Id Program Result → Prop
  | answered _ | refused | panicked => True
  | arrived | holding _ | waiting _ _ => False

def thread? : WorkerPhase Id Program Result → Option (VerifierThread Id Program)
  | holding thread | waiting thread _ => some thread
  | arrived | answered _ | refused | panicked => none

def setThread (thread : VerifierThread Id Program) :
    WorkerPhase Id Program Result → WorkerPhase Id Program Result
  | holding _ => holding thread
  | waiting _ reply => waiting thread reply
  | phase => phase

/-- A reply reaches a request that still waits for it. -/
def deliver [DecidableEq Id] (replies : List (Id × Reply Result)) (i : Id) :
    WorkerPhase Id Program Result → WorkerPhase Id Program Result
  | waiting thread .pending => waiting thread ((replies.lookup i).getD .pending)
  | phase => phase

end WorkerPhase

/-- The server with its requests.  The sender of the channel to a thread is never copied:
it is in the pool, a request owns it, or it was dropped. -/
structure System (Id Program Result : Type) where
  server : PrustiServer Id Program
  worker : Id → WorkerPhase Id Program Result
  dropped : List (VerifierThread Id Program)

namespace System

def new (cacheSize : Nat) : System Id Program Result := ⟨⟨[], cacheSize⟩, fun _ => .arrived, []⟩

variable [DecidableEq Id] (system : System Id Program Result)

def setWorker (i : Id) (phase : WorkerPhase Id Program Result) : System Id Program Result :=
  { system with worker := Function.update system.worker i phase }

def deliver (replies : List (Id × Reply Result)) : System Id Program Result :=
  { system with worker := fun i => (system.worker i).deliver replies i }

/-- `Verdict` says which results the verifier can give for a program. -/
inductive Step (Verdict : ViperBackendConfig → Program → Result → Prop)
    (requests : Id → VerificationRequest Program) (system : System Id Program Result) :
    System Id Program Result → Prop where
  | reuse {i thread server} (hworker : system.worker i = .arrived)
      (htake : system.server.takeThread (requests i).backendConfig = (some thread, server)) :
      Step Verdict requests system ({ system with server }.setWorker i (.holding thread))
  | create {i server} (hworker : system.worker i = .arrived)
      (htake : system.server.takeThread (requests i).backendConfig = (none, server)) :
      Step Verdict requests system
        (system.setWorker i (.holding ⟨(requests i).backendConfig, .starting, []⟩))
  | createFails {i server} (hworker : system.worker i = .arrived)
      (htake : system.server.takeThread (requests i).backendConfig = (none, server)) :
      Step Verdict requests system (system.setWorker i .refused)
  | send {i thread} (hworker : system.worker i = .holding thread)
      (hlistens : thread.phase ≠ .panicked) :
      Step Verdict requests system (system.setWorker i
        (.waiting { thread with
          queue := thread.queue ++ [⟨(requests i).program, (requests i).programName, i⟩] }
          .pending))
  | sendFails {i thread} (hworker : system.worker i = .holding thread)
      (hpanicked : thread.phase = .panicked) :
      Step Verdict requests system
        ({ system with dropped := thread :: system.dropped }.setWorker i .panicked)
  | finish {i thread result server evicted}
      (hworker : system.worker i = .waiting thread (.sent result))
      (hput : system.server.putBack thread = (server, evicted)) :
      Step Verdict requests system
        ({ system with server, dropped := evicted.toList ++ system.dropped }.setWorker i
          (.answered (.ok result)))
  | giveUp {i thread} (hworker : system.worker i = .waiting thread .canceled) :
      Step Verdict requests system
        ({ system with dropped := thread :: system.dropped }.setWorker i
          (.answered (.error .verifierPanicked)))
  | pooled {left right thread thread' replies}
      (hthreads : system.server.threads = left ++ thread :: right)
      (hthread : thread.Step Verdict replies thread') :
      Step Verdict requests system
        ({ system with server.threads := left ++ thread' :: right }.deliver replies)
  | owned {i thread thread' replies} (hworker : (system.worker i).thread? = some thread)
      (hthread : thread.Step Verdict replies thread') :
      Step Verdict requests system
        ((system.setWorker i ((system.worker i).setThread thread')).deliver replies)
  | dropped {left right thread thread' replies}
      (hdropped : system.dropped = left ++ thread :: right)
      (hthread : thread.Step Verdict replies thread') :
      Step Verdict requests system
        ({ system with dropped := left ++ thread' :: right }.deliver replies)
  /-- The channel of a thread is empty and closed. -/
  | returns {left right config}
      (hdropped : system.dropped = left ++ ⟨config, .listening, []⟩ :: right) :
      Step Verdict requests system { system with dropped := left ++ right }

end System

end Prusti.Server
