/-
Runs of the verification server.  A thread has no message but that of the request that
owns it, so the steps of different requests do not interfere.
-/
import Mathlib.Algebra.BigOperators.Group.Finset.Piecewise
import Mathlib.Algebra.GroupWithZero.Nat
import Mathlib.Data.Fintype.Card
import Prusti.Lib.Systems
import Prusti.Server.PrustiServer

namespace Prusti.Server

open Prusti.Lib

variable {Id Program Result : Type} {Verdict : ViperBackendConfig → Program → Result → Prop}
  {request : VerificationRequest Program} {i : Id} {phase : WorkerPhase Id Program Result}
  {thread thread' : VerifierThread Id Program} {replies : List (Id × Reply Result)}

namespace PrustiServer

variable {server server' : PrustiServer Id Program} {config : ViperBackendConfig}
  {evicted : Option (VerifierThread Id Program)}

theorem takeThread_some (h : server.takeThread config = (some thread, server')) :
    thread.backendConfig = config ∧ server'.cacheSize = server.cacheSize ∧
      ∃ left right, server.threads = left ++ thread :: right ∧ server'.threads = left ++ right := by
  simp only [takeThread, Prod.mk.injEq, List.find?_eq_some_iff_append] at h
  obtain ⟨⟨hconfig, left, right, hthreads, hleft⟩, rfl⟩ := h
  refine ⟨of_decide_eq_true hconfig, rfl, left, right, hthreads, ?_⟩
  simp only [hthreads]
  rw [List.eraseP_append_right _ (by simpa using hleft), List.eraseP_cons_of_pos (by exact hconfig)]

theorem putBack_eq (h : server.putBack thread = (server', evicted)) :
    server'.cacheSize = server.cacheSize ∧ ∃ kept, server'.threads = thread :: kept ∧
      server.threads = kept ++ evicted.toList ∧
      (kept.length < server.cacheSize ∨ kept.length < server.threads.length ∨ kept = []) := by
  unfold putBack at h
  split at h
  · obtain ⟨rfl, rfl⟩ := Prod.mk.injEq .. ▸ h
    refine ⟨rfl, _, rfl, ?_, ?_⟩
    · rcases List.eq_nil_or_concat server.threads with hnil | ⟨kept, last, hlast⟩
      · simp [hnil]
      · simp [hlast]
    · rcases hthreads : server.threads with _ | ⟨first, rest⟩ <;> simp
  · obtain ⟨rfl, rfl⟩ := Prod.mk.injEq .. ▸ h
    exact ⟨rfl, _, rfl, by simp, .inl (by omega)⟩

end PrustiServer

namespace VerifierThread

/-- The messages that are not answered. -/
def messages (thread : VerifierThread Id Program) : List (Message Id Program) :=
  match thread.phase with
  | .verifying message => message :: thread.queue
  | .starting | .listening | .panicked => thread.queue

/-- The thread waits for a message. -/
def Idle (thread : VerifierThread Id Program) : Prop :=
  thread.phase = .listening ∧ thread.queue = []

theorem Idle.messages_eq (h : thread.Idle) : thread.messages = [] := by
  simp only [messages, h.1, h.2]

theorem exists_step (hphase : thread.phase ≠ .panicked) (hmessages : thread.messages ≠ []) :
    ∃ (replies : List (Id × Reply Result)) (thread' : _), thread.Step Verdict replies thread' := by
  obtain ⟨config, phase, queue⟩ := thread
  cases phase with
  | starting => exact ⟨_, _, .start⟩
  | listening =>
    obtain ⟨message, rest, rfl⟩ := List.exists_cons_of_ne_nil hmessages
    exact ⟨_, _, .receive⟩
  | verifying => exact ⟨_, _, .panicVerifying⟩
  | panicked => exact (hphase rfl).elim

namespace Step

theorem backendConfig_eq (h : thread.Step Verdict replies thread') :
    thread'.backendConfig = thread.backendConfig := by
  cases h <;> rfl

theorem not_panicked (h : thread.Step Verdict replies thread') : thread.phase ≠ .panicked := by
  cases h <;> simp

theorem not_idle (h : thread.Step Verdict replies thread') : ¬ thread.Idle := by
  cases h <;> simp [Idle]

theorem of_messages_eq_nil (hmessages : thread.messages = [])
    (h : thread.Step Verdict replies thread') : replies = [] ∧ thread'.messages = [] := by
  cases h <;> simp_all [messages]

/-- The only message is still there, or its reply tells what became of it. -/
theorem of_messages_eq_single {message : Message Id Program}
    (hmessages : thread.messages = [message]) (h : thread.Step Verdict replies thread') :
    replies = [] ∧ thread'.phase ≠ .panicked ∧ thread'.messages = [message] ∨
      (∃ result, replies = [(message.sender, .sent result)] ∧ thread'.Idle ∧
        Verdict thread.backendConfig message.program result) ∨
      replies = [(message.sender, .canceled)] ∧ thread'.phase = .panicked ∧
        thread'.messages = [] := by
  cases h <;> simp_all [messages, Idle]

end Step

end VerifierThread

section Invariant

variable (Verdict request i) in
/-- What is known about a request; `panicked` says that a thread with its backend did. -/
def WorkerOk (panicked : Prop) : WorkerPhase Id Program Result → Prop
  | .arrived | .refused => True
  | .holding thread => thread.backendConfig = request.backendConfig ∧ thread.messages = []
  | .waiting thread .pending => thread.backendConfig = request.backendConfig ∧
      thread.phase ≠ .panicked ∧ thread.messages = [⟨request.program, request.programName, i⟩]
  | .waiting thread (.sent result) => thread.backendConfig = request.backendConfig ∧
      thread.Idle ∧ Verdict request.backendConfig request.program result
  | .waiting thread .canceled => thread.backendConfig = request.backendConfig ∧
      thread.phase = .panicked ∧ thread.messages = []
  | .answered (.ok result) => Verdict request.backendConfig request.program result
  | .answered (.error _) | .panicked => panicked

theorem WorkerOk.mono {panicked panicked' : Prop} (hkept : panicked → panicked')
    (h : WorkerOk Verdict request i panicked phase) :
    WorkerOk Verdict request i panicked' phase := by
  unfold WorkerOk at *
  split <;> simp_all

theorem WorkerPhase.deliver_of_lookup [DecidableEq Id] (h : replies.lookup i = none) :
    phase.deliver replies i = phase := by
  unfold deliver
  split
  · rw [h, Option.getD_none]
  · rfl

/-- The step of a thread concerns nobody but the request that owns it. -/
theorem WorkerOk.owned [DecidableEq Id] {panicked : Prop}
    (h : WorkerOk Verdict request i panicked phase) (hphase : phase.thread? = some thread)
    (hthread : thread.Step Verdict replies thread') :
    (∀ j ≠ i, replies.lookup j = none) ∧
      WorkerOk Verdict request i panicked ((phase.setThread thread').deliver replies i) := by
  have hconfig := hthread.backendConfig_eq
  have hother : ∀ reply : Reply Result, ∀ j ≠ i, List.lookup j [(i, reply)] = none :=
    fun reply j hj => by simp [hj]
  cases phase with
  | arrived | answered | refused | panicked => cases hphase
  | holding =>
    cases hphase
    obtain ⟨rfl, hmessages⟩ := hthread.of_messages_eq_nil h.2
    exact ⟨fun _ _ => rfl, hconfig.trans h.1, hmessages⟩
  | waiting _ reply =>
    cases hphase
    cases reply with
    | pending =>
      simp only [WorkerPhase.setThread, WorkerPhase.deliver]
      rcases hthread.of_messages_eq_single h.2.2 with
        ⟨rfl, hok⟩ | ⟨result, rfl, hidle, hverdict⟩ | ⟨rfl, hok⟩
      · exact ⟨fun _ _ => rfl, hconfig.trans h.1, hok⟩
      · rw [List.lookup_cons_self]
        exact ⟨hother _, hconfig.trans h.1, hidle, h.1 ▸ hverdict⟩
      · rw [List.lookup_cons_self]
        exact ⟨hother _, hconfig.trans h.1, hok⟩
    | sent result => exact (hthread.not_idle h.2.1).elim
    | canceled => exact (hthread.not_panicked h.2.1).elim

/-- A dropped thread with this backend has panicked. -/
def Panicked (dropped : List (VerifierThread Id Program)) (config : ViperBackendConfig) : Prop :=
  ∃ thread ∈ dropped, thread.backendConfig = config ∧ thread.phase = .panicked

theorem Panicked.append {dropped : List (VerifierThread Id Program)} {config : ViperBackendConfig}
    (new : List (VerifierThread Id Program)) (h : Panicked dropped config) :
    Panicked (new ++ dropped) config :=
  h.imp fun _ h => ⟨List.mem_append_right _ h.1, h.2⟩

variable (Verdict) in
structure Invariant (requests : Id → VerificationRequest Program) (cacheSize : Nat)
    (system : System Id Program Result) : Prop where
  cacheSize_eq : system.server.cacheSize = cacheSize
  length_le : system.server.threads.length ≤ max cacheSize 1
  idle : ∀ thread ∈ system.server.threads, thread.Idle
  worker : ∀ i, WorkerOk Verdict (requests i) i
    (Panicked system.dropped (requests i).backendConfig) (system.worker i)
  dropped : ∀ thread ∈ system.dropped, thread.messages = []

variable [DecidableEq Id] {requests : Id → VerificationRequest Program} {cacheSize count : Nat}
  {system next : System Id Program Result}

namespace Invariant

omit [DecidableEq Id] in
theorem of_worker (h : Invariant Verdict requests cacheSize system)
    (hworker : system.worker i = phase) : WorkerOk Verdict (requests i) i
      (Panicked system.dropped (requests i).backendConfig) phase :=
  hworker ▸ h.worker i

omit [DecidableEq Id] in
/-- Only what changes has to be shown again. -/
theorem change (h : Invariant Verdict requests cacheSize system)
    (hserver : next.server = system.server ∨ next.server.cacheSize = system.server.cacheSize ∧
      next.server.threads.length ≤ max cacheSize 1 ∧ ∀ thread ∈ next.server.threads, thread.Idle)
    (hdropped : ∀ thread ∈ next.dropped, thread ∈ system.dropped ∨ thread.messages = [])
    (hkept : ∀ config, Panicked system.dropped config → Panicked next.dropped config)
    (hworker : ∀ j, next.worker j = system.worker j ∨ WorkerOk Verdict (requests j) j
      (Panicked next.dropped (requests j).backendConfig) (next.worker j)) :
    Invariant Verdict requests cacheSize next := by
  have hworker : ∀ j, WorkerOk Verdict (requests j) j
      (Panicked next.dropped (requests j).backendConfig) (next.worker j) := fun j =>
    (hworker j).elim (fun heq => heq ▸ (h.worker j).mono (hkept _)) id
  have hdropped : ∀ thread ∈ next.dropped, thread.messages = [] := fun thread hthread =>
    (hdropped thread hthread).elim (h.dropped thread) id
  rcases hserver with heq | ⟨hcache, hlength, hidle⟩
  · exact ⟨heq ▸ h.cacheSize_eq, heq ▸ h.length_le, heq ▸ h.idle, hworker, hdropped⟩
  · exact ⟨hcache.trans h.cacheSize_eq, hlength, hidle, hworker, hdropped⟩

theorem worker_update {dropped : List (VerifierThread Id Program)}
    (hphase : WorkerOk Verdict (requests i) i (Panicked dropped (requests i).backendConfig) phase)
    (j : Id) : Function.update system.worker i phase j = system.worker j ∨
      WorkerOk Verdict (requests j) j (Panicked dropped (requests j).backendConfig)
        (Function.update system.worker i phase j) := by
  rw [Function.update_apply]
  split
  · subst j
    exact .inr hphase
  · exact .inl rfl

theorem step (h : Invariant Verdict requests cacheSize system)
    (hstep : System.Step Verdict requests system next) :
    Invariant Verdict requests cacheSize next := by
  have hlength := h.length_le
  have hidle := h.idle
  cases hstep with
  | reuse hworker htake =>
    obtain ⟨hconfig, hcache, left, right, hthreads, hrest⟩ := PrustiServer.takeThread_some htake
    rw [hthreads] at hlength hidle
    rw [List.forall_mem_append, List.forall_mem_cons] at hidle
    refine h.change (.inr ⟨hcache, ?_, ?_⟩) (fun _ => .inl) (fun _ => id)
      (worker_update ⟨hconfig, hidle.2.1.messages_eq⟩)
    · simp only [System.setWorker, hrest]
      grind
    · simp only [System.setWorker, hrest, List.forall_mem_append]
      exact ⟨hidle.1, hidle.2.2⟩
  | create => exact h.change (.inl rfl) (fun _ => .inl) (fun _ => id) (worker_update ⟨rfl, rfl⟩)
  | createFails => exact h.change (.inl rfl) (fun _ => .inl) (fun _ => id) (worker_update trivial)
  | send hworker hlistens =>
    have hok := h.of_worker hworker
    refine h.change (.inl rfl) (fun _ => .inl) (fun _ => id) (worker_update ⟨hok.1, hlistens, ?_⟩)
    have hmessages := hok.2
    unfold VerifierThread.messages at hmessages ⊢
    split at hmessages <;> simp_all
  | @sendFails _ thread hworker hpanicked =>
    have hok := h.of_worker hworker
    exact h.change (.inl rfl) (List.forall_mem_cons.mpr ⟨.inr hok.2, fun _ => .inl⟩)
      (fun _ => .append [thread]) (worker_update ⟨thread, .head _, hok.1, hpanicked⟩)
  | finish hworker hput =>
    have hok := h.of_worker hworker
    obtain ⟨hcache, kept, hthreads, hold, hkept⟩ := PrustiServer.putBack_eq hput
    rw [h.cacheSize_eq] at hkept
    rw [hold, List.forall_mem_append] at hidle
    refine h.change (.inr ⟨hcache, ?_, ?_⟩) ?_ (fun _ => .append _) (worker_update hok.2.2)
    · simp only [System.setWorker, hthreads]
      grind
    · simp only [System.setWorker, hthreads]
      exact List.forall_mem_cons.mpr ⟨hok.2.1, hidle.1⟩
    · exact List.forall_mem_append.mpr
        ⟨fun thread hthread => .inr (hidle.2 thread hthread).messages_eq, fun _ => .inl⟩
  | @giveUp _ thread hworker =>
    have hok := h.of_worker hworker
    exact h.change (.inl rfl) (List.forall_mem_cons.mpr ⟨.inr hok.2.2, fun _ => .inl⟩)
      (fun _ => .append [thread]) (worker_update ⟨thread, .head _, hok.1, hok.2.1⟩)
  | pooled hthreads hthread => exact (hthread.not_idle (h.idle _ (by simp [hthreads]))).elim
  | @owned i thread thread' replies hworker hthread =>
    obtain ⟨hreplies, hown⟩ := (h.worker i).owned hworker hthread
    refine h.change (.inl rfl) (fun _ => .inl) (fun _ => id) fun j => ?_
    by_cases hj : j = i
    · subst j
      simp only [System.deliver, System.setWorker, Function.update_self]
      exact .inr hown
    · simp only [System.deliver, System.setWorker, Function.update_of_ne hj]
      exact .inl (WorkerPhase.deliver_of_lookup (hreplies j hj))
  | @dropped left right thread thread' replies hdropped hthread =>
    obtain ⟨rfl, hmessages⟩ := hthread.of_messages_eq_nil (h.dropped thread (by simp [hdropped]))
    have hnot := hthread.not_panicked
    refine h.change (.inl rfl) ?_ ?_ fun _ => .inl (WorkerPhase.deliver_of_lookup rfl)
    · simp only [System.deliver, hdropped]
      grind
    · simp only [System.deliver, hdropped, Panicked]
      grind
  | returns hdropped =>
    refine h.change (.inl rfl) ?_ ?_ fun _ => .inl rfl <;>
    · simp only [hdropped, Panicked]
      grind

theorem of_run (hrun : Run (System.Step Verdict requests) (.new cacheSize) count system) :
    Invariant Verdict requests cacheSize system :=
  hrun.invariant step
    ⟨rfl, Nat.zero_le _, by simp [System.new], fun _ => trivial, by simp [System.new]⟩

end Invariant

/-- Whatever the order of the steps, a request is answered with what the verifier says about
its program with its backend, it fails only if a thread with its backend panicked, and the
pool has no more threads than fit, all of them idle. -/
theorem requests_answered
    (hrun : Run (System.Step Verdict requests) (.new cacheSize) count system) :
    (∀ i result, system.worker i = .answered (.ok result) →
      Verdict (requests i).backendConfig (requests i).program result) ∧
    (∀ i, system.worker i = .panicked ∨ system.worker i = .answered (.error .verifierPanicked) →
      Panicked system.dropped (requests i).backendConfig) ∧
    system.server.threads.length ≤ max cacheSize 1 ∧
    ∀ thread ∈ system.server.threads, thread.Idle := by
  have h := Invariant.of_run hrun
  exact ⟨fun _ _ hworker => h.of_worker hworker,
    fun _ hworker => hworker.elim h.of_worker h.of_worker, h.length_le, h.idle⟩

end Invariant

namespace Witness

def requests : Bool → VerificationRequest Unit := fun _ => ⟨(), "program", ⟨.silicon, []⟩⟩

def Says (_ : ViperBackendConfig) (_ : Unit) (result : Bool) : Prop := result = true

/-- The second request reuses the thread of the first one, which panics then. -/
theorem exists_run : ∃ system : System Bool Unit Bool,
    Run (System.Step Says requests) (.new 1) 11 system ∧
      system.worker false = .answered (.ok true) ∧
      system.worker true = .answered (.error .verifierPanicked) := by
  have hfirst : Run (System.Step Says requests) (.new 1) 6 _ :=
    (((((Run.nil.snoc (.create (i := false) rfl rfl)).snoc (.owned (i := false) rfl .start)).snoc
      (.send (i := false) rfl nofun)).snoc (.owned (i := false) rfl .receive)).snoc
      (.owned (i := false) rfl (.verify rfl))).snoc (.finish (i := false) rfl rfl)
  exact ⟨_, ((((hfirst.snoc (.reuse (i := true) rfl rfl)).snoc (.send (i := true) rfl nofun)).snoc
    (.owned (i := true) rfl .receive)).snoc (.owned (i := true) rfl .panicVerifying)).snoc
    (.giveUp (i := true) rfl), rfl, rfl⟩

theorem requests_answered_two : ∃ system : System Bool Unit Bool,
    system.worker false = .answered (.ok true) ∧
      system.worker true = .answered (.error .verifierPanicked) ∧
      Panicked system.dropped ⟨.silicon, []⟩ ∧ system.server.threads.length ≤ 1 := by
  obtain ⟨system, hrun, hfirst, hsecond⟩ := exists_run
  have hanswered := requests_answered hrun
  exact ⟨system, hfirst, hsecond, hanswered.2.1 true (.inr hsecond), hanswered.2.2.1⟩

end Witness

section Progress

/-- How many steps a thread can still take when nothing more is sent to it. -/
@[simp] def VerifierThread.weight (thread : VerifierThread Id Program) : Nat :=
  2 * thread.queue.length +
    match thread.phase with
    | .starting | .verifying _ => 2
    | .listening => 1
    | .panicked => 0

@[simp] def WorkerPhase.weight : WorkerPhase Id Program Result → Nat
  | arrived => 7
  | holding thread => 4 + thread.weight
  | waiting thread _ => 1 + thread.weight
  | answered _ | refused | panicked => 0

theorem VerifierThread.Step.weight_lt (h : thread.Step Verdict replies thread') :
    thread'.weight < thread.weight := by
  cases h <;>
  · simp
    try omega

variable [Fintype Id] [DecidableEq Id] {requests : Id → VerificationRequest Program}
  {cacheSize count : Nat} {system next : System Id Program Result}

namespace System

def weight (system : System Id Program Result) : Nat :=
  (∑ i, (system.worker i).weight) + (system.server.threads.map VerifierThread.weight).sum +
    (system.dropped.map VerifierThread.weight).sum

theorem weight_setWorker_lt
    (h : system.weight + phase.weight < next.weight + (system.worker i).weight) :
    (system.setWorker i phase).weight < next.weight := by
  simp only [weight, setWorker, Function.apply_update fun _ => WorkerPhase.weight,
    Finset.sum_update_of_mem (Finset.mem_univ i),
    Finset.sum_eq_add_sum_sdiff_singleton_of_mem (Finset.mem_univ i)] at h ⊢
  omega

theorem weight_deliver (replies : List (Id × Reply Result)) :
    (system.deliver replies).weight = system.weight := by
  have hworker : ∀ i, ((system.worker i).deliver replies i).weight = (system.worker i).weight := by
    intro i
    cases system.worker i with
    | waiting thread reply => cases reply <;> rfl
    | _ => rfl
  simp only [weight, deliver, hworker]

/-- Every step brings the handling of the requests nearer to its end. -/
theorem Step.weight_lt (hstep : Step Verdict requests system next) :
    next.weight < system.weight := by
  cases hstep with
  | reuse hworker htake =>
    obtain ⟨-, -, left, right, hthreads, hrest⟩ := PrustiServer.takeThread_some htake
    refine weight_setWorker_lt ?_
    simp [weight, hworker, hthreads, hrest]
    omega
  | finish hworker hput =>
    obtain ⟨-, kept, hthreads, hold, -⟩ := PrustiServer.putBack_eq hput
    refine weight_setWorker_lt ?_
    simp [weight, hworker, hthreads, hold]
    omega
  | create hworker _ | createFails hworker _ | send hworker _ | sendFails hworker _
  | giveUp hworker =>
    refine weight_setWorker_lt ?_
    simp [weight, hworker]
    try omega
  | pooled hthreads hthread | dropped hthreads hthread =>
    have hlt := hthread.weight_lt
    rw [weight_deliver]
    simp [weight, hthreads, -VerifierThread.weight]
    omega
  | @owned i thread thread' replies hworker hthread =>
    have hlt := hthread.weight_lt
    rw [weight_deliver]
    refine weight_setWorker_lt ?_
    cases hphase : system.worker i with
    | arrived | answered | refused | panicked => simp [hphase, WorkerPhase.thread?] at hworker
    | holding | waiting =>
      simp only [hphase, WorkerPhase.thread?, Option.some.injEq] at hworker
      simp only [WorkerPhase.setThread, WorkerPhase.weight, hworker]
      omega
  | returns hdropped => simp [weight, hdropped]

end System

/-- No request is lost: every run is finite, it can end only when all requests are finished,
and then no thread is left but those in the pool. -/
theorem requests_finish
    (hrun : Run (System.Step Verdict requests) (.new cacheSize) count system) :
    count ≤ 7 * Fintype.card Id ∧ (Stuck (System.Step Verdict requests) system →
      (∀ i, (system.worker i).IsFinished) ∧
        ∀ thread ∈ system.dropped, thread.phase = .panicked) := by
  have h := Invariant.of_run hrun
  have hcount := hrun.count_le fun hstep => hstep.weight_lt
  refine ⟨?_, fun hstuck => ⟨fun i => ?_, fun thread hthread => ?_⟩⟩
  · have hnew : (System.new cacheSize : System Id Program Result).weight = 7 * Fintype.card Id := by
      simp [System.weight, System.new, Nat.mul_comm]
    omega
  · cases hworker : system.worker i with
    | arrived =>
      rcases htake : system.server.takeThread (requests i).backendConfig with ⟨_ | thread, server⟩
      · exact (hstuck _ (.create hworker htake)).elim
      · exact (hstuck _ (.reuse hworker htake)).elim
    | holding thread =>
      by_cases hpanicked : thread.phase = .panicked
      · exact (hstuck _ (.sendFails hworker hpanicked)).elim
      · exact (hstuck _ (.send hworker hpanicked)).elim
    | waiting thread reply =>
      have hok := h.of_worker hworker
      cases reply with
      | pending =>
        obtain ⟨replies, thread', hthread⟩ :=
          @VerifierThread.exists_step _ _ _ Verdict _ hok.2.1 (hok.2.2 ▸ List.cons_ne_nil _ _)
        exact (hstuck _ (.owned (by rw [hworker]; rfl) hthread)).elim
      | sent result => exact (hstuck _ (.finish hworker rfl)).elim
      | canceled => exact (hstuck _ (.giveUp hworker)).elim
    | answered | refused | panicked => trivial
  · obtain ⟨left, right, hdropped⟩ := List.append_of_mem hthread
    obtain ⟨config, phase, queue⟩ := thread
    cases phase with
    | starting => exact (hstuck _ (.dropped hdropped .start)).elim
    | listening =>
      obtain rfl : queue = [] := h.dropped _ hthread
      exact (hstuck _ (.returns hdropped)).elim
    | verifying => cases h.dropped _ hthread
    | panicked => rfl

end Progress

theorem Witness.requests_finish_two :
    (∃ system, Run (System.Step Witness.Says Witness.requests) (.new 1) 11 system) ∧
      11 ≤ 7 * Fintype.card Bool := by
  obtain ⟨system, hrun, -⟩ := Witness.exists_run
  exact ⟨⟨system, hrun⟩, (requests_finish hrun).1⟩

end Prusti.Server
