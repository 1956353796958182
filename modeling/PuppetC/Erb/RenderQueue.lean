import PuppetC.Support.LinkedQueue
import PuppetC.Support.StepSystem
import Mathlib.Tactic.SplitIfs

/-!
# The render queue of the Ruby daemon

Ruby is only called from one thread, the daemon. A worker that needs it (`ruby_daemon_render`)
starts the daemon if no one did, reads whether the daemon failed, links a request that lives in its
own frame into a queue, and waits until the request is done. The daemon (`ruby_daemon_loop`)
initialises Ruby, and then takes the first request out of the queue, renders it, stores the result
in the request and wakes the worker, for ever; if it cannot initialise Ruby it notes the failure
and ends.

`rendering` is the system of any number of workers and the daemon, in any interleaving of the parts
that are done under one lock. `RenderState.enqueued`, `rendered` and `answered` are histories.

A worker that read that the daemon did not fail may add its request when the daemon has failed in
the meantime. Nobody serves that request and the worker waits for ever.

## Main definitions

* `RenderState`, `RenderAction`, `rendering`.
* `RenderState.Served`: what a requester may rely on.
* `RenderState.Careful`: the initialisation of Ruby does not fail while a worker has a request.
* `RenderState.Sound`: the invariant.

## Main results

* `RenderState.Sound.step`: a step that meets the condition keeps the invariant.
* `served_of_careful`: in a run of such steps every request is served.
* `not_forall_served`: a worker waits for a daemon that failed.
-/

namespace PuppetC

/-- What is to be rendered: the text of a template, the environment and the name of the template. -/
structure RenderJob (Env : Type) where
  templateContent : String
  env : Env
  templateName : Option String
  deriving DecidableEq

/-- `erb_request_t`. Requests are named by the worker in whose frame they live. -/
structure ErbRequest (Worker Env : Type) where
  job : RenderJob Env
  result : Option String
  done : Bool
  next : Option Worker
  deriving DecidableEq

/-- Where a worker stands in `ruby_daemon_render`, with what is in its frame. -/
inductive WorkerFrame (Worker Env : Type) where
  | outside
  | ensuring (job : RenderJob Env)
  | checking (job : RenderJob Env)
  | enqueuing (req : ErbRequest Worker Env)
  | waiting (asleep : Bool) (req : ErbRequest Worker Env)
  deriving DecidableEq

/-- Where the daemon stands in `ruby_daemon_loop`. -/
inductive DaemonStage (Worker : Type) where
  | absent
  | starting
  | idle (asleep : Bool)
  | rendering (r : Worker)
  | rendered (r : Worker) (result : Option String)
  | dead
  deriving DecidableEq

/-- The daemon thread runs. -/
def DaemonStage.Live {Worker : Type} : DaemonStage Worker → Prop
  | .absent | .dead => False
  | _ => True

/-- The request that the daemon took out of the queue. -/
def DaemonStage.serving {Worker : Type} : DaemonStage Worker → Option Worker
  | .rendering r | .rendered r _ => some r
  | _ => none

/-- The request that the daemon took out of the queue and did not render yet. -/
def DaemonStage.toRender {Worker : Type} : DaemonStage Worker → Option Worker
  | .rendering r => some r
  | _ => none

/-- The result that the daemon has for the request of a worker. -/
def DaemonStage.resultFor {Worker : Type} [DecidableEq Worker] (w : Worker) :
    DaemonStage Worker → Option (Option String)
  | .rendered r result => if r = w then some result else none
  | _ => none

theorem DaemonStage.toRender_eq_none {Worker : Type} {d : DaemonStage Worker}
    (h : d.serving = none) : d.toRender = none := by
  cases d <;> first | rfl | cases h

theorem DaemonStage.resultFor_eq_none {Worker : Type} [DecidableEq Worker] {w : Worker}
    {d : DaemonStage Worker} (h : d.serving ≠ some w) : d.resultFor w = none := by
  cases d with
  | rendered r result => exact if_neg fun hrw ↦ h (congrArg some hrw)
  | _ => rfl

namespace WorkerFrame

variable {Worker Env : Type}

/-- The request in a frame. -/
def request : WorkerFrame Worker Env → Option (ErbRequest Worker Env)
  | .enqueuing req | .waiting _ req => some req
  | _ => none

/-- A frame whose request changes. -/
def mapRequest (f : ErbRequest Worker Env → ErbRequest Worker Env) :
    WorkerFrame Worker Env → WorkerFrame Worker Env
  | .enqueuing req => .enqueuing (f req)
  | .waiting asleep req => .waiting asleep (f req)
  | frame => frame

@[simp] theorem request_mapRequest (f : ErbRequest Worker Env → ErbRequest Worker Env)
    (frame : WorkerFrame Worker Env) : (frame.mapRequest f).request = frame.request.map f := by
  cases frame <;> rfl

end WorkerFrame

/-- The globals of the queue and the daemon, the frames of the workers, and histories of the
requests that were added to the queue, rendered by the daemon, and answered. -/
structure RenderState (Worker Env : Type) where
  started : Bool
  failed : Bool
  daemon : DaemonStage Worker
  queueHead : Option Worker
  queueTail : Option Worker
  frame : Worker → WorkerFrame Worker Env
  enqueued : List (Worker × RenderJob Env)
  rendered : List ((Worker × RenderJob Env) × Option String)
  answered : List ((Worker × RenderJob Env) × Option String)

/-- What a worker does in `ruby_daemon_render`. `rouse` is a return of `pthread_cond_wait` without
a signal. -/
inductive WorkerAction (Env : Type) where
  | call (job : RenderJob Env)
  | ensure (created : Bool)
  | check
  | enqueue
  | doze
  | rouse
  | receive
  deriving DecidableEq

/-- What the daemon does in `ruby_daemon_loop`. `rouse` is a return of `pthread_cond_wait` without
a signal. -/
inductive DaemonAction where
  | init (initialized : Bool)
  | rest
  | rouse
  | dequeue
  | render (result : Option String)
  | complete
  deriving DecidableEq

/-- A step of a worker or of the daemon. -/
inductive RenderAction (Worker Env : Type) where
  | worker (w : Worker) (a : WorkerAction Env)
  | daemon (a : DaemonAction)
  deriving DecidableEq

namespace RenderState

variable {Worker Env : Type}

/-- No daemon and no worker in `ruby_daemon_render`. -/
def initial : RenderState Worker Env where
  started := false
  failed := false
  daemon := .absent
  queueHead := none
  queueTail := none
  frame _ := .outside
  enqueued := []
  rendered := []
  answered := []

/-- The request of a worker. -/
def request (s : RenderState Worker Env) (w : Worker) : Option (ErbRequest Worker Env) :=
  (s.frame w).request

/-- `req->next`. -/
def next (s : RenderState Worker Env) (w : Worker) : Option Worker :=
  (s.request w).bind (·.next)

/-- `ensure_ruby_daemon`, where `pthread_create` may fail. -/
def ensureRubyDaemon (s : RenderState Worker Env) (created : Bool) : RenderState Worker Env :=
  if !s.started && !s.failed then
    if created then { s with started := true, daemon := .starting }
    else { s with failed := true }
  else s

variable [DecidableEq Worker]

/-- A worker goes on. -/
def goto (s : RenderState Worker Env) (w : Worker) (frame : WorkerFrame Worker Env) :
    RenderState Worker Env :=
  { s with frame := Function.update s.frame w frame }

/-- The request of a worker changes. -/
def setRequest (s : RenderState Worker Env) (w : Worker)
    (f : ErbRequest Worker Env → ErbRequest Worker Env) : RenderState Worker Env :=
  s.goto w ((s.frame w).mapRequest f)

/-- A new request of `ruby_daemon_render`. -/
def newRequest (job : RenderJob Env) : ErbRequest Worker Env where
  job := job
  result := none
  done := false
  next := none

/-- `if (queue_tail) queue_tail->next = &req; else queue_head = &req;` -/
def link (s : RenderState Worker Env) (w : Worker) : RenderState Worker Env :=
  match s.queueTail with
  | some t => s.setRequest t fun req ↦ { req with next := some w }
  | none => { s with queueHead := some w }

/-- A worker adds its request to the queue and wakes the daemon. -/
def enqueue (s : RenderState Worker Env) (w : Worker) (req : ErbRequest Worker Env) :
    RenderState Worker Env :=
  let linked := (s.goto w (.waiting false req)).link w
  { linked with
    queueTail := some w
    daemon := if s.daemon = .idle true then .idle false else s.daemon
    enqueued := s.enqueued ++ [(w, req.job)] }

/-- The steps of a worker in `ruby_daemon_render`. -/
def workerStep (s : RenderState Worker Env) (w : Worker) :
    WorkerAction Env → WorkerFrame Worker Env → Option (RenderState Worker Env)
  | .call job, .outside => some (s.goto w (.ensuring job))
  | .ensure created, .ensuring job => some ((s.ensureRubyDaemon created).goto w (.checking job))
  | .check, .checking job =>
    some (s.goto w (if s.failed then .outside else .enqueuing (newRequest job)))
  | .enqueue, .enqueuing req => some (s.enqueue w req)
  | .doze, .waiting false req => if req.done then none else some (s.goto w (.waiting true req))
  | .rouse, .waiting true req => some (s.goto w (.waiting false req))
  | .receive, .waiting false req =>
    if req.done then
      some { s.goto w .outside with answered := s.answered ++ [((w, req.job), req.result)] }
    else none
  | _, _ => none

/-- The daemon stores a result in a request and wakes the worker. -/
def complete (s : RenderState Worker Env) (r : Worker) (result : Option String) :
    RenderState Worker Env :=
  match s.frame r with
  | .waiting _ req =>
    { s.goto r (.waiting false { req with result := result, done := true }) with
      daemon := .idle false }
  | _ => { s with daemon := .idle false }

/-- The daemon takes the first request out of the queue. -/
def dequeue (s : RenderState Worker Env) (r : Worker) : RenderState Worker Env :=
  { s with
    queueHead := s.next r
    queueTail := tailAfterPop (s.next r) s.queueTail
    daemon := .rendering r }

/-- The steps of the daemon in `ruby_daemon_loop`. -/
def daemonStep (s : RenderState Worker Env) :
    DaemonAction → DaemonStage Worker → Option (RenderState Worker Env)
  | .init true, .starting => some { s with daemon := .idle false }
  | .init false, .starting => some { s with failed := true, daemon := .dead }
  | .rest, .idle false =>
    if s.queueHead = none then some { s with daemon := .idle true } else none
  | .rouse, .idle true => some { s with daemon := .idle false }
  | .dequeue, .idle false => s.queueHead.map s.dequeue
  | .render result, .rendering r => (s.request r).map fun req ↦
    { s with
      daemon := .rendered r result
      rendered := s.rendered ++ [((r, req.job), result)] }
  | .complete, .rendered r result => some (s.complete r result)
  | _, _ => none

end RenderState

/-- The workers and the daemon. -/
def rendering {Worker Env : Type} [DecidableEq Worker] :
    StepSystem (RenderState Worker Env) (RenderAction Worker Env) where
  step s
    | .worker w a => s.workerStep w a (s.frame w)
    | .daemon a => s.daemonStep a s.daemon

section Property

variable {Worker Env : Type}

/-! ### What a requester may rely on -/

/-- A worker waits for a request that is not done. -/
def WorkerFrame.Pending : WorkerFrame Worker Env → Prop
  | .waiting _ req => req.done = false
  | _ => False

/-- A worker with a request that is not done waits. -/
theorem WorkerFrame.exists_of_pending {frame : WorkerFrame Worker Env}
    (h : frame.Pending) :
    ∃ asleep req, frame = .waiting asleep req ∧ req.done = false := by
  cases frame with
  | waiting asleep req => exact ⟨asleep, req, rfl, h⟩
  | _ => exact h.elim

@[simp] theorem WorkerFrame.pending_mapRequest_next
    (frame : WorkerFrame Worker Env) (n : Option Worker) :
    (frame.mapRequest fun req ↦ { req with next := n }).Pending ↔ frame.Pending := by
  cases frame <;> rfl

/-- A worker waits for a request that is done. -/
def WorkerFrame.Answered : WorkerFrame Worker Env → Prop
  | .waiting _ req => req.done = true
  | _ => False

namespace RenderState

/-- The request of a worker is in the queue. -/
def Queued (s : RenderState Worker Env) (w : Worker) : Prop :=
  ∃ q, Chain s.next s.queueHead q ∧ w ∈ q

variable [DecidableEq Worker]

/-- The entries of a history that belong to a worker. -/
def entriesOf {α : Type} (w : Worker) (entries : List ((Worker × RenderJob Env) × α)) :
    List ((Worker × RenderJob Env) × α) :=
  entries.filter fun e ↦ e.1.1 = w

/-- The state of the queue is fit for every requester: the queue has a last request exactly if it
has a first one; the requests were rendered in the order in which they were added, none of them
twice; a worker got the results of its own requests, and of all of them unless it waits; and a
worker whose request is not done waits for a daemon that runs, which serves the request or has it
in its queue, and that can answer it without any other worker. Nobody sleeps over work. -/
structure Served (s : RenderState Worker Env) : Prop where
  tail_eq_none_iff : s.queueTail = none ↔ s.queueHead = none
  in_order : s.rendered.map Prod.fst <+: s.enqueued
  delivered : ∀ w, entriesOf w s.answered <+: entriesOf w s.rendered
  settled : ∀ w, ¬ (s.frame w).Pending → ¬ (s.frame w).Answered →
    entriesOf w s.answered = entriesOf w s.rendered ∧
      (entriesOf w s.answered).map Prod.fst = s.enqueued.filter fun e ↦ e.1 = w
  attended : ∀ w, (s.frame w).Pending →
    s.daemon.Live ∧ (s.daemon.serving = some w ∨ s.Queued w)
  answerable : ∀ w, (s.frame w).Pending →
    ∃ (as : List DaemonAction) (s' : RenderState Worker Env),
      rendering.run s (as.map .daemon) = some s' ∧ (s'.frame w).Answered
  daemon_awake : s.daemon = .idle true → s.queueHead = none
  worker_awake : ∀ w req, s.frame w = .waiting true req → req.done = false

/-- The condition on a state and a step: Ruby is not found to fail while a worker has a request,
that is, when it read that the daemon did not fail, and did not get its answer. -/
def Careful (s : RenderState Worker Env) : RenderAction Worker Env → Prop
  | .daemon (.init false) => ∀ w, s.request w = none
  | _ => True

/-! ### The invariant -/

/-- The results that a worker will get for a request that was rendered. -/
def outstanding (d : DaemonStage Worker) (w : Worker) :
    WorkerFrame Worker Env → List ((Worker × RenderJob Env) × Option String)
  | .waiting _ req =>
    if req.done then [((w, req.job), req.result)]
    else ((d.resultFor w).map fun result ↦ ((w, req.job), result)).toList
  | _ => []

/-- A request as the histories note it. -/
def entry (s : RenderState Worker Env) (w : Worker) : Option (Worker × RenderJob Env) :=
  (s.request w).map fun req ↦ (w, req.job)

/-- The queue holds the requests `q`, in the order of the histories. -/
structure Holds (s : RenderState Worker Env) (q : List Worker) : Prop where
  linked : LinkedQueue s.next s.queueHead s.queueTail q
  served : ∀ r, s.daemon.serving = some r → r ∉ q
  pending_iff : ∀ w, (s.frame w).Pending ↔ w ∈ q ∨ s.daemon.serving = some w
  fresh : ∀ w req, s.frame w = .enqueuing req → req = newRequest req.job
  order : s.enqueued = s.rendered.map Prod.fst ++
    (s.daemon.toRender.toList ++ q).filterMap s.entry
  results : ∀ w, entriesOf w s.rendered =
    entriesOf w s.answered ++ outstanding s.daemon w (s.frame w)

/-- The flags and the stage of the daemon agree, and a worker with a request has a daemon. -/
structure Manned (s : RenderState Worker Env) : Prop where
  absent_iff : s.daemon = .absent ↔ s.started = false
  failed : s.daemon = .dead → s.failed = true
  checked : ∀ w job, s.frame w = .checking job → s.started = true ∨ s.failed = true
  live : ∀ w req, s.request w = some req → s.daemon.Live
  daemon_awake : s.daemon = .idle true → s.queueHead = none
  worker_awake : ∀ w req, s.frame w = .waiting true req → req.done = false

/-! ### Frames and links -/

variable {s : RenderState Worker Env} {q : List Worker} {w v : Worker}
  {frame : WorkerFrame Worker Env} {f : ErbRequest Worker Env → ErbRequest Worker Env}

@[simp] theorem frame_goto_self : (s.goto w frame).frame w = frame :=
  Function.update_self ..

theorem frame_goto_of_ne (h : v ≠ w) : (s.goto w frame).frame v = s.frame v :=
  Function.update_of_ne h ..

@[simp] theorem request_goto_self : (s.goto w frame).request w = frame.request :=
  congrArg WorkerFrame.request frame_goto_self

theorem request_goto_of_ne (h : v ≠ w) : (s.goto w frame).request v = s.request v :=
  congrArg WorkerFrame.request (frame_goto_of_ne h)

theorem request_setRequest_self : (s.setRequest w f).request w = (s.request w).map f := by
  rw [setRequest, request_goto_self, WorkerFrame.request_mapRequest, request]

theorem frame_goto_cases (s : RenderState Worker Env) (w v : Worker)
    (frame : WorkerFrame Worker Env) :
    v = w ∧ (s.goto w frame).frame v = frame ∨
      v ≠ w ∧ (s.goto w frame).frame v = s.frame v := by
  by_cases hv : v = w
  · exact Or.inl ⟨hv, hv ▸ frame_goto_self⟩
  · exact Or.inr ⟨hv, frame_goto_of_ne hv⟩

/-- A worker that goes on with the same request changes no link. -/
theorem next_goto (h : frame.request.bind (·.next) = s.next w) :
    (s.goto w frame).next = s.next := by
  funext v
  by_cases hv : v = w
  · rw [hv, next, request_goto_self, h]
  · rw [next, request_goto_of_ne hv, next]

theorem entry_goto (h : frame.request.map (·.job) = (s.request w).map (·.job)) :
    (s.goto w frame).entry = s.entry := by
  have hmap (o : Option (ErbRequest Worker Env)) (v : Worker) :
      (o.map fun req ↦ (v, req.job)) = (o.map (·.job)).map fun job ↦ (v, job) := by
    rw [Option.map_map]; rfl
  funext v
  by_cases hv : v = w
  · rw [hv, entry, entry, request_goto_self, hmap, h, ← hmap]
  · rw [entry, request_goto_of_ne hv, entry]

/-- Linking a request behind the last one changes the links as a push does. -/
theorem next_link (h : ∀ t, s.queueTail = some t → (s.request t).isSome) :
    (s.link w).next = linkLast s.next s.queueTail w := by
  unfold link linkLast
  cases ht : s.queueTail with
  | none => rfl
  | some t =>
    obtain ⟨req, hreq⟩ := Option.isSome_iff_exists.1 (h t ht)
    change (s.setRequest t fun req ↦ { req with next := some w }).next =
      Function.update s.next t (some w)
    funext v
    by_cases hv : v = t
    · rw [hv, next, request_setRequest_self, hreq, Function.update_self]; rfl
    · rw [Function.update_of_ne hv, next, setRequest, request_goto_of_ne hv, next]

/-! ### Steps that leave the queue alone -/

theorem Holds.initial : (initial : RenderState Worker Env).Holds [] where
  linked := .empty
  served r h := by simp [RenderState.initial, DaemonStage.serving] at h
  pending_iff w := by simp [RenderState.initial, WorkerFrame.Pending, DaemonStage.serving]
  fresh w req h := by simp [RenderState.initial] at h
  order := rfl
  results w := rfl

omit [DecidableEq Worker] in
theorem Manned.initial : (initial : RenderState Worker Env).Manned where
  absent_iff := by simp [RenderState.initial]
  failed h := by simp [RenderState.initial] at h
  checked w job h := by simp [RenderState.initial] at h
  live w req h := by simp [RenderState.initial, request, WorkerFrame.request] at h
  daemon_awake h := by simp [RenderState.initial] at h
  worker_awake w req h := by simp [RenderState.initial] at h

/-- The daemon goes on without a request before and after. -/
theorem Holds.setDaemon (h : s.Holds q) (d : DaemonStage Worker) (started failed : Bool)
    (hserving : d.serving = s.daemon.serving) (htoRender : d.toRender = s.daemon.toRender)
    (hresult : ∀ w, d.resultFor w = s.daemon.resultFor w) :
    Holds { s with daemon := d, started := started, failed := failed } q where
  linked := h.linked
  served r hr := h.served r (hserving ▸ hr)
  pending_iff w := by
    change (s.frame w).Pending ↔ w ∈ q ∨ d.serving = some w
    rw [hserving]
    exact h.pending_iff w
  fresh := h.fresh
  order := by
    change s.enqueued = s.rendered.map Prod.fst ++ (d.toRender.toList ++ q).filterMap s.entry
    rw [htoRender]
    exact h.order
  results w := by
    have hout : outstanding d w (s.frame w) = outstanding s.daemon w (s.frame w) := by
      unfold outstanding
      rw [hresult]
    change _ = entriesOf w s.answered ++ outstanding d w (s.frame w)
    rw [hout]
    exact h.results w

/-- The daemon goes on without having taken a request. -/
theorem Holds.setFree (h : s.Holds q) {d : DaemonStage Worker} (hs : s.daemon.serving = none)
    (hd : d.serving = none) (started failed : Bool) :
    Holds { s with daemon := d, started := started, failed := failed } q := by
  refine h.setDaemon d started failed (hd.trans hs.symm) ?_ fun w ↦ ?_
  · rw [DaemonStage.toRender_eq_none hd, DaemonStage.toRender_eq_none hs]
  · rw [DaemonStage.resultFor_eq_none (by rw [hd]; simp),
      DaemonStage.resultFor_eq_none (by rw [hs]; simp)]

/-- A worker goes on without a request that is not done before and after. -/
theorem Holds.goto (h : s.Holds q) (hs : ¬ (s.frame w).Pending) (hframe : ¬ frame.Pending)
    (hfresh : ∀ req, frame = .enqueuing req → req = newRequest req.job)
    {answered : List ((Worker × RenderJob Env) × Option String)}
    (hself : entriesOf w s.answered ++ outstanding s.daemon w (s.frame w) =
      entriesOf w answered ++ outstanding s.daemon w frame)
    (hother : ∀ v, v ≠ w → entriesOf v answered = entriesOf v s.answered) :
    Holds { s.goto w frame with answered := answered } q := by
  have hw := fun hw ↦ hs ((h.pending_iff w).2 hw)
  have hq : ∀ v ∈ q, v ≠ w := fun v hv hvw ↦ hw (Or.inl (hvw ▸ hv))
  have hr : ∀ r, s.daemon.serving = some r → r ≠ w := fun r hr hrw ↦ hw (Or.inr (hrw ▸ hr))
  have hrender : ∀ r ∈ s.daemon.toRender.toList, r ≠ w := by
    intro r hmem
    refine hr r ?_
    cases hd : s.daemon <;> simp_all [DaemonStage.toRender, DaemonStage.serving]
  refine ⟨h.linked.congr fun v hv ↦ ?_, h.served, fun v ↦ ?_, fun v req hreq ↦ ?_, ?_, fun v ↦ ?_⟩
  · exact congrArg (Option.bind · ErbRequest.next) (request_goto_of_ne (hq v hv))
  · change ((s.goto w frame).frame v).Pending ↔ _
    rcases frame_goto_cases s w v frame with ⟨rfl, hv⟩ | ⟨-, hv⟩ <;> rw [hv]
    · exact iff_of_false hframe hw
    · exact h.pending_iff v
  · change (s.goto w frame).frame v = _ at hreq
    rcases frame_goto_cases s w v frame with ⟨rfl, hv⟩ | ⟨-, hv⟩ <;> rw [hv] at hreq
    · exact hfresh req hreq
    · exact h.fresh v req hreq
  · refine h.order.trans (congrArg _ (List.filterMap_congr fun v hv ↦ ?_))
    have hv' : v ≠ w := (List.mem_append.1 hv).elim (hrender v) (hq v)
    exact congrArg (Option.map _) (request_goto_of_ne hv').symm
  · change _ = entriesOf v answered ++ outstanding s.daemon v ((s.goto w frame).frame v)
    rcases frame_goto_cases s w v frame with ⟨rfl, hv⟩ | ⟨hvw, hv⟩ <;> rw [hv]
    · exact (h.results v).trans hself
    · rw [hother v hvw]
      exact h.results v

/-- A worker that waits falls asleep or wakes up. -/
theorem Holds.setAsleep (h : s.Holds q) {asleep asleep' : Bool} {req : ErbRequest Worker Env}
    (hw : s.frame w = .waiting asleep req) : (s.goto w (.waiting asleep' req)).Holds q := by
  have hreq : s.request w = some req := congrArg WorkerFrame.request hw
  refine ⟨?_, h.served, ?_, ?_, ?_, ?_⟩
  · rw [next_goto (by rw [next, hreq]; rfl)]
    exact h.linked
  · intro v
    rcases frame_goto_cases s w v (.waiting asleep' req) with ⟨rfl, hv⟩ | ⟨-, hv⟩ <;> rw [hv]
    · exact (show _ ↔ (s.frame v).Pending by rw [hw]; rfl).trans (h.pending_iff v)
    · exact h.pending_iff v
  · intro v
    rcases frame_goto_cases s w v (.waiting asleep' req) with ⟨rfl, hv⟩ | ⟨-, hv⟩ <;> rw [hv]
    · intro req' hreq'
      cases hreq'
    · exact h.fresh v
  · rw [entry_goto (by rw [hreq]; rfl)]
    exact h.order
  · intro v
    rcases frame_goto_cases s w v (.waiting asleep' req) with ⟨rfl, hv⟩ | ⟨-, hv⟩ <;> rw [hv]
    · exact (h.results v).trans (by rw [hw]; rfl)
    · exact h.results v

/-! ### Steps that move the queue -/

/-- The request of a worker that added it and waits. -/
theorem Holds.request_isSome (h : s.Holds q) (hv : v ∈ q) : (s.request v).isSome := by
  obtain ⟨asleep, req, hframe, -⟩ := 
    WorkerFrame.exists_of_pending ((h.pending_iff v).2 (Or.inl hv))
  rw [request, hframe]
  rfl

theorem Holds.mem_of_queueTail (h : s.Holds q) (hv : s.queueTail = some v) : v ∈ q :=
  List.mem_of_getLast? (h.linked.tail_eq ▸ hv)

/-- The frame of a worker after another one linked its request behind the last one. -/
theorem frame_link (s : RenderState Worker Env) (w v : Worker) :
    (s.link w).frame v = s.frame v ∨
      s.queueTail = some v ∧ (s.link w).frame v =
        (s.frame v).mapRequest fun req ↦ { req with next := some w } := by
  unfold link
  cases ht : s.queueTail with
  | none => exact Or.inl rfl
  | some t =>
    rcases frame_goto_cases s t v ((s.frame t).mapRequest fun req ↦ { req with next := some w })
      with ⟨rfl, hv⟩ | ⟨-, hv⟩
    · exact Or.inr ⟨rfl, hv⟩
    · exact Or.inl hv

@[simp] theorem outstanding_mapRequest_next (d : DaemonStage Worker)
    (frame : WorkerFrame Worker Env) (n : Option Worker) :
    outstanding d w (frame.mapRequest fun req ↦ { req with next := n }) =
      outstanding d w frame := by
  cases frame <;> rfl

theorem entry_link : (s.link w).entry = s.entry := by
  unfold link
  cases ht : s.queueTail with
  | none => rfl
  | some t =>
    refine entry_goto ?_
    rw [WorkerFrame.request_mapRequest, Option.map_map]
    rfl

theorem queueHead_link : (s.link w).queueHead = headAfterPush s.queueHead s.queueTail w := by
  unfold link headAfterPush
  cases s.queueTail <;> rfl

/-- The parts of the state that linking a request keeps. -/
theorem link_eq (s : RenderState Worker Env) (w : Worker) :
    (s.link w).daemon = s.daemon ∧ (s.link w).rendered = s.rendered ∧
      (s.link w).answered = s.answered ∧ (s.link w).started = s.started ∧
      (s.link w).failed = s.failed := by
  unfold link
  cases s.queueTail <;> exact ⟨rfl, rfl, rfl, rfl, rfl⟩

/-- The state `s'` is `s` after `w` added its request and waits for it: nothing else changes but the
queue and the links of requests in it. -/
theorem Holds.push {s' : RenderState Worker Env} {req : ErbRequest Worker Env} (h : s.Holds q)
    (hw : s.frame w = .enqueuing req) (hdaemon : s'.daemon = s.daemon)
    (hrendered : s'.rendered = s.rendered) (hanswered : s'.answered = s.answered)
    (henqueued : s'.enqueued = s.enqueued ++ [(w, req.job)]) (hentry : s'.entry = s.entry)
    (hlinked : LinkedQueue s'.next s'.queueHead s'.queueTail (q ++ [w]))
    (hself : s'.frame w = .waiting false req)
    (hframe : ∀ v, v ≠ w → s'.frame v = s.frame v ∨ v ∈ q ∧ ∃ n, s'.frame v =
      (s.frame v).mapRequest fun req ↦ { req with next := n }) : s'.Holds (q ++ [w]) := by
  have hreq : s.request w = some req := congrArg WorkerFrame.request hw
  have hdone : req.done = false := by rw [h.fresh w req hw]; rfl
  have hpending : ¬ (s.frame w).Pending := by rw [hw]; exact id
  have hserving : s.daemon.serving ≠ some w := fun hr ↦ hpending ((h.pending_iff w).2 (Or.inr hr))
  have hresult : s.daemon.resultFor w = none := DaemonStage.resultFor_eq_none hserving
  refine ⟨hlinked, fun r hr hmem ↦ ?_, fun v ↦ ?_, fun v req' hreq' ↦ ?_, ?_, fun v ↦ ?_⟩
  · rw [hdaemon] at hr
    rcases List.mem_append.1 hmem with hmem | hmem
    · exact h.served r hr hmem
    · exact hserving (List.mem_singleton.1 hmem ▸ hr)
  · rw [List.mem_append, List.mem_singleton, hdaemon]
    by_cases hv : v = w
    · rw [hv, hself]
      exact iff_of_true hdone (Or.inl (Or.inr rfl))
    · rcases hframe v hv with hf | ⟨-, n, hf⟩ <;> rw [hf]
      · simpa [hv] using h.pending_iff v
      · simpa [hv] using h.pending_iff v
  · by_cases hv : v = w
    · rw [hv, hself] at hreq'
      cases hreq'
    · rcases hframe v hv with hf | ⟨hmem, n, hf⟩ <;> rw [hf] at hreq'
      · exact h.fresh v req' hreq'
      · obtain ⟨asleep, req'', hframe', -⟩ :=
          WorkerFrame.exists_of_pending ((h.pending_iff v).2 (Or.inl hmem))
        rw [hframe'] at hreq'
        cases hreq'
  · have hwentry : List.filterMap s.entry [w] = [(w, req.job)] := by simp [entry, hreq]
    rw [hdaemon, hrendered, hentry, henqueued, h.order, ← List.append_assoc _ q,
      List.filterMap_append (l := _ ++ q), hwentry, List.append_assoc]
  · rw [hdaemon, hrendered, hanswered]
    refine (h.results v).trans (congrArg _ ?_)
    by_cases hv : v = w
    · rw [hv, hself, hw]
      simp [outstanding, hdone, hresult]
    · rcases hframe v hv with hf | ⟨-, n, hf⟩ <;> rw [hf]
      exact (outstanding_mapRequest_next s.daemon (s.frame v) n).symm

theorem Holds.link (h : s.Holds q) {req : ErbRequest Worker Env}
    (hw : s.frame w = .enqueuing req) :
    Holds { (s.goto w (.waiting false req)).link w with
      queueTail := some w, enqueued := s.enqueued ++ [(w, req.job)] } (q ++ [w]) := by
  set t := s.goto w (.waiting false req) with ht
  have hreq : s.request w = some req := congrArg WorkerFrame.request hw
  have hwq : w ∉ q := fun hmem ↦ by
    have hpending := (h.pending_iff w).2 (Or.inl hmem)
    rw [hw] at hpending
    exact hpending
  have hne : ∀ v ∈ q, v ≠ w := fun v hv hvw ↦ hwq (hvw ▸ hv)
  have hnext : t.next = s.next := next_goto (by rw [next, hreq]; rfl)
  have hlink : (t.link w).next = linkLast s.next s.queueTail w := by
    rw [next_link fun v hv ↦ ?_, hnext]
    · rfl
    · have hv := h.mem_of_queueTail hv
      rw [request_goto_of_ne (hne v hv)]
      exact h.request_isSome hv
  obtain ⟨hdaemon, hrendered, hanswered, -⟩ := link_eq t w
  refine h.push hw hdaemon hrendered hanswered rfl ?_ ?_ ?_ fun v hv ↦ ?_
  · exact entry_link.trans (entry_goto (by rw [hreq]; rfl))
  · change LinkedQueue (t.link w).next (t.link w).queueHead (some w) (q ++ [w])
    rw [hlink, queueHead_link]
    exact h.linked.push hwq (by rw [next, hreq, h.fresh w req hw]; rfl)
  · rcases frame_link t w w with hf | ⟨htail, -⟩
    · exact hf.trans frame_goto_self
    · exact absurd rfl (hne w (h.mem_of_queueTail htail))
  · have hframe : t.frame v = s.frame v := frame_goto_of_ne hv
    rcases frame_link t w v with hf | ⟨htail, hf⟩
    · exact Or.inl (hf.trans hframe)
    · exact Or.inr ⟨h.mem_of_queueTail htail, some w, hframe ▸ hf⟩

/-- A worker puts its request behind the last one and wakes the daemon. -/
theorem Holds.enqueue (h : s.Holds q) {req : ErbRequest Worker Env}
    (hw : s.frame w = .enqueuing req) : (s.enqueue w req).Holds (q ++ [w]) := by
  have hdaemon := (link_eq (s.goto w (.waiting false req)) w).1
  have hwake {α : Type} (g : DaemonStage Worker → α) (hg : g (.idle true) = g (.idle false)) :
      g (if s.daemon = .idle true then .idle false else s.daemon) = g s.daemon := by
    split_ifs with hd
    · rw [hd, hg]
    · rfl
  refine (h.link hw).setDaemon (if s.daemon = .idle true then .idle false else s.daemon) _ _
    ?_ ?_ fun v ↦ ?_
  · exact (hwake _ rfl).trans (congrArg _ hdaemon.symm)
  · exact (hwake _ rfl).trans (congrArg _ hdaemon.symm)
  · exact (hwake _ rfl).trans (congrArg _ hdaemon.symm)

/-- The daemon takes the first request. -/
theorem Holds.dequeue {r : Worker} (h : s.Holds (r :: q)) (hd : s.daemon = .idle false) :
    (s.dequeue r).Holds q where
  linked := h.linked.pop
  served r' hr' := by
    obtain rfl : r = r' := Option.some.inj hr'
    exact (List.nodup_cons.1 h.linked.nodup).1
  pending_iff w := by
    change (s.frame w).Pending ↔ w ∈ q ∨ some r = some w
    rw [h.pending_iff w, hd, List.mem_cons]
    simp [DaemonStage.serving, or_comm, eq_comm]
  fresh := h.fresh
  order := by
    have horder := h.order
    rw [hd] at horder
    exact horder
  results w := by
    have hresults := h.results w
    rw [hd] at hresults
    exact hresults

/-- The daemon renders the request that it took. -/
theorem Holds.render {r : Worker} {req : ErbRequest Worker Env} (h : s.Holds q)
    (hd : s.daemon = .rendering r) (hreq : s.request r = some req) (result : Option String) :
    Holds { s with
      daemon := .rendered r result
      rendered := s.rendered ++ [((r, req.job), result)] } q where
  linked := h.linked
  served r' hr' := h.served r' (by rw [hd]; exact hr')
  pending_iff w := by
    have hpending := h.pending_iff w
    rw [hd] at hpending
    exact hpending
  fresh := h.fresh
  order := by
    have horder := h.order
    rw [hd] at horder
    change s.enqueued = (s.rendered ++ [((r, req.job), result)]).map Prod.fst ++ q.filterMap s.entry
    rw [horder, DaemonStage.toRender]
    simp [entry, hreq]
  results w := by
    have hpending := (h.pending_iff r).2 (Or.inr (by rw [hd]; rfl))
    obtain ⟨asleep, req', hframe, hdone⟩ := WorkerFrame.exists_of_pending hpending
    obtain rfl : req' = req := by
      rw [request, hframe] at hreq
      exact Option.some.inj hreq
    have hresults := h.results w
    rw [hd] at hresults
    change entriesOf w (s.rendered ++ _) =
      entriesOf w s.answered ++ outstanding (.rendered r result) w (s.frame w)
    rw [entriesOf, List.filter_append, ← entriesOf, hresults, List.append_assoc]
    refine congrArg _ ?_
    by_cases hw : w = r
    · rw [hw, hframe]
      simp [outstanding, hdone, DaemonStage.resultFor]
    · have hw' : r ≠ w := Ne.symm hw
      cases s.frame w <;> simp [outstanding, DaemonStage.resultFor, hw']

/-- The daemon stores the result in the request that it took. -/
theorem Holds.complete {r : Worker} {result : Option String} (h : s.Holds q)
    (hd : s.daemon = .rendered r result) : (s.complete r result).Holds q := by
  have hrq : r ∉ q := h.served r (by rw [hd]; rfl)
  obtain ⟨asleep, req, hframe, hdone⟩ :=
    WorkerFrame.exists_of_pending ((h.pending_iff r).2 (Or.inr (by rw [hd]; rfl)))
  have hreq : s.request r = some req := congrArg WorkerFrame.request hframe
  set frame : WorkerFrame Worker Env :=
    .waiting false { req with result := result, done := true } with hnew
  have heq : s.complete r result = { s.goto r frame with daemon := .idle false } := by
    rw [RenderState.complete, hframe]
  have hnext : (s.goto r frame).next = s.next := next_goto (by rw [next, hreq]; rfl)
  have hentry : (s.goto r frame).entry = s.entry := entry_goto (by rw [hreq]; rfl)
  have horder := h.order
  rw [hd] at horder
  rw [heq]
  refine ⟨?_, fun r hr ↦ (by cases hr), fun w ↦ ?_, fun w req' hreq' ↦ ?_, ?_, fun w ↦ ?_⟩
  · change LinkedQueue (s.goto r frame).next s.queueHead s.queueTail q
    rw [hnext]
    exact h.linked
  · have hpending := h.pending_iff w
    rw [hd] at hpending
    change ((s.goto r frame).frame w).Pending ↔ w ∈ q ∨ none = some w
    rcases frame_goto_cases s r w frame with ⟨rfl, hw⟩ | ⟨hwr, hw⟩ <;> rw [hw]
    · simp [hnew, WorkerFrame.Pending, hrq]
    · rw [hpending]
      simp [DaemonStage.serving, hwr.symm]
  · change (s.goto r frame).frame w = _ at hreq'
    rcases frame_goto_cases s r w frame with ⟨rfl, hw⟩ | ⟨-, hw⟩ <;> rw [hw] at hreq'
    · rw [hnew] at hreq'
      cases hreq'
    · exact h.fresh w req' hreq'
  · change s.enqueued = s.rendered.map Prod.fst ++ q.filterMap (s.goto r frame).entry
    rw [hentry]
    exact horder
  · have hresults := h.results w
    rw [hd] at hresults
    change entriesOf w s.rendered =
      entriesOf w s.answered ++ outstanding (.idle false) w ((s.goto r frame).frame w)
    refine hresults.trans (congrArg _ ?_)
    rcases frame_goto_cases s r w frame with ⟨rfl, hw⟩ | ⟨hwr, hw⟩ <;> rw [hw]
    · rw [hframe]
      simp [outstanding, hnew, hdone, DaemonStage.resultFor]
    · have hwr' : r ≠ w := Ne.symm hwr
      cases s.frame w <;> simp [outstanding, DaemonStage.resultFor, hwr']

/-- A worker takes the result of its request. -/
theorem Holds.receive {asleep : Bool} {req : ErbRequest Worker Env} (h : s.Holds q)
    (hw : s.frame w = .waiting asleep req) (hdone : req.done = true) :
    Holds { s.goto w .outside with answered := s.answered ++ [((w, req.job), req.result)] } q := by
  have hs : ¬ (s.frame w).Pending := by
    rw [hw]
    simp [WorkerFrame.Pending, hdone]
  refine h.goto hs id (fun _ hreq ↦ by cases hreq) ?_ fun v hv ↦ ?_
  · rw [hw]
    simp [outstanding, hdone, entriesOf]
  · simp [entriesOf, hv.symm]

/-! ### What a step can do -/

/-- The steps of a worker, by cases. -/
inductive WorkerMoves (s : RenderState Worker Env) (w : Worker) :
    WorkerFrame Worker Env → RenderState Worker Env → Prop
  | call (job : RenderJob Env) : WorkerMoves s w .outside (s.goto w (.ensuring job))
  | ensure (job : RenderJob Env) (created : Bool) :
    WorkerMoves s w (.ensuring job) ((s.ensureRubyDaemon created).goto w (.checking job))
  | refused (job : RenderJob Env) (hfailed : s.failed = true) :
    WorkerMoves s w (.checking job) (s.goto w .outside)
  | accepted (job : RenderJob Env) (hfailed : s.failed = false) :
    WorkerMoves s w (.checking job) (s.goto w (.enqueuing (newRequest job)))
  | enqueue (req : ErbRequest Worker Env) : WorkerMoves s w (.enqueuing req) (s.enqueue w req)
  | doze (req : ErbRequest Worker Env) (hdone : req.done = false) :
    WorkerMoves s w (.waiting false req) (s.goto w (.waiting true req))
  | rouse (req : ErbRequest Worker Env) :
    WorkerMoves s w (.waiting true req) (s.goto w (.waiting false req))
  | receive (req : ErbRequest Worker Env) (hdone : req.done = true) :
    WorkerMoves s w (.waiting false req)
      { s.goto w .outside with answered := s.answered ++ [((w, req.job), req.result)] }

/-- The steps of the daemon, by cases. -/
inductive DaemonMoves (s : RenderState Worker Env) :
    DaemonAction → DaemonStage Worker → RenderState Worker Env → Prop
  | initialized : DaemonMoves s (.init true) .starting { s with daemon := .idle false }
  | failed : DaemonMoves s (.init false) .starting { s with failed := true, daemon := .dead }
  | rest (hhead : s.queueHead = none) :
    DaemonMoves s .rest (.idle false) { s with daemon := .idle true }
  | rouse : DaemonMoves s .rouse (.idle true) { s with daemon := .idle false }
  | dequeue (r : Worker) (hhead : s.queueHead = some r) :
    DaemonMoves s .dequeue (.idle false) (s.dequeue r)
  | render (r : Worker) (req : ErbRequest Worker Env) (result : Option String)
    (hreq : s.request r = some req) : DaemonMoves s (.render result) (.rendering r)
      { s with
        daemon := .rendered r result
        rendered := s.rendered ++ [((r, req.job), result)] }
  | complete (r : Worker) (result : Option String) :
    DaemonMoves s .complete (.rendered r result) (s.complete r result)

variable {s' : RenderState Worker Env}

theorem workerMoves_of_step {a : WorkerAction Env} (h : s.workerStep w a frame = some s') :
    s.WorkerMoves w frame s' := by
  unfold workerStep at h
  split at h
  · cases h; exact .call _
  · cases h; exact .ensure _ _
  · cases hfailed : s.failed <;> rw [hfailed] at h <;> cases h
    · exact .accepted _ hfailed
    · exact .refused _ hfailed
  · cases h; exact .enqueue _
  · next req =>
    cases hdone : req.done <;> rw [hdone] at h <;> cases h
    exact .doze req hdone
  · cases h; exact .rouse _
  · next req =>
    cases hdone : req.done <;> rw [hdone] at h <;> cases h
    exact .receive req hdone
  · cases h

theorem daemonMoves_of_step {a : DaemonAction} {d : DaemonStage Worker}
    (h : s.daemonStep a d = some s') : s.DaemonMoves a d s' := by
  unfold daemonStep at h
  split at h
  · cases h; exact .initialized
  · cases h; exact .failed
  · split_ifs at h with hhead
    cases h
    exact .rest hhead
  · cases h; exact .rouse
  · obtain ⟨r, hhead, rfl⟩ := Option.map_eq_some_iff.1 h
    exact .dequeue r hhead
  · obtain ⟨req, hreq, rfl⟩ := Option.map_eq_some_iff.1 h
    exact .render _ req _ hreq
  · cases h; exact .complete _ _
  · cases h

/-- Starting the daemon leaves the queue alone. -/
theorem Holds.ensureRubyDaemon (h : s.Holds q) (hmanned : s.Manned) (created : Bool) :
    (s.ensureRubyDaemon created).Holds q := by
  unfold RenderState.ensureRubyDaemon
  split_ifs with hstart hcreated
  · have habsent : s.daemon = .absent := hmanned.absent_iff.2 (by simp_all)
    exact h.setFree (by rw [habsent]; rfl) rfl true s.failed
  · exact h.setDaemon s.daemon s.started true rfl rfl fun _ ↦ rfl
  · exact h

omit [DecidableEq Worker] in
theorem frame_ensureRubyDaemon (created : Bool) : (s.ensureRubyDaemon created).frame = s.frame := by
  unfold RenderState.ensureRubyDaemon
  split_ifs <;> rfl

theorem Holds.worker_step (h : s.Holds q) (hmanned : s.Manned)
    (hmoves : s.WorkerMoves w (s.frame w) s') : ∃ q', s'.Holds q' := by
  generalize hf : s.frame w = frame₀ at hmoves
  cases hmoves with
  | call job =>
    exact ⟨q, h.goto (by rw [hf]; exact id) id (by simp) (by rw [hf]; rfl) fun _ _ ↦ rfl⟩
  | ensure job created =>
    have hf' : (s.ensureRubyDaemon created).frame w = .ensuring job := by
      rw [frame_ensureRubyDaemon, hf]
    exact ⟨q, (h.ensureRubyDaemon hmanned created).goto (by rw [hf']; exact id) id (by simp)
      (by rw [hf']; rfl) fun _ _ ↦ rfl⟩
  | refused job hfailed =>
    exact ⟨q, h.goto (by rw [hf]; exact id) id (by simp) (by rw [hf]; rfl) fun _ _ ↦ rfl⟩
  | accepted job hfailed =>
    refine ⟨q, h.goto (by rw [hf]; exact id) id ?_ (by rw [hf]; rfl) fun _ _ ↦ rfl⟩
    intro req hreq
    cases hreq
    rfl
  | enqueue req => exact ⟨_, h.enqueue hf⟩
  | doze req hdone => exact ⟨q, h.setAsleep hf⟩
  | rouse req => exact ⟨q, h.setAsleep hf⟩
  | receive req hdone => exact ⟨q, h.receive hf hdone⟩

theorem Holds.daemon_step {a : DaemonAction} (h : s.Holds q)
    (hmoves : s.DaemonMoves a s.daemon s') : ∃ q', s'.Holds q' := by
  generalize hd : s.daemon = d at hmoves
  cases hmoves with
  | initialized => exact ⟨q, h.setFree (by rw [hd]; rfl) rfl _ _⟩
  | failed => exact ⟨q, h.setFree (by rw [hd]; rfl) rfl _ _⟩
  | rest hhead => exact ⟨q, h.setFree (by rw [hd]; rfl) rfl _ _⟩
  | rouse => exact ⟨q, h.setFree (by rw [hd]; rfl) rfl _ _⟩
  | dequeue r hhead =>
    obtain ⟨q', rfl⟩ := h.linked.exists_cons hhead
    exact ⟨q', h.dequeue hd⟩
  | render r req result hreq => exact ⟨q, h.render hd hreq result⟩
  | complete r result => exact ⟨q, h.complete hd⟩

/-! ### The daemon and the flags -/

theorem Manned.goto (h : s.Manned)
    (hchecked : ∀ job, frame = .checking job → s.started = true ∨ s.failed = true)
    (hlive : ∀ req, frame.request = some req → s.daemon.Live)
    (hawake : ∀ req, frame = .waiting true req → req.done = false)
    {answered : List ((Worker × RenderJob Env) × Option String)} :
    Manned { s.goto w frame with answered := answered } where
  absent_iff := h.absent_iff
  failed := h.failed
  daemon_awake := h.daemon_awake
  checked v job hv := by
    change (s.goto w frame).frame v = _ at hv
    rcases frame_goto_cases s w v frame with ⟨-, hv'⟩ | ⟨-, hv'⟩ <;> rw [hv'] at hv
    · exact hchecked job hv
    · exact h.checked v job hv
  live v req hv := by
    change ((s.goto w frame).frame v).request = some req at hv
    rcases frame_goto_cases s w v frame with ⟨-, hv'⟩ | ⟨-, hv'⟩ <;> rw [hv'] at hv
    · exact hlive req hv
    · exact h.live v req hv
  worker_awake v req hv := by
    change (s.goto w frame).frame v = _ at hv
    rcases frame_goto_cases s w v frame with ⟨-, hv'⟩ | ⟨-, hv'⟩ <;> rw [hv'] at hv
    · exact hawake req hv
    · exact h.worker_awake v req hv

omit [DecidableEq Worker] in
theorem Manned.ensureRubyDaemon (h : s.Manned) (created : Bool) :
    (s.ensureRubyDaemon created).Manned := by
  unfold RenderState.ensureRubyDaemon
  split_ifs with hstart hcreated
  · exact ⟨by simp, by simp, fun _ _ _ ↦ Or.inl rfl, fun _ _ _ ↦ trivial, by simp, h.worker_awake⟩
  · exact ⟨h.absent_iff, fun _ ↦ rfl, fun _ _ _ ↦ Or.inr rfl, h.live, h.daemon_awake,
      h.worker_awake⟩
  · exact h

omit [DecidableEq Worker] in
/-- `ensure_ruby_daemon` started the daemon or noted that it could not. -/
theorem started_or_failed_ensureRubyDaemon (s : RenderState Worker Env) (created : Bool) :
    (s.ensureRubyDaemon created).started = true ∨ (s.ensureRubyDaemon created).failed = true := by
  unfold RenderState.ensureRubyDaemon
  split_ifs with hstart hcreated
  · exact Or.inl rfl
  · exact Or.inr rfl
  · cases hs : s.started <;> cases hf : s.failed <;> simp_all

/-- A request is linked behind the last one, and the daemon woken. -/
theorem Manned.link (h : s.Manned) (hlive : s.daemon.Live)
    (enqueued : List (Worker × RenderJob Env)) :
    Manned { s.link w with
      queueTail := some w
      daemon := if s.daemon = .idle true then .idle false else s.daemon
      enqueued := enqueued } := by
  obtain ⟨-, -, -, hstarted, hfailed⟩ := link_eq s w
  have hframe (v : Worker) : (s.link w).frame v = s.frame v ∨
      ∃ n, (s.link w).frame v = (s.frame v).mapRequest fun req ↦ { req with next := n } :=
    (frame_link s w v).imp_right fun h ↦ ⟨some w, h.2⟩
  refine ⟨?_, ?_, fun v job hv ↦ ?_, fun v req hv ↦ ?_, ?_, fun v req hv ↦ ?_⟩
  · change _ ↔ (s.link w).started = false
    rw [hstarted]
    split_ifs with hd
    · simpa [hd] using h.absent_iff
    · exact h.absent_iff
  · change _ → (s.link w).failed = true
    rw [hfailed]
    split_ifs with hd
    · exact fun hdead ↦ by cases hdead
    · exact h.failed
  · change (s.link w).started = true ∨ (s.link w).failed = true
    rw [hstarted, hfailed]
    rcases hframe v with hv' | ⟨n, hv'⟩ <;> rw [hv'] at hv
    · exact h.checked v job hv
    · cases hf : s.frame v <;> rw [hf] at hv <;> cases hv
      exact h.checked v _ hf
  · split_ifs
    · trivial
    · exact hlive
  · intro hd
    split_ifs at hd with hidle
    · cases hd
    · exact absurd hd hidle
  · rcases hframe v with hv' | ⟨n, hv'⟩ <;> rw [hv'] at hv
    · exact h.worker_awake v req hv
    · cases hf : s.frame v <;> rw [hf] at hv <;> cases hv
      have hdone := h.worker_awake v _ hf
      exact hdone

theorem Manned.enqueue (h : s.Manned) {req : ErbRequest Worker Env}
    (hw : s.frame w = .enqueuing req) : (s.enqueue w req).Manned := by
  have hlive : s.daemon.Live := h.live w req (congrArg WorkerFrame.request hw)
  have hgoto : (s.goto w (.waiting false req)).Manned :=
    h.goto (by simp) (fun _ _ ↦ hlive) (by simp)
  exact hgoto.link hlive (s.enqueued ++ [(w, req.job)])

theorem Manned.worker_step (h : s.Manned) (hmoves : s.WorkerMoves w (s.frame w) s') :
    s'.Manned := by
  generalize hf : s.frame w = frame₀ at hmoves
  cases hmoves with
  | call job => exact h.goto (by simp) (by simp [WorkerFrame.request]) (by simp)
  | ensure job created =>
    exact (h.ensureRubyDaemon created).goto
      (fun _ _ ↦ started_or_failed_ensureRubyDaemon s created) (by simp [WorkerFrame.request])
      (by simp)
  | refused job hfailed => exact h.goto (by simp) (by simp [WorkerFrame.request]) (by simp)
  | accepted job hfailed =>
    refine h.goto (by simp) (fun _ _ ↦ ?_) (by simp)
    -- the worker started the daemon or found it started, and it did not fail yet
    have hstarted : s.started = true := (h.checked w job hf).resolve_right (by simp [hfailed])
    cases hd : s.daemon with
    | absent => simp [h.absent_iff.1 hd] at hstarted
    | dead => simp [h.failed hd] at hfailed
    | _ => trivial
  | enqueue req => exact h.enqueue hf
  | doze req hdone =>
    have hlive := h.live w req (congrArg WorkerFrame.request hf)
    exact h.goto (by simp) (fun _ _ ↦ hlive) fun _ hreq ↦ by cases hreq; exact hdone
  | rouse req =>
    have hlive := h.live w req (congrArg WorkerFrame.request hf)
    exact h.goto (by simp) (fun _ _ ↦ hlive) (by simp)
  | receive req hdone => exact h.goto (by simp) (by simp [WorkerFrame.request]) (by simp)

omit [DecidableEq Worker] in
/-- The daemon goes on, and runs before and after. -/
theorem Manned.setDaemon (h : s.Manned) (d : DaemonStage Worker) (hs : s.daemon.Live)
    (hd : d.Live) (hne : d ≠ .idle true) (queueHead queueTail : Option Worker)
    (rendered : List ((Worker × RenderJob Env) × Option String)) :
    Manned { s with
      daemon := d, queueHead := queueHead, queueTail := queueTail, rendered := rendered } where
  absent_iff := by
    have hstarted : s.started ≠ false := fun hs' ↦ by
      rw [h.absent_iff.2 hs'] at hs
      exact hs
    exact iff_of_false (by rintro rfl; exact hd) hstarted
  failed hdead := by
    cases hdead
    exact hd.elim
  checked := h.checked
  live _ _ _ := hd
  daemon_awake hidle := absurd hidle hne
  worker_awake := h.worker_awake

theorem Manned.daemon_step {a : DaemonAction} (h : s.Manned) (hcareful : s.Careful (.daemon a))
    (hmoves : s.DaemonMoves a s.daemon s') : s'.Manned := by
  generalize hd : s.daemon = d at hmoves
  cases hmoves with
  | initialized => exact h.setDaemon (.idle false) (by rw [hd]; trivial) trivial (by simp) _ _ _
  | failed =>
    refine ⟨?_, fun _ ↦ rfl, fun _ _ _ ↦ Or.inr rfl, fun v req hv ↦ ?_, by simp, h.worker_awake⟩
    · exact iff_of_false (by simp) fun hs ↦ by simp [h.absent_iff.2 hs] at hd
    · exact absurd ((hcareful v).symm.trans hv) (by simp)
  | rest hhead =>
    have hstarted : s.started ≠ false := fun hs ↦ by simp [h.absent_iff.2 hs] at hd
    exact ⟨iff_of_false (by simp) hstarted, by simp, h.checked, fun _ _ _ ↦ trivial,
      fun _ ↦ hhead, h.worker_awake⟩
  | rouse => exact h.setDaemon (.idle false) (by rw [hd]; trivial) trivial (by simp) _ _ _
  | dequeue r hhead =>
    exact h.setDaemon (.rendering r) (by rw [hd]; trivial) trivial (by simp) _ _ _
  | render r req result hreq =>
    exact h.setDaemon (.rendered r result) (by rw [hd]; trivial) trivial (by simp) _ _ _
  | complete r result =>
    unfold RenderState.complete
    have hlive : s.daemon.Live := by rw [hd]; trivial
    split
    · next asleep req hframe =>
      have hgoto : (s.goto r (.waiting false { req with result := result, done := true })).Manned :=
        h.goto (by simp) (fun _ _ ↦ hlive) (by simp)
      exact hgoto.setDaemon (.idle false) hlive trivial (by simp) _ _ _
    · exact h.setDaemon (.idle false) hlive trivial (by simp) _ _ _

/-- The invariant of careful runs. -/
def Sound (s : RenderState Worker Env) : Prop :=
  s.Manned ∧ ∃ q, s.Holds q

theorem Sound.initial : (initial : RenderState Worker Env).Sound :=
  ⟨Manned.initial, [], Holds.initial⟩

/-- A careful step keeps the invariant. -/
theorem Sound.step {a : RenderAction Worker Env} (h : s.Sound) (hcareful : s.Careful a)
    (hstep : rendering.step s a = some s') : s'.Sound := by
  obtain ⟨hmanned, q, hholds⟩ := h
  cases a with
  | worker w a =>
    have hmoves := workerMoves_of_step hstep
    exact ⟨hmanned.worker_step hmoves, hholds.worker_step hmanned hmoves⟩
  | daemon a =>
    have hmoves := daemonMoves_of_step hstep
    exact ⟨hmanned.daemon_step hcareful hmoves, hholds.daemon_step hmoves⟩

/-! ### The daemon answers every request -/

theorem run_daemon_cons {a : DaemonAction} {as : List DaemonAction}
    (h : rendering.step s (.daemon a) = some s') :
    rendering.run s ((a :: as).map .daemon) = rendering.run s' (as.map .daemon) := by
  rw [List.map_cons, StepSystem.run_cons, h]
  rfl

/-- The daemon stores the result that it has. -/
theorem Holds.exists_run_of_rendered {r : Worker} {result : Option String} (h : s.Holds q)
    (hd : s.daemon = .rendered r result) :
    ∃ (as : List DaemonAction) (s' : RenderState Worker Env),
      rendering.run s (as.map .daemon) = some s' ∧ s'.Holds q ∧ s'.daemon = .idle false ∧
        (s'.frame r).Answered := by
  have hstep : rendering.step s (.daemon .complete) = some (s.complete r result) := by
    change s.daemonStep _ s.daemon = _
    rw [hd]
    rfl
  obtain ⟨asleep, req, hframe, -⟩ :=
    WorkerFrame.exists_of_pending ((h.pending_iff r).2 (Or.inr (by rw [hd]; rfl)))
  refine ⟨[.complete], s.complete r result, run_daemon_cons hstep, h.complete hd, ?_, ?_⟩
  · rw [RenderState.complete, hframe]
  · rw [RenderState.complete, hframe]
    change ((s.goto r _).frame r).Answered
    rw [frame_goto_self]
    rfl

/-- The daemon answers the request that it took. -/
theorem Holds.exists_run_of_serving {r : Worker} (h : s.Holds q)
    (hr : s.daemon.serving = some r) :
    ∃ (as : List DaemonAction) (s' : RenderState Worker Env),
      rendering.run s (as.map .daemon) = some s' ∧ s'.Holds q ∧ s'.daemon = .idle false ∧
        (s'.frame r).Answered := by
  cases hd : s.daemon with
  | rendering r' =>
    obtain rfl : r' = r := by
      rw [hd] at hr
      exact Option.some.inj hr
    obtain ⟨asleep, req, hframe, -⟩ :=
      WorkerFrame.exists_of_pending ((h.pending_iff r').2 (Or.inr hr))
    have hreq : s.request r' = some req := congrArg WorkerFrame.request hframe
    have hstep : rendering.step s (.daemon (.render none)) = some { s with
        daemon := .rendered r' none
        rendered := s.rendered ++ [((r', req.job), none)] } := by
      change s.daemonStep _ s.daemon = _
      rw [hd, daemonStep, hreq]
      rfl
    obtain ⟨as, s', hrun, hrest⟩ := (h.render hd hreq none).exists_run_of_rendered rfl
    exact ⟨.render none :: as, s', (run_daemon_cons hstep).trans hrun, hrest⟩
  | rendered r' result =>
    obtain rfl : r' = r := by
      rw [hd] at hr
      exact Option.some.inj hr
    exact h.exists_run_of_rendered hd
  | _ =>
    rw [hd] at hr
    cases hr

/-- The idle daemon answers the requests in the queue one after the other. -/
theorem Holds.exists_run_of_idle (h : s.Holds q) (hd : s.daemon = .idle false) (hw : w ∈ q) :
    ∃ (as : List DaemonAction) (s' : RenderState Worker Env),
      rendering.run s (as.map .daemon) = some s' ∧ (s'.frame w).Answered := by
  induction q generalizing s with
  | nil => cases hw
  | cons r q ih =>
    have hstep : rendering.step s (.daemon .dequeue) = some (s.dequeue r) := by
      change s.daemonStep _ s.daemon = _
      rw [hd, daemonStep, h.linked.chain.1]
      rfl
    obtain ⟨as, s', hrun, hholds, hidle, hanswered⟩ :=
      (h.dequeue hd).exists_run_of_serving (r := r) rfl
    rcases List.mem_cons.1 hw with rfl | hw
    · exact ⟨.dequeue :: as, s', (run_daemon_cons hstep).trans hrun, hanswered⟩
    · obtain ⟨bs, t, hrun', hw'⟩ := ih hholds hidle hw
      refine ⟨.dequeue :: (as ++ bs), t, (run_daemon_cons hstep).trans ?_, hw'⟩
      rw [List.map_append, StepSystem.run_append, hrun]
      exact hrun'

/-- The daemon can answer every request, whatever the other workers do. -/
theorem Sound.answerable (h : s.Sound) (hw : (s.frame w).Pending) :
    ∃ (as : List DaemonAction) (s' : RenderState Worker Env),
      rendering.run s (as.map .daemon) = some s' ∧ (s'.frame w).Answered := by
  obtain ⟨hmanned, q, h⟩ := h
  obtain ⟨asleep, req, hframe, -⟩ := WorkerFrame.exists_of_pending hw
  have hlive : s.daemon.Live := hmanned.live w req (congrArg WorkerFrame.request hframe)
  have hmem := (h.pending_iff w).1 hw
  -- a daemon that took no request gets to the queue in one step
  have hready (a : DaemonAction) (hfree : s.daemon.serving = none)
      (hstep : rendering.step s (.daemon a) = some { s with daemon := .idle false }) :
      ∃ (as : List DaemonAction) (s' : RenderState Worker Env),
        rendering.run s (as.map .daemon) = some s' ∧ (s'.frame w).Answered := by
    have hidle : Holds { s with daemon := .idle false } q := h.setFree hfree rfl _ _
    obtain ⟨as, s', hrun, hanswered⟩ :=
      hidle.exists_run_of_idle rfl (hmem.resolve_right (by simp [hfree]))
    exact ⟨a :: as, s', (run_daemon_cons hstep).trans hrun, hanswered⟩
  cases hd : s.daemon with
  | absent => rw [hd] at hlive; exact hlive.elim
  | dead => rw [hd] at hlive; exact hlive.elim
  | starting =>
    exact hready (.init true) (by rw [hd]; rfl)
      (by change s.daemonStep _ s.daemon = _; rw [hd]; rfl)
  | idle asleep =>
    cases asleep with
    | true =>
      exact hready .rouse (by rw [hd]; rfl) (by change s.daemonStep _ s.daemon = _; rw [hd]; rfl)
    | false =>
      exact h.exists_run_of_idle hd (hmem.resolve_right (by simp [hd, DaemonStage.serving]))
  | _ =>
    obtain ⟨r, hr⟩ : ∃ r, s.daemon.serving = some r := by rw [hd]; exact ⟨_, rfl⟩
    obtain ⟨as, s', hrun, hholds, hidle, hanswered⟩ := h.exists_run_of_serving hr
    rcases hmem with hmem | hmem
    · obtain ⟨bs, t, hrun', hw'⟩ := hholds.exists_run_of_idle hidle hmem
      refine ⟨as ++ bs, t, ?_, hw'⟩
      rw [List.map_append, StepSystem.run_append, hrun]
      exact hrun'
    · obtain rfl : r = w := Option.some.inj (hr.symm.trans hmem)
      exact ⟨as, s', hrun, hanswered⟩

/-! ### Every request is served -/

/-- The histories of a worker agree when it does not wait. -/
theorem Holds.settled (h : s.Holds q) (hpending : ¬ (s.frame w).Pending)
    (hanswered : ¬ (s.frame w).Answered) :
    entriesOf w s.answered = entriesOf w s.rendered ∧
      (entriesOf w s.answered).map Prod.fst = s.enqueued.filter fun e ↦ e.1 = w := by
  have hout : outstanding s.daemon w (s.frame w) = [] := by
    cases hf : s.frame w with
    | waiting asleep req =>
      rw [hf] at hpending hanswered
      cases hdone : req.done
      · exact absurd hdone hpending
      · exact absurd hdone hanswered
    | _ => rfl
  have hresults : entriesOf w s.answered = entriesOf w s.rendered := by
    rw [h.results w, hout, List.append_nil]
  have hnone :
      ((s.daemon.toRender.toList ++ q).filterMap s.entry).filter (fun e ↦ e.1 = w) = [] := by
    rw [List.filter_eq_nil_iff]
    intro e he hew
    obtain ⟨v, hv, hentry⟩ := List.mem_filterMap.1 he
    obtain ⟨req, -, rfl⟩ := Option.map_eq_some_iff.1 hentry
    obtain rfl : v = w := of_decide_eq_true hew
    refine hpending ((h.pending_iff v).2 ((List.mem_append.1 hv).symm.imp_right fun hr ↦ ?_))
    cases hd : s.daemon <;> rw [hd] at hr <;>
      simp_all [DaemonStage.toRender, DaemonStage.serving]
  refine ⟨hresults, ?_⟩
  rw [h.order, List.filter_append, hnone, List.append_nil, hresults, List.filter_map]
  rfl

theorem Sound.served (h : s.Sound) : s.Served := by
  have hanswerable := fun w (hw : (s.frame w).Pending) ↦ h.answerable hw
  obtain ⟨hmanned, q, h⟩ := h
  refine ⟨h.linked.tail_eq_none_iff, ?_, fun w ↦ ?_, fun w ↦ h.settled, fun w hw ↦ ⟨?_, ?_⟩,
    hanswerable, hmanned.daemon_awake, hmanned.worker_awake⟩
  · exact h.order ▸ List.prefix_append ..
  · exact h.results w ▸ List.prefix_append ..
  · obtain ⟨asleep, req, hframe, -⟩ := WorkerFrame.exists_of_pending hw
    exact hmanned.live w req (congrArg WorkerFrame.request hframe)
  · exact ((h.pending_iff w).1 hw).symm.imp_right fun hmem ↦ ⟨q, h.linked.chain, hmem⟩

end RenderState

/-- In a run of careful steps every request is rendered exactly once, in order, and its result is
delivered; no worker waits in vain. -/
theorem served_of_careful [DecidableEq Worker] {as : List (RenderAction Worker Env)}
    {s : RenderState Worker Env} (hcareful : rendering.Along RenderState.Careful .initial as)
    (hrun : rendering.run .initial as = some s) : s.Served :=
  (hcareful.invariant (fun _ _ _ h hc hs ↦ RenderState.Sound.step h hc hs)
    RenderState.Sound.initial hrun).served

/-- A request that is not done is never answered by a daemon that failed. -/
theorem RenderState.not_served_of_dead [DecidableEq Worker] {s : RenderState Worker Env}
    {w : Worker} (hd : s.daemon = .dead) (hw : (s.frame w).Pending) : ¬ s.Served := by
  intro h
  have hlive := (h.attended w hw).1
  rw [hd] at hlive
  exact hlive

/-- The job of a worker. -/
def motdJob : RenderJob Unit where
  templateContent := "<%= @motd %>"
  env := ()
  templateName := none

/-- Two workers start the daemon, and get their results in the order of their requests. -/
def twoRequests : List (RenderAction ℕ Unit) :=
  [.worker 1 (.call motdJob), .worker 1 (.ensure true), .worker 0 (.call motdJob),
    .worker 0 (.ensure true), .worker 1 .check, .worker 0 .check, .worker 1 .enqueue,
    .worker 1 .doze, .worker 0 .enqueue, .daemon (.init true), .daemon .dequeue,
    .daemon (.render (some "hello")), .daemon .complete, .daemon .dequeue,
    .daemon (.render none), .daemon .complete, .worker 0 .receive, .worker 1 .receive]

theorem served_twoRequests :
    ∃ s, rendering.run RenderState.initial twoRequests = some s ∧
      s.rendered = [((1, motdJob), some "hello"), ((0, motdJob), none)] ∧ s.Served := by
  refine ⟨_, rfl, rfl, ?_⟩
  refine served_of_careful (StepSystem.along_of_forall_mem ?_)
    (rfl : rendering.run RenderState.initial twoRequests = some _)
  simp [twoRequests, RenderState.Careful]

/-- Ruby fails to start after the worker read that it did not. -/
def lateFailure : List (RenderAction ℕ Unit) :=
  [.worker 0 (.call motdJob), .worker 0 (.ensure true), .worker 0 .check, .daemon (.init false),
    .worker 0 .enqueue]

/-- The worker waits for a daemon that failed. -/
theorem not_forall_served :
    ¬ ∀ (as : List (RenderAction ℕ Unit)) (s : RenderState ℕ Unit),
      rendering.run .initial as = some s → s.Served := by
  intro h
  obtain ⟨s, hrun, hd, asleep, req, hframe, hdone⟩ :
      ∃ s, rendering.run .initial lateFailure = some s ∧ s.daemon = .dead ∧
        ∃ asleep req, s.frame 0 = .waiting asleep req ∧ req.done = false :=
    ⟨_, rfl, rfl, false, _, rfl, rfl⟩
  have hpending : (s.frame 0).Pending := hframe ▸ hdone
  exact RenderState.not_served_of_dead hd hpending (h lateFailure s hrun)

end Property

end PuppetC
