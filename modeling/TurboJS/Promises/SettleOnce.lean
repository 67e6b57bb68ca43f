import TurboJS.Foundation.Deferred
import TurboJS.Promises.Machine

namespace TurboJS.Promises

open Foundation

/-! Every promise is a deferred value. -/

def registrations (p : Nat) (log : List Record) : List Registration :=
  log.filterMap fun
    | .registered q r => if q = p then some r else none
    | _ => none

def reactionJobs (p : Nat) (log : List Record) : List Job :=
  log.filterMap fun
    | .queued (some q) job => if q = p then some job else none
    | _ => none

def queuedJobs (log : List Record) : List Job :=
  log.filterMap fun
    | .queued _ job => some job
    | _ => none

def executedJobs (log : List Record) : List Job :=
  log.filterMap fun
    | .executed job => some job
    | _ => none

def Registration.job (r : Registration) (outcome : Bool × JSValue) : Job :=
  (r.reaction outcome.1).job outcome.1 outcome.2

def PromiseData.outcome (s : PromiseData) : Option (Bool × JSValue) :=
  match s.promiseState with
  | .pending => none
  | .fulfilled => some (false, s.promiseResult)
  | .rejected => some (true, s.promiseResult)

def World.promise (w : World) (p : Nat) : PromiseData := w.rt.promises[p]?.getD freshPromise

structure Represents (s : PromiseData) (d : Deferred Registration (Bool × JSValue)) : Prop where
  value : d.value = s.outcome
  reactions : s.promiseState = .pending → ∀ i,
    s.promiseReactions i = d.waiting.map (·.reaction i)

def World.Tracked (w : World) (p : Nat) : Prop :=
  ∃ d out, Represents (w.promise p) d ∧ d.Reached (registrations p w.log) out ∧
    reactionJobs p w.log = out.map fun x => x.1.job x.2

/-- The `already_resolved` flag of a pair. -/
def World.Resolved (w : World) (pair : Nat) : Prop :=
  ∃ s, w.rt.pairs[pair]? = some s ∧ s.alreadyResolved = true

structure World.Inv (w : World) : Prop where
  tracked : ∀ p, w.Tracked p
  jobs : queuedJobs w.log = executedJobs w.log ++ w.rt.jobList
  called : ∀ pair, .called pair ∈ w.log → w.Resolved pair

structure World.Advances (w w' : World) : Prop where
  inv : w.Inv → w'.Inv
  promises : w.rt.promises.length ≤ w'.rt.promises.length
  outcome : ∀ p o, (w.promise p).outcome = some o → (w'.promise p).outcome = some o

theorem World.Advances.refl (w : World) : w.Advances w :=
  ⟨id, Nat.le_refl _, fun _ _ h => h⟩

theorem World.Advances.trans {w w' w'' : World} (h : w.Advances w') (h' : w'.Advances w'') :
    w.Advances w'' where
  inv := fun hi => h'.inv (h.inv hi)
  promises := Nat.le_trans h.promises h'.promises
  outcome := fun p o ho => h'.outcome p o (h.outcome p o ho)

section

variable {w w' : World} {p q : Nat} {s t : PromiseData} {log log' : List Record} {i : Bool}
  {v : JSValue}

@[simp] theorem registrations_append :
    registrations p (log ++ log') = registrations p log ++ registrations p log' :=
  List.filterMap_append

@[simp] theorem reactionJobs_append :
    reactionJobs p (log ++ log') = reactionJobs p log ++ reactionJobs p log' :=
  List.filterMap_append

@[simp] theorem queuedJobs_append : queuedJobs (log ++ log') = queuedJobs log ++ queuedJobs log' :=
  List.filterMap_append

@[simp] theorem executedJobs_append :
    executedJobs (log ++ log') = executedJobs log ++ executedJobs log' :=
  List.filterMap_append

theorem queued_records (jobs : List Job) :
    registrations p (jobs.map (.queued (some q))) = [] ∧
    reactionJobs p (jobs.map (.queued (some q))) = (if q = p then jobs else []) ∧
    queuedJobs (jobs.map (.queued (some q))) = jobs ∧
    executedJobs (jobs.map (.queued (some q))) = [] := by
  induction jobs with
  | nil => simp [registrations, reactionJobs, queuedJobs, executedJobs]
  | cons job jobs ih =>
    obtain ⟨hreg, hreact, hqueued, hexecuted⟩ := ih
    refine ⟨hreg, ?_, congrArg (job :: ·) hqueued, hexecuted⟩
    split
    · rename_i hq
      subst hq
      rw [if_pos rfl] at hreact
      rw [← hreact]
      simp [reactionJobs]
    · rename_i hq
      simp [reactionJobs, hq]

theorem World.promise_of_getElem (h : w.rt.promises[p]? = some s) : w.promise p = s := by
  rw [World.promise, h]
  rfl

theorem World.setPromise_promise (h : w.rt.promises[p]? = some s) :
    (w.setPromise p t).promise p = t := by
  have hlt : p < w.rt.promises.length := (List.getElem?_eq_some_iff.mp h).1
  simp [World.promise, World.setPromise, hlt]

theorem World.setPromise_promise_of_ne (h : p ≠ q) :
    (w.setPromise p t).promise q = w.promise q := by
  simp [World.promise, World.setPromise, List.getElem?_set_ne h]

theorem World.enqueueAll (w : World) (p : Nat) (jobs : List Job) :
    jobs.foldl (fun w job => w.enqueueJob (some p) job) w =
      { rt := { w.rt with jobList := w.rt.jobList ++ jobs }
        log := w.log ++ jobs.map (.queued (some p)) } := by
  induction jobs generalizing w with
  | nil => simp
  | cons job jobs ih =>
    rw [List.foldl_cons, ih]
    simp [World.enqueueJob]

theorem World.fulfillOrReject_of_pending (h : w.rt.promises[p]? = some s)
    (hp : s.promiseState = .pending) :
    w.fulfillOrReject p v i =
      ⟨{ (w.setPromise p
          ⟨if i then .rejected else .fulfilled, v, [], [], s.isHandled⟩).rt with
          jobList := w.rt.jobList ++ (s.promiseReactions i).map (·.job i v) },
        w.log ++ ((s.promiseReactions i).map (·.job i v)).map (.queued (some p))⟩ := by
  have hfold : ∀ u : World, (s.promiseReactions i).foldl
      (fun w rd => w.enqueueJob (some p) (rd.job i v)) u =
        ((s.promiseReactions i).map (·.job i v)).foldl
          (fun w job => w.enqueueJob (some p) job) u := by
    intro u
    rw [List.foldl_map]
  simp only [World.fulfillOrReject, h, hp, ne_eq, not_true_eq_false, if_false]
  rw [hfold, World.enqueueAll]
  simp [World.setPromise]

theorem World.Advances.neutral (hprom : ∀ p, w'.promise p = w.promise p)
    (hlen : w.rt.promises.length ≤ w'.rt.promises.length)
    (hreg : ∀ p, registrations p w'.log = registrations p w.log)
    (hreact : ∀ p, reactionJobs p w'.log = reactionJobs p w.log)
    (hjobs : queuedJobs w.log = executedJobs w.log ++ w.rt.jobList →
      queuedJobs w'.log = executedJobs w'.log ++ w'.rt.jobList)
    (hcalled : ∀ pair, .called pair ∈ w'.log → .called pair ∈ w.log ∨ w'.Resolved pair)
    (hpairs : ∀ pair, w.Resolved pair → w'.Resolved pair) : w.Advances w' where
  inv := by
    intro hi
    refine ⟨fun p => ?_, hjobs hi.jobs, fun pair hc => ?_⟩
    · obtain ⟨d, out, hrep, hreach, hout⟩ := hi.tracked p
      refine ⟨d, out, ?_, ?_, ?_⟩
      · rw [hprom p]
        exact hrep
      · rw [hreg p]
        exact hreach
      · rw [hreact p]
        exact hout
    · rcases hcalled pair hc with hold | hset
      · exact hpairs pair (hi.called pair hold)
      · exact hset
  promises := hlen
  outcome := by
    intro p o ho
    rw [hprom p]
    exact ho

theorem World.Advances.of_promise {jobs : List Job} {recs : List Record}
    (hs : w.rt.promises[p]? = some s)
    (hother : ∀ q, p ≠ q → registrations q recs = [] ∧ reactionJobs q recs = [])
    (hqueued : queuedJobs recs = jobs) (hexecuted : executedJobs recs = [])
    (hcalled : ∀ pair, .called pair ∉ recs)
    (hstep : ∀ d, Represents s d → ∃ op, Represents t (d.step op).1 ∧
      registrations p recs = op.subscribers ∧
      reactionJobs p recs = (d.step op).2.map fun x => x.1.job x.2)
    (houtcome : ∀ o, s.outcome = some o → t.outcome = some o) :
    w.Advances
      ⟨{ (w.setPromise p t).rt with jobList := w.rt.jobList ++ jobs }, w.log ++ recs⟩ where
  inv := by
    intro hi
    refine ⟨fun q => ?_, ?_, fun pair hc => ?_⟩
    · obtain ⟨d, out, hrep, hreach, hout⟩ := hi.tracked q
      by_cases hq : p = q
      · subst hq
        rw [World.promise_of_getElem hs] at hrep
        obtain ⟨op, hrep', hreg, hreact⟩ := hstep d hrep
        refine ⟨(d.step op).1, out ++ (d.step op).2, ?_, ?_, ?_⟩
        · have hprom := World.setPromise_promise (t := t) hs
          rw [← hprom] at hrep'
          exact hrep'
        · rw [registrations_append, hreg]
          exact hreach.step op
        · rw [reactionJobs_append, hout, hreact, List.map_append]
      · obtain ⟨hreg, hreact⟩ := hother q hq
        refine ⟨d, out, ?_, ?_, ?_⟩
        · rw [← World.setPromise_promise_of_ne (t := t) hq] at hrep
          exact hrep
        · rw [registrations_append, hreg, List.append_nil]
          exact hreach
        · rw [reactionJobs_append, hreact, List.append_nil, hout]
    · rw [queuedJobs_append, executedJobs_append, hqueued, hexecuted, hi.jobs, List.append_nil,
        List.append_assoc]
    · rcases List.mem_append.mp hc with hold | hnew
      · exact hi.called pair hold
      · exact absurd hnew (hcalled pair)
  promises := by simp [World.setPromise]
  outcome := by
    intro q o ho
    by_cases hq : p = q
    · subst hq
      rw [World.promise_of_getElem hs] at ho
      have hprom := World.setPromise_promise (t := t) hs
      rw [← hprom] at houtcome
      exact houtcome o ho
    · rw [← World.setPromise_promise_of_ne (t := t) hq] at ho
      exact ho

theorem World.fulfillOrReject_advances (w : World) (p : Nat) (v : JSValue) (i : Bool) :
    w.Advances (w.fulfillOrReject p v i) := by
  cases hs : w.rt.promises[p]? with
  | none =>
    simp only [World.fulfillOrReject, hs]
    exact .refl w
  | some s =>
    by_cases hp : s.promiseState = .pending
    · rw [World.fulfillOrReject_of_pending hs hp]
      have hout : s.outcome = none := by simp [PromiseData.outcome, hp]
      have hrecs := fun q => @queued_records q p ((s.promiseReactions i).map (·.job i v))
      refine .of_promise hs ?_ (hrecs p).2.2.1 (hrecs p).2.2.2 (by simp) ?_ ?_
      · intro q hq
        refine ⟨(hrecs q).1, ?_⟩
        rw [(hrecs q).2.1, if_neg hq]
      · intro d hrep
        have hval : d.value = none := hrep.value.trans hout
        refine ⟨.settle (i, v), ⟨?_, ?_⟩, (hrecs p).1, ?_⟩
        · cases i <;> simp [Deferred.step, hval, PromiseData.outcome]
        · intro hpend
          cases i <;> cases hpend
        · rw [(hrecs p).2.1, if_pos rfl, hrep.reactions hp i]
          simp [Deferred.step, hval, Registration.job]
      · intro o ho
        rw [hout] at ho
        cases ho
    · simp only [World.fulfillOrReject, hs, ne_eq, hp, not_false_eq_true, if_true]
      exact .refl w

theorem World.performPromiseThen_of_pending {r : Registration} (hs : w.rt.promises[p]? = some s)
    (hp : s.promiseState = .pending) :
    w.performPromiseThen p r = some
      ⟨{ (w.setPromise p ⟨s.promiseState, s.promiseResult, s.fulfillReactions ++ [r.reaction false],
          s.rejectReactions ++ [r.reaction true], true⟩).rt with jobList := w.rt.jobList ++ [] },
        w.log ++ ([.registered p r] : List Record)⟩ := by
  simp [World.performPromiseThen, hs, hp, World.setPromise, World.record]

theorem World.performPromiseThen_of_settled {r : Registration} {o : Bool × JSValue}
    (hs : w.rt.promises[p]? = some s) (ho : s.outcome = some o) :
    w.performPromiseThen p r = some
      ⟨{ (w.setPromise p { s with isHandled := true }).rt with
          jobList := w.rt.jobList ++ [r.job o] },
        w.log ++ ([.registered p r, .queued (some p) (r.job o)] : List Record)⟩ := by
  cases hp : s.promiseState with
  | pending =>
    rw [PromiseData.outcome, hp] at ho
    cases ho
  | fulfilled =>
    simp only [PromiseData.outcome, hp, Option.some.injEq] at ho
    subst ho
    simp [World.performPromiseThen, hs, hp, World.setPromise, World.record, World.enqueueJob,
      Registration.job]
  | rejected =>
    simp only [PromiseData.outcome, hp, Option.some.injEq] at ho
    subst ho
    simp [World.performPromiseThen, hs, hp, World.setPromise, World.record, World.enqueueJob,
      Registration.job]

theorem World.performPromiseThen_advances {r : Registration}
    (h : w.performPromiseThen p r = some w') : w.Advances w' := by
  cases hs : w.rt.promises[p]? with
  | none => simp [World.performPromiseThen, hs] at h
  | some s =>
    cases ho : s.outcome with
    | none =>
      have hp : s.promiseState = .pending := by
        cases hp : s.promiseState <;> simp [PromiseData.outcome, hp] at ho ⊢
      rw [World.performPromiseThen_of_pending hs hp] at h
      cases h
      refine .of_promise hs ?_ rfl rfl (by simp) ?_ ?_
      · intro q hq
        simp [registrations, reactionJobs, hq]
      · intro d hrep
        have hval : d.value = none := hrep.value.trans ho
        refine ⟨.subscribe r, ⟨?_, ?_⟩, ?_, ?_⟩
        · simp [Deferred.step, hval, PromiseData.outcome, hp]
        · intro _ i
          have hi := hrep.reactions hp i
          cases i <;>
            simp [PromiseData.promiseReactions] at hi <;>
            simp [PromiseData.promiseReactions, Deferred.step, hval, hi]
        · simp [registrations, DeferredOp.subscribers]
        · simp [reactionJobs, Deferred.step, hval]
      · intro o hsome
        rw [ho] at hsome
        cases hsome
    | some o =>
      rw [World.performPromiseThen_of_settled hs ho] at h
      cases h
      refine .of_promise hs ?_ rfl rfl (by simp) ?_ ?_
      · intro q hq
        simp [registrations, reactionJobs, hq]
      · intro d hrep
        have hval : d.value = some o := hrep.value.trans ho
        have hp : s.promiseState ≠ .pending := by
          intro hp
          simp [PromiseData.outcome, hp] at ho
        refine ⟨.subscribe r, ⟨?_, fun hpend => absurd hpend hp⟩, ?_, ?_⟩
        · simpa [Deferred.step, hval, PromiseData.outcome] using ho.symm
        · simp [registrations, DeferredOp.subscribers]
        · simp [reactionJobs, Deferred.step, hval]
      · intro o' hsome
        exact hsome

theorem World.setFrames_advances (w : World) (frames : List Frame) :
    w.Advances { w with rt := { w.rt with frames := frames } } :=
  .neutral (fun _ => rfl) (Nat.le_refl _) (fun _ => rfl) (fun _ => rfl) id
    (fun _ hc => .inl hc) (fun _ hr => hr)

theorem World.Resolved.append {pairs : List PromiseFunctionData} {pair : Nat}
    (h : w.Resolved pair) (hp : w'.rt.pairs = w.rt.pairs ++ pairs) : w'.Resolved pair := by
  obtain ⟨s, hs, hflag⟩ := h
  refine ⟨s, ?_, hflag⟩
  rw [hp, List.getElem?_append_left (List.getElem?_eq_some_iff.mp hs).1, hs]

theorem World.createResolvingFunctions_advances (w : World) (p : Nat) :
    w.Advances (w.createResolvingFunctions p) :=
  .neutral (fun _ => rfl) (Nat.le_refl _) (fun _ => rfl) (fun _ => rfl) id
    (fun _ hc => .inl hc) (fun _ hr => hr.append rfl)

theorem World.newPromise_advances (w : World) : w.Advances w.newPromise := by
  refine .neutral ?_ ?_ (fun _ => rfl) (fun _ => rfl) id (fun _ hc => .inl hc)
    (fun _ hr => hr.append rfl)
  · intro p
    rcases Nat.lt_trichotomy p w.rt.promises.length with hp | hp | hp
    · simp [World.promise, World.newPromise, World.createResolvingFunctions,
        List.getElem?_append_left hp]
    · subst hp
      simp [World.promise, World.newPromise, World.createResolvingFunctions]
    · have hnone : w.rt.promises[p]? = none := List.getElem?_eq_none (Nat.le_of_lt hp)
      have hnone' : (w.rt.promises ++ [freshPromise])[p]? = none :=
        List.getElem?_eq_none (by simpa using Nat.succ_le_of_lt hp)
      simp [World.promise, World.newPromise, World.createResolvingFunctions, hnone, hnone']
  · simp [World.newPromise, World.createResolvingFunctions]

theorem World.enqueueJob_advances (w : World) (job : Job) : w.Advances (w.enqueueJob none job) := by
  refine .neutral (fun _ => rfl) (Nat.le_refl _) ?_ ?_ ?_ ?_ (fun _ hr => hr)
  · intro p
    simp [World.enqueueJob, registrations]
  · intro p
    simp [World.enqueueJob, reactionJobs]
  · intro hj
    simp only [World.enqueueJob, queuedJobs_append, executedJobs_append, hj]
    simp [queuedJobs, executedJobs]
  · intro pair hc
    exact .inl (by simpa [World.enqueueJob] using hc)

theorem World.dequeueJob_advances {job : Job} {rest : List Job} (h : w.rt.jobList = job :: rest) :
    w.Advances ⟨{ w.rt with jobList := rest }, w.log ++ ([.executed job] : List Record)⟩ := by
  refine .neutral (fun _ => rfl) (Nat.le_refl _) ?_ ?_ ?_ ?_ (fun _ hr => hr)
  · intro p
    simp [registrations]
  · intro p
    simp [reactionJobs]
  · intro hj
    simp only [queuedJobs_append, executedJobs_append, hj, h]
    simp [queuedJobs, executedJobs]
  · intro pair hc
    exact .inl (by simpa using hc)

theorem World.callPair_advances {pair : Nat} {c : PromiseFunctionData}
    (h : w.rt.pairs[pair]? = some c) :
    w.Advances ⟨{ w.rt with pairs := w.rt.pairs.set pair ⟨c.promise, true⟩ },
      w.log ++ ([.called pair] : List Record)⟩ := by
  have hlt : pair < w.rt.pairs.length := (List.getElem?_eq_some_iff.mp h).1
  have hset : ∀ other, World.Resolved ⟨{ w.rt with pairs := w.rt.pairs.set pair ⟨c.promise, true⟩ },
      w.log ++ ([.called pair] : List Record)⟩ other ↔ other = pair ∨ w.Resolved other := by
    intro other
    by_cases ho : pair = other
    · subst ho
      simp [World.Resolved, hlt]
    · simp [World.Resolved, List.getElem?_set_ne ho, Ne.symm ho]
  refine .neutral (fun _ => rfl) (Nat.le_refl _) ?_ ?_ ?_ ?_ ?_
  · intro p
    simp [registrations]
  · intro p
    simp [reactionJobs]
  · intro hj
    simp only [queuedJobs_append, executedJobs_append, hj]
    simp [queuedJobs, executedJobs]
  · intro other hc
    rcases List.mem_append.mp hc with hold | hnew
    · exact .inl hold
    · exact .inr ((hset other).mpr (.inl (by simpa using hnew)))
  · intro other hr
    exact (hset other).mpr (.inr hr)

theorem World.recordCall_advances {pair : Nat} (h : w.Resolved pair) :
    w.Advances (w.record (.called pair)) := by
  refine .neutral (fun _ => rfl) (Nat.le_refl _) ?_ ?_ ?_ ?_ (fun _ hr => hr)
  · intro p
    simp [World.record, registrations]
  · intro p
    simp [World.record, reactionJobs]
  · intro hj
    simp only [World.record, queuedJobs_append, executedJobs_append, hj]
    simp [queuedJobs, executedJobs]
  · intro other hc
    rcases List.mem_append.mp hc with hold | hnew
    · exact .inl hold
    · have heq : other = pair := by simpa using hnew
      exact .inr (heq ▸ h)

theorem World.resolveFunctionCall_of_resolved {pair : Nat} {argv : List JSValue}
    (h : w.Resolved pair) : w.resolveFunctionCall pair i argv = w.record (.called pair) := by
  obtain ⟨s, hs, hflag⟩ := h
  simp [World.resolveFunctionCall, hs, hflag]

theorem World.resolveFunctionCall_advances (w : World) (pair : Nat) (i : Bool)
    (argv : List JSValue) : w.Advances (w.resolveFunctionCall pair i argv) := by
  cases hs : w.rt.pairs[pair]? with
  | none =>
    simp only [World.resolveFunctionCall, hs]
    exact .refl w
  | some s =>
    by_cases hflag : s.alreadyResolved = true
    · rw [World.resolveFunctionCall_of_resolved ⟨s, hs, hflag⟩]
      exact World.recordCall_advances ⟨s, hs, hflag⟩
    · refine (World.callPair_advances hs).trans ?_
      simp only [World.resolveFunctionCall, hs, hflag, Bool.false_eq_true, if_false]
      split
      · exact World.fulfillOrReject_advances _ _ _ _
      · split
        · exact World.fulfillOrReject_advances _ _ _ _
        · exact World.setFrames_advances _ _

theorem World.call_advances (w : World) (func : JSValue) (argv : List JSValue) :
    w.Advances (w.call func argv) := by
  cases func with
  | resolveFunction pair i => exact w.resolveFunctionCall_advances pair i argv
  | _ => exact .refl w

theorem World.thenRead_advances (w : World) (pair : Nat) (resolution : JSValue)
    (res : Completion) : w.Advances (w.thenRead pair resolution res) := by
  unfold World.thenRead
  split
  · exact .refl w
  · split
    · exact World.fulfillOrReject_advances _ _ _ _
    · split
      · exact World.enqueueJob_advances _ _
      · exact World.fulfillOrReject_advances _ _ _ _

theorem World.reactionDone_advances (w : World) (resolvingFuncs : ByKind) (res : Completion) :
    w.Advances (w.reactionDone resolvingFuncs res) := by
  cases res with
  | normal value => exact w.call_advances _ _
  | exception error =>
    simp only [World.reactionDone]
    split
    · exact .refl w
    · exact w.call_advances _ _

theorem World.executePendingJob_advances (h : w.executePendingJob = some w') : w.Advances w' := by
  cases hj : w.rt.jobList with
  | nil => simp [World.executePendingJob, hj] at h
  | cons job rest =>
    refine (World.dequeueJob_advances hj).trans ?_
    simp only [World.executePendingJob, hj] at h
    cases job with
    | reaction resolvingFuncs handler isReject arg =>
      simp only at h
      split at h
      · cases h
        exact World.reactionDone_advances _ _ _
      · cases h
        exact (World.setFrames_advances _ _).trans (World.call_advances _ _ _)
    | resolveThenable p thenable thenFunction =>
      cases h
      exact ((World.createResolvingFunctions_advances _ p).trans
        (World.setFrames_advances _ _)).trans (World.call_advances _ _ _)
    | other n =>
      cases h
      exact .refl _

theorem World.userCodeReturns_advances {res : Completion} (h : w.userCodeReturns res = some w') :
    w.Advances w' := by
  cases hf : w.rt.frames with
  | nil => simp [World.userCodeReturns, hf] at h
  | cons frame rest =>
    refine (w.setFrames_advances rest).trans ?_
    simp only [World.userCodeReturns, hf] at h
    cases frame with
    | readThen pair resolution =>
      cases h
      exact World.thenRead_advances _ _ _ _
    | reaction resolvingFuncs handler =>
      simp only at h
      split at h
      · cases h
        exact World.reactionDone_advances _ _ _
      · cases h
    | callThen pair thenFunction =>
      simp only at h
      split at h
      · cases res with
        | normal value =>
          cases h
          exact .refl _
        | exception error =>
          cases h
          exact World.resolveFunctionCall_advances _ _ _ _
      · cases h

theorem World.step_advances {e : Event} (h : w.step e = some w') : w.Advances w' := by
  cases e with
  | newPromise =>
    cases h
    exact w.newPromise_advances
  | callResolveFunction pair isReject argv =>
    simp only [World.step] at h
    split at h
    · cases h
      exact w.resolveFunctionCall_advances pair isReject argv
    · cases h
  | performPromiseThen p r => exact World.performPromiseThen_advances h
  | executePendingJob => exact World.executePendingJob_advances h
  | userCodeReturns res => exact World.userCodeReturns_advances h
  | enqueueJob n =>
    cases h
    exact w.enqueueJob_advances _

theorem World.run_advances {events : List Event} (h : w.run events = some w') :
    w.Advances w' := by
  induction events generalizing w with
  | nil =>
    cases h
    exact .refl _
  | cons e rest ih =>
    obtain ⟨u, hu, hrest⟩ := Option.bind_eq_some_iff.mp h
    exact (World.step_advances hu).trans (ih hrest)

theorem World.start_inv : World.start.Inv where
  tracked := by
    intro p
    refine ⟨⟨none, []⟩, [], ⟨rfl, fun _ i => ?_⟩, .fresh, rfl⟩
    cases i <;> rfl
  jobs := rfl
  called := fun pair hc => by cases hc

/-- What has been queued for a promise by any time: nothing while it is pending, and from then on
one job for each registration, in their order. -/
theorem World.Inv.reactionJobs_eq (h : w.Inv) (hs : w.rt.promises[p]? = some s) :
    reactionJobs p w.log = match s.outcome with
      | none => []
      | some o => (registrations p w.log).map (·.job o) := by
  obtain ⟨d, out, hrep, hreach, hjobs⟩ := h.tracked p
  rw [World.promise_of_getElem hs] at hrep
  obtain ⟨hnone, hsome⟩ := hreach.exactly_once
  rw [hjobs]
  cases ho : s.outcome with
  | none => rw [(hnone (hrep.value.trans ho)).2, List.map_nil]
  | some o =>
    rw [(hsome o (hrep.value.trans ho)).2, List.map_map]
    rfl

structure World.SettlesOnce (w w' : World) : Prop where
  /-- A promise that is settled keeps its state and its result. -/
  settled : ∀ (p : Nat) (s : PromiseData), w.rt.promises[p]? = some s →
    s.promiseState ≠ .pending → ∃ s', w'.rt.promises[p]? = some s' ∧ s'.promiseState = s.promiseState ∧
      s'.promiseResult = s.promiseResult
  /-- After the first call of a pair, a call of one of its functions has no effect. -/
  firstOnly : ∀ pair isReject argv, .called pair ∈ w.log →
    (w.resolveFunctionCall pair isReject argv).rt = w.rt
  /-- The jobs queued for a promise are the ones of its registrations, in their order. -/
  reactions : ∀ (p : Nat) (s : PromiseData), w.rt.promises[p]? = some s → reactionJobs p w.log =
    match s.promiseState with
    | .pending => []
    | .fulfilled => (registrations p w.log).map (·.job (false, s.promiseResult))
    | .rejected => (registrations p w.log).map (·.job (true, s.promiseResult))
  /-- Jobs are executed in the order in which they are queued. -/
  order : queuedJobs w.log = executedJobs w.log ++ w.rt.jobList

theorem World.Advances.settled (h : w.Advances w') (hs : w.rt.promises[p]? = some s)
    (hp : s.promiseState ≠ .pending) :
    ∃ s', w'.rt.promises[p]? = some s' ∧ s'.promiseState = s.promiseState ∧
      s'.promiseResult = s.promiseResult := by
  have hlt : p < w'.rt.promises.length :=
    Nat.lt_of_lt_of_le (List.getElem?_eq_some_iff.mp hs).1 h.promises
  have hs' := List.getElem?_eq_getElem hlt
  refine ⟨w'.rt.promises[p], hs', ?_⟩
  have hkeep := h.outcome p
  rw [World.promise_of_getElem hs, World.promise_of_getElem hs'] at hkeep
  generalize w'.rt.promises[p] = s' at hkeep
  cases hk : s.promiseState with
  | pending => exact absurd hk hp
  | fulfilled =>
    have ho := hkeep (false, s.promiseResult) (by simp [PromiseData.outcome, hk])
    cases hk' : s'.promiseState <;> simp [PromiseData.outcome, hk'] at ho
    exact ⟨rfl, ho⟩
  | rejected =>
    have ho := hkeep (true, s.promiseResult) (by simp [PromiseData.outcome, hk])
    cases hk' : s'.promiseState <;> simp [PromiseData.outcome, hk'] at ho
    exact ⟨rfl, ho⟩

theorem promises_settle_once (events later : List Event) (w w' : World)
    (h : World.start.run events = some w) (h' : w.run later = some w') : w.SettlesOnce w' := by
  have hi : w.Inv := (World.run_advances h).inv World.start_inv
  refine ⟨fun p s hs hp => (World.run_advances h').settled hs hp, ?_, ?_, hi.jobs⟩
  · intro pair isReject argv hc
    rw [World.resolveFunctionCall_of_resolved (hi.called pair hc)]
    rfl
  · intro p s hs
    rw [hi.reactionJobs_eq hs]
    cases hp : s.promiseState <;> simp [PromiseData.outcome, hp]

/-- A promise with a reaction is resolved with a thenable, whose `then` fulfils it. -/
def thenableEvents : List Event :=
  [.newPromise,
    .performPromiseThen 0 ⟨⟨.function 1, .function 2⟩, ⟨.undefined, .undefined⟩⟩,
    .callResolveFunction 0 false [.object 3],
    .userCodeReturns (.normal (.function 4)),
    .executePendingJob,
    .callResolveFunction 1 false [.primitive 5],
    .callResolveFunction 1 true [.primitive 6],
    .performPromiseThen 0 ⟨⟨.undefined, .function 7⟩, ⟨.function 8, .function 9⟩⟩]

theorem thenable_settles_once : ∃ w w', World.start.run thenableEvents = some w ∧
    w.run [.userCodeReturns (.normal .undefined), .executePendingJob] = some w' ∧
    w.SettlesOnce w' ∧
    reactionJobs 0 w.log =
      [.reaction ⟨.undefined, .undefined⟩ (.function 1) false (.primitive 5),
        .reaction ⟨.function 8, .function 9⟩ .undefined false (.primitive 5)] := by
  obtain ⟨w, h⟩ : ∃ w, World.start.run thenableEvents = some w :=
    Option.isSome_iff_exists.mp (by decide)
  have hlater : ((World.start.run thenableEvents).bind
      (·.run [.userCodeReturns (.normal .undefined), .executePendingJob])).isSome := by decide
  rw [h] at hlater
  obtain ⟨w', h'⟩ := Option.isSome_iff_exists.mp hlater
  have hjobs : (World.start.run thenableEvents).map (fun w => reactionJobs 0 w.log) =
      some [.reaction ⟨.undefined, .undefined⟩ (.function 1) false (.primitive 5),
        .reaction ⟨.function 8, .function 9⟩ .undefined false (.primitive 5)] := by decide
  rw [h] at hjobs
  exact ⟨w, w', h, h', promises_settle_once _ _ w w' h h', Option.some.inj hjobs⟩

end

end TurboJS.Promises
