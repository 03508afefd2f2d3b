import AdvancedOS.Store.CallData

/-!
# The stages of an object

A `Stage` says where in its life an object is. `At s id stage` says what the store holds of object `id` then:
the containers that name it, the thread that works on it, its data, and its history. An object is at one stage
only, so no two threads have it at once.

* `Staged`: every object is at some stage, and exactly the latest one has no successor yet.
* `Staged.arrive`, `Staged.nextEvent`, …: one lemma for each step of the store.
-/

namespace AdvancedOS.Store

open Lts

variable {π : Type}

/-- The stages of an object: not created; armed; matched, with the event in the queue, fetched by
`HandleRpcs`, or turned into a job in the queue; in a job of worker `w`, frame by frame; and with `Finish`
called, until the event has been fetched and the object deleted. -/
inductive Stage (π : Type)
  | unborn
  | armed
  | event (name : String)
  | fetched (name : String)
  | queued (name : String)
  | construct (name : String) (w : Nat)
  | query (name : String) (w : Nat)
  | collate (name : String) (w : Nat) (done left : List (π × String))
  | status (name : String) (w : Nat) (response : List (π × String))
  | finish (name : String) (w : Nat) (response : List (π × String))
  | answered (name : String) (response : List (π × String))
  | finishing (name : String) (response : List (π × String))
  | deleted (name : String) (response : List (π × String))

/-- The whole life of an object. -/
def wholeLife (name : String) (response : List (π × String)) : List (Entry π) :=
  [.armed, .matched name, .succeeded, .bids response, .finish (response.map productInfo), .finishEvent, .deleted]

namespace Stage

def inArmed : Stage π → Nat
  | .armed => 1
  | _ => 0

def matchedEvents : Stage π → Nat
  | .event _ => 1
  | _ => 0

def finishedEvents : Stage π → Nat
  | .answered _ _ => 1
  | _ => 0

def inQueue : Stage π → Nat
  | .queued _ => 1
  | _ => 0

/-- `HandleRpcs` is before the `Proceed` of the object. -/
def Fetched : Stage π → Prop
  | .fetched _ | .finishing _ _ => True
  | _ => False

/-- The worker that has the object in its job, with the frame of the job. -/
def worker : Stage π → Option (Nat × Frame π)
  | .construct _ w => some (w, .construct)
  | .query _ w => some (w, .query)
  | .collate _ w _ left => some (w, .collate left)
  | .status _ w _ => some (w, .status)
  | .finish _ w _ => some (w, .finish)
  | _ => none

def call : Stage π → Option (CallData π)
  | .unborn | .deleted _ _ => none
  | .armed => some ⟨.process, "", []⟩
  | .event name | .fetched name | .queued name | .construct name _ | .query name _ =>
    some ⟨.process, name, []⟩
  | .collate name _ done _ => some ⟨.process, name, done.map productInfo⟩
  | .status name _ response => some ⟨.process, name, response.map productInfo⟩
  | .finish name _ response | .answered name response | .finishing name response =>
    some ⟨.finish, name, response.map productInfo⟩

def life : Stage π → List (Entry π)
  | .unborn => []
  | .armed => [.armed]
  | .event name | .fetched name | .queued name | .construct name _ => [.armed, .matched name]
  | .query name _ => [.armed, .matched name, .succeeded]
  | .collate name _ done left => [.armed, .matched name, .succeeded, .bids (done ++ left)]
  | .status name _ response | .finish name _ response => [.armed, .matched name, .succeeded, .bids response]
  | .answered name response =>
    [.armed, .matched name, .succeeded, .bids response, .finish (response.map productInfo)]
  | .finishing name response =>
    [.armed, .matched name, .succeeded, .bids response, .finish (response.map productInfo), .finishEvent]
  | .deleted name response => wholeLife name response

/-- The object exists and has no successor yet. -/
def Early : Stage π → Prop
  | .armed | .event _ | .fetched _ | .queued _ | .construct _ _ => True
  | _ => False

variable {st : Stage π} {w : Nat}

theorem eq_armed (h : 0 < st.inArmed) : st = .armed := by
  cases st <;> first | rfl | cases h

theorem eq_event (h : 0 < st.matchedEvents) : ∃ name, st = .event name := by
  cases st <;> first | exact ⟨_, rfl⟩ | cases h

theorem eq_answered (h : 0 < st.finishedEvents) : ∃ name response, st = .answered name response := by
  cases st <;> first | exact ⟨_, _, rfl⟩ | cases h

theorem eq_queued (h : 0 < st.inQueue) : ∃ name, st = .queued name := by
  cases st <;> first | exact ⟨_, rfl⟩ | cases h

theorem Fetched.cases (h : st.Fetched) :
    (∃ name, st = .fetched name) ∨ ∃ name response, st = .finishing name response := by
  cases st <;> first | exact .inl ⟨_, rfl⟩ | exact .inr ⟨_, _, rfl⟩ | cases h

theorem eq_construct (h : st.worker = some (w, .construct)) : ∃ name, st = .construct name w := by
  cases st <;> first | cases h; exact ⟨_, rfl⟩ | cases h

theorem eq_query (h : st.worker = some (w, .query)) : ∃ name, st = .query name w := by
  cases st <;> first | cases h; exact ⟨_, rfl⟩ | cases h

theorem eq_collate {left : List (π × String)} (h : st.worker = some (w, .collate left)) :
    ∃ name done, st = .collate name w done left := by
  cases st <;> first | cases h; exact ⟨_, _, rfl⟩ | cases h

theorem eq_status (h : st.worker = some (w, .status)) : ∃ name response, st = .status name w response := by
  cases st <;> first | cases h; exact ⟨_, _, rfl⟩ | cases h

theorem eq_finish (h : st.worker = some (w, .finish)) : ∃ name response, st = .finish name w response := by
  cases st <;> first | cases h; exact ⟨_, _, rfl⟩ | cases h

/-- The history of an object is the beginning of a whole life. -/
theorem life_begins (st : Stage π) : ∃ name response, st.life <+: wholeLife name response := by
  cases st with
  | unborn | armed => exact ⟨"", [], ⟨_, rfl⟩⟩
  | event name | fetched name | queued name | construct name w | query name w => exact ⟨name, [], ⟨_, rfl⟩⟩
  | collate name w done left => exact ⟨name, done ++ left, ⟨_, rfl⟩⟩
  | status name w response | finish name w response | answered name response | finishing name response
  | deleted name response => exact ⟨name, response, ⟨_, rfl⟩⟩

end Stage

namespace ServerImpl

variable (s : ServerImpl π) (id : Nat)

theorem life_record_self (entry : Entry π) : (s.record id entry).life id = s.life id ++ [entry] := by
  simp [life, record]

theorem life_record_of_ne {id' : Nat} (entry : Entry π) (h : id' ≠ id) : (s.record id entry).life id' = s.life id' := by
  simp [life, record, h.symm]

/-- Worker `w` is in the job of object `id`, at `frame`. -/
def Executes (s : ServerImpl π) (w id : Nat) (frame : Frame π) : Prop :=
  s.pool.workers w = .running id ∧ s.frames w = frame

end ServerImpl

/-- What the store holds of object `id` at a stage. -/
structure At (s : ServerImpl π) (id : Nat) (st : Stage π) : Prop where
  armed : s.armed.count id = st.inArmed
  matched : s.cq.count (.matched id) = st.matchedEvents
  finished : s.cq.count (.finished id) = st.finishedEvents
  queue : s.pool.eventQueue.count id = st.inQueue
  rpc : s.rpc = .proceed id ↔ st.Fetched
  worker : ∀ w frame, frame ≠ .returned → (s.Executes w id frame ↔ st.worker = some (w, frame))
  call : s.calls id = st.call
  life : s.life id = st.life

/-- A step does not concern object `id`. -/
structure Same (s t : ServerImpl π) (id : Nat) : Prop where
  armed : t.armed.count id = s.armed.count id
  matched : t.cq.count (.matched id) = s.cq.count (.matched id)
  finished : t.cq.count (.finished id) = s.cq.count (.finished id)
  queue : t.pool.eventQueue.count id = s.pool.eventQueue.count id
  rpc : t.rpc = .proceed id ↔ s.rpc = .proceed id
  worker : ∀ w frame, frame ≠ .returned → (t.Executes w id frame ↔ s.Executes w id frame)
  call : t.calls id = s.calls id
  life : t.life id = s.life id

theorem At.same {s t : ServerImpl π} {id : Nat} {st : Stage π} (h : At s id st) (hsame : Same s t id) :
    At t id st where
  armed := hsame.armed.trans h.armed
  matched := hsame.matched.trans h.matched
  finished := hsame.finished.trans h.finished
  queue := hsame.queue.trans h.queue
  rpc := hsame.rpc.trans h.rpc
  worker w frame hne := (hsame.worker w frame hne).trans (h.worker w frame hne)
  call := hsame.call.trans h.call
  life := hsame.life.trans h.life

/-- Every object is at a stage, and exactly the latest one has no successor yet. -/
structure Staged (s : ServerImpl π) (stage : Nat → Stage π) : Prop where
  created : 0 < s.nextId
  at_stage : ∀ id, At s id (stage id)
  unborn : ∀ id, stage id = .unborn ↔ s.nextId ≤ id
  early : ∀ id, (stage id).Early ↔ id + 1 = s.nextId

variable {n : Nat} {s t : ServerImpl π} {stage : Nat → Stage π}

/-- A step that concerns no object. -/
theorem Staged.same (h : Staged s stage) (hid : t.nextId = s.nextId) (hsame : ∀ id, Same s t id) :
    Staged t stage where
  created := by rw [hid]; exact h.created
  at_stage id := (h.at_stage id).same (hsame id)
  unborn id := by rw [hid]; exact h.unborn id
  early id := by rw [hid]; exact h.early id

/-- A step that moves one object to another stage, and neither creates an object nor replaces it. -/
theorem Staged.move (h : Staged s stage) {id : Nat} {old : Stage π} (hold : stage id = old) (st : Stage π)
    (hid : t.nextId = s.nextId) (hat : At t id st) (hsame : ∀ id' ≠ id, Same s t id') (hborn : old ≠ .unborn)
    (hst : st ≠ .unborn) (hearly : st.Early ↔ old.Early) : Staged t (Function.update stage id st) where
  created := by rw [hid]; exact h.created
  at_stage id' := by
    by_cases hne : id' = id
    · subst hne
      rw [Function.update_self]
      exact hat
    · rw [Function.update_of_ne hne]
      exact (h.at_stage id').same (hsame id' hne)
  unborn id' := by
    rw [hid, ← h.unborn id']
    by_cases hne : id' = id
    · subst hne
      simp [hold, hborn, hst]
    · rw [Function.update_of_ne hne]
  early id' := by
    rw [hid, ← h.early id']
    by_cases hne : id' = id
    · subst hne
      rw [Function.update_self, hold, hearly]
    · rw [Function.update_of_ne hne]

/-! ## The steps of gRPC and of `HandleRpcs` -/

theorem Staged.arrive (h : Staged s stage) {id : Nat} {productName : String}
    (hs : arrive id productName s = some t) : ∃ stage, Staged t stage := by
  unfold Store.arrive at hs
  split at hs
  · next call hcall =>
    split at hs
    · next hmem =>
      obtain rfl := Option.some.inj hs
      have hat := h.at_stage id
      have hst : stage id = .armed := Stage.eq_armed (by rw [← hat.armed]; exact List.count_pos_iff.mpr hmem)
      rw [hst] at hat
      refine ⟨_, h.move hst (.event productName) rfl ?_ (fun id' hne => ?_) (by simp) (by simp) Iff.rfl⟩
      · exact
          { armed := by
              show (s.armed.erase id).count id = 0
              rw [List.count_erase_self, hat.armed]
              rfl
            matched := by
              show (s.cq ++ [Event.matched id]).count (.matched id) = 1
              rw [List.count_append, hat.matched]
              simp [Stage.matchedEvents]
            finished := by
              show (s.cq ++ [Event.matched id]).count (.finished id) = 0
              rw [List.count_append, hat.finished]
              simp [Stage.finishedEvents]
            queue := hat.queue
            rpc := hat.rpc
            worker := hat.worker
            call := by
              have hold : some call = some ⟨.process, "", []⟩ := hcall.symm.trans hat.call
              obtain rfl := Option.some.inj hold
              exact Function.update_self _ _ _
            life := by
              rw [ServerImpl.life_record_self]
              exact congrArg (· ++ [Entry.matched productName]) hat.life }
      · exact
          { armed := List.count_erase_of_ne hne
            matched := by
              show (s.cq ++ [Event.matched id]).count (.matched id') = s.cq.count (.matched id')
              simp [List.count_append, hne.symm]
            finished := by
              show (s.cq ++ [Event.matched id]).count (.finished id') = s.cq.count (.finished id')
              simp [List.count_append]
            queue := rfl
            rpc := Iff.rfl
            worker := fun _ _ _ => Iff.rfl
            call := Function.update_of_ne hne _ _
            life := ServerImpl.life_record_of_ne _ _ _ hne }
    · cases hs
  · cases hs

theorem count_matched_erase (cq : List Event) (id id' : Nat) :
    (cq.erase (.finished id)).count (.matched id') = cq.count (.matched id') :=
  List.count_erase_of_ne (by simp)

theorem count_finished_erase (cq : List Event) (id id' : Nat) :
    (cq.erase (.matched id)).count (.finished id') = cq.count (.finished id') :=
  List.count_erase_of_ne (by simp)

theorem Staged.nextEvent (h : Staged s stage) {e : Event} (hs : nextEvent e s = some t) :
    ∃ stage, Staged t stage := by
  unfold Store.nextEvent at hs
  split at hs
  · next hguard =>
    obtain ⟨hrpc, hmem⟩ := hguard
    -- before the step `HandleRpcs` had no object
    have hidle (id : Nat) : s.rpc ≠ .proceed id := by simp [hrpc]
    cases e with
    | matched id =>
      obtain rfl := Option.some.inj hs
      have hat := h.at_stage id
      obtain ⟨name, hst⟩ := Stage.eq_event (by rw [← hat.matched]; exact List.count_pos_iff.mpr hmem)
      rw [hst] at hat
      refine ⟨_, h.move hst (.fetched name) rfl ?_ (fun id' hne => ?_) (by simp) (by simp) Iff.rfl⟩
      · exact
          { armed := hat.armed
            matched := by
              show (s.cq.erase (.matched id)).count (.matched id) = 0
              rw [List.count_erase_self, hat.matched]
              rfl
            finished := (count_finished_erase _ _ _).trans hat.finished
            queue := hat.queue
            rpc := by simp [Stage.Fetched]
            worker := hat.worker
            call := hat.call
            life := hat.life }
      · exact
          { armed := rfl
            matched := List.count_erase_of_ne (by simpa using hne)
            finished := count_finished_erase _ _ _
            queue := rfl
            rpc := by simp [hidle, hne.symm]
            worker := fun _ _ _ => Iff.rfl
            call := rfl
            life := rfl }
    | finished id =>
      obtain rfl := Option.some.inj hs
      have hat := h.at_stage id
      obtain ⟨name, response, hst⟩ :=
        Stage.eq_answered (by rw [← hat.finished]; exact List.count_pos_iff.mpr hmem)
      rw [hst] at hat
      refine ⟨_, h.move hst (.finishing name response) rfl ?_ (fun id' hne => ?_) (by simp) (by simp) Iff.rfl⟩
      · exact
          { armed := hat.armed
            matched := (count_matched_erase _ _ _).trans hat.matched
            finished := by
              show (s.cq.erase (.finished id)).count (.finished id) = 0
              rw [List.count_erase_self, hat.finished]
              rfl
            queue := hat.queue
            rpc := by simp [ServerImpl.record, Stage.Fetched]
            worker := hat.worker
            call := hat.call
            life := by
              rw [ServerImpl.life_record_self]
              exact congrArg (· ++ [Entry.finishEvent]) hat.life }
      · exact
          { armed := rfl
            matched := count_matched_erase _ _ _
            finished := List.count_erase_of_ne (by simpa using hne)
            queue := rfl
            rpc := by simp [ServerImpl.record, hidle, hne.symm]
            worker := fun _ _ _ => Iff.rfl
            call := rfl
            life := ServerImpl.life_record_of_ne _ _ _ hne }
  · cases hs

/-- `HandleRpcs` calls `Proceed` for an object that exists: either it is being processed and becomes a job, or
its `Finish` has been called and it is deleted. -/
theorem Staged.rpcProceed_cases (h : Staged s stage) {id : Nat} (hrpc : s.rpc = .proceed id) :
    (∃ name, stage id = .fetched name ∧ rpcProceed s = some ({ s with rpc := .next }.addJob id)) ∨
    ∃ name response, stage id = .finishing name response ∧
      rpcProceed s = some (({ s with rpc := .next }.setCall id none).record id .deleted) := by
  have hat := h.at_stage id
  have hcall := hat.call
  rcases (hat.rpc.mp hrpc).cases with ⟨name, hst⟩ | ⟨name, response, hst⟩
  · rw [hst] at hcall
    exact .inl ⟨name, hst, by simp [rpcProceed, hrpc, proceed, hcall, Stage.call]⟩
  · rw [hst] at hcall
    exact .inr ⟨name, response, hst, by simp [rpcProceed, hrpc, proceed, hcall, Stage.call]⟩

theorem Staged.rpcProceed (h : Staged s stage) (hs : rpcProceed s = some t) : ∃ stage, Staged t stage := by
  have hrpc : ∃ id, s.rpc = .proceed id := by
    unfold Store.rpcProceed at hs
    split at hs
    · next id hrpc => exact ⟨id, hrpc⟩
    all_goals cases hs
  obtain ⟨id, hrpc⟩ := hrpc
  have hat := h.at_stage id
  have hother {id' : Nat} (hne : id' ≠ id) : s.rpc ≠ .proceed id' := by
    rw [hrpc]
    simpa using hne.symm
  rcases h.rpcProceed_cases hrpc with ⟨name, hst, heq⟩ | ⟨name, response, hst, heq⟩
  · obtain rfl := Option.some.inj (heq.symm.trans hs)
    rw [hst] at hat
    refine ⟨_, h.move hst (.queued name) rfl ?_ (fun id' hne => ?_) (by simp) (by simp) Iff.rfl⟩
    · exact
        { armed := hat.armed
          matched := hat.matched
          finished := hat.finished
          queue := by
            show (s.pool.eventQueue ++ [id]).count id = 1
            rw [List.count_append, hat.queue]
            simp [Stage.inQueue]
          rpc := by simp [ServerImpl.addJob, Stage.Fetched]
          worker := hat.worker
          call := hat.call
          life := hat.life }
    · exact
        { armed := rfl
          matched := rfl
          finished := rfl
          queue := by
            show (s.pool.eventQueue ++ [id]).count id' = s.pool.eventQueue.count id'
            simp [List.count_append, hne.symm]
          rpc := by simp [ServerImpl.addJob, hother hne]
          worker := fun _ _ _ => Iff.rfl
          call := rfl
          life := rfl }
  · obtain rfl := Option.some.inj (heq.symm.trans hs)
    rw [hst] at hat
    refine ⟨_, h.move hst (.deleted name response) rfl ?_ (fun id' hne => ?_) (by simp) (by simp) Iff.rfl⟩
    · exact
        { armed := hat.armed
          matched := hat.matched
          finished := hat.finished
          queue := hat.queue
          rpc := by simp [ServerImpl.record, ServerImpl.setCall, Stage.Fetched]
          worker := hat.worker
          call := Function.update_self _ _ _
          life := by
            rw [ServerImpl.life_record_self]
            exact congrArg (· ++ [Entry.deleted]) hat.life }
    · exact
        { armed := rfl
          matched := rfl
          finished := rfl
          queue := rfl
          rpc := by simp [ServerImpl.record, ServerImpl.setCall, hother hne]
          worker := fun _ _ _ => Iff.rfl
          call := Function.update_of_ne hne _ _
          life := ServerImpl.life_record_of_ne _ _ _ hne }

/-! ## The steps of the workers -/

/-- Steps of the pool that start no job and end none: worker by worker, the same jobs are executed. -/
theorem Staged.pool (h : Staged s stage) {p : Pool Nat} {rpc : RpcPc}
    (hqueue : p.eventQueue = s.pool.eventQueue)
    (hworkers : ∀ w id, p.workers w = .running id ↔ s.pool.workers w = .running id)
    (hrpc : ∀ id, rpc = .proceed id ↔ s.rpc = .proceed id) : Staged { s with pool := p, rpc } stage :=
  h.same rfl fun id =>
    { armed := rfl
      matched := rfl
      finished := rfl
      queue := congrArg (List.count id) hqueue
      rpc := hrpc id
      worker := fun w _ _ => and_congr_left' (hworkers w id)
      call := rfl
      life := rfl }

/-- A worker that is in no job before and after: the same jobs are executed. -/
theorem running_set {p : Pool Nat} {w : Nat} {worker : Worker Nat} (hold : ∀ id, p.workers w ≠ .running id)
    (hnew : ∀ id, worker ≠ .running id) (v id : Nat) :
    (p.set w worker).workers v = .running id ↔ p.workers v = .running id := by
  by_cases hne : v = w
  · subst hne
    rw [Pool.set_self]
    exact iff_of_false (hnew id) (hold id)
  · rw [Pool.set_of_ne _ _ hne]

theorem Staged.rpcNotify (h : Staged s stage) {target : Option Nat} (hs : rpcNotify n target s = some t) :
    Staged t stage := by
  unfold Store.rpcNotify at hs
  split at hs
  · next hrpc =>
    obtain ⟨p, hp, rfl⟩ := Option.map_eq_some_iff.mp hs
    have hidle (id : Nat) : RpcPc.next = .proceed id ↔ s.rpc = .proceed id := by simp [hrpc]
    rcases Pool.notifyOne_cases hp with ⟨w, -, hblocked, rfl⟩ | ⟨-, rfl⟩
    · exact h.pool rfl (running_set (by simp [hblocked]) (by simp)) hidle
    · exact h.pool rfl (fun _ _ => Iff.rfl) hidle
  · cases hs

theorem Staged.wake (h : Staged s stage) {w : Nat} {p : Pool Nat} (hp : s.pool.wake w = some p) :
    Staged { s with pool := p } stage := by
  obtain ⟨hblocked, rfl⟩ := Pool.wake_cases hp
  exact h.pool rfl (running_set (by simp [hblocked]) (by simp)) fun _ => Iff.rfl

theorem Staged.lock (h : Staged s stage) {w : Nat} (hs : lock w s = some t) : ∃ stage, Staged t stage := by
  obtain ⟨p, hp, rfl⟩ := Option.map_eq_some_iff.mp hs
  obtain ⟨hpc, hcases⟩ := Pool.lockSection_cases hp
  have hold (id : Nat) : s.pool.workers w ≠ .running id := by
    rcases hpc with hpc | hpc <;> simp [hpc]
  rcases hcases with ⟨-, rfl⟩ | ⟨id, rest, hqueue, rfl⟩
  · rw [Pool.set_self]
    exact ⟨stage, h.pool rfl (running_set hold (by simp)) fun _ => Iff.rfl⟩
  · rw [Pool.set_self]
    have hat := h.at_stage id
    have hcount := hat.queue
    rw [hqueue, List.count_cons_self] at hcount
    obtain ⟨name, hst⟩ := Stage.eq_queued (by rw [← hcount]; exact Nat.succ_pos _)
    rw [hst] at hat hcount
    refine ⟨_, h.move hst (.construct name w) rfl ?_ (fun id' hne => ?_) (by simp) (by simp) Iff.rfl⟩
    · exact
        { armed := hat.armed
          matched := hat.matched
          finished := hat.finished
          queue := Nat.succ.inj hcount
          rpc := hat.rpc
          worker := fun v frame hframe => by
            by_cases hne : v = w
            · subst hne
              simp [ServerImpl.Executes, ServerImpl.setFrame, Stage.worker]
            · have hnone := hat.worker v frame hframe
              simpa [ServerImpl.Executes, ServerImpl.setFrame, Stage.worker, Pool.set, hne, Ne.symm hne]
                using hnone
          call := hat.call
          life := hat.life }
    · exact
        { armed := rfl
          matched := rfl
          finished := rfl
          queue := by
            show rest.count id' = s.pool.eventQueue.count id'
            rw [hqueue, List.count_cons_of_ne hne.symm]
          rpc := Iff.rfl
          worker := fun v frame _ => by
            by_cases hv : v = w
            · subst hv
              simp [ServerImpl.Executes, ServerImpl.setFrame, hold, hne.symm]
            · simp [ServerImpl.Executes, ServerImpl.setFrame, Pool.set, hv]
          call := rfl
          life := rfl }

theorem Staged.finishJob (h : Staged s stage) {w : Nat} (hs : finishJob w s = some t) : Staged t stage := by
  unfold Store.finishJob at hs
  split at hs
  · next hframe =>
    obtain ⟨p, hp, rfl⟩ := Option.map_eq_some_iff.mp hs
    obtain ⟨id, -, rfl⟩ := Pool.finishJob_cases hp
    refine h.same rfl fun id' => { armed := rfl
                                   matched := rfl
                                   finished := rfl
                                   queue := rfl
                                   rpc := Iff.rfl
                                   worker := fun v frame hne => ?_
                                   call := rfl
                                   life := rfl }
    by_cases hv : v = w
    · subst hv
      simp [ServerImpl.Executes, hframe, hne.symm]
    · simp [ServerImpl.Executes, Pool.set, hv]
  all_goals cases hs

/-! ## The steps of a job -/

/-- The object of a job that has not returned is at the stage of the job's frame. -/
theorem Staged.worker_stage (h : Staged s stage) {w id : Nat} (hw : s.pool.workers w = .running id)
    (hframe : s.frames w ≠ .returned) : (stage id).worker = some (w, s.frames w) :=
  ((h.at_stage id).worker w (s.frames w) hframe).mp ⟨hw, rfl⟩

/-- The next frame of a worker does not concern the objects of the others. -/
theorem executes_setFrame_of_ne {w id id' : Nat} (hw : s.pool.workers w = .running id) (hne : id' ≠ id)
    (frame : Frame π) (v : Nat) (f : Frame π) :
    (s.setFrame w frame).Executes v id' f ↔ s.Executes v id' f := by
  by_cases hv : v = w
  · subst hv
    simp [ServerImpl.Executes, ServerImpl.setFrame, hw, hne.symm]
  · simp [ServerImpl.Executes, ServerImpl.setFrame, hv]

/-- The worker of a job is the only one that has its object. -/
theorem At.executes_setFrame {w id : Nat} {st : Stage π} (h : At s id st) {old : Frame π}
    (hst : st.worker = some (w, old)) (hw : s.pool.workers w = .running id) (frame : Frame π) {v : Nat}
    {f : Frame π} (hf : f ≠ .returned) : (s.setFrame w frame).Executes v id f ↔ w = v ∧ frame = f := by
  by_cases hv : w = v
  · subst hv
    simp [ServerImpl.Executes, ServerImpl.setFrame, hw]
  · have hno : ¬ s.Executes v id f := fun hex => by
      have hboth := hst.symm.trans ((h.worker v f hf).mp hex)
      exact hv (congrArg Prod.fst (Option.some.inj hboth))
    simpa [ServerImpl.Executes, ServerImpl.setFrame, hv, Ne.symm hv] using hno

/-- What `new CallData` does: the new object is armed. -/
theorem newCallData_eq (s : ServerImpl π) :
    newCallData s = some (({ s with nextId := s.nextId + 1, armed := s.nextId :: s.armed }.setCall s.nextId
      (some ⟨.process, "", []⟩)).record s.nextId .armed) := by
  simp [newCallData, proceed, ServerImpl.setCall, ServerImpl.record]

/-- A new object is armed, and the object whose job has created it is no longer the latest. -/
theorem Staged.construct (h : Staged s stage) {w id : Nat} (hw : s.pool.workers w = .running id)
    (hframe : s.frames w = .construct) {u : ServerImpl π} (hu : newCallData s = some u) :
    ∃ stage, Staged ((u.setFrame w .query).record id .succeeded) stage := by
  obtain rfl := Option.some.inj ((newCallData_eq s).symm.trans hu)
  have hworker := h.worker_stage hw (by simp [hframe])
  rw [hframe] at hworker
  obtain ⟨name, hst⟩ := Stage.eq_construct hworker
  have hat := h.at_stage id
  have hnew := h.at_stage s.nextId
  have hunborn : stage s.nextId = .unborn := (h.unborn _).mpr (Nat.le_refl _)
  have hne : s.nextId ≠ id := by
    rintro rfl
    rw [hunborn] at hst
    cases hst
  have hearly : id + 1 = s.nextId := (h.early id).mp (by rw [hst]; trivial)
  rw [hst] at hat
  rw [hunborn] at hnew
  refine ⟨Function.update (Function.update stage id (.query name w)) s.nextId .armed, Nat.succ_pos _,
    fun id' => ?_, fun id' => ?_, fun id' => ?_⟩
  · by_cases hid' : id' = s.nextId
    · subst hid'
      rw [Function.update_self]
      exact
        { armed := by
            show (s.nextId :: s.armed).count s.nextId = 1
            rw [List.count_cons_self, hnew.armed]
            rfl
          matched := hnew.matched
          finished := hnew.finished
          queue := hnew.queue
          rpc := hnew.rpc
          worker := fun v f hf => (executes_setFrame_of_ne hw hne _ v f).trans (hnew.worker v f hf)
          call := Function.update_self _ _ _
          life := by
            rw [ServerImpl.life_record_of_ne _ _ _ hne]
            exact (ServerImpl.life_record_self _ _ _).trans (congrArg (· ++ [Entry.armed]) hnew.life) }
    rw [Function.update_of_ne hid']
    by_cases hid : id' = id
    · subst hid
      rw [Function.update_self]
      exact
        { armed := by
            show (s.nextId :: s.armed).count id' = 0
            rw [List.count_cons_of_ne hne, hat.armed]
            rfl
          matched := hat.matched
          finished := hat.finished
          queue := hat.queue
          rpc := hat.rpc
          worker := fun v f hf => (hat.executes_setFrame rfl hw .query hf).trans (by simp [Stage.worker])
          call := (Function.update_of_ne hne.symm _ _).trans hat.call
          life := by
            rw [ServerImpl.life_record_self]
            exact congrArg (· ++ [Entry.succeeded])
              ((ServerImpl.life_record_of_ne _ _ _ hne.symm).trans hat.life) }
    · rw [Function.update_of_ne hid]
      exact (h.at_stage id').same
        { armed := List.count_cons_of_ne (Ne.symm hid')
          matched := rfl
          finished := rfl
          queue := rfl
          rpc := Iff.rfl
          worker := fun v f _ => executes_setFrame_of_ne hw hid _ v f
          call := Function.update_of_ne hid' _ _
          life := (ServerImpl.life_record_of_ne _ _ _ hid).trans (ServerImpl.life_record_of_ne _ _ _ hid') }
  · show _ ↔ s.nextId + 1 ≤ id'
    have hold := h.unborn id'
    by_cases hid' : id' = s.nextId
    · subst hid'
      simp
    rw [Function.update_of_ne hid']
    by_cases hid : id' = id
    · subst hid
      rw [Function.update_self]
      simp
      omega
    · rw [Function.update_of_ne hid, hold]
      omega
  · show _ ↔ id' + 1 = s.nextId + 1
    by_cases hid' : id' = s.nextId
    · subst hid'
      simp [Stage.Early]
    rw [Function.update_of_ne hid']
    by_cases hid : id' = id
    · subst hid
      rw [Function.update_self]
      simp [Stage.Early, Ne.symm hne]
    · rw [Function.update_of_ne hid, h.early id']
      omega

/-- The vendors' answers have come. -/
theorem Staged.jobQuery (h : Staged s stage) {w id : Nat} (hw : s.pool.workers w = .running id)
    (hframe : s.frames w = .query) (response : List (π × String)) :
    ∃ stage, Staged ((s.setFrame w (.collate response)).record id (.bids response)) stage := by
  have hat := h.at_stage id
  have hworker := h.worker_stage hw (by simp [hframe])
  rw [hframe] at hworker
  obtain ⟨name, hst⟩ := Stage.eq_query hworker
  rw [hst] at hat
  refine ⟨_, h.move hst (.collate name w [] response) rfl ?_ (fun id' hne => ?_) (by simp) (by simp) Iff.rfl⟩
  · exact
      { armed := hat.armed
        matched := hat.matched
        finished := hat.finished
        queue := hat.queue
        rpc := hat.rpc
        worker := fun v f hf => (hat.executes_setFrame rfl hw _ hf).trans (by simp [Stage.worker])
        call := hat.call
        life := by
          rw [ServerImpl.life_record_self]
          exact congrArg (· ++ [Entry.bids response]) hat.life }
  · exact
      { armed := rfl
        matched := rfl
        finished := rfl
        queue := rfl
        rpc := Iff.rfl
        worker := fun v f _ => executes_setFrame_of_ne hw hne _ v f
        call := rfl
        life := ServerImpl.life_record_of_ne _ _ _ hne }

/-- One bid is put into the reply. -/
theorem Staged.jobCollate (h : Staged s stage) {w id : Nat} (hw : s.pool.workers w = .running id)
    {bid : π × String} {bids : List (π × String)} (hframe : s.frames w = .collate (bid :: bids))
    {call : CallData π} (hcall : s.calls id = some call) :
    ∃ stage, Staged ((s.setFrame w (.collate bids)).setCall id
      (some { call with products := call.products ++ [productInfo bid] })) stage := by
  have hat := h.at_stage id
  have hworker := h.worker_stage hw (by simp [hframe])
  rw [hframe] at hworker
  obtain ⟨name, done, hst⟩ := Stage.eq_collate hworker
  rw [hst] at hat
  refine ⟨_, h.move hst (.collate name w (done ++ [bid]) bids) rfl ?_ (fun id' hne => ?_) (by simp) (by simp) Iff.rfl⟩
  · exact
      { armed := hat.armed
        matched := hat.matched
        finished := hat.finished
        queue := hat.queue
        rpc := hat.rpc
        worker := fun v f hf => (hat.executes_setFrame rfl hw _ hf).trans (by simp [Stage.worker])
        call := by
          obtain rfl := Option.some.inj (hcall.symm.trans hat.call)
          refine (Function.update_self _ _ _).trans ?_
          rw [Stage.call, List.map_append]
          rfl
        life := hat.life.trans (by simp [Stage.life]) }
  · exact
      { armed := rfl
        matched := rfl
        finished := rfl
        queue := rfl
        rpc := Iff.rfl
        worker := fun v f _ => executes_setFrame_of_ne hw hne _ v f
        call := Function.update_of_ne hne _ _
        life := rfl }

theorem Staged.jobCollated (h : Staged s stage) {w id : Nat} (hw : s.pool.workers w = .running id)
    (hframe : s.frames w = .collate []) : ∃ stage, Staged (s.setFrame w .status) stage := by
  have hat := h.at_stage id
  have hworker := h.worker_stage hw (by simp [hframe])
  rw [hframe] at hworker
  obtain ⟨name, done, hst⟩ := Stage.eq_collate hworker
  rw [hst] at hat
  refine ⟨_, h.move hst (.status name w done) rfl ?_ (fun id' hne => ?_) (by simp) (by simp) Iff.rfl⟩
  · exact
      { armed := hat.armed
        matched := hat.matched
        finished := hat.finished
        queue := hat.queue
        rpc := hat.rpc
        worker := fun v f hf => (hat.executes_setFrame rfl hw _ hf).trans (by simp [Stage.worker])
        call := hat.call
        life := hat.life.trans (by simp [Stage.life]) }
  · exact { armed := rfl
            matched := rfl
            finished := rfl
            queue := rfl
            rpc := Iff.rfl
            worker := fun v f _ => executes_setFrame_of_ne hw hne _ v f
            call := rfl
            life := rfl }

theorem Staged.jobStatus (h : Staged s stage) {w id : Nat} (hw : s.pool.workers w = .running id)
    (hframe : s.frames w = .status) {call : CallData π} (hcall : s.calls id = some call) :
    ∃ stage, Staged ((s.setFrame w .finish).setCall id (some { call with status := .finish })) stage := by
  have hat := h.at_stage id
  have hworker := h.worker_stage hw (by simp [hframe])
  rw [hframe] at hworker
  obtain ⟨name, response, hst⟩ := Stage.eq_status hworker
  rw [hst] at hat
  refine ⟨_, h.move hst (.finish name w response) rfl ?_ (fun id' hne => ?_) (by simp) (by simp) Iff.rfl⟩
  · exact
      { armed := hat.armed
        matched := hat.matched
        finished := hat.finished
        queue := hat.queue
        rpc := hat.rpc
        worker := fun v f hf => (hat.executes_setFrame rfl hw _ hf).trans (by simp [Stage.worker])
        call := by
          obtain rfl := Option.some.inj (hcall.symm.trans hat.call)
          exact Function.update_self _ _ _
        life := hat.life }
  · exact
      { armed := rfl
        matched := rfl
        finished := rfl
        queue := rfl
        rpc := Iff.rfl
        worker := fun v f _ => executes_setFrame_of_ne hw hne _ v f
        call := Function.update_of_ne hne _ _
        life := rfl }

/-- The reply is handed to gRPC. -/
theorem Staged.jobFinish (h : Staged s stage) {w id : Nat} (hw : s.pool.workers w = .running id)
    (hframe : s.frames w = .finish) {call : CallData π} (hcall : s.calls id = some call) :
    ∃ stage, Staged (({ s with cq := s.cq ++ [Event.finished id] }.setFrame w .returned).record id
      (.finish call.products)) stage := by
  have hat := h.at_stage id
  have hworker := h.worker_stage hw (by simp [hframe])
  rw [hframe] at hworker
  obtain ⟨name, response, hst⟩ := Stage.eq_finish hworker
  rw [hst] at hat
  refine ⟨_, h.move hst (.answered name response) rfl ?_ (fun id' hne => ?_) (by simp) (by simp) Iff.rfl⟩
  · exact
      { armed := hat.armed
        matched := by
          show (s.cq ++ [Event.finished id]).count (.matched id) = 0
          rw [List.count_append, hat.matched]
          simp [Stage.matchedEvents]
        finished := by
          show (s.cq ++ [Event.finished id]).count (.finished id) = 1
          rw [List.count_append, hat.finished]
          simp [Stage.finishedEvents]
        queue := hat.queue
        rpc := hat.rpc
        worker := fun v f hf => (hat.executes_setFrame rfl hw _ hf).trans
          (iff_of_false (fun hboth => hf hboth.2.symm) (by simp [Stage.worker]))
        call := hat.call
        life := by
          obtain rfl := Option.some.inj (hcall.symm.trans hat.call)
          rw [ServerImpl.life_record_self]
          exact congrArg (· ++ [Entry.finish (response.map productInfo)]) hat.life }
  · exact
      { armed := rfl
        matched := by
          show (s.cq ++ [Event.finished id]).count (.matched id') = s.cq.count (.matched id')
          simp [List.count_append]
        finished := by
          show (s.cq ++ [Event.finished id]).count (.finished id') = s.cq.count (.finished id')
          simp [List.count_append, hne.symm]
        queue := rfl
        rpc := Iff.rfl
        worker := fun v f _ => executes_setFrame_of_ne hw hne _ v f
        call := rfl
        life := ServerImpl.life_record_of_ne _ _ _ hne }

theorem Staged.job (h : Staged s stage) {w : Nat} {response : List (π × String)} (hs : job w response s = some t) :
    ∃ stage, Staged t stage := by
  unfold Store.job at hs
  split at hs
  · next id hw =>
    unfold jobStep at hs
    split at hs
    · next call hcall hframe =>
      obtain ⟨u, hu, rfl⟩ := Option.map_eq_some_iff.mp hs
      exact h.construct hw hframe hu
    · next call hcall hframe =>
      obtain rfl := Option.some.inj hs
      exact h.jobQuery hw hframe response
    · next call bid bids hcall hframe =>
      obtain rfl := Option.some.inj hs
      exact h.jobCollate hw hframe hcall
    · next call hcall hframe =>
      obtain rfl := Option.some.inj hs
      exact h.jobCollated hw hframe
    · next call hcall hframe =>
      obtain rfl := Option.some.inj hs
      exact h.jobStatus hw hframe hcall
    · next call hcall hframe =>
      obtain rfl := Option.some.inj hs
      exact h.jobFinish hw hframe hcall
    all_goals cases hs
  all_goals cases hs

end AdvancedOS.Store
