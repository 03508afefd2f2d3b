import Mathlib.Algebra.GroupWithZero.Nat
import AdvancedOS.Lib.Potential
import AdvancedOS.Store.Stages

/-!
# Every request is served once

* `StoreInv`: the objects are `Staged`, and the pool is attended to.
* `store_serves`: one object is armed or about to be replaced; each request is answered once, with its own
  bids; each object is deleted once, after the event of its `Finish`.
-/

namespace AdvancedOS.Store

open Lts Potential Finset

/-- The pool is attended to: `HandleRpcs` is its only caller. -/
structure Attended {π : Type} (n : Nat) (s : ServerImpl π) : Prop where
  awake : s.pool.Awake n (s.rpc = .notify)
  idle : ∀ w id, s.pool.workers w = .running id → w < n

structure StoreInv {π : Type} (n : Nat) (s : ServerImpl π) : Prop where
  staged : ∃ stage, Staged s stage
  attended : Attended n s

variable {π : Type} {n : Nat} {s t : ServerImpl π} {stage : Nat → Stage π}

/-! ## The invariant in every run -/

theorem staged_step (h : Staged s stage) {a : StoreAction π} (hs : (storeSystem π n).next a s = some t) :
    ∃ stage, Staged t stage := by
  cases a with
  | arrive id productName => exact h.arrive hs
  | next e => exact h.nextEvent hs
  | proceed => exact h.rpcProceed hs
  | notify target => exact ⟨stage, h.rpcNotify hs⟩
  | lock w =>
    simp only [storeSystem] at hs
    split at hs
    · exact h.lock hs
    · cases hs
  | wake w =>
    simp only [storeSystem] at hs
    split at hs
    · obtain ⟨p, hp, rfl⟩ := Option.map_eq_some_iff.mp hs
      exact ⟨stage, h.wake hp⟩
    · cases hs
  | job w response =>
    simp only [storeSystem] at hs
    split at hs
    · exact h.job hs
    · cases hs
  | finishJob w =>
    simp only [storeSystem] at hs
    split at hs
    · exact ⟨stage, h.finishJob hs⟩
    · cases hs

/-- gRPC and the jobs use neither the pool nor the thread of `HandleRpcs`. -/
theorem arrive_pool {id : Nat} {productName : String} (hs : arrive id productName s = some t) :
    t.pool = s.pool ∧ t.rpc = s.rpc := by
  unfold arrive at hs
  split at hs
  · split at hs
    · obtain rfl := Option.some.inj hs
      exact ⟨rfl, rfl⟩
    · cases hs
  · cases hs

theorem job_pool {w : Nat} {response : List (π × String)} (hs : job w response s = some t) :
    t.pool = s.pool ∧ t.rpc = s.rpc := by
  unfold job at hs
  split at hs
  · unfold jobStep at hs
    split at hs
    · rw [newCallData_eq] at hs
      cases hs
      exact ⟨rfl, rfl⟩
    all_goals cases hs <;> exact ⟨rfl, rfl⟩
  all_goals cases hs

/-- `lock` changes the pool as its section under the lock does. -/
theorem lock_pool {w : Nat} (hs : lock w s = some t) : s.pool.lockSection w = some t.pool ∧ t.rpc = s.rpc := by
  obtain ⟨p, hp, rfl⟩ := Option.map_eq_some_iff.mp hs
  split <;> exact ⟨hp, rfl⟩

theorem finishJob_pool {w : Nat} (hs : finishJob w s = some t) :
    s.pool.finishJob w = some t.pool ∧ t.rpc = s.rpc := by
  unfold finishJob at hs
  split at hs
  · obtain ⟨p, hp, rfl⟩ := Option.map_eq_some_iff.mp hs
    exact ⟨hp, rfl⟩
  all_goals cases hs

theorem Attended.same (h : Attended n s) (hsame : t.pool = s.pool ∧ t.rpc = s.rpc) : Attended n t where
  awake := by rw [hsame.1, hsame.2]; exact h.awake
  idle := by rw [hsame.1]; exact h.idle

/-- While `HandleRpcs` is not in `add_job`, a worker is awake if there are jobs. -/
theorem Attended.awake_of_ne (h : Attended n s) (hrpc : s.rpc ≠ .notify) (pending : Prop) :
    s.pool.Awake n pending := fun hqueue => .inr ((h.awake hqueue).resolve_left hrpc)

/-- Only a worker of the pool can begin a job. -/
theorem Attended.idle_set (h : Attended n s) {w : Nat} (hw : w < n) {worker : Worker Nat} :
    ∀ v id, (s.pool.set w worker).workers v = .running id → v < n := by
  intro v id hv
  by_cases hne : v = w
  · rw [hne]
    exact hw
  · exact h.idle v id (by rwa [Pool.set_of_ne _ _ hne] at hv)

theorem attended_step (hn : 0 < n) (hstaged : Staged s stage) (h : Attended n s) {a : StoreAction π}
    (hs : (storeSystem π n).next a s = some t) : Attended n t := by
  cases a with
  | arrive id productName => exact h.same (arrive_pool hs)
  | next e =>
    simp only [storeSystem, nextEvent] at hs
    split at hs
    · next hguard =>
      have hrpc : s.rpc ≠ .notify := by simp [hguard.1]
      cases e <;> obtain rfl := Option.some.inj hs <;> exact ⟨h.awake_of_ne hrpc _, h.idle⟩
    · cases hs
  | proceed =>
    obtain ⟨id, hrpc⟩ : ∃ id, s.rpc = .proceed id := by
      simp only [storeSystem, rpcProceed] at hs
      split at hs
      · next id hrpc => exact ⟨id, hrpc⟩
      all_goals cases hs
    rcases hstaged.rpcProceed_cases hrpc with ⟨name, -, heq⟩ | ⟨name, response, -, heq⟩
    · obtain rfl := Option.some.inj (heq.symm.trans hs)
      exact ⟨Pool.awake_push id rfl, h.idle⟩
    · obtain rfl := Option.some.inj (heq.symm.trans hs)
      exact ⟨h.awake_of_ne (by simp [hrpc]) _, h.idle⟩
  | notify target =>
    simp only [storeSystem, rpcNotify] at hs
    split at hs
    · obtain ⟨p, hp, rfl⟩ := Option.map_eq_some_iff.mp hs
      refine ⟨Pool.awake_notifyOne hn hp, ?_⟩
      rcases Pool.notifyOne_cases hp with ⟨w, hw, -, rfl⟩ | ⟨-, rfl⟩
      · exact h.idle_set hw
      · exact h.idle
    · cases hs
  | lock w =>
    simp only [storeSystem] at hs
    split at hs
    · next hw =>
      obtain ⟨hp, -⟩ := lock_pool hs
      refine ⟨.lockSection hw hp, ?_⟩
      rcases (Pool.lockSection_cases hp).2 with ⟨-, heq⟩ | ⟨job, rest, -, heq⟩
      · rw [heq]
        exact h.idle_set hw
      · rw [heq]
        exact h.idle_set hw
    · cases hs
  | wake w =>
    simp only [storeSystem] at hs
    split at hs
    · next hw =>
      obtain ⟨p, hp, rfl⟩ := Option.map_eq_some_iff.mp hs
      refine ⟨Pool.awake_wake hw hp, ?_⟩
      obtain ⟨-, rfl⟩ := Pool.wake_cases hp
      exact h.idle_set hw
    · cases hs
  | job w response =>
    simp only [storeSystem] at hs
    split at hs
    · exact h.same (job_pool hs)
    · cases hs
  | finishJob w =>
    simp only [storeSystem] at hs
    split at hs
    · next hw =>
      obtain ⟨hp, -⟩ := finishJob_pool hs
      refine ⟨Pool.awake_finishJob hw hp, ?_⟩
      obtain ⟨job, -, heq⟩ := Pool.finishJob_cases hp
      rw [heq]
      exact h.idle_set hw
    · cases hs

/-- The first object is armed, and the pool is empty. -/
theorem storeInv_init : StoreInv n (storeSystem π n).init := by
  have hinit : (storeSystem π n).init =
      { nextId := 1, calls := Function.update (fun _ => none) 0 (some ⟨.process, "", []⟩), armed := [0], cq := [],
        rpc := .next, pool := .empty, frames := fun _ => .returned, log := [(0, .armed)] } := by
    show (newCallData ServerImpl.empty).getD ServerImpl.empty = _
    rw [newCallData_eq]
    rfl
  rw [hinit]
  refine ⟨⟨Function.update (fun _ => .unborn) 0 .armed, Nat.zero_lt_one, fun id => ?_, fun id => ?_, fun id => ?_⟩,
    Pool.awake_empty, fun w id hw => by cases hw⟩
  all_goals by_cases hid : id = 0
  · subst hid
    rw [Function.update_self]
    exact
      { armed := rfl
        matched := rfl
        finished := rfl
        queue := rfl
        rpc := by simp [Stage.Fetched]
        worker := fun v f _ => by simp [Stage.worker, ServerImpl.Executes, Pool.empty]
        call := by simp [Stage.call]
        life := rfl }
  · rw [Function.update_of_ne hid]
    exact
      { armed := List.count_cons_of_ne (Ne.symm hid)
        matched := rfl
        finished := rfl
        queue := rfl
        rpc := by simp [Stage.Fetched]
        worker := fun v f _ => by simp [Stage.worker, ServerImpl.Executes, Pool.empty]
        call := by simp [hid, Stage.call]
        life := by simp [ServerImpl.life, Ne.symm hid, Stage.life] }
  · simp [hid]
  · rw [Function.update_of_ne hid]
    simp
    omega
  · simp [hid, Stage.Early]
  · simp [Stage.Early, hid]

theorem storeInv_reach (hn : 0 < n) (h : Reach (storeSystem π n) s) : StoreInv n s :=
  h.invariant storeInv_init fun _ hinv _ hs =>
    have ⟨_, hstaged⟩ := hinv.staged
    ⟨staged_step hstaged hs, attended_step hn hstaged hinv.attended hs⟩

/-! ## One object is armed or about to be replaced -/

/-- The request of the object has been matched, and its job has not created the successor yet. -/
def Entry.awaitsSuccessor (life : List (Entry π)) : Bool :=
  life.any (· matches .matched _) && !life.any (· matches .succeeded)

/-- The number of matched requests whose job has not created the successor yet. -/
def ServerImpl.awaiting (s : ServerImpl π) : Nat :=
  (List.range s.nextId).countP fun id => Entry.awaitsSuccessor (s.life id)

/-- An object without a successor is armed, or its request has been matched. -/
theorem Stage.awaitsSuccessor_of_early {st : Stage π} (h : st.Early) :
    st.inArmed + (if Entry.awaitsSuccessor st.life then 1 else 0) = 1 := by
  cases st with
  | armed | event name | fetched name | queued name | construct name w => rfl
  | _ => cases h

theorem Stage.early_of_awaitsSuccessor {st : Stage π} (h : Entry.awaitsSuccessor st.life = true) : st.Early := by
  cases st with
  | event name | fetched name | queued name | construct name w => trivial
  | _ => cases h

/-- Both counts look at the latest object only. -/
theorem Staged.armed_add_awaiting (h : Staged s stage) : s.armed.length + s.awaiting = 1 := by
  obtain ⟨last, hlast⟩ : ∃ last, s.nextId = last + 1 := Nat.exists_eq_succ_of_ne_zero (Nat.ne_of_gt h.created)
  have hat := h.at_stage last
  have hearly : (stage last).Early := (h.early last).mpr hlast.symm
  have honly {id : Nat} (hid : (stage id).Early) : id = last :=
    Nat.succ.inj (((h.early id).mp hid).trans hlast)
  have harmed : s.armed.length = (stage last).inArmed := by
    have hall : ∀ id ∈ s.armed, id = last := fun id hmem => by
      have hst := Stage.eq_armed (by rw [← (h.at_stage id).armed]; exact List.count_pos_iff.mpr hmem)
      exact honly (by rw [hst]; trivial)
    rw [← hat.armed, List.eq_replicate_of_mem hall, List.count_replicate_self, List.length_replicate]
  have hawaiting : s.awaiting = if Entry.awaitsSuccessor (stage last).life then 1 else 0 := by
    have hbefore : (List.range last).countP (fun id => Entry.awaitsSuccessor (s.life id)) = 0 := by
      refine List.countP_eq_zero.mpr fun id hmem hawaits => ?_
      rw [(h.at_stage id).life] at hawaits
      exact Nat.ne_of_lt (List.mem_range.mp hmem) (honly (Stage.early_of_awaitsSuccessor hawaits))
    rw [ServerImpl.awaiting, hlast, List.range_succ, List.countP_append, hbefore, List.countP_singleton, hat.life,
      Nat.zero_add]
  rw [harmed, hawaiting]
  exact Stage.awaitsSuccessor_of_early hearly

/-! ## The store is not at rest while a request is being served -/

/-- Steps that the store is sure to take: not a new request, and not a wake-up without cause. -/
def StoreAction.Productive : StoreAction π → Prop
  | .arrive _ _ | .wake _ => False
  | .next _ | .proceed | .notify _ | .lock _ | .job _ _ | .finishJob _ => True

/-- The object of a job that has not returned exists. -/
theorem Staged.object_exists (h : Staged s stage) {w id : Nat} (hw : s.pool.workers w = .running id)
    (hframe : s.frames w ≠ .returned) : (s.calls id).isSome := by
  have hworker := h.worker_stage hw hframe
  rw [(h.at_stage id).call]
  cases hst : stage id with
  | construct name w | query name w | collate name w done left | status name w response | finish name w response =>
    rfl
  | _ =>
    rw [hst] at hworker
    cases hworker

/-- A job can always go on: its object exists. -/
theorem StoreInv.job_can_go_on (h : StoreInv n s) {w id : Nat} (hw : s.pool.workers w = .running id) :
    ∃ a : StoreAction π, a.Productive ∧ ((storeSystem π n).next a s).isSome := by
  obtain ⟨stage, hstaged⟩ := h.staged
  have hlt := h.attended.idle w id hw
  by_cases hframe : s.frames w = .returned
  · exact ⟨.finishJob w, trivial, by simp [storeSystem, hlt, finishJob, hframe, Pool.finishJob, hw]⟩
  · obtain ⟨call, hcall⟩ := Option.isSome_iff_exists.mp (hstaged.object_exists hw hframe)
    have hjob : (jobStep w id [] s).isSome := by
      cases heq : s.frames w with
      | returned => exact absurd heq hframe
      | collate bids => cases bids <;> simp [jobStep, hcall, heq]
      | construct | query | status | finish => simp [jobStep, hcall, heq, newCallData_eq]
    exact ⟨.job w [], trivial, by simp [storeSystem, hlt, job, hw, hjob]⟩

/-- While an object is matched and not deleted, the store can go on without a new request. -/
theorem StoreInv.can_go_on (h : StoreInv n s) (hstaged : Staged s stage) (id : Nat)
    (hborn : stage id ≠ .unborn) (harmed : stage id ≠ .armed)
    (hdeleted : ∀ name response, stage id ≠ .deleted name response) :
    ∃ a : StoreAction π, a.Productive ∧ ((storeSystem π n).next a s).isSome := by
  match hrpc : s.rpc with
  | .notify =>
    obtain ⟨target, htarget⟩ := Pool.exists_notifyOne n s.pool
    exact ⟨.notify target, trivial, by simpa [storeSystem, rpcNotify, hrpc] using htarget⟩
  | .proceed tag =>
    refine ⟨.proceed, trivial, ?_⟩
    rcases hstaged.rpcProceed_cases hrpc with ⟨name, -, heq⟩ | ⟨name, response, -, heq⟩ <;>
      exact Option.isSome_iff_exists.mpr ⟨_, heq⟩
  | .next =>
    have hat := hstaged.at_stage id
    have hevent {e : Event} (he : 0 < s.cq.count e) :
        ∃ a : StoreAction π, a.Productive ∧ ((storeSystem π n).next a s).isSome := by
      refine ⟨.next e, trivial, ?_⟩
      cases e <;> simp [storeSystem, nextEvent, hrpc, List.count_pos_iff.mp he]
    have hjob {w : Nat} (frame : Frame π) (hframe : frame ≠ .returned) (hw : (stage id).worker = some (w, frame)) :
        ∃ a : StoreAction π, a.Productive ∧ ((storeSystem π n).next a s).isSome :=
      h.job_can_go_on ((hat.worker w frame hframe).mpr hw).1
    match hst : stage id with
    | .unborn => exact absurd hst hborn
    | .armed => exact absurd hst harmed
    | .deleted name response => exact absurd hst (hdeleted name response)
    | .event name => exact hevent (by rw [hat.matched, hst]; exact Nat.zero_lt_one)
    | .answered name response => exact hevent (by rw [hat.finished, hst]; exact Nat.zero_lt_one)
    | .fetched name | .finishing name response =>
      have hproceed : s.rpc = .proceed id := hat.rpc.mpr (by rw [hst]; trivial)
      rw [hrpc] at hproceed
      cases hproceed
    | .construct name w => exact hjob .construct nofun (by rw [hst]; rfl)
    | .query name w => exact hjob .query nofun (by rw [hst]; rfl)
    | .collate name w done left => exact hjob (.collate left) nofun (by rw [hst]; rfl)
    | .status name w response => exact hjob .status nofun (by rw [hst]; rfl)
    | .finish name w response => exact hjob .finish nofun (by rw [hst]; rfl)
    | .queued name =>
      have hcount : 0 < s.pool.eventQueue.count id := by rw [hat.queue, hst]; exact Nat.zero_lt_one
      have hqueue : s.pool.eventQueue ≠ [] := List.ne_nil_of_mem (List.count_pos_iff.mp hcount)
      rcases h.attended.awake hqueue with hnotify | ⟨w, hw, hblocked⟩
      · rw [hrpc] at hnotify
        cases hnotify
      · have hlock (hpc : s.pool.workers w = .ready ∨ s.pool.workers w = .woken) :
            ((storeSystem π n).next (.lock w) s).isSome := by
          simpa [storeSystem, hw, lock] using Pool.lockSection_isSome hpc
        match hpc : s.pool.workers w with
        | .ready => exact ⟨.lock w, trivial, hlock (.inl hpc)⟩
        | .woken => exact ⟨.lock w, trivial, hlock (.inr hpc)⟩
        | .blocked => exact absurd hpc hblocked
        | .running job => exact h.job_can_go_on hpc

/-! ## Without new requests the store comes to rest -/

/-- The steps that a job still causes, without those of its loop. The event of its `Finish` counts 2, and the
worker that becomes ready 1. -/
def Frame.load : Frame π → Nat
  | .construct => 9
  | .query => 8
  | .collate _ => 7
  | .status => 6
  | .finish => 5
  | .returned => 2

/-- The turns that are left of the loop over the bids. -/
def Frame.turns : Frame π → Nat
  | .collate bids => bids.length
  | .construct | .query | .status | .finish | .returned => 0

def Event.load : Event → Nat
  | .matched _ => 13
  | .finished _ => 2

namespace ServerImpl

def workerLoad (s : ServerImpl π) (w : Nat) : Nat :=
  match s.pool.workers w with
  | .ready | .woken => 1
  | .blocked => 0
  | .running _ => (s.frames w).load

def rpcLoad (s : ServerImpl π) : Nat :=
  match s.rpc with
  | .next => 0
  | .notify => 2
  | .proceed id => if (s.calls id).any (·.status = .finish) then 1 else 12

/-- A bound on the steps that are still to come, without those of the loops over the bids. -/
def load (n : Nat) (s : ServerImpl π) : Nat :=
  (s.cq.map Event.load).sum + s.rpcLoad + 9 * s.pool.eventQueue.length + ∑ w ∈ range n, s.workerLoad w

def turns (n : Nat) (s : ServerImpl π) : Nat := ∑ w ∈ range n, (s.frames w).turns

end ServerImpl

/-- A step lowers the load, or it is a turn of a loop. -/
def Lowers (n : Nat) (s t : ServerImpl π) : Prop :=
  t.load n < s.load n ∨ t.load n = s.load n ∧ t.turns n < s.turns n

/-- Only worker `w` changes in a step of the pool. -/
theorem sum_workerLoad {w : Nat} (hw : w < n) {worker : Worker Nat} (hpool : t.pool.workers = (s.pool.set w worker).workers)
    (hframes : ∀ v ≠ w, t.frames v = s.frames v) :
    ∑ v ∈ range n, t.workerLoad v + s.workerLoad w = ∑ v ∈ range n, s.workerLoad v + t.workerLoad w :=
  sum_change (mem_range.mpr hw) fun v hv => by
    unfold ServerImpl.workerLoad
    rw [hpool, Pool.set_of_ne _ _ hv, hframes v hv]

/-- `HandleRpcs` before `Proceed` of an object that is being processed, and of one whose `Finish` has been
called. -/
theorem rpcLoad_fetched {id : Nat} {call : CallData π} (hrpc : s.rpc = .proceed id) (hcall : s.calls id = some call)
    (hstatus : call.status = .process) : s.rpcLoad = 12 := by
  simp [ServerImpl.rpcLoad, hrpc, hcall, hstatus]

theorem rpcLoad_finishing {id : Nat} {call : CallData π} (hrpc : s.rpc = .proceed id)
    (hcall : s.calls id = some call) (hstatus : call.status = .finish) : s.rpcLoad = 1 := by
  simp [ServerImpl.rpcLoad, hrpc, hcall, hstatus]

theorem lowers_nextEvent (h : Staged s stage) {e : Event} (hs : nextEvent e s = some t) : Lowers n s t := by
  unfold nextEvent at hs
  split at hs
  · next hguard =>
    obtain ⟨hrpc, hmem⟩ := hguard
    have hsum : e.load + ((s.cq.erase e).map Event.load).sum = (s.cq.map Event.load).sum :=
      List.sum_map_erase Event.load hmem
    have hidle : s.rpcLoad = 0 := by rw [ServerImpl.rpcLoad, hrpc]
    refine .inl ?_
    cases e with
    | matched id =>
      have ht := (Option.some.inj hs).symm
      have hat := h.at_stage id
      obtain ⟨name, hst⟩ := Stage.eq_event (by rw [← hat.matched]; exact List.count_pos_iff.mpr hmem)
      have hfetched : t.rpcLoad = 12 := by
        rw [ht]
        exact rpcLoad_fetched rfl (hat.call.trans (by rw [hst]; rfl)) rfl
      have hcq : t.cq = s.cq.erase (.matched id) := by rw [ht]
      have hpool : t.pool = s.pool ∧ ∑ w ∈ range n, t.workerLoad w = ∑ w ∈ range n, s.workerLoad w := by
        rw [ht]
        exact ⟨rfl, rfl⟩
      unfold ServerImpl.load
      rw [hcq, hfetched, hpool.1, hpool.2, hidle, ← hsum, Event.load]
      omega
    | finished id =>
      have ht := (Option.some.inj hs).symm
      have hat := h.at_stage id
      obtain ⟨name, response, hst⟩ :=
        Stage.eq_answered (by rw [← hat.finished]; exact List.count_pos_iff.mpr hmem)
      have hfinishing : t.rpcLoad = 1 := by
        rw [ht]
        exact rpcLoad_finishing rfl (hat.call.trans (by rw [hst]; rfl)) rfl
      have hcq : t.cq = s.cq.erase (.finished id) := by rw [ht]; rfl
      have hpool : t.pool = s.pool ∧ ∑ w ∈ range n, t.workerLoad w = ∑ w ∈ range n, s.workerLoad w := by
        rw [ht]
        exact ⟨rfl, rfl⟩
      unfold ServerImpl.load
      rw [hcq, hfinishing, hpool.1, hpool.2, hidle, ← hsum, Event.load]
      omega
  · cases hs

theorem lowers_rpcProceed (h : Staged s stage) (hs : rpcProceed s = some t) : Lowers n s t := by
  obtain ⟨id, hrpc⟩ : ∃ id, s.rpc = .proceed id := by
    unfold rpcProceed at hs
    split at hs
    · next id hrpc => exact ⟨id, hrpc⟩
    all_goals cases hs
  have hat := h.at_stage id
  refine .inl ?_
  rcases h.rpcProceed_cases hrpc with ⟨name, hst, heq⟩ | ⟨name, response, hst, heq⟩
  · have ht := Option.some.inj (hs.symm.trans heq)
    have hfetched := rpcLoad_fetched hrpc (hat.call.trans (by rw [hst]; rfl)) rfl
    have hrest : t.cq = s.cq ∧ t.rpcLoad = 2 ∧ t.pool.eventQueue = s.pool.eventQueue ++ [id] ∧
        ∑ w ∈ range n, t.workerLoad w = ∑ w ∈ range n, s.workerLoad w := by
      rw [ht]
      exact ⟨rfl, rfl, rfl, rfl⟩
    unfold ServerImpl.load
    rw [hrest.1, hrest.2.1, hrest.2.2.1, hrest.2.2.2, hfetched, List.length_append, List.length_singleton]
    omega
  · have ht := Option.some.inj (hs.symm.trans heq)
    have hfinishing := rpcLoad_finishing hrpc (hat.call.trans (by rw [hst]; rfl)) rfl
    have hrest : t.cq = s.cq ∧ t.rpcLoad = 0 ∧ t.pool = s.pool ∧
        ∑ w ∈ range n, t.workerLoad w = ∑ w ∈ range n, s.workerLoad w := by
      rw [ht]
      exact ⟨rfl, rfl, rfl, rfl⟩
    unfold ServerImpl.load
    rw [hrest.1, hrest.2.1, hrest.2.2.1, hrest.2.2.2, hfinishing]
    omega

theorem lowers_rpcNotify {target : Option Nat} (hs : rpcNotify n target s = some t) : Lowers n s t := by
  unfold rpcNotify at hs
  split at hs
  · next hrpc =>
    obtain ⟨p, hp, ht⟩ := Option.map_eq_some_iff.mp hs
    have hnotify : s.rpcLoad = 2 := by rw [ServerImpl.rpcLoad, hrpc]
    have hrest : t.cq = s.cq ∧ t.rpcLoad = 0 ∧ t.pool = p ∧ t.frames = s.frames := by
      rw [← ht]
      exact ⟨rfl, rfl, rfl, rfl⟩
    refine .inl ?_
    unfold ServerImpl.load
    rw [hrest.1, hrest.2.1, hrest.2.2.1, hnotify]
    rcases Pool.notifyOne_cases hp with ⟨w, hw, hblocked, rfl⟩ | ⟨-, rfl⟩
    · have hsum := sum_workerLoad hw (congrArg Pool.workers hrest.2.2.1) fun v _ => congrFun hrest.2.2.2 v
      have hold : s.workerLoad w = 0 := by rw [ServerImpl.workerLoad, hblocked]
      have hnew : t.workerLoad w = 1 := by rw [ServerImpl.workerLoad, hrest.2.2.1, Pool.set_self]
      rw [Pool.set_eventQueue]
      omega
    · have hsame : t.workerLoad = s.workerLoad := by
        funext v
        unfold ServerImpl.workerLoad
        rw [hrest.2.2.1, hrest.2.2.2]
      rw [hsame]
      omega
  · cases hs

theorem lowers_lock {w : Nat} (hw : w < n) (hs : lock w s = some t) : Lowers n s t := by
  have hrest : t.cq = s.cq ∧ t.rpcLoad = s.rpcLoad ∧ (∀ v ≠ w, t.frames v = s.frames v) ∧
      ∀ id, t.pool.workers w = .running id → t.frames w = .construct := by
    obtain ⟨p, hp, rfl⟩ := Option.map_eq_some_iff.mp hs
    split
    · next id hrunning =>
      exact ⟨rfl, rfl, fun v hv => Function.update_of_ne hv _ _, fun _ _ => Function.update_self _ _ _⟩
    all_goals
      next hidle =>
      exact ⟨rfl, rfl, fun _ _ => rfl, fun _ hrunning => by rw [hidle] at hrunning; cases hrunning⟩
  obtain ⟨hp, -⟩ := lock_pool hs
  obtain ⟨hpc, hcases⟩ := Pool.lockSection_cases hp
  have hold : s.workerLoad w = 1 := by
    unfold ServerImpl.workerLoad
    rcases hpc with hpc | hpc <;> rw [hpc]
  refine .inl ?_
  unfold ServerImpl.load
  rw [hrest.1, hrest.2.1]
  rcases hcases with ⟨-, heq⟩ | ⟨id, rest, hqueue, heq⟩
  · have hsum := sum_workerLoad hw (congrArg Pool.workers heq) hrest.2.2.1
    have hnew : t.workerLoad w = 0 := by rw [ServerImpl.workerLoad, heq, Pool.set_self]
    rw [heq, Pool.set_eventQueue]
    omega
  · have hworkers : t.pool.workers = (s.pool.set w (.running id)).workers := by
      rw [heq]
      rfl
    have hsum := sum_workerLoad hw hworkers hrest.2.2.1
    have hrunning : t.pool.workers w = .running id := by rw [heq, Pool.set_self]
    have hnew : t.workerLoad w = 9 := by
      rw [ServerImpl.workerLoad, hrunning]
      show (t.frames w).load = 9
      rw [hrest.2.2.2 id hrunning]
      rfl
    rw [heq, Pool.set_eventQueue, hqueue, List.length_cons]
    show _ + _ + 9 * rest.length + _ < _
    omega

theorem lowers_finishJob {w : Nat} (hw : w < n) (hs : finishJob w s = some t) : Lowers n s t := by
  unfold finishJob at hs
  split at hs
  · next hframe =>
    obtain ⟨p, hp, ht⟩ := Option.map_eq_some_iff.mp hs
    obtain ⟨id, hrunning, rfl⟩ := Pool.finishJob_cases hp
    have hrest : t.cq = s.cq ∧ t.rpcLoad = s.rpcLoad ∧ t.pool = s.pool.set w .ready ∧ t.frames = s.frames := by
      rw [← ht]
      exact ⟨rfl, rfl, rfl, rfl⟩
    have hsum := sum_workerLoad hw (congrArg Pool.workers hrest.2.2.1) fun v _ => congrFun hrest.2.2.2 v
    have hold : s.workerLoad w = 2 := by
      rw [ServerImpl.workerLoad, hrunning]
      show (s.frames w).load = 2
      rw [hframe]
      rfl
    have hnew : t.workerLoad w = 1 := by rw [ServerImpl.workerLoad, hrest.2.2.1, Pool.set_self]
    refine .inl ?_
    unfold ServerImpl.load
    rw [hrest.1, hrest.2.1, hrest.2.2.1, Pool.set_eventQueue]
    omega
  all_goals cases hs

theorem rpcLoad_congr (hrpc : t.rpc = s.rpc) (hcalls : ∀ tag, s.rpc = .proceed tag → t.calls tag = s.calls tag) :
    t.rpcLoad = s.rpcLoad := by
  unfold ServerImpl.rpcLoad
  rw [hrpc]
  cases hpc : s.rpc with
  | next | notify => rfl
  | proceed tag => simp only [hcalls tag hpc]

/-- The next frame of a job. It brings the job nearer to its end: what the frame and the events of the
completion queue count becomes less, or a turn of the loop is done. -/
theorem job_frame (h : Staged s stage) {w : Nat} {response : List (π × String)} (hs : job w response s = some t) :
    ∃ id frame, s.pool.workers w = .running id ∧ t.frames = Function.update s.frames w frame ∧
      t.rpcLoad = s.rpcLoad ∧
      ((t.cq.map Event.load).sum + frame.load < (s.cq.map Event.load).sum + (s.frames w).load ∨
        t.cq = s.cq ∧ frame.load = (s.frames w).load ∧ frame.turns < (s.frames w).turns) := by
  unfold job at hs
  split at hs
  · next id hw =>
    -- `HandleRpcs` has another object, so its load does not change
    have hrpc (hframe : s.frames w ≠ .returned) (tag : Nat) (htag : s.rpc = .proceed tag) :
        tag ≠ id ∧ tag ≠ s.nextId := by
      have hcases := ((h.at_stage tag).rpc.mp htag).cases
      refine ⟨?_, ?_⟩ <;> rintro rfl
      · have hworker := h.worker_stage hw hframe
        rcases hcases with ⟨name, hst⟩ | ⟨name, response, hst⟩ <;> rw [hst] at hworker <;> cases hworker
      · have hunborn := (h.unborn s.nextId).mpr (Nat.le_refl _)
        rcases hcases with ⟨name, hst⟩ | ⟨name, response, hst⟩ <;> rw [hst] at hunborn <;> cases hunborn
    unfold jobStep at hs
    split at hs
    · next call hcall hframe =>
      rw [newCallData_eq] at hs
      obtain rfl := Option.some.inj hs
      refine ⟨id, .query, hw, rfl, rpcLoad_congr rfl fun tag htag => ?_, .inl ?_⟩
      · exact Function.update_of_ne (hrpc (by rw [hframe]; nofun) tag htag).2 _ _
      · rw [hframe]
        exact Nat.add_lt_add_left (Nat.lt_succ_self 8) _
    · next call hcall hframe =>
      obtain rfl := Option.some.inj hs
      refine ⟨id, .collate response, hw, rfl, rfl, .inl ?_⟩
      rw [hframe]
      exact Nat.add_lt_add_left (Nat.lt_succ_self 7) _
    · next call bid bids hcall hframe =>
      obtain rfl := Option.some.inj hs
      refine ⟨id, .collate bids, hw, rfl, rpcLoad_congr rfl fun tag htag => ?_, .inr ⟨rfl, ?_, ?_⟩⟩
      · exact Function.update_of_ne (hrpc (by rw [hframe]; nofun) tag htag).1 _ _
      · rw [hframe]
        rfl
      · rw [hframe]
        exact Nat.lt_succ_self _
    · next call hcall hframe =>
      obtain rfl := Option.some.inj hs
      refine ⟨id, .status, hw, rfl, rfl, .inl ?_⟩
      rw [hframe]
      exact Nat.add_lt_add_left (Nat.lt_succ_self 6) _
    · next call hcall hframe =>
      obtain rfl := Option.some.inj hs
      refine ⟨id, .finish, hw, rfl, rpcLoad_congr rfl fun tag htag => ?_, .inl ?_⟩
      · exact Function.update_of_ne (hrpc (by rw [hframe]; nofun) tag htag).1 _ _
      · rw [hframe]
        exact Nat.add_lt_add_left (Nat.lt_succ_self 5) _
    · next call hcall hframe =>
      obtain rfl := Option.some.inj hs
      refine ⟨id, .returned, hw, rfl, rfl, .inl ?_⟩
      show ((s.cq ++ [Event.finished id]).map Event.load).sum + 2 < _
      rw [hframe, List.map_append, List.sum_append]
      exact Nat.lt_succ_self _
    all_goals cases hs
  all_goals cases hs

theorem lowers_job (h : Staged s stage) {w : Nat} (hw : w < n) {response : List (π × String)}
    (hs : job w response s = some t) : Lowers n s t := by
  obtain ⟨id, frame, hrunning, hframes, hrpc, hless⟩ := job_frame h hs
  have hpool := (job_pool hs).1
  have hframe : t.frames w = frame := by rw [hframes, Function.update_self]
  have hold : s.workerLoad w = (s.frames w).load := by rw [ServerImpl.workerLoad, hrunning]
  have hnew : t.workerLoad w = frame.load := by
    rw [ServerImpl.workerLoad, hpool, hrunning]
    exact congrArg Frame.load hframe
  have hothers : ∀ v ≠ w, t.frames v = s.frames v := fun v hv => by rw [hframes, Function.update_of_ne hv]
  have hsum : ∑ v ∈ range n, t.workerLoad v + s.workerLoad w = ∑ v ∈ range n, s.workerLoad v + t.workerLoad w :=
    sum_change (mem_range.mpr hw) fun v hv => by
      unfold ServerImpl.workerLoad
      rw [hpool, hothers v hv]
  unfold Lowers ServerImpl.load
  rw [hpool, hrpc]
  rcases hless with hless | ⟨hcq, hload, hturns⟩
  · left
    omega
  · right
    have hturn : ∑ v ∈ range n, (t.frames v).turns + (s.frames w).turns =
        ∑ v ∈ range n, (s.frames v).turns + (t.frames w).turns :=
      sum_change (mem_range.mpr hw) fun v hv => congrArg Frame.turns (hothers v hv)
    rw [hframe] at hturn
    rw [hcq, ServerImpl.turns, ServerImpl.turns]
    omega

theorem lowers (hstaged : Staged s stage) {a : StoreAction π} (ha : a.Productive)
    (hs : (storeSystem π n).next a s = some t) : Lowers n s t := by
  cases a with
  | arrive id productName => exact ha.elim
  | next e => exact lowers_nextEvent hstaged hs
  | proceed => exact lowers_rpcProceed hstaged hs
  | notify target => exact lowers_rpcNotify hs
  | lock w =>
    simp only [storeSystem] at hs
    split at hs
    · next hw => exact lowers_lock hw hs
    · cases hs
  | wake w => exact ha.elim
  | job w response =>
    simp only [storeSystem] at hs
    split at hs
    · next hw => exact lowers_job hstaged hw hs
    · cases hs
  | finishJob w =>
    simp only [storeSystem] at hs
    split at hs
    · next hw => exact lowers_finishJob hw hs
    · cases hs

/-! ## Every request is served once -/

/-- The store with at least one worker, in every reachable state.

* One object is armed, or it has been matched and is about to be replaced.
* The history of every object is the beginning of a whole life: it is armed, matched, succeeded by a new
  object, given the bids of its own `getProductBid`, answered with these bids by `Finish`, and deleted after the
  event of this `Finish`, each at most once.
* `Proceed` always finds its object, whose `Finish` has been called if its status is FINISH, and the assertion
  holds. The object of a job exists.
* While an object is matched and not deleted, the store goes on without a new request, and it does so only
  finitely often: each such step lowers a pair of numbers. So each matched request is answered in the end. -/
theorem store_serves (hn : 0 < n) (hr : Reach (storeSystem π n) s) :
    s.armed.length + s.awaiting = 1 ∧
    (∀ id, ∃ name response, s.life id <+: wholeLife name response) ∧
    (∀ id, s.rpc = .proceed id → (rpcProceed s).isSome ∧ ∃ call, s.calls id = some call ∧
      (call.status = .finish → ∃ products, .finish products ∈ s.life id)) ∧
    (∀ w id, s.pool.workers w = .running id → s.frames w ≠ .returned → (s.calls id).isSome) ∧
    (∀ id name, .matched name ∈ s.life id → .deleted ∉ s.life id →
      ∃ a : StoreAction π, a.Productive ∧ ((storeSystem π n).next a s).isSome) ∧
    (∀ (a : StoreAction π) (t), a.Productive → (storeSystem π n).next a s = some t → Lowers n s t) := by
  have hinv := storeInv_reach hn hr
  obtain ⟨stage, hstaged⟩ := hinv.staged
  refine ⟨hstaged.armed_add_awaiting, fun id => ?_, fun id hrpc => ?_, fun w id hw hframe => ?_,
    fun id name hmatched hdeleted => ?_, fun a t ha hs => lowers hstaged ha hs⟩
  · rw [(hstaged.at_stage id).life]
    exact (stage id).life_begins
  · have hat := hstaged.at_stage id
    rcases hstaged.rpcProceed_cases hrpc with ⟨name, hst, heq⟩ | ⟨name, response, hst, heq⟩
    · refine ⟨by rw [heq]; rfl, _, hat.call.trans (by rw [hst]; rfl), fun hstatus => by cases hstatus⟩
    · refine ⟨by rw [heq]; rfl, _, hat.call.trans (by rw [hst]; rfl), fun _ => ?_⟩
      rw [hat.life, hst]
      exact ⟨response.map productInfo, by simp [Stage.life]⟩
  · exact hstaged.object_exists hw hframe
  · rw [(hstaged.at_stage id).life] at hmatched hdeleted
    refine hinv.can_go_on hstaged id ?_ ?_ fun name response hst => ?_
    · intro hst
      rw [hst] at hmatched
      cases hmatched
    · intro hst
      rw [hst] at hmatched
      simp [Stage.life] at hmatched
    · rw [hst] at hdeleted
      exact hdeleted (by simp [Stage.life, wholeLife])

/-- One request, from its match to the deletion of its object. -/
def oneRequest : List (StoreAction Nat) :=
  [.arrive 0 "product", .next (.matched 0), .proceed, .notify none, .lock 0, .job 0 [], .job 0 [(10, "vendor")],
    .job 0 [], .job 0 [], .job 0 [], .job 0 [], .next (.finished 0), .finishJob 0, .proceed]

theorem store_serves_one_request : ∃ s, Reach (storeSystem Nat 1) s ∧ (s.life 0).length = 7 ∧
    (∃ name response, s.life 0 <+: wholeLife name response) ∧ s.armed.length + s.awaiting = 1 := by
  have hrun : (exec (storeSystem Nat 1) oneRequest (storeSystem Nat 1).init).isSome := by decide
  have hlife : ∀ u ∈ exec (storeSystem Nat 1) oneRequest (storeSystem Nat 1).init, (u.life 0).length = 7 := by
    decide
  obtain ⟨u, hu⟩ := Option.isSome_iff_exists.mp hrun
  have hreach := reach_exec oneRequest .init hu
  obtain ⟨hone, hprefix, -⟩ := store_serves Nat.zero_lt_one hreach
  exact ⟨u, hreach, hlife u hu, hprefix 0, hone⟩

end AdvancedOS.Store
