import Mathlib.Data.List.Perm.Lattice
import AdvancedOS.Lib.WorkPool
import AdvancedOS.MapReduce.Grounded

/-!
# The master's two pools of jobs

What the master does with shards, and what it does with partitions, are two pools of jobs and
workers. A `View` says where the master keeps what a pool has; `mapView` and `reduceView` are the
two. `send_mapper_job` records the shard in the client, `send_reducer_job` records nothing.

* `View.dispatch` to `View.drop`: what a step must do to be an action of the pool of a view.
* `mapPool_move`, `reducePool_move`: a step of the master is an action of each pool or none, and
  `MapStep`, `ReduceStep` say of which step each action is. The one step that the pool of shards
  does not follow is the failure of a worker in the reduce phase.
-/

namespace AdvancedOS.MapReduce

open Lts WorkPool

variable {Sh : Type} {spec : Spec Sh} {s t : State Sh} {a : Action}

/-! ## Views -/

/-- Where the master keeps what a pool of jobs has. -/
structure View (Sh J : Type) where
  jobs : State Sh → List J
  pending : State Sh → List J
  unfinished : Master Sh → List J
  held : WorkerClient Sh → List J
  completed : WorkerClient Sh → Int
  job : Call Sh → Option (Str × J)
  sent : State Sh → List (Str × J)
  done : State Sh → List (Str × J)
  count : Master Sh → Int

variable {J : Type} {V : View Sh J}

/-- The jobs on record for a client. -/
def View.heldBy (V : View Sh J) : Option (WorkerClient Sh) → Option (Multiset J) :=
  Option.map fun client => V.held client

/-- The completed jobs of a client; none for a missing one. -/
def View.completedBy (V : View Sh J) : Option (WorkerClient Sh) → Int
  | none => 0
  | some client => V.completed client

def View.pool (V : View Sh J) (s : State Sh) : Pool Str J where
  jobs := V.jobs s
  pending := V.pending s
  unfinished := V.unfinished s.master
  held ip := V.heldBy (s.master.ipAddr2worker ip)
  completed ip := V.completedBy (s.master.ipAddr2worker ip)
  calls := s.calls.filterMap V.job
  sent := V.sent s
  done := V.done s
  count := V.count s.master

/-- The shards that `run` has not dispatched in its current pass. -/
def RunPc.pendingShards (shards : List Sh) : RunPc → List Sh
  | .mkdir | .setInitial | .awaitInitial | .resetDropped => shards
  | .dispatch .map i | .send .map i _ => shards.drop i
  | _ => []

/-- The partitions that `run` has not dispatched in its current pass. -/
def RunPc.pendingPartitions (partitions : List Int) : RunPc → List Int
  | .dispatch .reduce i | .send .reduce i _ => partitions.drop i
  | _ => []

def mapView (spec : Spec Sh) : View Sh Sh where
  jobs _ := spec.shards
  pending s := s.run.pendingShards s.master.shards
  unfinished m := m.unfinishedShards
  held client := client.mapShards
  completed client := client.completedMapJobs
  job := Call.mapJob
  sent s := s.mapSent
  done s := s.mapDone
  count m := m.numMapMsgs - m.numDroppedMapJobs

def reduceView : View Sh Int where
  jobs s := s.idx2files.map Prod.fst
  pending s := s.run.pendingPartitions s.master.partitions
  unfinished m := m.unfinishedPartitions
  held client := client.reducePartitions
  completed client := client.completedReduceJobs
  job := Call.reduceJob
  sent s := s.reduceSent.map fun x => (x.1, x.2.1)
  done s := s.reduceDone
  count m := m.numReduceMsgs - m.numDroppedReduceJobs

theorem mapPool_init (spec : Spec Sh) [DecidableEq Sh] :
    (mapView spec).pool (system spec).init =
      (WorkPool.system true spec.workers.toFinset spec.shards).init := by
  ext1 <;> try rfl
  · funext ip
    by_cases hip : ip ∈ spec.workers <;>
      simp [View.pool, View.heldBy, mapView, system, Master.new, WorkPool.system, WorkerClient.new, hip]
  · funext ip
    by_cases hip : ip ∈ spec.workers <;>
      simp [View.pool, View.completedBy, mapView, system, Master.new, WorkPool.system,
        WorkerClient.new, hip]

theorem reducePool_init (spec : Spec Sh) :
    reduceView.pool (system spec).init = (WorkPool.system false spec.workers.toFinset 0).init := by
  ext1 <;> try rfl
  · funext ip
    by_cases hip : ip ∈ spec.workers <;>
      simp [View.pool, View.heldBy, reduceView, system, Master.new, WorkPool.system,
        WorkerClient.new, hip]
  · funext ip
    by_cases hip : ip ∈ spec.workers <;>
      simp [View.pool, View.completedBy, reduceView, system, Master.new, WorkPool.system,
        WorkerClient.new, hip]

/-! ## Calls and clients -/

section Calls

variable {β : Type} {f : Call Sh → Option β} {calls : List (Call Sh)} {k : Nat} {c c' : Call Sh} {x : β}

theorem perm_eraseIdx (h : calls[k]? = some c) : calls.Perm (c :: calls.eraseIdx k) := by
  obtain ⟨hk, rfl⟩ := List.getElem?_eq_some_iff.mp h
  exact (List.getElem_cons_eraseIdx_perm hk).symm

theorem calls_eraseIdx (h : calls[k]? = some c) (hf : f c = some x) :
    (calls.filterMap f : Multiset β) = x ::ₘ ((calls.eraseIdx k).filterMap f : Multiset β) := by
  have hperm := (perm_eraseIdx h).filterMap f
  rw [List.filterMap_cons_some hf] at hperm
  exact Multiset.coe_eq_coe.mpr hperm

theorem calls_eraseIdx_none (h : calls[k]? = some c) (hf : f c = none) :
    ((calls.eraseIdx k).filterMap f : Multiset β) = (calls.filterMap f : Multiset β) := by
  have hperm := (perm_eraseIdx h).filterMap f
  rw [List.filterMap_cons_none hf] at hperm
  exact Multiset.coe_eq_coe.mpr hperm.symm

theorem calls_set (h : calls[k]? = some c) (hf : f c' = f c) :
    ((calls.set k c').filterMap f : Multiset β) = (calls.filterMap f : Multiset β) := by
  have hk : k < calls.length := (List.getElem?_eq_some_iff.mp h).1
  have hset := (List.set_perm_cons_eraseIdx hk c').filterMap f
  have hperm := (perm_eraseIdx h).filterMap f
  refine Multiset.coe_eq_coe.mpr (hset.trans (List.Perm.trans ?_ hperm.symm))
  cases hc : f c with
  | none => rw [List.filterMap_cons_none hc, List.filterMap_cons_none (hf.trans hc)]
  | some x => rw [List.filterMap_cons_some hc, List.filterMap_cons_some (hf.trans hc)]

theorem coe_concat (l : List β) (x : β) : ((l ++ [x] : List β) : Multiset β) = x ::ₘ (l : Multiset β) := by
  rw [← Multiset.coe_add, add_comm, Multiset.coe_singleton, Multiset.singleton_add]

theorem calls_append (hf : f c = some x) :
    ((calls ++ [c]).filterMap f : Multiset β) = x ::ₘ (calls.filterMap f : Multiset β) := by
  rw [List.filterMap_append, List.filterMap_cons_some hf, List.filterMap_nil, coe_concat]

theorem calls_append_none (hf : f c = none) :
    ((calls ++ [c]).filterMap f : Multiset β) = (calls.filterMap f : Multiset β) := by
  rw [List.filterMap_append, List.filterMap_cons_none hf, List.filterMap_nil, List.append_nil]

/-- A function of the clients after one client has changed. -/
theorem comp_update (g : Str → Option (WorkerClient Sh)) (f : Option (WorkerClient Sh) → β) (ip : Str)
    (v : Option (WorkerClient Sh)) :
    (fun x => f (Function.update g ip v x)) = Function.update (fun x => f (g x)) ip (f v) := by
  funext x
  by_cases hx : x = ip
  · subst hx; simp
  · simp [hx]

/-- A change of one client that the function does not see. -/
theorem comp_update_same {g : Str → Option (WorkerClient Sh)} (f : Option (WorkerClient Sh) → β)
    {ip : Str} {v : Option (WorkerClient Sh)} (h : f v = f (g ip)) :
    (fun x => f (Function.update g ip v x)) = fun x => f (g x) := by
  rw [comp_update, h]
  exact Function.update_eq_self ip fun x => f (g x)

end Calls

/-! ## The steps of a view -/

theorem View.live_iff {ip : Str} : (V.pool s).Live ip ↔ (s.master.ipAddr2worker ip).isSome := by
  simp [Pool.Live, View.pool, View.heldBy]

theorem View.heldBy_pool {ip : Str} {client : WorkerClient Sh}
    (h : s.master.ipAddr2worker ip = some client) : (V.pool s).heldBy ip = V.held client := by
  simp [Pool.heldBy, View.pool, View.heldBy, h]

theorem View.completed_pool {ip : Str} {client : WorkerClient Sh}
    (h : s.master.ipAddr2worker ip = some client) : (V.pool s).completed ip = V.completed client := by
  simp [View.pool, View.completedBy, h]

/-- A step that changes nothing that the view sees. -/
theorem View.frame
    (hpending : V.pending t = V.pending s)
    (hheld : ∀ ip, V.heldBy (t.master.ipAddr2worker ip) = V.heldBy (s.master.ipAddr2worker ip) := by
      exact fun _ => rfl)
    (hcompleted : ∀ ip, V.completedBy (t.master.ipAddr2worker ip) =
      V.completedBy (s.master.ipAddr2worker ip) := by exact fun _ => rfl)
    (hcalls : (t.calls.filterMap V.job : Multiset (Str × J)) =
      (s.calls.filterMap V.job : Multiset (Str × J)) := by rfl)
    (hdone : V.done t = V.done s := by rfl)
    (hjobs : V.jobs t = V.jobs s := by rfl)
    (hunfinished : V.unfinished t.master = V.unfinished s.master := by rfl)
    (hsent : V.sent t = V.sent s := by rfl)
    (hcount : V.count t.master = V.count s.master := by rfl) : V.pool t = V.pool s := by
  ext1
  · exact congrArg Multiset.ofList hjobs
  · exact congrArg Multiset.ofList hpending
  · exact congrArg Multiset.ofList hunfinished
  · exact funext hheld
  · exact funext hcompleted
  · exact hcalls
  · exact congrArg Multiset.ofList hsent
  · exact congrArg Multiset.ofList hdone
  · exact hcount

variable [DecidableEq J]

/-- A step that sends the first pending job. -/
theorem View.dispatch {keeps : Bool} {ip : Str} {client client' : WorkerClient Sh} {c : Call Sh} {j : J}
    (hclient : s.master.ipAddr2worker ip = some client)
    (hclients : t.master.ipAddr2worker = Function.update s.master.ipAddr2worker ip (some client'))
    (hpending : V.pending s = j :: V.pending t)
    (hheld : V.held client' = V.held client ++ if keeps then [j] else [])
    (hcalls : t.calls = s.calls ++ [c]) (hjob : V.job c = some (ip, j))
    (hsent : V.sent t = V.sent s ++ [(ip, j)])
    (hcompleted : V.completed client' = V.completed client := by rfl)
    (hdone : V.done t = V.done s := by rfl) (hjobs : V.jobs t = V.jobs s := by rfl)
    (hunfinished : V.unfinished t.master = V.unfinished s.master := by rfl)
    (hcount : V.count t.master = V.count s.master := by rfl) :
    (V.pool s).next keeps (.dispatch ip j) = some (V.pool t) := by
  have hpool : (V.pool s).pending = j ::ₘ (V.pending t : Multiset J) := congrArg Multiset.ofList hpending
  have hlive : (V.pool s).Live ip := View.live_iff.mpr (by simp [hclient])
  simp only [Pool.next]
  rw [if_pos ⟨hlive, by rw [hpool]; exact Multiset.mem_cons_self _ _⟩, hpool, Multiset.erase_cons_head,
    View.heldBy_pool hclient]
  congr 1
  ext1
  · exact congrArg Multiset.ofList hjobs.symm
  · rfl
  · exact congrArg Multiset.ofList hunfinished.symm
  · have hsome : V.heldBy (some client') =
        some (if keeps = true then j ::ₘ (V.held client : Multiset J) else V.held client) := by
      cases keeps with
      | true => rw [if_pos rfl, ← coe_concat]; exact congrArg (fun l : List J => some (l : Multiset J)) hheld
      | false => simp [View.heldBy, hheld]
    rw [← hsome]
    exact ((congrArg (fun g => fun x => V.heldBy (g x)) hclients).trans (comp_update _ V.heldBy ip _)).symm
  · have hsame : V.completedBy (some client') = V.completedBy (s.master.ipAddr2worker ip) := by
      rw [hclient]; exact hcompleted
    exact ((congrArg (fun g => fun x => V.completedBy (g x)) hclients).trans
      (comp_update_same V.completedBy hsame)).symm
  · exact ((congrArg (fun l => ((l.filterMap V.job : List (Str × J)) : Multiset (Str × J))) hcalls).trans
      (calls_append hjob)).symm
  · exact ((congrArg Multiset.ofList hsent).trans (coe_concat _ _)).symm
  · exact congrArg Multiset.ofList hdone.symm
  · exact hcount.symm

/-- A call that is consumed. -/
theorem View.calls_pool {k : Nat} {c : Call Sh} {x : Str × J} (hcall : s.calls[k]? = some c)
    (hjob : V.job c = some x) (hcalls : t.calls = s.calls.eraseIdx k) :
    x ∈ (V.pool s).calls ∧ (V.pool s).calls.erase x = (V.pool t).calls := by
  have herase : (V.pool s).calls = x ::ₘ (V.pool t).calls :=
    (calls_eraseIdx hcall hjob).trans
      (congrArg (fun l => x ::ₘ ((l.filterMap V.job : List (Str × J)) : Multiset (Str × J))) hcalls.symm)
  rw [herase, Multiset.erase_cons_head]
  exact ⟨Multiset.mem_cons_self _ _, rfl⟩

/-- A step that accepts an answer. -/
theorem View.finish {keeps : Bool} {k : Nat} {ip : Str} {client client' : WorkerClient Sh} {c : Call Sh}
    {j : J} (hcall : s.calls[k]? = some c) (hjob : V.job c = some (ip, j))
    (hcalls : t.calls = s.calls.eraseIdx k) (hclient : s.master.ipAddr2worker ip = some client)
    (hclients : t.master.ipAddr2worker = Function.update s.master.ipAddr2worker ip (some client'))
    (hdone : V.done t = V.done s ++ [(ip, j)])
    (hcompleted : V.completed client' = V.completed client + 1)
    (hcount : V.count t.master = V.count s.master + 1)
    (hheld : V.held client' = V.held client := by rfl)
    (hpending : V.pending t = V.pending s := by rfl) (hjobs : V.jobs t = V.jobs s := by rfl)
    (hunfinished : V.unfinished t.master = V.unfinished s.master := by rfl)
    (hsent : V.sent t = V.sent s := by rfl) :
    (V.pool s).next keeps (.finish ip j) = some (V.pool t) := by
  obtain ⟨hmem, herase⟩ := View.calls_pool hcall hjob hcalls
  have hlive : (V.pool s).Live ip := View.live_iff.mpr (by simp [hclient])
  simp only [Pool.next]
  rw [if_pos ⟨hlive, hmem⟩, herase, View.completed_pool hclient, ← hcompleted]
  congr 1
  ext1
  · exact congrArg Multiset.ofList hjobs.symm
  · exact congrArg Multiset.ofList hpending.symm
  · exact congrArg Multiset.ofList hunfinished.symm
  · have hsame : V.heldBy (some client') = V.heldBy (s.master.ipAddr2worker ip) := by
      rw [hclient]; exact congrArg (fun l : List J => some (l : Multiset J)) hheld
    exact ((congrArg (fun g => fun x => V.heldBy (g x)) hclients).trans
      (comp_update_same V.heldBy hsame)).symm
  · exact ((congrArg (fun g => fun x => V.completedBy (g x)) hclients).trans
      (comp_update _ V.completedBy ip _)).symm
  · rfl
  · exact congrArg Multiset.ofList hsent.symm
  · exact ((congrArg Multiset.ofList hdone).trans (coe_concat _ _)).symm
  · exact hcount.symm

omit [DecidableEq J] in
/-- A step that consumes a call and leaves the clients alone. -/
theorem View.pool_of_consumed {count : Int} (hclients : t.master.ipAddr2worker = s.master.ipAddr2worker)
    (hdone : V.done t = V.done s) (hcount : V.count t.master = count) (hpending : V.pending t = V.pending s)
    (hjobs : V.jobs t = V.jobs s) (hunfinished : V.unfinished t.master = V.unfinished s.master)
    (hsent : V.sent t = V.sent s) :
    { V.pool s with calls := (V.pool t).calls, count := count } = V.pool t := by
  ext1
  · exact congrArg Multiset.ofList hjobs.symm
  · exact congrArg Multiset.ofList hpending.symm
  · exact congrArg Multiset.ofList hunfinished.symm
  · exact (congrArg (fun g => fun x => V.heldBy (g x)) hclients).symm
  · exact (congrArg (fun g => fun x => V.completedBy (g x)) hclients).symm
  · rfl
  · exact congrArg Multiset.ofList hsent.symm
  · exact congrArg Multiset.ofList hdone.symm
  · exact hcount.symm

/-- A step that discards the answer of a dropped worker. -/
theorem View.discard {keeps : Bool} {k : Nat} {ip : Str} {c : Call Sh} {j : J}
    (hcall : s.calls[k]? = some c) (hjob : V.job c = some (ip, j))
    (hcalls : t.calls = s.calls.eraseIdx k) (hclient : s.master.ipAddr2worker ip = none)
    (hclients : t.master.ipAddr2worker = s.master.ipAddr2worker) (hdone : V.done t = V.done s)
    (hpending : V.pending t = V.pending s := by rfl) (hjobs : V.jobs t = V.jobs s := by rfl)
    (hunfinished : V.unfinished t.master = V.unfinished s.master := by rfl)
    (hsent : V.sent t = V.sent s := by rfl)
    (hcount : V.count t.master = V.count s.master := by rfl) :
    (V.pool s).next keeps (.discard ip j) = some (V.pool t) := by
  obtain ⟨hmem, herase⟩ := View.calls_pool hcall hjob hcalls
  have hdead : ¬ (V.pool s).Live ip := fun hlive => by simpa [hclient] using View.live_iff.mp hlive
  simp only [Pool.next]
  rw [if_pos ⟨hdead, hmem⟩, herase]
  exact congrArg some (View.pool_of_consumed hclients hdone hcount hpending hjobs hunfinished hsent)

/-- A step that consumes an error. -/
theorem View.error {keeps : Bool} {k : Nat} {ip : Str} {c : Call Sh} {j : J}
    (hcall : s.calls[k]? = some c) (hjob : V.job c = some (ip, j))
    (hcalls : t.calls = s.calls.eraseIdx k)
    (hclients : t.master.ipAddr2worker = s.master.ipAddr2worker) (hdone : V.done t = V.done s)
    (hcount : V.count t.master = V.count s.master - 1)
    (hpending : V.pending t = V.pending s := by rfl) (hjobs : V.jobs t = V.jobs s := by rfl)
    (hunfinished : V.unfinished t.master = V.unfinished s.master := by rfl)
    (hsent : V.sent t = V.sent s := by rfl) :
    (V.pool s).next keeps (.error ip j) = some (V.pool t) := by
  obtain ⟨hmem, herase⟩ := View.calls_pool hcall hjob hcalls
  simp only [Pool.next]
  rw [if_pos hmem, herase]
  exact congrArg some (View.pool_of_consumed hclients hdone hcount hpending hjobs hunfinished hsent)

/-- A step that drops a worker. -/
theorem View.drop {keeps : Bool} {ip : Str} {client : WorkerClient Sh}
    (hclient : s.master.ipAddr2worker ip = some client)
    (hclients : t.master.ipAddr2worker = Function.update s.master.ipAddr2worker ip none)
    (hunfinished : V.unfinished t.master = V.unfinished s.master ++ V.held client)
    (hcount : V.count t.master = V.count s.master - V.completed client)
    (hpending : V.pending t = V.pending s := by rfl) (hjobs : V.jobs t = V.jobs s := by rfl)
    (hcalls : t.calls = s.calls := by rfl) (hsent : V.sent t = V.sent s := by rfl)
    (hdone : V.done t = V.done s := by rfl) :
    (V.pool s).next keeps (.drop ip) = some (V.pool t) := by
  have hlive : (V.pool s).Live ip := View.live_iff.mpr (by simp [hclient])
  simp only [Pool.next]
  rw [if_pos hlive, View.heldBy_pool hclient, View.completed_pool hclient]
  congr 1
  ext1
  · exact congrArg Multiset.ofList hjobs.symm
  · exact congrArg Multiset.ofList hpending.symm
  · exact ((congrArg Multiset.ofList hunfinished).trans (Multiset.coe_add _ _).symm).symm
  · exact ((congrArg (fun g => fun x => V.heldBy (g x)) hclients).trans (comp_update _ V.heldBy ip _)).symm
  · exact ((congrArg (fun g => fun x => V.completedBy (g x)) hclients).trans
      (comp_update _ V.completedBy ip _)).symm
  · exact congrArg (fun l => ((l.filterMap V.job : List (Str × J)) : Multiset (Str × J))) hcalls.symm
  · exact congrArg Multiset.ofList hsent.symm
  · exact congrArg Multiset.ofList hdone.symm
  · exact hcount.symm

end AdvancedOS.MapReduce
