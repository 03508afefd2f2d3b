import AdvancedOS.MapReduce.Grounded

/-!
# The workers of the master

Which workers the master knows, in every run: all of them come from the specification, a worker is
dropped at most once, and `num_workers` is the length of `worker_ips`. Every worker in `worker_ips` has
a client if the specification does not list a worker twice.
-/

namespace AdvancedOS.MapReduce

open Lts

variable {Sh : Type} {spec : Spec Sh} {s t : State Sh} {a : Action}

/-- The worker that `run` has popped and not yet sent its job. -/
def RunPc.popped : RunPc → Option Str
  | .send _ _ ip => some ip
  | _ => none

structure Roster (spec : Spec Sh) (s : State Sh) : Prop where
  listed : ∀ ip ∈ s.master.workerIps, ip ∈ spec.workers
  queued : ∀ ip ∈ s.master.readyQueue, ip ∈ spec.workers
  popped : ∀ ip ∈ s.run.popped, ip ∈ spec.workers
  numWorkers : s.master.numWorkers = s.master.workerIps.length
  total : s.master.workerIps.length + s.master.droppedWorkerIps.length = spec.workers.length
  droppedOnce : s.master.droppedWorkerIps.Nodup
  distinct : spec.workers.Nodup → s.master.workerIps.Nodup
  present : spec.workers.Nodup → ∀ ip ∈ s.master.workerIps, s.Live ip

theorem roster_init (spec : Spec Sh) : Roster spec (system spec).init where
  listed ip hip := hip
  queued ip hip := hip
  popped ip hip := by cases hip
  numWorkers := rfl
  total := rfl
  droppedOnce := List.nodup_nil
  distinct h := h
  present _ ip hip := by
    have hclient : (Master.new spec).ipAddr2worker ip = some .new := if_pos hip
    exact Option.isSome_iff_exists.mpr ⟨_, hclient⟩

/-- A client that is replaced by another one of the same worker. -/
theorem live_update {ip x : Str} {client client' : WorkerClient Sh}
    (hclient : s.master.ipAddr2worker ip = some client)
    (hclients : t.master.ipAddr2worker = Function.update s.master.ipAddr2worker ip (some client')) :
    t.Live x ↔ s.Live x := by
  rw [State.Live, hclients, isSome_update hclient, State.Live]

/-- A worker that is dropped. -/
theorem Roster.remove (h : Roster spec s) (hg : Grounded spec s) {ip : Str} (hlive : s.Live ip)
    (hrun : t.run = s.run) (hqueue : t.master.readyQueue = s.master.readyQueue)
    (hnum : t.master.numWorkers = s.master.numWorkers - 1)
    (hclients : t.master.ipAddr2worker = Function.update s.master.ipAddr2worker ip none)
    (hips : t.master.workerIps = s.master.workerIps.erase ip)
    (hdropped : t.master.droppedWorkerIps = s.master.droppedWorkerIps ++ [ip]) : Roster spec t := by
  have hmem := hg.inPool ip hlive
  have hlength := List.length_erase_of_mem hmem
  have hpos := List.length_pos_of_mem hmem
  have hnum' := h.numWorkers
  have htotal := h.total
  exact {
    listed := fun x hx => h.listed x (List.mem_of_mem_erase (hips ▸ hx))
    queued := by rw [hqueue]; exact h.queued
    popped := by rw [hrun]; exact h.popped
    numWorkers := by rw [hnum, hips]; omega
    total := by
      rw [hips, hdropped, List.length_append, List.length_singleton]
      omega
    droppedOnce := by
      rw [hdropped]
      exact List.nodup_append_comm.mp (List.nodup_cons.mpr ⟨hg.notDropped ip hlive, h.droppedOnce⟩)
    distinct := fun hnodup => by rw [hips]; exact (h.distinct hnodup).erase ip
    present := fun hnodup x hx => by
      rw [hips] at hx
      -- the other occurrences of the address would have lost their client
      obtain ⟨hne, hx⟩ := (List.Nodup.mem_erase_iff (h.distinct hnodup)).mp hx
      rw [State.Live, hclients, Function.update_of_ne hne]
      exact h.present hnodup x hx }

theorem roster_move (h : Roster spec s) (hg : Grounded spec s) (hmove : Move s a t) : Roster spec t := by
  have hjoin : ∀ ip ∈ s.master.workerIps, ∀ x ∈ s.master.readyQueue ++ [ip], x ∈ spec.workers := by
    intro ip hip x hx
    rcases List.mem_append.mp hx with hx | hx
    · exact h.queued x hx
    · exact List.mem_singleton.mp hx ▸ h.listed ip hip
  cases hmove with
  | abort | resume _ _ | monitor _ | pong _ _ _ | late _ _ _ _ _ | respond _ => exact { h with }
  | discard _ _ _ | errorMap _ _ | errorReduce _ _ => exact { h with }
  | @pop _ ph i ip rest hrun _ hqueue =>
    have hall := h.queued
    rw [hqueue, List.forall_mem_cons] at hall
    refine { h with queued := hall.2, popped := fun x hx => ?_ }
    rw [State.pop] at hx
    split at hx
    · cases hx
    · cases hx
      exact hall.1
  | @sendMap _ i ip client shard _ hclient _ =>
    exact { h with
      popped := fun x hx => by cases hx
      present := fun hnodup x hx => (live_update hclient rfl).mpr (h.present hnodup x hx) }
  | @acceptMap k ip client shard _ _ hip hclient =>
    exact { h with
      queued := hjoin ip hip
      present := fun hnodup x hx => (live_update hclient rfl).mpr (h.present hnodup x hx) }
  | @acceptReduce k ip client partition files _ _ hip hclient =>
    exact { h with
      queued := hjoin ip hip
      present := fun hnodup x hx => (live_update hclient rfl).mpr (h.present hnodup x hx) }
  | @rejoin k ip job _ _ hip _ => exact { h with queued := hjoin ip hip }
  | dropMap _ _ _ _ hclient =>
    exact h.remove hg (Option.isSome_iff_exists.mpr ⟨_, hclient⟩) rfl rfl rfl rfl rfl rfl
  | dropReduce _ _ _ _ hclient =>
    exact h.remove hg (Option.isSome_iff_exists.mpr ⟨_, hclient⟩) rfl rfl rfl rfl rfl rfl
  | _ => exact { h with popped := fun x hx => by cases hx }

theorem roster_reach {ok : Action → State Sh → Prop} (h : ReachVia (system spec) ok s) :
    Roster spec s :=
  h.invariant (roster_init spec) fun hr hi _ hs => roster_move hi (grounded_reach hr) (move_of_next hs)

theorem Roster.mem_of_live (h : Roster spec s) (hg : Grounded spec s) {ip : Str} (hlive : s.Live ip) :
    ip ∈ spec.workers :=
  h.listed ip (hg.inPool ip hlive)

end AdvancedOS.MapReduce
