import AdvancedOS.MapReduce.Roster

/-!
# Between the pop and the send

`run` pops a worker under the lock, and looks its client up and sends the job after it has let go of the
lock. `dispatcher spec` is `system spec` with the lookup as a step of its own, so that another
thread may come between the pop and the lookup, and between the lookup and the send.
`dispatchRefinement` forgets the lookup.

* `dispatch_safe`: a job is sent with a client that exists, and that is still in `ip_addr2worker`, if the worker
  is not dropped between its pop and its send; the client then has every shard on record that it
  was sent. Partitions are never recorded.
* `dispatch_unsafe`: runs in which a worker is dropped before the lookup and after it, and one in which a partition
  is not recorded.
-/

namespace AdvancedOS.MapReduce

open Lts

/-- The process, and what the lookup of the dispatch under way has found: `none` before the lookup,
`some false` a null pointer, `some true` a client. -/
structure Dispatcher (Sh : Type) where
  state : State Sh
  client : Option Bool

variable {Sh : Type} {spec : Spec Sh} {s t : State Sh} {d e : Dispatcher Sh} {a : Action} {ip : Str}

/-- A send uses the client that was looked up. If it is not in `ip_addr2worker` any more, there is none, and the
step of the process aborts. -/
def Dispatcher.next (a : Action) (d : Dispatcher Sh) : Option (Dispatcher Sh) :=
  match a with
  | .run order =>
    match d.state.run, d.client with
    | .send _ _ ip, none =>
      if d.state.aborted then none
      else some { d with client := some (d.state.master.ipAddr2worker ip).isSome }
    | _, _ => (d.state.next (.run order)).map fun t => ⟨t, none⟩
  | a => (d.state.next a).map fun t => ⟨t, d.client⟩

def dispatcher (spec : Spec Sh) : System (Dispatcher Sh) Action where
  init := ⟨(system spec).init, none⟩
  next := Dispatcher.next

/-- A step of the dispatcher is a step of the process, or the lookup. -/
theorem dispatcher_cases (h : d.next a = some e) :
    (d.state.next a = some e.state ∧ (e.client = d.client ∧ (∀ o, a ≠ .run o) ∨ e.client = none)) ∨
    (e.state = d.state ∧ d.client = none ∧ (∃ o, a = .run o) ∧ ∃ ph i ip, d.state.run = .send ph i ip ∧
      e.client = some (d.state.master.ipAddr2worker ip).isSome) := by
  unfold Dispatcher.next at h
  split at h
  · next order =>
    split at h
    · next ph i ip hrun hclient =>
      obtain ⟨-, rfl⟩ := Option.ite_none_left_eq_some.mp h |>.imp_right Option.some.inj
      exact .inr ⟨rfl, hclient, ⟨order, rfl⟩, ph, i, ip, hrun, rfl⟩
    · obtain ⟨t, ht, rfl⟩ := Option.map_eq_some_iff.mp h
      exact .inl ⟨ht, .inr rfl⟩
  · next hne =>
    obtain ⟨t, ht, rfl⟩ := Option.map_eq_some_iff.mp h
    exact .inl ⟨ht, .inl ⟨rfl, fun o ho => hne o ho⟩⟩

def dispatchRefinement (spec : Spec Sh) (ok : Action → Dispatcher Sh → Prop) :
    Refinement (dispatcher spec) ok (system spec) fun _ _ => True where
  abs := Dispatcher.state
  init := rfl
  step {_ _ a} _ _ h := by
    rcases dispatcher_cases h with ⟨hnext, -⟩ | ⟨hsame, -⟩
    · exact .inr ⟨a, trivial, hnext⟩
    · exact .inl hsame

/-! ## What is on record -/

/-- The jobs that were sent to one worker. -/
def sentTo {β : Type} (ip : Str) (sent : List (Str × β)) : List β := (sent.filter fun x => x.1 = ip).map Prod.snd

def State.shardsSentTo (s : State Sh) (ip : Str) : List Sh := sentTo ip s.mapSent

def State.partitionsSentTo (s : State Sh) (ip : Str) : List Int := (sentTo ip s.reduceSent).map Prod.fst

/-- Every client has the shards on record that its worker was sent. -/
def State.Recorded (s : State Sh) : Prop :=
  ∀ ip client, s.master.ipAddr2worker ip = some client → client.mapShards = s.shardsSentTo ip

/-- A client is replaced by another one. -/
theorem recorded_update {client' : WorkerClient Sh} (h : s.Recorded)
    (hclients : t.master.ipAddr2worker = Function.update s.master.ipAddr2worker ip (some client'))
    (hip : client'.mapShards = t.shardsSentTo ip)
    (hother : ∀ x ≠ ip, t.shardsSentTo x = s.shardsSentTo x) : t.Recorded := by
  intro x c hx
  rw [hclients] at hx
  by_cases hne : x = ip
  · subst hne
    rw [Function.update_self] at hx
    obtain rfl := Option.some.inj hx
    exact hip
  · rw [Function.update_of_ne hne] at hx
    rw [hother x hne]
    exact h x c hx

theorem recorded_remove (h : s.Recorded) (hsent : t.mapSent = s.mapSent)
    (hclients : t.master.ipAddr2worker = Function.update s.master.ipAddr2worker ip none) : t.Recorded := by
  intro x c hx
  rw [hclients] at hx
  obtain ⟨hne, -⟩ := isSome_update_none (Option.isSome_iff_exists.mpr ⟨c, hx⟩)
  rw [Function.update_of_ne hne] at hx
  rw [State.shardsSentTo, hsent]
  exact h x c hx

theorem recorded_move (h : s.Recorded) (hmove : Move s a t) : t.Recorded := by
  cases hmove with
  | @sendMap _ i ip client shard _ hclient _ =>
    refine recorded_update h rfl ?_ fun x hx => ?_
    · have hsent := h ip client hclient
      simp [State.sendMapperJob, State.shardsSentTo, sentTo, hsent]
    · simp [State.sendMapperJob, State.shardsSentTo, sentTo, Ne.symm hx]
  | @acceptMap k ip client shard _ _ _ hclient =>
    exact recorded_update h rfl (h ip client hclient) fun _ _ => rfl
  | @acceptReduce k ip client partition files _ _ _ hclient =>
    exact recorded_update h rfl (h ip client hclient) fun _ _ => rfl
  | dropMap _ _ _ _ _ | dropReduce _ _ _ _ _ => exact recorded_remove h rfl rfl
  | _ => exact h

theorem recorded_reach {ok : Action → State Sh → Prop} (h : ReachVia (system spec) ok s) : s.Recorded := by
  refine h.invariant (I := State.Recorded) ?_ fun _ hi _ hs => recorded_move hi (move_of_next hs)
  intro ip client hclient
  simp only [system, Master.new, Option.ite_none_right_eq_some, Option.some.injEq] at hclient
  rw [← hclient.2]
  rfl

/-! ## The client of a dispatch -/

/-- The worker of a dispatch is not dropped between its pop and its send. -/
def KeepsPopped (a : Action) (d : Dispatcher Sh) : Prop :=
  match a with
  | .pong k false => ∀ ip ∈ d.state.run.popped, d.state.pings[k]? ≠ some ip
  | _ => True

instance (a : Action) (d : Dispatcher Sh) : Decidable (KeepsPopped a d) :=
  match a with
  | .pong k false => inferInstanceAs (Decidable (∀ ip ∈ d.state.run.popped, d.state.pings[k]? ≠ some ip))
  | .pong _ true | .run _ | .mkdirFails | .poll _ | .resume | .monitor | .respond _ _ => .isTrue trivial

structure Dispatching (d : Dispatcher Sh) : Prop where
  live : ∀ ip ∈ d.state.run.popped, d.state.Live ip
  found : ∀ found ∈ d.client, found = true

theorem live_remove {x : Str} (hclients : t.master.ipAddr2worker = Function.update s.master.ipAddr2worker ip none)
    (hne : x ≠ ip) : t.Live x ↔ s.Live x := by
  rw [State.Live, hclients, Function.update_of_ne hne, State.Live]

theorem popped_live_move (hg : Grounded spec s) (hr : Roster spec s)
    (hok : ∀ k, a = .pong k false → ∀ ip ∈ s.run.popped, s.pings[k]? ≠ some ip) (hmove : Move s a t)
    (h : ∀ ip ∈ s.run.popped, s.Live ip) : ∀ ip ∈ t.run.popped, t.Live ip := by
  intro x hx
  cases hmove with
  | abort | resume _ _ | monitor _ | pong _ _ _ | late _ _ _ _ _ | respond _ | rejoin _ _ _ _ => exact h x hx
  | discard _ _ _ | errorMap _ _ | errorReduce _ _ => exact h x hx
  | @pop _ ph i ip rest hrun _ hqueue =>
    by_cases hdropped : ip ∈ s.master.droppedWorkerIps
    · simp [State.pop, hdropped, RunPc.popped] at hx
    · -- a worker that is not in `dropped_worker_ips` has a client
      obtain rfl : ip = x := by simpa [State.pop, hdropped, RunPc.popped] using hx
      have hip := hr.queued ip (by rw [hqueue]; exact List.mem_cons_self)
      exact (live_iff_notMem_dropped hg hip).mpr hdropped
  | acceptMap _ _ _ hclient | acceptReduce _ _ _ hclient => exact (live_update hclient rfl).mpr (h x hx)
  | @dropMap k i ip client _ hping _ _ _ =>
    have hne : x ≠ ip := fun heq => hok k rfl x hx (heq ▸ hping)
    exact (live_remove rfl hne).mpr (h x hx)
  | @dropReduce k i ip client _ hping _ _ _ =>
    have hne : x ≠ ip := fun heq => hok k rfl x hx (heq ▸ hping)
    exact (live_remove rfl hne).mpr (h x hx)
  | _ => cases hx

theorem dispatching_step (hr : Reach (system spec) d.state) (hok : KeepsPopped a d) (h : Dispatching d)
    (hnext : d.next a = some e) : Dispatching e := by
  rcases dispatcher_cases hnext with ⟨hstep, hclient⟩ | ⟨hsame, -, -, ph, i, ip, hrun, hfound⟩
  · refine ⟨?_, fun found hf => ?_⟩
    · refine popped_live_move (grounded_reach hr) (roster_reach hr) ?_ (move_of_next hstep) h.live
      rintro k rfl
      exact hok
    · rcases hclient with ⟨hclient, -⟩ | hclient
      · exact h.found found (hclient ▸ hf)
      · rw [hclient] at hf
        cases hf
  · have hlive := h.live ip (by rw [hrun]; rfl)
    refine ⟨by rw [hsame]; exact h.live, fun found hf => ?_⟩
    rw [hfound] at hf
    exact (Option.some.inj hf).symm.trans hlive

theorem dispatching_reach (h : ReachVia (dispatcher spec) KeepsPopped d) : Dispatching d := by
  refine h.invariant (I := Dispatching) ⟨fun ip hip => ?_, fun found hf => ?_⟩ fun hr hi hok hnext => ?_
  · cases hip
  · cases hf
  · exact dispatching_step ((dispatchRefinement spec _).reach hr) hok hi hnext

theorem dead_of_failed_ping {k : Nat} (hlive : s.Live ip) (hping : s.pings[k]? = some ip)
    (h : s.next (.pong k false) = some t) : t.run = s.run ∧ ¬ t.Live ip := by
  obtain ⟨i, x, -, hx, -, hstep⟩ := failed_ping h
  obtain rfl := Option.some.inj (hping.symm.trans hx)
  obtain ⟨client, hclient⟩ := Option.isSome_iff_exists.mp hlive
  rw [handleWorkerFailure_of_client hclient] at hstep
  rcases hstep with ⟨hnone, -⟩ | ⟨m, removed, hsome, rfl⟩
  · cases hnone
  · split at hsome <;> cases hsome <;> exact ⟨rfl, fun hdead => (isSome_update_none hdead).1 rfl⟩

theorem not_live_of_dropped (h : Dispatching d) (hok : ¬ KeepsPopped a d) (hnext : d.next a = some e) :
    ∃ ph i ip, e.state.run = .send ph i ip ∧ ¬ e.state.Live ip := by
  have hpong : ∃ k, a = .pong k false ∧ ∃ ip ∈ d.state.run.popped, d.state.pings[k]? = some ip := by
    unfold KeepsPopped at hok
    split at hok
    · next k =>
      simp only [not_forall, not_not, exists_prop] at hok
      exact ⟨k, rfl, hok⟩
    · exact absurd trivial hok
  obtain ⟨k, rfl, ip, hip, hping⟩ := hpong
  rcases dispatcher_cases hnext with ⟨hstep, -⟩ | ⟨-, -, ⟨o, ho⟩, -⟩
  · obtain ⟨hrun, hdead⟩ := dead_of_failed_ping (h.live ip hip) hping hstep
    have hsend : ∃ ph i, d.state.run = .send ph i ip := by
      unfold RunPc.popped at hip
      split at hip
      · next ph i x hsend => exact ⟨ph, i, Option.some.inj hip ▸ hsend⟩
      · cases hip
    obtain ⟨ph, i, hsend⟩ := hsend
    exact ⟨ph, i, ip, hrun.trans hsend, hdead⟩
  · cases ho

/-- If no worker is dropped between its pop and its send: whenever `run` sends a job, it has found a client, which
is still there. Every client has all shards on record that it was sent, and all partitions
exactly if it was sent none. A worker that is dropped between its pop and its send has no client
when the job is sent. -/
theorem dispatch_safe (h : ReachVia (dispatcher spec) KeepsPopped d) :
    (∀ ph i ip found, d.state.run = .send ph i ip → d.client = some found → found = true ∧ d.state.Live ip) ∧
    (∀ ip client, d.state.master.ipAddr2worker ip = some client →
      client.mapShards = d.state.shardsSentTo ip ∧
      (client.reducePartitions = d.state.partitionsSentTo ip ↔ d.state.partitionsSentTo ip = [])) ∧
    (∀ a e, d.next a = some e → ¬ KeepsPopped a d →
      ∃ ph i ip, e.state.run = .send ph i ip ∧ ¬ e.state.Live ip) := by
  have hd := dispatching_reach h
  have hr := (dispatchRefinement spec _).reach h
  refine ⟨fun ph i ip found hrun hclient => ⟨hd.found found hclient, ?_⟩, fun ip client hclient => ⟨?_, ?_⟩,
    fun a e hnext hok => not_live_of_dropped hd hok hnext⟩
  · exact hd.live ip (by rw [hrun]; rfl)
  · exact recorded_reach hr ip client hclient
  · rw [(grounded_reach hr).unrecorded ip client hclient]
    exact eq_comm

/-- Worker 1 gets a shard, and another worker is dropped while that happens. -/
theorem dispatch_safe_of_other : ∃ d : Dispatcher Nat, d.state.Live [1] ∧ ¬ d.state.Live [2] ∧
    ∃ client, d.state.master.ipAddr2worker [1] = some client ∧ client.mapShards = [0] := by
  obtain ⟨d, hd, hlive, hdead, hsent⟩ :
      ∃ d ∈ execVia (dispatcher (smallSpec 1 [0])) KeepsPopped
        (startUp 2 ++ List.replicate 3 Action.monitor ++ [Action.run [], .pong 1 false, .run [], .run []])
        (dispatcher (smallSpec 1 [0])).init,
      d.state.Live [1] ∧ ¬ d.state.Live [2] ∧ d.state.shardsSentTo [1] = [0] := by
    decide +kernel
  obtain ⟨client, hclient⟩ := Option.isSome_iff_exists.mp hlive
  have hrecorded := ((dispatch_safe (reachVia_execVia _ .init hd)).2.1 [1] client hclient).1
  exact ⟨d, hlive, hdead, client, hclient, hrecorded.trans hsent⟩

/-- Worker 1 is dropped before its client is looked up; it is dropped after that; and worker 2 is sent a partition
that its client does not have on record. -/
theorem dispatch_unsafe :
    (∃ d : Dispatcher Nat, Reach (dispatcher (smallSpec 1 [0])) d ∧
      d.state.run = .send .map 0 [1] ∧ d.client = some false) ∧
    (∃ d : Dispatcher Nat, Reach (dispatcher (smallSpec 1 [0])) d ∧
      d.state.run = .send .map 0 [1] ∧ d.client = some true ∧ ¬ d.state.Live [1]) ∧
    (∃ d : Dispatcher Nat, Reach (dispatcher (smallSpec 1 [0])) d ∧ d.state.Live [2] ∧
      d.state.partitionsSentTo [2] = [0] ∧
      (d.state.master.ipAddr2worker [2]).map WorkerClient.reducePartitions = some []) := by
  refine ⟨?_, ?_, ?_⟩
  · obtain ⟨d, hd, hnull⟩ :
        ∃ d ∈ exec (dispatcher (smallSpec 1 [0]))
          (startUp 2 ++ List.replicate 3 Action.monitor ++ [Action.run [], .pong 0 false, .run []])
          (dispatcher (smallSpec 1 [0])).init,
        d.state.run = .send .map 0 [1] ∧ d.client = some false := by
      decide +kernel
    exact ⟨d, reach_exec _ .init hd, hnull⟩
  · obtain ⟨d, hd, herased⟩ :
        ∃ d ∈ exec (dispatcher (smallSpec 1 [0]))
          (startUp 2 ++ List.replicate 3 Action.monitor ++ [Action.run [], .run [], .pong 0 false])
          (dispatcher (smallSpec 1 [0])).init,
        d.state.run = .send .map 0 [1] ∧ d.client = some true ∧ ¬ d.state.Live [1] := by
      decide +kernel
    exact ⟨d, reach_exec _ .init hd, herased⟩
  · obtain ⟨d, hd, hsent⟩ :
        ∃ d ∈ exec (dispatcher (smallSpec 1 [0]))
          (startUp 2 ++ List.replicate 5 (Action.run []) ++ [Action.respond 0 true, .poll 0, .run [], .run [],
            .monitor, .run [], .run [], .run [], .resume, .run [0], .run [], .run [], .run []])
          (dispatcher (smallSpec 1 [0])).init,
        d.state.Live [2] ∧ d.state.partitionsSentTo [2] = [0] ∧
          (d.state.master.ipAddr2worker [2]).map WorkerClient.reducePartitions = some [] := by
      decide +kernel
    exact ⟨d, reach_exec _ .init hd, hsent⟩

end AdvancedOS.MapReduce
