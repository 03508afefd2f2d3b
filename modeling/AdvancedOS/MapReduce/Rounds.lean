import AdvancedOS.MapReduce.Roster

/-!
# Rounds of the monitor

A round of `monitor` sends a ping to every worker in `worker_ips`, and then receives as long as it has
received less than `num_workers`, which `handle_worker_failure` makes less.

* `rounds_collect`: if a ping only fails as the last one of its round, every round receives all its pings
  and `handle_worker_failure` is called at most once for a worker. After any other failure the queue
  is never empty again (`leftover_forever`).
* `drop_idempotent`: for a worker that has been dropped `handle_worker_failure` does nothing in the map phase,
  and uses a null client in the reduce phase. `num_workers` is right in any case.
* `ping_left`, `dropped_twice`: runs in which this happens.
-/

namespace AdvancedOS.MapReduce

open Lts

variable {Sh : Type} {spec : Spec Sh} {s t : State Sh} {a : Action} {as : List Action} {ip : Str}

/-! ## The loop over the pongs -/

/-- A ping that fails is the last one that has not been received. -/
def FailsLast (a : Action) (s : State Sh) : Prop :=
  match a with
  | .pong _ false => s.pings.length = 1
  | _ => True

instance (a : Action) (s : State Sh) : Decidable (FailsLast a s) :=
  match a with
  | .pong _ false => inferInstanceAs (Decidable (_ = _))
  | .pong _ true | .run _ | .mkdirFails | .poll _ | .resume | .monitor | .respond _ _ => .isTrue trivial

/-- `monitor` calls `handle_worker_failure` for `ip`. -/
def Fails (ip : Str) (a : Action) (s : State Sh) : Prop :=
  match a with
  | .pong k false => s.pings[k]? = some ip
  | _ => False

instance (ip : Str) (a : Action) (s : State Sh) : Decidable (Fails ip a s) :=
  match a with
  | .pong _ false => inferInstanceAs (Decidable (_ = _))
  | .pong _ true | .run _ | .mkdirFails | .poll _ | .resume | .monitor | .respond _ _ => .isFalse id

/-- As many pongs are left to receive as there are pings out. -/
structure Round (s : State Sh) : Prop where
  idle : (∀ i, s.monitor ≠ .recv i) → s.pings = []
  due : ∀ i, s.monitor = .recv i → s.pings = [] ∨ (i : Int) + s.pings.length = s.master.numWorkers
  pinged : ∀ ip ∈ s.pings, s.Live ip

theorem round_of_none (h : s.pings = []) : Round s :=
  ⟨fun _ => h, fun _ _ => .inl h, fun _ hx => absurd (h ▸ hx) List.not_mem_nil⟩

theorem round_monitorStep (h : Round s) (hr : Roster spec s) (hstep : s.monitorStep = some t) : Round t := by
  have hidle : ∀ pc, s.monitor = pc → (∀ i, pc ≠ .recv i) → s.pings = [] :=
    fun pc hmonitor hpc => h.idle (hmonitor ▸ hpc)
  unfold State.monitorStep at hstep
  split at hstep
  · next hmonitor => cases hstep; exact round_of_none (hidle _ hmonitor (by simp))
  · next hmonitor =>
    have hnone := hidle _ hmonitor (by simp)
    split at hstep
    · cases hstep; exact round_of_none hnone
    · split at hstep
      · next hlive =>
        -- a round begins
        cases hstep
        refine ⟨fun hno => absurd rfl (hno 0), fun i hi => .inr ?_, fun x hx => ?_⟩
        · cases hi
          simp only [hnone, List.nil_append, hr.numWorkers]
          omega
        · simp only [hnone, List.nil_append] at hx
          exact hlive x hx
      · cases hstep; exact round_of_none hnone
  · next i hmonitor =>
    split at hstep
    · cases hstep
    · next hge =>
      -- the round is over
      cases hstep
      refine round_of_none ?_
      rcases h.due i hmonitor with hnone | hdue
      · exact hnone
      · exact List.length_eq_zero_iff.mp (by simp only; omega)
  · next hmonitor => cases hstep; exact round_of_none (hidle _ hmonitor (by simp))
  · next hmonitor => cases hstep; exact round_of_none (hidle _ hmonitor (by simp))
  · next hmonitor => cases hstep; exact round_of_none (hidle _ hmonitor (by simp))
  · next hmonitor => cases hstep; exact round_of_none (hidle _ hmonitor (by simp))
  · cases hstep

/-- The receipt of one pong, whose worker stays. -/
theorem round_receive {k i : Nat} (h : Round s) (hmonitor : s.monitor = .recv i) (hping : s.pings[k]? = some ip)
    (hmonitor' : t.monitor = .recv (i + 1)) (hpings : t.pings = s.pings.eraseIdx k)
    (hmaster : t.master = s.master) : Round t := by
  obtain ⟨hk, -⟩ := List.getElem?_eq_some_iff.mp hping
  have hlength := List.length_eraseIdx_of_lt hk
  refine ⟨fun hno => absurd hmonitor' (hno _), fun j hj => .inr ?_, fun x hx => ?_⟩
  · rw [hmonitor'] at hj
    obtain rfl : i + 1 = j := by injection hj
    rcases h.due i hmonitor with hnone | hdue
    · rw [hnone] at hk
      cases hk
    · rw [hpings, hmaster, hlength]
      omega
  · rw [State.Live, hmaster]
    exact h.pinged x (List.mem_of_mem_eraseIdx (hpings ▸ hx))

/-- The receipt of the last pong. -/
theorem round_last {k : Nat} (hlast : s.pings.length = 1) (hping : s.pings[k]? = some ip)
    (hpings : t.pings = s.pings.eraseIdx k) : Round t := by
  obtain ⟨hk, -⟩ := List.getElem?_eq_some_iff.mp hping
  have hlength := List.length_eraseIdx_of_lt hk
  refine round_of_none (List.length_eq_zero_iff.mp ?_)
  rw [hpings]
  omega

theorem round_move (h : Round s) (hr : Roster spec s) (hok : FailsLast a s) (hmove : Move s a t) : Round t := by
  cases hmove with
  | monitor hstep => exact round_monitorStep h hr hstep
  | @sendMap _ i ip client shard _ hclient _ =>
    exact { h with pinged := fun x hx => (live_update hclient rfl).mpr (h.pinged x hx) }
  | acceptMap _ _ _ hclient | acceptReduce _ _ _ hclient =>
    exact { h with pinged := fun x hx => (live_update hclient rfl).mpr (h.pinged x hx) }
  | pong hmonitor hping _ | late hmonitor hping _ _ _ => exact round_receive h hmonitor hping rfl rfl rfl
  | dropMap _ hping _ _ _ | dropReduce _ hping _ _ _ => exact round_last hok hping rfl
  | _ => exact { h with }

theorem round_reach (h : ReachVia (system spec) FailsLast s) : Round s :=
  h.invariant (round_of_none rfl) fun hr hi hok hs => round_move hi (roster_reach hr) hok (move_of_next hs)

/-! ## The calls of `handle_worker_failure` -/

/-- A failed ping of a worker that has a client. -/
theorem failed_pong {k : Nat} (hlive : ∀ ip ∈ s.pings, s.Live ip) (h : s.next (.pong k false) = some t) :
    ∃ i ip, s.monitor = .recv i ∧ s.pings[k]? = some ip ∧ (i : Int) < s.master.numWorkers ∧
      t.monitor = .recv (i + 1) ∧ t.pings = s.pings.eraseIdx k ∧
      t.master.numWorkers = s.master.numWorkers - 1 ∧
      t.master.droppedWorkerIps = s.master.droppedWorkerIps ++ [ip] := by
  obtain ⟨i, ip, hmonitor, hping, hlt, hstep⟩ := failed_ping h
  obtain ⟨client, hclient⟩ := Option.isSome_iff_exists.mp (hlive ip (List.mem_of_getElem? hping))
  rw [handleWorkerFailure_of_client hclient] at hstep
  refine ⟨i, ip, hmonitor, hping, hlt, ?_⟩
  rcases hstep with ⟨hnone, -⟩ | ⟨m, removed, hsome, rfl⟩
  · cases hnone
  · split at hsome <;> cases hsome <;> exact ⟨rfl, rfl, rfl, rfl⟩

theorem not_fails (hne : ∀ k, a ≠ .pong k false) : ¬ Fails ip a s := by
  unfold Fails
  split
  · next k => exact absurd rfl (hne k)
  · exact id

/-- The calls for a worker are counted by its occurrences in `dropped_worker_ips`. -/
theorem dropped_count (hd : Round s) (h : s.next a = some t) :
    t.master.droppedWorkerIps.count ip =
      s.master.droppedWorkerIps.count ip + if Fails ip a s then 1 else 0 := by
  by_cases hpong : ∃ k, a = .pong k false
  · obtain ⟨k, rfl⟩ := hpong
    obtain ⟨i, x, -, hping, -, -, -, -, hdropped⟩ := failed_pong hd.pinged h
    simp only [hdropped, List.count_append, List.count_singleton, Fails, hping, Option.some.injEq, beq_iff_eq]
  · have hne : ∀ k, a ≠ .pong k false := fun k hk => hpong ⟨k, hk⟩
    rw [if_neg (not_fails hne), Nat.add_zero]
    cases move_of_next h with
    | late _ _ _ _ _ | dropMap _ _ _ _ _ | dropReduce _ _ _ _ _ => exact absurd rfl (hne _)
    | _ => rfl

/-! ## A ping that is left over -/

/-- More pings are out than will be received. -/
structure Lagging (s : State Sh) : Prop where
  left : s.pings ≠ []
  short : ∀ i, s.monitor = .recv i → s.master.numWorkers < i + s.pings.length

theorem lagging_monitorStep (h : Lagging s) (hr : Roster spec s) (hstep : s.monitorStep = some t) : Lagging t := by
  unfold State.monitorStep at hstep
  split at hstep
  · cases hstep; exact ⟨h.left, fun i hi => by cases hi⟩
  · split at hstep
    · cases hstep; exact ⟨h.left, fun i hi => by cases hi⟩
    · split at hstep
      · -- the next round begins with the pings that were left
        cases hstep
        have hpos := List.length_pos_of_ne_nil h.left
        refine ⟨List.append_ne_nil_of_left_ne_nil h.left _, fun i hi => ?_⟩
        cases hi
        simp only [List.length_append, hr.numWorkers]
        omega
      · cases hstep; exact { h with }
  · split at hstep
    · cases hstep
    · cases hstep; exact ⟨h.left, fun i hi => by cases hi⟩
  · cases hstep; exact ⟨h.left, fun i hi => by cases hi⟩
  · cases hstep; exact ⟨h.left, fun i hi => by cases hi⟩
  · cases hstep; exact ⟨h.left, fun i hi => by cases hi⟩
  · cases hstep; exact ⟨h.left, fun i hi => by cases hi⟩
  · cases hstep

/-- One of several pings is gone, and with its turn the others are still due. -/
theorem lagging_of_erase {k i : Nat} (hk : k < s.pings.length) (hmany : s.pings.length ≠ 1)
    (hmonitor : t.monitor = .recv (i + 1)) (hpings : t.pings = s.pings.eraseIdx k)
    (hshort : t.master.numWorkers < i + s.pings.length) : Lagging t := by
  have hlength := List.length_eraseIdx_of_lt hk
  refine ⟨fun hnone => ?_, fun j hj => ?_⟩
  · rw [hpings] at hnone
    rw [hnone, List.length_nil] at hlength
    omega
  · rw [hmonitor] at hj
    obtain rfl : i + 1 = j := by injection hj
    rw [hpings, hlength]
    omega

theorem lagging_receive {k i : Nat} (h : Lagging s) (hmonitor : s.monitor = .recv i)
    (hping : s.pings[k]? = some ip) (hlt : (i : Int) < s.master.numWorkers)
    (hmonitor' : t.monitor = .recv (i + 1)) (hpings : t.pings = s.pings.eraseIdx k)
    (hnum : t.master.numWorkers ≤ s.master.numWorkers) : Lagging t := by
  obtain ⟨hk, -⟩ := List.getElem?_eq_some_iff.mp hping
  have hshort := h.short i hmonitor
  exact lagging_of_erase hk (by omega) hmonitor' hpings (by omega)

theorem lagging_move (h : Lagging s) (hr : Roster spec s) (hmove : Move s a t) : Lagging t := by
  cases hmove with
  | monitor hstep => exact lagging_monitorStep h hr hstep
  | pong hmonitor hping hlt | late hmonitor hping hlt _ _ =>
    exact lagging_receive h hmonitor hping hlt rfl rfl (Int.le_refl _)
  | dropMap hmonitor hping hlt _ _ | dropReduce hmonitor hping hlt _ _ =>
    exact lagging_receive h hmonitor hping hlt rfl rfl (Int.sub_le_self _ (by decide))
  | _ => exact { h with }

/-- A ping that fails while others are out. -/
theorem lagging_of_failure (hd : Round s) (hok : ¬ FailsLast a s) (h : s.next a = some t) : Lagging t := by
  have hpong : ∃ k, a = .pong k false ∧ s.pings.length ≠ 1 := by
    unfold FailsLast at hok
    split at hok
    · exact ⟨_, rfl, hok⟩
    · exact absurd trivial hok
  obtain ⟨k, rfl, hmany⟩ := hpong
  obtain ⟨i, x, hmonitor, hping, hlt, hmonitor', hpings, hnum, -⟩ := failed_pong hd.pinged h
  obtain ⟨hk, -⟩ := List.getElem?_eq_some_iff.mp hping
  rcases hd.due i hmonitor with hnone | hdue
  · rw [hnone] at hk
    cases hk
  · exact lagging_of_erase hk hmany hmonitor' hpings (by omega)

theorem lagging_exec (h : Lagging s) (hreach : Reach (system spec) s) (hrun : exec (system spec) as s = some t) :
    Lagging t := by
  induction as generalizing s with
  | nil => cases hrun; exact h
  | cons a as ih =>
    obtain ⟨u, hu, hrest⟩ := Option.bind_eq_some_iff.mp hrun
    have hmove := move_of_next hu
    exact ih (lagging_move h (roster_reach hreach) hmove) (hreach.step trivial hu) hrest

/-! ## Whole runs -/

/-- In a run in which a ping only fails as the last one of its round: no ping is out between two rounds;
`handle_worker_failure` is called exactly for the workers that have been dropped, and once for each
of them. After the first step of another kind, there is always a ping out. -/
theorem rounds_collect (h : execVia (system spec) FailsLast as (system spec).init = some s) :
    ((∀ i, s.monitor ≠ .recv i) → s.pings = []) ∧
    (∀ ip, occurrences (system spec) (Fails ip) as (system spec).init = s.master.droppedWorkerIps.count ip ∧
      s.master.droppedWorkerIps.count ip ≤ 1) ∧
    (∀ a t, ¬ FailsLast a s → s.next a = some t → ∀ as' u, exec (system spec) as' t = some u → u.pings ≠ []) := by
  have hreach := reachVia_execVia as .init h
  refine ⟨(round_reach hreach).idle, fun ip => ⟨?_, ?_⟩, fun a t hok hnext as' u hu => ?_⟩
  · have hcount := occurrences_eq (f := fun s : State Sh => s.master.droppedWorkerIps.count ip) (p := Fails ip)
      (fun hr _ hnext => dropped_count (round_reach hr) hnext) as .init h
    rw [hcount]
    exact (Nat.zero_add _).symm
  · exact List.nodup_iff_count_le_one.mp (roster_reach hreach).droppedOnce ip
  · have hanyhow := hreach.mono fun _ _ _ => trivial
    exact (lagging_exec (lagging_of_failure (round_reach hreach) hok hnext) (hanyhow.step trivial hnext) hu).left

/-- The second of two workers fails, and its ping is the last one received. -/
theorem rounds_collect_of_last : ∃ s : State Nat, s.monitor = .initial ∧ s.pings = [] ∧
    s.master.droppedWorkerIps = [[2]] ∧
    occurrences (system (smallSpec 1 [0])) (Fails [2])
      (startUp 2 ++ List.replicate 3 Action.monitor ++ [Action.pong 0 true, .pong 0 false, .monitor])
      (system (smallSpec 1 [0])).init = 1 := by
  obtain ⟨s, hs, hmonitor, hdropped⟩ :
      ∃ s ∈ execVia (system (smallSpec 1 [0])) FailsLast
        (startUp 2 ++ List.replicate 3 Action.monitor ++ [Action.pong 0 true, .pong 0 false, .monitor])
        (system (smallSpec 1 [0])).init,
      s.monitor = .initial ∧ s.master.droppedWorkerIps = [[2]] := by
    decide +kernel
  obtain ⟨hidle, hcalls, -⟩ := rounds_collect hs
  refine ⟨s, hmonitor, hidle (by simp [hmonitor]), hdropped, ?_⟩
  rw [(hcalls [2]).1, hdropped]
  decide

/-- Three workers, of which the second one fails and then the third one. -/
def twoFailures : List Action :=
  startUp 3 ++ List.replicate 3 Action.monitor ++ [Action.pong 1 false, .pong 0 true] ++
    List.replicate 5 Action.monitor ++ [Action.pong 0 false]

/-- The ping of worker 3 is still out at the end of the round in which worker 2 failed. In a later round
worker 3 fails a second time. -/
theorem ping_left :
    (∃ s : State Nat, Reach (system (smallSpec 2 [0])) s ∧ s.monitor = .initial ∧
      s.master.droppedWorkerIps = [[2]] ∧ s.pings = [[3]]) ∧
    (∃ as s, exec (system (smallSpec 2 [0])) as (system (smallSpec 2 [0])).init = some s ∧
      occurrences (system (smallSpec 2 [0])) (Fails [3]) as (system (smallSpec 2 [0])).init = 2) := by
  refine ⟨?_, ?_⟩
  · obtain ⟨s, hs, hleft⟩ :
        ∃ s ∈ exec (system (smallSpec 2 [0]))
          (startUp 3 ++ List.replicate 3 Action.monitor ++ [Action.pong 1 false, .pong 0 true, .monitor])
          (system (smallSpec 2 [0])).init,
        s.monitor = .initial ∧ s.master.droppedWorkerIps = [[2]] ∧ s.pings = [[3]] := by
      decide +kernel
    exact ⟨s, reach_exec _ .init hs, hleft⟩
  · have hsome : (exec (system (smallSpec 2 [0]))
        (twoFailures ++ List.replicate 5 Action.monitor ++ [Action.pong 1 false])
        (system (smallSpec 2 [0])).init).isSome := by
      decide +kernel
    obtain ⟨s, hs⟩ := Option.isSome_iff_exists.mp hsome
    exact ⟨_, s, hs, by decide +kernel⟩

/-! ## A worker that has been dropped -/

/-- For a worker that has been dropped, `handle_worker_failure` changes nothing if the map phase is not complete,
and uses a null client if it is. -/
theorem drop_idempotent (h : Reach (system spec) s) :
    (∀ ip ∈ s.master.droppedWorkerIps,
      (s.master.handleWorkerFailure ip = some (s.master, []) ↔ s.master.mapComplete = false) ∧
      (s.master.handleWorkerFailure ip = none ↔ s.master.mapComplete = true)) ∧
    s.master.numWorkers = s.master.workerIps.length ∧
    s.master.numWorkers = spec.workers.length - s.master.droppedWorkerIps.length := by
  have hg := grounded_reach h
  have hr := roster_reach h
  refine ⟨fun ip hip => ?_, hr.numWorkers, ?_⟩
  · have hclient : s.master.ipAddr2worker ip = none := by
      by_contra hsome
      exact hg.notDropped ip (Option.isSome_iff_ne_none.mpr hsome) hip
    cases hmap : s.master.mapComplete <;> simp [Master.handleWorkerFailure, hmap, hclient]
  · have hnum := hr.numWorkers
    have htotal := hr.total
    omega

theorem drop_idempotent_of_late : ∃ s : State Nat, s.master.mapComplete = false ∧
    s.master.handleWorkerFailure [3] = some (s.master, []) ∧ s.master.numWorkers = 1 := by
  obtain ⟨s, hs, hmap, hdropped⟩ :
      ∃ s ∈ exec (system (smallSpec 2 [0])) twoFailures (system (smallSpec 2 [0])).init,
      s.master.mapComplete = false ∧ s.master.droppedWorkerIps = [[2], [3]] := by
    decide +kernel
  obtain ⟨hdrop, -, hnum⟩ := drop_idempotent (reach_exec _ .init hs)
  refine ⟨s, hmap, (hdrop [3] (by rw [hdropped]; decide)).1.mpr hmap, ?_⟩
  rw [hnum, hdropped]
  decide

/-- The ping of worker 3 that was left over fails when the map phase is complete. -/
theorem dropped_twice : ∃ s t : State Nat, Reach (system (smallSpec 2 [0])) s ∧
    s.master.mapComplete = true ∧ [3] ∈ s.master.droppedWorkerIps ∧ s.pings[1]? = some [3] ∧
    s.master.handleWorkerFailure [3] = none ∧ s.next (.pong 1 false) = some t ∧ t.aborted = true := by
  obtain ⟨s, hs, t, ht, htwice⟩ :
      ∃ s ∈ exec (system (smallSpec 2 [0]))
        (twoFailures ++ List.replicate 2 Action.monitor ++ List.replicate 4 (Action.run []) ++
          [Action.respond 0 true, .poll 0, .run [], .run [], .monitor, .run [], .run [], .monitor, .monitor])
        (system (smallSpec 2 [0])).init,
      ∃ t ∈ s.next (.pong 1 false), s.master.mapComplete = true ∧ [3] ∈ s.master.droppedWorkerIps ∧
        s.pings[1]? = some [3] ∧ (s.master.handleWorkerFailure [3]).isNone ∧ t.aborted = true := by
    decide +kernel
  obtain ⟨hmap, hdropped, hping, hnone, hab⟩ := htwice
  exact ⟨s, t, reach_exec _ .init hs, hmap, hdropped, hping, Option.isNone_iff_eq_none.mp hnone, ht, hab⟩

end AdvancedOS.MapReduce
