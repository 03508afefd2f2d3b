import AdvancedOS.Lib.Lists
import AdvancedOS.MapReduce.FailureFree
import AdvancedOS.MapReduce.Rounds

/-!
# Runs that are in time

What is known of the master in a run without failures in which `poll_workers` takes the last answer of a phase
only when `run` has set the flag.

* `Placed`: where `run` and `monitor` are, and which pings are out.
* `Going`: all of it; `Going.alive_next` says that nothing aborts.
-/

namespace AdvancedOS.MapReduce

open Lts Lists WorkPool

variable {Sh : Type} {spec : Spec Sh} {s t : State Sh} {a : Action} {k : Nat}

/-! ## Where the threads are -/

/-- No failure, that of `mkdir` included, and the flag is set in time. -/
def Timely (a : Action) (s : State Sh) : Prop := FailureFree a ∧ a ≠ .mkdirFails ∧ FlagInTime a s

instance (a : Action) (s : State Sh) : Decidable (Timely a s) := inferInstanceAs (Decidable (_ ∧ _))

/-- A step of the thread of `monitor`. -/
def Action.ofMonitor : Action → Bool
  | .monitor | .pong _ _ => true
  | _ => false

structure Placed (spec : Spec Sh) (s : State Sh) : Prop where
  alive : s.aborted = false
  sending : ∀ ph i ip, s.run = .send ph i ip → i < s.master.numJobs ph
  stopping : s.run = .joinMonitor → s.master.stopMonitoring = true
  stopped : s.master.stopMonitoring = true → s.run = .joinMonitor ∨ s.run = .returned
  start : s.monitor = .start → s.run = .mkdir ∨ s.run = .setInitial ∨
    s.run = .awaitInitial ∧ s.master.initialMonitorJob = true
  final : s.monitor = .final ∨ s.monitor = .done → s.master.stopMonitoring = true
  idle : (∀ i, s.monitor ≠ .recv i) → s.pings = []
  due : ∀ i, s.monitor = .recv i → i + s.pings.length = spec.workers.length

/-- What is known in a run whose steps are timely. -/
structure Going (spec : Spec Sh) (s : State Sh) : Prop where
  grounded : Grounded spec s
  roster : Roster spec s
  orderly : Orderly spec s
  filed : Filed spec s
  inTime : InTime s
  placed : Placed spec s

theorem Going.numWorkers (h : Going spec s) : s.master.numWorkers = (spec.workers.length : Int) := by
  rw [h.roster.numWorkers, h.orderly.ips]

theorem placed_init (spec : Spec Sh) : Placed spec (system spec).init where
  alive := rfl
  sending _ _ _ h := by cases h
  stopping h := by cases h
  stopped h := by cases h
  start _ := .inl rfl
  final h := by rcases h with h | h <;> cases h
  idle _ := rfl
  due _ h := by cases h

/-- The names of the intermediate files are names of partitions. -/
theorem Filed.idxs (h : Filed spec s) : ∃ idxs, s.master.intermediateFiles.mapM fileIdx = some idxs := by
  refine exists_mapM_eq fun f hf => ?_
  obtain ⟨x, -, hfile⟩ := (h.files f).mp hf
  obtain ⟨i, hi, rfl⟩ := List.mem_map.mp hfile
  have hle := spec.nOutputFiles_le
  have hlt := List.mem_range.mp hi
  rw [fileIdx_intermediateFile (by omega)]
  rfl

/-- The worker in the hand of `run` has a client. -/
theorem Going.client (h : Going spec s) {ph : Phase} {i : Nat} {ip : Str} (hrun : s.run = .send ph i ip) :
    ∃ client, s.master.ipAddr2worker ip = some client := by
  refine Option.isSome_iff_exists.mp (h.orderly.live h.grounded (h.roster.popped ip ?_))
  rw [hrun]
  rfl

theorem Going.clients (h : Going spec s) : ∀ ip ∈ s.master.workerIps, (s.master.ipAddr2worker ip).isSome := by
  intro ip hip
  exact h.orderly.live h.grounded (h.orderly.ips ▸ hip)

theorem Going.send_alive (h : Going spec s) {ph : Phase} {i : Nat} {ip : Str} (hrun : s.run = .send ph i ip) :
    (s.send ph i ip).aborted = false := by
  obtain ⟨client, hclient⟩ := h.client hrun
  have hlt := h.placed.sending ph i ip hrun
  unfold State.send
  rw [hclient]
  cases ph with
  | map =>
    obtain ⟨shard, hshard⟩ : ∃ shard, s.master.shards[i]? = some shard := ⟨_, List.getElem?_eq_getElem hlt⟩
    simp only [hshard]
    exact h.placed.alive
  | reduce =>
    obtain ⟨partition, hpartition⟩ : ∃ partition, s.master.partitions[i]? = some partition :=
      ⟨_, List.getElem?_eq_getElem hlt⟩
    simp only [hpartition]
    exact h.placed.alive

/-- Nothing aborts. -/
theorem Going.alive_next (h : Going spec s) (hok : Timely a s) (hs : s.next a = some t) : t.aborted = false := by
  have halive := h.placed.alive
  unfold State.next at hs
  rw [if_neg (by rw [halive]; decide)] at hs
  cases a with
  | run o =>
    replace hs : s.runStep o = some t := hs
    unfold State.runStep at hs
    split at hs
    case h_5 =>
      split at hs
      · split at hs <;> cases hs
        exact halive
      · cases hs
        exact halive
    case h_6 hrun =>
      cases hs
      exact h.send_alive hrun
    case h_14 hrun =>
      obtain ⟨idxs, hidxs⟩ := h.filed.idxs
      rw [hidxs] at hs
      obtain ⟨-, hs⟩ := Option.ite_none_right_eq_some.mp hs
      obtain ⟨-, rfl⟩ := Option.ite_none_right_eq_some.mp hs |>.imp_right Option.some.inj
      exact halive
    case h_3 | h_8 | h_10 | h_15 | h_17 =>
      obtain ⟨-, rfl⟩ := Option.ite_none_right_eq_some.mp hs |>.imp_right Option.some.inj
      exact halive
    all_goals cases hs
    all_goals exact halive
  | mkdirFails => exact absurd rfl hok.2.1
  | poll k =>
    replace hs : s.pollStep k = some t := hs
    obtain ⟨-, hs⟩ := Option.ite_none_right_eq_some.mp hs
    obtain ⟨call, -, hs⟩ := Option.bind_eq_some_iff.mp hs
    obtain ⟨ok, -, rfl⟩ := Option.map_eq_some_iff.mp hs
    exact halive
  | resume =>
    replace hs : s.resume = some t := hs
    unfold State.resume at hs
    split at hs
    · obtain ⟨-, rfl⟩ := Option.ite_none_right_eq_some.mp hs |>.imp_right Option.some.inj
      exact halive
    · cases hs
  | monitor =>
    replace hs : s.monitorStep = some t := hs
    unfold State.monitorStep at hs
    rw [if_pos h.clients] at hs
    split at hs
    case h_3 =>
      split at hs <;> cases hs
      exact halive
    case h_2 =>
      split at hs <;> cases hs <;> exact halive
    all_goals cases hs
    all_goals exact halive
  | pong k ok =>
    obtain rfl : ok = true := hok.1
    replace hs : s.pong k true = some t := hs
    unfold State.pong at hs
    split at hs
    · split at hs <;> cases hs
      exact halive
    · cases hs
  | respond k ok =>
    replace hs : s.respond k ok = some t := hs
    unfold State.respond at hs
    split at hs <;> cases hs
    exact halive

/-- `run` goes on, but not to the end. -/
theorem Placed.advance (h : Placed spec s) (halive : t.aborted = false)
    (hbefore : s.run ≠ .joinMonitor ∧ s.run ≠ .returned)
    (hstart : s.monitor = .start → t.run = .mkdir ∨ t.run = .setInitial ∨
      t.run = .awaitInitial ∧ t.master.initialMonitorJob = true)
    (hjoin : t.run ≠ .joinMonitor := by intro h; cases h)
    (hsend : ∀ ph i ip, t.run = .send ph i ip → i < t.master.numJobs ph := by intro _ _ _ h; cases h)
    (hstop : t.master.stopMonitoring = s.master.stopMonitoring := by rfl)
    (hmonitor : t.monitor = s.monitor := by rfl) (hpings : t.pings = s.pings := by rfl) : Placed spec t where
  alive := halive
  sending := hsend
  stopping hrun := absurd hrun hjoin
  stopped hs := absurd (h.stopped (hstop ▸ hs)) (not_or.mpr hbefore)
  start hs := hstart (hmonitor ▸ hs)
  final hs := by
    rw [hmonitor] at hs
    rw [hstop]
    exact h.final hs
  idle hs := by
    rw [hmonitor] at hs
    rw [hpings]
    exact h.idle hs
  due i hs := by
    rw [hmonitor] at hs
    rw [hpings]
    exact h.due i hs

/-- The frame of `Placed`: `run` and `monitor` stay where they are. -/
theorem Placed.frame (h : Placed spec s) (halive : t.aborted = false) (hrun : t.run = s.run)
    (hjobs : ∀ ph, t.master.numJobs ph = s.master.numJobs ph)
    (hinitial : t.master.initialMonitorJob = s.master.initialMonitorJob)
    (hstop : t.master.stopMonitoring = s.master.stopMonitoring := by rfl)
    (hmonitor : t.monitor = s.monitor := by rfl) (hpings : t.pings = s.pings := by rfl) : Placed spec t where
  alive := halive
  sending ph i ip hs := by
    rw [hjobs]
    exact h.sending ph i ip (hrun ▸ hs)
  stopping := by rw [hrun, hstop]; exact h.stopping
  stopped := by rw [hrun, hstop]; exact h.stopped
  start := by rw [hrun, hmonitor, hinitial]; exact h.start
  final := by rw [hmonitor, hstop]; exact h.final
  idle := by rw [hmonitor, hpings]; exact h.idle
  due := by rw [hmonitor, hpings]; exact h.due

/-- A step of `monitor` other than the receipt of a pong. -/
theorem placed_monitorStep (hg : Going spec s) (halive : t.aborted = false) (hstep : s.monitorStep = some t) :
    Placed spec t := by
  have h := hg.placed
  have hnum := hg.numWorkers
  unfold State.monitorStep at hstep
  rw [if_pos hg.clients] at hstep
  split at hstep
  · next hmonitor =>
    cases hstep
    have hnone := h.idle (by simp [hmonitor])
    have hrun := h.start hmonitor
    refine ⟨halive, h.sending, fun hjoin => ?_, by simp, by simp, ?_, fun _ => hnone, by simp⟩
    · rcases hrun with hrun | hrun | hrun
      · cases hrun.symm.trans hjoin
      · cases hrun.symm.trans hjoin
      · cases hrun.1.symm.trans hjoin
    · rintro (hs | hs) <;> cases hs
  · next hmonitor =>
    have hnone := h.idle (by simp [hmonitor])
    split at hstep
    · next hstop =>
      cases hstep
      exact ⟨halive, h.sending, h.stopping, h.stopped, by simp, fun _ => hstop, fun _ => hnone, by simp⟩
    · cases hstep
      refine ⟨halive, h.sending, h.stopping, h.stopped, by simp, ?_, fun hno => absurd rfl (hno 0), fun i hi => ?_⟩
      · rintro (hs | hs) <;> cases hs
      · cases hi
        simp [hnone, hg.orderly.ips]
  · next i hmonitor =>
    split at hstep
    · cases hstep
    · next hge =>
      cases hstep
      have hdue := h.due i hmonitor
      refine ⟨halive, h.sending, h.stopping, h.stopped, by simp, ?_, fun _ => ?_, by simp⟩
      · rintro (hs | hs) <;> cases hs
      · refine List.length_eq_zero_iff.mp ?_
        show s.pings.length = 0
        omega
  · next hmonitor =>
    cases hstep
    have hnone := h.idle (by simp [hmonitor])
    refine ⟨halive, h.sending, h.stopping, h.stopped, by simp, ?_, fun _ => hnone, by simp⟩
    rintro (hs | hs) <;> cases hs
  · next hmonitor =>
    cases hstep
    have hnone := h.idle (by simp [hmonitor])
    refine ⟨halive, h.sending, h.stopping, h.stopped, by simp, ?_, fun _ => hnone, by simp⟩
    rintro (hs | hs) <;> cases hs
  · next hmonitor =>
    cases hstep
    have hnone := h.idle (by simp [hmonitor])
    refine ⟨halive, h.sending, h.stopping, h.stopped, by simp, ?_, fun _ => hnone, by simp⟩
    rintro (hs | hs) <;> cases hs
  · next hmonitor =>
    cases hstep
    have hnone := h.idle (by simp [hmonitor])
    exact ⟨halive, h.sending, h.stopping, h.stopped, by simp, fun _ => h.final (.inl hmonitor), fun _ => hnone, by simp⟩
  · cases hstep

theorem Placed.pong (h : Placed spec s) {i : Nat} {ip : Str} (hmonitor : s.monitor = .recv i)
    (hping : s.pings[k]? = some ip) :
    Placed spec { s with pings := s.pings.eraseIdx k, monitor := .recv (i + 1) } where
  alive := h.alive
  sending := h.sending
  stopping := h.stopping
  stopped := h.stopped
  start h := by cases h
  final hs := by rcases hs with hs | hs <;> cases hs
  idle hno := absurd rfl (hno (i + 1))
  due j hj := by
    cases hj
    have hdue := h.due i hmonitor
    obtain ⟨hk, -⟩ := List.getElem?_eq_some_iff.mp hping
    have hlength := List.length_eraseIdx_of_lt hk
    show i + 1 + (s.pings.eraseIdx k).length = _
    omega

/-- `monitor` has started when `run` has seen its first round. -/
theorem Placed.started (h : Placed spec s) {pc : RunPc} (hrun : s.run = pc)
    (hpc : pc ≠ .mkdir ∧ pc ≠ .setInitial ∧ pc ≠ .awaitInitial) {P : Prop} (hstart : s.monitor = .start) : P := by
  rcases h.start hstart with hs | hs | ⟨hs, -⟩
  · exact absurd (hrun.symm.trans hs) hpc.1
  · exact absurd (hrun.symm.trans hs) hpc.2.1
  · exact absurd (hrun.symm.trans hs) hpc.2.2

theorem placed_move (hg : Going spec s) (hok : Timely a s) (hmove : Move s a t) (halive : t.aborted = false) :
    Placed spec t := by
  have h := hg.placed
  cases hmove with
  | abort => cases halive
  | mkdir hrun => exact h.advance halive (by simp [hrun]) fun _ => .inr (.inl rfl)
  | setInitial hrun => exact h.advance halive (by simp [hrun]) fun _ => .inr (.inr ⟨rfl, rfl⟩)
  | awaitInitial hrun hclear =>
    refine h.advance halive (by simp [hrun]) fun hstart => ?_
    rcases h.start hstart with hs | hs | ⟨-, hset⟩
    · cases hrun.symm.trans hs
    · cases hrun.symm.trans hs
    · exact absurd (hset.symm.trans hclear) (by decide)
  | resetDropped hrun => exact h.advance halive (by simp [hrun]) (h.started hrun (by simp))
  | @pop _ ph i ip rest hrun hlt _ =>
    have hrun' : (s.pop ph i ip rest).run = .send ph i ip := by simp [State.pop, hg.orderly.dropped]
    refine h.advance halive (by simp [hrun]) (h.started hrun (by simp)) (by simp [hrun']) fun ph' i' ip' hs => ?_
    cases hrun'.symm.trans hs
    cases ph <;> exact hlt
  | endLoop hrun _ | setFlag hrun | awaitFlag hrun _ | setTrigger hrun | awaitTrigger hrun _ | check hrun =>
    exact h.advance halive (by simp [hrun]) (h.started hrun (by simp))
  | sendMap hrun _ _ | sendReduce hrun _ _ | finishMap hrun _ _ | againMap hrun _ _ | requeueMap hrun _ =>
    exact h.advance halive (by simp [hrun]) (h.started hrun (by simp))
  | finishReduce hrun _ _ | againReduce hrun _ _ | requeueReduce hrun _ =>
    exact h.advance halive (by simp [hrun]) (h.started hrun (by simp))
  | startReduce hrun _ _ _ | joinReduce hrun _ =>
    exact h.advance halive (by simp [hrun]) (h.started hrun (by simp))
  | stop hrun =>
    exact ⟨halive, by simp, fun _ => rfl, fun _ => .inl rfl, h.started hrun (by simp), fun _ => rfl, h.idle, h.due⟩
  | joinMonitor hrun hdone =>
    exact ⟨halive, by simp, by simp, fun _ => .inr rfl, h.started hrun (by simp), h.final, h.idle, h.due⟩
  | @acceptMap k ip client shard _ hcall _ _ | @acceptReduce k ip client partition files _ hcall _ _ =>
    refine h.frame halive rfl (fun ph => ?_) rfl
    cases ph <;> rfl
  | rejoin _ hcall _ hclient => exact (hg.orderly.no_rejoin hg.grounded hcall hclient).elim
  | discard _ hcall hip => exact (hg.orderly.no_discard hcall hip).elim
  | errorMap _ hcall | errorReduce _ hcall => exact (hg.orderly.no_error hcall).elim
  | resume _ _ | respond _ =>
    refine h.frame halive rfl (fun ph => ?_) rfl
    cases ph <;> rfl
  | monitor hstep => exact placed_monitorStep hg halive hstep
  | pong hmonitor hping _ => exact h.pong hmonitor hping
  | late _ _ _ _ _ | dropMap _ _ _ _ _ | dropReduce _ _ _ _ _ => cases hok.1

theorem going_init (spec : Spec Sh) [DecidableEq Sh] (hshards : spec.shards ≠ []) :
    Going spec (system spec).init where
  grounded := grounded_init spec
  roster := roster_init spec
  orderly := orderly_init spec
  filed := filed_init spec
  inTime := inTime_init hshards
  placed := placed_init spec

theorem going_next [DecidableEq Sh] (hshards : spec.shards ≠ []) (h : Going spec s) (hok : Timely a s)
    (hs : s.next a = some t) : Going spec t := by
  have hmove := move_of_next hs
  exact ⟨grounded_move h.grounded hmove, roster_move h.roster h.grounded hmove,
    orderly_move h.grounded h.orderly hmove hok.1, filed_move hshards h.grounded h.orderly h.filed hmove hok.1,
    inTime_move h.grounded h.orderly h.inTime hmove hok.1 hok.2.2, placed_move h hok hmove (h.alive_next hok hs)⟩

theorem going_reach (hshards : spec.shards ≠ []) (h : ReachVia (system spec) Timely s) : Going spec s := by
  classical
  exact h.invariant (going_init spec hshards) fun _ hi hok hs => going_next hshards hi hok hs

end AdvancedOS.MapReduce
