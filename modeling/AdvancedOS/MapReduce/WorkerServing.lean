import AdvancedOS.MapReduce.Cluster
import AdvancedOS.MapReduce.WorkerStages

/-!
# What a worker does with its requests

* `Serving.step`: a step of a thread leaves one object of each class that waits for the next request.
* `worker_serves`: every request is handled once and answered with its own answer, one at a time, and there
  is always an object for the next one.
* `turn_cluster`, `begin_cluster`: its map jobs are those of a worker of the cluster.
-/

namespace AdvancedOS.MapReduce.Server

open Lts

variable {setup : Setup} {s t : Loop} {id : Nat} {st : Stage} {stage : Nat → Stage} {early : Kind → Option Nat}
  {pc pc' : LoopPc} {strict : Bool} {disk disk' : Files}

/-! ## Serving -/

/-- The object that a thread advances is born, and goes on being so. -/
theorem Advance.born {old : Stage} (h : Advance setup old st) : old ≠ .unborn ∧ st ≠ .unborn := by
  cases h <;> simp

theorem Advance.for {old : Stage} {request : Query} {job : Job} (h : Advance setup old (.handling request job)) :
    job.For setup request := by
  cases h with
  | begin => exact .start
  | turn hjob _ => exact hjob

namespace Staged

theorem moved (h : Staged setup s stage early) {old : Stage} (hold : stage id = old) (hadvance : Advance setup old st)
    (hopens : st.opens = old.opens) (hm : Moved setup s t id st) :
    Staged setup t (Function.update stage id st) early :=
  h.move_same hold st hadvance.born.1 hadvance.born.2 hm.nextId hm.at_new hm.same
    (fun heq => Advance.for (heq ▸ hadvance)) hopens

/-- The object begins its request, and is not the one that waits for the next any more. -/
theorem begun (h : Staged setup s stage early) {request : Query} (hold : stage id = .fetched request)
    (hm : Moved setup s t id (.handling request (.start request))) :
    Staged setup t (Function.update stage id (.handling request (.start request)))
      (Function.update early request.kind none) := by
  have hopen : early request.kind = some id := by rw [← h.opens, hold]; rfl
  refine h.move hold _ (by simp) (by simp) hm.nextId hm.at_new hm.same ?_ (fun k => ?_) fun id' hne k => ?_
  · intro request' job heq
    cases heq
    exact .start
  · refine iff_of_false (by simp [Stage.opens]) ?_
    by_cases hk : k = request.kind
    · rw [hk, Function.update_self]
      simp
    · rw [Function.update_of_ne hk, ← h.opens, hold]
      exact fun heq => hk (Option.some.inj heq).symm
  · by_cases hk : k = request.kind
    · rw [hk, Function.update_self, hopen]
      exact iff_of_false (by simp) fun heq => hne (Option.some.inj heq).symm
    · rw [Function.update_of_ne hk]

end Staged

/-- Which classes have an object that waits for the next request. -/
structure Opened (kinds : List Kind) (pc : LoopPc) (early : Kind → Option Nat) : Prop where
  nodup : pc.pending.Nodup
  subset : pc.pending ⊆ kinds
  isSome : ∀ k, (early k).isSome ↔ k ∈ kinds ∧ k ∉ pc.pending

/-- Every object is at a stage, and one object of each class waits for the next request. -/
def Serving (setup : Setup) (kinds : List Kind) (s : Loop) : Prop :=
  ∃ stage early, Staged setup s stage early ∧ Opened kinds s.pc early

variable {kinds : List Kind}

theorem Opened.of_pending (h : Opened kinds pc early) (hpending : pc'.pending = pc.pending) :
    Opened kinds pc' early where
  nodup := hpending ▸ h.nodup
  subset := hpending ▸ h.subset
  isSome := hpending ▸ h.isSome

theorem Opened.of_constructing (h : Opened kinds pc early) (hsame : pc'.constructing = pc.constructing) :
    Opened kinds pc' early :=
  h.of_pending (by rw [LoopPc.pending, LoopPc.pending, hsame])

theorem serving_empty (hkinds : kinds.Nodup) : Serving setup kinds (.empty kinds) := by
  have hstaged : Staged setup (.empty kinds) (fun _ => .unborn) fun _ => none :=
    ⟨fun id => ⟨rfl, rfl, rfl, rfl⟩, fun id => iff_of_true rfl (Nat.zero_le id), by simp, by simp [Stage.opens]⟩
  refine ⟨_, _, hstaged, hkinds, List.Subset.refl _, fun k => ?_⟩
  exact iff_of_false (by simp) fun hk => hk.2 hk.1

theorem Serving.construct (h : Serving setup kinds s) (hs : construct s = some t) :
    Serving setup kinds t ∧ t.failed = s.failed := by
  obtain ⟨stage, early, hstaged, hopened⟩ := h
  unfold Server.construct at hs
  cases hpc : s.pc with
  | construct pending =>
    rw [hpc] at hs hopened
    cases pending with
    | nil =>
      cases hs
      refine ⟨⟨stage, early, hstaged.same rfl fun id => ⟨rfl, rfl, rfl, ?_⟩, hopened.of_pending rfl⟩, rfl⟩
      rw [hpc]
      rfl
    | cons kind pending =>
      cases hs
      obtain ⟨hfresh, hnodup⟩ := List.nodup_cons.mp hopened.nodup
      have hnone : early kind = none := by
        rw [← Option.not_isSome_iff_eq_none, hopened.isSome]
        exact fun hk => hk.2 List.mem_cons_self
      have hnew := hstaged.newRequest hnone (by rw [hpc]; rfl)
      refine ⟨⟨_, _, hnew.same rfl fun id => ⟨rfl, rfl, rfl, ?_⟩, hnodup, ?_, fun k => ?_⟩, rfl⟩
      · show LoopPc.at (.construct pending) id = s.pc.at id
        rw [hpc]
        rfl
      · exact fun k hk => hopened.subset (List.mem_cons_of_mem _ hk)
      · by_cases hk : k = kind
        · subst hk
          rw [Function.update_self]
          exact iff_of_true rfl ⟨hopened.subset List.mem_cons_self, hfresh⟩
        · rw [Function.update_of_ne hk, hopened.isSome]
          simp [LoopPc.pending, LoopPc.constructing, hk]
  | next | proceed _ | handle _ _ | finish _ _ => rw [hpc] at hs; cases hs


/-- A step for an object keeps everything as it should be. -/
theorem Outcome.serving (h : Staged setup s stage early) (hopened : Opened kinds s.pc early)
    (hout : Outcome setup s t stage) : Serving setup kinds t := by
  cases hout with
  | failed why ht =>
    subst ht
    exact ⟨stage, early, h.same rfl fun id => ⟨rfl, rfl, rfl, rfl⟩, hopened⟩
  | moved hold hadvance hopens hm =>
    exact ⟨_, early, h.moved hold hadvance hopens hm, hopened.of_constructing hm.constructing⟩
  | @began id request u hold hm ht =>
    subst ht
    have hopen : early request.kind = some id := by rw [← h.opens, hold]; rfl
    have hborn : s.nextId ≠ id := by
      intro heq
      have hunborn := (h.unborn id).mpr (Nat.le_of_eq heq)
      rw [hold] at hunborn
      cases hunborn
    have hbegun := h.begun hold hm
    have hat : u.pc.at u.nextId = none := by
      rw [hm.nextId]
      refine LoopPc.at_of_ne ?_ hborn
      rw [hm.at_new.pc]
      rfl
    have hpending : (newRequest request.kind u).pc.pending = s.pc.pending := by
      rw [LoopPc.pending, LoopPc.pending, ← hm.constructing]
      rfl
    refine ⟨_, _, hbegun.newRequest (Function.update_self ..) hat, ?_, ?_, fun k => ?_⟩
    · rw [hpending]
      exact hopened.nodup
    · rw [hpending]
      exact hopened.subset
    · rw [hpending, Function.update_idem]
      by_cases hk : k = request.kind
      · rw [hk, Function.update_self]
        have hisSome := hopened.isSome request.kind
        rw [hopen] at hisSome
        exact iff_of_true rfl (hisSome.mp rfl)
      · rw [Function.update_of_ne hk]
        exact hopened.isSome k

/-! ## Steps of a loop -/

/-- What has ended the process. -/
inductive Blame (setup : Setup) (strict : Bool) (s : Loop) (disk : Files) : Failure → Prop
  | notOk {id : Nat} : strict = true → .finished false ∈ s.ops id → Blame setup strict s disk .notOk
  | threw {id : Nat} {job : Job} : s.pc = .handle id job → job.turn setup disk = .threw →
      Blame setup strict s disk .threw

theorem Serving.step (h : Serving setup kinds s) (hrunning : s.failed = none) {a : LoopAction}
    (hs : loopStep setup strict s disk a = some (t, disk')) :
    Serving setup kinds t ∧ ∀ why, t.failed = some why → Blame setup strict t disk' why := by
  have hblame {u : Loop} (hsame : u.failed = s.failed) :
      ∀ why, u.failed = some why → Blame setup strict u disk' why := by
    intro why hwhy
    rw [hsame, hrunning] at hwhy
    cases hwhy
  cases a with
  | construct =>
    obtain ⟨u, hu, heq⟩ := Option.map_eq_some_iff.mp hs
    cases heq
    obtain ⟨hserving, hfailed⟩ := h.construct hu
    exact ⟨hserving, hblame hfailed⟩
  | next id op =>
    obtain ⟨u, hu, heq⟩ := Option.map_eq_some_iff.mp hs
    cases heq
    obtain ⟨stage, early, hstaged, hopened⟩ := h
    obtain ⟨hout, hfailed | ⟨hfailed, hstrict, hfinished⟩⟩ := outcome_next hstaged hu
    · exact ⟨hout.serving hstaged hopened, hblame hfailed⟩
    · refine ⟨hout.serving hstaged hopened, fun why hwhy => ?_⟩
      obtain rfl := Option.some.inj (hfailed.symm.trans hwhy)
      exact .notOk hstrict hfinished
  | proceed =>
    obtain ⟨u, hu, heq⟩ := Option.map_eq_some_iff.mp hs
    cases heq
    obtain ⟨stage, early, hstaged, hopened⟩ := h
    obtain ⟨hout, hfailed⟩ := outcome_proceed hstaged hu
    exact ⟨hout.serving hstaged hopened, hblame hfailed⟩
  | turn =>
    obtain ⟨stage, early, hstaged, hopened⟩ := h
    obtain ⟨hout, hfailed | ⟨hfailed, rfl, id, job, hpc, hthrew⟩⟩ := outcome_turn hstaged hs
    · exact ⟨hout.serving hstaged hopened, hblame hfailed⟩
    · refine ⟨hout.serving hstaged hopened, fun why hwhy => ?_⟩
      obtain rfl := Option.some.inj (hfailed.symm.trans hwhy)
      exact .threw hpc hthrew
  | finish =>
    obtain ⟨u, hu, heq⟩ := Option.map_eq_some_iff.mp hs
    cases heq
    obtain ⟨stage, early, hstaged, hopened⟩ := h
    obtain ⟨hout, hfailed⟩ := outcome_finish hstaged hu
    exact ⟨hout.serving hstaged hopened, hblame hfailed⟩
  | arrive id request =>
    obtain ⟨u, hu, heq⟩ := Option.map_eq_some_iff.mp hs
    cases heq
    obtain ⟨stage, early, hstaged, hopened⟩ := h
    obtain ⟨hpc, hfailed, stage', hstaged'⟩ := hstaged.arrive hu
    exact ⟨⟨stage', early, hstaged', hpc ▸ hopened⟩, hblame hfailed⟩
  | complete id ok =>
    obtain ⟨u, hu, heq⟩ := Option.map_eq_some_iff.mp hs
    cases heq
    obtain ⟨stage, early, hstaged, hopened⟩ := h
    obtain ⟨hout, hfailed⟩ := outcome_complete hstaged hu
    exact ⟨hout.serving hstaged hopened, hblame hfailed⟩

/-! ## The worker -/

/-- Both threads serve, and if one of them has ended the process there is a reason. -/
structure Worker.Inv (setup : Setup) (w : Worker) : Prop where
  serving : ∀ name, Serving setup name.kinds (w.loops name)
  blame : ∀ name why, (w.loops name).failed = some why → Blame setup name.strict (w.loops name) w.disk why

variable {w v : Worker} {name : LoopName} {a : WorkerAction}

theorem Worker.Running.failed (h : w.Running) (name : LoopName) : (w.loops name).failed = none := by
  cases name with
  | mapReduce => exact h.1
  | ping => exact h.2

/-- A step of the worker, from a state in which it is running. -/
theorem worker_step_cases (hs : (worker setup disk).next a w = some v) :
    w.Running ∧ ((∃ name b loop disk', a = .loop name b ∧
      loopStep setup name.strict (w.loops name) w.disk b = some (loop, disk') ∧
        v = ⟨Function.update w.loops name loop, disk'⟩) ∨
      ∃ disk', a = .write disk' ∧ v = { w with disk := disk' }) := by
  obtain ⟨hrunning, hs⟩ := Option.ite_none_right_eq_some.mp hs
  refine ⟨hrunning, ?_⟩
  cases a with
  | loop name b =>
    obtain ⟨⟨loop, disk'⟩, hloop, rfl⟩ := Option.map_eq_some_iff.mp hs
    exact .inl ⟨name, b, loop, disk', rfl, hloop, rfl⟩
  | write disk' =>
    cases hs
    exact .inr ⟨disk', rfl, rfl⟩

theorem Worker.Inv.step (h : w.Inv setup) (hs : (worker setup disk).next a w = some v) : v.Inv setup := by
  obtain ⟨hrunning, ⟨name, b, loop, disk', -, hloop, rfl⟩ | ⟨disk', -, rfl⟩⟩ := worker_step_cases hs
  · obtain ⟨hserving, hblame⟩ := (h.serving name).step (hrunning.failed name) hloop
    constructor
    · intro name'
      by_cases hname : name' = name
      · subst hname
        simpa using hserving
      · simpa [Function.update_of_ne hname] using h.serving name'
    · intro name' why hwhy
      by_cases hname : name' = name
      · subst hname
        simp only [Function.update_self] at hwhy ⊢
        exact hblame why hwhy
      · simp only [Function.update_of_ne hname] at hwhy
        rw [hrunning.failed name'] at hwhy
        cases hwhy
  · refine ⟨h.serving, fun name why hwhy => ?_⟩
    have hfailed := hrunning.failed name
    rw [hfailed] at hwhy
    cases hwhy

theorem worker_inv (hr : Reach (worker setup disk) w) : w.Inv setup := by
  refine hr.invariant ⟨fun name => ?_, fun _ _ hwhy => ?_⟩ fun _ h _ hs => h.step hs
  · refine serving_empty ?_
    cases name <;> decide
  · cases hwhy

/-! ## What a worker serves -/

/-- The object is there for a request of class `k`, and has not begun one. -/
def Loop.Open (s : Loop) (k : Kind) (id : Nat) : Prop :=
  (∃ r, s.requests id = some r ∧ r.kind = k) ∧ .begun ∉ s.life id

theorem Stage.opens_iff {k : Kind} :
    st.opens = some k ↔ (∃ r, st.object = some r ∧ r.kind = k) ∧ .begun ∉ st.life setup := by
  cases st <;> simp [opens, object, life, wholeLife]

/-- A request that was matched and not begun has its event in the queue, or was fetched. -/
theorem Stage.waits (id : Nat) {request : Query} (hmatched : .matched request ∈ st.life setup)
    (hbegun : .begun ∉ st.life setup) :
    st.ops = [.matched] ∨ st.pc setup id = some (.proceed id) := by
  cases st <;> simp [ops, Stage.pc, life, wholeLife] at hmatched hbegun ⊢

/-- A request that was begun and not answered is in the hands of the thread. -/
theorem Stage.works (hbegun : .begun ∈ st.life setup) (hreply : ∀ reply, .replied reply ∉ st.life setup) :
    (st.pc setup id).isSome := by
  cases st <;> simp [Stage.pc, life, wholeLife] at hbegun hreply ⊢

/-- gRPC holds an object that exists, and for one thing only. -/
theorem Stage.held (h : st.ops ≠ []) : (∃ r, st.object = some r) ∧ ∃ op, st.ops = [op] := by
  cases st <;> simp [ops, object] at h ⊢

theorem Serving.open_unique (h : Serving setup kinds s) {k : Kind} (hk : k ∈ kinds) (hpending : k ∉ s.pc.pending) :
    ∃! id, s.Open k id := by
  obtain ⟨stage, early, hstaged, hopened⟩ := h
  have hopen (id : Nat) : s.Open k id ↔ early k = some id := by
    rw [Loop.Open, (hstaged.at_stage id).requests, (hstaged.at_stage id).life, ← Stage.opens_iff, hstaged.opens]
  obtain ⟨id, hid⟩ := Option.isSome_iff_exists.mp ((hopened.isSome k).mpr ⟨hk, hpending⟩)
  refine ⟨id, (hopen id).mpr hid, fun id' hid' => ?_⟩
  exact Option.some.inj (((hopen id').mp hid').symm.trans hid)

/-- In each thread of a worker, whatever requests come and in any order of steps: an object has one life at most, in
which its request is begun once and gets its own answer; the thread works on one request at a time; the requests
that were matched wait in the queue, one of a class; each class has one object for the next request; gRPC
holds no object that was deleted; and the process ends only if a job throws or an answer to a ping is lost. -/
theorem worker_serves (hr : Reach (worker setup disk) w) (name : LoopName) :
    (∀ id, ∃ request ok, (w.loops name).life id <+: wholeLife setup request ok) ∧
    (∀ id, .begun ∈ (w.loops name).life id → (∀ reply, .replied reply ∉ (w.loops name).life id) →
      ((w.loops name).pc.at id).isSome) ∧
    (∀ id request, .matched request ∈ (w.loops name).life id → .begun ∉ (w.loops name).life id →
      (w.loops name).ops id = [.matched] ∨ (w.loops name).pc = .proceed id) ∧
    (∀ k ∈ name.kinds, k ∉ (w.loops name).pc.pending → ∃! id, (w.loops name).Open k id) ∧
    (∀ id, (w.loops name).ops id ≠ [] →
      (∃ r, (w.loops name).requests id = some r) ∧ ∃ op, (w.loops name).ops id = [op]) ∧
    ∀ why, (w.loops name).failed = some why → Blame setup name.strict (w.loops name) w.disk why := by
  have hinv := worker_inv hr
  obtain ⟨stage, early, hstaged, hopened⟩ := hinv.serving name
  refine ⟨fun id => ?_, fun id hbegun hreply => ?_, fun id request hmatched hbegun => ?_, fun k hk hpending => ?_,
    fun id hops => ?_, hinv.blame name⟩
  · rw [(hstaged.at_stage id).life]
    exact Stage.life_begins setup (stage id)
  · rw [(hstaged.at_stage id).life] at hbegun hreply
    rw [(hstaged.at_stage id).pc]
    exact Stage.works hbegun hreply
  · rw [(hstaged.at_stage id).life] at hmatched hbegun
    rw [(hstaged.at_stage id).ops]
    have hwaits := Stage.waits id hmatched hbegun
    rw [← (hstaged.at_stage id).pc] at hwaits
    exact hwaits.imp_right fun hpc => (LoopPc.at_self hpc).symm
  · exact (hinv.serving name).open_unique hk hpending
  · rw [(hstaged.at_stage id).ops] at hops ⊢
    rw [(hstaged.at_stage id).requests]
    exact Stage.held hops

/-- A mapper that emits every line, and no reducer. -/
def oneMapper : Setup where
  ipAddrPort := str "localhost:50051"
  files _ := none
  hash _ := 0
  mappers _ := some fun line => [(line, [])]
  reducers _ := none

/-- The threads construct their objects, and a map request arrives. -/
def untilArrival : List WorkerAction :=
  [.loop .mapReduce .construct, .loop .ping .construct, .loop .mapReduce .construct, .loop .mapReduce .construct,
    .loop .mapReduce (.arrive 0 (.map (str "cs6210") 1 []))]

/-- It is handled and answered, and its object is deleted. -/
def afterArrival : List WorkerAction :=
  [.next 0 .matched, .proceed, .turn, .turn, .finish, .complete 0 true, .next 0 (.finished true), .proceed].map
    (.loop .mapReduce)

theorem worker_serves_one_request : ∃ w, Reach (worker oneMapper fun _ => none) w ∧
    ((w.loops .mapReduce).life 0).length = 6 ∧
    (∃ request ok, (w.loops .mapReduce).life 0 <+: wholeLife oneMapper request ok) ∧
    ∃! id, (w.loops .mapReduce).Open .map id := by
  have hrun : (exec (worker oneMapper fun _ => none) (untilArrival ++ afterArrival)
      (worker oneMapper fun _ => none).init).isSome := by decide
  have hlife : ∀ w ∈ exec (worker oneMapper fun _ => none) (untilArrival ++ afterArrival)
      (worker oneMapper fun _ => none).init,
      ((w.loops .mapReduce).life 0).length = 6 ∧ .map ∉ (w.loops .mapReduce).pc.pending := by decide
  obtain ⟨w, hw⟩ := Option.isSome_iff_exists.mp hrun
  have hreach := reach_exec _ .init hw
  obtain ⟨hbegins, -, -, hopen, -⟩ := worker_serves hreach .mapReduce
  exact ⟨w, hreach, (hlife w hw).1, hbegins 0, hopen .map (by decide) (hlife w hw).2⟩

/-! ## The worker of the cluster -/

section

variable {I : EndToEnd.Input} {m : EndToEnd.Mapper} {ip : Str}

/-- What the worker `ip` of a cluster is started with. -/
def clusterSetup (I : EndToEnd.Input) (m : EndToEnd.Mapper) (ip : Str) : Setup where
  ipAddrPort := ip
  files := I.files
  hash := I.hash
  mappers _ := some m.map
  reducers _ := some I.reduce

/-- The thread as the cluster has it, as far as map jobs go. -/
def Loop.asWorker (s : Loop) : Cluster.Worker :=
  match s.failed, s.pc with
  | none, .handle _ (.map _ job) => .mapping job
  | none, .finish _ (.map _) => .mapped
  | some _, .handle _ (.map _ job) => .crashed job
  | _, _ => .idle

/-- The first turn of the handler of a map request is what the cluster does when a map call reaches its worker. -/
theorem begin_cluster {userId : Str} {shard : FileShard} (hrunning : s.failed = none)
    (hpc : s.pc = .handle id (.start (.map userId I.nOutputFiles shard)))
    (hs : turnStep (clusterSetup I m ip) s disk = some (t, disk')) :
    disk' = disk ∧ s.asWorker = .idle ∧ t.asWorker = .mapping (.start I.nOutputFiles ip shard) := by
  simp only [turnStep, hpc, Job.turn, clusterSetup] at hs
  cases hs
  exact ⟨rfl, by simp [Loop.asWorker, hrunning, hpc], by simp [Loop.asWorker, hrunning]⟩

/-- The other turns are those of the worker in the cluster, on the same files. -/
theorem turn_cluster {job : MapJob} {c : Cluster.State} (hrunning : s.failed = none)
    (hpc : s.pc = .handle id (.map m.map job)) (hworker : c.workers ip = s.asWorker)
    (hs : turnStep (clusterSetup I m ip) s c.disk = some (t, disk')) :
    ∃ d, (Cluster.cluster I m).next (.turn ip) c = some d ∧ d.workers ip = t.asWorker ∧ d.disk = disk' ∧
      d.process = c.process := by
  have hmapping : c.workers ip = .mapping job := by rw [hworker, Loop.asWorker, hrunning, hpc]
  simp only [turnStep, hpc, Job.turn, clusterSetup] at hs
  simp only [Cluster.cluster, Cluster.turn, hmapping]
  cases hturn : job.turn I.files I.hash m.map c.disk with
  | threw =>
    rw [hturn] at hs
    cases hs
    exact ⟨_, rfl, by simp [Cluster.State.setWorker, Loop.asWorker, Loop.fail, hpc], rfl, rfl⟩
  | goesOn job' disk'' =>
    rw [hturn] at hs
    cases hs
    exact ⟨_, rfl, by simp [Cluster.State.setWorker, Loop.asWorker, hrunning], rfl, rfl⟩
  | done disk'' =>
    rw [hturn] at hs
    cases hs
    exact ⟨_, rfl, by simp [Cluster.State.setWorker, Loop.asWorker, hrunning], rfl, rfl⟩

end

end AdvancedOS.MapReduce.Server
