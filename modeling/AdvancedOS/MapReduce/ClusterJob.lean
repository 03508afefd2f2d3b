import AdvancedOS.MapReduce.Attended
import AdvancedOS.MapReduce.Delivery

/-!
# A cluster does a whole job

`State.job` is the job of a cluster as `EndToEnd.system` sees it: a shard is left until its worker takes it up,
and a worker owes its answer until `poll_workers` takes it. Until `run` removes the intermediate files, every
step of the cluster is a step of the job or none.

* `jobRefinement`: the cluster refines the job.
-/

namespace AdvancedOS.MapReduce.Cluster

open Lines Lts Lists Grouping WorkPool EndToEnd

variable {I : Input} {m : Mapper} {s t : State} {p : MapReduce.State FileShard} {a : Action} {k : Nat}
  {c : Call FileShard} {w : Str}

/-! ## The job of a cluster -/

/-- The answer of the worker to a map call waits for `poll_workers`. -/
def answered (calls : List (Call FileShard)) (w : Str) : Bool :=
  calls.any fun c => decide (c.workerIpAddr = w) && c.status.isSome && c.mapJob.isSome

def State.jobWorker (s : State) (w : Str) : EndToEnd.Worker :=
  match s.workers w with
  | .idle => if answered s.process.calls w then .finished else .idle
  | .mapping job => .mapping job
  | .mapped => .finished
  | .crashed job => .crashed job
  | .threw => .idle

def State.job (s : State) : EndToEnd.State where
  disk := s.disk
  pending := s.process.calls.filterMap (mapLeft s.workers) ++ (ledger s.process).shardsLeft
  workers := s.jobWorker
  intermediateFiles := s.process.master.intermediateFiles
  reduced := s.reduced

theorem answered_iff : answered p.calls w = true ↔
    ∃ c ∈ p.calls, c.workerIpAddr = w ∧ c.status.isSome ∧ c.mapJob.isSome := by
  simp [answered, and_assoc]

/-- A worker without a map call that was answered. -/
theorem not_answered {l : List (Call FileShard)}
    (h : ∀ c ∈ l, c.workerIpAddr = w → c.status = none ∨ c.mapJob = none) : answered l w = false := by
  refine List.any_eq_false.mpr fun c hc htrue => ?_
  simp only [Bool.and_eq_true, decide_eq_true_eq] at htrue
  rcases h c hc htrue.1.1 with hnone | hnone
  · rw [hnone] at htrue
    exact Bool.false_ne_true htrue.1.2
  · rw [hnone] at htrue
    exact Bool.false_ne_true htrue.2

/-- The one call of a worker says whether there is an answer. -/
theorem Sound.answered_eq (h : Sound I p) (hcall : p.calls[k]? = some c) :
    answered p.calls c.workerIpAddr = (c.status.isSome && c.mapJob.isSome) := by
  obtain ⟨before, after, hsplit, -, -, hothers⟩ := h.around hcall
  have hnone : ∀ l : List (Call FileShard), (∀ x ∈ l, x.workerIpAddr ≠ c.workerIpAddr) →
      answered l c.workerIpAddr = false :=
    fun l hl => not_answered fun x hx heq => absurd heq (hl x hx)
  have hb := hnone before fun x hx => hothers x (.inl hx)
  have ha := hnone after fun x hx => hothers x (.inr hx)
  unfold answered at hb ha ⊢
  rw [hsplit, List.any_append, List.any_cons, hb, ha]
  simp

theorem answered_others {before after : List (Call FileShard)} {c c' : Call FileShard}
    (hc : c.workerIpAddr ≠ w) (hc' : c'.workerIpAddr ≠ w) :
    answered (before ++ c' :: after) w = answered (before ++ c :: after) w := by
  simp [answered, hc, hc']

theorem answered_erase {before after : List (Call FileShard)} {c : Call FileShard}
    (hc : c.workerIpAddr ≠ w ∨ c.mapJob = none) :
    answered (before ++ after) w = answered (before ++ c :: after) w := by
  rcases hc with hc | hc <;> simp [answered, hc]

theorem answered_append {l : List (Call FileShard)} {c : Call FileShard} (hc : c.status = none) :
    answered (l ++ [c]) w = answered l w := by
  simp [answered, hc]

theorem removeAll_nil (disk : Files) : removeAll [] disk = disk := by
  funext f
  simp [removeAll]

theorem State.job_eq (hdisk : t.disk = s.disk) (hpending : t.job.pending = s.job.pending)
    (hworkers : t.jobWorker = s.jobWorker)
    (hfiles : t.process.master.intermediateFiles = s.process.master.intermediateFiles)
    (hreduced : t.reduced = s.reduced) : t.job = s.job := by
  simp only [State.job] at hpending ⊢
  rw [hdisk, hpending, hworkers, hfiles, hreduced]

/-- Two calls to one worker are the same call. -/
theorem Sound.call_eq (h : Sound I p) (hcall : p.calls[k]? = some c) {x : Call FileShard} (hx : x ∈ p.calls)
    (heq : x.workerIpAddr = c.workerIpAddr) : x = c := by
  obtain ⟨before, after, hsplit, -, -, hothers⟩ := h.around hcall
  rw [hsplit, List.mem_append, List.mem_cons] at hx
  rcases hx with hx | rfl | hx
  · exact absurd heq (hothers x (.inl hx))
  · rfl
  · exact absurd heq (hothers x (.inr hx))

theorem Attended.idle_of_answered (h : Attended s) (hsound : Sound I s.process) {ip : Str} {job : Job FileShard}
    {ok : Bool} (hcall : s.process.calls[k]? = some ⟨ip, job, some ok⟩) : s.workers ip = .idle := by
  have hnone : ∀ job', ⟨ip, job', none⟩ ∉ s.process.calls := by
    intro job' hmem
    cases hsound.call_eq hcall hmem rfl
  cases hworker : s.workers ip with
  | idle => rfl
  | mapping _ | mapped | crashed _ =>
    obtain ⟨shard, hmem⟩ := h.maps ip (by rw [hworker]; rfl)
    exact absurd hmem (hnone _)
  | threw =>
    obtain ⟨p, files, hmem⟩ := h.threw ip hworker
    exact absurd hmem (hnone _)

/-! ## Steps of the master -/

theorem jobWorker_of_idle (hworker : s.workers w = .idle) :
    s.jobWorker w = if answered s.process.calls w then .finished else .idle := by
  unfold State.jobWorker
  rw [hworker]

/-- The master takes the answer to a map call. -/
theorem job_acceptMap (h : Attended s) (hsound : Sound I s.process) {ip : Str} {shard : FileShard}
    (hcall : s.process.calls[k]? = some ⟨ip, .map shard, some true⟩)
    (hledger : ledger p = { ledger s.process with
      calls := s.process.calls.eraseIdx k
      files := (mapResultFiles s.process.master.numPartitions ip).foldl (fun files f => insertFile f files)
        s.process.master.intermediateFiles }) :
    answer I ip s.job = some (s.advance p).job := by
  have hcalls : p.calls = s.process.calls.eraseIdx k := congrArg Ledger.calls hledger
  have hleft : (ledger p).shardsLeft = (ledger s.process).shardsLeft := by rw [hledger]
  have hfiles : p.master.intermediateFiles = (mapResultFiles I.nOutputFiles ip).foldl
      (fun files f => insertFile f files) s.process.master.intermediateFiles := by
    have hpartitions : s.process.master.numPartitions = I.nOutputFiles := hsound.grounded.numPartitions
    rw [← hpartitions]
    exact congrArg Ledger.files hledger
  have hremoved : p.removed = s.process.removed := congrArg Ledger.removed hledger
  have hworker := h.idle_of_answered hsound hcall
  obtain ⟨before, after, hsplit, herase, -, hothers⟩ := hsound.around hcall
  have hfinished : s.job.workers ip = .finished := by
    have hanswered := hsound.answered_eq hcall
    show s.jobWorker ip = _
    rw [jobWorker_of_idle hworker, hanswered]
    rfl
  have hworkers : (s.advance p).jobWorker = Function.update s.jobWorker ip .idle := by
    funext x
    by_cases hx : x = ip
    · subst hx
      have hnone : answered (before ++ after) x = false :=
        not_answered fun c hc heq => absurd heq (hothers c (List.mem_append.mp hc))
      rw [Function.update_self, jobWorker_of_idle (s := s.advance p) hworker]
      simp [State.advance, hcalls, herase, hnone]
    · have hsame : answered p.calls x = answered s.process.calls x := by
        rw [hcalls, herase, hsplit]
        exact answered_erase (.inl (Ne.symm hx))
      rw [Function.update_of_ne hx]
      simp only [State.jobWorker, State.advance, hsame]
  have hpending : (s.advance p).job.pending = s.job.pending := by
    show p.calls.filterMap (mapLeft s.workers) ++ (ledger p).shardsLeft = _
    rw [State.job, hcalls, herase, hleft, hsplit, List.filterMap_append, List.filterMap_append,
      List.filterMap_cons_none rfl]
  simp only [answer, hfinished]
  rw [Option.some.injEq]
  have hdisk : (s.advance p).disk = s.disk := by simp [State.advance, hremoved, removeAll_nil]
  simp only [State.job] at hpending
  simp only [State.job, EndToEnd.State.setWorker, hworkers, hpending, hdisk]
  exact congrArg (EndToEnd.State.mk _ _ _ · _) hfiles.symm

theorem jobWorker_advance (hanswered : ∀ w, answered p.calls w = answered s.process.calls w) :
    (s.advance p).jobWorker = s.jobWorker := by
  funext w
  simp only [State.jobWorker, State.advance, hanswered]

/-- A step of the master's process other than the last one of `run`. -/
theorem job_master (h : Attended s) (hsound : Sound I s.process) (heffect : Effect s.process (ledger p))
    (hrun : hasReturned p.run = false) :
    (s.advance p).job = s.job ∨ ∃ w ∈ I.workers, answer I w s.job = some (s.advance p).job := by
  generalize hl : ledger p = l at heffect
  have hcalls := congrArg Ledger.calls hl
  have hleft := congrArg Ledger.shardsLeft hl
  have hfiles := congrArg Ledger.files hl
  have hremoved := congrArg Ledger.removed hl
  simp only [ledger] at hcalls hleft hfiles hremoved
  cases heffect with
  | quiet =>
    refine .inl (State.job_eq ?_ ?_ (jobWorker_advance fun w => ?_) hfiles rfl)
    · simp [State.advance, hremoved, ledger, removeAll_nil]
    · simp only [State.job, State.advance, ledger, hcalls, hleft]
    · rw [hcalls]
      rfl
  | @sendMap i ip shard rest hsend hshard =>
    have hidle := h.idle (hsound.notMem_callers hsend)
    refine .inl (State.job_eq ?_ ?_ (jobWorker_advance fun w => ?_) hfiles rfl)
    · simp [State.advance, hremoved, ledger, removeAll_nil]
    · have hnew : mapLeft s.workers ⟨ip, .map shard, none⟩ = some shard := by
        simp [mapLeft, hidle, Worker.isIdle]
      show p.calls.filterMap (mapLeft s.workers) ++ p.run.pendingShards p.master.shards = _
      rw [hcalls, hleft, List.filterMap_append, List.filterMap_cons_some hnew, List.filterMap_nil,
        List.append_assoc, List.singleton_append, ← hshard]
      rfl
    · rw [hcalls]
      exact answered_append rfl
  | @sendReduce i ip q files hsend =>
    refine .inl (State.job_eq ?_ ?_ (jobWorker_advance fun w => ?_) hfiles rfl)
    · simp [State.advance, hremoved, ledger, removeAll_nil]
    · have hnew : mapLeft s.workers ⟨ip, .reduce q files, none⟩ = none := rfl
      show p.calls.filterMap (mapLeft s.workers) ++ p.run.pendingShards p.master.shards = _
      rw [hcalls, hleft, List.filterMap_append, List.filterMap_cons_none hnew, List.filterMap_nil, List.append_nil]
      rfl
    · rw [hcalls]
      exact answered_append rfl
  | @acceptMap k ip shard hcall =>
    have hip := hsound.orderly.caller (List.mem_of_getElem? hcall)
    exact .inr ⟨ip, hip, job_acceptMap h hsound hcall hl⟩
  | @acceptReduce k ip q files hcall =>
    obtain ⟨before, after, hsplit, herase, -, -⟩ := hsound.around hcall
    refine .inl (State.job_eq ?_ ?_ (jobWorker_advance fun w => ?_) hfiles rfl)
    · simp [State.advance, hremoved, ledger, removeAll_nil]
    · have hnone : mapLeft s.workers ⟨ip, .reduce q files, some true⟩ = none := rfl
      show p.calls.filterMap (mapLeft s.workers) ++ p.run.pendingShards p.master.shards = _
      rw [hcalls, hleft, herase, State.job, hsplit, List.filterMap_append, List.filterMap_append,
        List.filterMap_cons_none hnone]
    · rw [hcalls, herase, hsplit]
      exact answered_erase (.inr rfl)
  | remove _ =>
    have hreturned : hasReturned p.run = true := congrArg Ledger.returned hl
    rw [hrun] at hreturned
    cases hreturned

/-! ## Steps of the workers -/

theorem job_setWorker (worker : Worker) (worker' : EndToEnd.Worker) (disk : Files)
    (hworker : ∀ calls, (State.mk calls s.disk (Function.update s.workers w worker) s.reduced).jobWorker w = worker') :
    ({ s.setWorker w worker with disk := disk } : State).jobWorker = Function.update s.jobWorker w worker' := by
  funext x
  by_cases hx : x = w
  · subst hx
    rw [Function.update_self]
    exact hworker s.process
  · rw [Function.update_of_ne hx]
    simp only [State.jobWorker, State.setWorker, Function.update_of_ne hx]
    rfl

/-- A worker takes up a map call. -/
theorem job_accept (hsound : Sound I s.process) (hs : accept I k s = some t) :
    ∃ w ∈ I.workers, ∃ i, assign I w i s.job = some t.job := by
  unfold Cluster.accept at hs
  split at hs
  · next ip shard hcall =>
    split at hs
    · next hworker =>
      cases hs
      have hip := hsound.orderly.caller (List.mem_of_getElem? hcall)
      obtain ⟨before, after, hsplit, -, -, hothers⟩ := hsound.around hcall
      have hidle : s.job.workers ip = .idle := by
        have hanswered := hsound.answered_eq hcall
        show s.jobWorker ip = _
        rw [jobWorker_of_idle hworker, hanswered]
        rfl
      have hold : mapLeft s.workers ⟨ip, .map shard, none⟩ = some shard := by
        simp [mapLeft, hworker, Worker.isIdle]
      have hpending : s.job.pending = before.filterMap (mapLeft s.workers) ++
          shard :: (after.filterMap (mapLeft s.workers) ++ (ledger s.process).shardsLeft) := by
        rw [State.job, hsplit, List.filterMap_append, List.filterMap_cons_some hold, List.append_assoc,
          List.cons_append]
      refine ⟨ip, hip, (before.filterMap (mapLeft s.workers)).length, ?_⟩
      have hshard : s.job.pending[(before.filterMap (mapLeft s.workers)).length]? = some shard := by
        rw [hpending, List.getElem?_append_right (Nat.le_refl _), Nat.sub_self, List.getElem?_cons_zero]
      have herase : s.job.pending.eraseIdx (before.filterMap (mapLeft s.workers)).length =
          (s.setWorker ip (.mapping (.start I.nOutputFiles ip shard))).job.pending := by
        rw [hpending, List.eraseIdx_append_of_length_le (Nat.le_refl _), Nat.sub_self, List.eraseIdx_cons_zero]
        show _ = s.process.calls.filterMap (mapLeft (Function.update s.workers ip _)) ++ _
        rw [hsplit, List.filterMap_append, List.filterMap_cons_none (by simp [mapLeft, Worker.isIdle]),
          filterMap_others mapLeft_congr _ fun x hx => hothers x (.inl hx),
          filterMap_others mapLeft_congr _ fun x hx => hothers x (.inr hx), List.append_assoc]
        rfl
      simp only [assign, hidle, hshard, herase]
      have hworkers := job_setWorker (s := s) (w := ip) (.mapping (.start I.nOutputFiles ip shard))
        (.mapping (.start I.nOutputFiles ip shard)) s.disk fun _ => by simp [State.jobWorker]
      rw [Option.some.injEq]
      exact congrArg (EndToEnd.State.mk _ _ · _ _) hworkers.symm
    · cases hs
  · cases hs

theorem job_turn (h : Attended s) (hsound : Sound I s.process) (hs : turn I m w s = some t) :
    w ∈ I.workers ∧ EndToEnd.turn I m w s.job = some t.job := by
  unfold Cluster.turn at hs
  split at hs
  · next job hjob =>
    obtain ⟨shard, hcall⟩ := h.maps w (by rw [hjob]; rfl)
    refine ⟨hsound.orderly.caller hcall, ?_⟩
    have hworker : s.job.workers w = .mapping job := by
      show s.jobWorker w = _
      rw [State.jobWorker, hjob]
    have hpending : ∀ (worker : Worker) (disk : Files), worker.isIdle = false →
        ({ s.setWorker w worker with disk := disk } : State).job.pending = s.job.pending := by
      intro worker disk hbusy
      show s.process.calls.filterMap (mapLeft (Function.update s.workers w worker)) ++ _ = _
      rw [List.filterMap_congr fun x _ => mapLeft_congr ?_]
      · rfl
      · by_cases hx : x.workerIpAddr = w
        · rw [hx, Function.update_self, hbusy, hjob]
          rfl
        · exact isIdle_update worker hx
    -- the job after the worker has changed
    have hjob' : ∀ (worker : Worker) (worker' : EndToEnd.Worker) (disk : Files), worker.isIdle = false →
        (∀ calls, (State.mk calls s.disk (Function.update s.workers w worker) s.reduced).jobWorker w = worker') →
        ({ s.setWorker w worker with disk := disk } : State).job = { s.job.setWorker w worker' with disk := disk } := by
      intro worker worker' disk hbusy hset
      have hp := hpending worker disk hbusy
      have hw := job_setWorker _ _ disk hset
      simp only [State.job] at hp ⊢
      rw [hp, hw]
      rfl
    simp only [EndToEnd.turn, hworker]
    have hdisk : s.job.disk = s.disk := rfl
    rw [hdisk]
    cases hturn : job.turn I.files I.hash m.map s.disk with
    | threw =>
      rw [hturn] at hs
      cases hs
      exact congrArg some (hjob' _ (.crashed job) s.disk rfl fun _ => by simp [State.jobWorker]).symm
    | goesOn _ _ =>
      rw [hturn] at hs
      cases hs
      exact congrArg some (hjob' _ (.mapping _) _ rfl fun _ => by simp [State.jobWorker]).symm
    | done _ =>
      rw [hturn] at hs
      cases hs
      exact congrArg some (hjob' _ .finished _ rfl fun _ => by simp [State.jobWorker]).symm
  · cases hs

/-- The answer to a map call is the answer of the job, until `poll_workers` takes it. -/
theorem job_respond (hsound : Sound I s.process) (hs : respond k s = some t) : t.job = s.job := by
  unfold Cluster.respond at hs
  split at hs
  · next ip shard hcall =>
    split at hs
    · next hworker =>
      obtain ⟨process, hnext, rfl⟩ := Option.map_eq_some_iff.mp hs
      obtain rfl := respond_next hcall hnext
      obtain ⟨before, after, hsplit, -, hset, hothers⟩ := hsound.around hcall
      refine State.job_eq rfl ?_ ?_ rfl rfl
      · show (s.process.calls.set k _).filterMap (mapLeft (Function.update s.workers ip .idle)) ++ _ = _
        have hold : mapLeft s.workers ⟨ip, .map shard, none⟩ = none := by simp [mapLeft, hworker, Worker.isIdle]
        rw [hset, List.filterMap_append, List.filterMap_cons_none rfl, State.job, hsplit, List.filterMap_append,
          List.filterMap_cons_none hold, filterMap_others mapLeft_congr _ fun x hx => hothers x (.inl hx),
          filterMap_others mapLeft_congr _ fun x hx => hothers x (.inr hx)]
        rfl
      · funext x
        by_cases hx : x = ip
        · subst hx
          have hanswered : answered (before ++ ⟨x, .map shard, some true⟩ :: after) x = true := by
            simp [answered, Call.mapJob]
          simp [State.jobWorker, State.setWorker, hworker, hset, hanswered]
        · have hsame : answered (s.process.calls.set k ⟨ip, .map shard, some true⟩) x =
              answered s.process.calls x := by
            rw [hset, hsplit]
            exact answered_others (Ne.symm hx) (Ne.symm hx)
          simp only [State.jobWorker, State.setWorker, Function.update_of_ne hx, hsame]
    · cases hs
  · cases hs

/-- All map jobs are over when there is a reduce call. -/
theorem Attended.mapped (h : Attended s) (hsound : Sound I s.process) {ip : Str} {q : Int} {files : List Str}
    {status : Option Bool} (hcall : ⟨ip, .reduce q files, status⟩ ∈ s.process.calls) : s.job.Mapped I := by
  have hmap : s.process.master.mapComplete = true := by
    by_contra hne
    cases hsound.grounded.noReduce (Bool.eq_false_of_not_eq_true hne) _ hcall
  obtain ⟨hpending, hnone, -⟩ :=
    hsound.orderly.map_counted hsound.grounded (hsound.orderly.control.counted_map hmap)
  have hno : ∀ c ∈ s.process.calls, c.mapJob = none := List.filterMap_eq_nil_iff.mp hnone
  have hidle : ∀ w, (s.workers w).hasMap = false := by
    intro w
    by_contra hbusy
    obtain ⟨shard, hmem⟩ := h.maps w (Bool.eq_true_of_not_eq_false hbusy)
    cases hno _ hmem
  refine ⟨?_, fun w _ => ?_⟩
  · have hleft : s.process.calls.filterMap (mapLeft s.workers) = [] := by
      refine List.filterMap_eq_nil_iff.mpr fun c hc => ?_
      obtain ⟨w, job, status⟩ := c
      cases job with
      | map shard => cases hno _ hc
      | reduce _ _ => rfl
    show _ ++ s.process.run.pendingShards s.process.master.shards = []
    rw [hleft, hpending]
    rfl
  · have hworker := hidle w
    show (s.jobWorker w).isIdle = true
    unfold State.jobWorker
    split
    · rw [not_answered fun c hc _ => .inr (hno c hc)]
      rfl
    · next heq => simp [heq, Worker.hasMap] at hworker
    · next heq => simp [heq, Worker.hasMap] at hworker
    · next heq => simp [heq, Worker.hasMap] at hworker
    · rfl

theorem Attended.notMem_reduced (h : Attended s) (hsound : Sound I s.process) {ip : Str} {n : Nat}
    {files : List Str} (hcall : s.process.calls[k]? = some ⟨ip, .reduce n files, none⟩)
    (hworker : s.workers ip = .idle) : n ∉ s.reduced.map Prod.fst := by
  intro hmem
  have hnodup := h.reduces.nodup_iff.mpr hsound.sent_nodup
  have hleft : (n : Int) ∈ s.process.calls.filterMap (reduceLeft s.workers) := by
    refine List.mem_filterMap.mpr ⟨_, List.mem_of_getElem? hcall, ?_⟩
    simp [reduceLeft, hworker, Worker.isIdle]
  obtain ⟨x, hx, rfl⟩ := List.mem_map.mp hmem
  exact (List.nodup_append.mp hnodup).2.2 _ (List.mem_map.mpr ⟨x, hx, rfl⟩) _ hleft rfl

theorem reduceStep_none {j : EndToEnd.State} {n : Nat}
    (hguard : j.Mapped I ∧ n < I.nOutputFiles ∧ n ∉ j.reduced.map Prod.fst)
    (hjob : handleReduceJob I.reduce ⟨I.outputDir, n, filesOf j.intermediateFiles n⟩ j.disk = none) :
    reduceStep I n j = some { j with reduced := j.reduced ++ [(n, none)] } := by
  rw [reduceStep, if_pos hguard, hjob]

theorem reduceStep_some {j : EndToEnd.State} {n : Nat} {calls : Groups Str Str} {disk : Files}
    (hguard : j.Mapped I ∧ n < I.nOutputFiles ∧ n ∉ j.reduced.map Prod.fst)
    (hjob : handleReduceJob I.reduce ⟨I.outputDir, n, filesOf j.intermediateFiles n⟩ j.disk = some (calls, disk)) :
    reduceStep I n j = some { j with disk := disk, reduced := j.reduced ++ [(n, some calls)] } := by
  rw [reduceStep, if_pos hguard, hjob]

/-- A reduce call is the reduce job of its partition. -/
theorem job_reduce (h : Attended s) (hsound : Sound I s.process) (hs : reduce I k s = some t) :
    ∃ n, reduceStep I n s.job = some t.job := by
  unfold Cluster.reduce at hs
  split at hs
  · next ip q files hcall =>
    split at hs
    · next hworker =>
      obtain ⟨n, hn, rfl, hfiles⟩ := h.query hsound hcall
      obtain ⟨before, after, hsplit, -, hset, hothers⟩ := hsound.around hcall
      have hguard : s.job.Mapped I ∧ n < I.nOutputFiles ∧ n ∉ s.job.reduced.map Prod.fst :=
        ⟨h.mapped hsound (List.mem_of_getElem? hcall), hn, h.notMem_reduced hsound hcall hworker⟩
      have hsame : ∀ c : Call FileShard, c.workerIpAddr = ip → c.mapJob = none →
          answered (before ++ c :: after) = answered s.process.calls := by
        intro c hc hmap
        funext x
        rw [hsplit]
        by_cases hx : ip = x
        · rw [← answered_erase (.inr hmap), ← answered_erase (.inr rfl)]
        · exact answered_others hx (hc ▸ hx)
      refine ⟨n, ?_⟩
      rw [Int.toNat_natCast] at hs
      cases hjob : handleReduceJob I.reduce ⟨I.outputDir, n, files⟩ s.disk with
      | none =>
        rw [hjob] at hs
        cases hs
        rw [hfiles] at hjob
        rw [reduceStep_none hguard hjob]
        have hworkers : ({ s.setWorker ip .threw with reduced := s.reduced ++ [(n, none)] } : State).jobWorker =
            s.jobWorker := by
          funext x
          by_cases hx : x = ip
          · subst hx
            have hanswered := hsound.answered_eq hcall
            rw [jobWorker_of_idle hworker, hanswered]
            simp [State.jobWorker, State.setWorker]
          · simp only [State.jobWorker, State.setWorker, Function.update_of_ne hx]
            rfl
        have hpending : s.process.calls.filterMap (mapLeft (Function.update s.workers ip .threw)) =
            s.process.calls.filterMap (mapLeft s.workers) := by
          rw [hsplit, List.filterMap_append, List.filterMap_append, List.filterMap_cons_none rfl,
            List.filterMap_cons_none rfl, filterMap_others mapLeft_congr _ fun x hx => hothers x (.inl hx),
            filterMap_others mapLeft_congr _ fun x hx => hothers x (.inr hx)]
        simp only [State.job, hworkers, Option.some.injEq]
        exact congrArg (fun pending => EndToEnd.State.mk _ (pending ++ _) _ _ _) hpending.symm
      | some x =>
        obtain ⟨calls, disk⟩ := x
        rw [hjob] at hs
        rw [hfiles] at hjob
        rw [reduceStep_some hguard hjob]
        obtain ⟨process, hnext, rfl⟩ := Option.map_eq_some_iff.mp hs
        obtain rfl := respond_next hcall hnext
        have hcalls := hset ⟨ip, .reduce n files, some true⟩
        have hpending : (before ++ ⟨ip, .reduce n files, some true⟩ :: after).filterMap (mapLeft s.workers) =
            s.process.calls.filterMap (mapLeft s.workers) := by
          rw [hsplit, List.filterMap_append, List.filterMap_append, List.filterMap_cons_none rfl,
            List.filterMap_cons_none rfl]
        have hanswered := hsame ⟨ip, .reduce n files, some true⟩ rfl rfl
        have hworkers : (State.mk
            { s.process with calls := s.process.calls.set k ⟨ip, .reduce n files, some true⟩ } disk s.workers
            (s.reduced ++ [(n, some calls)])).jobWorker = s.jobWorker := by
          funext x
          simp only [State.jobWorker, hcalls, hanswered]
        simp only [State.job, Option.some.injEq]
        rw [hworkers]
        simp only [hcalls, hpending, ledger]
    · cases hs
  · cases hs

/-! ## The refinement -/

/-- The step is not the last one of `run`, which removes the intermediate files. -/
def Keeps (I : Input) (m : Mapper) (a : Action) (s : State) : Prop :=
  ∀ t, (cluster I m).next a s = some t → hasReturned t.process.run = false

/-- Until `run` returns, a step of the cluster is a step of the job or none. -/
def jobRefinement (I : Input) (m : Mapper) (hshards : I.shards ≠ []) :
    Refinement (cluster I m) (Keeps I m) (EndToEnd.system I m) fun _ _ => True where
  abs := State.job
  init := rfl
  step {s t a} hr hok hs := by
    have hr := hr.reach
    have hsound := sound_reach hshards hr
    have h := attended_reach hshards hr
    cases a with
    | master a =>
      have hrun := hok t hs
      obtain ⟨hby, hs⟩ := Option.ite_none_right_eq_some.mp hs
      obtain ⟨process, hnext, rfl⟩ := Option.map_eq_some_iff.mp hs
      have heffect := effect_of_move hsound.grounded hsound.orderly (move_of_next hnext) hby
      rcases job_master h hsound heffect hrun with hsame | ⟨w, hw, hanswer⟩
      · exact .inl hsame
      · exact .inr ⟨.answer w, trivial, (if_pos hw).trans hanswer⟩
    | accept k =>
      obtain ⟨w, hw, i, hassign⟩ := job_accept hsound hs
      exact .inr ⟨.assign w i, trivial, (if_pos hw).trans hassign⟩
    | turn w =>
      obtain ⟨hw, hturn⟩ := job_turn h hsound hs
      exact .inr ⟨.turn w, trivial, (if_pos hw).trans hturn⟩
    | respond k => exact .inl (job_respond hsound hs)
    | reduce k =>
      obtain ⟨n, hreduce⟩ := job_reduce h hsound hs
      exact .inr ⟨.reduce n, trivial, hreduce⟩

end AdvancedOS.MapReduce.Cluster
