import AdvancedOS.MapReduce.Cluster

/-!
# The workers of a cluster

`Attended` connects the workers with the calls of the master: a worker that is not idle has a call without an
answer in its hands, a reduce call carries the files of its partition, and each partition that was sent has
been reduced or is left to its worker.

* `Sound`: what is known of the master's process in a run without failures.
* `attended_reach`: `Attended` holds in every run.
-/

namespace AdvancedOS.MapReduce.Cluster

open Lines Lts Lists Grouping WorkPool EndToEnd

/-! ## Who works on what -/

/-- The shard of a map call that its worker has not taken up. -/
def mapLeft (workers : Str → Worker) : Call FileShard → Option FileShard
  | ⟨ip, .map shard, none⟩ => if (workers ip).isIdle then some shard else none
  | _ => none

/-- The partition of a reduce call that its worker has not taken up. -/
def reduceLeft (workers : Str → Worker) : Call FileShard → Option Int
  | ⟨ip, .reduce p _, none⟩ => if (workers ip).isIdle then some p else none
  | _ => none

/-- A worker that is not idle works on a call that has no answer; the reduce calls are those sent; and a
partition that was sent has been reduced, or is left. -/
structure Attended (s : State) : Prop where
  maps : ∀ w, (s.workers w).hasMap = true → ∃ shard, ⟨w, .map shard, none⟩ ∈ s.process.calls
  threw : ∀ w, s.workers w = .threw → ∃ p files, ⟨w, .reduce p files, none⟩ ∈ s.process.calls
  sent : ∀ ip p files status, ⟨ip, .reduce p files, status⟩ ∈ s.process.calls →
    (ip, p, files) ∈ s.process.reduceSent
  reduces : ((s.reduced.map fun x => (x.1 : Int)) ++ s.process.calls.filterMap (reduceLeft s.workers)).Perm
    (s.process.reduceSent.map fun x => x.2.1)

/-- What is known of the master's process. -/
structure Sound (I : Input) (s : MapReduce.State FileShard) : Prop where
  grounded : Grounded (spec I) s
  orderly : Orderly (spec I) s
  filed : Filed (spec I) s

variable {I : Input} {m : Mapper} {s t : State} {p : MapReduce.State FileShard} {a : Action} {k : Nat}
  {c : Call FileShard} {w : Str}

theorem sound_reach (hshards : I.shards ≠ []) (h : Reach (cluster I m) s) : Sound I s.process := by
  classical
  have hreach := (masterRefinement I m).reach h
  exact ⟨grounded_reach hreach, orderly_reach (fun _ _ hok => hok) hreach,
    filed_reach hshards (fun _ _ hok => hok) hreach⟩

theorem Sound.callers (h : Sound I p) : (p.calls.map Call.workerIpAddr).Nodup := by
  have hnodup := h.orderly.queue.nodup_iff.mpr (List.Nodup.of_map _ I.ports_nodup)
  rw [State.whereabouts] at hnodup
  exact (List.nodup_append.mp hnodup).2.1

theorem Sound.notMem_callers (h : Sound I p) {ph : Phase} {i : Nat} {ip : Str} (hrun : p.run = .send ph i ip) :
    ip ∉ p.calls.map Call.workerIpAddr := by
  have hnodup := h.orderly.queue.nodup_iff.mpr (List.Nodup.of_map _ I.ports_nodup)
  rw [State.whereabouts, hrun] at hnodup
  have hdisjoint := (List.nodup_append.mp hnodup).2.2
  exact fun hmem => hdisjoint ip (List.mem_append_right _ (List.mem_singleton_self ip)) ip hmem rfl

/-- The other calls are calls to other workers. -/
theorem Sound.around (h : Sound I p) (hcall : p.calls[k]? = some c) :
    ∃ before after, p.calls = before ++ c :: after ∧ p.calls.eraseIdx k = before ++ after ∧
      (∀ c', p.calls.set k c' = before ++ c' :: after) ∧
      ∀ x, x ∈ before ∨ x ∈ after → x.workerIpAddr ≠ c.workerIpAddr := by
  obtain ⟨before, after, hsplit, herase, hset⟩ := exists_around hcall
  refine ⟨before, after, hsplit, herase, hset, fun x hx heq => ?_⟩
  have hnodup := h.callers
  rw [hsplit, List.map_append, List.map_cons, List.nodup_middle, List.nodup_cons, List.mem_append] at hnodup
  refine hnodup.1 (heq ▸ ?_)
  exact hx.imp List.mem_map_of_mem List.mem_map_of_mem

theorem mapLeft_congr {workers workers' : Str → Worker}
    (h : (workers' c.workerIpAddr).isIdle = (workers c.workerIpAddr).isIdle) :
    mapLeft workers' c = mapLeft workers c := by
  unfold mapLeft
  split
  · rw [h]
  · rfl

theorem reduceLeft_congr {workers workers' : Str → Worker}
    (h : (workers' c.workerIpAddr).isIdle = (workers c.workerIpAddr).isIdle) :
    reduceLeft workers' c = reduceLeft workers c := by
  unfold reduceLeft
  split
  · rw [h]
  · rfl

theorem isIdle_update {workers : Str → Worker} {ip w : Str} (worker : Worker) (h : w ≠ ip) :
    (Function.update workers ip worker w).isIdle = (workers w).isIdle := by
  rw [Function.update_of_ne h]

/-- A worker that has no call is idle. -/
theorem Attended.idle (h : Attended s) (hw : w ∉ s.process.calls.map Call.workerIpAddr) : s.workers w = .idle := by
  cases hworker : s.workers w with
  | idle => rfl
  | mapping _ | mapped | crashed _ =>
    obtain ⟨shard, hcall⟩ := h.maps w (by rw [hworker]; rfl)
    exact absurd (List.mem_map_of_mem hcall) hw
  | threw =>
    obtain ⟨p, files, hcall⟩ := h.threw w hworker
    exact absurd (List.mem_map_of_mem hcall) hw

theorem respond_next {ip : Str} {job : Job FileShard} {q : MapReduce.State FileShard} {ok : Bool}
    (hcall : p.calls[k]? = some ⟨ip, job, none⟩) (h : p.next (.respond k ok) = some q) :
    q = { p with calls := p.calls.set k ⟨ip, job, some ok⟩ } := by
  unfold State.next at h
  obtain ⟨-, h⟩ := Option.ite_none_left_eq_some.mp h
  replace h : p.respond k ok = some q := h
  rw [State.respond, hcall] at h
  exact (Option.some.inj h).symm

theorem attended_init : Attended (cluster I m).init where
  maps _ h := by cases h
  threw _ h := by cases h
  sent _ _ _ _ h := by cases h
  reduces := .refl _

/-- The frame of `Attended`: the workers stay, and no call without an answer goes. -/
theorem Attended.frame (h : Attended s) (hworkers : t.workers = s.workers) (hreduced : t.reduced = s.reduced)
    (hcalls : ∀ w job, ⟨w, job, none⟩ ∈ s.process.calls → ⟨w, job, none⟩ ∈ t.process.calls)
    (hsent : ∀ ip p files status, ⟨ip, .reduce p files, status⟩ ∈ t.process.calls →
      (ip, p, files) ∈ t.process.reduceSent)
    (hreduces : ((s.reduced.map fun x => (x.1 : Int)) ++ t.process.calls.filterMap (reduceLeft s.workers)).Perm
      (t.process.reduceSent.map fun x => x.2.1)) : Attended t where
  maps w hw := by
    obtain ⟨shard, hcall⟩ := h.maps w (hworkers ▸ hw)
    exact ⟨shard, hcalls _ _ hcall⟩
  threw w hw := by
    obtain ⟨p, files, hcall⟩ := h.threw w (hworkers ▸ hw)
    exact ⟨p, files, hcalls _ _ hcall⟩
  sent := hsent
  reduces := by
    rw [hworkers, hreduced]
    exact hreduces

/-- An answered call goes. -/
theorem Attended.consume (h : Attended s) {ok : Bool} {ip : Str} {job : Job FileShard}
    (hcall : s.process.calls[k]? = some ⟨ip, job, some ok⟩) (hcalls : p.calls = s.process.calls.eraseIdx k)
    (hsent : p.reduceSent = s.process.reduceSent) : Attended (s.advance p) := by
  obtain ⟨before, after, hsplit, herase, -⟩ := exists_around hcall
  have hleft : reduceLeft s.workers ⟨ip, job, some ok⟩ = none := by cases job <;> rfl
  refine h.frame rfl rfl (fun w job' hmem => ?_) (fun w q files status hmem => ?_) ?_
  · show _ ∈ p.calls
    rw [hcalls, herase]
    rw [hsplit] at hmem
    simpa using hmem
  · refine hsent ▸ h.sent w q files status ?_
    exact List.mem_of_mem_eraseIdx (hcalls ▸ hmem)
  · have hreduces := h.reduces
    rw [hsplit, List.filterMap_append, List.filterMap_cons_none hleft, ← List.filterMap_append, ← herase,
      ← hcalls, ← hsent] at hreduces
    exact hreduces

theorem Attended.master (h : Attended s) (hsound : Sound I s.process) (heffect : Effect s.process (ledger p)) :
    Attended (s.advance p) := by
  generalize hl : ledger p = l at heffect
  have hcalls := congrArg Ledger.calls hl
  have hsent := congrArg Ledger.sent hl
  simp only [ledger] at hcalls hsent
  cases heffect with
  | quiet | remove _ =>
    simp only [ledger] at hcalls hsent
    refine h.frame rfl rfl (fun _ _ hmem => hcalls ▸ hmem) ?_ ?_
    · exact fun ip q files status hmem => hsent ▸ h.sent ip q files status (hcalls ▸ hmem)
    · show (_ ++ p.calls.filterMap _).Perm (p.reduceSent.map _)
      rw [hcalls, hsent]
      exact h.reduces
  | @sendMap i ip shard rest hrun hleft =>
    refine h.frame rfl rfl (fun w job hmem => ?_) (fun w q files status hmem => ?_) ?_
    · show _ ∈ p.calls
      rw [hcalls]
      exact List.mem_append_left _ hmem
    · replace hmem : _ ∈ p.calls := hmem
      rw [hcalls] at hmem
      refine hsent ▸ h.sent w q files status ?_
      simpa using hmem
    · show (_ ++ p.calls.filterMap _).Perm (p.reduceSent.map _)
      have hnew : reduceLeft s.workers ⟨ip, .map shard, none⟩ = none := rfl
      rw [hcalls, hsent, List.filterMap_append, List.filterMap_cons_none hnew, List.filterMap_nil, List.append_nil]
      exact h.reduces
  | @sendReduce i ip q files hrun =>
    have hidle := h.idle (hsound.notMem_callers hrun)
    refine h.frame rfl rfl (fun w job hmem => ?_) (fun w q' files' status hmem => ?_) ?_
    · show _ ∈ p.calls
      rw [hcalls]
      exact List.mem_append_left _ hmem
    · replace hmem : _ ∈ p.calls := hmem
      show _ ∈ p.reduceSent
      rw [hcalls] at hmem
      rw [hsent]
      rcases List.mem_append.mp hmem with hmem | hmem
      · exact List.mem_append_left _ (h.sent w q' files' status hmem)
      · cases List.mem_singleton.mp hmem
        exact List.mem_append_right _ (List.mem_singleton_self _)
    · show (_ ++ p.calls.filterMap _).Perm (p.reduceSent.map _)
      have hnew : reduceLeft s.workers ⟨ip, .reduce q files, none⟩ = some q := by
        simp [reduceLeft, hidle, Worker.isIdle]
      rw [hcalls, hsent, List.filterMap_append, List.filterMap_cons_some hnew, List.filterMap_nil, List.map_append,
        ← List.append_assoc]
      exact h.reduces.append_right _
  | acceptMap hcall => exact h.consume hcall hcalls hsent
  | acceptReduce hcall => exact h.consume hcall hcalls hsent

/-! ## What the workers do -/

/-- The calls around the one that a worker has in its hands, when only this worker changes. -/
theorem filterMap_others {β : Type} {f : (Str → Worker) → Call FileShard → Option β}
    (hf : ∀ {workers workers' : Str → Worker} {c : Call FileShard},
      (workers' c.workerIpAddr).isIdle = (workers c.workerIpAddr).isIdle → f workers' c = f workers c)
    {workers : Str → Worker} {ip : Str} (worker : Worker) {l : List (Call FileShard)}
    (h : ∀ x ∈ l, x.workerIpAddr ≠ ip) :
    l.filterMap (f (Function.update workers ip worker)) = l.filterMap (f workers) :=
  List.filterMap_congr fun x hx => hf (isIdle_update worker (h x hx))

theorem mem_around {before after : List (Call FileShard)} {c x : Call FileShard} (h : x ∈ before ++ c :: after)
    (hne : x ≠ c) (c' : Call FileShard) : x ∈ before ++ c' :: after := by
  simp only [List.mem_append, List.mem_cons] at h ⊢
  tauto

/-- A worker takes up the map call that it is idle for, takes a turn, or crashes. -/
theorem Attended.worker (h : Attended s) {worker : Worker} (disk : Files) (hmap : worker.hasMap = true)
    (hcall : ∃ shard, ⟨w, .map shard, none⟩ ∈ s.process.calls)
    (hleft : s.process.calls.filterMap (reduceLeft (Function.update s.workers w worker)) =
      s.process.calls.filterMap (reduceLeft s.workers)) :
    Attended { s.setWorker w worker with disk := disk } where
  maps x hx := by
    by_cases hxw : x = w
    · exact hxw ▸ hcall
    · simp only [State.setWorker, Function.update_of_ne hxw] at hx
      exact h.maps x hx
  threw x hx := by
    by_cases hxw : x = w
    · subst hxw
      simp only [State.setWorker, Function.update_self] at hx
      rw [hx] at hmap
      cases hmap
    · simp only [State.setWorker, Function.update_of_ne hxw] at hx
      exact h.threw x hx
  sent := h.sent
  reduces := by
    show (_ ++ s.process.calls.filterMap (reduceLeft (Function.update s.workers w worker))).Perm _
    rw [hleft]
    exact h.reduces

theorem Attended.accept (h : Attended s) (hsound : Sound I s.process) (hs : accept I k s = some t) :
    Attended t := by
  unfold Cluster.accept at hs
  split at hs
  · next ip shard hcall =>
    split at hs
    · cases hs
      obtain ⟨before, after, hsplit, -, -, hothers⟩ := hsound.around hcall
      refine h.worker s.disk rfl ⟨shard, List.mem_of_getElem? hcall⟩ ?_
      rw [hsplit, List.filterMap_append, List.filterMap_append, List.filterMap_cons_none rfl,
        List.filterMap_cons_none rfl, filterMap_others reduceLeft_congr _ fun x hx => hothers x (.inl hx),
        filterMap_others reduceLeft_congr _ fun x hx => hothers x (.inr hx)]
    · cases hs
  · cases hs

theorem Attended.turn (h : Attended s) (hs : turn I m w s = some t) : Attended t := by
  unfold Cluster.turn at hs
  split at hs
  · next job hjob =>
    have hcall := h.maps w (by rw [hjob]; rfl)
    have hsame : ∀ worker : Worker, worker.isIdle = false →
        s.process.calls.filterMap (reduceLeft (Function.update s.workers w worker)) =
          s.process.calls.filterMap (reduceLeft s.workers) := by
      intro worker hbusy
      refine List.filterMap_congr fun x _ => reduceLeft_congr ?_
      by_cases hx : x.workerIpAddr = w
      · rw [hx, Function.update_self, hbusy, hjob]
        rfl
      · exact isIdle_update worker hx
    split at hs <;> cases hs
    · exact h.worker s.disk rfl hcall (hsame _ rfl)
    · exact h.worker _ rfl hcall (hsame _ rfl)
    · exact h.worker _ rfl hcall (hsame _ rfl)
  · cases hs

theorem Attended.respond (h : Attended s) (hsound : Sound I s.process) (hs : respond k s = some t) :
    Attended t := by
  unfold Cluster.respond at hs
  split at hs
  · next ip shard hcall =>
    split at hs
    · next hworker =>
      obtain ⟨process, hnext, rfl⟩ := Option.map_eq_some_iff.mp hs
      obtain rfl := respond_next hcall hnext
      obtain ⟨before, after, hsplit, -, hset, hothers⟩ := hsound.around hcall
      have hkept : ∀ x job, x ≠ ip → ⟨x, job, none⟩ ∈ s.process.calls →
          ⟨x, job, none⟩ ∈ s.process.calls.set k ⟨ip, .map shard, some true⟩ := by
        intro x job hx hmem
        rw [hset]
        rw [hsplit] at hmem
        exact mem_around hmem (fun heq => hx (congrArg Call.workerIpAddr heq)) _
      refine ⟨fun x hx => ?_, fun x hx => ?_, fun x p files status hmem => ?_, ?_⟩
      · by_cases hxip : x = ip
        · subst hxip
          simp [State.setWorker, Worker.hasMap] at hx
        · simp only [State.setWorker, Function.update_of_ne hxip] at hx
          obtain ⟨shard', hmem⟩ := h.maps x hx
          exact ⟨shard', hkept x _ hxip hmem⟩
      · by_cases hxip : x = ip
        · subst hxip
          simp [State.setWorker] at hx
        · simp only [State.setWorker, Function.update_of_ne hxip] at hx
          obtain ⟨p, files, hmem⟩ := h.threw x hx
          exact ⟨p, files, hkept x _ hxip hmem⟩
      · refine h.sent x p files status ?_
        rcases List.mem_or_eq_of_mem_set hmem with hmem | heq
        · exact hmem
        · cases heq
      · have hreduces := h.reduces
        show (_ ++ (s.process.calls.set k _).filterMap (reduceLeft (Function.update s.workers ip .idle))).Perm _
        rw [hset, List.filterMap_append, List.filterMap_cons_none rfl,
          filterMap_others reduceLeft_congr _ fun x hx => hothers x (.inl hx),
          filterMap_others reduceLeft_congr _ fun x hx => hothers x (.inr hx)]
        rwa [hsplit, List.filterMap_append, List.filterMap_cons_none rfl] at hreduces
    · cases hs
  · cases hs

/-- A partition that is sent is one of the partitions. -/
theorem Sound.partition (h : Sound I p) {x : Str × Int × List Str} (hx : x ∈ p.reduceSent) :
    ∃ n < I.nOutputFiles, x.2.1 = (n : Int) := by
  have hmap : p.master.mapComplete = true := by
    by_contra hne
    have hnone := h.grounded.noSent (Bool.eq_false_of_not_eq_true hne)
    rw [hnone] at hx
    cases hx
  have hjobs : ((reduceView.pool p).jobs : Multiset Int) = p.idx2files.map Prod.fst := rfl
  have hmem : x.2.1 ∈ (reduceView.pool p).jobs := by
    rw [← h.orderly.reduces.jobs]
    refine Multiset.mem_add.mpr (.inl (Multiset.mem_map.mpr ⟨(x.1, x.2.1), ?_, rfl⟩))
    exact List.mem_map.mpr ⟨x, hx, rfl⟩
  rw [hjobs] at hmem
  have hstage : p.run.stage = .reducing := by
    by_contra hne
    rw [(h.grounded.notStarted hne).1] at hmem
    cases hmem
  obtain ⟨n, hn, heq⟩ := List.mem_map.mp ((h.filed.keys hstage).mem_iff.mp hmem)
  exact ⟨n, List.mem_range.mp hn, heq.symm⟩

theorem Sound.sent_nodup (h : Sound I p) : (p.reduceSent.map fun x => x.2.1).Nodup := by
  by_cases hstage : p.run.stage = .reducing
  · have hle : ((p.reduceSent.map fun x => x.2.1 : List Int) : Multiset Int) ≤ (p.idx2files.map Prod.fst : List Int) := by
      have hjobs := h.orderly.reduces.jobs
      have hsent : Multiset.map Prod.snd (reduceView.pool p).sent =
          ((p.reduceSent.map fun x => x.2.1 : List Int) : Multiset Int) := by
        show Multiset.map Prod.snd ((p.reduceSent.map fun x => (x.1, x.2.1) : List (Str × Int)) : Multiset (Str × Int)) = _
        rw [Multiset.map_coe, List.map_map]
        rfl
      rw [hsent] at hjobs
      exact Multiset.le_iff_exists_add.mpr ⟨_, hjobs.symm⟩
    have hkeys : (p.idx2files.map Prod.fst).Nodup :=
      (h.filed.keys hstage).nodup_iff.mpr (List.nodup_range.map Int.ofNat_injective)
    exact Multiset.coe_nodup.mp (Multiset.nodup_of_le hle (Multiset.coe_nodup.mpr hkeys))
  · have hnone : p.reduceSent = [] := by
      by_contra hne
      obtain ⟨x, hx⟩ := List.exists_mem_of_ne_nil _ hne
      have hjobs := h.orderly.reduces.jobs
      have hempty : (reduceView.pool p).jobs = 0 := by
        show ((p.idx2files.map Prod.fst : List Int) : Multiset Int) = 0
        rw [(h.grounded.notStarted hstage).1]
        rfl
      rw [hempty] at hjobs
      have hsent := (add_eq_zero.mp hjobs).1
      have hmem : (x.1, x.2.1) ∈ (reduceView.pool p).sent := List.mem_map.mpr ⟨x, hx, rfl⟩
      rw [Multiset.map_eq_zero.mp hsent] at hmem
      cases hmem
    rw [hnone]
    exact List.nodup_nil

/-- What the reduce job of a call needs. -/
theorem Attended.query (h : Attended s) (hsound : Sound I s.process) {ip : Str} {p : Int} {files : List Str}
    (hcall : s.process.calls[k]? = some ⟨ip, .reduce p files, none⟩) :
    ∃ n < I.nOutputFiles, p = n ∧ files = filesOf s.process.master.intermediateFiles n := by
  have hsent := h.sent ip p files none (List.mem_of_getElem? hcall)
  obtain ⟨n, hn, rfl⟩ := hsound.partition hsent
  exact ⟨n, hn, rfl, hsound.filed.carried _ hsent⟩

theorem Attended.reduce (h : Attended s) (hsound : Sound I s.process) (hs : reduce I k s = some t) :
    Attended t := by
  unfold Cluster.reduce at hs
  split at hs
  · next ip p files hcall =>
    split at hs
    · next hworker =>
      obtain ⟨before, after, hsplit, -, hset, hothers⟩ := hsound.around hcall
      obtain ⟨n, -, rfl, -⟩ := h.query hsound hcall
      have hold : reduceLeft s.workers ⟨ip, .reduce n files, none⟩ = some (n : Int) := by
        simp [reduceLeft, hworker, Worker.isIdle]
      have hreduces := h.reduces
      rw [hsplit, List.filterMap_append, List.filterMap_cons_some hold] at hreduces
      -- the partition goes from those that are left to those that have been reduced
      have hmoved : ∀ x : Option (Groups Str Str),
          (((s.reduced ++ [(n, x)]).map fun y => (y.1 : Int)) ++
            (before.filterMap (reduceLeft s.workers) ++ after.filterMap (reduceLeft s.workers))).Perm
          (s.process.reduceSent.map fun y => y.2.1) := by
        intro x
        refine List.Perm.trans ?_ hreduces
        rw [List.map_append, List.append_assoc]
        refine List.Perm.append_left _ ?_
        show ((n : Int) :: (before.filterMap _ ++ after.filterMap _)).Perm _
        exact List.perm_middle.symm
      split at hs
      · cases hs
        refine ⟨fun x hx => ?_, fun x hx => ?_, h.sent, ?_⟩
        · by_cases hxip : x = ip
          · subst hxip
            simp [State.setWorker, Worker.hasMap] at hx
          · simp only [State.setWorker, Function.update_of_ne hxip] at hx
            exact h.maps x hx
        · by_cases hxip : x = ip
          · subst hxip
            exact ⟨n, files, List.mem_of_getElem? hcall⟩
          · simp only [State.setWorker, Function.update_of_ne hxip] at hx
            exact h.threw x hx
        · have hnew : reduceLeft (Function.update s.workers ip .threw) ⟨ip, .reduce n files, none⟩ = none := by
            simp [reduceLeft, Worker.isIdle]
          show (_ ++ s.process.calls.filterMap (reduceLeft (Function.update s.workers ip .threw))).Perm _
          rw [hsplit, List.filterMap_append, List.filterMap_cons_none hnew,
            filterMap_others reduceLeft_congr _ fun x hx => hothers x (.inl hx),
            filterMap_others reduceLeft_congr _ fun x hx => hothers x (.inr hx)]
          exact hmoved none
      · next calls disk _ =>
        obtain ⟨process, hnext, rfl⟩ := Option.map_eq_some_iff.mp hs
        obtain rfl := respond_next hcall hnext
        have hkept : ∀ x job, s.workers x ≠ .idle → ⟨x, job, none⟩ ∈ s.process.calls →
            ⟨x, job, none⟩ ∈ s.process.calls.set k ⟨ip, .reduce n files, some true⟩ := by
          intro x job hx hmem
          rw [hset]
          rw [hsplit] at hmem
          refine mem_around hmem (fun heq => hx ?_) _
          have hxip : x = ip := congrArg Call.workerIpAddr heq
          rw [hxip, hworker]
        refine ⟨fun x hx => ?_, fun x hx => ?_, fun x p files status hmem => ?_, ?_⟩
        · obtain ⟨shard, hmem⟩ := h.maps x hx
          refine ⟨shard, hkept x _ (fun hidle => ?_) hmem⟩
          replace hx : (s.workers x).hasMap = true := hx
          rw [hidle] at hx
          cases hx
        · obtain ⟨p, files, hmem⟩ := h.threw x hx
          refine ⟨p, files, hkept x _ (fun hidle => ?_) hmem⟩
          replace hx : s.workers x = .threw := hx
          rw [hidle] at hx
          cases hx
        · rcases List.mem_or_eq_of_mem_set hmem with hmem | heq
          · exact h.sent x p files status hmem
          · cases heq
            exact h.sent _ _ _ none (List.mem_of_getElem? hcall)
        · show (_ ++ (s.process.calls.set k _).filterMap (reduceLeft s.workers)).Perm _
          rw [hset, List.filterMap_append, List.filterMap_cons_none rfl]
          exact hmoved (some calls)
    · cases hs
  · cases hs

theorem attended_step (hshards : I.shards ≠ []) (hr : Reach (cluster I m) s) (h : Attended s)
    (hs : (cluster I m).next a s = some t) : Attended t := by
  have hsound := sound_reach hshards hr
  cases a with
  | master a =>
    obtain ⟨hby, hs⟩ := Option.ite_none_right_eq_some.mp hs
    obtain ⟨process, hnext, rfl⟩ := Option.map_eq_some_iff.mp hs
    exact h.master hsound (effect_of_move hsound.grounded hsound.orderly (move_of_next hnext) hby)
  | accept k => exact h.accept hsound hs
  | turn w => exact h.turn hs
  | respond k => exact h.respond hsound hs
  | reduce k => exact h.reduce hsound hs

theorem attended_reach (hshards : I.shards ≠ []) (h : Reach (cluster I m) s) : Attended s :=
  h.invariant attended_init fun hr hi _ hs => attended_step hshards hr hi hs

end AdvancedOS.MapReduce.Cluster
