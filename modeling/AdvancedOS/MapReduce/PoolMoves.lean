import AdvancedOS.MapReduce.Pools

/-!
# Every step of the master is an action of its pools

`mapPool_move` and `reducePool_move` are the simulations; `MapStep` and `ReduceStep` keep, for
each action of a pool, the step of the master that it is. A list that is sent again is the end of
a pass that left nothing unfinished and did not complete the phase (`RunPc.after`).
-/

namespace AdvancedOS.MapReduce

open Lts WorkPool

variable {Sh : Type} {spec : Spec Sh} {s t : State Sh} {a : Action}

/-! ## The pool of shards -/

/-- Which step of the master an action of the pool of shards is. -/
def MapStep (s : State Sh) (a : Action) : Act Str Sh → Prop
  | .load _ => False
  | .dispatch ip shard => ∃ i, s.run = .send .map i ip ∧ s.master.shards[i]? = some shard
  | .finish ip shard => ∃ k, a = .poll k ∧ s.calls[k]? = some ⟨ip, .map shard, some true⟩
  | .discard ip shard => ∃ k, a = .poll k ∧ s.calls[k]? = some ⟨ip, .map shard, some true⟩
  | .error ip shard => ∃ k, a = .poll k ∧ s.calls[k]? = some ⟨ip, .map shard, some false⟩
  | .drop ip => ∃ k, a = .pong k false ∧ s.pings[k]? = some ip
  | .requeue => s.run = .after .map ∧ s.master.unfinishedShards ≠ []
  | .again L => ∃ o, a = .run o ∧ s.run = .after .map ∧ s.master.unfinishedShards = [] ∧
      s.master.mapComplete = false ∧ L = s.master.shards

theorem drop_eq_cons {β : Type} {l : List β} {i : Nat} {x : β} (h : l[i]? = some x) :
    l.drop i = x :: l.drop (i + 1) := by
  obtain ⟨hi, rfl⟩ := List.getElem?_eq_some_iff.mp h
  exact List.drop_eq_getElem_cons hi

/-- A step of the master is an action of the pool of shards or none, unless it is the failure of a
worker after the map phase. -/
theorem mapPool_move [DecidableEq Sh] (hg : Grounded spec s) (hmove : Move s a t)
    (hphase : ∀ k, a = .pong k false → s.master.mapComplete = false) :
    (mapView spec).pool t = (mapView spec).pool s ∨
      ∃ b, MapStep s a b ∧ ((mapView spec).pool s).next true b = some ((mapView spec).pool t) := by
  have hframe : t.run.pendingShards t.master.shards = s.run.pendingShards s.master.shards →
      (mapView spec).pending t = (mapView spec).pending s := id
  cases hmove with
  | abort | monitor _ | pong _ _ _ | late _ _ _ _ _ | resume _ _ => exact .inl (View.frame rfl)
  | mkdir hrun | setInitial hrun | awaitInitial hrun _ | resetDropped hrun =>
    exact .inl (View.frame (hframe (by rw [hrun]; rfl)))
  | setFlag hrun | awaitFlag hrun _ | setTrigger hrun | awaitTrigger hrun _ | check hrun =>
    exact .inl (View.frame (hframe (by rw [hrun]; rfl)))
  | finishMap hrun _ _ | finishReduce hrun _ _ | againReduce hrun _ _ | requeueReduce hrun _ =>
    exact .inl (View.frame (hframe (by rw [hrun]; rfl)))
  | startReduce hrun _ _ _ | joinReduce hrun _ | stop hrun | joinMonitor hrun _ =>
    exact .inl (View.frame (hframe (by rw [hrun]; rfl)))
  | @pop _ ph i ip rest hrun _ _ =>
    refine .inl (View.frame (hframe ?_))
    rw [hrun, State.pop]
    split <;> cases ph <;> rfl
  | @endLoop _ ph i hrun hle =>
    refine .inl (View.frame (hframe ?_))
    rw [hrun]
    cases ph with
    | map => exact (List.drop_eq_nil_of_le hle).symm
    | reduce => rfl
  | @sendMap _ i ip client shard hrun hclient hshard =>
    refine .inr ⟨.dispatch ip shard, ⟨i, hrun, hshard⟩, View.dispatch hclient rfl ?_ rfl rfl rfl rfl⟩
    simp only [mapView, hrun, RunPc.pendingShards]
    exact drop_eq_cons hshard
  | @sendReduce _ i ip client partition hrun _ _ =>
    exact .inl (View.frame (hframe (by rw [hrun]; rfl)) (fun _ => rfl) (fun _ => rfl)
      (calls_append_none rfl))
  | @againMap o hrun hunfinished hcomplete =>
    refine .inr ⟨.again s.master.shards, ⟨o, rfl, hrun, hunfinished, hcomplete, rfl⟩, ?_⟩
    simp only [Pool.next, View.pool, mapView, hrun, RunPc.pendingShards]
    rfl
  | requeueMap hrun hunfinished =>
    refine .inr ⟨.requeue, ⟨hrun, hunfinished⟩, ?_⟩
    simp only [Pool.next, View.pool, mapView, hrun, RunPc.pendingShards]
    rfl
  | @acceptMap k ip client shard _ hcall _ hclient =>
    refine .inr ⟨.finish ip shard, ⟨k, rfl, hcall⟩, View.finish hcall rfl rfl hclient rfl rfl rfl ?_⟩
    simp only [mapView, State.cleanup, Master.acceptMap]
    omega
  | @acceptReduce k ip client partition files _ hcall _ hclient =>
    refine .inl (View.frame rfl (congrFun (comp_update_same (mapView spec).heldBy ?_))
      (congrFun (comp_update_same (mapView spec).completedBy ?_))
      (calls_eraseIdx_none hcall rfl) (List.append_nil _))
    · rw [hclient]; rfl
    · rw [hclient]; rfl
  | @rejoin k ip job _ hcall _ hclient =>
    cases job with
    | map shard =>
      exact .inr ⟨.discard ip shard, ⟨k, rfl, hcall⟩,
        View.discard hcall rfl rfl hclient rfl (List.append_nil _)⟩
    | reduce partition files =>
      exact .inl (View.frame rfl (fun _ => rfl) (fun _ => rfl) (calls_eraseIdx_none hcall rfl)
        (List.append_nil _))
  | @discard k ip job _ hcall hip =>
    have hclient := hg.client_eq_none hip
    cases job with
    | map shard =>
      exact .inr ⟨.discard ip shard, ⟨k, rfl, hcall⟩,
        View.discard hcall rfl rfl hclient rfl (List.append_nil _)⟩
    | reduce partition files =>
      exact .inl (View.frame rfl (fun _ => rfl) (fun _ => rfl) (calls_eraseIdx_none hcall rfl)
        (List.append_nil _))
  | @errorMap k ip shard _ hcall =>
    refine .inr ⟨.error ip shard, ⟨k, rfl, hcall⟩, View.error hcall rfl rfl rfl (List.append_nil _) ?_⟩
    simp only [mapView, State.cleanup]
    omega
  | @errorReduce k ip partition files _ hcall =>
    exact .inl (View.frame rfl (fun _ => rfl) (fun _ => rfl) (calls_eraseIdx_none hcall rfl)
      (List.append_nil _))
  | @dropMap k i ip client _ hping _ _ hclient =>
    refine .inr ⟨.drop ip, ⟨k, rfl, hping⟩, View.drop hclient rfl rfl ?_⟩
    simp only [mapView, Master.dropMap, Master.removeWorkerIp]
    omega
  | @dropReduce k _ _ _ _ _ _ hcomplete _ =>
    have hmap := hphase k rfl
    rw [hcomplete] at hmap
    cases hmap
  | @respond k ok ip job hcall =>
    exact .inl (View.frame rfl (fun _ => rfl) (fun _ => rfl) (calls_set hcall rfl))

/-! ## The pool of partitions -/

/-- Which step of the master an action of the pool of partitions is. -/
def ReduceStep (s : State Sh) (a : Action) : Act Str Int → Prop
  | .load L => s.run = .join .map ∧ L.Nodup
  | .dispatch ip partition => ∃ i, s.run = .send .reduce i ip ∧ s.master.partitions[i]? = some partition
  | .finish ip partition =>
    ∃ k files, a = .poll k ∧ s.calls[k]? = some ⟨ip, .reduce partition files, some true⟩
  | .discard ip partition =>
    ∃ k files, a = .poll k ∧ s.calls[k]? = some ⟨ip, .reduce partition files, some true⟩
  | .error ip partition =>
    ∃ k files, a = .poll k ∧ s.calls[k]? = some ⟨ip, .reduce partition files, some false⟩
  | .drop ip => ∃ k, a = .pong k false ∧ s.pings[k]? = some ip
  | .requeue => s.run = .after .reduce ∧ s.master.unfinishedPartitions ≠ []
  | .again L => ∃ o, a = .run o ∧ s.run = .after .reduce ∧ s.master.unfinishedPartitions = [] ∧
      s.master.reduceComplete = false ∧ L = s.master.partitions

/-- A step of the master is an action of the pool of partitions or none. -/
theorem reducePool_move (hg : Grounded spec s) (hmove : Move s a t) :
    reduceView.pool t = reduceView.pool s ∨
      ∃ b, ReduceStep s a b ∧ (reduceView.pool s).next false b = some (reduceView.pool t) := by
  have hframe : t.run.pendingPartitions t.master.partitions =
      s.run.pendingPartitions s.master.partitions → reduceView.pending t = reduceView.pending s := id
  cases hmove with
  | abort | monitor _ | pong _ _ _ | late _ _ _ _ _ | resume _ _ => exact .inl (View.frame rfl)
  | mkdir hrun | setInitial hrun | awaitInitial hrun _ | resetDropped hrun =>
    exact .inl (View.frame (hframe (by rw [hrun]; rfl)))
  | setFlag hrun | awaitFlag hrun _ | setTrigger hrun | awaitTrigger hrun _ | check hrun =>
    exact .inl (View.frame (hframe (by rw [hrun]; rfl)))
  | finishMap hrun _ _ | againMap hrun _ _ | requeueMap hrun _ | finishReduce hrun _ _ =>
    exact .inl (View.frame (hframe (by rw [hrun]; rfl)))
  | joinReduce hrun _ | stop hrun | joinMonitor hrun _ =>
    exact .inl (View.frame (hframe (by rw [hrun]; rfl)))
  | @pop _ ph i ip rest hrun _ _ =>
    refine .inl (View.frame (hframe ?_))
    rw [hrun, State.pop]
    split <;> cases ph <;> rfl
  | @endLoop _ ph i hrun hle =>
    refine .inl (View.frame (hframe ?_))
    rw [hrun]
    cases ph with
    | map => rfl
    | reduce => exact (List.drop_eq_nil_of_le hle).symm
  | @sendMap _ i ip client shard hrun hclient _ =>
    refine .inl (View.frame (hframe (by rw [hrun]; rfl))
      (congrFun (comp_update_same reduceView.heldBy ?_))
      (congrFun (comp_update_same reduceView.completedBy ?_)) (calls_append_none rfl))
    · rw [hclient]; rfl
    · rw [hclient]; rfl
  | @sendReduce _ i ip client partition hrun hclient hpartition =>
    refine .inr ⟨.dispatch ip partition, ⟨i, hrun, hpartition⟩, View.dispatch hclient
      (Function.update_eq_self_iff.mpr hclient.symm).symm ?_ (List.append_nil _).symm rfl rfl ?_⟩
    · simp only [reduceView, hrun, RunPc.pendingPartitions]
      exact drop_eq_cons hpartition
    · simp [reduceView, State.sendReducerJob]
  | @startReduce order idxs hrun _ _ hperm =>
    obtain ⟨hidx, hpartitions⟩ := hg.notStarted (by rw [hrun]; decide)
    have hnodup : (order : Multiset Int).Nodup :=
      Multiset.coe_nodup.mpr (hperm.nodup_iff.mpr (List.nodup_dedup idxs))
    refine .inr ⟨.load order, ⟨hrun, hnodup⟩, ?_⟩
    simp only [Pool.next, View.pool, reduceView, hrun, hidx, RunPc.pendingPartitions]
    simp [State.startReduce, hpartitions, Function.comp_def]
  | @againReduce o hrun hunfinished hcomplete =>
    refine .inr ⟨.again s.master.partitions, ⟨o, rfl, hrun, hunfinished, hcomplete, rfl⟩, ?_⟩
    simp only [Pool.next, View.pool, reduceView, hrun, RunPc.pendingPartitions]
    rfl
  | requeueReduce hrun hunfinished =>
    refine .inr ⟨.requeue, ⟨hrun, hunfinished⟩, ?_⟩
    simp only [Pool.next, View.pool, reduceView, hrun, RunPc.pendingPartitions]
    rfl
  | @acceptMap k ip client shard _ hcall _ hclient =>
    refine .inl (View.frame rfl (congrFun (comp_update_same reduceView.heldBy ?_))
      (congrFun (comp_update_same reduceView.completedBy ?_))
      (calls_eraseIdx_none hcall rfl) (List.append_nil _))
    · rw [hclient]; rfl
    · rw [hclient]; rfl
  | @acceptReduce k ip client partition files _ hcall _ hclient =>
    refine .inr ⟨.finish ip partition, ⟨k, files, rfl, hcall⟩,
      View.finish hcall rfl rfl hclient rfl rfl rfl ?_⟩
    simp only [reduceView, State.cleanup, Master.acceptReduce]
    omega
  | @rejoin k ip job _ hcall _ hclient =>
    cases job with
    | reduce partition files =>
      exact .inr ⟨.discard ip partition, ⟨k, files, rfl, hcall⟩,
        View.discard hcall rfl rfl hclient rfl (List.append_nil _)⟩
    | map shard =>
      exact .inl (View.frame rfl (fun _ => rfl) (fun _ => rfl) (calls_eraseIdx_none hcall rfl)
        (List.append_nil _))
  | @discard k ip job _ hcall hip =>
    have hclient := hg.client_eq_none hip
    cases job with
    | reduce partition files =>
      exact .inr ⟨.discard ip partition, ⟨k, files, rfl, hcall⟩,
        View.discard hcall rfl rfl hclient rfl (List.append_nil _)⟩
    | map shard =>
      exact .inl (View.frame rfl (fun _ => rfl) (fun _ => rfl) (calls_eraseIdx_none hcall rfl)
        (List.append_nil _))
  | @errorReduce k ip partition files _ hcall =>
    refine .inr ⟨.error ip partition, ⟨k, files, rfl, hcall⟩,
      View.error hcall rfl rfl rfl (List.append_nil _) ?_⟩
    simp only [reduceView, State.cleanup]
    omega
  | @errorMap k ip shard _ hcall =>
    exact .inl (View.frame rfl (fun _ => rfl) (fun _ => rfl) (calls_eraseIdx_none hcall rfl)
      (List.append_nil _))
  | @dropMap k i ip client _ hping _ hmap hclient =>
    refine .inr ⟨.drop ip, ⟨k, rfl, hping⟩, View.drop hclient rfl ?_ ?_⟩
    · -- nothing is on record for the reduce phase
      exact ((congrArg _ (hg.unrecorded ip client hclient)).trans (List.append_nil _)).symm
    · have hzero := hg.noCompleted hmap ip client hclient
      simp only [reduceView, Master.dropMap, Master.removeWorkerIp, hzero, sub_zero]
  | @dropReduce k i ip client _ hping _ _ hclient =>
    refine .inr ⟨.drop ip, ⟨k, rfl, hping⟩, View.drop hclient rfl rfl ?_⟩
    simp only [reduceView, Master.dropReduce, Master.removeWorkerIp]
    omega
  | @respond k ok ip job hcall =>
    exact .inl (View.frame rfl (fun _ => rfl) (fun _ => rfl) (calls_set hcall rfl))

/-! ## The job that is being sent -/

theorem mem_pendingShards {i : Nat} {ip : Str} {shard : Sh} (hrun : s.run = .send .map i ip)
    (hshard : s.master.shards[i]? = some shard) : shard ∈ ((mapView spec).pool s).pending := by
  have hdrop := drop_eq_cons hshard
  show shard ∈ s.run.pendingShards s.master.shards
  rw [hrun, RunPc.pendingShards, hdrop]
  exact List.mem_cons_self

theorem mem_pendingPartitions {i : Nat} {ip : Str} {partition : Int} (hrun : s.run = .send .reduce i ip)
    (hpartition : s.master.partitions[i]? = some partition) :
    partition ∈ (reduceView.pool s).pending := by
  have hdrop := drop_eq_cons hpartition
  show partition ∈ s.run.pendingPartitions s.master.partitions
  rw [hrun, RunPc.pendingPartitions, hdrop]
  exact List.mem_cons_self

end AdvancedOS.MapReduce
