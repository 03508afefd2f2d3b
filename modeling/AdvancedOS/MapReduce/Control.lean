import AdvancedOS.MapReduce.PoolMoves

/-!
# The hand-over between `run` and `poll_workers`

In a run without failures, the place of `run` decides the flags and the place of `poll_workers`,
up to the order of the two sides of a hand-over. `Mode` is what of the place matters, and
`Mode.Holds` what is then true:

* while jobs are sent, `map_reduce_flag` is cleared and `poll_workers` takes completions;
* when `run` waits for the flag, either it is still set, or `poll_workers` has cleared it because
  the counter of the phase has reached its total, and waits in turn;
* after `schedule_monitor` the phase is complete, and `poll_workers` either has not woken up yet,
  with the flag set, or is over.
-/

namespace AdvancedOS.MapReduce

variable {Sh : Type} {m : Master Sh} {ph : Phase} {poll : PollPc}

inductive Mode
  | dispatching (ph : Phase)
  | waiting (ph : Phase)
  | handedOff (ph : Phase)
  | ending (ph : Phase)
  | finished
  deriving DecidableEq

def RunPc.mode : RunPc → Mode
  | .mkdir | .setInitial | .awaitInitial | .resetDropped => .dispatching .map
  | .dispatch ph _ | .send ph _ _ | .setFlag ph => .dispatching ph
  | .awaitFlag ph => .waiting ph
  | .setTrigger ph | .awaitTrigger ph | .check ph => .handedOff ph
  | .after ph | .join ph => .ending ph
  | .stop | .joinMonitor | .returned => .finished

def Phase.isMap : Phase → Bool
  | .map => true
  | .reduce => false

/-- The counter of a phase has reached its total. -/
def Master.Counted (m : Master Sh) : Phase → Prop
  | .map => m.numMapMsgs - m.numDroppedMapJobs = m.numShards
  | .reduce => m.numReduceMsgs - m.numDroppedReduceJobs = m.numPartitions

/-- The flags while a phase goes on. -/
structure Master.Open (m : Master Sh) (ph : Phase) : Prop where
  mapComplete : m.mapComplete = !ph.isMap
  reduceComplete : m.reduceComplete = false
  counted : ph = .reduce → m.Counted .map

/-- The flags when a phase has ended. -/
structure Master.Closed (m : Master Sh) (ph : Phase) : Prop where
  mapComplete : m.mapComplete = true
  reduceComplete : m.reduceComplete = !ph.isMap
  map : m.Counted .map
  reduce : ph = .reduce → m.Counted .reduce

def Mode.Holds (m : Master Sh) (poll : PollPc) : Mode → Prop
  | .dispatching ph => m.Open ph ∧ m.mapReduceFlag = false ∧ poll = .next
  | .waiting ph => m.Open ph ∧
      (m.mapReduceFlag = true ∧ poll = .next ∨
        m.mapReduceFlag = false ∧ poll = .wait ph.isMap ∧ m.Counted ph)
  | .handedOff ph => m.Open ph ∧ m.mapReduceFlag = false ∧ poll = .wait ph.isMap ∧ m.Counted ph
  | .ending ph => m.Closed ph ∧
      (m.mapReduceFlag = true ∧ poll = .wait ph.isMap ∨ m.mapReduceFlag = false ∧ poll = .returned)
  | .finished => m.Closed .reduce ∧ m.mapReduceFlag = false ∧ poll = .returned

/-- What `Mode.Holds` sees of the master. -/
structure SameControl (m m' : Master Sh) : Prop where
  mapComplete : m'.mapComplete = m.mapComplete := by rfl
  reduceComplete : m'.reduceComplete = m.reduceComplete := by rfl
  flag : m'.mapReduceFlag = m.mapReduceFlag := by rfl
  map : m'.Counted .map ↔ m.Counted .map := by rfl
  reduce : m'.Counted .reduce ↔ m.Counted .reduce := by rfl

theorem SameControl.counted {m m' : Master Sh} (h : SameControl m m') : m'.Counted ph ↔ m.Counted ph := by
  cases ph with
  | map => exact h.map
  | reduce => exact h.reduce

theorem SameControl.holds {m m' : Master Sh} (h : SameControl m m') {mode : Mode} :
    mode.Holds m' poll ↔ mode.Holds m poll := by
  have hopen : ∀ ph, m'.Open ph ↔ m.Open ph := fun ph =>
    ⟨fun ho => ⟨h.mapComplete ▸ ho.1, h.reduceComplete ▸ ho.2, fun hph => h.map.mp (ho.3 hph)⟩,
      fun ho => ⟨h.mapComplete ▸ ho.1, h.reduceComplete ▸ ho.2, fun hph => h.map.mpr (ho.3 hph)⟩⟩
  have hclosed : ∀ ph, m'.Closed ph ↔ m.Closed ph := fun ph =>
    ⟨fun hc => ⟨h.mapComplete ▸ hc.1, h.reduceComplete ▸ hc.2, h.map.mp hc.3,
        fun hph => h.reduce.mp (hc.4 hph)⟩,
      fun hc => ⟨h.mapComplete ▸ hc.1, h.reduceComplete ▸ hc.2, h.map.mpr hc.3,
        fun hph => h.reduce.mpr (hc.4 hph)⟩⟩
  cases mode <;> simp only [Mode.Holds, hopen, hclosed, h.flag, h.counted]

/-! ## An answer is consumed -/

/-- `poll_workers` takes completions only while a phase goes on. -/
theorem Mode.Holds.of_next {mode : Mode} (h : mode.Holds m .next) :
    ∃ ph, m.Open ph ∧ (mode = .dispatching ph ∧ m.mapReduceFlag = false ∨
      mode = .waiting ph ∧ m.mapReduceFlag = true) := by
  cases mode with
  | dispatching ph => exact ⟨ph, h.1, .inl ⟨rfl, h.2.1⟩⟩
  | waiting ph =>
    rcases h.2 with ⟨hflag, -⟩ | ⟨-, hpoll, -⟩
    · exact ⟨ph, h.1, .inr ⟨rfl, hflag⟩⟩
    · cases hpoll
  | handedOff ph => cases h.2.2.1
  | ending ph => rcases h.2 with ⟨-, hpoll⟩ | ⟨-, hpoll⟩ <;> cases hpoll
  | finished => cases h.2.2

/-- Without dropped workers, `poll_workers` notifies the master when the counter of the phase has
reached its total. -/
theorem Master.Open.notifyMaster_iff (h : m.Open ph) (hdropped : m.numDroppedWorkers = 0)
    (hreduce : ph = .map → ¬ m.Counted .reduce) : m.notifyMaster = true ↔ m.Counted ph := by
  cases ph with
  | map =>
    have hno : ¬ (m.numReduceMsgs - m.numDroppedReduceJobs = m.numPartitions) := hreduce rfl
    simp [Master.notifyMaster, Master.Counted, hdropped, h.mapComplete, hno, Phase.isMap]
  | reduce => simp [Master.notifyMaster, Master.Counted, hdropped, h.mapComplete, h.reduceComplete, Phase.isMap]

theorem Master.Open.holds_cleanup {mode : Mode} (h : m.Open ph) (hdropped : m.numDroppedWorkers = 0)
    (hreduce : ph = .map → ¬ m.Counted .reduce)
    (hmode : mode = .dispatching ph ∧ m.mapReduceFlag = false ∨
      mode = .waiting ph ∧ m.mapReduceFlag = true) :
    mode.Holds { m with mapReduceFlag := m.mapReduceFlag && !m.handsOff } m.pollPc := by
  have hopen : ∀ flag : Bool, { m with mapReduceFlag := flag }.Open ph := fun _ => ⟨h.1, h.2, h.3⟩
  have hstay : m.pollReturns false = false := by simp [Master.pollReturns, h.reduceComplete]
  rcases hmode with ⟨rfl, hflag⟩ | ⟨rfl, hflag⟩
  · have hoff : m.handsOff = false := by simp [Master.handsOff, hflag]
    exact ⟨hopen _, by simp [hflag], by simp [Master.pollPc, hoff, hstay]⟩
  · refine ⟨hopen _, ?_⟩
    cases hnotify : m.notifyMaster with
    | true =>
      have hoff : m.handsOff = true := by simp [Master.handsOff, hflag, hnotify]
      refine .inr ⟨by simp [hoff], ?_, (h.notifyMaster_iff hdropped hreduce).mp hnotify⟩
      simp [Master.pollPc, hoff, h.mapComplete]
    | false =>
      have hoff : m.handsOff = false := by simp [Master.handsOff, hnotify]
      exact .inl ⟨by simp [hflag, hoff], by simp [Master.pollPc, hoff, hstay]⟩

/-- The flag of the map phase is set only when its counter has reached its total. -/
theorem Mode.Holds.counted_map {mode : Mode} (h : mode.Holds m poll) (hmap : m.mapComplete = true) :
    m.Counted .map := by
  have hopen : ∀ {ph}, m.Open ph → m.Counted .map := by
    intro ph ho
    cases ph with
    | map => exact absurd (ho.mapComplete.symm.trans hmap) (by decide)
    | reduce => exact ho.counted rfl
  cases mode with
  | dispatching ph | waiting ph | handedOff ph => exact hopen h.1
  | ending ph | finished => exact h.1.map

/-! ## The steps of `run` -/

theorem Mode.Holds.setFlag (h : (Mode.dispatching ph).Holds m poll) :
    (Mode.waiting ph).Holds { m with mapReduceFlag := true } poll :=
  ⟨⟨h.1.1, h.1.2, h.1.3⟩, .inl ⟨rfl, h.2.2⟩⟩

theorem Mode.Holds.awaitFlag (h : (Mode.waiting ph).Holds m poll) (hflag : m.mapReduceFlag = false) :
    (Mode.handedOff ph).Holds m poll := by
  rcases h.2 with ⟨hset, -⟩ | ⟨hclear, hpoll, hcounted⟩
  · exact absurd (hset.symm.trans hflag) (by decide)
  · exact ⟨h.1, hclear, hpoll, hcounted⟩

/-- The end of `schedule_monitor` completes the phase, if nothing is unfinished and the output files
are those counted. -/
theorem Mode.Holds.check (h : (Mode.handedOff ph).Holds m poll) (hshards : m.unfinishedShards = [])
    (hpartitions : m.unfinishedPartitions = [])
    (houtputs : m.Counted .reduce → m.outputFiles.length = m.numPartitions) :
    (Mode.ending ph).Holds m.checkComplete poll := by
  obtain ⟨hopen, -, hpoll, hcounted⟩ := h
  refine ⟨?_, .inl ⟨rfl, hpoll⟩⟩
  cases ph with
  | map =>
    have hdone : m.mapJobsDone = true := decide_eq_true ⟨hshards, hcounted⟩
    refine ⟨by simp [Master.checkComplete, hdone], ?_, hcounted, nofun⟩
    simp [Master.checkComplete, hopen.mapComplete, hopen.reduceComplete, Phase.isMap]
  | reduce =>
    have hdone : m.reduceJobsDone = true := decide_eq_true ⟨hpartitions, houtputs hcounted⟩
    refine ⟨?_, ?_, hopen.counted rfl, fun _ => hcounted⟩
    · simp [Master.checkComplete, hopen.mapComplete, Phase.isMap]
    · simp [Master.checkComplete, hopen.mapComplete, hdone, Phase.isMap]

theorem Mode.Holds.startReduce (h : (Mode.ending .map).Holds m .returned) {jobs : List Int} :
    (Mode.dispatching .reduce).Holds { m with partitions := jobs } .next := by
  obtain ⟨hclosed, hflag⟩ := h
  rcases hflag with ⟨-, hpoll⟩ | ⟨hflag, -⟩
  · cases hpoll
  · exact ⟨⟨hclosed.mapComplete, hclosed.reduceComplete, fun _ => hclosed.map⟩, hflag, rfl⟩

theorem Mode.Holds.joinReduce (h : (Mode.ending .reduce).Holds m .returned) :
    Mode.finished.Holds m .returned := by
  obtain ⟨hclosed, hflag⟩ := h
  rcases hflag with ⟨-, hpoll⟩ | ⟨hflag, -⟩
  · cases hpoll
  · exact ⟨hclosed, hflag, rfl⟩

/-! ## `poll_workers` wakes up -/

/-- `poll_workers` wakes up when the phase has ended, and returns. -/
theorem Mode.Holds.resume {mode : Mode} {isMap : Bool} (h : mode.Holds m (.wait isMap))
    (hflag : m.mapReduceFlag = true) :
    mode.Holds { m with mapReduceFlag := false } (if m.pollReturns isMap then .returned else .next) := by
  have hset : ∀ {P : Prop}, m.mapReduceFlag = false → P := fun hclear =>
    absurd (hflag.symm.trans hclear) (by decide)
  cases mode with
  | dispatching ph => exact hset h.2.1
  | waiting ph =>
    rcases h.2 with ⟨-, hpoll⟩ | ⟨hclear, -⟩
    · cases hpoll
    · exact hset hclear
  | handedOff ph => exact hset h.2.1
  | ending ph =>
    obtain ⟨hclosed, hpoll⟩ := h
    rcases hpoll with ⟨-, hpoll⟩ | ⟨hclear, -⟩
    · obtain rfl := PollPc.wait.inj hpoll
      have hreturns : m.pollReturns ph.isMap = true := by
        cases ph <;> simp [Master.pollReturns, hclosed.mapComplete, hclosed.reduceComplete, Phase.isMap]
      rw [if_pos hreturns]
      exact ⟨⟨hclosed.1, hclosed.2, hclosed.3, hclosed.4⟩, .inr ⟨rfl, rfl⟩⟩
    · exact hset hclear
  | finished => exact hset h.2.1

end AdvancedOS.MapReduce
