import AdvancedOS.MapReduce.WorkerServer

/-!
# The stages of a request

A `Stage` says where in its life an object is, and `At setup s id stage` what the thread and gRPC have of it then.
An object is at one stage only, so it has one event at most, and none after its deletion.

* `Job.For.goesOn`, `Job.For.done`: a handler stays with its request, comes to an end, and has its answer then.
* `Staged`: every object is at a stage, and one object of each class waits for the next request.
* `Outcome`: what a step of the thread does to the stages, for all of them but those of the constructors.
-/

namespace AdvancedOS.MapReduce.Server

open Lts

/-! ## Answers -/

/-- The answer to a request. -/
def Setup.answer (setup : Setup) : Query → Reply
  | .map _ nPartitions _ => .map (mapResultFiles nPartitions.toNat setup.ipAddrPort)
  | .reduce _ query => .reduce (outputFile query.outputDir query.partitionId)
  | .ping _ => .ping setup.ipAddrPort

/-- The handler works on this request. -/
inductive Job.For (setup : Setup) (request : Query) : Job → Prop
  | start : Job.For setup request (.start request)
  | map {mapper : Str → List (Str × Str)} {job : MapJob} {userId : Str} {nPartitions : Int} {partitions : FileShard} :
      request = .map userId nPartitions partitions →
      job.base.intermediateFiles = mapResultFiles nPartitions.toNat setup.ipAddrPort →
      Job.For setup request (.map mapper job)
  | reduce {reducer : Str → List Str → List (Str × Str)} {userId : Str} {query : ReduceQuery} :
      request = .reduce userId query → Job.For setup request (.reduce reducer query)

theorem dump_intermediateFiles {hash : Str → UInt64} {m m' : BaseMapperInternal} {disk disk' : Files}
    (h : m.dump hash disk = some (m', disk')) : m'.intermediateFiles = m.intermediateFiles := by
  obtain ⟨disk'', -, heq⟩ := Option.map_eq_some_iff.mp h
  cases heq
  rfl

theorem emit_intermediateFiles {hash : Str → UInt64} {m m' : BaseMapperInternal} {disk disk' : Files} {x : Str × Str}
    (h : m.emit hash disk x = some (m', disk')) : m'.intermediateFiles = m.intermediateFiles := by
  obtain ⟨⟨m'', disk''⟩, hdump, heq⟩ := Option.map_eq_some_iff.mp h
  cases heq
  split at hdump
  · have hsame := dump_intermediateFiles hdump
    exact hsame
  · cases hdump
    rfl

/-- A turn of a map job keeps the names of its files, and there is less to do after it. -/
theorem goesOn_map {files : Files} {hash : Str → UInt64} {map : Str → List (Str × Str)} {job job' : MapJob}
    {disk disk' : Files} (h : job.turn files hash map disk = .goesOn job' disk') :
    job'.base.intermediateFiles = job.base.intermediateFiles ∧ job'.weight files map < job.weight files map := by
  obtain ⟨base, ranges, lines, pairs⟩ := job
  cases pairs with
  | cons x pairs =>
    simp only [MapJob.turn] at h
    cases hemit : base.emit hash disk x with
    | none => rw [hemit] at h; cases h
    | some y =>
      rw [hemit] at h
      cases h
      refine ⟨emit_intermediateFiles hemit, ?_⟩
      simp only [MapJob.weight, List.length_cons]
      omega
  | nil =>
    cases lines with
    | cons line lines =>
      cases h
      refine ⟨rfl, ?_⟩
      simp only [MapJob.weight, linesWeight, List.map_cons, List.sum_cons, List.length_nil]
      omega
    | nil =>
      cases ranges with
      | cons r ranges =>
        simp only [MapJob.turn] at h
        cases hread : rangeLines files r with
        | none => rw [hread] at h; cases h
        | some lines =>
          rw [hread] at h
          cases h
          refine ⟨rfl, ?_⟩
          simp only [MapJob.weight, shardWeight, List.map_cons, List.sum_cons, linesOf, hread, Option.getD_some,
            linesWeight, List.map_nil, List.sum_nil, List.length_nil]
          omega
      | nil =>
        simp only [MapJob.turn] at h
        cases hdump : base.dump hash disk with
        | none => rw [hdump] at h; cases h
        | some y => rw [hdump] at h; cases h

/-- What is left of a request that has not been handled. -/
def Setup.weight (setup : Setup) : Query → Nat
  | .map userId nPartitions partitions =>
    (setup.mappers userId).elim 1 fun mapper =>
      (MapJob.start nPartitions.toNat setup.ipAddrPort partitions).weight setup.files mapper + 1
  | .reduce _ _ => 2
  | .ping _ => 1

def Job.weight (setup : Setup) : Job → Nat
  | .start request => setup.weight request
  | .map mapper job => job.weight setup.files mapper
  | .reduce _ _ => 1

section

variable {setup : Setup} {request : Query} {job job' : Job} {disk disk' : Files} {reply : Reply}

theorem Job.weight_pos (job : Job) : 0 < job.weight setup := by
  cases job with
  | start request =>
    cases request with
    | map userId nPartitions partitions =>
      rw [Job.weight, Setup.weight]
      cases setup.mappers userId
      · exact Nat.one_pos
      · exact Nat.succ_pos _
    | reduce _ _ | ping _ => exact Nat.succ_pos _
  | map mapper job => exact Nat.succ_pos _
  | reduce _ _ => exact Nat.one_pos

/-- A handler stays with its request, and there is less to do after each of its turns. -/
theorem Job.For.goesOn (h : job.For setup request) (hturn : job.turn setup disk = .goesOn job' disk') :
    job'.For setup request ∧ job'.weight setup < job.weight setup := by
  cases h with
  | start =>
    cases request with
    | map userId nPartitions partitions =>
      simp only [Job.turn] at hturn
      cases hmapper : setup.mappers userId with
      | none => rw [hmapper] at hturn; cases hturn
      | some mapper =>
        rw [hmapper] at hturn
        cases hturn
        refine ⟨.map rfl rfl, ?_⟩
        simp [Job.weight, Setup.weight, hmapper]
    | reduce userId query =>
      simp only [Job.turn] at hturn
      cases hreducer : setup.reducers userId with
      | none => rw [hreducer] at hturn; cases hturn
      | some reducer =>
        rw [hreducer] at hturn
        cases hturn
        exact ⟨.reduce rfl, Nat.lt_succ_self 1⟩
    | ping id => cases hturn
  | @map mapper job userId nPartitions partitions hrequest hfiles =>
    simp only [Job.turn] at hturn
    cases hmap : job.turn setup.files setup.hash mapper disk with
    | threw => rw [hmap] at hturn; cases hturn
    | done disk'' => rw [hmap] at hturn; cases hturn
    | goesOn job'' disk'' =>
      rw [hmap] at hturn
      cases hturn
      obtain ⟨hsame, hless⟩ := goesOn_map hmap
      exact ⟨.map hrequest (hsame.trans hfiles), hless⟩
  | @reduce reducer userId query hrequest =>
    simp only [Job.turn] at hturn
    cases hreduce : handleReduceJob reducer query disk with
    | none => rw [hreduce] at hturn; cases hturn
    | some y => rw [hreduce] at hturn; cases hturn

/-- A handler that ends has the answer to its request. -/
theorem Job.For.done (h : job.For setup request) (hturn : job.turn setup disk = .done reply disk') :
    reply = setup.answer request := by
  cases h with
  | start =>
    cases request with
    | map userId nPartitions partitions =>
      simp only [Job.turn] at hturn
      cases hmapper : setup.mappers userId <;> rw [hmapper] at hturn <;> cases hturn
    | reduce userId query =>
      simp only [Job.turn] at hturn
      cases hreducer : setup.reducers userId <;> rw [hreducer] at hturn <;> cases hturn
    | ping id =>
      cases hturn
      rfl
  | @map mapper job userId nPartitions partitions hrequest hfiles =>
    simp only [Job.turn] at hturn
    cases hmap : job.turn setup.files setup.hash mapper disk with
    | threw => rw [hmap] at hturn; cases hturn
    | goesOn job'' disk'' => rw [hmap] at hturn; cases hturn
    | done disk'' =>
      rw [hmap] at hturn
      cases hturn
      rw [hrequest, Setup.answer, hfiles]
  | @reduce reducer userId query hrequest =>
    simp only [Job.turn] at hturn
    cases hreduce : handleReduceJob reducer query disk with
    | none => rw [hreduce] at hturn; cases hturn
    | some y =>
      rw [hreduce] at hturn
      cases hturn
      rw [hrequest, Setup.answer]

end

/-! ## Stages -/

/-- The stages of an object: not allocated; armed; matched, with the event in the queue or fetched; in the
handler, or with its answer there; and with `Finish` called, until the event has been fetched and the object
deleted. -/
inductive Stage
  | unborn
  | armed (kind : Kind)
  | event (request : Query)
  | fetched (request : Query)
  | handling (request : Query) (job : Job)
  | answering (request : Query)
  | sent (request : Query)
  | finished (request : Query) (ok : Bool)
  | closing (request : Query) (ok : Bool)
  | deleted (request : Query) (ok : Bool)

/-- The whole life of an object. -/
def wholeLife (setup : Setup) (request : Query) (ok : Bool) : List Entry :=
  [.armed, .matched request, .begun, .replied (setup.answer request), .finished ok, .deleted]

/-- The place of the thread, if it is with object `id`. -/
def LoopPc.at (pc : LoopPc) (id : Nat) : Option LoopPc :=
  match pc with
  | .construct _ | .next => none
  | .proceed tag | .handle tag _ | .finish tag _ => if tag = id then some pc else none

namespace Stage

def object : Stage → Option Request
  | unborn | deleted _ _ => none
  | armed kind => some ⟨kind, .process, .blank kind⟩
  | event request | fetched request | handling request _ | answering request =>
    some ⟨request.kind, .process, request⟩
  | sent request | finished request _ | closing request _ => some ⟨request.kind, .finish, request⟩

def ops : Stage → List Op
  | armed _ => [.armed]
  | event _ => [.matched]
  | sent _ => [.sent]
  | finished _ ok => [.finished ok]
  | unborn | fetched _ | handling _ _ | answering _ | closing _ _ | deleted _ _ => []

def life (setup : Setup) : Stage → List Entry
  | unborn => []
  | armed _ => [.armed]
  | event request | fetched request => [.armed, .matched request]
  | handling request _ | answering request => [.armed, .matched request, .begun]
  | sent request | finished request _ => [.armed, .matched request, .begun, .replied (setup.answer request)]
  | closing request ok =>
    [.armed, .matched request, .begun, .replied (setup.answer request), .finished ok]
  | deleted request ok => wholeLife setup request ok

/-- The thread is with the object. -/
def pc (setup : Setup) (id : Nat) : Stage → Option LoopPc
  | fetched _ | closing _ _ => some (.proceed id)
  | handling _ job => some (.handle id job)
  | answering request => some (.finish id (setup.answer request))
  | unborn | armed _ | event _ | sent _ | finished _ _ | deleted _ _ => none

/-- The class of an object that has not begun a request. -/
def opens : Stage → Option Kind
  | armed kind => some kind
  | event request | fetched request => some request.kind
  | unborn | handling _ _ | answering _ | sent _ | finished _ _ | closing _ _ | deleted _ _ => none

/-- What the thread and gRPC still have to do for the object. -/
def left (setup : Setup) : Stage → Nat
  | unborn | armed _ | deleted _ _ => 0
  | event request => setup.weight request + 6
  | fetched request => setup.weight request + 5
  | handling _ job => job.weight setup + 4
  | answering _ => 4
  | sent _ => 3
  | finished _ _ => 2
  | closing _ _ => 1

/-- The history of an object is the beginning of a whole life. -/
theorem life_begins (setup : Setup) (st : Stage) : ∃ request ok, st.life setup <+: wholeLife setup request ok := by
  cases st with
  | unborn | armed => exact ⟨.ping [], true, ⟨_, rfl⟩⟩
  | event request | fetched request | handling request job | answering request | sent request =>
    exact ⟨request, true, ⟨_, rfl⟩⟩
  | finished request ok | closing request ok | deleted request ok => exact ⟨request, ok, ⟨_, rfl⟩⟩

variable {setup : Setup} {id : Nat} {st : Stage}

theorem eq_armed (h : .armed ∈ st.ops) : ∃ kind, st = .armed kind := by
  cases st <;> first | exact ⟨_, rfl⟩ | simp [ops] at h

theorem eq_sent (h : .sent ∈ st.ops) : ∃ request, st = .sent request := by
  cases st <;> first | exact ⟨_, rfl⟩ | simp [ops] at h

theorem eq_event (h : .matched ∈ st.ops) : ∃ request, st = .event request := by
  cases st <;> first | exact ⟨_, rfl⟩ | simp [ops] at h

theorem eq_finished {ok : Bool} (h : .finished ok ∈ st.ops) : ∃ request, st = .finished request ok := by
  cases st <;> simp [ops] at h
  rw [h]
  exact ⟨_, rfl⟩

theorem eq_proceed (h : st.pc setup id = some (.proceed id)) :
    (∃ request, st = .fetched request) ∨ ∃ request ok, st = .closing request ok := by
  cases st <;> first | exact .inl ⟨_, rfl⟩ | exact .inr ⟨_, _, rfl⟩ | cases h

theorem eq_handle {job : Job} (h : st.pc setup id = some (.handle id job)) :
    ∃ request, st = .handling request job := by
  cases st <;> first | cases h; exact ⟨_, rfl⟩ | cases h

theorem eq_finish {reply : Reply} (h : st.pc setup id = some (.finish id reply)) :
    ∃ request, st = .answering request ∧ reply = setup.answer request := by
  cases st <;> first | cases h; exact ⟨_, rfl, rfl⟩ | cases h

end Stage

/-- What the thread and gRPC have of object `id` at a stage. -/
structure At (setup : Setup) (s : Loop) (id : Nat) (st : Stage) : Prop where
  requests : s.requests id = st.object
  ops : s.ops id = st.ops
  life : s.life id = st.life setup
  pc : s.pc.at id = st.pc setup id

/-- A step does not concern object `id`. -/
structure Same (s t : Loop) (id : Nat) : Prop where
  requests : t.requests id = s.requests id
  ops : t.ops id = s.ops id
  life : t.life id = s.life id
  pc : t.pc.at id = s.pc.at id

variable {setup : Setup} {s t : Loop} {id : Nat} {st : Stage} {stage : Nat → Stage} {early early' : Kind → Option Nat}

theorem At.same (h : At setup s id st) (hsame : Same s t id) : At setup t id st where
  requests := hsame.requests.trans h.requests
  ops := hsame.ops.trans h.ops
  life := hsame.life.trans h.life
  pc := hsame.pc.trans h.pc

/-- Every object is at a stage, and `early k` is the only one of class `k` that has not begun a request. -/
structure Staged (setup : Setup) (s : Loop) (stage : Nat → Stage) (early : Kind → Option Nat) : Prop where
  at_stage : ∀ id, At setup s id (stage id)
  unborn : ∀ id, stage id = .unborn ↔ s.nextId ≤ id
  jobs : ∀ {id request job}, stage id = .handling request job → job.For setup request
  opens : ∀ id k, (stage id).opens = some k ↔ early k = some id

namespace Staged

/-- A step that concerns no object. -/
theorem same (h : Staged setup s stage early) (hid : t.nextId = s.nextId) (hsame : ∀ id, Same s t id) :
    Staged setup t stage early where
  at_stage id := (h.at_stage id).same (hsame id)
  unborn id := by rw [hid]; exact h.unborn id
  jobs := h.jobs
  opens := h.opens

/-- A step that moves one object to another stage. -/
theorem move (h : Staged setup s stage early) {old : Stage} (hold : stage id = old) (st : Stage)
    (hborn : old ≠ .unborn) (hst : st ≠ .unborn)
    (hid : t.nextId = s.nextId) (hat : At setup t id st) (hsame : ∀ id' ≠ id, Same s t id')
    (hjob : ∀ {request job}, st = .handling request job → job.For setup request)
    (hopens : ∀ k, st.opens = some k ↔ early' k = some id)
    (hothers : ∀ id' ≠ id, ∀ k, early' k = some id' ↔ early k = some id') :
    Staged setup t (Function.update stage id st) early' where
  at_stage id' := by
    by_cases hne : id' = id
    · subst hne
      rw [Function.update_self]
      exact hat
    · rw [Function.update_of_ne hne]
      exact (h.at_stage id').same (hsame id' hne)
  unborn id' := by
    rw [hid, ← h.unborn id']
    by_cases hne : id' = id
    · subst hne
      simp [hold, hborn, hst]
    · rw [Function.update_of_ne hne]
  jobs {id' _ _} heq := by
    by_cases hne : id' = id
    · subst hne
      rw [Function.update_self] at heq
      exact hjob heq
    · rw [Function.update_of_ne hne] at heq
      exact h.jobs heq
  opens id' k := by
    by_cases hne : id' = id
    · subst hne
      rw [Function.update_self]
      exact hopens k
    · rw [Function.update_of_ne hne, hothers id' hne k]
      exact h.opens id' k

/-- A new object, of a class that has none which waits for a request. -/
theorem newRequest (h : Staged setup s stage early) {kind : Kind} (hnone : early kind = none)
    (hpc : s.pc.at s.nextId = none) :
    Staged setup (newRequest kind s) (Function.update stage s.nextId (.armed kind))
      (Function.update early kind (some s.nextId)) := by
  have hat := h.at_stage s.nextId
  rw [(h.unborn s.nextId).mpr (Nat.le_refl _)] at hat
  have hfresh : ∀ k, early k ≠ some s.nextId := by
    intro k hk
    rw [← h.opens, (h.unborn s.nextId).mpr (Nat.le_refl _)] at hk
    cases hk
  constructor
  case at_stage =>
    intro id
    by_cases hne : id = s.nextId
    · subst hne
      rw [Function.update_self]
      constructor
      · exact Function.update_self ..
      · refine (Function.update_self ..).trans ?_
        show s.ops s.nextId ++ [.armed] = _
        rw [hat.ops]
        rfl
      · refine (Function.update_self ..).trans ?_
        show s.life s.nextId ++ [.armed] = _
        rw [hat.life]
        rfl
      · exact hpc
    · rw [Function.update_of_ne hne]
      exact (h.at_stage id).same
        ⟨Function.update_of_ne hne _ _, Function.update_of_ne hne _ _, Function.update_of_ne hne _ _, rfl⟩
  case unborn =>
    intro id
    show _ ↔ s.nextId + 1 ≤ id
    by_cases hne : id = s.nextId
    · subst hne
      rw [Function.update_self]
      exact iff_of_false (by simp) (Nat.not_succ_le_self _)
    · rw [Function.update_of_ne hne, h.unborn id]
      omega
  case jobs =>
    intro id request job heq
    by_cases hne : id = s.nextId
    · rw [hne, Function.update_self] at heq
      cases heq
    · rw [Function.update_of_ne hne] at heq
      exact h.jobs heq
  case opens =>
    intro id k
    by_cases hne : id = s.nextId <;> by_cases hk : k = kind
    · rw [hne, hk, Function.update_self, Function.update_self]
      exact ⟨fun _ => rfl, fun _ => rfl⟩
    · rw [hne, Function.update_self, Function.update_of_ne hk]
      exact ⟨fun heq => absurd (Option.some.inj heq).symm hk, fun heq => absurd heq (hfresh k)⟩
    · rw [hk, Function.update_of_ne hne, Function.update_self, h.opens, hnone]
      exact iff_of_false (by simp) fun heq => hne (Option.some.inj heq).symm
    · rw [Function.update_of_ne hne, Function.update_of_ne hk]
      exact h.opens id k

/-- A step after which the object still opens what it did. -/
theorem move_same (h : Staged setup s stage early) {old : Stage} (hold : stage id = old) (st : Stage)
    (hborn : old ≠ .unborn) (hst : st ≠ .unborn)
    (hid : t.nextId = s.nextId) (hat : At setup t id st) (hsame : ∀ id' ≠ id, Same s t id')
    (hjob : ∀ {request job}, st = .handling request job → job.For setup request)
    (hopens : st.opens = old.opens) : Staged setup t (Function.update stage id st) early :=
  h.move hold st hborn hst hid hat hsame hjob (fun k => by rw [hopens, ← hold, h.opens]) fun _ _ _ => Iff.rfl

/-- The place of the thread, in terms of the stages. -/
theorem pc_of_at (h : Staged setup s stage early) {pc : LoopPc} (hpc : s.pc.at id = some pc) :
    (stage id).pc setup id = some pc := by
  rw [← (h.at_stage id).pc, hpc]

end Staged

/-! ## The steps of gRPC and of the thread -/

/-- The thread is before its loop. -/
def LoopPc.constructing : LoopPc → Option (List Kind)
  | construct kinds => some kinds
  | next | proceed _ | handle _ _ | finish _ _ => none

/-- The classes whose first object the thread still has to construct. -/
def LoopPc.pending (pc : LoopPc) : List Kind := pc.constructing.getD []

/-- What can be done for an object that has a request. -/
inductive Advance (setup : Setup) : Stage → Stage → Prop
  | fetch {request : Query} : Advance setup (.event request) (.fetched request)
  | begin {request : Query} : Advance setup (.fetched request) (.handling request (.start request))
  | turn {request : Query} {job job' : Job} : job'.For setup request → job'.weight setup < job.weight setup →
      Advance setup (.handling request job) (.handling request job')
  | answer {request : Query} {job : Job} : Advance setup (.handling request job) (.answering request)
  | send {request : Query} : Advance setup (.answering request) (.sent request)
  | complete {request : Query} (ok : Bool) : Advance setup (.sent request) (.finished request ok)
  | close {request : Query} {ok : Bool} : Advance setup (.finished request ok) (.closing request ok)
  | delete {request : Query} {ok : Bool} : Advance setup (.closing request ok) (.deleted request ok)

theorem Advance.left_lt {old : Stage} (h : Advance setup old st) : st.left setup < old.left setup := by
  cases h with
  | turn _ hless => exact Nat.add_lt_add_right hless 4
  | begin => exact Nat.lt_succ_self _
  | answer => exact Nat.lt_add_of_pos_left (Job.weight_pos _)
  | fetch | send | complete _ | close | delete => exact Nat.lt_succ_self _

/-- The step from `s` to `t` brings object `id` to a stage, and concerns no other one. -/
structure Moved (setup : Setup) (s t : Loop) (id : Nat) (st : Stage) : Prop where
  nextId : t.nextId = s.nextId
  at_new : At setup t id st
  same : ∀ id' ≠ id, Same s t id'
  constructing : t.pc.constructing = s.pc.constructing
  failed : t.failed = s.failed

/-- What a step does that the thread or gRPC takes for an object: it ends the process, or the object advances; the one
that begins its request has a successor. -/
inductive Outcome (setup : Setup) (s t : Loop) (stage : Nat → Stage) : Prop
  | failed (why : Failure) : t = s.fail why → Outcome setup s t stage
  | moved {id : Nat} {old st : Stage} : stage id = old → Advance setup old st → st.opens = old.opens →
      Moved setup s t id st → Outcome setup s t stage
  | began {id : Nat} {request : Query} {u : Loop} : stage id = .fetched request →
      Moved setup s u id (.handling request (.start request)) → t = newRequest request.kind u →
      Outcome setup s t stage

variable {pc pc' : LoopPc} {strict : Bool} {disk disk' : Files}

theorem LoopPc.at_self (h : pc.at id = some pc') : pc' = pc := by
  cases pc <;> simp only [LoopPc.at, Option.ite_none_right_eq_some, Option.some.injEq, reduceCtorEq] at h
  all_goals exact h.2.symm

/-- The thread is with one object at most. -/
theorem LoopPc.at_of_ne {id' : Nat} (h : (pc.at id).isSome) (hne : id' ≠ id) : pc.at id' = none := by
  cases pc with
  | construct _ | next => rfl
  | proceed tag | handle tag _ | finish tag _ =>
    have htag : tag = id := by simpa [LoopPc.at] using h
    exact if_neg fun heq => hne (heq.symm.trans htag)

/-- The thread leaves its object. -/
theorem same_at_of_ne {id' : Nat} (hpc : (s.pc.at id).isSome) (hpc' : (t.pc.at id).isSome ∨ t.pc = .next)
    (hne : id' ≠ id) : t.pc.at id' = s.pc.at id' := by
  rw [LoopPc.at_of_ne hpc hne]
  rcases hpc' with hpc' | hpc'
  · exact LoopPc.at_of_ne hpc' hne
  · rw [hpc']
    rfl

theorem Staged.arrive (h : Staged setup s stage early) {request : Query} (hs : arrive id request s = some t) :
    t.pc = s.pc ∧ t.failed = s.failed ∧ ∃ stage, Staged setup t stage early := by
  unfold Server.arrive at hs
  obtain ⟨harmed, hs⟩ := Option.ite_none_right_eq_some.mp hs
  have hat := h.at_stage id
  obtain ⟨kind, hst⟩ := Stage.eq_armed (hat.ops ▸ harmed)
  rw [hst] at hat
  rw [hat.requests] at hs
  obtain ⟨hkind, hs⟩ := Option.ite_none_right_eq_some.mp hs
  cases hs
  refine ⟨rfl, rfl, _, h.move_same hst (.event request) (by simp) (by simp) rfl ?_ (fun id' hne => ?_) (by simp) ?_⟩
  · constructor
    · refine (Function.update_self ..).trans ?_
      rw [Stage.object, ← hkind]
    · refine (Function.update_self ..).trans ?_
      rw [hat.ops]
      rfl
    · refine (Function.update_self ..).trans ?_
      show s.life id ++ [.matched request] = _
      rw [hat.life]
      rfl
    · exact hat.pc
  · exact ⟨Function.update_of_ne hne _ _, Function.update_of_ne hne _ _, Function.update_of_ne hne _ _, rfl⟩
  · rw [Stage.opens, Stage.opens, ← hkind]

theorem outcome_complete (h : Staged setup s stage early) {ok : Bool} (hs : complete id ok s = some t) :
    Outcome setup s t stage ∧ t.failed = s.failed := by
  unfold complete at hs
  obtain ⟨hsent, hs⟩ := Option.ite_none_right_eq_some.mp hs
  have hat := h.at_stage id
  obtain ⟨request, hst⟩ := Stage.eq_sent (hat.ops ▸ hsent)
  rw [hst] at hat
  rw [hat.requests] at hs
  cases hs
  refine ⟨.moved hst (.complete ok) rfl ⟨rfl, ⟨hat.requests, ?_, hat.life, hat.pc⟩, fun id' hne => ?_, rfl, rfl⟩, rfl⟩
  · refine (Function.update_self ..).trans ?_
    rw [hat.ops]
    rfl
  · exact ⟨rfl, Function.update_of_ne hne _ _, rfl, rfl⟩

theorem outcome_next (h : Staged setup s stage early) {op : Op} (hs : nextEvent strict id op s = some t) :
    Outcome setup s t stage ∧
      (t.failed = s.failed ∨ t.failed = some .notOk ∧ strict = true ∧ .finished false ∈ t.ops id) := by
  have hat := h.at_stage id
  unfold nextEvent at hs
  cases hpc : s.pc with
  | next =>
    rw [hpc] at hs
    obtain ⟨⟨hevent, hop⟩, hs⟩ := Option.ite_none_right_eq_some.mp hs
    have hothers : ∀ id' ≠ id, (LoopPc.proceed id).at id' = s.pc.at id' := by
      intro id' hne
      rw [hpc]
      exact LoopPc.at_of_ne (by simp [LoopPc.at]) hne
    cases op with
    | armed | sent => cases hevent
    | matched =>
      obtain ⟨request, hst⟩ := Stage.eq_event (hat.ops ▸ hop)
      rw [hst] at hat
      rw [Op.ok, Bool.not_true, Bool.and_false, if_neg Bool.false_ne_true] at hs
      cases hs
      refine ⟨.moved hst .fetch rfl ⟨rfl, ⟨hat.requests, ?_, hat.life, if_pos rfl⟩, fun id' hne => ?_,
        by rw [hpc]; rfl, rfl⟩, .inl rfl⟩
      · refine (Function.update_self ..).trans ?_
        rw [hat.ops]
        rfl
      · exact ⟨rfl, Function.update_of_ne hne _ _, rfl, hothers id' hne⟩
    | finished ok =>
      by_cases hok : strict = true ∧ ok = false
      · obtain ⟨hstrict, rfl⟩ := hok
        rw [hstrict, Op.ok, Bool.not_false, Bool.and_true, if_pos rfl] at hs
        cases hs
        exact ⟨.failed .notOk rfl, .inr ⟨rfl, hstrict, hop⟩⟩
      · obtain ⟨request, hst⟩ := Stage.eq_finished (hat.ops ▸ hop)
        rw [hst] at hat
        rw [if_neg (by simpa [Op.ok] using hok)] at hs
        cases hs
        refine ⟨.moved hst .close rfl ⟨rfl, ⟨hat.requests, ?_, ?_, if_pos rfl⟩, fun id' hne => ?_,
          by rw [hpc]; rfl, rfl⟩, .inl rfl⟩
        · refine (Function.update_self ..).trans ?_
          rw [hat.ops]
          exact List.erase_cons_head ..
        · refine (Function.update_self ..).trans ?_
          show s.life id ++ [.finished ok] = _
          rw [hat.life]
          rfl
        · exact ⟨rfl, Function.update_of_ne hne _ _, Function.update_of_ne hne _ _, hothers id' hne⟩
  | construct _ | proceed _ | handle _ _ | finish _ _ => rw [hpc] at hs; cases hs

theorem outcome_proceed (h : Staged setup s stage early) (hs : proceedStep s = some t) :
    Outcome setup s t stage ∧ t.failed = s.failed := by
  unfold proceedStep at hs
  cases hpc : s.pc with
  | proceed id =>
    rw [hpc] at hs
    cases hs
    have hat := h.at_stage id
    have hself : s.pc.at id = some (.proceed id) := by rw [hpc]; exact if_pos rfl
    have hin : (s.pc.at id).isSome := by rw [hself]; rfl
    unfold proceed
    rcases Stage.eq_proceed (h.pc_of_at hself) with ⟨request, hst⟩ | ⟨request, ok, hst⟩
    · rw [hst] at hat
      simp only [hat.requests, Stage.object]
      refine ⟨.began hst (u := { s.record id .begun with pc := .handle id (.start request) })
        ⟨rfl, ⟨hat.requests, hat.ops, ?_, if_pos rfl⟩, fun id' hne => ?_, by rw [hpc]; rfl, rfl⟩ rfl, rfl⟩
      · refine (Function.update_self ..).trans ?_
        rw [hat.life]
        rfl
      · exact ⟨rfl, rfl, Function.update_of_ne hne _ _, same_at_of_ne hin (.inl (by simp [LoopPc.at])) hne⟩
    · rw [hst] at hat
      simp only [hat.requests, Stage.object]
      refine ⟨.moved hst .delete rfl ⟨rfl, ⟨Function.update_self .., hat.ops, ?_, rfl⟩, fun id' hne => ?_,
        by rw [hpc]; rfl, rfl⟩, rfl⟩
      · refine (Function.update_self ..).trans ?_
        show s.life id ++ [.deleted] = _
        rw [hat.life]
        rfl
      · exact ⟨Function.update_of_ne hne _ _, rfl, Function.update_of_ne hne _ _, same_at_of_ne hin (.inr rfl) hne⟩
  | construct _ | next | handle _ _ | finish _ _ => rw [hpc] at hs; cases hs

theorem outcome_turn (h : Staged setup s stage early) (hs : turnStep setup s disk = some (t, disk')) :
    Outcome setup s t stage ∧ (t.failed = s.failed ∨
      t.failed = some .threw ∧ disk' = disk ∧ ∃ id job, t.pc = .handle id job ∧ job.turn setup disk = .threw) := by
  unfold turnStep at hs
  cases hpc : s.pc with
  | handle id job =>
    rw [hpc] at hs
    have hat := h.at_stage id
    have hself : s.pc.at id = some (.handle id job) := by rw [hpc]; exact if_pos rfl
    have hin : (s.pc.at id).isSome := by rw [hself]; rfl
    obtain ⟨request, hst⟩ := Stage.eq_handle (h.pc_of_at hself)
    have hjob := h.jobs hst
    rw [hst] at hat
    cases hturn : job.turn setup disk with
    | threw =>
      simp only [hturn] at hs
      cases hs
      exact ⟨.failed .threw rfl, .inr ⟨rfl, rfl, id, job, hpc, hturn⟩⟩
    | goesOn job' disk'' =>
      simp only [hturn] at hs
      cases hs
      obtain ⟨hjob', hless⟩ := hjob.goesOn hturn
      refine ⟨.moved hst (.turn hjob' hless) rfl ⟨rfl, ⟨hat.requests, hat.ops, hat.life, if_pos rfl⟩,
        fun id' hne => ⟨rfl, rfl, rfl, ?_⟩, by rw [hpc]; rfl, rfl⟩, .inl rfl⟩
      exact same_at_of_ne hin (.inl (by simp [LoopPc.at])) hne
    | done reply disk'' =>
      simp only [hturn] at hs
      cases hs
      have hreply := hjob.done hturn
      subst hreply
      refine ⟨.moved hst .answer rfl ⟨rfl, ⟨hat.requests, hat.ops, hat.life, if_pos rfl⟩,
        fun id' hne => ⟨rfl, rfl, rfl, ?_⟩, by rw [hpc]; rfl, rfl⟩, .inl rfl⟩
      exact same_at_of_ne hin (.inl (by simp [LoopPc.at])) hne
  | construct _ | next | proceed _ | finish _ _ => rw [hpc] at hs; cases hs

theorem outcome_finish (h : Staged setup s stage early) (hs : finishStep s = some t) :
    Outcome setup s t stage ∧ t.failed = s.failed := by
  unfold finishStep at hs
  cases hpc : s.pc with
  | finish id reply =>
    rw [hpc] at hs
    have hat := h.at_stage id
    have hself : s.pc.at id = some (.finish id reply) := by rw [hpc]; exact if_pos rfl
    have hin : (s.pc.at id).isSome := by rw [hself]; rfl
    obtain ⟨request, hst, rfl⟩ := Stage.eq_finish (h.pc_of_at hself)
    rw [hst] at hat
    simp only [hat.requests, Stage.object] at hs
    cases hs
    refine ⟨.moved hst .send rfl ⟨rfl, ⟨Function.update_self .., ?_, ?_, rfl⟩, fun id' hne => ?_,
      by rw [hpc]; rfl, rfl⟩, rfl⟩
    · refine (Function.update_self ..).trans ?_
      rw [hat.ops]
      rfl
    · refine (Function.update_self ..).trans ?_
      show s.life id ++ [.replied (setup.answer request)] = _
      rw [hat.life]
      rfl
    · exact ⟨Function.update_of_ne hne _ _, Function.update_of_ne hne _ _, Function.update_of_ne hne _ _,
        same_at_of_ne hin (.inr rfl) hne⟩
  | construct _ | next | proceed _ | handle _ _ => rw [hpc] at hs; cases hs

end AdvancedOS.MapReduce.Server
