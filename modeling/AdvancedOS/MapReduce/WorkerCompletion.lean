import AdvancedOS.Lib.Potential
import AdvancedOS.MapReduce.WorkerServing

/-!
# A worker answers what it has

As long as no more requests come, the steps of a worker bring it nearer to the state in which every request has
been answered and every object but those for the next requests has been deleted.

* `Loop.left`: what a thread still has to do, of which every step of its own takes something.
* `worker_answers`: the worker comes to that end, in any order of its steps, unless its process ends before.
-/

namespace AdvancedOS.MapReduce.Server

open Finset Lts Potential

variable {setup : Setup} {s t : Loop} {id : Nat} {st : Stage} {stage : Nat → Stage} {early : Kind → Option Nat}
  {kinds : List Kind} {strict : Bool} {disk disk' : Files} {w v : Worker} {name : LoopName}

/-! ## What is left -/

/-- What is left after an operation of an object. -/
def Op.left (setup : Setup) (r : Option Request) : Op → Nat
  | armed => 0
  | matched => (r.elim 0 fun r => setup.weight r.request) + 6
  | sent => 3
  | finished _ => 2

/-- What is left for the thread, as long as it is with an object. -/
def LoopPc.left (setup : Setup) (r : Option Request) : LoopPc → Nat
  | construct _ | next => 0
  | proceed _ => r.elim 0 fun r => if r.status = .finish then 1 else setup.weight r.request + 5
  | handle _ job => job.weight setup + 4
  | finish _ _ => 4

def Loop.leftAt (setup : Setup) (s : Loop) (id : Nat) : Nat :=
  ((s.ops id).map (Op.left setup (s.requests id))).sum + (s.pc.at id).elim 0 (LoopPc.left setup (s.requests id))

def Loop.left (setup : Setup) (s : Loop) : Nat :=
  ∑ id ∈ range s.nextId, s.leftAt setup id + s.pc.constructing.elim 0 fun kinds => kinds.length + 1

theorem At.leftAt (h : At setup s id st) : s.leftAt setup id = st.left setup := by
  rw [Loop.leftAt, h.ops, h.requests, h.pc]
  cases st <;> simp [Stage.ops, Stage.object, Stage.pc, Stage.left, Op.left, LoopPc.left]

theorem Same.leftAt (h : Same s t id) : t.leftAt setup id = s.leftAt setup id := by
  rw [Loop.leftAt, Loop.leftAt, h.ops, h.requests, h.pc]

theorem Moved.left_lt (h : Staged setup s stage early) {old : Stage} (hold : stage id = old)
    (hadvance : Advance setup old st) (hm : Moved setup s t id st) : t.left setup < s.left setup := by
  have hborn : id < s.nextId := by
    rw [← not_le, ← h.unborn id, hold]
    exact hadvance.born.1
  have hless : t.leftAt setup id < s.leftAt setup id := by
    rw [hm.at_new.leftAt, (h.at_stage id).leftAt, hold]
    exact hadvance.left_lt
  have hsum := sum_change (f := s.leftAt setup) (g := t.leftAt setup) (mem_range.mpr hborn) fun id' hne =>
    (hm.same id' hne).leftAt
  rw [Loop.left, Loop.left, hm.nextId, hm.constructing]
  omega

/-- There is nothing to do for a new object. -/
theorem left_newRequest (h : Staged setup s stage early) {kind : Kind} (hnone : early kind = none)
    (hpc : s.pc.at s.nextId = none) : (newRequest kind s).left setup = s.left setup := by
  have hat := (h.newRequest hnone hpc).at_stage s.nextId
  rw [Function.update_self] at hat
  have hold : ∑ id ∈ range s.nextId, (newRequest kind s).leftAt setup id =
      ∑ id ∈ range s.nextId, s.leftAt setup id := by
    refine sum_congr rfl fun id hid => Same.leftAt ?_
    have hne : id ≠ s.nextId := Nat.ne_of_lt (mem_range.mp hid)
    exact ⟨Function.update_of_ne hne _ _, Function.update_of_ne hne _ _, Function.update_of_ne hne _ _, rfl⟩
  show ∑ id ∈ range (s.nextId + 1), (newRequest kind s).leftAt setup id + s.pc.constructing.elim 0 _ = _
  rw [sum_range_succ, hold, hat.leftAt]
  rfl

theorem Outcome.left_lt (h : Staged setup s stage early) (hout : Outcome setup s t stage)
    (hrunning : t.failed = none) : t.left setup < s.left setup := by
  cases hout with
  | failed why ht =>
    subst ht
    cases hrunning
  | moved hold hadvance _ hm => exact hm.left_lt h hold hadvance
  | @began id request u hold hm ht =>
    subst ht
    have hborn : s.nextId ≠ id := by
      intro heq
      have hunborn := (h.unborn id).mpr (Nat.le_of_eq heq)
      rw [hold] at hunborn
      cases hunborn
    have hat : u.pc.at u.nextId = none := by
      rw [hm.nextId]
      refine LoopPc.at_of_ne ?_ hborn
      rw [hm.at_new.pc]
      rfl
    rw [left_newRequest (h.begun hold hm) (Function.update_self ..) hat]
    exact hm.left_lt h hold .begin

/-- A step of the thread that is with no object before or after it. -/
theorem left_setPc (setup : Setup) (s : Loop) (pc : LoopPc) (hpc : ∀ id, pc.at id = s.pc.at id) :
    (s.pc.constructing.elim 0 fun kinds => kinds.length + 1) + Loop.left setup { s with pc } =
      (pc.constructing.elim 0 fun kinds => kinds.length + 1) + s.left setup := by
  have hsum : ∑ id ∈ range s.nextId, Loop.leftAt setup { s with pc } id = ∑ id ∈ range s.nextId, s.leftAt setup id :=
    sum_congr rfl fun id _ => Same.leftAt ⟨rfl, rfl, rfl, hpc id⟩
  rw [Loop.left, Loop.left, hsum]
  dsimp only
  omega

theorem construct_left_lt (h : Serving setup kinds s) (hs : construct s = some t) : t.left setup < s.left setup := by
  obtain ⟨stage, early, hstaged, hopened⟩ := h
  have hlt {n x y : Nat} (hxy : n + 1 + x = n + y) : x < y := by omega
  unfold construct at hs
  cases hpc : s.pc with
  | construct pending =>
    rw [hpc] at hs hopened
    cases pending with
    | nil =>
      cases hs
      have hleft := left_setPc setup s .next (by rw [hpc]; exact fun _ => rfl)
      rw [hpc] at hleft
      exact hlt hleft
    | cons kind pending =>
      cases hs
      have hnone : early kind = none := by
        rw [← Option.not_isSome_iff_eq_none, hopened.isSome]
        exact fun hk => hk.2 List.mem_cons_self
      rw [← left_newRequest hstaged hnone (by rw [hpc]; rfl)]
      have hpc' : (newRequest kind s).pc = .construct (kind :: pending) := hpc
      have hleft := left_setPc setup (newRequest kind s) (.construct pending) (by rw [hpc']; exact fun _ => rfl)
      rw [hpc'] at hleft
      exact hlt hleft
  | next | proceed _ | handle _ _ | finish _ _ => rw [hpc] at hs; cases hs

/-! ## The steps of the worker itself -/

/-- No request comes in, and an answer is sent. -/
def LoopAction.Own : LoopAction → Prop
  | arrive _ _ => False
  | complete _ ok => ok = true
  | construct | next _ _ | proceed | turn | finish => True

instance (a : LoopAction) : Decidable a.Own := by
  cases a <;> simp only [LoopAction.Own] <;> infer_instance

def WorkerAction.Own : WorkerAction → Prop
  | loop _ a => a.Own
  | write _ => False

instance (a : WorkerAction) : Decidable a.Own := by
  cases a <;> simp only [WorkerAction.Own] <;> infer_instance

theorem Serving.left_lt (h : Serving setup kinds s) {a : LoopAction} (hown : a.Own)
    (hs : loopStep setup strict s disk a = some (t, disk')) (hrunning : t.failed = none) :
    t.left setup < s.left setup := by
  obtain ⟨stage, early, hstaged, hopened⟩ := id h
  cases a with
  | construct =>
    obtain ⟨u, hu, heq⟩ := Option.map_eq_some_iff.mp hs
    cases heq
    exact construct_left_lt h hu
  | next id op =>
    obtain ⟨u, hu, heq⟩ := Option.map_eq_some_iff.mp hs
    cases heq
    exact (outcome_next hstaged hu).1.left_lt hstaged hrunning
  | proceed =>
    obtain ⟨u, hu, heq⟩ := Option.map_eq_some_iff.mp hs
    cases heq
    exact (outcome_proceed hstaged hu).1.left_lt hstaged hrunning
  | turn => exact (outcome_turn hstaged hs).1.left_lt hstaged hrunning
  | finish =>
    obtain ⟨u, hu, heq⟩ := Option.map_eq_some_iff.mp hs
    cases heq
    exact (outcome_finish hstaged hu).1.left_lt hstaged hrunning
  | arrive id request => exact hown.elim
  | complete id ok =>
    obtain ⟨u, hu, heq⟩ := Option.map_eq_some_iff.mp hs
    cases heq
    exact (outcome_complete hstaged hu).1.left_lt hstaged hrunning

/-- Nothing is in the queue or being sent, and the thread waits. -/
def Loop.Quiet (s : Loop) : Prop := s.pc = .next ∧ ∀ id, s.ops id = [] ∨ s.ops id = [.armed]

theorem Serving.can_step (h : Serving setup kinds s) (hquiet : ¬ s.Quiet) (strict : Bool) (disk : Files) :
    ∃ a : LoopAction, a.Own ∧ (loopStep setup strict s disk a).isSome := by
  obtain ⟨stage, early, hstaged, -⟩ := h
  cases hpc : s.pc with
  | construct pending =>
    refine ⟨.construct, trivial, ?_⟩
    cases pending <;> simp [loopStep, Server.construct, hpc]
  | next =>
    obtain ⟨id, hid⟩ : ∃ id, ¬ (s.ops id = [] ∨ s.ops id = [.armed]) := by
      by_contra hnone
      exact hquiet ⟨hpc, fun id => not_not.mp fun hid => hnone ⟨id, hid⟩⟩
    have hat := hstaged.at_stage id
    rw [hat.ops] at hid
    cases hst : stage id with
    | event request =>
      rw [hst] at hat
      refine ⟨.next id .matched, trivial, ?_⟩
      simp [loopStep, nextEvent, hpc, hat.ops, Stage.ops, Op.isEvent, Op.ok]
    | sent request =>
      rw [hst] at hat
      refine ⟨.complete id true, rfl, ?_⟩
      simp [loopStep, complete, hat.ops, Stage.ops, hat.requests, Stage.object]
    | finished request ok =>
      rw [hst] at hat
      refine ⟨.next id (.finished ok), trivial, ?_⟩
      by_cases hok : strict = true ∧ ok = false <;>
        simp [loopStep, nextEvent, hpc, hat.ops, Stage.ops, Op.isEvent, Op.ok, hok]
    | unborn | armed _ | fetched _ | handling _ _ | answering _ | closing _ _ | deleted _ _ =>
      rw [hst] at hid
      simp [Stage.ops] at hid
  | proceed id => exact ⟨.proceed, trivial, by simp [loopStep, proceedStep, hpc]⟩
  | handle id job =>
    refine ⟨.turn, trivial, ?_⟩
    cases hturn : job.turn setup disk <;> simp [loopStep, turnStep, hpc, hturn]
  | finish id reply =>
    refine ⟨.finish, trivial, ?_⟩
    cases hrequest : s.requests id <;> simp [loopStep, finishStep, hpc, hrequest]

/-! ## The end -/

/-- Every request that was matched has been answered, and its object deleted; what is left is one object of each
class, for the next request. -/
structure Loop.Answered (setup : Setup) (kinds : List Kind) (s : Loop) : Prop where
  answered : ∀ id request, .matched request ∈ s.life id → ∃ ok, s.life id = wholeLife setup request ok
  freed : ∀ id, (s.requests id).isSome → s.life id = [.armed] ∧ s.ops id = [.armed]
  opened : ∀ k ∈ kinds, ∃! id, s.Open k id

theorem Serving.answered (h : Serving setup kinds s) (hquiet : s.Quiet) : s.Answered setup kinds := by
  have hpending : s.pc.pending = [] := by rw [hquiet.1]; rfl
  have hopened : ∀ k ∈ kinds, ∃! id, s.Open k id := fun k hk => h.open_unique hk (by simp [hpending])
  obtain ⟨stage, early, hstaged, -⟩ := h
  have hrest (id : Nat) : stage id = .unborn ∨ (∃ kind, stage id = .armed kind) ∨
      ∃ request ok, stage id = .deleted request ok := by
    have hat := hstaged.at_stage id
    have hops := hquiet.2 id
    have hpc : s.pc.at id = none := by rw [hquiet.1]; rfl
    rw [hat.ops] at hops
    rw [hat.pc] at hpc
    cases hst : stage id <;> simp [hst, Stage.ops, Stage.pc] at hops hpc ⊢
  refine ⟨fun id request hmatched => ?_, fun id hsome => ?_, hopened⟩
  · rw [(hstaged.at_stage id).life] at hmatched ⊢
    rcases hrest id with hst | ⟨kind, hst⟩ | ⟨request', ok, hst⟩
    · simp [hst, Stage.life] at hmatched
    · simp [hst, Stage.life] at hmatched
    · rw [hst] at hmatched ⊢
      obtain rfl : request = request' := by simpa [Stage.life, wholeLife] using hmatched
      exact ⟨ok, rfl⟩
  · have hat := hstaged.at_stage id
    rw [hat.requests] at hsome
    rw [hat.life, hat.ops]
    rcases hrest id with hst | ⟨kind, hst⟩ | ⟨request', ok, hst⟩
    · simp [hst, Stage.object] at hsome
    · rw [hst]
      exact ⟨rfl, rfl⟩
    · simp [hst, Stage.object] at hsome

/-- What the worker still has to do by itself. -/
def Worker.left (setup : Setup) (w : Worker) : Nat :=
  if w.Running then (w.loops .mapReduce).left setup + (w.loops .ping).left setup + 1 else 0

theorem Worker.Inv.left_lt (h : w.Inv setup) {a : WorkerAction} (hown : a.Own)
    (hs : (worker setup disk).next a w = some v) : v.left setup < w.left setup := by
  obtain ⟨hrunning, ⟨name, b, loop, disk', rfl, hloop, rfl⟩ | ⟨disk', rfl, -⟩⟩ := worker_step_cases hs
  · rw [Worker.left, Worker.left, if_pos hrunning]
    split
    · next hrunning' =>
      have hless := (h.serving name).left_lt hown hloop (by simpa using hrunning'.failed name)
      cases name with
      | mapReduce =>
        simp only [Function.update_self, ne_eq, reduceCtorEq, not_false_eq_true, Function.update_of_ne]
        omega
      | ping =>
        simp only [Function.update_self, ne_eq, reduceCtorEq, not_false_eq_true, Function.update_of_ne]
        omega
    · exact Nat.succ_pos _
  · exact hown.elim

/-- The process has ended, or there is nothing left to do. -/
def Worker.Done (setup : Setup) (w : Worker) : Prop :=
  ¬ w.Running ∨ ∀ name, (w.loops name).Answered setup name.kinds

theorem Worker.Inv.goes_on (h : w.Inv setup) (disk : Files) :
    w.Done setup ∨ ∃ a v, a.Own ∧ (worker setup disk).next a w = some v ∧ v.left setup < w.left setup := by
  by_cases hrunning : w.Running
  · by_cases hquiet : ∀ name, (w.loops name).Quiet
    · exact .inl (.inr fun name => (h.serving name).answered (hquiet name))
    · obtain ⟨name, hname⟩ := not_forall.mp hquiet
      obtain ⟨b, hown, hsome⟩ := (h.serving name).can_step hname name.strict w.disk
      obtain ⟨⟨loop, disk'⟩, hloop⟩ := Option.isSome_iff_exists.mp hsome
      have hnext : (worker setup disk).next (.loop name b) w = some ⟨Function.update w.loops name loop, disk'⟩ := by
        simp [worker, hrunning, hloop]
      have hown' : (WorkerAction.loop name b).Own := hown
      exact .inr ⟨_, _, hown', hnext, h.left_lt hown' hnext⟩
  · exact .inl (.inl hrunning)

/-- Whatever has happened so far: from here on the worker takes a bounded number of steps of its own, in any order;
and it can go on with them until every request that was matched has been answered and its object deleted,
unless the process ends before. -/
theorem worker_answers (hr : Reach (worker setup disk) w) (as : List WorkerAction)
    (hv : execVia { worker setup disk with init := w } (fun a _ => a.Own) as w = some v) :
    as.length ≤ w.left setup ∧
      (v.Done setup ∨ ∃ a u, a.Own ∧ (worker setup disk).next a v = some u) := by
  let S : System Worker WorkerAction := { worker setup disk with init := w }
  have hinv {u : Worker} (hu : ReachVia S (fun a _ => a.Own) u) : u.Inv setup := by
    refine ReachVia.invariant (S := S) (worker_inv hr) (fun {u u' a} _ h _ hs => ?_) hu
    have hs' : (worker setup disk).next a u = some u' := hs
    exact h.step hs'
  have hless {u u' : Worker} {a : WorkerAction} (hu : ReachVia S (fun a _ => a.Own) u) (hown : a.Own)
      (hs : S.next a u = some u') : u'.left setup + (if true then 1 else 0) ≤ u.left setup := by
    have hs' : (worker setup disk).next a u = some u' := hs
    exact (hinv hu).left_lt hown hs'
  constructor
  · have hcount := countP_le_weight (S := S) (p := fun _ => true) hless as .init hv
    rw [List.countP_true] at hcount
    exact (Nat.le_add_right _ _).trans hcount
  · have hv' : ReachVia S (fun a _ => a.Own) v := reachVia_execVia as .init hv
    rcases (hinv hv').goes_on disk with hdone | ⟨a, u, hown, hs, -⟩
    · exact .inl hdone
    · exact .inr ⟨a, u, hown, hs⟩

theorem worker_answers_one_request : ∃ w v, Reach (worker oneMapper fun _ => none) w ∧
    execVia { worker oneMapper fun _ => none with init := w } (fun a _ => a.Own) afterArrival w = some v ∧
      afterArrival.length ≤ w.left oneMapper := by
  have hrun : ((exec (worker oneMapper fun _ => none) untilArrival (worker oneMapper fun _ => none).init).bind
      (execVia (worker oneMapper fun _ => none) (fun a _ => a.Own) afterArrival)).isSome := by decide
  obtain ⟨v, hv⟩ := Option.isSome_iff_exists.mp hrun
  obtain ⟨w, hw, hv⟩ := Option.bind_eq_some_iff.mp hv
  have hreach := reach_exec untilArrival .init hw
  exact ⟨w, v, hreach, hv, (worker_answers hreach afterArrival hv).1⟩

end AdvancedOS.MapReduce.Server
