import AdvancedOS.Prelab.Completion

/-!
# The main thread

`main` of `producer_consumer.c` around the threads: it initialises the mutexes, creates the producer and a consumer,
joins both, prints and frees the count of its consumer, and destroys the mutexes; the producer does the same with
the count of the consumer that it has created. A `pthread_create` that fails ends the program.

* `program`: the threads take steps of `system mainSetup`, as soon as they have been created.
* `Lifetimes`: which mutexes exist, and which counts have been allocated and freed.
* `main_returns`: the mutexes and the counts are used only while they exist; `main` can always return, and when it
  has, nothing is left.
-/

namespace AdvancedOS.Prelab

open Lts LinkedList

/-- `a` to `z`. -/
def letters : List UInt8 := (List.range 26).map fun i => 97 + UInt8.ofNat i

/-- One producer, which creates consumer 0; consumer 1 is created by `main`. -/
def mainSetup : Setup where
  numProducers := 1
  numConsumers := 2
  chars _ := letters
  child _ := some 0
  producers_pos := Nat.zero_lt_one
  consumers_pos := Nat.zero_lt_two
  child_lt _ h := by
    obtain rfl := Option.some.inj h
    exact Nat.zero_lt_two
  child_inj hi hk _ _ := by omega

inductive MainPc
  | initQueue
  | initNum
  | setNumProd
  | createProducer
  | createConsumer
  | joinProducer
  | joinConsumer
  | printCount
  | freeCount
  | destroyQueue
  | destroyNum
  | returned
  deriving DecidableEq, Repr

/-- The number of steps to the end. -/
def MainPc.left : MainPc → Nat
  | .initQueue => 11
  | .initNum => 10
  | .setNumProd => 9
  | .createProducer => 8
  | .createConsumer => 7
  | .joinProducer => 6
  | .joinConsumer => 5
  | .printCount => 4
  | .freeCount => 3
  | .destroyQueue => 2
  | .destroyNum => 1
  | .returned => 0

/-- `main` has done this step. -/
def MainPc.Past (pc step : MainPc) : Prop := pc.left < step.left

instance (pc step : MainPc) : Decidable (pc.Past step) := inferInstanceAs (Decidable (_ < _))

/-- The producer after it has joined its consumer; `join` is all that is before. -/
inductive ProducerEnd
  | join
  | printCount
  | freeCount
  | returned
  deriving DecidableEq, Repr

def ProducerEnd.left : ProducerEnd → Nat
  | .join => 3
  | .printCount => 2
  | .freeCount => 1
  | .returned => 0

/-- Memory from `malloc`, or a mutex. -/
inductive Object
  | fresh
  | live
  | dead
  deriving DecidableEq, Repr

/-- The whole process. `counts j` is the memory for the count of consumer `j`, and `printed` has the counts that have
been printed. -/
structure Program where
  threads : State
  main : MainPc
  producerEnd : ProducerEnd
  counts : Nat → Object
  queueMutex : Object
  numMutex : Object
  printed : List Nat
  exited : Bool

/-- A consumer thread exists. -/
def Program.Created (p : Program) (j : Nat) : Prop :=
  if j = 0 then (p.threads.consumers 0).pc ≠ .unborn else p.main.Past .createConsumer

instance (p : Program) (j : Nat) : Decidable (p.Created j) := inferInstanceAs (Decidable (ite _ _ _))

/-- A count is printed if its memory is there. -/
def printCount (j : Nat) (p : Program) : Option Program :=
  if p.counts j = .live then some { p with printed := p.printed ++ [(p.threads.consumers j).count] } else none

/-- `free`, which has no result for memory that is not there. -/
def freeCount (j : Nat) (p : Program) : Option Program :=
  if p.counts j = .live then some { p with counts := Function.update p.counts j .dead } else none

def mainStep (p : Program) : Option Program :=
  match p.main with
  | .initQueue => some { p with main := .initNum, queueMutex := .live }
  | .initNum => some { p with main := .setNumProd, numMutex := .live }
  | .setNumProd => some { p with main := .createProducer, threads := { p.threads with numProd := 1 } }
  | .createProducer => some { p with main := .createConsumer }
  | .createConsumer => some { p with main := .joinProducer }
  | .joinProducer => if p.producerEnd = .returned then some { p with main := .joinConsumer } else none
  | .joinConsumer => if (p.threads.consumers 1).pc = .returned then some { p with main := .printCount } else none
  | .printCount => (printCount 1 p).map fun p => { p with main := .freeCount }
  | .freeCount => (freeCount 1 p).map fun p => { p with main := .destroyQueue }
  | .destroyQueue => some { p with main := .destroyNum, queueMutex := .dead }
  | .destroyNum => some { p with main := .returned, numMutex := .dead }
  | .returned => none

/-- The end of `producer_routine`. -/
def producerEndStep (p : Program) : Option Program :=
  match p.producerEnd with
  | .join => if (p.threads.producers 0).pc = .returned then some { p with producerEnd := .printCount } else none
  | .printCount => (printCount 0 p).map fun p => { p with producerEnd := .freeCount }
  | .freeCount => (freeCount 0 p).map fun p => { p with producerEnd := .returned }
  | .returned => none

/-- `createFails` is a `pthread_create` that fails, in `main` or in the producer; `malloc j` is the first thing that
consumer `j` does. -/
inductive ProgramAction
  | main
  | createFails
  | producer (malloc : Malloc)
  | producerEnd
  | malloc (j : Nat)
  | consumer (j : Nat)

/-- A thread is about to be created. -/
def Program.Creates (p : Program) : Prop :=
  p.main = .createProducer ∨ p.main = .createConsumer ∨
    p.main.Past .createProducer ∧ (p.threads.producers 0).pc = .create

instance (p : Program) : Decidable p.Creates := inferInstanceAs (Decidable (_ ∨ _))

def programStep (a : ProgramAction) (p : Program) : Option Program :=
  match a with
  | .main => mainStep p
  | .createFails => if p.Creates then some { p with exited := true } else none
  | .producer malloc =>
    if p.main.Past .createProducer then
      ((system mainSetup).next (.producer 0 malloc) p.threads).map fun threads => { p with threads }
    else none
  | .producerEnd => producerEndStep p
  | .malloc j =>
    if j < 2 ∧ p.Created j ∧ p.counts j = .fresh then some { p with counts := Function.update p.counts j .live }
    else none
  | .consumer j =>
    if p.Created j ∧ p.counts j = .live then
      ((system mainSetup).next (.consumer j) p.threads).map fun threads => { p with threads }
    else none

/-- `g_num_prod` is 0 before `main` sets it. -/
def program : System Program ProgramAction where
  init :=
    { threads := { (system mainSetup).init with numProd := 0 }
      main := .initQueue
      producerEnd := .join
      counts := fun _ => .fresh
      queueMutex := .fresh
      numMutex := .fresh
      printed := []
      exited := false }
  next a p := if p.exited then none else programStep a p

variable {s t : State} {p q : Program} {j : Nat}

/-! ## What exists when -/

/-- What is known of the mutexes, the counts and the threads. -/
structure Lifetimes (p : Program) : Prop where
  early : ¬ p.main.Past .setNumProd → p.threads = { (system mainSetup).init with numProd := 0 }
  producer : ¬ p.main.Past .createProducer →
    (p.threads.producers 0).pc = .create ∧ (p.threads.consumers 0).pc = .unborn
  consumer : ¬ p.main.Past .createConsumer → (p.threads.consumers 1).pc = .lockQueue ∧ p.counts 1 = .fresh
  child : (p.threads.consumers 0).pc = .unborn → p.counts 0 = .fresh
  started : ∀ j, p.counts j = .fresh → (p.threads.consumers j).pc ≠ .returned
  joined : (p.threads.producers 0).pc = .returned → (p.threads.consumers 0).pc = .returned
  producerEnd : p.producerEnd ≠ .join → (p.threads.producers 0).pc = .returned
  joinProducer : p.main.Past .joinProducer → p.producerEnd = .returned
  joinConsumer : p.main.Past .joinConsumer → (p.threads.consumers 1).pc = .returned
  dead_zero : p.counts 0 = .dead ↔ p.producerEnd = .returned
  dead_one : p.counts 1 = .dead ↔ p.main.Past .freeCount
  queueMutex : p.queueMutex =
    if p.main.Past .destroyQueue then .dead else if p.main.Past .initQueue then .live else .fresh
  numMutex : p.numMutex =
    if p.main.Past .destroyNum then .dead else if p.main.Past .initNum then .live else .fresh
  printed : p.printed =
    (if p.producerEnd = .freeCount ∨ p.producerEnd = .returned then [(p.threads.consumers 0).count] else []) ++
      if p.main.Past .printCount then [(p.threads.consumers 1).count] else []

theorem producer_effect {malloc : Malloc} (hs : (system mainSetup).next (.producer 0 malloc) s = some t) :
    (s.producers 0).pc ≠ .returned ∧ (∀ k ≠ 0, t.consumers k = s.consumers k) ∧
      (t.consumers 0 = s.consumers 0 ∨ (s.producers 0).pc = .create ∧ (t.consumers 0).pc = .lockQueue) ∧
      ((t.producers 0).pc = .returned → (t.consumers 0).pc = .returned) := by
  replace hs : (if 0 < 1 then producerStep mainSetup 0 malloc s else none) = some t := hs
  obtain ⟨-, hs⟩ := Option.ite_none_right_eq_some.mp hs
  cases producerStep_move hs with
  | createChild hpc hchild =>
    obtain rfl := Option.some.inj hchild
    refine ⟨by simp [hpc], fun k hk => ?_, .inr ⟨hpc, ?_⟩, fun h => ?_⟩
    · exact State.setConsumer_of_ne s 0 { s.consumers 0 with pc := .lockQueue } hk
    · exact congrArg Consumer.pc (State.setConsumer_self s 0 { s.consumers 0 with pc := .lockQueue })
    · simp [State.goProducer] at h
  | join hpc hreturned =>
    exact ⟨by simp [hpc], fun _ _ => rfl, .inl rfl, fun _ => hreturned 0 rfl⟩
  | create hpc | done hpc | malloc hpc | lockQueue hpc | add hpc | unlockQueue hpc | lockNum hpc | decrement hpc
  | unlockNum hpc =>
    exact ⟨by simp [hpc], fun _ _ => rfl, .inl rfl, fun h => by simp [State.goProducer] at h⟩

theorem consumer_effect (hs : (system mainSetup).next (.consumer j) s = some t) :
    j < 2 ∧ t.producers = s.producers ∧ (∀ k ≠ j, t.consumers k = s.consumers k) ∧
      (s.consumers j).pc ≠ .returned ∧ (t.consumers j).pc ≠ .unborn := by
  replace hs : (if j < 2 then consumerStep j s else none) = some t := hs
  obtain ⟨hj, hs⟩ := Option.ite_none_right_eq_some.mp hs
  cases consumerStep_move hs with
  | lockQueue hpc | lockNum hpc | goOn hpc | exit hpc | unlockNum hpc | remove hpc | unlockQueue hpc | tryAgain hpc
  | print hpc | free hpc | increment hpc | exitNum hpc | exitQueue hpc =>
    refine ⟨hj, rfl, fun k hk => State.setConsumer_of_ne _ j _ hk, by simp [hpc], ?_⟩
    simp [State.goConsumer]

theorem lifetimes_init : Lifetimes program.init := by
  constructor <;> simp [program, MainPc.Past, MainPc.left, system, mainSetup, Setup.IsChild]
  intro j
  split <;> simp

theorem printCount_eq_some : printCount j p = some q ↔
    p.counts j = .live ∧ q = { p with printed := p.printed ++ [(p.threads.consumers j).count] } := by
  rw [printCount, Option.ite_none_right_eq_some, Option.some.injEq, eq_comm (a := q)]

theorem freeCount_eq_some : freeCount j p = some q ↔
    p.counts j = .live ∧ q = { p with counts := Function.update p.counts j .dead } := by
  rw [freeCount, Option.ite_none_right_eq_some, Option.some.injEq, eq_comm (a := q)]

/-- Memory that is not fresh any more. -/
theorem started_update (h : ∀ k, p.counts k = .fresh → (p.threads.consumers k).pc ≠ .returned) {o : Object}
    (hobject : o ≠ .fresh) :
    ∀ k, Function.update p.counts j o k = .fresh → (p.threads.consumers k).pc ≠ .returned := by
  intro k hk
  by_cases hkj : k = j
  · rw [hkj, Function.update_self] at hk
    exact absurd hk hobject
  · rw [Function.update_of_ne hkj] at hk
    exact h k hk

/-- Memory that is there is freed. -/
theorem fresh_update (hlive : p.counts j = .live) (k : Nat) :
    Function.update p.counts j .dead k = .fresh ↔ p.counts k = .fresh := by
  by_cases hkj : k = j
  · subst hkj
    simp [hlive]
  · rw [Function.update_of_ne hkj]

theorem lifetimes_main (h : Lifetimes p) (hs : mainStep p = some q) : Lifetimes q := by
  obtain ⟨h1, h2, h3, h4, h5, h6, h7, h8, h9, h10, h11, h12, h13, h14⟩ := h
  unfold mainStep at hs
  split at hs
  case h_6 | h_7 =>
    obtain ⟨hend, hs⟩ := Option.ite_none_right_eq_some.mp hs
    cases hs
    constructor <;> simp_all [MainPc.Past, MainPc.left]
  case h_8 =>
    obtain ⟨u, hu, rfl⟩ := Option.map_eq_some_iff.mp hs
    obtain ⟨hlive, rfl⟩ := printCount_eq_some.mp hu
    constructor <;> simp_all [MainPc.Past, MainPc.left]
  case h_9 =>
    obtain ⟨u, hu, rfl⟩ := Option.map_eq_some_iff.mp hs
    obtain ⟨hlive, rfl⟩ := freeCount_eq_some.mp hu
    have hstarted := started_update h5 (j := 1) (o := .dead) (by simp)
    constructor <;> simp_all [MainPc.Past, MainPc.left]
  case h_12 => cases hs
  all_goals cases hs
  all_goals constructor <;> simp_all [MainPc.Past, MainPc.left]

theorem Lifetimes.not_joined (h : Lifetimes p) (hend : p.producerEnd ≠ .returned) : ¬ p.main.Past .joinProducer :=
  fun hpast => hend (h.joinProducer hpast)

theorem lifetimes_producerEnd (h : Lifetimes p) (hs : producerEndStep p = some q) : Lifetimes q := by
  have hprinted := h.printed
  have hdead := h.dead_zero
  unfold producerEndStep at hs
  split at hs
  case h_1 hend =>
    obtain ⟨hreturned, hs⟩ := Option.ite_none_right_eq_some.mp hs
    cases hs
    rw [hend] at hprinted hdead
    refine { h with
      producerEnd := fun _ => hreturned, joinProducer := ?_, dead_zero := by simpa using hdead,
      printed := by simpa using hprinted }
    exact fun hpast => absurd hpast (h.not_joined (by simp [hend]))
  case h_2 hend =>
    obtain ⟨u, hu, rfl⟩ := Option.map_eq_some_iff.mp hs
    obtain ⟨hlive, rfl⟩ := printCount_eq_some.mp hu
    have hnot := h.not_joined (by simp [hend])
    have hprint : ¬ p.main.Past .printCount := fun hpast => hnot (Nat.lt_trans hpast (by decide))
    rw [hend, if_neg hprint] at hprinted
    refine { h with
      producerEnd := fun _ => h.producerEnd (by simp [hend]), joinProducer := fun hpast => absurd hpast hnot,
      dead_zero := by simp [hlive], printed := ?_ }
    show p.printed ++ _ = _ ++ if p.main.Past .printCount then _ else _
    rw [hprinted, if_neg hprint]
    simp
  case h_3 hend =>
    obtain ⟨u, hu, rfl⟩ := Option.map_eq_some_iff.mp hs
    obtain ⟨hlive, rfl⟩ := freeCount_eq_some.mp hu
    have hreturned := h.producerEnd (by simp [hend])
    rw [hend] at hprinted
    refine { h with
      consumer := ?_, child := fun hpc => ?_, started := started_update h.started (by simp)
      producerEnd := fun _ => hreturned, joinProducer := fun _ => rfl, dead_zero := by simp, dead_one := ?_
      printed := by simpa using hprinted }
    · dsimp only
      rw [Function.update_of_ne Nat.one_ne_zero]
      exact h.consumer
    · cases hpc.symm.trans (h.joined hreturned)
    · dsimp only
      rw [Function.update_of_ne Nat.one_ne_zero]
      exact h.dead_one
  case h_4 => cases hs

theorem lifetimes_malloc (h : Lifetimes p) (hj : j < 2) (hcreated : p.Created j) (hfresh : p.counts j = .fresh) :
    Lifetimes { p with counts := Function.update p.counts j .live } := by
  obtain rfl | rfl : j = 0 ∨ j = 1 := by omega
  · have hborn : (p.threads.consumers 0).pc ≠ .unborn := by simpa [Program.Created] using hcreated
    have hend : p.producerEnd ≠ .returned := fun heq => by
      rw [h.dead_zero.mpr heq] at hfresh
      cases hfresh
    refine { h with
      consumer := ?_, child := fun hpc => absurd hpc hborn, started := started_update h.started (by simp)
      dead_zero := by simpa using hend, dead_one := ?_ }
    · dsimp only
      rw [Function.update_of_ne Nat.one_ne_zero]
      exact h.consumer
    · dsimp only
      rw [Function.update_of_ne Nat.one_ne_zero]
      exact h.dead_one
  · have hpast : p.main.Past .createConsumer := by simpa [Program.Created] using hcreated
    have hfree : ¬ p.main.Past .freeCount := fun hpast => by
      rw [h.dead_one.mpr hpast] at hfresh
      cases hfresh
    refine { h with
      consumer := fun hnot => absurd hpast hnot, child := ?_, started := started_update h.started (by simp)
      dead_zero := ?_, dead_one := by simpa using hfree }
    · dsimp only
      rw [Function.update_of_ne Nat.zero_ne_one]
      exact h.child
    · dsimp only
      rw [Function.update_of_ne Nat.zero_ne_one]
      exact h.dead_zero

theorem lifetimes_producer (h : Lifetimes p) {malloc : Malloc} (hpast : p.main.Past .createProducer)
    (hs : (system mainSetup).next (.producer 0 malloc) p.threads = some t) : Lifetimes { p with threads := t } := by
  obtain ⟨hrunning, hothers, hzero, hjoined⟩ := producer_effect hs
  have hone := hothers 1 Nat.one_ne_zero
  have hend : p.producerEnd = .join := by_contra fun hne => hrunning (h.producerEnd hne)
  have hset : p.main.Past .setNumProd := Nat.lt_trans hpast (by decide)
  refine
    { h with
      early := fun hnot => absurd hset hnot, producer := fun hnot => absurd hpast hnot
      consumer := ?_, child := fun hpc => ?_, started := fun k hk => ?_, joined := hjoined
      producerEnd := fun hne => absurd hend hne, joinConsumer := ?_, printed := ?_ }
  · rw [hone]
    exact h.consumer
  · rcases hzero with heq | ⟨-, heq⟩
    · exact h.child (heq ▸ hpc)
    · cases heq.symm.trans hpc
  · by_cases hk0 : k = 0
    · subst hk0
      rcases hzero with heq | ⟨-, heq⟩
      · rw [heq]
        exact h.started 0 hk
      · simp [heq]
    · rw [hothers k hk0]
      exact h.started k hk
  · rw [hone]
    exact h.joinConsumer
  · have hprinted := h.printed
    rw [hend] at hprinted ⊢
    simpa [hone] using hprinted

/-- A consumer is created by the producer, or after it. -/
theorem Lifetimes.past_of_created (h : Lifetimes p) (hj : j < 2) (hcreated : p.Created j) :
    p.main.Past .createProducer := by
  obtain rfl | rfl : j = 0 ∨ j = 1 := by omega
  · by_contra hnot
    exact hcreated (h.producer hnot).2
  · have hpast : p.main.Past .createConsumer := hcreated
    exact Nat.lt_trans hpast (by decide)

theorem lifetimes_consumer (h : Lifetimes p) (hcreated : p.Created j) (hlive : p.counts j = .live)
    (hs : (system mainSetup).next (.consumer j) p.threads = some t) : Lifetimes { p with threads := t } := by
  obtain ⟨hj, hproducers, hothers, hrunning, hborn⟩ := consumer_effect hs
  -- a consumer that has returned is another one
  have hreturned {k : Nat} (hk : (p.threads.consumers k).pc = .returned) : t.consumers k = p.threads.consumers k :=
    hothers k fun heq => hrunning (heq ▸ hk)
  have hpast := h.past_of_created hj hcreated
  have hset : p.main.Past .setNumProd := Nat.lt_trans hpast (by decide)
  refine
    { h with
      early := fun hnot => absurd hset hnot, producer := fun hnot => absurd hpast hnot, consumer := fun hnot => ?_
      child := fun hpc => ?_, started := fun k hk => ?_, joined := fun hpc => ?_, producerEnd := ?_
      joinConsumer := fun hpast => ?_, printed := ?_ }
  · have hne : 1 ≠ j := by
      rintro rfl
      exact hnot (by simpa [Program.Created] using hcreated)
    rw [hothers 1 hne]
    exact h.consumer hnot
  · have hne : 0 ≠ j := by
      rintro rfl
      exact hborn hpc
    rw [hothers 0 hne] at hpc
    exact h.child hpc
  · have hne : k ≠ j := by
      rintro rfl
      cases hlive.symm.trans hk
    rw [hothers k hne]
    exact h.started k hk
  · rw [hproducers] at hpc
    rw [hreturned (h.joined hpc)]
    exact h.joined hpc
  · rw [hproducers]
    exact h.producerEnd
  · rw [hreturned (h.joinConsumer hpast)]
    exact h.joinConsumer hpast
  · have hzero : p.producerEnd = .freeCount ∨ p.producerEnd = .returned →
        t.consumers 0 = p.threads.consumers 0 := fun hend =>
      hreturned (h.joined (h.producerEnd (by rcases hend with hend | hend <;> simp [hend])))
    have hone : p.main.Past .printCount → t.consumers 1 = p.threads.consumers 1 := fun hpast =>
      hreturned (h.joinConsumer (Nat.lt_trans hpast (by decide)))
    have hprinted := h.printed
    dsimp only
    split <;> split <;> simp_all

theorem lifetimes_step {a : ProgramAction} (h : Lifetimes p) (hs : program.next a p = some q) : Lifetimes q := by
  replace hs : (if p.exited then none else programStep a p) = some q := hs
  obtain ⟨-, hs⟩ := Option.ite_none_left_eq_some.mp hs
  cases a with
  | main => exact lifetimes_main h hs
  | createFails =>
    obtain ⟨-, hs⟩ := Option.ite_none_right_eq_some.mp hs
    cases hs
    exact { h with }
  | producer malloc =>
    obtain ⟨hpast, hs⟩ := Option.ite_none_right_eq_some.mp hs
    obtain ⟨t, ht, rfl⟩ := Option.map_eq_some_iff.mp hs
    exact lifetimes_producer h hpast ht
  | producerEnd => exact lifetimes_producerEnd h hs
  | malloc j =>
    obtain ⟨⟨hj, hcreated, hfresh⟩, hs⟩ := Option.ite_none_right_eq_some.mp hs
    cases hs
    exact lifetimes_malloc h hj hcreated hfresh
  | consumer j =>
    obtain ⟨⟨hcreated, hlive⟩, hs⟩ := Option.ite_none_right_eq_some.mp hs
    obtain ⟨t, ht, rfl⟩ := Option.map_eq_some_iff.mp hs
    exact lifetimes_consumer h hcreated hlive ht

theorem lifetimes_reach (hr : Reach program p) : Lifetimes p :=
  hr.invariant lifetimes_init fun _ h _ hs => lifetimes_step h hs

/-! ## The threads -/

/-- The threads as `main` has prepared them. -/
def Program.state (p : Program) : State := if p.main.Past .setNumProd then p.threads else (system mainSetup).init

/-- A step of `main` itself. -/
theorem main_effect (h : Lifetimes p) (hs : mainStep p = some q) : q.main.left + 1 = p.main.left ∧
    q.producerEnd = p.producerEnd ∧ q.state = p.state ∧ q.exited = p.exited ∧
      ∀ j, q.counts j = .fresh ↔ p.counts j = .fresh := by
  unfold mainStep at hs
  split at hs
  case h_3 hmain =>
    have hearly := h.early (by simp [hmain, MainPc.Past, MainPc.left])
    cases hs
    refine ⟨by simp [hmain, MainPc.left], rfl, ?_, rfl, fun _ => Iff.rfl⟩
    simp only [Program.state, hmain, hearly]
    rfl
  case h_6 hmain | h_7 hmain =>
    obtain ⟨-, hs⟩ := Option.ite_none_right_eq_some.mp hs
    cases hs
    exact ⟨by simp [hmain, MainPc.left], rfl, by simp [Program.state, hmain, MainPc.Past, MainPc.left], rfl,
      fun _ => Iff.rfl⟩
  case h_8 hmain =>
    obtain ⟨u, hu, rfl⟩ := Option.map_eq_some_iff.mp hs
    obtain ⟨-, rfl⟩ := printCount_eq_some.mp hu
    exact ⟨by simp [hmain, MainPc.left], rfl, by simp [Program.state, hmain, MainPc.Past, MainPc.left], rfl,
      fun _ => Iff.rfl⟩
  case h_9 hmain =>
    obtain ⟨u, hu, rfl⟩ := Option.map_eq_some_iff.mp hs
    obtain ⟨hlive, rfl⟩ := freeCount_eq_some.mp hu
    exact ⟨by simp [hmain, MainPc.left], rfl, by simp [Program.state, hmain, MainPc.Past, MainPc.left], rfl,
      fresh_update hlive⟩
  case h_12 => cases hs
  all_goals
    rename_i hmain
    cases hs
    exact ⟨by simp [hmain, MainPc.left], rfl, by simp [Program.state, hmain, MainPc.Past, MainPc.left], rfl,
      fun _ => Iff.rfl⟩

/-- A step at the end of the producer. -/
theorem producerEnd_effect (hs : producerEndStep p = some q) : q.producerEnd.left + 1 = p.producerEnd.left ∧
    q.main = p.main ∧ q.state = p.state ∧ q.exited = p.exited ∧ ∀ j, q.counts j = .fresh ↔ p.counts j = .fresh := by
  unfold producerEndStep at hs
  split at hs
  case h_1 hend =>
    obtain ⟨-, hs⟩ := Option.ite_none_right_eq_some.mp hs
    cases hs
    exact ⟨by simp [hend, ProducerEnd.left], rfl, rfl, rfl, fun _ => Iff.rfl⟩
  case h_2 hend =>
    obtain ⟨u, hu, rfl⟩ := Option.map_eq_some_iff.mp hs
    obtain ⟨-, rfl⟩ := printCount_eq_some.mp hu
    exact ⟨by simp [hend, ProducerEnd.left], rfl, rfl, rfl, fun _ => Iff.rfl⟩
  case h_3 hend =>
    obtain ⟨u, hu, rfl⟩ := Option.map_eq_some_iff.mp hs
    obtain ⟨hlive, rfl⟩ := freeCount_eq_some.mp hu
    exact ⟨by simp [hend, ProducerEnd.left], rfl, rfl, rfl, fresh_update hlive⟩
  case h_4 => cases hs

/-- The threads take their steps, and `main` none of theirs. -/
def threadsRefinement : Refinement program (fun _ _ => True) (system mainSetup) fun _ _ => True where
  abs := Program.state
  init := rfl
  step {p q a} hr _ hs := by
    have h := lifetimes_reach hr
    replace hs : (if p.exited then none else programStep a p) = some q := hs
    obtain ⟨-, hs⟩ := Option.ite_none_left_eq_some.mp hs
    have hthreads {b : Action} {t : State} (hpast : p.main.Past .setNumProd)
        (ht : (system mainSetup).next b p.threads = some t) :
        ∃ b, True ∧ (system mainSetup).next b p.state = some ({ p with threads := t } : Program).state := by
      refine ⟨b, trivial, ?_⟩
      rw [Program.state, Program.state, if_pos hpast, if_pos hpast]
      exact ht
    cases a with
    | main => exact .inl (main_effect h hs).2.2.1
    | createFails =>
      obtain ⟨-, hs⟩ := Option.ite_none_right_eq_some.mp hs
      cases hs
      exact .inl rfl
    | producer malloc =>
      obtain ⟨hpast, hs⟩ := Option.ite_none_right_eq_some.mp hs
      obtain ⟨t, ht, rfl⟩ := Option.map_eq_some_iff.mp hs
      exact .inr (hthreads (Nat.lt_trans hpast (by decide)) ht)
    | producerEnd => exact .inl (producerEnd_effect hs).2.2.1
    | malloc j =>
      obtain ⟨-, hs⟩ := Option.ite_none_right_eq_some.mp hs
      cases hs
      exact .inl rfl
    | consumer j =>
      obtain ⟨⟨hcreated, -⟩, hs⟩ := Option.ite_none_right_eq_some.mp hs
      obtain ⟨t, ht, rfl⟩ := Option.map_eq_some_iff.mp hs
      exact .inr (hthreads (Nat.lt_trans (h.past_of_created (consumer_effect ht).1 hcreated) (by decide)) ht)

theorem threads_reach (hr : Reach program p) : Reach (system mainSetup) p.state := threadsRefinement.reach hr

/-! ## The end of `main` -/

/-- The consumers that have not begun. -/
def Program.fresh (p : Program) : Nat := (List.range 2).countP fun j => p.counts j = .fresh

/-- What is left to be done. -/
def Program.left (p : Program) : Nat :=
  p.main.left + p.producerEnd.left + p.fresh + p.state.work mainSetup

theorem fresh_congr (h : ∀ j, q.counts j = .fresh ↔ p.counts j = .fresh) : q.fresh = p.fresh :=
  List.countP_congr fun j _ => by simpa using h j

theorem fresh_malloc (hj : j < 2) (hfresh : p.counts j = .fresh) :
    ({ p with counts := Function.update p.counts j .live } : Program).fresh < p.fresh := by
  obtain rfl | rfl : j = 0 ∨ j = 1 := by omega
  · simp [Program.fresh, List.range_succ, hfresh, List.countP_cons]
  · simp [Program.fresh, List.range_succ, hfresh, List.countP_cons]

theorem program_next (hexited : p.exited = false) (a : ProgramAction) : program.next a p = programStep a p := by
  show (if p.exited then none else programStep a p) = programStep a p
  rw [hexited]
  rfl

/-- `main` can go on. -/
theorem main_goes_on (hr : Reach program p) (hexited : p.exited = false) (hs : (mainStep p).isSome) :
    ∃ a q, a ≠ .createFails ∧ program.next a p = some q ∧ q.left < p.left := by
  obtain ⟨q, hq⟩ := Option.isSome_iff_exists.mp hs
  obtain ⟨hmain, hend, hstate, -, hfresh⟩ := main_effect (lifetimes_reach hr) hq
  refine ⟨.main, q, by simp, (program_next hexited _).trans hq, ?_⟩
  rw [Program.left, Program.left, hend, hstate, fresh_congr hfresh]
  omega

theorem producerEnd_goes_on (hexited : p.exited = false) (hs : (producerEndStep p).isSome) :
    ∃ a q, a ≠ .createFails ∧ program.next a p = some q ∧ q.left < p.left := by
  obtain ⟨q, hq⟩ := Option.isSome_iff_exists.mp hs
  obtain ⟨hend, hmain, hstate, -, hfresh⟩ := producerEnd_effect hq
  refine ⟨.producerEnd, q, by simp, (program_next hexited _).trans hq, ?_⟩
  rw [Program.left, Program.left, hmain, hstate, fresh_congr hfresh]
  omega

/-- The memory for the count of a consumer that has not returned has not been freed. -/
theorem Lifetimes.not_dead (h : Lifetimes p) (hj : j < 2) (hrunning : (p.threads.consumers j).pc ≠ .returned) :
    p.counts j ≠ .dead := by
  intro hdead
  obtain rfl | rfl : j = 0 ∨ j = 1 := by omega
  · have hend := h.dead_zero.mp hdead
    exact hrunning (h.joined (h.producerEnd (by simp [hend])))
  · exact hrunning (h.joinConsumer (Nat.lt_trans (h.dead_one.mp hdead) (by decide)))

/-- The memory for the count of a consumer that has returned is there until it is freed. -/
theorem Lifetimes.live (h : Lifetimes p) (hreturned : (p.threads.consumers j).pc = .returned)
    (hdead : p.counts j ≠ .dead) : p.counts j = .live := by
  cases hobject : p.counts j with
  | fresh => exact absurd hreturned (h.started j hobject)
  | live => rfl
  | dead => exact absurd hobject hdead

/-- While a thread has not returned, some thread goes on. -/
theorem threads_go_on (hr : Reach program p) (hexited : p.exited = false) (hpast : p.main.Past .createConsumer)
    (hleft : ¬ p.threads.Returned mainSetup) :
    ∃ a q, a ≠ .createFails ∧ program.next a p = some q ∧ q.left < p.left := by
  have h := lifetimes_reach hr
  have hinv := inv_reach (threads_reach hr)
  have hset : p.main.Past .setNumProd := Nat.lt_trans hpast (by decide)
  have hstate : p.state = p.threads := if_pos hset
  rw [hstate] at hinv
  obtain ⟨u, ⟨a, rfl, hsome⟩, hbusy⟩ := hinv.busy_can_go hleft
  obtain ⟨t, ht⟩ := Option.isSome_iff_exists.mp hsome
  have hwork := hinv.work_lt ht hbusy
  have hless : ({ p with threads := t } : Program).left < p.left := by
    have hstate' : ({ p with threads := t } : Program).state = t := if_pos hset
    rw [Program.left, Program.left, hstate, hstate']
    exact Nat.add_lt_add_left hwork _
  cases a with
  | producer i malloc =>
    obtain ⟨hi, -⟩ := Option.ite_none_right_eq_some.mp ht
    obtain rfl : i = 0 := Nat.lt_one_iff.mp hi
    have hcreated : p.main.Past .createProducer := Nat.lt_trans hpast (by decide)
    refine ⟨.producer malloc, _, by simp, (program_next hexited _).trans ?_, hless⟩
    rw [programStep, if_pos hcreated, ht]
    rfl
  | consumer j =>
    obtain ⟨hj, -, -, hrunning, -⟩ := consumer_effect ht
    have hcreated : p.Created j := by
      obtain rfl | rfl : j = 0 ∨ j = 1 := by omega
      · intro hborn
        have hstep : consumerStep 0 p.threads = some t := ht
        rw [consumerStep, hborn] at hstep
        cases hstep
      · exact hpast
    by_cases hfresh : p.counts j = .fresh
    · refine ⟨.malloc j, { p with counts := Function.update p.counts j .live }, by simp,
        (program_next hexited _).trans ?_, ?_⟩
      · exact if_pos ⟨hj, hcreated, hfresh⟩
      · have hcount := Nat.add_lt_add_left (fresh_malloc hj hfresh) (p.main.left + p.producerEnd.left)
        exact Nat.add_lt_add_right hcount (p.state.work mainSetup)
    · have hlive : p.counts j = .live := by
        cases hobject : p.counts j with
        | fresh => exact absurd hobject hfresh
        | live => rfl
        | dead => exact absurd hobject (h.not_dead hj hrunning)
      refine ⟨.consumer j, _, by simp, (program_next hexited _).trans ?_, hless⟩
      have hguard : p.Created j ∧ p.counts j = .live := ⟨hcreated, hlive⟩
      rw [programStep, if_pos hguard, ht]
      rfl

/-- The counts that are about to be printed or freed are there. -/
theorem Lifetimes.printable (h : Lifetimes p) :
    (p.main = .printCount ∨ p.main = .freeCount → p.counts 1 = .live) ∧
      (p.producerEnd = .printCount ∨ p.producerEnd = .freeCount → p.counts 0 = .live) := by
  constructor
  · intro hmain
    refine h.live (h.joinConsumer ?_) fun hdead => ?_
    · rcases hmain with hmain | hmain <;> simp [hmain, MainPc.Past, MainPc.left]
    · have hpast := h.dead_one.mp hdead
      rcases hmain with hmain | hmain <;> simp [hmain, MainPc.Past, MainPc.left] at hpast
  · intro hend
    refine h.live (h.joined (h.producerEnd ?_)) fun hdead => ?_
    · rcases hend with hend | hend <;> simp [hend]
    · have hreturned := h.dead_zero.mp hdead
      rcases hend with hend | hend <;> simp [hend] at hreturned

theorem program_goes_on (hr : Reach program p) (hexited : p.exited = false) :
    p.main = .returned ∨ ∃ a q, a ≠ .createFails ∧ program.next a p = some q ∧ q.left < p.left := by
  have h := lifetimes_reach hr
  cases hmain : p.main with
  | returned => exact .inl rfl
  | joinProducer =>
    refine .inr ?_
    have hpast : p.main.Past .createConsumer := by simp [hmain, MainPc.Past, MainPc.left]
    cases hend : p.producerEnd with
    | returned => exact main_goes_on hr hexited (by simp [mainStep, hmain, hend])
    | printCount =>
      exact producerEnd_goes_on hexited (by simp [producerEndStep, hend, printCount, h.printable.2 (.inl hend)])
    | freeCount =>
      exact producerEnd_goes_on hexited (by simp [producerEndStep, hend, freeCount, h.printable.2 (.inr hend)])
    | join =>
      by_cases hreturned : (p.threads.producers 0).pc = .returned
      · exact producerEnd_goes_on hexited (by simp [producerEndStep, hend, hreturned])
      · exact threads_go_on hr hexited hpast fun hall => hreturned (hall.producers 0 Nat.zero_lt_one)
  | joinConsumer =>
    refine .inr ?_
    by_cases hreturned : (p.threads.consumers 1).pc = .returned
    · exact main_goes_on hr hexited (by simp [mainStep, hmain, hreturned])
    · have hpast : p.main.Past .createConsumer := by simp [hmain, MainPc.Past, MainPc.left]
      exact threads_go_on hr hexited hpast fun hall => hreturned (hall.consumers 1 Nat.one_lt_two)
  | printCount =>
    exact .inr (main_goes_on hr hexited (by simp [mainStep, hmain, printCount, h.printable.1 (.inl hmain)]))
  | freeCount =>
    exact .inr (main_goes_on hr hexited (by simp [mainStep, hmain, freeCount, h.printable.1 (.inr hmain)]))
  | initQueue | initNum | setNumProd | createProducer | createConsumer | destroyQueue | destroyNum =>
    exact .inr (main_goes_on hr hexited (by simp [mainStep, hmain]))

/-- A process that has not exited has created all its threads so far. -/
theorem reach_of_not_exited (hr : Reach program p) (hexited : p.exited = false) :
    ReachVia program (fun a _ => a ≠ .createFails) p := by
  induction hr with
  | init => exact .init
  | @step s t a hr _ hs ih =>
    have hstep := hs
    replace hstep : (if s.exited then none else programStep a s) = some t := hstep
    obtain ⟨hnot, hstep⟩ := Option.ite_none_left_eq_some.mp hstep
    refine .step (ih (by simpa using hnot)) (fun heq => ?_) hs
    subst heq
    obtain ⟨-, hstep⟩ := Option.ite_none_right_eq_some.mp hstep
    cases hstep
    cases hexited

theorem exited_step {a : ProgramAction} (h : Lifetimes p) (ha : a ≠ .createFails) (hs : programStep a p = some q) :
    q.exited = p.exited := by
  cases a with
  | main => exact (main_effect h hs).2.2.2.1
  | createFails => exact absurd rfl ha
  | producerEnd => exact (producerEnd_effect hs).2.2.2.1
  | producer malloc =>
    obtain ⟨-, hs⟩ := Option.ite_none_right_eq_some.mp hs
    obtain ⟨t, -, rfl⟩ := Option.map_eq_some_iff.mp hs
    rfl
  | malloc j =>
    obtain ⟨-, hs⟩ := Option.ite_none_right_eq_some.mp hs
    cases hs
    rfl
  | consumer j =>
    obtain ⟨-, hs⟩ := Option.ite_none_right_eq_some.mp hs
    obtain ⟨t, -, rfl⟩ := Option.map_eq_some_iff.mp hs
    rfl

/-- As long as every thread can be created, `main` can return. -/
theorem main_completes (hr : Reach program p) (hexited : p.exited = false) :
    ∃ q, ReachVia { program with init := p } (fun a _ => a ≠ .createFails) q ∧ q.main = .returned := by
  have hgo {s : Program} (hs : ReachVia program (fun a _ => a ≠ .createFails) s) :
      s.main = .returned ∨ ∃ a t, a ≠ .createFails ∧ program.next a s = some t ∧ t.left < s.left := by
    refine program_goes_on hs.reach ?_
    refine hs.invariant (I := fun s => s.exited = false) rfl fun {u v a} hu hrunning hok hstep => ?_
    rw [program_next hrunning] at hstep
    exact (exited_step (lifetimes_reach hu.reach) hok hstep).trans hrunning
  exact exists_final_via hgo (reach_of_not_exited hr hexited)

/-! ## What the threads use -/

/-- The thread exists and has not returned. -/
def Program.Running (p : Program) : Thread → Prop
  | .producer i => i = 0 ∧ p.main.Past .createProducer ∧ (p.threads.producers 0).pc ≠ .returned
  | .consumer j => j < 2 ∧ p.Created j ∧ (p.threads.consumers j).pc ≠ .returned

/-- A running thread keeps `main` from destroying the mutexes. -/
theorem Lifetimes.mutexes (h : Lifetimes p) {u : Thread} (hu : p.Running u) :
    p.queueMutex = .live ∧ p.numMutex = .live := by
  have hproducer (hrunning : (p.threads.producers 0).pc ≠ .returned) : ¬ p.main.Past .joinConsumer := by
    refine fun hjoined => hrunning (h.producerEnd ?_)
    simp [h.joinProducer (Nat.lt_trans hjoined (by decide))]
  have hmain : p.main.Past .createProducer ∧ ¬ p.main.Past .joinConsumer := by
    cases u with
    | producer i => exact ⟨hu.2.1, hproducer hu.2.2⟩
    | consumer j =>
      obtain ⟨hj, hcreated, hrunning⟩ := hu
      refine ⟨h.past_of_created hj hcreated, ?_⟩
      obtain rfl | rfl : j = 0 ∨ j = 1 := by omega
      · exact hproducer fun hreturned => hrunning (h.joined hreturned)
      · exact fun hjoined => hrunning (h.joinConsumer hjoined)
  have hqueue : p.main.Past .initQueue := Nat.lt_trans hmain.1 (by decide)
  have hnum : p.main.Past .initNum := Nat.lt_trans hmain.1 (by decide)
  have hqueue' : ¬ p.main.Past .destroyQueue := fun hpast => hmain.2 (Nat.lt_trans hpast (by decide))
  have hnum' : ¬ p.main.Past .destroyNum := fun hpast => hmain.2 (Nat.lt_trans hpast (by decide))
  rw [h.queueMutex, h.numMutex, if_neg hqueue', if_neg hnum', if_pos hqueue, if_pos hnum]
  exact ⟨rfl, rfl⟩

/-- When the consumer of `main` has been joined, all threads have returned. -/
theorem Lifetimes.returned (h : Lifetimes p) (hpast : p.main.Past .joinConsumer) :
    p.threads.Returned mainSetup := by
  have hproducer : (p.threads.producers 0).pc = .returned :=
    h.producerEnd (by simp [h.joinProducer (Nat.lt_trans hpast (by decide))])
  refine ⟨fun i hi => ?_, fun j hj => ?_⟩
  · obtain rfl : i = 0 := Nat.lt_one_iff.mp hi
    exact hproducer
  · obtain rfl | rfl : j = 0 ∨ j = 1 := by
      have hj : j < 2 := hj
      omega
    · exact h.joined hproducer
    · exact h.joinConsumer hpast

/-- What is there when all threads have returned. -/
theorem removed_eq_letters (h : Inv mainSetup s) (hreturned : s.Returned mainSetup) :
    s.removed.map Prod.snd = letters ∧ (s.consumers 0).count + (s.consumers 1).count = 26 := by
  obtain ⟨nodes, hstored⟩ := h.stored
  obtain ⟨rfl, hpart, hsum⟩ := h.at_end hstored hreturned.producers hreturned.consumers
  refine ⟨?_, by simpa [mainSetup, Finset.sum_range_succ, letters] using hsum⟩
  have hothers : ∀ k ≠ 0, part k s.enqueued = [] := fun k hk => by
    have hproduced := hstored.produced k
    rw [h.bounds.producers k (Nat.one_le_iff_ne_zero.mpr hk)] at hproduced
    exact (List.append_eq_nil_iff.mp (List.append_left_eq_self.mp hproduced)).1
  have horder := hstored.order
  rw [map_snd_eq_part hothers, hpart 0 Nat.zero_lt_one] at horder
  exact (horder.trans (List.append_nil _)).symm

/-- The whole program, in every state that is reached.

* While a thread runs, both mutexes are there, and so is its count if it is a consumer that has begun; when `main`
  destroys the mutexes, nobody holds one.
* A count that is to be printed or freed is there.
* When `main` has returned, all threads have, all memory has been freed, the characters have been removed in their
  order, and the two counts that have been printed add up to their number.
* If no thread has failed to be created, `main` can return. -/
theorem main_returns (hr : Reach program p) :
    ((∀ u, p.Running u → p.queueMutex = .live ∧ p.numMutex = .live) ∧
      (∀ j, p.Running (.consumer j) → p.counts j ≠ .dead) ∧
      (p.main = .destroyQueue ∨ p.main = .destroyNum → p.threads.queueLock = none ∧ p.threads.numLock = none)) ∧
    ((p.main = .printCount ∨ p.main = .freeCount → p.counts 1 = .live) ∧
      (p.producerEnd = .printCount ∨ p.producerEnd = .freeCount → p.counts 0 = .live)) ∧
    (p.main = .returned → p.threads.Returned mainSetup ∧ (∀ a, p.threads.queue.heap a = none) ∧
      (∀ j < 2, p.counts j = .dead) ∧ p.queueMutex = .dead ∧ p.numMutex = .dead ∧
      p.threads.removed.map Prod.snd = letters ∧ ∃ m n, p.printed = [m, n] ∧ m + n = 26) ∧
    (p.exited = false →
      ∃ q, ReachVia { program with init := p } (fun a _ => a ≠ .createFails) q ∧ q.main = .returned) := by
  have h := lifetimes_reach hr
  have hreach := threads_reach hr
  have hstate (hpast : p.main.Past .joinConsumer) : p.state = p.threads :=
    if_pos (Nat.lt_trans hpast (by decide) : p.main.Past .setNumProd)
  refine ⟨⟨fun u => h.mutexes, fun j hj => h.not_dead hj.1 hj.2.2, fun hmain => ?_⟩, h.printable, fun hmain => ?_,
    main_completes hr⟩
  · have hpast : p.main.Past .joinConsumer := by
      rcases hmain with hmain | hmain <;> simp [hmain, MainPc.Past, MainPc.left]
    rw [hstate hpast] at hreach
    exact (inv_reach hreach).unlocked (h.returned hpast)
  · have hpast (step : MainPc) (hstep : 0 < step.left) : p.main.Past step := by rwa [hmain]
    have hreturned := h.returned (hpast _ (by decide))
    rw [hstate (hpast _ (by decide))] at hreach
    have hinv := inv_reach hreach
    obtain ⟨hremoved, hcounts⟩ := removed_eq_letters hinv hreturned
    have hend := h.joinProducer (hpast _ (by decide))
    refine ⟨hreturned, hinv.heap_eq_none (owned_reach hreach) hreturned, fun j hj => ?_, ?_, ?_, hremoved, ?_⟩
    · obtain rfl | rfl : j = 0 ∨ j = 1 := by omega
      · exact h.dead_zero.mpr hend
      · exact h.dead_one.mpr (hpast _ (by decide))
    · rw [h.queueMutex, if_pos (hpast _ (by decide))]
    · rw [h.numMutex, if_pos (hpast _ (by decide))]
    · refine ⟨_, _, ?_, hcounts⟩
      rw [h.printed, hend, if_pos (.inr rfl), if_pos (hpast _ (by decide))]
      rfl

/-- From the start `main` can return. -/
theorem main_returns_from_start : ∃ p, Reach program p ∧ p.main = .returned ∧
    p.threads.removed.map Prod.snd = letters ∧ ∃ m n, p.printed = [m, n] ∧ m + n = 26 := by
  obtain ⟨-, -, -, hcompletes⟩ := main_returns (.init : Reach program _)
  obtain ⟨q, hq, hmain⟩ := hcompletes rfl
  have hreach : Reach program q := ReachVia.init.trans hq.reach
  obtain ⟨-, -, hreturned, -⟩ := main_returns hreach
  obtain ⟨-, -, -, -, -, hremoved, hprinted⟩ := hreturned hmain
  exact ⟨q, hreach, hmain, hremoved, hprinted⟩

end AdvancedOS.Prelab
