import Mathlib.Data.Finset.Card
import AdvancedOS.Combined.Program

/-!
# The combined barrier: one process

`ProcessInv` is the invariant of the shared counter of one process. In episode `e`, the
process has released its threads `e` times, and it is in one of two phases.
* `Gathering`: nobody leads. `count` is the number of threads less those that wait in
  `while (sense != my_sense)` for this episode.
* `Leading`: one thread leads and all others wait, until it stores `sense`.

No step of another process or of the network is involved: `processInv_move` needs nothing
but the process itself.
-/

namespace AdvancedOS.Combined

open Lts Fifo Fifo.Network Dissemination

variable {n t numCalls rank tid e : Nat} {p p' : Process} {net net' : Network Envelope Stamp}

/-- What a thread knows of `sense` in episode `e`. A thread in the `while` has either not been
released yet, or been released and not yet noticed. -/
def Thread.Ok (numCalls e : Nat) (sense : Bool) (th : Thread) : Prop :=
  match th.pc with
  | .outside => th.calls = e
  | .arrive b => th.calls = e ∧ e < numCalls ∧ b = !sense
  | .spin b => (th.calls = e ∧ b = !sense) ∨ (th.calls + 1 = e ∧ b = sense)
  | .loop b _ | .recv b _ | .flip b => th.calls = e ∧ b = !sense

/-- A thread has returned from all episodes that are over, or it has been released from the last
one and has not noticed yet. -/
theorem Thread.Ok.calls_cases {sense : Bool} {th : Thread} (h : th.Ok numCalls e sense) :
    th.calls = e ∨ th.calls + 1 = e ∧ th.pc = .spin sense := by
  obtain ⟨calls, pc⟩ := th
  cases pc with
  | outside => exact .inl h
  | arrive b | loop b round | recv b round | flip b => exact .inl h.1
  | spin b =>
    rcases h with ⟨heq, -⟩ | ⟨hlt, rfl⟩
    · exact .inl heq
    · exact .inr ⟨hlt, rfl⟩

/-- A thread that waits to be released from episode `e`. -/
def Thread.waits (e : Nat) (th : Thread) : Prop := th.calls = e ∧ ∃ b, th.pc = .spin b

open Classical in
/-- The threads that wait to be released from episode `e`. -/
noncomputable def Process.waiting (t e : Nat) (p : Process) : Finset Nat :=
  (Finset.range t).filter fun tid => (p.threads tid).waits e

/-- Nobody leads: some thread has not yet decremented `count` in this episode. -/
structure Gathering (t e : Nat) (p : Process) : Prop where
  leaders : p.leaders.length = e
  free : ∀ tid < t, ¬ (p.threads tid).pc.leads
  count : p.count = t - (p.waiting t e).card
  lt : (p.waiting t e).card < t

/-- The value of `count` while a thread leads: the leader resets it before it stores `sense`. -/
def Pc.leaderCount (t : Nat) : Pc → Int
  | .flip _ => t
  | _ => 0

/-- `leader` has found itself last, and everybody else waits. -/
structure Leading (t e : Nat) (p : Process) (leader : Nat) : Prop where
  leaders : ∃ rest, p.leaders = (leader, e + 1) :: rest ∧ rest.length = e
  lt : leader < t
  leads : (p.threads leader).pc.leads
  others : ∀ tid < t, tid ≠ leader → (p.threads tid).waits e
  count : p.count = (p.threads leader).pc.leaderCount t

/-- The invariant of a process in episode `e`. -/
structure ProcessInv (t numCalls e : Nat) (p : Process) : Prop where
  ok : ∀ tid < t, (p.threads tid).Ok numCalls e p.sense
  phase : Gathering t e p ∨ ∃ leader, Leading t e p leader
  leadersLt : ∀ x ∈ p.leaders, x.1 < t
  leadersCalls : p.leaders.map Prod.snd = (List.range' 1 p.leaders.length).reverse

/-! ## The waiting threads -/

theorem mem_waiting : tid ∈ p.waiting t e ↔ tid < t ∧ (p.threads tid).waits e := by
  simp [Process.waiting]

/-- A step of a thread that neither starts nor stops waiting leaves the waiting threads. -/
theorem waiting_congr (h : ∀ i < t, (p'.threads i).waits e ↔ (p.threads i).waits e) :
    p'.waiting t e = p.waiting t e := by
  ext i
  rw [mem_waiting, mem_waiting]
  exact and_congr_right (h i)

theorem waiting_insert (htid : tid < t) (hwaits : (p'.threads tid).waits e)
    (hframe : ∀ i, i ≠ tid → p'.threads i = p.threads i) :
    p'.waiting t e = insert tid (p.waiting t e) := by
  ext i
  rw [Finset.mem_insert, mem_waiting, mem_waiting]
  by_cases hi : i = tid
  · subst hi; simp [htid, hwaits]
  · simp [hi, hframe i hi]

/-- When only `tid` does not wait, everybody else does. -/
theorem others_wait (htid : tid < t) (hnot : ¬ (p.threads tid).waits e)
    (hcard : (p.waiting t e).card + 1 = t) {i : Nat} (hi : i < t) (hne : i ≠ tid) :
    (p.threads i).waits e := by
  have hsub : p.waiting t e ⊆ (Finset.range t).erase tid := by
    intro j hj
    obtain ⟨hlt, hwaits⟩ := mem_waiting.mp hj
    refine Finset.mem_erase.mpr ⟨?_, Finset.mem_range.mpr hlt⟩
    rintro rfl
    exact hnot hwaits
  have herase : ((Finset.range t).erase tid).card = t - 1 := by
    rw [Finset.card_erase_of_mem (Finset.mem_range.mpr htid), Finset.card_range]
  have heq := Finset.eq_of_subset_of_card_le hsub (by omega)
  have hmem : i ∈ p.waiting t e := by
    rw [heq]
    exact Finset.mem_erase.mpr ⟨hne, Finset.mem_range.mpr hi⟩
  exact (mem_waiting.mp hmem).2

/-- While a process gathers, somebody does not wait. -/
theorem exists_not_waits (h : Gathering t e p) : ∃ i < t, ¬ (p.threads i).waits e := by
  by_contra hall
  push Not at hall
  have heq : p.waiting t e = Finset.range t := by
    ext i
    rw [mem_waiting, Finset.mem_range]
    exact and_iff_left_of_imp (hall i)
  have hlt := h.lt
  rw [heq, Finset.card_range] at hlt
  exact Nat.lt_irrefl t hlt

/-! ## Every step keeps the invariant -/

theorem processInv_init (ht : 0 < t) : ProcessInv t numCalls 0 (initProcess t) := by
  have hwaiting : (initProcess t).waiting t 0 = ∅ := by
    ext i; simp [mem_waiting, initProcess, Thread.waits]
  exact {
    ok := fun _ _ => rfl
    phase := .inl ⟨rfl, fun _ _ => id, by rw [hwaiting]; simp [initProcess], by rwa [hwaiting]⟩
    leadersLt := fun _ h => by cases h
    leadersCalls := rfl }

/-- The frame of `ok`: the thread that steps is fine, and `sense` has not changed. -/
theorem ok_put (h : ProcessInv t numCalls e p) {q : Process} {th : Thread}
    (hthreads : q.threads = p.threads) (hsense : q.sense = p.sense) (hth : th.Ok numCalls e p.sense) :
    ∀ i < t, ((q.put tid th).threads i).Ok numCalls e (q.put tid th).sense := by
  intro i hi
  rw [Process.put_sense, hsense]
  by_cases hne : i = tid
  · subst hne; rwa [Process.put_self]
  · rw [Process.put_of_ne _ _ hne, hthreads]; exact h.ok i hi

/-- A thread that does not wait and does not lead is in a process that gathers. -/
theorem gathering_of_thread (h : ProcessInv t numCalls e p) (htid : tid < t)
    (hwaits : ¬ (p.threads tid).waits e) (hleads : ¬ (p.threads tid).pc.leads) : Gathering t e p := by
  rcases h.phase with hg | ⟨leader, hl⟩
  · exact hg
  · by_cases hne : tid = leader
    · subst hne; exact absurd hl.leads hleads
    · exact absurd (hl.others tid htid hne) hwaits

/-- A thread that leads has not been released. -/
theorem calls_of_leads {sense : Bool} {th : Thread} (h : th.Ok numCalls e sense) (hleads : th.pc.leads) :
    th.calls = e := by
  rcases h.calls_cases with heq | ⟨-, hpc⟩
  · exact heq
  · rw [hpc] at hleads
    exact hleads.elim

/-- While a thread leads, nobody has returned from the call. -/
theorem Leading.calls_eq {leader : Nat} (h : ProcessInv t numCalls e p) (hl : Leading t e p leader)
    (htid : tid < t) : (p.threads tid).calls = e := by
  by_cases hne : tid = leader
  · subst hne; exact calls_of_leads (h.ok tid htid) hl.leads
  · exact (hl.others tid htid hne).1

/-- A thread that leads is the leader of its process. -/
theorem leading_of_thread (h : ProcessInv t numCalls e p) (htid : tid < t)
    (hleads : (p.threads tid).pc.leads) : Leading t e p tid := by
  rcases h.phase with hg | ⟨leader, hl⟩
  · exact absurd hleads (hg.free tid htid)
  · by_cases hne : tid = leader
    · subst hne; exact hl
    · obtain ⟨-, b, hb⟩ := hl.others tid htid hne
      rw [hb] at hleads
      exact hleads.elim

/-- A step of a thread that did not wait or lead, and does not after it. -/
theorem gathering_put (h : Gathering t e p) {th : Thread} (hold : ¬ (p.threads tid).waits e)
    (hnew : ¬ th.waits e) (hleads : ¬ th.pc.leads) : Gathering t e (p.put tid th) := by
  have hwaiting : (p.put tid th).waiting t e = p.waiting t e := by
    refine waiting_congr fun i _ => ?_
    by_cases hi : i = tid
    · subst hi; simp [hold, hnew]
    · rw [p.put_of_ne th hi]
  refine ⟨h.leaders, fun i hi => ?_, by rw [hwaiting]; exact h.count, by rw [hwaiting]; exact h.lt⟩
  by_cases hne : i = tid
  · subst hne; rwa [p.put_self]
  · rw [p.put_of_ne th hne]; exact h.free i hi

/-- A step of the leader that leaves it the leader. -/
theorem leading_put (hl : Leading t e p tid) {q : Process} {th : Thread}
    (hthreads : q.threads = p.threads) (hleaders : q.leaders = p.leaders) (hleads : th.pc.leads)
    (hcount : q.count = th.pc.leaderCount t) : Leading t e (q.put tid th) tid where
  leaders := by rw [Process.put_leaders, hleaders]; exact hl.leaders
  lt := hl.lt
  leads := by rwa [Process.put_self]
  others i hi hne := by rw [Process.put_of_ne _ _ hne, hthreads]; exact hl.others i hi hne
  count := by rwa [Process.put_self]

/-- The last thread to decrement `count` becomes the leader. -/
theorem leading_last (hg : Gathering t e p) (htid : tid < t) {b : Bool}
    (hpc : p.threads tid = ⟨e, .arrive b⟩) (hone : p.count = 1) :
    Leading t e ({ p with count := p.count - 1, leaders := (tid, e + 1) :: p.leaders }.put tid
      ⟨e, .loop b 0⟩) tid := by
  have hnot : ¬ (p.threads tid).waits e := by simp [hpc, Thread.waits]
  have hcard : (p.waiting t e).card + 1 = t := by
    have hcount := hg.count
    omega
  refine ⟨⟨p.leaders, rfl, hg.leaders⟩, htid, by simp [Pc.leads], fun i hi hne => ?_, ?_⟩
  · rw [Process.put_of_ne _ _ hne]
    exact others_wait htid hnot hcard hi hne
  · simp [hone, Pc.leaderCount]

/-- Everybody else that decrements `count` waits. -/
theorem gathering_wait (hg : Gathering t e p) (htid : tid < t) {b : Bool}
    (hpc : p.threads tid = ⟨e, .arrive b⟩) (hne : p.count ≠ 1) :
    Gathering t e ({ p with count := p.count - 1 }.put tid ⟨e, .spin b⟩) := by
  have hcount := hg.count
  have hlt := hg.lt
  have hnot : tid ∉ p.waiting t e := fun hmem => by
    simpa [hpc, Thread.waits] using (mem_waiting.mp hmem).2
  have hwaiting : ({ p with count := p.count - 1 }.put tid ⟨e, .spin b⟩ : Process).waiting t e =
      insert tid (p.waiting t e) :=
    waiting_insert htid (by simp [Thread.waits]) fun i hi => Process.put_of_ne _ _ hi
  have hcard := Finset.card_insert_of_notMem hnot
  refine ⟨hg.leaders, fun i hi => ?_, ?_, ?_⟩
  · by_cases hi' : i = tid
    · subst hi'; simp [Pc.leads]
    · rw [Process.put_of_ne _ _ hi']; exact hg.free i hi
  · rw [hwaiting, hcard, Process.put_count]
    simp only
    omega
  · rw [hwaiting, hcard]
    omega

/-- When the leader stores `sense`, the next episode starts and nobody waits in it yet. -/
theorem gathering_flip (hl : Leading t e p tid) {b : Bool} (hpc : p.threads tid = ⟨e, .flip b⟩) :
    Gathering t (e + 1) ({ p with sense := b }.put tid ⟨e + 1, .outside⟩) := by
  have hthreads : ∀ i < t, ¬ (({ p with sense := b }.put tid ⟨e + 1, .outside⟩ : Process).threads i).pc.leads ∧
      ¬ (({ p with sense := b }.put tid ⟨e + 1, .outside⟩ : Process).threads i).waits (e + 1) := by
    intro i hi
    by_cases hne : i = tid
    · subst hne; simp [Pc.leads, Thread.waits]
    · rw [Process.put_of_ne _ _ hne]
      obtain ⟨hcalls, b', hb'⟩ := hl.others i hi hne
      exact ⟨by simp [hb', Pc.leads], fun hwaits => by have hcalls' := hwaits.1; simp only at hcalls'; omega⟩
  have hwaiting : ({ p with sense := b }.put tid ⟨e + 1, .outside⟩ : Process).waiting t (e + 1) = ∅ := by
    ext i
    rw [mem_waiting]
    exact ⟨fun h => absurd h.2 (hthreads i h.1).2, fun h => by simp at h⟩
  obtain ⟨rest, hleaders, hlength⟩ := hl.leaders
  have hcount := hl.count
  rw [hpc] at hcount
  refine ⟨by simp [hleaders, hlength], fun i hi => (hthreads i hi).1, ?_, ?_⟩
  · rw [hwaiting]
    simpa [Pc.leaderCount] using hcount
  · rw [hwaiting, Finset.card_empty]
    exact Nat.zero_lt_of_lt hl.lt

/-- The new value of `sense` releases everybody who waited. -/
theorem ok_flip (h : ProcessInv t numCalls e p) (hl : Leading t e p tid) {b : Bool}
    (hpc : p.threads tid = ⟨e, .flip b⟩) (i : Nat) (hi : i < t) :
    (({ p with sense := b }.put tid ⟨e + 1, .outside⟩ : Process).threads i).Ok numCalls (e + 1) b := by
  by_cases hne : i = tid
  · subst hne; simp [Thread.Ok]
  · rw [Process.put_of_ne _ _ hne]
    obtain ⟨hcalls, b', hb'⟩ := hl.others i hi hne
    have hok := h.ok i hi
    have hok' := h.ok tid hl.lt
    simp only [Thread.Ok, hpc] at hok'
    simp only [Thread.Ok, hb'] at hok ⊢
    refine .inr ⟨by omega, ?_⟩
    rcases hok with ⟨-, hb⟩ | ⟨hlt, -⟩
    · rw [hb, hok'.2]
    · omega

/-! ## Every step keeps the invariant and is a step of `gtmpi1` or none -/

theorem exchange_gathering (h : ProcessInv t numCalls e p) (hg : Gathering t e p) :
    p.exchange = ⟨e, .outside⟩ := by
  have hlength := hg.leaders
  unfold Process.exchange
  split
  · next hnil => rw [hnil] at hlength; simp at hlength; rw [hlength]
  · next tid call rest hcons =>
    have hfree := hg.free tid (h.leadersLt (tid, call) (by simp [hcons]))
    rw [hcons, List.length_cons] at hlength
    unfold Pc.exchange
    split
    · next hpc => exact absurd (by rw [hpc]; trivial) hfree
    · next hpc => exact absurd (by rw [hpc]; trivial) hfree
    · rw [hlength]

theorem exchange_leading {leader : Nat} (hl : Leading t e p leader) :
    p.exchange = (p.threads leader).pc.exchange e := by
  obtain ⟨rest, hleaders, hlength⟩ := hl.leaders
  simp [Process.exchange, hleaders, hlength]

theorem leadersCalls_cons {L : List (Nat × Nat)} (h : L.map Prod.snd = (List.range' 1 L.length).reverse)
    (tid : Nat) : ((tid, L.length + 1) :: L).map Prod.snd =
      (List.range' 1 ((tid, L.length + 1) :: L).length).reverse := by
  rw [List.length_cons, List.range'_concat, List.reverse_append, List.map_cons, h]
  simp [Nat.add_comm]

/-- Every step of a thread keeps the invariant of its process, where the store of `sense` starts
the next episode, and `gtmpi1` sees it as a step of its own or does not see it. -/
theorem processInv_move (h : ProcessInv t numCalls e p) (htid : tid < t)
    (hmove : ThreadMove n t numCalls rank tid p net p' net') :
    (∃ e', ProcessInv t numCalls e' p' ∧
      (e' = e ∧ p'.sense = p.sense ∨ e' = e + 1 ∧ p'.sense = !p.sense)) ∧
    (net' = net ∧ p'.exchange = p.exchange ∨
      Gtmpi1.ProcMove n numCalls rank net p.exchange p'.exchange net') := by
  have hok := h.ok tid htid
  cases hmove with
  | @enter calls hpc hlt =>
    rw [hpc] at hok
    obtain rfl : calls = e := hok
    have hg := gathering_of_thread h htid (by simp [hpc, Thread.waits]) (by simp [hpc, Pc.leads])
    have hg' : Gathering t calls (p.put tid ⟨calls, .arrive (!p.sense)⟩) :=
      gathering_put hg (by simp [hpc, Thread.waits]) (by simp [Thread.waits]) (by simp [Pc.leads])
    have h' : ProcessInv t numCalls calls (p.put tid ⟨calls, .arrive (!p.sense)⟩) :=
      ⟨ok_put h rfl rfl ⟨rfl, hlt, rfl⟩, .inl hg', h.leadersLt, h.leadersCalls⟩
    exact ⟨⟨_, h', .inl ⟨rfl, rfl⟩⟩, .inl ⟨rfl, by rw [exchange_gathering h hg, exchange_gathering h' hg']⟩⟩
  | @last calls b hpc hone =>
    rw [hpc] at hok
    obtain ⟨rfl, hlt, hb⟩ := hok
    have hg := gathering_of_thread h htid (by simp [hpc, Thread.waits]) (by simp [hpc, Pc.leads])
    have hl' := leading_last hg htid hpc hone
    refine ⟨⟨_, ⟨ok_put h rfl rfl ⟨rfl, hb⟩, .inr ⟨tid, hl'⟩, ?_, ?_⟩, .inl ⟨rfl, rfl⟩⟩, .inr ?_⟩
    · intro x hx
      rcases List.mem_cons.mp hx with rfl | hx
      · exact htid
      · exact h.leadersLt x hx
    · have hcalls := leadersCalls_cons h.leadersCalls tid
      rwa [hg.leaders] at hcalls
    · rw [exchange_gathering h hg, exchange_leading hl', Process.put_self]
      exact .enter hlt
  | @wait calls b hpc hne =>
    rw [hpc] at hok
    obtain ⟨rfl, hlt, hb⟩ := hok
    have hg := gathering_of_thread h htid (by simp [hpc, Thread.waits]) (by simp [hpc, Pc.leads])
    have hg' := gathering_wait hg htid hpc hne
    have h' : ProcessInv t numCalls calls ({ p with count := p.count - 1 }.put tid ⟨calls, .spin b⟩) :=
      ⟨ok_put h rfl rfl (Or.inl ⟨rfl, hb⟩), .inl hg', h.leadersLt, h.leadersCalls⟩
    exact ⟨⟨_, h', .inl ⟨rfl, rfl⟩⟩, .inl ⟨rfl, by rw [exchange_gathering h hg, exchange_gathering h' hg']⟩⟩
  | @send calls round b hpc hround =>
    have hl := leading_of_thread h htid (by simp [hpc, Pc.leads])
    rw [hpc] at hok
    obtain ⟨rfl, hb⟩ := hok
    have hl' : Leading t calls (p.put tid ⟨calls, .recv b round⟩) tid :=
      leading_put hl rfl rfl trivial (by simpa [hpc, Pc.leaderCount] using hl.count)
    refine ⟨⟨_, ⟨ok_put h rfl rfl ⟨rfl, hb⟩, .inr ⟨tid, hl'⟩, h.leadersLt, h.leadersCalls⟩,
      .inl ⟨rfl, rfl⟩⟩, .inr ?_⟩
    rw [exchange_leading hl, exchange_leading hl', Process.put_self, hpc]
    exact .send hround
  | @reset calls round b hpc hround =>
    have hl := leading_of_thread h htid (by simp [hpc, Pc.leads])
    rw [hpc] at hok
    obtain ⟨rfl, hb⟩ := hok
    have hl' : Leading t calls ({ p with count := t }.put tid ⟨calls, .flip b⟩) tid :=
      leading_put hl rfl rfl trivial rfl
    refine ⟨⟨_, ⟨ok_put h rfl rfl ⟨rfl, hb⟩, .inr ⟨tid, hl'⟩, h.leadersLt, h.leadersCalls⟩,
      .inl ⟨rfl, rfl⟩⟩, .inr ?_⟩
    rw [exchange_leading hl, exchange_leading hl', Process.put_self, hpc]
    exact .leave hround
  | @recv calls round b m net' hpc hrecv =>
    have hl := leading_of_thread h htid (by simp [hpc, Pc.leads])
    rw [hpc] at hok
    obtain ⟨rfl, hb⟩ := hok
    have hl' : Leading t calls (p.put tid ⟨calls, .loop b (round + 1)⟩) tid :=
      leading_put hl rfl rfl trivial (by simpa [hpc, Pc.leaderCount] using hl.count)
    refine ⟨⟨_, ⟨ok_put h rfl rfl ⟨rfl, hb⟩, .inr ⟨tid, hl'⟩, h.leadersLt, h.leadersCalls⟩,
      .inl ⟨rfl, rfl⟩⟩, .inr ?_⟩
    rw [exchange_leading hl, exchange_leading hl', Process.put_self, hpc]
    exact .recv hrecv
  | @flip calls b hpc =>
    have hl := leading_of_thread h htid (by simp [hpc, Pc.leads])
    rw [hpc] at hok
    obtain ⟨rfl, hb⟩ := hok
    have hg' := gathering_flip hl hpc
    have h' : ProcessInv t numCalls (calls + 1) ({ p with sense := b }.put tid ⟨calls + 1, .outside⟩) :=
      ⟨ok_flip h hl hpc, .inl hg', h.leadersLt, h.leadersCalls⟩
    refine ⟨⟨_, h', .inr ⟨rfl, hb⟩⟩, .inl ⟨rfl, ?_⟩⟩
    rw [exchange_gathering h' hg', exchange_leading hl, hpc]
    rfl
  | @exit calls hpc =>
    rw [hpc] at hok
    have hcalls : calls + 1 = e := by
      rcases hok with ⟨-, hb⟩ | ⟨hcalls, -⟩
      · simp at hb
      · exact hcalls
    subst hcalls
    have hg := gathering_of_thread h htid (by simp [hpc, Thread.waits]) (by simp [hpc, Pc.leads])
    have hg' : Gathering t (calls + 1) (p.put tid ⟨calls + 1, .outside⟩) :=
      gathering_put hg (by simp [hpc, Thread.waits]) (by simp [Thread.waits]) (by simp [Pc.leads])
    have h' : ProcessInv t numCalls (calls + 1) (p.put tid ⟨calls + 1, .outside⟩) :=
      ⟨ok_put h rfl rfl (Eq.refl (calls + 1)), .inl hg', h.leadersLt, h.leadersCalls⟩
    exact ⟨⟨_, h', .inl ⟨rfl, rfl⟩⟩, .inl ⟨rfl, by rw [exchange_gathering h hg, exchange_gathering h' hg']⟩⟩

end AdvancedOS.Combined
