import Mathlib.Algebra.GroupWithZero.Nat
import AdvancedOS.Lib.Lists
import AdvancedOS.Lib.Potential
import AdvancedOS.Memory.Coordinator

/-!
# Ballooning settles

A run of passes over guests whose used memory stays the same and that follow every request exactly,
while the free memory of the host is arbitrary. All sizes are whole MB.

A guest is of interest to a pass only while its unused memory is below 100 or above 300 MB, and a request
moves it towards the range between by 100 MB and not past it. So `Guest.distance`, the number of requests
that a guest is away from that range, pays for the requests, and a guest never comes from one side to the
other (`ballooning_settles`).
-/

namespace AdvancedOS.Memory

open Potential

/-- A guest: the memory that it uses, its balloon and its maximum memory, in MB. -/
structure Guest where
  used : Nat
  balloon : Nat
  maxMem : Nat
  deriving DecidableEq, Repr

/-- The sizes are in order, and they are `unsigned long` numbers of KB. -/
structure Guest.Ok (g : Guest) : Prop where
  used_le : g.used ≤ g.balloon
  balloon_le : g.balloon ≤ g.maxMem
  maxMem_lt : g.maxMem * 1024 < 2 ^ 64

def Guest.unused (g : Guest) : Nat := g.balloon - g.used

/-- What the hypervisor says of a guest. -/
def Guest.domain (g : Guest) : Domain where
  stats := some [⟨.actualBalloon, UInt64.ofNat (g.balloon * 1024)⟩,
    ⟨.unused, UInt64.ofNat (g.unused * 1024)⟩, ⟨.available, UInt64.ofNat (g.balloon * 1024)⟩]
  maxMemory := UInt64.ofNat (g.maxMem * 1024)

/-- A request takes effect exactly. -/
def Guest.setMemory (g : Guest) (target : LL) : Guest := { g with balloon := target.toNat / 1024 }

/-- The requests of a pass; a pass that leaves the program makes none. -/
def pass (freeMemory : LL) (gs : List Guest) : List Request :=
  (memoryScheduler freeMemory (gs.map Guest.domain)).getD []

def setAll (rs : List Request) (gs : List Guest) : List Guest :=
  rs.foldl (fun gs r => gs.modify r.vm (·.setMemory r.target)) gs

/-- The guests before pass `t`. -/
def run (freeMemory : Nat → LL) (gs : List Guest) : Nat → List Guest
  | 0 => gs
  | t + 1 => setAll (pass (freeMemory t) (run freeMemory gs t)) (run freeMemory gs t)

/-- How many requests a guest is away from the range between 100 and 300 MB. -/
def Guest.distance (g : Guest) : Nat := if g.unused < 100 then 1 else (g.unused - 201) / 100

variable {g : Guest}

/-! ## One guest -/

/-- The statistics of a guest as the coordinator keeps them. -/
def Guest.vm (g : Guest) : Vm where
  mems := ⟨UInt64.ofNat g.unused, UInt64.ofNat g.balloon, UInt64.ofNat g.balloon⟩
  maxMemory := UInt64.ofNat (g.maxMem * 1024)

theorem div_ofNat {x : Nat} (h : x * 1024 < 2 ^ 64) : UInt64.ofNat (x * 1024) / 1024 = UInt64.ofNat x := by
  rw [← UInt64.toNat_inj, UInt64.toNat_div, UInt64.toNat_ofNat', UInt64.toNat_ofNat', Nat.mod_eq_of_lt h,
    Nat.mod_eq_of_lt (by omega)]
  exact Nat.mul_div_cancel x (by decide)

/-- What is no more than the maximum memory is a number of KB that fits. -/
theorem Guest.Ok.lt (h : g.Ok) {x : Nat} (hx : x ≤ g.maxMem) : x * 1024 < 2 ^ 64 :=
  Nat.lt_of_le_of_lt (Nat.mul_le_mul_right 1024 hx) h.maxMem_lt

theorem Guest.Ok.unused_le (h : g.Ok) : g.unused ≤ g.maxMem :=
  Nat.le_trans (Nat.sub_le _ _) h.balloon_le

theorem Guest.Ok.vm (h : g.Ok) : g.domain.vm = some g.vm := by
  simp only [Domain.vm, Guest.domain, getMemStats, Guest.vm, List.foldl_cons, List.foldl_nil,
    Option.map_some, div_ofNat (h.lt h.balloon_le), div_ofNat (h.lt h.unused_le)]

theorem toNat_ofNat_of_mul_lt {x : Nat} (h : x * 1024 < 2 ^ 64) : (UInt64.ofNat x).toNat = x := by
  rw [UInt64.toNat_ofNat']
  exact Nat.mod_eq_of_lt (Nat.lt_of_le_of_lt (Nat.le_mul_of_pos_right x (by decide)) h)

theorem Guest.Ok.toNat_unused (h : g.Ok) : g.vm.mems.unused.toNat = g.unused :=
  toNat_ofNat_of_mul_lt (h.lt h.unused_le)

theorem Guest.Ok.toNat_balloon (h : g.Ok) : g.vm.mems.balloon.toNat = g.balloon :=
  toNat_ofNat_of_mul_lt (h.lt h.balloon_le)

theorem Guest.Ok.toNat_maxMemory (h : g.Ok) : g.vm.maxMemory.toNat / 1024 = g.maxMem := by
  show (UInt64.ofNat (g.maxMem * 1024)).toNat / 1024 = g.maxMem
  rw [UInt64.toNat_ofNat', Nat.mod_eq_of_lt h.maxMem_lt, Nat.mul_div_cancel _ (by decide)]

theorem Guest.Ok.balloon_lt (h : g.Ok) : g.vm.mems.balloon.toNat < 2 ^ 54 := by
  have hlt := h.lt h.balloon_le
  rw [h.toNat_balloon]
  omega

/-- A guest is deflated above 300 MB. -/
theorem Guest.Ok.of_extra (h : g.Ok) (hs : g.vm.status = .extra) : 300 < g.unused := by
  have hextra := Vm.status_eq_extra.mp hs
  rwa [Vm.Extra, h.toNat_unused] at hextra

/-- A guest is inflated below 100 MB, and only up to its maximum memory. -/
theorem Guest.Ok.of_lacks (h : g.Ok) (hs : g.vm.status = .lacks) :
    g.unused < 100 ∧ g.balloon + 100 ≤ g.maxMem := by
  have hballoon := h.balloon_lt
  have hneedy := (Vm.status_eq_lacks (by omega)).mp hs
  rwa [Vm.Needy, h.toNat_unused, h.toNat_balloon, h.toNat_maxMemory] at hneedy

/-- The target of a request to deflate a guest. -/
theorem Guest.Ok.deflate_target (h : g.Ok) (hhigh : 300 < g.unused) (i : Nat) :
    (g.vm.deflate i).target.toNat = (g.balloon - 100) * 1024 := by
  have hle : 100 ≤ g.balloon := by
    unfold Guest.unused at hhigh
    omega
  rw [Vm.deflate_target (by rwa [h.toNat_balloon]) h.balloon_lt, h.toNat_balloon]

/-- The target of a request to inflate a guest. -/
theorem Guest.Ok.inflate_target (h : g.Ok) (hmax : g.balloon + 100 ≤ g.maxMem) (i : Nat) :
    (g.vm.inflate i).target.toNat = (g.balloon + 100) * 1024 := by
  rw [Vm.inflate_target (by rwa [h.toNat_balloon, h.toNat_maxMemory]), h.toNat_balloon]

/-- What a pass does to a guest: it keeps what it uses and its maximum memory, and it does not pass
over the range between 100 and 300 MB. -/
structure Moved (g g' : Guest) : Prop where
  ok : g'.Ok
  low : 100 ≤ g.unused → 100 ≤ g'.unused
  high : g.unused ≤ 300 → g'.unused ≤ 300

theorem Guest.Ok.moved_self (h : g.Ok) : Moved g g := ⟨h, id, id⟩

theorem Guest.Ok.moved_deflate (h : g.Ok) (hs : g.vm.status = .extra) (i : Nat) :
    Moved g (g.setMemory (g.vm.deflate i).target) ∧
    (g.setMemory (g.vm.deflate i).target).distance + 1 = g.distance := by
  have hhigh := h.of_extra hs
  have hset : g.setMemory (g.vm.deflate i).target = { g with balloon := g.balloon - 100 } := by
    rw [Guest.setMemory, h.deflate_target hhigh, Nat.mul_div_cancel _ (by decide)]
  have hused := h.used_le
  have hballoon := h.balloon_le
  rw [hset]
  unfold Guest.unused at hhigh
  refine ⟨⟨⟨?_, ?_, h.maxMem_lt⟩, fun _ => ?_, fun hle => ?_⟩, ?_⟩
  · simp only
    omega
  · simp only
    omega
  · simp only [Guest.unused]
    omega
  · simp only [Guest.unused] at hle
    omega
  · unfold Guest.distance Guest.unused
    simp only
    rw [if_neg (by omega), if_neg (by omega)]
    omega

theorem Guest.Ok.moved_inflate (h : g.Ok) (hs : g.vm.status = .lacks) (i : Nat) :
    Moved g (g.setMemory (g.vm.inflate i).target) ∧
    (g.setMemory (g.vm.inflate i).target).distance + 1 = g.distance := by
  obtain ⟨hlow, hmax⟩ := h.of_lacks hs
  have hset : g.setMemory (g.vm.inflate i).target = { g with balloon := g.balloon + 100 } := by
    rw [Guest.setMemory, h.inflate_target hmax, Nat.mul_div_cancel _ (by decide)]
  have hused := h.used_le
  rw [hset]
  unfold Guest.unused at hlow
  refine ⟨⟨⟨?_, hmax, h.maxMem_lt⟩, fun hge => ?_, fun _ => ?_⟩, ?_⟩
  · simp only
    omega
  · simp only [Guest.unused] at hge
    omega
  · simp only [Guest.unused]
    omega
  · unfold Guest.distance Guest.unused
    simp only
    rw [if_neg (by omega), if_pos hlow]
    omega

/-! ## One pass -/

variable {gs : List Guest}

/-- How many requests the guests are away from settling. -/
def distance (gs : List Guest) : Nat := (gs.map Guest.distance).sum

theorem modify_append (pre : List Guest) (f : Guest → Guest) :
    (pre ++ g :: gs).modify pre.length f = pre ++ f g :: gs := by
  induction pre with
  | nil => rfl
  | cons p pre ih => exact congrArg (p :: ·) ih

theorem setAll_decided {i : Nat} {vms : List Vm} {rs : List Request} (hd : Decided i vms rs)
    (pre : List Guest) (hpre : pre.length = i) (hvms : gs.map Guest.vm = vms) (hgs : ∀ g ∈ gs, g.Ok) :
    ∃ gs', setAll rs (pre ++ gs) = pre ++ gs' ∧ List.Forall₂ Moved gs gs' ∧
      distance gs' + rs.length = distance gs := by
  induction hd generalizing pre gs with
  | nil =>
    obtain rfl := List.map_eq_nil_iff.mp hvms
    exact ⟨[], rfl, .nil, rfl⟩
  | @skip i vm vms rs _ ih =>
    obtain ⟨g, gs, rfl, rfl, rfl⟩ := List.map_eq_cons_iff.mp hvms
    obtain ⟨gs', hset, hmoved, hdist⟩ := ih (pre ++ [g]) (by simp [hpre]) rfl
      fun g hg => hgs g (List.mem_cons_of_mem _ hg)
    refine ⟨g :: gs', by simpa using hset, .cons (hgs g List.mem_cons_self).moved_self hmoved, ?_⟩
    simp only [distance, List.map_cons, List.sum_cons] at hdist ⊢
    omega
  | @deflate i vm vms rs hs _ ih =>
    obtain ⟨g, gs, rfl, rfl, rfl⟩ := List.map_eq_cons_iff.mp hvms
    obtain ⟨hg, hpaid⟩ := (hgs g List.mem_cons_self).moved_deflate hs i
    obtain ⟨gs', hset, hmoved, hdist⟩ := ih (pre ++ [g.setMemory (g.vm.deflate i).target])
      (by simp [hpre]) rfl fun g hg => hgs g (List.mem_cons_of_mem _ hg)
    refine ⟨g.setMemory (g.vm.deflate i).target :: gs', ?_, .cons hg hmoved, ?_⟩
    · rw [setAll, List.foldl_cons, ← hpre, show (g.vm.deflate pre.length).vm = pre.length from rfl,
        modify_append, hpre]
      simpa [setAll] using hset
    · simp only [distance, List.map_cons, List.sum_cons, List.length_cons] at hdist ⊢
      omega
  | @inflate i vm vms rs hs _ ih =>
    obtain ⟨g, gs, rfl, rfl, rfl⟩ := List.map_eq_cons_iff.mp hvms
    obtain ⟨hg, hpaid⟩ := (hgs g List.mem_cons_self).moved_inflate hs i
    obtain ⟨gs', hset, hmoved, hdist⟩ := ih (pre ++ [g.setMemory (g.vm.inflate i).target])
      (by simp [hpre]) rfl fun g hg => hgs g (List.mem_cons_of_mem _ hg)
    refine ⟨g.setMemory (g.vm.inflate i).target :: gs', ?_, .cons hg hmoved, ?_⟩
    · rw [setAll, List.foldl_cons, ← hpre, show (g.vm.inflate pre.length).vm = pre.length from rfl,
        modify_append, hpre]
      simpa [setAll] using hset
    · simp only [distance, List.map_cons, List.sum_cons, List.length_cons] at hdist ⊢
      omega

theorem decided_pass (freeMemory : LL) (hgs : ∀ g ∈ gs, g.Ok) :
    Decided 0 (gs.map Guest.vm) (pass freeMemory gs) := by
  have hvms : (gs.map Guest.domain).mapM Domain.vm = some (gs.map Guest.vm) := by
    rw [Lists.mapM_eq_some_iff, List.forall₂_map_left_iff, List.forall₂_map_right_iff]
    exact List.forall₂_same.mpr fun g hg => (hgs g hg).vm
  unfold pass memoryScheduler
  rw [hvms]
  cases getHostMem freeMemory with
  | none => exact .none
  | some host => exact decided_requests host _

/-! ## A run -/

variable {freeMemory : Nat → LL}

theorem run_succ (freeMemory : Nat → LL) (hgs : ∀ g ∈ gs, g.Ok) (t : Nat) :
    (∀ g ∈ run freeMemory gs t, g.Ok) ∧
    List.Forall₂ Moved (run freeMemory gs t) (run freeMemory gs (t + 1)) ∧
    distance (run freeMemory gs (t + 1)) + (pass (freeMemory t) (run freeMemory gs t)).length =
      distance (run freeMemory gs t) := by
  have hok : ∀ g ∈ run freeMemory gs t, g.Ok := by
    induction t with
    | zero => exact hgs
    | succ t ih =>
      obtain ⟨gs', hset, hmoved, -⟩ := setAll_decided (decided_pass (freeMemory t) ih) [] rfl rfl ih
      have hrun : run freeMemory gs (t + 1) = gs' := hset
      rw [hrun]
      intro g hg
      obtain ⟨i, hi, rfl⟩ := List.mem_iff_getElem.mp hg
      exact (hmoved.get (by rw [hmoved.length_eq]; exact hi) hi).ok
  obtain ⟨gs', hset, hmoved, hdist⟩ := setAll_decided (decided_pass (freeMemory t) hok) [] rfl rfl hok
  have hrun : run freeMemory gs (t + 1) = gs' := hset
  rw [hrun]
  exact ⟨hok, hmoved, hdist⟩

/-- A guest that is not below 100 MB stays so, and one that is not above 300 MB. -/
theorem run_later (hgs : ∀ g ∈ gs, g.Ok) {i t t' : Nat} (ht : t ≤ t')
    (hg : (run freeMemory gs t)[i]? = some g) :
    ∃ g', (run freeMemory gs t')[i]? = some g' ∧ (100 ≤ g.unused → 100 ≤ g'.unused) ∧
      (g.unused ≤ 300 → g'.unused ≤ 300) := by
  induction t', ht using Nat.le_induction with
  | base => exact ⟨g, hg, id, id⟩
  | succ t' _ ih =>
    obtain ⟨g', hg', hlow, hhigh⟩ := ih
    obtain ⟨-, hmoved, -⟩ := run_succ freeMemory hgs t'
    obtain ⟨hlt, rfl⟩ := List.getElem?_eq_some_iff.mp hg'
    have hlt' : i < (run freeMemory gs (t' + 1)).length := by rwa [← hmoved.length_eq]
    have hstep := hmoved.get hlt hlt'
    exact ⟨_, List.getElem?_eq_getElem hlt', fun h => hstep.low (hlow h), fun h => hstep.high (hhigh h)⟩

/-- A request of a pass of a run, and the guest it is made for. -/
theorem mem_pass (hgs : ∀ g ∈ gs, g.Ok) {t : Nat} {r : Request}
    (hr : r ∈ pass (freeMemory t) (run freeMemory gs t)) :
    ∃ g, (run freeMemory gs t)[r.vm]? = some g ∧ g.Ok ∧
      (r.kind = .deflate ∧ 300 < g.unused ∧ r.target.toNat = (g.balloon - 100) * 1024 ∨
        r.kind = .inflate ∧ g.unused < 100 ∧ g.balloon + 100 ≤ g.maxMem ∧
          r.target.toNat = (g.balloon + 100) * 1024) := by
  have hok := (run_succ freeMemory hgs t).1
  obtain ⟨vm, hvm, -, hstatus⟩ := (decided_pass (freeMemory t) hok).mem hr
  rw [Nat.sub_zero, List.getElem?_map] at hvm
  obtain ⟨g, hg, rfl⟩ := Option.map_eq_some_iff.mp hvm
  have hgok := hok g (List.mem_of_getElem? hg)
  refine ⟨g, hg, hgok, ?_⟩
  rcases hstatus with ⟨hs, hreq⟩ | ⟨hs, hreq⟩
  · have hhigh := hgok.of_extra hs
    exact .inl ⟨by rw [hreq]; rfl, hhigh, by rw [hreq]; exact hgok.deflate_target hhigh _⟩
  · obtain ⟨hlow, hmax⟩ := hgok.of_lacks hs
    exact .inr ⟨by rw [hreq]; rfl, hlow, hmax, by rw [hreq]; exact hgok.inflate_target hmax _⟩

/-- Ballooning settles: every target is at most the maximum memory of its guest and 100 MB from its
balloon, and leaves a guest that is deflated more than 200 MB; no guest is inflated in one pass and
deflated in another; all requests together are at most as many as the guests are away from settling
at the start; and from some pass on there are none. -/
theorem ballooning_settles (hgs : ∀ g ∈ gs, g.Ok) (freeMemory : Nat → LL) :
    (∀ t, ∀ r ∈ pass (freeMemory t) (run freeMemory gs t), ∃ g,
      (run freeMemory gs t)[r.vm]? = some g ∧ r.target.toNat ≤ g.maxMem * 1024 ∧
      (r.kind = .deflate ∧ r.target.toNat + 100 * 1024 = g.balloon * 1024 ∧
          (g.used + 200) * 1024 < r.target.toNat ∨
        r.kind = .inflate ∧ r.target.toNat = g.balloon * 1024 + 100 * 1024)) ∧
    (∀ t t', ∀ r ∈ pass (freeMemory t) (run freeMemory gs t),
      ∀ r' ∈ pass (freeMemory t') (run freeMemory gs t'), r.vm = r'.vm → r.kind = r'.kind) ∧
    (∀ T, ∑ t ∈ Finset.range T, (pass (freeMemory t) (run freeMemory gs t)).length ≤ distance gs) ∧
    ∃ T, ∀ t, T ≤ t → pass (freeMemory t) (run freeMemory gs t) = [] := by
  have hpays : Pays (fun t => distance (run freeMemory gs t))
      fun t => (pass (freeMemory t) (run freeMemory gs t)).length := fun t =>
    Nat.le_of_eq (run_succ freeMemory hgs t).2.2
  -- a guest that is inflated in pass `t` is not deflated in pass `t'`
  have hsides : ∀ t t', ∀ r ∈ pass (freeMemory t) (run freeMemory gs t),
      ∀ r' ∈ pass (freeMemory t') (run freeMemory gs t'), r.vm = r'.vm →
      r.kind = .inflate → r'.kind = .deflate → False := by
    intro t t' r hr r' hr' hvm hkind hkind'
    obtain ⟨g, hg, -, hcase⟩ := mem_pass hgs hr
    obtain ⟨g', hg', -, hcase'⟩ := mem_pass hgs hr'
    rw [hkind] at hcase
    rw [hkind'] at hcase'
    obtain ⟨hno, -⟩ | ⟨-, hlow, -⟩ := hcase
    · cases hno
    obtain ⟨-, hhigh, -⟩ | ⟨hno, -⟩ := hcase'
    swap
    · cases hno
    rcases Nat.le_total t t' with ht | ht
    · obtain ⟨g'', hg'', -, hstays⟩ := run_later hgs ht hg
      rw [hvm, hg'] at hg''
      obtain rfl := Option.some.inj hg''
      have hle := hstays (by omega)
      omega
    · obtain ⟨g'', hg'', hstays, -⟩ := run_later hgs ht hg'
      rw [← hvm, hg] at hg''
      obtain rfl := Option.some.inj hg''
      have hle := hstays (by omega)
      omega
  refine ⟨fun t r hr => ?_, fun t t' r hr r' hr' hvm => ?_, hpays.sum_cost_le, ?_⟩
  · obtain ⟨g, hg, hok, hcase⟩ := mem_pass hgs hr
    have hused := hok.used_le
    have hballoon := hok.balloon_le
    refine ⟨g, hg, ?_, ?_⟩
    · rcases hcase with ⟨-, -, htarget⟩ | ⟨-, -, hmax, htarget⟩ <;> omega
    · refine hcase.imp (fun ⟨hkind, hhigh, htarget⟩ => ⟨hkind, ?_⟩) fun ⟨hkind, _, _, htarget⟩ => ⟨hkind, ?_⟩
      · unfold Guest.unused at hhigh
        omega
      · omega
  · cases hkind : r.kind with
    | inflate =>
      cases hkind' : r'.kind with
      | inflate => rfl
      | deflate => exact (hsides t t' r hr r' hr' hvm hkind hkind').elim
    | deflate =>
      cases hkind' : r'.kind with
      | inflate => exact (hsides t' t r' hr' r hr hvm.symm hkind' hkind).elim
      | deflate => rfl
  · obtain ⟨T, hT⟩ := hpays.eventually_free
    exact ⟨T, fun t ht => List.length_eq_zero_iff.mp (hT t ht)⟩

/-- Two guests, of which the first needs one step up and the second two steps down. -/
theorem ballooning_settles_two_guests :
    let gs : List Guest := [⟨480, 512, 1024⟩, ⟨100, 600, 1024⟩]
    (pass (1024 * 1024 * 1024) gs).length = 2 ∧
    ∀ freeMemory T, ∑ t ∈ Finset.range T, (pass (freeMemory t) (run freeMemory gs t)).length ≤ 3 := by
  have hgs : ∀ g ∈ ([⟨480, 512, 1024⟩, ⟨100, 600, 1024⟩] : List Guest), g.Ok := by
    intro g hg
    simp only [List.mem_cons, List.not_mem_nil, or_false] at hg
    rcases hg with rfl | rfl <;> exact ⟨by decide, by decide, by decide⟩
  exact ⟨by decide, fun freeMemory T => (ballooning_settles hgs freeMemory).2.2.1 T⟩

end AdvancedOS.Memory
