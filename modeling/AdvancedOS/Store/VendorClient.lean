import Mathlib.Algebra.GroupWithZero.Nat
import Mathlib.Data.List.Perm.Subperm
import Mathlib.Data.List.Range
import AdvancedOS.Lib.Lts

/-!
# Collecting the bids of the vendors

`getProductBid` of `vendor_client.cc`. All calls share one `reply`, one `status` and one tag. Of gRPC the
model takes what its documentation says: each started call is completed once, with tag 1; its outcome is
stored into `reply` and `status` at some moment, and from then on `Next` may return its completion. Which
outcome is stored when, and in which order completions are returned, is up to the schedule.

* `bids_faithful`: the list has exactly the entries of the vendors whose calls succeeded, if no outcome is
  stored while the loop has not finished with the one stored before.
* `bid_twice`: two outcomes stored before the first `Next` give the bid of the second vendor twice.
-/

namespace AdvancedOS.Store

open Lts

/-- A `BidReply`. Nothing is computed with its price, a `double`. -/
structure BidReply (π : Type) where
  price : π
  vendorId : String
  deriving DecidableEq, Repr

/-- How the call to a vendor ends. A call that fails may bring a reply along. -/
inductive Outcome (π : Type)
  | succeeded (reply : BidReply π)
  | failed (reply : Option (BidReply π))

variable {π : Type}

/-- The entry that a vendor should have in the list. -/
def Outcome.bid : Outcome π → Option (π × String)
  | .succeeded reply => some (reply.price, reply.vendorId)
  | .failed _ => none

/-- Where `getProductBid` is: in the loop that starts the calls; before `Next` or at the end; or behind a
`Next`, at `status.ok()`, `reply.price()` or `reply.vendor_id()`. -/
inductive ClientPc (π : Type)
  | start
  | next
  | status
  | price
  | vendorId (price : π)
  deriving DecidableEq, Repr

/-- The variables of `getProductBid`, the calls whose outcome has been stored, and the calls whose completion
`Next` has returned. -/
structure Collection (π : Type) where
  pc : ClientPc π
  started : Nat
  turns : Nat
  reply : BidReply π
  statusOk : Bool
  stored : List Nat
  returned : List Nat
  productBids : List (π × String)

namespace Collection

/-- What gRPC writes when a call ends. -/
def store (s : Collection π) : Outcome π → Collection π
  | .succeeded reply => { s with reply, statusOk := true }
  | .failed reply => { s with reply := reply.getD s.reply, statusOk := false }

/-- The shared objects hold the outcome. -/
def Holds (s : Collection π) : Outcome π → Prop
  | .succeeded reply => s.reply = reply ∧ s.statusOk = true
  | .failed _ => s.statusOk = false

def endTurn (s : Collection π) (productBids : List (π × String)) : Collection π :=
  { s with pc := .next, turns := s.turns + 1, productBids }

/-- `Next` has been called once for each of `n` vendors. -/
def Done (s : Collection π) (n : Nat) : Prop := s.pc = .next ∧ s.turns = n

theorem holds_store (s : Collection π) (o : Outcome π) : (s.store o).Holds o := by
  cases o with
  | succeeded reply => exact ⟨rfl, rfl⟩
  | failed reply => rfl

@[simp] theorem store_pc (s : Collection π) (o : Outcome π) : (s.store o).pc = s.pc := by cases o <;> rfl
@[simp] theorem store_started (s : Collection π) (o : Outcome π) : (s.store o).started = s.started := by
  cases o <;> rfl
@[simp] theorem store_turns (s : Collection π) (o : Outcome π) : (s.store o).turns = s.turns := by
  cases o <;> rfl
@[simp] theorem store_returned (s : Collection π) (o : Outcome π) : (s.store o).returned = s.returned := by
  cases o <;> rfl
@[simp] theorem store_productBids (s : Collection π) (o : Outcome π) :
    (s.store o).productBids = s.productBids := by cases o <;> rfl

end Collection

/-- `client` is a step of `getProductBid` itself, `store v` the moment in which the outcome of the call to
vendor `v` is stored, and `next v` a `Next` that returns the completion of that call. -/
inductive ClientAction
  | client
  | store (v : Nat)
  | next (v : Nat)
  deriving DecidableEq, Repr

/-- A step of `getProductBid` that does not wait. -/
def clientStep (numVendors : Nat) (s : Collection π) : Option (Collection π) :=
  match s.pc with
  | .start =>
    if s.started < numVendors then some { s with started := s.started + 1 } else some { s with pc := .next }
  | .next => none
  | .status => if s.statusOk then some { s with pc := .price } else some (s.endTurn s.productBids)
  | .price => some { s with pc := .vendorId s.reply.price }
  | .vendorId price => some (s.endTurn (s.productBids ++ [(price, s.reply.vendorId)]))

/-- A run of `getProductBid` in which the calls to the vendors end with `outcomes`. -/
def clientSystem [Zero π] (outcomes : List (Outcome π)) : System (Collection π) ClientAction where
  init :=
    { pc := .start, started := 0, turns := 0, reply := ⟨0, ""⟩, statusOk := true, stored := [],
      returned := [], productBids := [] }
  next
    | .client, s => clientStep outcomes.length s
    | .store v, s =>
      match outcomes[v]? with
      | some o => if v < s.started ∧ v ∉ s.stored then some { s.store o with stored := v :: s.stored } else none
      | none => none
    | .next v, s =>
      match s.pc with
      | .next =>
        if s.turns < outcomes.length ∧ v ∈ s.stored ∧ v ∉ s.returned then
          some { s with pc := .status, returned := s.returned ++ [v] }
        else none
      | .start | .status | .price | .vendorId _ => none

/-- No outcome is stored while the loop has not finished with the one stored before: every completion
stored has been returned, and its turn of the loop is over. -/
def Undisturbed : ClientAction → Collection π → Prop
  | .store _, s => (∀ v ∈ s.stored, v ∈ s.returned) ∧ (s.pc = .start ∨ s.pc = .next)
  | .client, _ | .next _, _ => True

/-! ## What the shared objects hold -/

/-- The entry that vendor `v` should have. -/
def ownBid (outcomes : List (Outcome π)) (v : Nat) : Option (π × String) := outcomes[v]?.bind Outcome.bid

variable {outcomes : List (Outcome π)} {s t : Collection π} {v : Nat}

/-- The loop is in the turn of the call returned last. `reply` and `status` hold the outcome of this call,
and no other outcome is waiting. -/
structure InTurn (outcomes : List (Outcome π)) (s : Collection π) (v : Nat) (o : Outcome π) : Prop where
  outcome : outcomes[v]? = some o
  holds : s.Holds o
  returned : ∀ u ∈ s.stored, u ∈ s.returned
  before : ∃ done, s.returned = done ++ [v] ∧ done.length = s.turns ∧
    s.productBids = done.filterMap (ownBid outcomes)

/-- What holds at each place of the loop. -/
def Collection.Place (outcomes : List (Outcome π)) (s : Collection π) : Prop :=
  match s.pc with
  | .start | .next => s.returned.length = s.turns ∧ s.productBids = s.returned.filterMap (ownBid outcomes)
  | .status => ∃ v o, InTurn outcomes s v o
  | .price => ∃ v reply, InTurn outcomes s v (.succeeded reply)
  | .vendorId price => ∃ v reply, InTurn outcomes s v (.succeeded reply) ∧ price = reply.price

structure ClientInv (outcomes : List (Outcome π)) (s : Collection π) : Prop where
  started_le : s.started ≤ outcomes.length
  started_eq : s.pc ≠ .start → s.started = outcomes.length
  stored_lt : ∀ v ∈ s.stored, v < s.started
  stored_nodup : s.stored.Nodup
  returned_stored : ∀ v ∈ s.returned, v ∈ s.stored
  returned_nodup : s.returned.Nodup
  waiting : ∀ v ∈ s.stored, v ∉ s.returned →
    (∀ u ∈ s.stored, u = v ∨ u ∈ s.returned) ∧ ∀ o, outcomes[v]? = some o → s.Holds o
  place : s.Place outcomes

/-- At the end of a turn the list has grown by the entry of the turn's vendor, if there is one. -/
theorem InTurn.place_endTurn {o : Outcome π} (h : InTurn outcomes s v o) {bids : List (π × String)}
    (hbids : bids = s.productBids ++ o.bid.toList) : (s.endTurn bids).Place outcomes := by
  obtain ⟨done, hreturned, hlength, hproduct⟩ := h.before
  have hown : ownBid outcomes v = o.bid := by rw [ownBid, h.outcome]; rfl
  refine ⟨?_, ?_⟩
  · show s.returned.length = s.turns + 1
    rw [hreturned, List.length_append, hlength]
    rfl
  · show bids = s.returned.filterMap (ownBid outcomes)
    rw [hbids, hreturned, List.filterMap_append, hproduct]
    cases hbid : o.bid <;> simp [hown, hbid]

theorem InTurn.setPc {reply : BidReply π} (h : InTurn outcomes s v (.succeeded reply)) (pc : ClientPc π) :
    InTurn outcomes { s with pc } v (.succeeded reply) :=
  ⟨h.outcome, h.holds, h.returned, h.before⟩

/-- A turn begins: no other outcome has been stored since that of the completion returned. -/
theorem ClientInv.inTurn (h : ClientInv outcomes s) (hpc : s.pc = .next) (hstored : v ∈ s.stored)
    (hnew : v ∉ s.returned) :
    ∃ o, InTurn outcomes { s with pc := .status, returned := s.returned ++ [v] } v o := by
  have hlt : v < outcomes.length := Nat.lt_of_lt_of_le (h.stored_lt v hstored) h.started_le
  have hplace := h.place
  rw [Collection.Place, hpc] at hplace
  obtain ⟨hothers, hholds⟩ := h.waiting v hstored hnew
  refine ⟨outcomes[v], List.getElem?_eq_getElem hlt, ?_, fun u hu => ?_, s.returned, rfl, hplace⟩
  · have hown := hholds _ (List.getElem?_eq_getElem hlt)
    cases ho : outcomes[v] <;> rw [ho] at hown <;> exact hown
  · rcases hothers u hu with rfl | hreturned
    · exact List.mem_append_right _ (List.mem_singleton_self _)
    · exact List.mem_append_left _ hreturned

theorem clientInv_next (h : ClientInv outcomes s) (hpc : s.pc = .next) (hstored : v ∈ s.stored)
    (hnew : v ∉ s.returned) :
    ClientInv outcomes { s with pc := .status, returned := s.returned ++ [v] } where
  started_le := h.started_le
  started_eq _ := h.started_eq (by rw [hpc]; nofun)
  stored_lt := h.stored_lt
  stored_nodup := h.stored_nodup
  returned_stored u hu := by
    rcases List.mem_append.mp hu with hu | hu
    · exact h.returned_stored u hu
    · rw [List.mem_singleton.mp hu]
      exact hstored
  returned_nodup := List.nodup_append.mpr ⟨h.returned_nodup, List.nodup_cons.mpr ⟨List.not_mem_nil, List.nodup_nil⟩, fun u hu w hw => by
    rw [List.mem_singleton.mp hw]
    rintro rfl
    exact hnew hu⟩
  waiting u hu hunread := by
    obtain ⟨o, hturn⟩ := h.inTurn hpc hstored hnew
    exact absurd (hturn.returned u hu) hunread
  place := ⟨v, h.inTurn hpc hstored hnew⟩

/-- An outcome is stored while the loop has finished with all those before. -/
theorem clientInv_store (h : ClientInv outcomes s) {o : Outcome π} (ho : outcomes[v]? = some o)
    (hstarted : v < s.started) (hnew : v ∉ s.stored) (hread : ∀ u ∈ s.stored, u ∈ s.returned)
    (hpc : s.pc = .start ∨ s.pc = .next) :
    ClientInv outcomes { s.store o with stored := v :: s.stored } where
  started_le := by simpa using h.started_le
  started_eq := by simpa using h.started_eq
  stored_lt := by simpa [hstarted] using h.stored_lt
  stored_nodup := List.nodup_cons.mpr ⟨hnew, h.stored_nodup⟩
  returned_stored u hu := List.mem_cons_of_mem _ (h.returned_stored u (by simpa using hu))
  returned_nodup := by simpa using h.returned_nodup
  waiting u hu hunread := by
    have hu_eq : u = v := by
      rcases List.mem_cons.mp hu with hu | hu
      · exact hu
      · exact absurd (hread u hu) (by simpa using hunread)
    subst hu_eq
    refine ⟨fun w hw => ?_, fun o' ho' => ?_⟩
    · rcases List.mem_cons.mp hw with hw | hw
      · exact .inl hw
      · exact .inr (by simpa using hread w hw)
    · obtain rfl := Option.some.inj (ho.symm.trans ho')
      have hholds := s.holds_store o
      cases o <;> exact hholds
  place := by
    have hplace := h.place
    rcases hpc with hpc | hpc <;> simpa [Collection.Place, hpc] using hplace

/-- A step of the loop writes neither the shared objects nor the completions. -/
theorem ClientInv.move (h : ClientInv outcomes s) {pc : ClientPc π} {turns : Nat}
    {productBids : List (π × String)} (hstarted : s.started = outcomes.length)
    (hplace : { s with pc, turns, productBids }.Place outcomes) :
    ClientInv outcomes { s with pc, turns, productBids } where
  started_le := h.started_le
  started_eq _ := hstarted
  stored_lt := h.stored_lt
  stored_nodup := h.stored_nodup
  returned_stored := h.returned_stored
  returned_nodup := h.returned_nodup
  waiting u hu hunread := by
    obtain ⟨hothers, hholds⟩ := h.waiting u hu hunread
    refine ⟨hothers, fun o ho => ?_⟩
    have hown := hholds o ho
    cases o <;> exact hown
  place := hplace

theorem clientInv_client (h : ClientInv outcomes s) (hs : clientStep outcomes.length s = some t) :
    ClientInv outcomes t := by
  have hplace := h.place
  have hstarted := h.started_eq
  unfold clientStep at hs
  rw [Collection.Place] at hplace
  split at hs
  · next hpc =>
    rw [hpc] at hplace
    split at hs
    · next hlt =>
      obtain rfl := Option.some.inj hs
      exact
        { h with
          started_le := hlt
          started_eq := fun hne => absurd hpc hne
          stored_lt := fun v hv => Nat.lt_succ_of_lt (h.stored_lt v hv)
          place := by rw [Collection.Place, hpc]; exact hplace }
    · next hge =>
      obtain rfl := Option.some.inj hs
      exact h.move (Nat.le_antisymm h.started_le (Nat.le_of_not_lt hge)) hplace
  · cases hs
  · next hpc =>
    rw [hpc] at hplace hstarted
    obtain ⟨v, o, hturn⟩ := hplace
    have hholds := hturn.holds
    split at hs
    · next hok =>
      obtain rfl := Option.some.inj hs
      cases o with
      | succeeded reply => exact h.move (hstarted nofun) ⟨v, reply, hturn.setPc _⟩
      | failed reply => exact absurd (hholds.symm.trans hok) nofun
    · next hok =>
      obtain rfl := Option.some.inj hs
      cases o with
      | succeeded reply => exact absurd hholds.2 hok
      | failed reply =>
        exact h.move (hstarted nofun) (hturn.place_endTurn (List.append_nil _).symm)
  · next hpc =>
    rw [hpc] at hplace hstarted
    obtain ⟨v, reply, hturn⟩ := hplace
    obtain rfl := Option.some.inj hs
    exact h.move (hstarted nofun) ⟨v, reply, hturn.setPc _, by rw [hturn.holds.1]⟩
  · next price hpc =>
    rw [hpc] at hplace hstarted
    obtain ⟨v, reply, hturn, rfl⟩ := hplace
    obtain rfl := Option.some.inj hs
    refine h.move (hstarted nofun) (hturn.place_endTurn ?_)
    rw [hturn.holds.1]
    rfl

theorem clientInv_step [Zero π] (h : ClientInv outcomes s) {a : ClientAction} (hok : Undisturbed a s)
    (hs : (clientSystem outcomes).next a s = some t) : ClientInv outcomes t := by
  cases a with
  | client => exact clientInv_client h hs
  | store v =>
    simp only [clientSystem] at hs
    split at hs
    · next o ho =>
      split at hs
      · next hguard =>
        obtain rfl := Option.some.inj hs
        exact clientInv_store h ho hguard.1 hguard.2 hok.1 hok.2
      · cases hs
    · cases hs
  | next v =>
    simp only [clientSystem] at hs
    split at hs
    · next hpc =>
      split at hs
      · next hguard =>
        obtain rfl := Option.some.inj hs
        exact clientInv_next h hpc hguard.2.1 hguard.2.2
      · cases hs
    all_goals cases hs

theorem clientInv_reach [Zero π] (h : ReachVia (clientSystem outcomes) Undisturbed s) : ClientInv outcomes s :=
  h.invariant
    { started_le := Nat.zero_le _
      started_eq := fun hne => absurd rfl hne
      stored_lt := nofun
      stored_nodup := List.nodup_nil
      returned_stored := nofun
      returned_nodup := List.nodup_nil
      waiting := nofun
      place := ⟨rfl, rfl⟩ }
    fun _ hinv hok hs => clientInv_step hinv hok hs

/-! ## The list of bids -/

/-- Vendor by vendor, the bids are those of the outcomes. -/
theorem filterMap_ownBid (outcomes : List (Outcome π)) :
    (List.range outcomes.length).filterMap (ownBid outcomes) = outcomes.filterMap Outcome.bid := by
  have hget : (List.range outcomes.length).filterMap (fun v => outcomes[v]?) = outcomes := by
    induction outcomes with
    | nil => rfl
    | cons o outcomes ih =>
      rw [List.length_cons, List.range_succ_eq_map, List.filterMap_cons, List.filterMap_map]
      exact congrArg (o :: ·) ih
  calc (List.range outcomes.length).filterMap (ownBid outcomes)
      = ((List.range outcomes.length).filterMap (fun v => outcomes[v]?)).filterMap Outcome.bid := by
        rw [List.filterMap_filterMap]
        rfl
    _ = outcomes.filterMap Outcome.bid := by rw [hget]

/-- A list of different vendors is no longer than the list of all. -/
theorem length_le_of_nodup {n : Nat} {vendors : List Nat} (hnodup : vendors.Nodup) (hlt : ∀ v ∈ vendors, v < n) :
    vendors.length ≤ n := by
  have hsub : vendors ⊆ List.range n := fun v hv => List.mem_range.mpr (hlt v hv)
  simpa using (hnodup.subperm hsub).length_le

theorem ClientInv.stored_lt_length (h : ClientInv outcomes s) : ∀ v ∈ s.stored, v < outcomes.length :=
  fun v hv => Nat.lt_of_lt_of_le (h.stored_lt v hv) h.started_le

theorem ClientInv.returned_lt_length (h : ClientInv outcomes s) : ∀ v ∈ s.returned, v < outcomes.length :=
  fun v hv => h.stored_lt_length v (h.returned_stored v hv)

/-- When every vendor's completion has been returned, the list is complete. -/
theorem ClientInv.perm (h : ClientInv outcomes s) (hdone : s.Done outcomes.length) :
    s.productBids.Perm (outcomes.filterMap Outcome.bid) := by
  have hplace := h.place
  rw [Collection.Place, hdone.1] at hplace
  have hsub : s.returned ⊆ List.range outcomes.length := fun v hv =>
    List.mem_range.mpr (h.returned_lt_length v hv)
  have hperm : s.returned.Perm (List.range outcomes.length) := by
    refine (h.returned_nodup.subperm hsub).perm_of_length_le ?_
    rw [List.length_range, hplace.1, hdone.2]
  rw [hplace.2, ← filterMap_ownBid]
  exact hperm.filterMap _

/-- While a turn is missing, the loop can go on without a disturbance. -/
theorem ClientInv.can_go_on [Zero π] (h : ClientInv outcomes s) (hdone : ¬ s.Done outcomes.length) :
    ∃ a, Undisturbed a s ∧ ((clientSystem outcomes).next a s).isSome := by
  have hplace := h.place
  have hstarted := h.started_eq
  rw [Collection.Place] at hplace
  match hpc : s.pc with
  | .start =>
    refine ⟨.client, trivial, ?_⟩
    simp only [clientSystem, clientStep, hpc]
    split <;> rfl
  | .status =>
    refine ⟨.client, trivial, ?_⟩
    simp only [clientSystem, clientStep, hpc]
    split <;> rfl
  | .price => exact ⟨.client, trivial, by simp [clientSystem, clientStep, hpc]⟩
  | .vendorId price => exact ⟨.client, trivial, by simp [clientSystem, clientStep, hpc]⟩
  | .next =>
    rw [hpc] at hplace hstarted
    have hlt : s.turns < outcomes.length := by
      have hle := length_le_of_nodup h.returned_nodup h.returned_lt_length
      have hne : s.turns ≠ outcomes.length := fun heq => hdone ⟨hpc, heq⟩
      omega
    by_cases hwaiting : ∃ v ∈ s.stored, v ∉ s.returned
    · obtain ⟨v, hstored, hnew⟩ := hwaiting
      refine ⟨.next v, trivial, ?_⟩
      simp [clientSystem, hpc, hlt, hstored, hnew]
    · -- every outcome stored has been read, so some call has not ended yet
      push Not at hwaiting
      have hlength : s.stored.length < outcomes.length := by
        have hle := (h.stored_nodup.subperm hwaiting).length_le
        omega
      obtain ⟨v, hv, hnew⟩ : ∃ v < outcomes.length, v ∉ s.stored := by
        by_contra hall
        push Not at hall
        have hsub : List.range outcomes.length ⊆ s.stored := fun v hv => hall v (List.mem_range.mp hv)
        have hle := (List.nodup_range.subperm hsub).length_le
        rw [List.length_range] at hle
        omega
      refine ⟨.store v, ⟨hwaiting, .inr hpc⟩, ?_⟩
      simp [clientSystem, hstarted, hv, hnew]

/-- The steps that are left: each call is started, stored, returned and read in up to three steps. -/
def Collection.todo (n : Nat) (s : Collection π) : Nat :=
  (n - s.started) + (n - s.stored.length) + 4 * (n - s.returned.length) +
    match s.pc with
    | .next => 0
    | .start | .vendorId _ => 1
    | .price => 2
    | .status => 3

theorem ClientInv.todo_lt [Zero π] (h : ClientInv outcomes s) {a : ClientAction}
    (hs : (clientSystem outcomes).next a s = some t) : t.todo outcomes.length < s.todo outcomes.length := by
  have hplace := h.place
  rw [Collection.Place] at hplace
  cases a with
  | client =>
    simp only [clientSystem, clientStep] at hs
    split at hs
    · next hpc =>
      split at hs <;> obtain rfl := Option.some.inj hs <;> simp only [Collection.todo, hpc] <;> omega
    · cases hs
    · next hpc =>
      split at hs <;> obtain rfl := Option.some.inj hs <;> simp [Collection.todo, Collection.endTurn, hpc]
    all_goals
      next hpc =>
      obtain rfl := Option.some.inj hs
      simp [Collection.todo, Collection.endTurn, hpc]
  | store v =>
    simp only [clientSystem] at hs
    split at hs
    · next o ho =>
      split at hs
      · next hguard =>
        obtain rfl := Option.some.inj hs
        obtain ⟨hv, -⟩ := List.getElem?_eq_some_iff.mp ho
        have hle := length_le_of_nodup (List.nodup_cons.mpr ⟨hguard.2, h.stored_nodup⟩)
          (List.forall_mem_cons.mpr ⟨hv, h.stored_lt_length⟩)
        rw [List.length_cons] at hle
        simp only [Collection.todo, List.length_cons, Collection.store_pc, Collection.store_started,
          Collection.store_returned]
        omega
      · cases hs
    · cases hs
  | next v =>
    simp only [clientSystem] at hs
    split at hs
    · next hpc =>
      rw [hpc] at hplace
      split at hs
      · next hguard =>
        obtain rfl := Option.some.inj hs
        simp only [Collection.todo, List.length_append, List.length_singleton, hpc, hplace.1]
        omega
      · cases hs
    all_goals cases hs

/-- `getProductBid` returns, and its list has exactly the entries of the vendors whose calls succeeded, one
for each: in every run in which no outcome is stored while the loop has not finished with the one stored
before. -/
theorem bids_faithful [Zero π] (hr : ReachVia (clientSystem outcomes) Undisturbed s) :
    (s.Done outcomes.length → s.productBids.Perm (outcomes.filterMap Outcome.bid)) ∧
    (¬ s.Done outcomes.length → ∃ a, Undisturbed a s ∧ ((clientSystem outcomes).next a s).isSome) ∧
    ∀ a t, (clientSystem outcomes).next a s = some t → t.todo outcomes.length < s.todo outcomes.length :=
  have hinv := clientInv_reach hr
  ⟨hinv.perm, hinv.can_go_on, fun _ _ hs => hinv.todo_lt hs⟩

/-- Three vendors, the second of which fails. Each outcome is stored when the loop has finished with the one
before. -/
def threeVendors : List (Outcome Nat) := [.succeeded ⟨10, "a"⟩, .failed none, .succeeded ⟨30, "c"⟩]

def oneByOne : List ClientAction :=
  [.client, .client, .client, .client,
    .store 2, .next 2, .client, .client, .client,
    .store 1, .next 1, .client,
    .store 0, .next 0, .client, .client, .client]

instance (a : ClientAction) (s : Collection π) [DecidableEq π] : Decidable (Undisturbed a s) := by
  unfold Undisturbed
  split <;> infer_instance

theorem bids_faithful_three_vendors : ∃ s, ReachVia (clientSystem threeVendors) Undisturbed s ∧
    s.Done 3 ∧ s.productBids.Perm [(10, "a"), (30, "c")] := by
  have hrun : (execVia (clientSystem threeVendors) Undisturbed oneByOne (clientSystem threeVendors).init).isSome := by
    decide
  have hdone : ∀ u ∈ execVia (clientSystem threeVendors) Undisturbed oneByOne (clientSystem threeVendors).init,
      u.pc = .next ∧ u.turns = 3 := by decide
  obtain ⟨u, hu⟩ := Option.isSome_iff_exists.mp hrun
  have hreach := reachVia_execVia oneByOne .init hu
  exact ⟨u, hreach, hdone u hu, (bids_faithful hreach).1 (hdone u hu)⟩

/-- Both outcomes are stored before the first `Next`: the bid of the second vendor is read twice, and that of
the first is lost. -/
def bothStored : List ClientAction :=
  [.client, .client, .client, .store 0, .store 1,
    .next 0, .client, .client, .client,
    .next 1, .client, .client, .client]

theorem bid_twice : ¬ ∀ (outcomes : List (Outcome Nat)) (s : Collection Nat), Reach (clientSystem outcomes) s →
    s.Done outcomes.length → s.productBids.Perm (outcomes.filterMap Outcome.bid) := by
  intro hclaim
  have hrun : (exec (clientSystem [.succeeded ⟨10, "a"⟩, .succeeded ⟨20, "b"⟩]) bothStored
      (clientSystem [.succeeded ⟨10, "a"⟩, .succeeded ⟨20, "b"⟩]).init).isSome := by decide
  have hend : ∀ u ∈ exec (clientSystem [.succeeded ⟨10, "a"⟩, .succeeded ⟨20, "b"⟩]) bothStored
      (clientSystem [.succeeded ⟨10, "a"⟩, .succeeded ⟨20, "b"⟩]).init,
      (u.pc = .next ∧ u.turns = 2) ∧ u.productBids = [(20, "b"), (20, "b")] := by decide
  obtain ⟨u, hu⟩ := Option.isSome_iff_exists.mp hrun
  obtain ⟨hdone, hbids⟩ := hend u hu
  have hperm := hclaim _ u (reach_exec bothStored .init hu) hdone
  rw [hbids] at hperm
  exact absurd hperm (by decide)

end AdvancedOS.Store
