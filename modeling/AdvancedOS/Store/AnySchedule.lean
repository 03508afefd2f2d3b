import AdvancedOS.Store.VendorClient

/-!
# The bids in any schedule

`bids_faithful` needs that no outcome is stored into the shared `reply` and `status` while the loop of
`getProductBid` is at another one. This is what is left without that assumption: the loop always comes to its
end, and it makes nothing up, although an entry may have its price from one vendor and its id from another.

* `ClientMove`: the steps of `getProductBid` and of gRPC.
* `Scheduled`: what every step keeps.
* `bids_in_any_schedule`: the result.
-/

namespace AdvancedOS.Store

open Lts

variable {π : Type}

/-- The reply that comes with the end of a call, if there is one. -/
def Outcome.reply? : Outcome π → Option (BidReply π)
  | .succeeded reply => some reply
  | .failed reply => reply

/-- Some vendor has sent this reply. -/
def SentBy (outcomes : List (Outcome π)) (reply : BidReply π) : Prop := ∃ o ∈ outcomes, o.reply? = some reply

variable {outcomes : List (Outcome π)} {s t : Collection π}

/-! ## Steps -/

inductive ClientMove (outcomes : List (Outcome π)) (s : Collection π) : Collection π → Prop
  | startCall : s.pc = .start → s.started < outcomes.length →
      ClientMove outcomes s { s with started := s.started + 1 }
  | startLoop : s.pc = .start → outcomes.length ≤ s.started → ClientMove outcomes s { s with pc := .next }
  | statusOk : s.pc = .status → s.statusOk = true → ClientMove outcomes s { s with pc := .price }
  | statusFailed : s.pc = .status → s.statusOk = false → ClientMove outcomes s (s.endTurn s.productBids)
  | price : s.pc = .price → ClientMove outcomes s { s with pc := .vendorId s.reply.price }
  | vendorId {price : π} : s.pc = .vendorId price →
      ClientMove outcomes s (s.endTurn (s.productBids ++ [(price, s.reply.vendorId)]))
  | store {v : Nat} {o : Outcome π} : outcomes[v]? = some o → v < s.started → v ∉ s.stored →
      ClientMove outcomes s { s.store o with stored := v :: s.stored }
  | next {v : Nat} : s.pc = .next → s.turns < outcomes.length → v ∈ s.stored → v ∉ s.returned →
      ClientMove outcomes s { s with pc := .status, returned := s.returned ++ [v] }

theorem clientStep_move (hs : clientStep outcomes.length s = some t) : ClientMove outcomes s t := by
  unfold clientStep at hs
  cases hpc : s.pc with
  | start =>
    rw [hpc] at hs
    dsimp only at hs
    split at hs
    · next hlt =>
      obtain rfl := Option.some.inj hs
      rw [← hpc]
      exact .startCall hpc hlt
    · next hge =>
      obtain rfl := Option.some.inj hs
      exact .startLoop hpc (Nat.le_of_not_lt hge)
  | next => rw [hpc] at hs; cases hs
  | status =>
    rw [hpc] at hs
    dsimp only at hs
    split at hs
    · next hok =>
      obtain rfl := Option.some.inj hs
      exact .statusOk hpc hok
    · next hok =>
      obtain rfl := Option.some.inj hs
      exact .statusFailed hpc (Bool.eq_false_iff.mpr hok)
  | price =>
    rw [hpc] at hs
    obtain rfl := Option.some.inj hs
    exact .price hpc
  | vendorId price =>
    rw [hpc] at hs
    obtain rfl := Option.some.inj hs
    exact .vendorId hpc

theorem clientSystem_move [Zero π] {a : ClientAction} (hs : (clientSystem outcomes).next a s = some t) :
    ClientMove outcomes s t := by
  cases a with
  | client => exact clientStep_move hs
  | store v =>
    simp only [clientSystem] at hs
    cases ho : outcomes[v]? with
    | none => rw [ho] at hs; cases hs
    | some o =>
      rw [ho] at hs
      obtain ⟨⟨hstarted, hnew⟩, hs⟩ := Option.ite_none_right_eq_some.mp hs
      obtain rfl := Option.some.inj hs
      exact .store ho hstarted hnew
  | next v =>
    simp only [clientSystem] at hs
    cases hpc : s.pc with
    | next =>
      rw [hpc] at hs
      obtain ⟨⟨hlt, hstored, hnew⟩, hs⟩ := Option.ite_none_right_eq_some.mp hs
      obtain rfl := Option.some.inj hs
      exact .next hpc hlt hstored hnew
    | start | status | price | vendorId _ => rw [hpc] at hs; cases hs

/-! ## What every step keeps -/

/-- The loop is behind a `Next`. -/
def ClientPc.inTurn : ClientPc π → Nat
  | .start | .next => 0
  | .status | .price | .vendorId _ => 1

/-- The price and the id of an entry have been sent, each in some reply. -/
def Sourced (outcomes : List (Outcome π)) (bid : π × String) : Prop :=
  (∃ reply, SentBy outcomes reply ∧ bid.1 = reply.price) ∧ ∃ reply, SentBy outcomes reply ∧ bid.2 = reply.vendorId

/-- After `status.ok()` the shared reply is one that was sent, and so is the price that was read. -/
def Collection.Reads (outcomes : List (Outcome π)) (s : Collection π) : Prop :=
  match s.pc with
  | .start | .next | .status => True
  | .price => SentBy outcomes s.reply
  | .vendorId price => SentBy outcomes s.reply ∧ ∃ reply, SentBy outcomes reply ∧ price = reply.price

structure Scheduled (outcomes : List (Outcome π)) (s : Collection π) : Prop where
  started_le : s.started ≤ outcomes.length
  started_eq : s.pc ≠ .start → s.started = outcomes.length
  stored_lt : ∀ v ∈ s.stored, v < s.started
  stored_nodup : s.stored.Nodup
  returned_stored : s.returned ⊆ s.stored
  returned_nodup : s.returned.Nodup
  returned : s.returned.length = s.turns + s.pc.inTurn
  sent : s.stored ≠ [] → s.statusOk = true → SentBy outcomes s.reply
  reads : s.Reads outcomes
  bids : ∀ bid ∈ s.productBids, Sourced outcomes bid
  count : s.productBids.length ≤ s.turns

/-- What gRPC stores is sent, if it says so; and a reply that was sent is only replaced by another one. -/
theorem sentBy_store {o : Outcome π} (ho : o ∈ outcomes) :
    ((s.store o).statusOk = true → SentBy outcomes (s.store o).reply) ∧
      (SentBy outcomes s.reply → SentBy outcomes (s.store o).reply) := by
  cases o with
  | succeeded reply => exact ⟨fun _ => ⟨_, ho, rfl⟩, fun _ => ⟨_, ho, rfl⟩⟩
  | failed reply =>
    refine ⟨fun hok => absurd hok Bool.false_ne_true, fun hsent => ?_⟩
    cases reply with
    | none => exact hsent
    | some reply => exact ⟨_, ho, rfl⟩

/-- In a turn some outcome has been stored. -/
theorem Scheduled.stored_ne (h : Scheduled outcomes s) (hpc : 0 < s.pc.inTurn) : s.stored ≠ [] := by
  intro hnil
  have hnone : s.returned = [] := List.subset_nil.mp (hnil ▸ h.returned_stored)
  have hreturned := h.returned
  rw [hnone, List.length_nil] at hreturned
  omega

theorem Scheduled.move (h : Scheduled outcomes s) (hm : ClientMove outcomes s t) : Scheduled outcomes t := by
  have hreads := h.reads
  have hreturned := h.returned
  cases hm with
  | startCall hpc hlt =>
    exact
      { h with
        started_le := hlt
        started_eq := fun hne => absurd hpc hne
        stored_lt := fun v hv => Nat.lt_succ_of_lt (h.stored_lt v hv)
        reads := by rw [Collection.Reads, hpc]; trivial }
  | startLoop hpc hge =>
    rw [hpc] at hreturned
    exact { h with started_eq := fun _ => Nat.le_antisymm h.started_le hge, returned := hreturned, reads := trivial }
  | statusOk hpc hok =>
    rw [hpc] at hreturned
    have hsent := h.sent (h.stored_ne (by rw [hpc]; exact Nat.one_pos)) hok
    exact { h with started_eq := fun _ => h.started_eq (by simp [hpc]), returned := hreturned, reads := hsent }
  | statusFailed hpc _ =>
    rw [hpc] at hreturned
    exact
      { h with
        started_eq := fun _ => h.started_eq (by simp [hpc])
        returned := hreturned
        reads := trivial
        count := Nat.le_succ_of_le h.count }
  | price hpc =>
    rw [hpc] at hreturned
    rw [Collection.Reads, hpc] at hreads
    exact
      { h with
        started_eq := fun _ => h.started_eq (by simp [hpc])
        returned := hreturned
        reads := ⟨hreads, _, hreads, rfl⟩ }
  | @vendorId price hpc =>
    rw [hpc] at hreturned
    rw [Collection.Reads, hpc] at hreads
    refine
      { h with
        started_eq := fun _ => h.started_eq (by simp [hpc])
        returned := hreturned
        reads := trivial
        bids := fun bid hbid => ?_
        count := ?_ }
    · rcases List.mem_append.mp hbid with hbid | hbid
      · exact h.bids bid hbid
      · rw [List.mem_singleton.mp hbid]
        exact ⟨hreads.2, _, hreads.1, rfl⟩
    · show (s.productBids ++ [(price, s.reply.vendorId)]).length ≤ s.turns + 1
      rw [List.length_append]
      exact Nat.succ_le_succ h.count
  | @store v o ho hstarted hnew =>
    have hsent := sentBy_store (s := s) (List.mem_of_getElem? ho)
    refine
      { started_le := by simpa using h.started_le
        started_eq := by simpa using h.started_eq
        stored_lt := by simpa [hstarted] using h.stored_lt
        stored_nodup := List.nodup_cons.mpr ⟨hnew, h.stored_nodup⟩
        returned_stored := fun u hu => List.mem_cons_of_mem _ (h.returned_stored (by simpa using hu))
        returned_nodup := by simpa using h.returned_nodup
        returned := by simpa using h.returned
        sent := fun _ => hsent.1
        reads := ?_
        bids := by simpa using h.bids
        count := by simpa using h.count }
    rw [Collection.Reads] at hreads ⊢
    dsimp only
    rw [Collection.store_pc]
    cases hpc : s.pc with
    | start | next | status => trivial
    | price =>
      rw [hpc] at hreads
      exact hsent.2 hreads
    | vendorId price =>
      rw [hpc] at hreads
      exact ⟨hsent.2 hreads.1, hreads.2⟩
  | @next v hpc hlt hstored hnew =>
    rw [hpc] at hreturned
    refine
      { h with
        started_eq := fun _ => h.started_eq (by simp [hpc])
        returned_stored := ?_
        returned_nodup := ?_
        returned := ?_
        reads := trivial }
    · exact List.append_subset.mpr ⟨h.returned_stored, fun u hu => List.mem_singleton.mp hu ▸ hstored⟩
    · refine List.nodup_append.mpr ⟨h.returned_nodup, by simp, fun u hu w hw heq => hnew ?_⟩
      rwa [← List.mem_singleton.mp hw, ← heq]
    · show (s.returned ++ [v]).length = s.turns + 1
      rw [List.length_append, hreturned]
      rfl

theorem scheduled_reach [Zero π] (h : Reach (clientSystem outcomes) s) : Scheduled outcomes s := by
  refine h.invariant ?_ fun _ hs _ hnext => hs.move (clientSystem_move hnext)
  exact
    { started_le := Nat.zero_le _
      started_eq := fun hne => absurd rfl hne
      stored_lt := by simp [clientSystem]
      stored_nodup := List.nodup_nil
      returned_stored := List.nil_subset _
      returned_nodup := List.nodup_nil
      returned := rfl
      sent := fun hne => absurd rfl hne
      reads := trivial
      bids := by simp [clientSystem]
      count := Nat.le_refl _ }

/-! ## The end -/

/-- While a turn is missing, some step is possible. -/
theorem Scheduled.can_go_on [Zero π] (h : Scheduled outcomes s) (hdone : ¬ s.Done outcomes.length) :
    ∃ a, ((clientSystem outcomes).next a s).isSome := by
  have hreturned := h.returned
  have hstarted := h.started_eq
  cases hpc : s.pc with
  | start => exact ⟨.client, by simp only [clientSystem, clientStep, hpc]; split <;> rfl⟩
  | status => exact ⟨.client, by simp only [clientSystem, clientStep, hpc]; split <;> rfl⟩
  | price => exact ⟨.client, by simp [clientSystem, clientStep, hpc]⟩
  | vendorId price => exact ⟨.client, by simp [clientSystem, clientStep, hpc]⟩
  | next =>
    rw [hpc] at hreturned hstarted
    have hlt_all : ∀ v ∈ s.stored, v < outcomes.length := fun v hv =>
      Nat.lt_of_lt_of_le (h.stored_lt v hv) h.started_le
    have hlt : s.turns < outcomes.length := by
      have hle := length_le_of_nodup h.returned_nodup fun v hv => hlt_all v (h.returned_stored hv)
      have hne : s.turns ≠ outcomes.length := fun heq => hdone ⟨hpc, heq⟩
      rw [hreturned] at hle
      exact Nat.lt_of_le_of_ne hle hne
    by_cases hwaiting : ∃ v ∈ s.stored, v ∉ s.returned
    · obtain ⟨v, hstored, hnew⟩ := hwaiting
      exact ⟨.next v, by simp [clientSystem, hpc, hlt, hstored, hnew]⟩
    · -- every outcome stored has been read, so some call has not ended yet
      push Not at hwaiting
      have hlength : s.stored.length < outcomes.length := by
        have hle := (h.stored_nodup.subperm hwaiting).length_le
        rw [hreturned] at hle
        exact Nat.lt_of_le_of_lt hle hlt
      obtain ⟨v, hv, hnew⟩ : ∃ v < outcomes.length, v ∉ s.stored := by
        by_contra hall
        push Not at hall
        have hsub : List.range outcomes.length ⊆ s.stored := fun v hv => hall v (List.mem_range.mp hv)
        have hle := (List.nodup_range.subperm hsub).length_le
        rw [List.length_range] at hle
        exact absurd hlength (Nat.not_lt.mpr hle)
      exact ⟨.store v, by simp [clientSystem, hstarted, hv, hnew]⟩

theorem Scheduled.todo_lt (h : Scheduled outcomes s) (hm : ClientMove outcomes s t) :
    t.todo outcomes.length < s.todo outcomes.length := by
  have hreturned := h.returned
  cases hm with
  | startCall hpc hlt | startLoop hpc hlt => simp only [Collection.todo, hpc]; omega
  | statusOk hpc _ | statusFailed hpc _ | price hpc | vendorId hpc =>
    simp [Collection.todo, Collection.endTurn, hpc]
  | @store v o ho hstarted hnew =>
    have hle := length_le_of_nodup (List.nodup_cons.mpr ⟨hnew, h.stored_nodup⟩)
      (List.forall_mem_cons.mpr ⟨hstarted, h.stored_lt⟩)
    have hstarted_le := h.started_le
    rw [List.length_cons] at hle
    simp only [Collection.todo, List.length_cons, Collection.store_pc, Collection.store_started,
      Collection.store_returned]
    omega
  | @next v hpc hlt hstored hnew =>
    rw [hpc] at hreturned
    change s.returned.length = s.turns + 0 at hreturned
    simp only [Collection.todo, List.length_append, List.length_singleton, hpc, hreturned]
    omega

/-- If every vendor answers, every turn appends an entry. -/
def Collection.AllRead (s : Collection π) : Prop := s.statusOk = true ∧ s.productBids.length = s.turns

theorem allRead_reach [Zero π] (hall : ∀ o ∈ outcomes, o.bid.isSome) (h : Reach (clientSystem outcomes) s) :
    s.AllRead := by
  refine h.invariant ⟨rfl, rfl⟩ fun _ hs _ hnext => ?_
  cases clientSystem_move hnext with
  | startCall _ _ | startLoop _ _ | statusOk _ _ | price _ | next _ _ _ _ => exact hs
  | statusFailed _ hfailed => exact absurd (hs.1.symm.trans hfailed) Bool.noConfusion
  | vendorId _ => exact ⟨hs.1, by simp [Collection.endTurn, hs.2]⟩
  | @store v o ho _ _ =>
    have hbid := hall o (List.mem_of_getElem? ho)
    cases o with
    | succeeded reply => exact ⟨rfl, hs.2⟩
    | failed reply => cases hbid

/-- If no vendor answers, no turn does. -/
structure Collection.NoneRead (s : Collection π) : Prop where
  status : s.stored ≠ [] → s.statusOk = false
  bids : s.productBids = []
  pc : s.pc = .start ∨ s.pc = .next ∨ s.pc = .status

theorem noneRead_reach [Zero π] (hall : ∀ o ∈ outcomes, o.bid = none) (h : Reach (clientSystem outcomes) s) :
    s.NoneRead := by
  refine h.invariant ⟨fun hne => absurd rfl hne, rfl, .inl rfl⟩ fun hr hs _ hnext => ?_
  cases clientSystem_move hnext with
  | startCall _ _ => exact ⟨hs.status, hs.bids, hs.pc⟩
  | startLoop _ _ => exact ⟨hs.status, hs.bids, .inr (.inl rfl)⟩
  | statusOk hpc hok =>
    have hfailed := hs.status ((scheduled_reach hr).stored_ne (by rw [hpc]; exact Nat.one_pos))
    exact absurd (hok.symm.trans hfailed) Bool.noConfusion
  | statusFailed _ _ => exact ⟨hs.status, hs.bids, .inr (.inl rfl)⟩
  | price hpc | vendorId hpc =>
    have hplace := hs.pc
    simp [hpc] at hplace
  | next _ _ _ _ => exact ⟨hs.status, hs.bids, .inr (.inr rfl)⟩
  | @store v o ho _ _ =>
    have hbid := hall o (List.mem_of_getElem? ho)
    cases o with
    | succeeded reply => cases hbid
    | failed reply => exact ⟨fun _ => rfl, hs.bids, hs.pc⟩

end AdvancedOS.Store
