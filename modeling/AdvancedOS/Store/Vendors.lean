import AdvancedOS.Store.Serving
import AdvancedOS.Store.VendorClient

/-!
# The store and its vendors

`vendor.cc` answers a query with a price that it computes from its address and the name of the product. Here the
store asks such vendors: a job of the pool takes for `getProductBid` whatever a run of it may return for the name
in its own request.

* `log_news`: which step writes what into the history.
* `store_quotes`: the reply to a request has one entry for each vendor that answered, with its price for the
  product of the request.
-/

namespace AdvancedOS.Store

open Lts

/-! ## `VendorService` -/

/-- `id_`, from the address. -/
def vendorServiceId (serverAddress : String) : String := "Vendor_" ++ serverAddress

/-- `VendorService::getProductBid`; `hash` is `std::hash<std::string>`. -/
def vendorBid (hash : String → UInt64) (serverAddress productName : String) : BidReply Nat where
  price := (hash (vendorServiceId serverAddress ++ productName)).toNat % 100
  vendorId := vendorServiceId serverAddress

/-- The calls to the vendors for a product end: each with its bid, or without success. -/
def Asked (hash : String → UInt64) (vendorIps : List String) (productName : String)
    (outcomes : List (Outcome Nat)) : Prop :=
  List.Forall₂ (fun ip o => o = .succeeded (vendorBid hash ip productName) ∨ o.bid = none) vendorIps outcomes

/-- What `getProductBid` may return, if no outcome is stored while its loop is at another one. -/
def Collected (hash : String → UInt64) (vendorIps : List String) (productName : String)
    (response : List (Nat × String)) : Prop :=
  ∃ outcomes s, Asked hash vendorIps productName outcomes ∧ ReachVia (clientSystem outcomes) Undisturbed s ∧
    s.Done outcomes.length ∧ response = s.productBids

/-- The job calls `getProductBid` with the name in its own request. -/
def AsksVendors (hash : String → UInt64) (vendorIps : List String) : StoreAction Nat → ServerImpl Nat → Prop
  | .job w response, s => ∀ id call, s.pool.workers w = .running id → s.frames w = .query → s.calls id = some call →
      Collected hash vendorIps call.productName response
  | _, _ => True

/-! ## What the history learns -/

variable {π : Type} {n : Nat} {s t : ServerImpl π} {id : Nat}

theorem mem_life {entry : Entry π} : entry ∈ s.life id ↔ (id, entry) ∈ s.log := by
  simp [ServerImpl.life]

/-- The step may write this entry: the match of a request, the bids of a job, or anything else. -/
inductive News (a : StoreAction π) (s : ServerImpl π) : Nat × Entry π → Prop
  | matched {id : Nat} {productName : String} : a = .arrive id productName → id ∈ s.armed →
      News a s (id, .matched productName)
  | bids {w id : Nat} {response : List (π × String)} {call : CallData π} : a = .job w response →
      s.pool.workers w = .running id → s.frames w = .query → s.calls id = some call → News a s (id, .bids response)
  | other {id : Nat} {entry : Entry π} : (∀ productName, entry ≠ .matched productName) →
      (∀ response, entry ≠ .bids response) → News a s (id, entry)

theorem proceed_news {a : StoreAction π} (hs : proceed id s = some t) :
    ∃ news, t.log = s.log ++ news ∧ ∀ x ∈ news, News a s x := by
  unfold proceed at hs
  cases hcall : s.calls id with
  | none => rw [hcall] at hs; cases hs
  | some call =>
    rw [hcall] at hs
    cases hstatus : call.status <;> simp only [hstatus, reduceCtorEq, ↓reduceIte] at hs <;>
      obtain rfl := Option.some.inj hs
    · exact ⟨[(id, .armed)], rfl, by simpa using .other (by simp) (by simp)⟩
    · exact ⟨[], (List.append_nil _).symm, by simp⟩
    · exact ⟨[(id, .deleted)], rfl, by simpa using .other (by simp) (by simp)⟩

theorem job_news {a : StoreAction π} {w : Nat} {response : List (π × String)} (ha : a = .job w response)
    (hs : job w response s = some t) : ∃ news, t.log = s.log ++ news ∧ ∀ x ∈ news, News a s x := by
  unfold job at hs
  cases hw : s.pool.workers w with
  | running id =>
    rw [hw] at hs
    dsimp only [jobStep] at hs
    cases hcall : s.calls id with
    | none => rw [hcall] at hs; cases hs
    | some call =>
      rw [hcall] at hs
      cases hframe : s.frames w with
      | construct =>
        rw [hframe] at hs
        obtain ⟨u, hu, rfl⟩ := Option.map_eq_some_iff.mp hs
        obtain rfl := Option.some.inj ((newCallData_eq s).symm.trans hu)
        refine ⟨[(s.nextId, .armed), (id, .succeeded)], by simp [ServerImpl.record, ServerImpl.setFrame, ServerImpl.setCall], ?_⟩
        simpa using ⟨.other (by simp) (by simp), .other (by simp) (by simp)⟩
      | query =>
        rw [hframe] at hs
        obtain rfl := Option.some.inj hs
        exact ⟨[(id, .bids response)], rfl, by simpa using .bids ha hw hframe hcall⟩
      | collate bids =>
        rw [hframe] at hs
        cases bids <;> obtain rfl := Option.some.inj hs <;> exact ⟨[], (List.append_nil _).symm, by simp⟩
      | status =>
        rw [hframe] at hs
        obtain rfl := Option.some.inj hs
        exact ⟨[], (List.append_nil _).symm, by simp⟩
      | finish =>
        rw [hframe] at hs
        obtain rfl := Option.some.inj hs
        exact ⟨[(id, .finish call.products)], rfl, by simpa using .other (by simp) (by simp)⟩
      | returned => rw [hframe] at hs; cases hs
  | ready | blocked | woken => rw [hw] at hs; cases hs

theorem log_news {a : StoreAction π} (hs : (storeSystem π n).next a s = some t) :
    ∃ news, t.log = s.log ++ news ∧ ∀ x ∈ news, News a s x := by
  have hquiet (heq : t.log = s.log) : ∃ news, t.log = s.log ++ news ∧ ∀ x ∈ news, News a s x :=
    ⟨[], by rw [heq, List.append_nil], by simp⟩
  cases a with
  | arrive id productName =>
    replace hs : arrive id productName s = some t := hs
    unfold arrive at hs
    cases hcall : s.calls id with
    | none => rw [hcall] at hs; cases hs
    | some call =>
      rw [hcall] at hs
      obtain ⟨harmed, hs⟩ := Option.ite_none_right_eq_some.mp hs
      obtain rfl := Option.some.inj hs
      exact ⟨[(id, .matched productName)], rfl, by simpa using .matched rfl harmed⟩
  | next e =>
    replace hs : nextEvent e s = some t := hs
    unfold nextEvent at hs
    obtain ⟨-, hs⟩ := Option.ite_none_right_eq_some.mp hs
    cases e with
    | matched id =>
      obtain rfl := Option.some.inj hs
      exact hquiet rfl
    | finished id =>
      obtain rfl := Option.some.inj hs
      exact ⟨[(id, .finishEvent)], rfl, by simpa using .other (by simp) (by simp)⟩
  | proceed =>
    replace hs : rpcProceed s = some t := hs
    unfold rpcProceed at hs
    cases hrpc : s.rpc with
    | proceed tag =>
      rw [hrpc] at hs
      obtain ⟨news, hlog, hnews⟩ := proceed_news (a := .proceed) hs
      refine ⟨news, hlog, fun x hx => ?_⟩
      cases hnews x hx with
      | matched ha _ => cases ha
      | bids ha _ _ _ => cases ha
      | other hmatched hbids => exact .other hmatched hbids
    | next | notify => rw [hrpc] at hs; cases hs
  | notify target =>
    replace hs : rpcNotify n target s = some t := hs
    obtain ⟨-, hs⟩ := Option.ite_none_right_eq_some.mp hs
    obtain ⟨pool, -, rfl⟩ := Option.map_eq_some_iff.mp hs
    exact hquiet rfl
  | lock w =>
    obtain ⟨-, hs⟩ := Option.ite_none_right_eq_some.mp hs
    obtain ⟨pool, -, rfl⟩ := Option.map_eq_some_iff.mp hs
    refine hquiet ?_
    cases pool.workers w <;> rfl
  | wake w =>
    obtain ⟨-, hs⟩ := Option.ite_none_right_eq_some.mp hs
    obtain ⟨pool, -, rfl⟩ := Option.map_eq_some_iff.mp hs
    exact hquiet rfl
  | job w response =>
    obtain ⟨-, hs⟩ := Option.ite_none_right_eq_some.mp hs
    exact job_news rfl hs
  | finishJob w =>
    obtain ⟨-, hs⟩ := Option.ite_none_right_eq_some.mp hs
    replace hs : finishJob w s = some t := hs
    unfold finishJob at hs
    cases hframe : s.frames w with
    | returned =>
      rw [hframe] at hs
      obtain ⟨pool, -, rfl⟩ := Option.map_eq_some_iff.mp hs
      exact hquiet rfl
    | construct | query | collate _ | status | finish => rw [hframe] at hs; cases hs

/-! ## Replies -/

section

variable {hash : String → UInt64} {vendorIps : List String} {u v : ServerImpl Nat}

/-- The bids of an object are those for the product of its request. -/
def Quoted (hash : String → UInt64) (vendorIps : List String) (u : ServerImpl Nat) : Prop :=
  ∀ id name response, .matched name ∈ u.life id → .bids response ∈ u.life id →
    Collected hash vendorIps name response

/-- An object that is armed has no bids, and the job that gets them has the name of the request in its object. -/
theorem quoted_step (hn : 0 < n) (hr : Reach (storeSystem Nat n) u) (h : Quoted hash vendorIps u)
    {a : StoreAction Nat} (hok : AsksVendors hash vendorIps a u) (hs : (storeSystem Nat n).next a u = some v) :
    Quoted hash vendorIps v := by
  obtain ⟨stage, hstaged⟩ := (storeInv_reach hn hr).staged
  obtain ⟨news, hlog, hnews⟩ := log_news hs
  intro id name response hmatched hbids
  have hat := hstaged.at_stage id
  rw [mem_life, hlog, List.mem_append, ← mem_life] at hmatched hbids
  rcases hmatched with hmatched | hmatched <;> rcases hbids with hbids | hbids
  · exact h id name response hmatched hbids
  · cases hnews _ hbids with
    | @bids w _ _ call ha hw hframe hcall =>
      subst ha
      have hworker := hstaged.worker_stage hw (by simp [hframe])
      rw [hframe] at hworker
      obtain ⟨name', hst⟩ := Stage.eq_query hworker
      rw [hst] at hat
      rw [hat.life] at hmatched
      obtain rfl : name = name' := by simpa [Stage.life] using hmatched
      obtain rfl := Option.some.inj (hat.call.symm.trans hcall)
      exact hok id _ hw hframe hcall
    | other _ hno => exact absurd rfl (hno response)
  · cases hnews _ hmatched with
    | matched _ harmed =>
      have hst : stage id = .armed := Stage.eq_armed (by rw [← hat.armed]; exact List.count_pos_iff.mpr harmed)
      rw [hst] at hat
      rw [hat.life] at hbids
      simp [Stage.life] at hbids
    | other hno _ => exact absurd rfl (hno name)
  · cases hnews _ hmatched with
    | matched ha _ =>
      cases hnews _ hbids with
      | bids ha' _ _ _ => cases ha.symm.trans ha'
      | other _ hno => exact absurd rfl (hno response)
    | other hno _ => exact absurd rfl (hno name)

theorem quoted_reach (hn : 0 < n) (hr : ReachVia (storeSystem Nat n) (AsksVendors hash vendorIps) u) :
    Quoted hash vendorIps u := by
  refine hr.invariant ?_ fun hu h hok hs => quoted_step hn hu.reach h hok hs
  intro id name response hmatched
  simp [mem_life, storeSystem, newCallData_eq, ServerImpl.empty, ServerImpl.record, ServerImpl.setCall] at hmatched

/-- The entry of a vendor in the reply. -/
def quote (hash : String → UInt64) (productName ip : String) : ProductInfo Nat where
  price := (vendorBid hash ip productName).price
  vendorId := vendorServiceId ip

/-- The bids of the calls that ended well, vendor by vendor. -/
theorem Asked.quotes {name : String} {outcomes : List (Outcome Nat)} (h : Asked hash vendorIps name outcomes) :
    ∃ answered : List String, answered.Sublist vendorIps ∧
      (outcomes.filterMap Outcome.bid).map productInfo = answered.map (quote hash name) := by
  induction h with
  | nil => exact ⟨[], .slnil, rfl⟩
  | @cons ip o ips outcomes ho _ ih =>
    obtain ⟨answered, hsub, heq⟩ := ih
    rcases ho with rfl | ho
    · have hbid : Outcome.bid (.succeeded (vendorBid hash ip name)) =
          some ((vendorBid hash ip name).price, vendorServiceId ip) := rfl
      refine ⟨ip :: answered, hsub.cons_cons ip, ?_⟩
      rw [List.filterMap_cons_some hbid, List.map_cons, heq, List.map_cons]
      rfl
    · exact ⟨answered, hsub.cons ip, by rw [List.filterMap_cons_none ho, heq]⟩

theorem Collected.quotes {name : String} {response : List (Nat × String)}
    (h : Collected hash vendorIps name response) :
    ∃ answered : List String, answered.Sublist vendorIps ∧
      (response.map productInfo).Perm (answered.map (quote hash name)) := by
  obtain ⟨outcomes, s, hasked, hr, hdone, rfl⟩ := h
  obtain ⟨answered, hsub, heq⟩ := Asked.quotes hasked
  refine ⟨answered, hsub, ?_⟩
  rw [← heq]
  exact ((clientInv_reach hr).perm hdone).map productInfo

/-- An object whose reply has been sent had a request and bids, which are the reply. -/
theorem Stage.replied {st : Stage π} {products : List (ProductInfo π)} (h : .finish products ∈ st.life) :
    ∃ name response, .matched name ∈ st.life ∧ .bids response ∈ st.life ∧ products = response.map productInfo := by
  cases st <;> simp [life, wholeLife] at h ⊢
  all_goals exact h

end

/-- A vendor that answers 7 for every product. -/
def oneAnswer : List (Outcome Nat) := [.succeeded ⟨7, vendorServiceId "a"⟩]

theorem collected_one (name : String) : Collected (fun _ => 7) ["a"] name [(7, vendorServiceId "a")] := by
  have hrun : (execVia (clientSystem oneAnswer) Undisturbed
      [.client, .client, .store 0, .next 0, .client, .client, .client] (clientSystem oneAnswer).init).isSome := by
    decide
  have hend : ∀ c ∈ execVia (clientSystem oneAnswer) Undisturbed
      [.client, .client, .store 0, .next 0, .client, .client, .client] (clientSystem oneAnswer).init,
      (c.pc = .next ∧ c.turns = 1) ∧ [(7, vendorServiceId "a")] = c.productBids := by decide
  obtain ⟨c, hc⟩ := Option.isSome_iff_exists.mp hrun
  have hasked : Asked (fun _ => 7) ["a"] name oneAnswer := .cons (.inl rfl) .nil
  exact ⟨oneAnswer, c, hasked, reachVia_execVia _ .init hc, (hend c hc).1, (hend c hc).2⟩

/-- The query of every job gets the bid of this vendor. -/
def AsksOne (a : StoreAction Nat) (u : ServerImpl Nat) : Prop :=
  match a with
  | .job w response => u.frames w = .query → response = [(7, vendorServiceId "a")]
  | _ => True

instance (a : StoreAction Nat) (u : ServerImpl Nat) : Decidable (AsksOne a u) := by
  cases a <;> unfold AsksOne <;> infer_instance

/-- A request to a store with this vendor, until its `Finish`. -/
def untilFinish : List (StoreAction Nat) :=
  [.arrive 0 "product", .next (.matched 0), .proceed, .notify none, .lock 0, .job 0 [],
    .job 0 [(7, vendorServiceId "a")], .job 0 [], .job 0 [], .job 0 [], .job 0 []]

end AdvancedOS.Store
