import Mathlib.Algebra.BigOperators.Group.List
import Mathlib.Data.List.Perm.Basic
import Mathlib.Data.List.Nodup
import Mathlib.Logic.Relation
import Mathlib.Algebra.Order.Ring.Nat

/-!
# `updateInclusionStatus` and its `TxUpdateWorker`s

The driver starts `W` workers, sends every entry of `txs` into `txC`, a channel of capacity
2,000,000, and only then receives `len(txs)` values from the unbuffered `respC`. Each worker
dials the node once and then loops: receive an entry from `txC`, call
`UpdateInclusionStatus` on it, send the result on `respC`. `txC` is never closed.

The entries are pointers; `E` stands for them. A state holds where the driver and each
worker are, the contents of `txC`, and three ghost logs: the calls of
`UpdateInclusionStatus` begun (with the worker that made each), the calls that have
returned, and the entry behind each response the driver has received. A send on `respC`
completes only together with the driver's receive, so the two are one step. The
`log.Fatal` of a failed dial ends the process and is not a state of the protocol.
-/

namespace MempoolArchiver.InclusionPool

/-- `make(chan *common.TxSummaryEntry, 2000000)`. -/
def txCCapacity : Nat := 2000000

theorem txCCapacity_pos : 0 < txCCapacity := by decide

inductive Driver (E : Type) where
  | sending (unsent : List E)
  | receiving (received : Nat)
  | returned
deriving DecidableEq

/-- A `TxUpdateWorker.start` goroutine: dialing the node, waiting on `range p.txC`, inside
`tx.UpdateInclusionStatus`, or blocked on `p.respC <- err`. -/
inductive Worker (E : Type) where
  | dialing
  | idle
  | updating (tx : E)
  | responding (tx : E)
deriving DecidableEq

structure Pool (E : Type) where
  driver : Driver E
  txC : List E
  workers : List (Worker E)
  calls : List (Nat × E)
  updated : List E
  responses : List E
deriving DecidableEq

variable {E : Type}

def init (W : Nat) (txs : List E) : Pool E where
  driver := .sending txs
  txC := []
  workers := List.replicate W .dialing
  calls := []
  updated := []
  responses := []

/-- One move of one party; `n` is `len(txs)`, the bound of the driver's receive loop. -/
inductive Step (n : Nat) : Pool E → Pool E → Prop
  | send {p : Pool E} {tx : E} {unsent : List E} (hd : p.driver = .sending (tx :: unsent))
      (hc : p.txC.length < txCCapacity) :
      Step n p { p with driver := .sending unsent, txC := p.txC ++ [tx] }
  | wait {p : Pool E} (hd : p.driver = .sending []) :
      Step n p { p with driver := .receiving 0 }
  | receive {p : Pool E} {i w : Nat} {tx : E} (hd : p.driver = .receiving i) (hi : i < n)
      (hw : p.workers[w]? = some (.responding tx)) :
      Step n p { p with
        driver := .receiving (i + 1)
        workers := p.workers.set w .idle
        responses := p.responses ++ [tx] }
  | done {p : Pool E} {i : Nat} (hd : p.driver = .receiving i) (hi : ¬i < n) :
      Step n p { p with driver := .returned }
  | dial {p : Pool E} {w : Nat} (hw : p.workers[w]? = some .dialing) :
      Step n p { p with workers := p.workers.set w .idle }
  | take {p : Pool E} {w : Nat} {tx : E} {rest : List E} (hw : p.workers[w]? = some .idle)
      (hq : p.txC = tx :: rest) :
      Step n p { p with
        txC := rest
        workers := p.workers.set w (.updating tx)
        calls := p.calls ++ [(w, tx)] }
  | update {p : Pool E} {w : Nat} {tx : E} (hw : p.workers[w]? = some (.updating tx)) :
      Step n p { p with
        workers := p.workers.set w (.responding tx)
        updated := p.updated ++ [tx] }

def Reachable (W : Nat) (txs : List E) (p : Pool E) : Prop :=
  Relation.ReflTransGen (Step txs.length) (init W txs) p

/-! ## Where every entry is -/

def Driver.unsent : Driver E → List E
  | .sending unsent => unsent
  | _ => []

def Driver.count (n : Nat) : Driver E → Nat
  | .sending _ => 0
  | .receiving i => i
  | .returned => n

def Worker.holding : Worker E → List E
  | .updating tx | .responding tx => [tx]
  | _ => []

def Worker.answering : Worker E → List E
  | .responding tx => [tx]
  | _ => []

def holding (p : Pool E) : List E := p.workers.flatMap Worker.holding

def answering (p : Pool E) : List E := p.workers.flatMap Worker.answering

/-- Every entry is in exactly one place: not sent yet, in `txC`, held by a worker, or
answered for. Every call begun is on an entry a worker holds or one answered for, and every
call returned is on an entry whose response is being sent or has been taken. -/
structure Inv (W : Nat) (txs : List E) (p : Pool E) : Prop where
  workers_length : p.workers.length = W
  accounted : (p.driver.unsent ++ p.txC ++ holding p ++ p.responses).Perm txs
  called : (p.calls.map (·.2)).Perm (holding p ++ p.responses)
  returned : p.updated.Perm (answering p ++ p.responses)
  received : p.responses.length = p.driver.count txs.length

/-! ## One step keeps the invariant -/

theorem inv_init (W : Nat) (txs : List E) : Inv W txs (init W txs) where
  workers_length := List.length_replicate W _
  accounted := by simp [init, holding, Driver.unsent, List.flatMap_replicate, Worker.holding]
  called := by simp [init, holding, List.flatMap_replicate, Worker.holding]
  returned := by simp [init, answering, List.flatMap_replicate, Worker.answering]
  received := rfl

theorem sum_map_set {α : Type} (g : α → Nat) {l : List α} {w : Nat} {y : α}
    (h : l[w]? = some y) (x : α) : ((l.set w x).map g).sum + g y = (l.map g).sum + g x := by
  induction l generalizing w with
  | nil => nomatch h
  | cons z l ih =>
    cases w with
    | zero =>
      obtain rfl : z = y := Option.some.inj ((List.getElem?_cons_zero).symm.trans h)
      simp only [List.set_cons_zero, List.map_cons, List.sum_cons]
      omega
    | succ w =>
      have := ih ((List.getElem?_cons_succ).symm.trans h)
      simp only [List.set_cons_succ, List.map_cons, List.sum_cons]
      omega

section Counting

variable [DecidableEq E]

theorem count_flatMap_set (f : Worker E → List E) (a : E) {l : List (Worker E)} {w : Nat}
    {y : Worker E} (h : l[w]? = some y) (x : Worker E) :
    ((l.set w x).flatMap f).count a + (f y).count a = (l.flatMap f).count a + (f x).count a := by
  simpa only [List.count_flatMap, Function.comp_def] using sum_map_set (fun z => (f z).count a) h x

def Tally (txs : List E) (p : Pool E) (a : E) : Prop :=
  (p.driver.unsent ++ p.txC ++ holding p ++ p.responses).count a = txs.count a ∧
  (p.calls.map (·.2)).count a = (holding p ++ p.responses).count a ∧
  p.updated.count a = (answering p ++ p.responses).count a

theorem Inv.tally {W : Nat} {txs : List E} {p : Pool E} (hi : Inv W txs p) (a : E) :
    Tally txs p a :=
  ⟨List.perm_iff_count.mp hi.accounted a, List.perm_iff_count.mp hi.called a,
    List.perm_iff_count.mp hi.returned a⟩

theorem Inv.of_tally {W : Nat} {txs : List E} {p : Pool E} (hlen : p.workers.length = W)
    (ht : ∀ a, Tally txs p a) (hrec : p.responses.length = p.driver.count txs.length) :
    Inv W txs p :=
  ⟨hlen, List.perm_iff_count.mpr fun a => (ht a).1, List.perm_iff_count.mpr fun a => (ht a).2.1,
    List.perm_iff_count.mpr fun a => (ht a).2.2, hrec⟩

theorem Inv.step {W : Nat} {txs : List E} {p q : Pool E} (hi : Inv W txs p)
    (hs : Step txs.length p q) : Inv W txs q := by
  have hrec := hi.received
  cases hs with
  | send hd =>
    refine .of_tally hi.workers_length (fun a => ?_) (by rw [hd] at hrec; exact hrec)
    have h := hi.tally a
    simp only [Tally, hd, Driver.unsent, holding, answering, List.count_append, List.count_cons,
      List.count_nil] at h ⊢
    omega
  | wait hd =>
    refine .of_tally hi.workers_length (fun a => ?_) (by rw [hd] at hrec; exact hrec)
    simpa [Tally, hd, Driver.unsent] using hi.tally a
  | receive hd _ hw =>
    refine .of_tally (by simpa using hi.workers_length) (fun a => ?_)
      (by rw [hd] at hrec; simp [Driver.count, hrec])
    have h := hi.tally a
    have hh := count_flatMap_set Worker.holding a hw .idle
    have ha := count_flatMap_set Worker.answering a hw .idle
    simp only [Tally, hd, Driver.unsent, holding, answering, List.count_append, Worker.holding,
      Worker.answering, List.count_singleton', List.count_nil] at h hh ha ⊢
    omega
  | done hd hi' =>
    have hle : p.responses.length ≤ txs.length := by
      rw [← hi.accounted.length_eq]
      simp only [List.length_append]
      omega
    refine .of_tally hi.workers_length (fun a => ?_) ?_
    · simpa [Tally, hd, Driver.unsent] using hi.tally a
    · rw [hd] at hrec
      simp only [Driver.count] at hrec ⊢
      omega
  | dial hw =>
    refine .of_tally (by simpa using hi.workers_length) (fun a => ?_) hrec
    have h := hi.tally a
    have hh := count_flatMap_set Worker.holding a hw .idle
    have ha := count_flatMap_set Worker.answering a hw .idle
    simp only [Tally, holding, answering, List.count_append, Worker.holding, Worker.answering,
      List.count_nil] at h hh ha ⊢
    omega
  | @take _ tx _ hw hq =>
    refine .of_tally (by simpa using hi.workers_length) (fun a => ?_) hrec
    have h := hi.tally a
    have hh := count_flatMap_set Worker.holding a hw (.updating tx)
    have ha := count_flatMap_set Worker.answering a hw (.updating tx)
    simp only [Tally, hq, holding, answering, List.count_append, List.count_cons, List.map_append,
      List.map_cons, List.map_nil, Worker.holding, Worker.answering, List.count_singleton',
      List.count_nil] at h hh ha ⊢
    omega
  | @update _ tx hw =>
    refine .of_tally (by simpa using hi.workers_length) (fun a => ?_) hrec
    have h := hi.tally a
    have hh := count_flatMap_set Worker.holding a hw (.responding tx)
    have ha := count_flatMap_set Worker.answering a hw (.responding tx)
    simp only [Tally, holding, answering, List.count_append, Worker.holding, Worker.answering,
      List.count_singleton', List.count_nil] at h hh ha ⊢
    omega

theorem Inv.reachable {W : Nat} {txs : List E} {p : Pool E} (hr : Reachable W txs p) :
    Inv W txs p := by
  induction hr with
  | refl => exact inv_init W txs
  | tail _ hs ih => exact ih.step hs

end Counting

/-! ## Each entry is updated once -/

theorem answering_sublist (ws : List (Worker E)) :
    (ws.flatMap Worker.answering).Sublist (ws.flatMap Worker.holding) := by
  induction ws with
  | nil => exact .slnil
  | cons w ws ih =>
    cases w with
    | dialing | idle => exact ih
    | updating tx => exact ih.cons tx
    | responding tx => exact ih.cons₂ tx

section Settled

variable {W : Nat} {txs : List E} {p : Pool E}

theorem Inv.nodup_inFlight (hi : Inv W txs p) (hnd : txs.Nodup) :
    (holding p ++ p.responses).Nodup := by
  have h := hi.accounted.nodup_iff.mpr hnd
  rw [List.append_assoc] at h
  exact h.of_append_right

theorem Inv.mem_of_call (hi : Inv W txs p) {c : Nat × E} (hc : c ∈ p.calls) : c.2 ∈ txs := by
  have h : c.2 ∈ holding p ++ p.responses := hi.called.subset (List.mem_map_of_mem _ hc)
  exact hi.accounted.subset (by rw [List.append_assoc]; exact List.mem_append_right _ h)

theorem Inv.drained (hi : Inv W txs p) (hall : p.responses.length = txs.length) :
    p.driver.unsent = [] ∧ p.txC = [] ∧ holding p = [] := by
  have h := hi.accounted.length_eq
  simp only [List.length_append] at h
  simp only [← List.length_eq_zero]
  omega

theorem idle_of_holding_nil {ws : List (Worker E)} (h : ws.flatMap Worker.holding = []) :
    ∀ w ∈ ws, w = .dialing ∨ w = .idle := by
  intro w hw
  have hnil := List.flatMap_eq_nil_iff.mp h w hw
  cases w with
  | dialing => exact .inl rfl
  | idle => exact .inr rfl
  | updating tx | responding tx => exact absurd hnil (List.cons_ne_nil tx [])

theorem Inv.settled (hi : Inv W txs p) (h : p.driver.count txs.length = txs.length) :
    p.updated.Perm txs ∧ (p.calls.map (·.2)).Perm txs ∧
      ∀ w ∈ p.workers, w = .dialing ∨ w = .idle := by
  obtain ⟨hu, hq, hh⟩ := hi.drained (hi.received.trans h)
  have hresp : p.responses.Perm txs := by
    simpa [hu, hq, hh] using hi.accounted
  have hans_nil : answering p = [] := List.eq_nil_of_sublist_nil (hh ▸ answering_sublist _)
  exact ⟨hi.returned.trans (by simpa [hans_nil] using hresp),
    hi.called.trans (by simpa [hh] using hresp), idle_of_holding_nil hh⟩

theorem step_of_returned {q : Pool E} (hs : Step txs.length p q) (hd : p.driver = .returned)
    (hq : p.txC = []) (hw : ∀ w ∈ p.workers, w = .dialing ∨ w = .idle) :
    q.driver = .returned ∧ q.txC = [] ∧ (∀ w ∈ q.workers, w = .dialing ∨ w = .idle) ∧
      q.updated = p.updated := by
  cases hs with
  | send hd' | wait hd' | receive hd' | done hd' => rw [hd] at hd'; cases hd'
  | dial =>
    refine ⟨hd, hq, fun w h => ?_, rfl⟩
    rcases List.mem_or_eq_of_mem_set h with h | rfl
    · exact hw w h
    · exact .inr rfl
  | take _ hq' => rw [hq] at hq'; cases hq'
  | update hw' => simpa using hw _ (List.mem_iff_getElem?.mpr ⟨_, hw'⟩)

theorem run_of_returned {q : Pool E} (hd : p.driver = .returned) (hq : p.txC = [])
    (hw : ∀ w ∈ p.workers, w = .dialing ∨ w = .idle)
    (hrun : Relation.ReflTransGen (Step txs.length) p q) :
    q.driver = .returned ∧ q.txC = [] ∧ (∀ w ∈ q.workers, w = .dialing ∨ w = .idle) ∧
      q.updated = p.updated := by
  induction hrun with
  | refl => exact ⟨hd, hq, hw, rfl⟩
  | tail _ hs ih =>
    obtain ⟨hd', hq', hw', hu⟩ := ih
    obtain ⟨hd'', hq'', hw'', hu'⟩ := step_of_returned hs hd' hq' hw'
    exact ⟨hd'', hq'', hw'', hu'.trans hu⟩

end Settled

section Updates

variable [DecidableEq E]

def settled : Pool Nat where
  driver := .returned
  txC := []
  workers := [.idle, .idle]
  calls := [(0, 0), (1, 1)]
  updated := [1, 0]
  responses := [1, 0]

theorem settled_reachable : Reachable 2 [0, 1] settled :=
  .head (.dial (w := 0) rfl) <| .head (.dial (w := 1) rfl) <|
  .head (.send rfl (by decide)) <| .head (.send rfl (by decide)) <| .head (.wait rfl) <|
  .head (.take (w := 0) rfl rfl) <| .head (.take (w := 1) rfl rfl) <|
  .head (.update (w := 1) rfl) <| .head (.receive (w := 1) rfl (by decide) rfl) <|
  .head (.update (w := 0) rfl) <| .head (.receive (w := 0) rfl (by decide) rfl) <|
  .head (.done rfl (by decide)) .refl

end Updates

/-! ## Every run ends with the driver returned -/

/-- Every run from `p` reaches a state in `Q`: `p` is in `Q`, or `p` has a step and every
step from `p` leads to such a state. -/
inductive Eventually (n : Nat) (Q : Pool E → Prop) : Pool E → Prop
  | now {p : Pool E} : Q p → Eventually n Q p
  | later {p : Pool E} : (∃ q, Step n p q) → (∀ q, Step n p q → Eventually n Q q) →
      Eventually n Q p

theorem Eventually.of_path {n : Nat} {Q : Pool E → Prop} {p q : Pool E}
    (h : Eventually n Q p) (hpath : Relation.ReflTransGen (fun a b => ¬Q a ∧ Step n a b) p q)
    (hstuck : ∀ r, ¬Step n q r) : Q q := by
  induction h with
  | now hq =>
    rcases hpath.cases_head with rfl | ⟨_, ⟨hnq, -⟩, -⟩
    · exact hq
    · exact absurd hq hnq
  | later hex _ ih =>
    rcases hpath.cases_head with rfl | ⟨r, ⟨-, hs⟩, hpath'⟩
    · obtain ⟨r, hs⟩ := hex
      exact absurd hs (hstuck r)
    · exact ih r hs hpath'

def Worker.rank : Worker E → Nat
  | .dialing => 1
  | .idle => 0
  | .updating _ => 2
  | .responding _ => 1

def Driver.rank : Driver E → Nat
  | .sending unsent => 4 * unsent.length + 2
  | .receiving _ => 1
  | .returned => 0

def rank (p : Pool E) : Nat := p.driver.rank + 3 * p.txC.length + (p.workers.map Worker.rank).sum

theorem rank_step {n : Nat} {p q : Pool E} (hs : Step n p q) : rank q + 1 = rank p := by
  cases hs with
  | send hd =>
    simp only [rank, hd, Driver.rank, List.length_append, List.length_cons, List.length_nil]
    omega
  | wait hd | done hd => simp [rank, hd, Driver.rank]; omega
  | receive hd _ hw =>
    have := sum_map_set Worker.rank hw .idle
    simp only [rank, hd, Driver.rank, Worker.rank] at this ⊢
    omega
  | dial hw =>
    have := sum_map_set Worker.rank hw .idle
    simp only [rank, Worker.rank] at this ⊢
    omega
  | @take _ tx _ hw hq =>
    have := sum_map_set Worker.rank hw (.updating tx)
    simp only [rank, hq, Worker.rank, List.length_cons] at this ⊢
    omega
  | @update _ tx hw =>
    have := sum_map_set Worker.rank hw (.responding tx)
    simp only [rank, Worker.rank] at this ⊢
    omega

def Finished (n : Nat) (p : Pool E) : Prop := p.driver = .returned ∧ p.responses.length = n

theorem not_finished_of_sending {n : Nat} {p : Pool E} {unsent : List E}
    (h : p.driver = .sending unsent) : ¬Finished n p := fun hf => by
  rw [hf.1] at h
  cases h

theorem worker_step {n : Nat} {p : Pool E} {x : Worker E} (hx : x ∈ p.workers)
    (hidle : x = .idle → p.txC ≠ []) (hr : ∀ tx, x ≠ .responding tx) : ∃ q, Step n p q := by
  obtain ⟨w, hw⟩ := List.mem_iff_getElem?.mp hx
  cases x with
  | dialing => exact ⟨_, .dial hw⟩
  | idle =>
    obtain ⟨tx, rest, hq⟩ := List.exists_cons_of_ne_nil (hidle rfl)
    exact ⟨_, .take hw hq⟩
  | updating tx => exact ⟨_, .update hw⟩
  | responding tx => exact absurd rfl (hr tx)

theorem length_holding_of_responding {ws : List (Worker E)}
    (h : ∀ x ∈ ws, ∃ tx, x = .responding tx) : (ws.flatMap Worker.holding).length = ws.length := by
  induction ws with
  | nil => rfl
  | cons x ws ih =>
    obtain ⟨tx, rfl⟩ := h x (List.mem_cons_self _ _)
    simp [Worker.holding, ih fun y hy => h y (List.mem_cons_of_mem _ hy), Nat.add_comm]

theorem exists_step {W : Nat} {txs : List E} {p : Pool E} (hi : Inv W txs p) (hW : 0 < W)
    (hN : txs.length ≤ txCCapacity + W) (hd : p.driver ≠ .returned) :
    ∃ q, Step txs.length p q := by
  have hlen := hi.accounted.length_eq
  have hrec := hi.received
  simp only [List.length_append] at hlen
  cases hdrv : p.driver with
  | returned => exact absurd hdrv hd
  | sending unsent =>
    cases unsent with
    | nil => exact ⟨_, .wait hdrv⟩
    | cons tx unsent =>
      by_cases hc : p.txC.length < txCCapacity
      · exact ⟨_, .send hdrv hc⟩
      by_cases hall : ∀ x ∈ p.workers, ∃ tx, x = .responding tx
      · have hbusy := length_holding_of_responding hall
        rw [hdrv] at hlen
        simp only [Driver.unsent, List.length_cons, holding, hbusy, hi.workers_length] at hlen
        omega
      push_neg at hall
      obtain ⟨x, hx, hr⟩ := hall
      exact worker_step hx (fun _ hq => hc (by rw [hq]; exact txCCapacity_pos)) hr
  | receiving i =>
    by_cases hin : i < txs.length
    · by_cases hresp : ∃ tx, Worker.responding tx ∈ p.workers
      · obtain ⟨tx, hx⟩ := hresp
        obtain ⟨w, hw⟩ := List.mem_iff_getElem?.mp hx
        exact ⟨_, .receive hdrv hin hw⟩
      have hr : ∀ x ∈ p.workers, ∀ tx, x ≠ Worker.responding tx := fun x hx tx h =>
        hresp ⟨tx, h ▸ hx⟩
      by_cases hq : p.txC = []
      · rw [hdrv] at hlen hrec
        simp only [Driver.unsent, Driver.count, hq, List.length_nil] at hlen hrec
        obtain ⟨x, hx, hhold⟩ : ∃ x ∈ p.workers, x.holding ≠ [] := by
          by_contra hcon
          push_neg at hcon
          rw [holding, List.flatMap_eq_nil_iff.mpr hcon] at hlen
          simp only [List.length_nil] at hlen
          omega
        exact worker_step hx (fun h => absurd (by rw [h]; rfl) hhold) (hr x hx)
      · obtain ⟨x, hx⟩ := List.exists_mem_of_length_pos (hi.workers_length ▸ hW)
        exact worker_step hx (fun _ => hq) (hr x hx)
    · exact ⟨_, .done hdrv hin⟩

/-- With at least one worker and at most `txCCapacity + W` entries, every interleaving of
the driver with the workers reaches the state where the driver has taken `len(txs)`
responses and returns: no run blocks every party before that, and no run goes on
forever. -/
theorem updateInclusionStatus_returns [DecidableEq E] (W : Nat) (hW : 0 < W) (txs : List E)
    (hN : txs.length ≤ txCCapacity + W) :
    Eventually txs.length (Finished txs.length) (init W txs) := by
  suffices h : ∀ k (p : Pool E), rank p = k → Reachable W txs p →
      Eventually txs.length (Finished txs.length) p from h _ _ rfl .refl
  intro k
  induction k using Nat.strong_induction_on with
  | _ k ih =>
    intro p hk hr
    have hi := Inv.reachable hr
    by_cases hd : p.driver = .returned
    · exact .now ⟨hd, by rw [hi.received, hd]; rfl⟩
    · exact .later (exists_step hi hW hN hd) fun q hs =>
        ih _ (by have := rank_step hs; omega) q rfl (hr.tail hs)

theorem four_workers_return :
    0 < 4 ∧ [0, 1, 2].length ≤ txCCapacity + 4 ∧
      Eventually [0, 1, 2].length (Finished [0, 1, 2].length) (init 4 ([0, 1, 2] : List Nat)) :=
  ⟨by decide, by decide, updateInclusionStatus_returns 4 (by decide) [0, 1, 2] (by decide)⟩

/-! ## A run that blocks every party -/

theorem sends {n : Nat} (xs : List E) :
    ∀ {p q : Pool E} {rest : List E}, p.driver = .sending (xs ++ rest) →
      p.txC.length + xs.length ≤ txCCapacity →
      q = { p with driver := .sending rest, txC := p.txC ++ xs } →
      Relation.ReflTransGen (fun a b => ¬Finished n a ∧ Step n a b) p q := by
  induction xs with
  | nil =>
    intro p q rest hd _ hq
    have : q = p := by
      cases p
      simp_all
    rw [this]
  | cons x xs ih =>
    intro p q rest hd hc hq
    simp only [List.length_cons] at hc
    refine .head ⟨not_finished_of_sending hd, .send hd (by omega)⟩ (ih rfl ?_ ?_)
    · simp only [List.length_append, List.length_singleton]
      omega
    · simp [hq]

def overfull : List Nat := 0 :: (List.range' 1 txCCapacity ++ [txCCapacity + 1])

theorem overfull_nodup : overfull.Nodup := by
  refine List.nodup_cons.mpr ⟨?_, List.nodup_append.mpr
    ⟨List.nodup_range' _ _, List.nodup_singleton _, fun a ha hb => ?_⟩⟩
  · simp [List.mem_range'_1]
  · rw [List.mem_singleton] at hb
    rw [hb, List.mem_range'_1] at ha
    omega

theorem overfull_length : overfull.length = txCCapacity + 2 := by
  rw [overfull, List.length_cons, List.length_append, List.length_range', List.length_singleton]

def blocked : Pool Nat where
  driver := .sending [txCCapacity + 1]
  txC := List.range' 1 txCCapacity
  workers := [.responding 0]
  calls := [(0, 0)]
  updated := [0]
  responses := []

theorem blocked_stuck (n : Nat) (r : Pool Nat) : ¬Step n blocked r := by
  intro hs
  cases hs with
  | send _ hc => simp [blocked] at hc
  | wait hd | receive hd | done hd => simp [blocked] at hd
  | dial hw | take hw | update hw => simpa [blocked] using List.mem_iff_getElem?.mpr ⟨_, hw⟩

theorem blocked_reachable :
    Relation.ReflTransGen (fun a b => ¬Finished overfull.length a ∧ Step overfull.length a b)
      (init 1 overfull) blocked :=
  .head ⟨not_finished_of_sending rfl, .dial (w := 0) rfl⟩ <|
  .head ⟨not_finished_of_sending rfl, .send rfl (by decide)⟩ <|
  .head ⟨not_finished_of_sending rfl, .take (w := 0) rfl rfl⟩ <|
  .head ⟨not_finished_of_sending rfl, .update (w := 0) rfl⟩ <|
  sends (List.range' 1 txCCapacity) rfl
    (by rw [List.length_range']; exact Nat.le_of_eq (Nat.zero_add _)) (by simp [blocked, init])

theorem reachable_blocked : Reachable 1 overfull blocked :=
  blocked_reachable.mono fun _ _ h => h.2

theorem updateInclusionStatus_blocks :
    ¬∀ W, 0 < W → ∀ txs : List Nat, txs.Nodup →
      Eventually txs.length (Finished txs.length) (init W txs) := by
  intro h
  have hfin := (h 1 Nat.one_pos overfull overfull_nodup).of_path blocked_reachable
    (blocked_stuck _)
  exact not_finished_of_sending rfl hfin

/-! ## More entries than `txC` and the workers hold -/

theorem Step.order_eq {n : Nat} {p q : Pool E} (hs : Step n p q) :
    q.calls.map (·.2) ++ q.txC ++ q.driver.unsent =
      p.calls.map (·.2) ++ p.txC ++ p.driver.unsent := by
  cases hs with
  | send hd | wait hd | receive hd | done hd => simp [hd, Driver.unsent]
  | dial | update => rfl
  | take _ hq => simp [hq]

theorem order_eq_of_reachable {W : Nat} {txs : List E} {p : Pool E} (hr : Reachable W txs p) :
    p.calls.map (·.2) ++ p.txC ++ p.driver.unsent = txs := by
  induction hr with
  | refl => rfl
  | tail _ hs ih => exact hs.order_eq.trans ih

theorem Step.txC_length_le {n : Nat} {p q : Pool E} (hs : Step n p q)
    (h : p.txC.length ≤ txCCapacity) : q.txC.length ≤ txCCapacity := by
  cases hs with
  | send _ hc => rw [List.length_append, List.length_singleton]; omega
  | take _ hq => rw [hq, List.length_cons] at h; exact Nat.le_of_succ_le h
  | wait | receive | done | dial | update => exact h

theorem txC_length_le {W : Nat} {txs : List E} {p : Pool E} (hr : Reachable W txs p) :
    p.txC.length ≤ txCCapacity := by
  induction hr with
  | refl => exact Nat.zero_le _
  | tail _ hs ih => exact hs.txC_length_le ih

theorem length_holding_le (ws : List (Worker E)) :
    (ws.flatMap Worker.holding).length ≤ ws.length := by
  induction ws with
  | nil => exact le_refl 0
  | cons x ws ih =>
    have hx : x.holding.length ≤ 1 := by cases x <;> simp [Worker.holding]
    rw [List.flatMap_cons, List.length_append, List.length_cons]
    omega

theorem Inv.length_unsent {W : Nat} {txs : List E} {p : Pool E} (hi : Inv W txs p)
    (hq : p.txC.length ≤ txCCapacity) {unsent : List E} (hd : p.driver = .sending unsent) :
    txs.length ≤ unsent.length + txCCapacity + W := by
  have hlen := hi.accounted.length_eq
  have hrec := hi.received
  have hhold := length_holding_le p.workers
  rw [hd] at hlen hrec
  simp only [Driver.unsent, Driver.count, holding, List.length_append] at hlen hrec
  rw [hi.workers_length] at hhold
  omega

theorem driver_sending_of_overfull [DecidableEq E] {W : Nat} {txs : List E}
    (hN : txCCapacity + W < txs.length) {p : Pool E} (hr : Reachable W txs p) :
    ∃ unsent, p.driver = .sending unsent := by
  induction hr with
  | refl => exact ⟨txs, rfl⟩
  | @tail q r hqr hs ih =>
    obtain ⟨unsent, hd⟩ := ih
    have hlen := (Inv.reachable hqr).length_unsent (txC_length_le hqr) hd
    cases hs with
    | send => exact ⟨_, rfl⟩
    | wait hd' =>
      rw [hd] at hd'
      cases hd'
      rw [List.length_nil] at hlen
      omega
    | receive hd' | done hd' => rw [hd] at hd'; cases hd'
    | dial | take | update => exact ⟨unsent, hd⟩

/-- With more than `txCCapacity + W` entries, no interleaving of the driver with the workers
gets the driver out of its send loop: in every reachable state it is still sending, with at
least `len(txs) - txCCapacity - W` entries unsent, so `updateInclusionStatus` never
returns. -/
theorem updateInclusionStatus_never_returns [DecidableEq E] (W : Nat) (txs : List E)
    (hN : txCCapacity + W < txs.length) (p : Pool E) (hr : Reachable W txs p) :
    ∃ unsent, p.driver = .sending unsent ∧ txs.length - (txCCapacity + W) ≤ unsent.length := by
  obtain ⟨unsent, hd⟩ := driver_sending_of_overfull hN hr
  have hlen := (Inv.reachable hr).length_unsent (txC_length_le hr) hd
  exact ⟨unsent, hd, by omega⟩

theorem blocked_still_sending :
    txCCapacity + 1 < overfull.length ∧ Reachable 1 overfull blocked ∧
    ∃ unsent, blocked.driver = .sending unsent ∧
      overfull.length - (txCCapacity + 1) ≤ unsent.length :=
  ⟨by rw [overfull_length]; omega, reachable_blocked,
    updateInclusionStatus_never_returns 1 overfull (by rw [overfull_length]; omega) blocked
      reachable_blocked⟩

/-- With more than `txCCapacity + W` distinct entries, the last entry the driver sends is
passed to `UpdateInclusionStatus` in no reachable state: it never leaves the driver. -/
theorem updateInclusionStatus_never_passes_last [DecidableEq E] (W : Nat) (txs : List E)
    (hnd : txs.Nodup) (hN : txCCapacity + W < txs.length) (p : Pool E)
    (hr : Reachable W txs p) : ∀ x ∈ txs.getLast?, ∀ c ∈ p.calls, c.2 ≠ x := by
  obtain ⟨unsent, hd⟩ := driver_sending_of_overfull hN hr
  have hlen := (Inv.reachable hr).length_unsent (txC_length_le hr) hd
  obtain ⟨u, y, rfl⟩ := (List.eq_nil_or_concat unsent).resolve_left fun h => by
    rw [h, List.length_nil] at hlen
    omega
  have horder := order_eq_of_reachable hr
  rw [hd, Driver.unsent, List.concat_eq_append, ← List.append_assoc] at horder
  intro x hx c hc hcx
  rw [← horder, List.getLast?_concat, Option.mem_def, Option.some.injEq] at hx
  rw [← horder] at hnd
  exact (List.nodup_append.mp hnd).2.2
    (List.mem_append_left _ (List.mem_append_left _ (List.mem_map_of_mem _ hc)))
    (List.mem_singleton.mpr (hcx.trans hx.symm))

theorem blocked_never_passes_last :
    overfull.Nodup ∧ txCCapacity + 1 < overfull.length ∧ Reachable 1 overfull blocked ∧
    ∀ x ∈ overfull.getLast?, ∀ c ∈ blocked.calls, c.2 ≠ x :=
  ⟨overfull_nodup, by rw [overfull_length]; omega, reachable_blocked,
    updateInclusionStatus_never_passes_last 1 overfull overfull_nodup
      (by rw [overfull_length]; omega) blocked reachable_blocked⟩

/-! ## When the driver returns -/

theorem no_workers_no_responses {txs : List E} {p : Pool E} (hr : Reachable 0 txs p) :
    p.workers = [] ∧ p.responses = [] := by
  induction hr with
  | refl => exact ⟨rfl, rfl⟩
  | tail _ hs ih =>
    obtain ⟨hw, hresp⟩ := ih
    cases hs with
    | send | wait | done => exact ⟨hw, hresp⟩
    | receive _ _ hw' | dial hw' | take hw' | update hw' => simp [hw] at hw'

/-- The driver returns only when there is nothing to send, or when there is a worker and
`txC` and the workers hold every entry. -/
theorem returned_within_capacity [DecidableEq E] {W : Nat} {txs : List E} {p : Pool E}
    (hr : Reachable W txs p) (hd : p.driver = .returned) :
    txs.length = 0 ∨ 0 < W ∧ txs.length ≤ txCCapacity + W := by
  rcases Nat.eq_zero_or_pos W with rfl | hW
  · have hrec := (Inv.reachable hr).received
    rw [(no_workers_no_responses hr).2, hd] at hrec
    exact .inl hrec.symm
  · refine .inr ⟨hW, Nat.le_of_not_lt fun hN => ?_⟩
    obtain ⟨unsent, hs⟩ := driver_sending_of_overfull hN hr
    rw [hd] at hs
    cases hs

end MempoolArchiver.InclusionPool
