import TokenSim.Llm.Progress
import TokenSim.Llm.Workers

/-!
# Cancellation

A worker that has anything of a request (a place in a queue, blocks, a place in
the batch that runs) owns it, and if its cancellation was requested the worker
still has to acknowledge.  So when the last acknowledgement is in, no worker has
anything of the request, and since cancelled requests are not taken in again,
none ever will.
-/

namespace TokenSim.Engine

open List Option

open TokenSim.Dp (Task Message Scheduler nextMessage takeFirst)

/-! ## What a worker has of a request -/

namespace WorkerState

/-- The requests in the queues of the scheduler and in the batch that runs. -/
def held (v : WorkerState) : List Nat :=
  v.sched.running ++ v.sched.waiting ++ v.sched.loading ++ v.sched.loadedWaiting ++ v.activity.batch

/-- The worker has something of the request. -/
def Has (v : WorkerState) (r : Nat) : Prop := r ∈ v.held ∨ r ∈ v.blocks

/-- The messages a worker has still to handle. -/
def mail (v : WorkerState) : List Message :=
  match v.activity with
  | .holding msg => msg :: v.queue
  | _ => v.queue

variable {v v' : WorkerState} {r : Nat}

@[grind =] theorem mem_held : r ∈ v.held ↔ r ∈ v.sched.running ∨ r ∈ v.sched.waiting ∨
    r ∈ v.sched.loading ∨ r ∈ v.sched.loadedWaiting ∨ r ∈ v.activity.batch := by
  simp only [held, mem_append]
  tauto

end WorkerState

open WorkerState

/-! ## The invariant -/

/-- What holds of a request by itself. -/
structure Tracked.Ok (x : Tracked) : Prop where
  acknowledged : x.cancelledAt ≠ none → x.req.cancelRequested = true ∧ x.pending = []
  completed : x.completedAt ≠ none → x.req.isDone = true
  asked : x.req.cancelRequested = true → ∀ w ∈ x.asked, w ∈ x.pending ∨ w ∈ x.acked

structure Inv (s : State) : Prop where
  request : ∀ r, (s.reqs r).Ok
  owned : ∀ w r, (s.workers w).Has r → w ∈ (s.reqs r).owners
  mailed : ∀ w, ∀ msg ∈ (s.workers w).mail, msg.task = .add → ∀ r ∈ msg.requests,
    w ∈ (s.reqs r).owners
  cancels : ∀ w, ∀ msg ∈ (s.workers w).mail, msg.task = .cancel → ∀ r ∈ msg.requests,
    s.cancelRequested r = true
  pending : ∀ w r, s.cancelRequested r = true → (s.workers w).Has r → w ∈ (s.reqs r).pending
  releasing : ∀ w, ∀ r ∈ (s.workers w).releases,
    s.cancelRequested r = true ∧ r ∉ (s.workers w).held

variable {cfg : Config} {s t : State} {w r : Nat}

@[simp] theorem setWorker_workers_self (v : WorkerState) : (s.setWorker w v).workers w = v := by
  simp [State.setWorker]

theorem setWorker_workers_ne {w' : Nat} (v : WorkerState) (h : w' ≠ w) :
    (s.setWorker w v).workers w' = s.workers w' := by
  simp [State.setWorker, h]

@[simp] theorem setReq_workers (x : Tracked) : (s.setReq r x).workers = s.workers := rfl

@[simp] theorem setReq_reqs_self (x : Tracked) : (s.setReq r x).reqs r = x := by
  simp [State.setReq]

theorem setReq_reqs_ne {r' : Nat} (x : Tracked) (h : r' ≠ r) :
    (s.setReq r x).reqs r' = s.reqs r' := by
  simp [State.setReq, h]

variable {v : WorkerState} {x : Tracked} {msg : Message}

theorem forall_setWorker {P : Nat → WorkerState → Prop} (hw : P w v)
    (hother : ∀ w', P w' (s.workers w')) (w' : Nat) : P w' ((s.setWorker w v).workers w') := by
  by_cases h : w' = w
  · subst h
    rwa [setWorker_workers_self]
  · rw [setWorker_workers_ne v h]
    exact hother w'

theorem forall_setReq {P : Nat → Tracked → Prop} (hr : P r x)
    (hother : ∀ r', r' ≠ r → P r' (s.reqs r')) (r' : Nat) : P r' ((s.setReq r x).reqs r') := by
  by_cases h : r' = r
  · subst h
    rwa [setReq_reqs_self]
  · rw [setReq_reqs_ne x h]
    exact hother r' h

/-- A worker may let go of requests, may take one that it owns and whose
cancellation was not requested, and may get a message that may be sent to it. -/
theorem Inv.setWorker (h : Inv s) (hhas : ∀ r, v.Has r → (s.workers w).Has r ∨
      (w ∈ (s.reqs r).owners ∧ s.cancelRequested r = false))
    (hmail : ∀ msg ∈ v.mail, msg ∈ (s.workers w).mail ∨
      (msg.task = .add → ∀ r ∈ msg.requests, w ∈ (s.reqs r).owners) ∧
        (msg.task = .cancel → ∀ r ∈ msg.requests, s.cancelRequested r = true))
    (hreleases : ∀ r ∈ v.releases, s.cancelRequested r = true ∧ r ∉ v.held) :
    Inv (s.setWorker w v) where
  request := h.request
  owned := by
    refine forall_setWorker (P := fun w v => ∀ r, v.Has r → w ∈ (s.reqs r).owners) ?_ h.owned
    intro r hr
    rcases hhas r hr with hr | hr
    · exact h.owned w r hr
    · exact hr.1
  mailed := by
    refine forall_setWorker (P := fun w v => ∀ msg ∈ v.mail, msg.task = .add →
      ∀ r ∈ msg.requests, w ∈ (s.reqs r).owners) ?_ h.mailed
    exact fun msg hmsg => (hmail msg hmsg).elim (h.mailed w msg) And.left
  cancels := by
    refine forall_setWorker (P := fun _ v => ∀ msg ∈ v.mail, msg.task = .cancel →
      ∀ r ∈ msg.requests, s.cancelRequested r = true) ?_ h.cancels
    exact fun msg hmsg => (hmail msg hmsg).elim (h.cancels w msg) And.right
  pending := by
    refine forall_setWorker (P := fun w v => ∀ r, s.cancelRequested r = true → v.Has r →
      w ∈ (s.reqs r).pending) ?_ h.pending
    intro r hcancel hr
    rcases hhas r hr with hr | hr
    · exact h.pending w r hcancel hr
    · exact absurd (hr.2.symm.trans hcancel) (by decide)
  releasing := forall_setWorker
    (P := fun _ v => ∀ r ∈ v.releases, s.cancelRequested r = true ∧ r ∉ v.held) hreleases h.releasing

/-- A request may gain owners; once its cancellation is requested every worker
that has something of it has to acknowledge. -/
theorem Inv.setReq (h : Inv s) (hok : x.Ok) (howners : ∀ w ∈ (s.reqs r).owners, w ∈ x.owners)
    (hcancel : s.cancelRequested r = true → x.req.cancelRequested = true)
    (hpending : x.req.cancelRequested = true → ∀ w, (s.workers w).Has r → w ∈ x.pending) :
    Inv (s.setReq r x) := by
  have howners' : ∀ r' w, w ∈ (s.reqs r').owners → w ∈ ((s.setReq r x).reqs r').owners := by
    intro r' w
    exact forall_setReq (P := fun r' y => w ∈ (s.reqs r').owners → w ∈ y.owners) (howners w)
      (fun _ _ hw => hw) r'
  have hcancel' : ∀ r', s.cancelRequested r' = true → (s.setReq r x).cancelRequested r' = true := by
    exact forall_setReq (P := fun r' y => s.cancelRequested r' = true → y.req.cancelRequested = true)
      hcancel (fun _ _ hc => hc)
  refine ⟨?_, fun w r' hr => howners' r' w (h.owned w r' hr), ?_, ?_, ?_, ?_⟩
  · exact forall_setReq (P := fun _ y => y.Ok) hok fun r' _ => h.request r'
  · exact fun w msg hmsg htask r' hr => howners' r' w (h.mailed w msg hmsg htask r' hr)
  · exact fun w msg hmsg htask r' hr => hcancel' r' (h.cancels w msg hmsg htask r' hr)
  · intro w
    exact forall_setReq (P := fun r' y => y.req.cancelRequested = true → (s.workers w).Has r' →
      w ∈ y.pending) (fun hc => hpending hc w) (fun r' _ => h.pending w r')
  · exact fun w r' hr => ⟨hcancel' r' (h.releasing w r' hr).1, (h.releasing w r' hr).2⟩

theorem Inv.send (h : Inv s) (hadd : msg.task = .add → ∀ r ∈ msg.requests, w ∈ (s.reqs r).owners)
    (hcancel : msg.task = .cancel → ∀ r ∈ msg.requests, s.cancelRequested r = true) :
    Inv (s.send w msg) := by
  refine h.setWorker (fun r hr => .inl hr) (fun m hm => ?_) (h.releasing w)
  have hm : m ∈ (s.workers w).mail ∨ m = msg := by
    unfold WorkerState.mail at hm ⊢
    dsimp only at hm
    split at hm <;> simp at hm ⊢ <;> tauto
  rcases hm with hm | rfl
  · exact .inl hm
  · exact .inr ⟨hadd, hcancel⟩

/-! ## Steps that keep the invariant and leave cancelled requests alone -/

structure Keeps (s t : State) : Prop where
  inv : Inv t
  settled : ∀ r, (s.reqs r).cancelledAt ≠ none →
    (t.reqs r).req = (s.reqs r).req ∧ (t.reqs r).cancelledAt = (s.reqs r).cancelledAt

theorem Keeps.refl (h : Inv s) : Keeps s s := ⟨h, fun _ _ => ⟨rfl, rfl⟩⟩

theorem Keeps.trans {u : State} (h : Keeps s t) (h' : Keeps t u) : Keeps s u := by
  refine ⟨h'.inv, fun r hr => ?_⟩
  obtain ⟨hreq, hat⟩ := h.settled r hr
  obtain ⟨hreq', hat'⟩ := h'.settled r (hat ▸ hr)
  exact ⟨hreq'.trans hreq, hat'.trans hat⟩

theorem Keeps.of_reqs (h : Inv t) (hreqs : t.reqs = s.reqs) : Keeps s t :=
  ⟨h, fun r _ => by rw [hreqs]; exact ⟨rfl, rfl⟩⟩

/-- A worker lets go of requests, or moves them between its queues. -/
structure WorkerState.Shrinks (v v' : WorkerState) : Prop where
  held : ∀ r ∈ v'.held, r ∈ v.held
  blocks : ∀ r ∈ v'.blocks, v.Has r := by exact fun _ hr => .inr hr
  mail : ∀ msg ∈ v'.mail, msg ∈ v.mail := by exact fun _ hmsg => hmsg
  releases : ∀ r ∈ v'.releases, r ∈ v.releases := by exact fun _ hr => hr

theorem Keeps.shrink (h : Keeps s t) (hv : (t.workers w).Shrinks v) :
    Keeps s (t.setWorker w v) := by
  refine h.trans (.of_reqs (h.inv.setWorker ?_ (fun msg hmsg => .inl (hv.mail msg hmsg)) ?_) rfl)
  · rintro r (hr | hr)
    · exact .inl (.inl (hv.held r hr))
    · exact .inl (hv.blocks r hr)
  · intro r hr
    obtain ⟨hcancel, hr⟩ := h.inv.releasing w r (hv.releases r hr)
    exact ⟨hcancel, mt (hv.held r) hr⟩

theorem Keeps.setReq (h : Inv (s.setReq r x)) (hsettled : (s.reqs r).cancelledAt ≠ none →
      x.req = (s.reqs r).req ∧ x.cancelledAt = (s.reqs r).cancelledAt) : Keeps s (s.setReq r x) :=
  ⟨h, forall_setReq (P := fun r' y => (s.reqs r').cancelledAt ≠ none →
    y.req = (s.reqs r').req ∧ y.cancelledAt = (s.reqs r').cancelledAt) hsettled
    fun _ _ _ => ⟨rfl, rfl⟩⟩

theorem Keeps.foldl {α : Type} {f : State → α → State}
    (hf : ∀ s a, Inv s → Keeps s (f s a)) : ∀ (actions : List α) {s : State}, Inv s →
    Keeps s (actions.foldl f s)
  | [], _, h => .refl h
  | a :: rest, s, h => (hf s a h).trans (Keeps.foldl hf rest (hf s a h).inv)

theorem Inv.unsettled (h : Inv s) (hhas : (s.workers w).Has r) : (s.reqs r).cancelledAt = none := by
  by_contra hat
  obtain ⟨hcancel, hpending⟩ := (h.request r).acknowledged hat
  have hmem := h.pending w r hcancel hhas
  rw [hpending] at hmem
  cases hmem

theorem Inv.setPosition (h : Inv s) (hhas : (s.workers w).Has r) {q : Request}
    (hdone : (s.reqs r).req.isDone = true → q.isDone = true)
    (hcancel : q.cancelRequested = (s.reqs r).req.cancelRequested) :
    Keeps s (s.setReq r { s.reqs r with req := q }) := by
  have hok := h.request r
  have hnone := h.unsettled hhas
  refine .setReq (h.setReq ⟨?_, fun hc => hdone (hok.completed hc), ?_⟩ (fun _ hw => hw) ?_ ?_) ?_
  · exact fun hc => absurd hnone hc
  · exact fun hc => hok.asked (hcancel.symm.trans hc)
  · exact fun hc => hcancel.trans hc
  · exact fun hc w' => h.pending w' r (hcancel.symm.trans hc)
  · exact fun hat => absurd hnone hat

/-! ## Messages and owners -/

theorem Tracked.Ok.addOwner (h : x.Ok) (w : Nat) : (x.addOwner w).Ok := by
  unfold Tracked.addOwner
  split
  · exact h
  · exact ⟨h.1, h.2, h.3⟩

theorem addOwner_spec (x : Tracked) (w : Nat) :
    (x.addOwner w).req = x.req ∧ (x.addOwner w).cancelledAt = x.cancelledAt ∧
    (x.addOwner w).pending = x.pending ∧ w ∈ (x.addOwner w).owners ∧
    ∀ v ∈ x.owners, v ∈ (x.addOwner w).owners := by
  unfold Tracked.addOwner
  split
  · exact ⟨rfl, rfl, rfl, ‹_›, fun _ hv => hv⟩
  · exact ⟨rfl, rfl, rfl, by simp, fun v hv => by simp [hv]⟩

theorem Inv.addOwner (h : Inv s) (w r : Nat) : Keeps s (s.setReq r ((s.reqs r).addOwner w)) := by
  obtain ⟨hreq, hat, hpending, -, howners⟩ := addOwner_spec (s.reqs r) w
  refine .setReq (h.setReq ((h.request r).addOwner w) howners ?_ ?_) fun _ => ⟨hreq, hat⟩
  · exact fun hc => (congrArg Request.cancelRequested hreq).trans hc
  · intro hc w' hhas
    rw [hpending]
    exact h.pending w' r ((congrArg Request.cancelRequested hreq).symm.trans hc) hhas

theorem addOwners_owners (w : Nat) : ∀ (requests : List Nat) (s : State),
    (∀ r v, v ∈ (s.reqs r).owners → v ∈ ((s.addOwners w requests).reqs r).owners) ∧
    ∀ r ∈ requests, w ∈ ((s.addOwners w requests).reqs r).owners
  | [], _ => ⟨fun _ _ hv => hv, fun _ hr => nomatch hr⟩
  | q :: rest, s => by
    obtain ⟨hkeep, hall⟩ := addOwners_owners w rest (s.setReq q ((s.reqs q).addOwner w))
    have hfirst : ∀ r v, v ∈ (s.reqs r).owners →
        v ∈ ((s.setReq q ((s.reqs q).addOwner w)).reqs r).owners := by
      intro r v
      exact forall_setReq (P := fun r y => v ∈ (s.reqs r).owners → v ∈ y.owners)
        ((addOwner_spec (s.reqs q) w).2.2.2.2 v) (fun _ _ hv => hv) r
    refine ⟨fun r v hv => hkeep r v (hfirst r v hv), ?_⟩
    intro r hr
    rcases mem_cons.mp hr with rfl | hr
    · apply hkeep
      rw [setReq_reqs_self]
      exact (addOwner_spec (s.reqs r) w).2.2.2.1
    · exact hall r hr

theorem Inv.sendAdd (h : Inv s) (w : Nat) (requests : List Nat) :
    Keeps s (s.sendAdd w requests) := by
  have hkeeps : Keeps s (s.addOwners w requests) :=
    Keeps.foldl (fun _ r hs => hs.addOwner w r) requests h
  refine hkeeps.trans (.of_reqs (hkeeps.inv.send ?_ nofun) rfl)
  exact fun _ => (addOwners_owners w requests s).2

theorem Inv.sendAdds (h : Inv s) (batches : List (Nat × List Nat)) :
    Keeps s (s.sendAdds batches) :=
  Keeps.foldl (fun _ b hs => hs.sendAdd b.1 b.2) batches h

/-! ## Acknowledgements -/

theorem Tracked.Ok.settle (h : x.Ok) (hcancel : x.req.cancelRequested = true)
    (now : Nat) : (x.settle now).Ok := by
  unfold Tracked.settle
  split
  · exact h
  · rename_i hsettle
    simp only [not_or, not_not] at hsettle
    exact ⟨fun _ => ⟨hcancel, hsettle.1⟩, h.completed, h.asked⟩

theorem settle_spec (x : Tracked) (now : Nat) :
    (x.settle now).owners = x.owners ∧ (x.settle now).pending = x.pending ∧
    (x.settle now).req.cancelRequested = x.req.cancelRequested ∧
    (x.cancelledAt ≠ none → (x.settle now).req = x.req ∧ (x.settle now).cancelledAt = x.cancelledAt) := by
  unfold Tracked.settle
  split
  · exact ⟨rfl, rfl, rfl, fun _ => ⟨rfl, rfl⟩⟩
  · rename_i hsettle
    simp only [not_or, not_not, Bool.not_eq_true, isSome_eq_false_iff,
      isNone_iff_eq_none] at hsettle
    exact ⟨rfl, rfl, rfl, fun hat => absurd hsettle.2 hat⟩

/-- A worker that has nothing of a request acknowledges its cancellation. -/
theorem Inv.acknowledge (h : Inv s) (hhas : ¬ (s.workers w).Has r) :
    Keeps s (s.setReq r ((s.reqs r).acknowledgeCancel s.now (some w))) := by
  have hok := h.request r
  unfold Tracked.acknowledgeCancel
  split
  · rename_i hcancel
    dsimp only
    obtain ⟨howners, hpending, hsame, hsettled⟩ := settle_spec { s.reqs r with
      pending := (s.reqs r).pending.filter (· ≠ w), acked := (s.reqs r).acked ++ [w] } s.now
    have hok' : ({ s.reqs r with
        pending := (s.reqs r).pending.filter (· ≠ w)
        acked := (s.reqs r).acked ++ [w] } : Tracked).Ok := by
      refine ⟨fun hat => ⟨hcancel, ?_⟩, hok.completed, fun _ v hv => ?_⟩
      · simp [(hok.acknowledged hat).2]
      · rcases hok.asked hcancel v hv with hv | hv
        · by_cases hvw : v = w
          · exact .inr (by simp [hvw])
          · exact .inl (by simp [hv, hvw])
        · exact .inr (by simp [hv])
    refine .setReq (h.setReq (hok'.settle hcancel s.now) ?_ (fun _ => hsame.trans hcancel) ?_) hsettled
    · intro v hv
      rw [howners]
      exact hv
    · intro _ v hv
      rw [hpending]
      have hne : v ≠ w := fun hvw => hhas (hvw ▸ hv)
      simp [h.pending v r hcancel hv, hne]
  · exact .setReq (h.setReq hok (fun _ hv => hv) (fun hc => hc) fun hc v => h.pending v r hc)
      fun _ => ⟨rfl, rfl⟩

/-- The cancellation of a request is asked of all its owners. -/
theorem Inv.cancel (h : Inv s) (r : Nat) : Keeps s (s.cancel r) := by
  unfold State.cancel
  split
  · exact .refl h
  · rename_i hlive
    simp only [Bool.or_eq_true, not_or, Bool.not_eq_true] at hlive
    have hok := h.request r
    have hx : (s.reqs r).requestCancel = { s.reqs r with
        req := { (s.reqs r).req with cancelRequested := true, status := .cancelPending }
        pending := (s.reqs r).owners
        asked := (s.reqs r).owners } := by
      simp [Tracked.requestCancel, hlive]
    have hnone : (s.reqs r).cancelledAt = none := by
      by_contra hat
      have := (hok.acknowledged hat).1
      rw [hlive.2] at this
      cases this
    have hdone : (s.reqs r).completedAt = none := by
      by_contra hat
      have := hok.completed hat
      rw [hlive.1] at this
      cases this
    obtain ⟨hok', hcancel, hpend, howners⟩ : ((s.reqs r).requestCancel).Ok ∧
        ((s.reqs r).requestCancel).req.cancelRequested = true ∧
        ((s.reqs r).requestCancel).pending = (s.reqs r).owners ∧
        ((s.reqs r).requestCancel).owners = (s.reqs r).owners := by
      rw [hx]
      exact ⟨⟨fun hat => absurd hnone hat, fun hat => absurd hdone hat, fun _ v hv => .inl hv⟩,
        rfl, rfl, rfl⟩
    -- the request after the engine has acknowledged for it, if nobody owns it
    obtain ⟨y, hy, hyok, hycancel, hypend, hyowners⟩ : ∃ y,
        (if ((s.reqs r).requestCancel).pending = [] then
          ((s.reqs r).requestCancel).acknowledgeCancel s.now none else (s.reqs r).requestCancel) = y ∧
        y.Ok ∧ y.req.cancelRequested = true ∧ y.pending = (s.reqs r).owners ∧
        y.owners = (s.reqs r).owners := by
      refine ⟨_, rfl, ?_⟩
      split
      · obtain ⟨ho, hp, hc, -⟩ := settle_spec ((s.reqs r).requestCancel) s.now
        simp only [Tracked.acknowledgeCancel, hcancel, if_true]
        exact ⟨hok'.settle hcancel s.now, hc.trans hcancel, hp.trans hpend, ho.trans howners⟩
      · exact ⟨hok', hcancel, hpend, howners⟩
    dsimp only
    rw [hy]
    have hkeeps : Keeps s (s.setReq r y) := by
      refine .setReq (h.setReq hyok ?_ (fun _ => hycancel) ?_) fun hat => absurd hnone hat
      · rw [hyowners]
        exact fun _ hv => hv
      · intro _ v hv
        rw [hypend]
        exact h.owned v r hv
    -- the messages are sent with the request already marked
    have hsends : ∀ (ws : List Nat) (t : State), Inv t → t.cancelRequested r = true →
        Keeps t (ws.foldl (fun t w => t.send w ⟨.cancel, [r]⟩) t) := by
      intro ws
      induction ws with
      | nil => exact fun t ht _ => .refl ht
      | cons v rest ih =>
        intro t ht hc
        have hsend : Keeps t (t.send v ⟨.cancel, [r]⟩) := by
          refine .of_reqs (ht.send nofun ?_) rfl
          intro _ q hq
          rw [mem_singleton.mp hq]
          exact hc
        exact hsend.trans (ih _ hsend.inv hc)
    refine hkeeps.trans (hsends _ _ hkeeps.inv ?_)
    unfold State.cancelRequested
    rw [setReq_reqs_self]
    exact hycancel

/-! ## Steps of a worker -/

theorem queue_subset_mail : ∀ msg ∈ v.queue, msg ∈ v.mail := by
  intro msg hmsg
  unfold WorkerState.mail
  split
  · exact mem_cons_of_mem _ hmsg
  · exact hmsg

theorem Inv.schedule (h : Inv s) {m : State.Move} (hs : s.schedule w m = some t) : Keeps s t := by
  -- the blocks of a request that has been taken in
  have hnew : ∀ {r}, (s.workers w).Has r → ∀ q ∈ (s.workers w).blocks ++ [r], (s.workers w).Has q := by
    intro r hhas q hq
    rcases mem_append.mp hq with hq | hq
    · exact .inr hq
    · exact mem_singleton.mp hq ▸ hhas
  cases m with
  | admission r cached =>
    obtain ⟨hr, ⟨⟩⟩ := ite_none_right_eq_some.mp hs
    have hhas : (s.workers w).Has r := .inl (mem_held.mpr (.inr (.inl hr)))
    refine (h.setPosition hhas (q := (s.reqs r).req.startContextBuild cached) (fun hd => hd)
      rfl).shrink { held := fun q hq => ?_, blocks := hnew hhas }
    rw [setReq_workers]
    grind
  | load r =>
    obtain ⟨hr, ⟨⟩⟩ := ite_none_right_eq_some.mp hs
    refine (Keeps.refl h).shrink { held := fun q hq => ?_, blocks := hnew (.inl ?_) }
    · grind
    · exact mem_held.mpr (.inr (.inl hr))
  | resume r =>
    obtain ⟨hr, ⟨⟩⟩ := ite_none_right_eq_some.mp hs
    refine (Keeps.refl h).shrink { held := fun q hq => ?_ }
    grind
  | assign r tokens =>
    obtain ⟨hr, ⟨⟩⟩ := ite_none_right_eq_some.mp hs
    refine (h.setPosition (.inl (mem_held.mpr (.inl hr)))
      (q := { (s.reqs r).req with scheduledTokens := tokens }) (fun hd => hd) rfl).shrink
      { held := fun q hq => ?_, mail := queue_subset_mail (v := s.workers w) }
    rw [setReq_workers]
    grind [Activity.batch]
  | preempt r =>
    obtain ⟨hr, ⟨⟩⟩ := ite_none_right_eq_some.mp hs
    refine (h.setPosition (.inl (mem_held.mpr (.inl hr))) (q := (s.reqs r).req.prepareRecompute)
      (fun hd => hd) rfl).shrink
      { held := fun q hq => ?_, blocks := fun _ hq => .inr (mem_of_mem_filter hq) }
    rw [setReq_workers]
    grind

theorem Inv.scheduleAll (w : Nat) : ∀ (moves : List State.Move) {s t : State}, Inv s →
    moves.foldlM (fun (s : State) m => s.schedule w m) s = some t → Keeps s t
  | [], s, t, h, hs => by
    cases hs
    exact .refl h
  | m :: rest, s, t, h, hs => by
    rw [foldlM_cons] at hs
    obtain ⟨u, hu, hrest⟩ := bind_eq_some_iff.mp hs
    have hkeeps := h.schedule hu
    exact hkeeps.trans (Inv.scheduleAll w rest hkeeps.inv hrest)

/-- Only what the process of the worker does changes. -/
theorem Inv.setActivity (h : Inv s) {a : Activity} (status : WorkerStatus)
    (hbatch : ∀ r ∈ a.batch, r ∈ (s.workers w).activity.batch) (hmsg : ∀ msg, a ≠ .holding msg) :
    Keeps s (s.setWorker w { s.workers w with activity := a, status := status }) := by
  refine (Keeps.refl h).shrink { held := fun q hq => ?_, mail := ?_ }
  · grind
  · cases a with
    | holding msg => exact absurd rfl (hmsg msg)
    | idle | loading | computing | saving | stopped => exact queue_subset_mail (v := s.workers w)

theorem Inv.endStep (h : Inv s) (w : Nat) (running : List Nat) : Keeps s (s.endStep w running) :=
  h.setActivity _ (a := .idle) (fun _ hr => nomatch hr) nofun

theorem Inv.startCompute (h : Inv s) {batch : List Nat}
    (hbatch : ∀ r ∈ batch, r ∈ (s.workers w).activity.batch) : Keeps s (s.startCompute w batch) := by
  unfold State.startCompute
  dsimp only
  split
  · exact h.endStep w []
  · exact h.setActivity _ (a := .computing _)
      (fun r hr => hbatch r (mem_of_mem_filter hr)) nofun

theorem Inv.beginStep (h : Inv s) {moves : List State.Move} {blockingLoad : Bool}
    (hs : s.beginStep cfg w moves blockingLoad = some t) : Keeps s t := by
  unfold State.beginStep at hs
  split at hs
  · obtain ⟨u, hu, rfl⟩ := map_eq_some_iff.mp hs
    have hstart := h.setActivity (w := w) (s.workers w).status (a := .computing [])
      (fun _ hr => nomatch hr) nofun
    have hkeeps := hstart.trans (Inv.scheduleAll w moves hstart.inv hu)
    refine hkeeps.trans ?_
    dsimp only
    split
    · exact hkeeps.inv.setActivity .waiting (a := .idle) (fun _ hr => nomatch hr) nofun
    · split
      · exact hkeeps.inv.setActivity _ (a := .loading _)
          (fun r hr => mem_of_mem_filter hr) nofun
      · exact hkeeps.inv.startCompute fun r hr => mem_of_mem_filter hr
  · cases hs
    exact h.setActivity _ (a := .idle) (fun _ hr => nomatch hr) nofun

/-- An advance keeps what is known of a request, and does nothing to a cancelled
one. -/
theorem Inv.advance (h : Inv s) (r : Nat) : Keeps s (s.setReq r ((s.reqs r).advance s.now)) := by
  have hok := h.request r
  have hcancel := (s.reqs r).req.advance_frame.1.cancelRequested
  refine .setReq (h.setReq ⟨?_, ?_, ?_⟩ (fun _ hv => hv) ?_ ?_) ?_
  · exact fun hat => ⟨hcancel.trans (hok.acknowledged hat).1, (hok.acknowledged hat).2⟩
  · intro hat
    simp only [Tracked.advance] at hat ⊢
    split at hat
    · assumption
    · exact Request.advance_isDone (hok.completed hat)
  · exact fun hc => hok.asked (hcancel.symm.trans hc)
  · exact fun hc => hcancel.trans hc
  · exact fun hc v => h.pending v r (hcancel.symm.trans hc)
  · intro hat
    have hc := (hok.acknowledged hat).1
    exact ⟨by simp [Tracked.advance, Request.advance, hc], rfl⟩

theorem Inv.completeStep (h : Inv s) (w : Nat) (batch delayed : List Nat) :
    Keeps s (s.completeStep w batch delayed) := by
  have hkeeps : Keeps s (s.advanceAll batch) := Keeps.foldl (fun _ r hs => hs.advance r) batch h
  refine hkeeps.shrink {
    held := fun q hq => ?_
    blocks := fun q hq => .inr (mem_of_mem_filter hq)
    mail := queue_subset_mail (v := (s.advanceAll batch).workers w) }
  grind [Activity.batch]

theorem Inv.handOver (h : Inv s) (w : Nat) (completed : List Nat) (batches : List (Nat × List Nat)) :
    Keeps s (s.handOver w completed batches) := by
  have hkeeps : Keeps s (s.setWorker w { s.workers w with
      sched := { (s.workers w).sched with
        running := (s.workers w).sched.running.filter (· ∉ completed) }
      blocks := (s.workers w).blocks.filter (· ∉ completed) }) := by
    refine (Keeps.refl h).shrink
      { held := fun q hq => ?_, blocks := fun _ hq => .inr (mem_of_mem_filter hq) }
    grind
  exact hkeeps.trans (hkeeps.inv.sendAdds batches)

theorem Inv.finishStep (h : Inv s) {batches : List (Nat × List Nat)}
    (hs : s.finishStep cfg w batches = some t) : Keeps s t := by
  unfold State.finishStep at hs
  generalize (if cfg.prefillRole w then
    (s.workers w).sched.running.filter fun r => !(s.reqs r).req.isContextBuild else []) = completed at hs
  dsimp only at hs
  obtain ⟨-, ⟨⟩⟩ := ite_none_right_eq_some.mp hs
  have hkeeps := h.handOver w completed batches
  exact hkeeps.trans (hkeeps.inv.endStep w _)

/-! ## Cancellation at a worker -/

/-- The worker lets go of the request; it acknowledges at once, or when the
connector has released the blocks. -/
theorem Inv.cancelAt (h : Inv s) (hidle : (s.workers w).activity = .idle)
    (hcancel : s.cancelRequested r = true) (delayed : Bool) :
    Keeps s (s.cancelAt w r delayed) ∧ ((s.cancelAt w r delayed).workers w).activity = .idle := by
  -- the queues without the request
  have hheld : ∀ v : WorkerState, v.activity = .idle →
      v.sched = (s.workers w).sched.cancelRequest r → ∀ q ∈ v.held, q ≠ r ∧ q ∈ (s.workers w).held := by
    intro v hv hsched q hq
    simp only [mem_held, hv, hsched, Scheduler.cancelRequest, Activity.batch, mem_filter,
      decide_eq_true_eq, not_mem_nil, or_false] at hq
    grind
  -- whichever way the connector answered
  have hcase : ∀ v : WorkerState, v.activity = (s.workers w).activity →
      v.sched = (s.workers w).sched.cancelRequest r → v.queue = (s.workers w).queue →
      (∀ q ∈ v.blocks, q ∈ (s.workers w).blocks) → v.releases = (s.workers w).releases →
      Keeps s (if r ∈ v.blocks then s.setWorker w { v with releases := v.releases ++ [r] }
        else (s.setWorker w v).setReq r ((s.reqs r).acknowledgeCancel s.now (some w))) ∧
      ((if r ∈ v.blocks then s.setWorker w { v with releases := v.releases ++ [r] }
        else (s.setWorker w v).setReq r
          ((s.reqs r).acknowledgeCancel s.now (some w))).workers w).activity = .idle := by
    intro v hact hsched hqueue hblocks hreleases
    have hself : r ∉ v.held := fun hr => (hheld v (hact.trans hidle) hsched r hr).1 rfl
    have hother := fun q hq => (hheld v (hact.trans hidle) hsched q hq).2
    have hmail : v.mail = (s.workers w).mail := by simp [WorkerState.mail, hact, hqueue]
    have hhas : ∀ q, v.Has q → (s.workers w).Has q ∨
        (w ∈ (s.reqs q).owners ∧ s.cancelRequested q = false) := by
      rintro q (hq | hq)
      · exact .inl (.inl (hother q hq))
      · exact .inl (.inr (hblocks q hq))
    have hold : ∀ q ∈ v.releases, s.cancelRequested q = true ∧ q ∉ v.held := by
      intro q hq
      obtain ⟨hc, hq⟩ := h.releasing w q (hreleases ▸ hq)
      exact ⟨hc, mt (hother q) hq⟩
    split
    · refine ⟨.of_reqs (h.setWorker (v := { v with releases := v.releases ++ [r] }) hhas
        (fun _ hm => .inl (hmail ▸ hm)) fun q hq => ?_) rfl, ?_⟩
      · rcases mem_append.mp hq with hq | hq
        · exact hold q hq
        · cases mem_singleton.mp hq
          exact ⟨hcancel, hself⟩
      · rw [setWorker_workers_self]
        exact hact.trans hidle
    · rename_i hr
      have hkeeps : Keeps s (s.setWorker w v) :=
        .of_reqs (h.setWorker hhas (fun _ hm => .inl (hmail ▸ hm)) hold) rfl
      have hnot : ¬ ((s.setWorker w v).workers w).Has r := by
        rw [setWorker_workers_self]
        exact not_or.mpr ⟨hself, hr⟩
      refine ⟨hkeeps.trans (hkeeps.inv.acknowledge hnot), ?_⟩
      rw [setReq_workers, setWorker_workers_self]
      exact hact.trans hidle
  unfold State.cancelAt
  cases delayed with
  | true => exact hcase _ rfl rfl rfl (fun _ hq => hq) rfl
  | false => exact hcase _ rfl rfl rfl (fun _ hq => mem_of_mem_filter hq) rfl

theorem cancelAt_cancelRequested (s : State) (w r : Nat) (delayed : Bool) (q : Nat) :
    (s.cancelAt w r delayed).cancelRequested q = s.cancelRequested q := by
  unfold State.cancelAt State.cancelRequested
  dsimp only
  generalize (if delayed = true then _ else _ : WorkerState) = v
  split
  · rfl
  · refine forall_setReq (P := fun q y => y.req.cancelRequested = (s.reqs q).req.cancelRequested) ?_
      (fun _ _ => rfl) q
    unfold Tracked.acknowledgeCancel
    split
    · exact (settle_spec _ s.now).2.2.1
    · rfl

theorem Inv.cancelAll (w : Nat) (delayed : List Nat) : ∀ (requests : List Nat) {s : State}, Inv s →
    (s.workers w).activity = .idle → (∀ r ∈ requests, s.cancelRequested r = true) →
    Keeps s (s.cancelAll w delayed requests)
  | [], _, h, _, _ => .refl h
  | r :: rest, s, h, hidle, hcancel => by
    obtain ⟨hkeeps, hidle'⟩ := h.cancelAt hidle (hcancel r mem_cons_self) (r ∈ delayed)
    refine hkeeps.trans (Inv.cancelAll w delayed rest hkeeps.inv hidle' fun q hq => ?_)
    rw [cancelAt_cancelRequested]
    exact hcancel q (mem_cons_of_mem _ hq)

/-- Requests are taken in by their owner, unless their cancellation came first. -/
theorem Inv.add (h : Inv s) {requests : List Nat} (howners : ∀ r ∈ requests, w ∈ (s.reqs r).owners) :
    Keeps s (s.setWorker w { s.workers w with
      activity := .idle
      status := .running
      sched := (s.workers w).sched.addRequests s.cancelRequested requests }) := by
  have hnew : ∀ q, q ∈ ((s.workers w).sched.addRequests s.cancelRequested requests).waiting →
      q ∈ (s.workers w).sched.waiting ∨ (q ∈ requests ∧ s.cancelRequested q = false) := by
    intro q hq
    simpa [Scheduler.addRequests] using hq
  have hheld : ∀ q, q ∈ held { s.workers w with
      activity := .idle
      status := .running
      sched := (s.workers w).sched.addRequests s.cancelRequested requests } →
      q ∈ (s.workers w).held ∨ (q ∈ requests ∧ s.cancelRequested q = false) := by
    intro q hq
    rw [mem_held] at hq ⊢
    rcases hq with hq | hq | hq | hq | hq
    · exact .inl (.inl hq)
    · exact (hnew q hq).imp_left fun hq => .inr (.inl hq)
    · exact .inl (.inr (.inr (.inl hq)))
    · exact .inl (.inr (.inr (.inr (.inl hq))))
    · cases hq
  refine .of_reqs (h.setWorker ?_ (fun m hm => .inl (queue_subset_mail m hm)) fun q hq => ?_) rfl
  · rintro q (hq | hq)
    · exact (hheld q hq).imp .inl fun hq => ⟨howners q hq.1, hq.2⟩
    · exact .inl (.inr hq)
  · obtain ⟨hc, hfree⟩ := h.releasing w q hq
    refine ⟨hc, fun hmem => ?_⟩
    rcases hheld q hmem with hmem | hmem
    · exact hfree hmem
    · exact absurd (hmem.2.symm.trans hc) (by decide)

theorem Inv.handle (h : Inv s) (hheld : (s.workers w).activity = .holding msg)
    {moves : List State.Move} {blockingLoad : Bool} {delayed : List Nat}
    (hs : s.handle cfg w msg moves blockingLoad delayed = some t) : Keeps s t := by
  have hmail : msg ∈ (s.workers w).mail := by simp [WorkerState.mail, hheld]
  unfold State.handle at hs
  dsimp only at hs
  cases htask : msg.task with
  | add =>
    simp only [htask] at hs
    split at hs <;> cases hs
    · exact h.setActivity _ (a := .idle) (fun _ hr => nomatch hr) nofun
    · exact h.add (h.mailed w msg hmail htask)
  | step =>
    simp only [htask] at hs
    exact h.beginStep hs
  | stop =>
    simp only [htask] at hs
    cases hs
    exact h.setActivity _ (a := .stopped) (fun _ hr => nomatch hr) nofun
  | cancel =>
    simp only [htask] at hs
    cases hs
    have hidle := h.setActivity (w := w) (s.workers w).status (a := .idle) (fun _ hr => nomatch hr) nofun
    have hkeeps := hidle.trans (Inv.cancelAll w delayed msg.requests hidle.inv
      (by rw [setWorker_workers_self]) (h.cancels w msg hmail htask))
    exact hkeeps.trans (hkeeps.inv.endStep w _)

/-- A load that ends makes its request wait for a step, unless it is to be
cancelled. -/
theorem Inv.loadDone (h : Inv s) (w r boundary : Nat) : Keeps s (s.loadDone w r boundary) := by
  unfold State.loadDone
  dsimp only
  split
  · refine (Keeps.refl h).shrink { held := fun q hq => ?_ }
    grind
  · rename_i hlive
    split
    · rename_i hr
      have hhas : (s.workers w).Has r := .inr hr
      have hkeeps := h.setPosition hhas (q := (s.reqs r).req.startContextBuild boundary)
        (fun hd => hd) rfl
      have hcancel : ∀ q, (s.setReq r { s.reqs r with
          req := (s.reqs r).req.startContextBuild boundary }).cancelRequested q =
          s.cancelRequested q := by
        exact forall_setReq (P := fun q y => y.req.cancelRequested = s.cancelRequested q) rfl
          fun _ _ => rfl
      have hheld : ∀ q, q ∈ held { s.workers w with
          sched := { (s.workers w).sched with
            loadedWaiting := (s.workers w).sched.loadedWaiting ++ [r] } } →
          q ∈ (s.workers w).held ∨ q = r := by
        intro q hq
        grind
      refine hkeeps.trans (.of_reqs (hkeeps.inv.setWorker ?_ (fun _ hm => .inl hm) fun q hq => ?_) rfl)
      · rintro q (hq | hq)
        · rcases hheld q hq with hq | rfl
          · exact .inl (.inl hq)
          · exact .inl hhas
        · exact .inl (.inr hq)
      · obtain ⟨hc, hfree⟩ := h.releasing w q hq
        refine ⟨(hcancel q).trans hc, fun hmem => ?_⟩
        rcases hheld q hmem with hmem | rfl
        · exact hfree hmem
        · exact hlive hc
    · exact (Keeps.refl h).shrink { held := fun _ hq => hq }

/-! ## Every event -/

theorem takeFirst_mem {task : Task} {msg : Message} : ∀ {queue rest : List Message},
    takeFirst task queue = some (msg, rest) → msg ∈ queue ∧ ∀ m ∈ rest, m ∈ queue
  | [], _, h => nomatch h
  | m :: queue, rest, h => by
    rw [takeFirst] at h
    split at h
    · cases h
      exact ⟨mem_cons_self .., fun _ hm => mem_cons_of_mem _ hm⟩
    · obtain ⟨found, hfound, heq⟩ := map_eq_some_iff.mp h
      cases heq
      obtain ⟨hmsg, hrest⟩ := takeFirst_mem hfound
      refine ⟨mem_cons_of_mem _ hmsg, fun m' hm' => ?_⟩
      rcases mem_cons.mp hm' with rfl | hm'
      · exact mem_cons_self ..
      · exact mem_cons_of_mem _ (hrest m' hm')

theorem nextMessage_mem {queue rest : List Message}
    (h : nextMessage queue = some (msg, rest)) : msg ∈ queue ∧ ∀ m ∈ rest, m ∈ queue := by
  simp only [nextMessage, orElse_eq_some] at h
  rcases h with h | ⟨-, h | ⟨-, h | ⟨-, h⟩⟩⟩ <;> exact takeFirst_mem h

theorem Inv.take (h : Inv s) {rest : List Message}
    (hnext : nextMessage (s.workers w).queue = some (msg, rest)) :
    Keeps s (s.setWorker w { s.workers w with activity := .holding msg, queue := rest }) := by
  obtain ⟨hmsg, hrest⟩ := nextMessage_mem hnext
  refine (Keeps.refl h).shrink { held := fun q hq => ?_, mail := ?_ }
  · grind [Activity.batch]
  · intro m hm
    apply queue_subset_mail
    exact forall_mem_cons.mpr ⟨hmsg, hrest⟩ m hm

theorem Inv.step {e : State.Event} (h : Inv s) (hs : s.step cfg e = some t) : Keeps s t := by
  cases e with
  | pass | submit =>
    cases hs
    exact .of_reqs { h with } rfl
  | place batches =>
    simp only [State.step, State.place] at hs
    split at hs
    · cases hs
    · rename_i requests rest hinbox
      split at hs <;> cases hs
      have hkeeps : Keeps s { s with inbox := rest } := .of_reqs { h with } rfl
      exact hkeeps.trans (hkeeps.inv.sendAdds batches)
  | cancel r =>
    cases hs
    exact h.cancel r
  | wake w | stop w =>
    cases hs
    exact .of_reqs (h.send nofun nofun) rfl
  | take w =>
    simp only [State.step] at hs
    split at hs <;> cases hs
    exact h.take ‹_›
  | handle w moves blockingLoad delayed =>
    simp only [State.step] at hs
    split at hs
    · exact h.handle ‹_› hs
    · cases hs
  | loadsOver w =>
    simp only [State.step] at hs
    split at hs <;> cases hs
    rename_i batch hbatch
    exact h.startCompute fun r hr => by simpa [hbatch, Activity.batch] using hr
  | computed w delayed =>
    simp only [State.step] at hs
    split at hs <;> cases hs
    exact h.completeStep w _ delayed
  | saved w batches => exact h.finishStep (ite_none_right_eq_some.mp hs).2
  | loadDone w r boundary =>
    obtain ⟨-, ⟨⟩⟩ := ite_none_right_eq_some.mp hs
    exact h.loadDone w r boundary
  | released w r =>
    obtain ⟨-, ⟨⟩⟩ := ite_none_right_eq_some.mp hs
    refine (Keeps.refl h).shrink
      { held := fun q hq => ?_, blocks := fun _ hq => .inr (mem_of_mem_filter hq) }
    grind
  | acknowledge w r =>
    obtain ⟨hready, ⟨⟩⟩ := ite_none_right_eq_some.mp hs
    have hfree := (h.releasing w r hready.1).2
    have hkeeps : Keeps s (s.setWorker w { s.workers w with
        releases := (s.workers w).releases.erase r }) :=
      (Keeps.refl h).shrink { held := fun _ hq => hq, releases := fun _ hq => mem_of_mem_erase hq }
    refine hkeeps.trans (hkeeps.inv.acknowledge (w := w) ?_)
    rw [setWorker_workers_self]
    exact not_or.mpr ⟨hfree, hready.2⟩

/-! ## Every run -/

theorem inv_initial {requests : Nat → Request} (hfresh : ∀ r, (requests r).cancelRequested = false) :
    Inv (initial requests) where
  request r := ⟨fun hat => absurd rfl hat, fun hat => absurd rfl hat, fun hc =>
    absurd ((hfresh r).symm.trans hc) (by decide)⟩
  owned w r hr := by
    rcases hr with hr | hr
    · cases hr
    · cases hr
  mailed w msg hmsg := nomatch hmsg
  cancels w msg hmsg := nomatch hmsg
  pending w r hc := absurd ((hfresh r).symm.trans hc) (by decide)
  releasing w r hr := nomatch hr

/-- The invariant holds in every run, and a cancelled request stays as it is. -/
theorem keeps_of_reaches (h : Inv s) (hrun : Reaches (State.step cfg) (fun _ _ => True) s t) :
    Keeps s t :=
  hrun.invariant (P := Keeps s) (.refl h) fun hkeeps _ hs => hkeeps.trans (hkeeps.inv.step hs)

/-- When a request is cancelled, every worker that owned it when the cancellation
was requested has acknowledged, and it has not completed.  From then on the time
of its cancellation and its progress are fixed, no queue and no batch of a worker
has it, and no block manager holds blocks for it. -/
theorem cancellation_protocol (cfg : Config) (requests : Nat → Request)
    (hfresh : ∀ r, (requests r).cancelRequested = false) (s : State)
    (hrun : Reaches (State.step cfg) (fun _ _ => True) (initial requests) s) (r : Nat)
    (hat : (s.reqs r).cancelledAt ≠ none) :
    (∀ w ∈ (s.reqs r).asked, w ∈ (s.reqs r).acked) ∧
    ∀ t, Reaches (State.step cfg) (fun _ _ => True) s t →
      (t.reqs r).cancelledAt = (s.reqs r).cancelledAt ∧
      (t.reqs r).completedAt = none ∧
      (t.reqs r).req.generationIdx = (s.reqs r).req.generationIdx ∧
      (t.reqs r).req.numComputedTokens = (s.reqs r).req.numComputedTokens ∧
      ∀ w, r ∉ (t.workers w).sched.running ∧ r ∉ (t.workers w).sched.waiting ∧
        r ∉ (t.workers w).sched.loading ∧ r ∉ (t.workers w).sched.loadedWaiting ∧
        r ∉ (t.workers w).activity.batch ∧ r ∉ (t.workers w).blocks := by
  have hinv := (keeps_of_reaches (inv_initial hfresh) hrun).inv
  obtain ⟨hcancel, hpending⟩ := (hinv.request r).acknowledged hat
  refine ⟨fun w hw => ?_, fun t hlater => ?_⟩
  · rcases (hinv.request r).asked hcancel w hw with hw | hw
    · rw [hpending] at hw
      cases hw
    · exact hw
  · have hkeeps := keeps_of_reaches hinv hlater
    obtain ⟨hreq, hat'⟩ := hkeeps.settled r hat
    refine ⟨hat', ?_, by rw [hreq], by rw [hreq], fun w => ?_⟩
    · by_contra hdone
      have hisDone := (hkeeps.inv.request r).completed hdone
      rw [hreq] at hisDone
      simp [Request.isDone, hcancel] at hisDone
    · have hnot : ¬ (t.workers w).Has r := fun hhas =>
        (hat' ▸ hat) (hkeeps.inv.unsettled hhas)
      simpa only [Has, mem_held, not_or, and_assoc] using hnot

/-- A prefill worker `0` and a decode worker `1`. -/
def pairConfig : Config where
  prefillRole w := w = 0
  asyncOffload _ := false
  refuses _ _ := false

/-- A prompt that is computed and handed over; its cancellation is requested
while the saves of the prefill step run, so that only the prefill worker is asked
and the decode worker refuses the request. -/
def cancelledInSave : List State.Event :=
  [.submit [5], .place [(0, [5])], .take 0, .handle 0 [] false [], .wake 0, .take 0,
    .handle 0 [.admission 5 0, .assign 5 8] false [], .computed 0 [], .cancel 5, .saved 0 [(1, [5])],
    .take 1, .handle 1 [] false [], .take 0, .handle 0 [] false []]

theorem cancellation_protocol_in_save : ∃ s : State,
    Reaches (State.step pairConfig) (fun _ _ => True)
      (initial fun r => { id := r, prefillLen := 8, decodeLen := 4, blockSize := 4, cacheIdentity := r })
      s ∧
    (s.reqs 5).cancelledAt ≠ none ∧ (s.reqs 5).asked = [0] ∧ (s.reqs 5).acked = [0] ∧
    5 ∉ (s.workers 1).sched.waiting := by
  obtain ⟨s, hrun, hat, hasked, hacked⟩ := exists_reaches (State.step pairConfig) (fun _ _ => True)
    (initial fun r => { id := r, prefillLen := 8, decodeLen := 4, blockSize := 4, cacheIdentity := r })
    cancelledInSave
    (fun s => (s.reqs 5).cancelledAt ≠ none ∧ (s.reqs 5).asked = [0] ∧ (s.reqs 5).acked = [0])
    (by decide)
  have hlater := (cancellation_protocol pairConfig _ (fun _ => rfl) s hrun 5 hat).2 s (.refl s)
  exact ⟨s, hrun, hat, hasked, hacked, (hlater.2.2.2.2 1).2.1⟩

end TokenSim.Engine
