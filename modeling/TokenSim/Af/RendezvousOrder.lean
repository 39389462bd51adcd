import TokenSim.Af.Rendezvous
import TokenSim.Lib.Barrier

/-!
# Peers stay within one transaction of each other

The peers of a round meet in two barriers: at each stage, and at the end of the round
(`RoundInv`).  An iteration has entered no transaction but the one of the stage, and a
round whose predecessor is not complete has not started (`JobInv`).  Every call that
returns sets one iteration (`Puts`), and `Inv.put` says what is left to show of it.  From
the invariant follows that `finishStage` never finds a transaction out of order, and that
rounds complete one after the other.
-/

namespace TokenSim

open List Option
open Function (update update_of_ne update_self)

namespace Af

namespace NativeRendezvous

variable {s t : NativeRendezvous}

theorem check_eq_ok (h : s.failure = none) : s.check = .ok () := by
  unfold check
  split
  · rw [h]
  · rfl

theorem check_eq_error {text : String} (he : s.enabled = true) (h : s.failure = some text) :
    s.check = .error (.simulationState text) := by
  unfold check
  rw [if_pos he, h]

theorem transactionOf_eq_ok {block : AFBlock} {layer r o : Nat} {transaction : RoundTransaction}
    (h : s.failure = none) (hi : s.iterations block.iterationId = some (r, o))
    (hr : s.rounds r = some transaction) :
    s.transactionOf block layer =
      .ok (r, transaction, layer * transaction.phases.length + block.blockId) := by
  simp only [transactionOf, check_eq_ok h, hi, hr]
  rfl

/-- The stage is still open, or it was the last peer that has finished it. -/
theorem stageDone_cases (s : NativeRendezvous) (transaction : RoundTransaction) (o : Nat) :
    ((insert o transaction.stagePeers).card ≠ s.peers ∧ s.stageDone transaction o =
      { transaction with stagePeers := insert o transaction.stagePeers }) ∨
    ((insert o transaction.stagePeers).card = s.peers ∧ s.stageDone transaction o =
      { transaction with stage := transaction.stage + 1, stagePeers := ∅ }) := by
  simp only [stageDone]
  split
  · next hcard => exact .inr ⟨hcard, rfl⟩
  · next hcard => exact .inl ⟨hcard, rfl⟩

/-- The round is still open, or it was the last peer that has completed it. -/
theorem complete_cases {id r o : Nat} {transaction : RoundTransaction}
    (hi : s.iterations id = some (r, o)) (hr : s.rounds r = some transaction) :
    ((insert o transaction.finished).card ≠ s.peers ∧ (s.complete id).2 = { s with
      iterations := update s.iterations id none
      rounds := update s.rounds r
        (some { transaction with finished := insert o transaction.finished }) }) ∨
    ((insert o transaction.finished).card = s.peers ∧ (s.complete id).2 = { s with
      iterations := update s.iterations id none
      rounds := update s.rounds r none
      completedRound := r }) := by
  simp only [complete, hi, hr]
  split
  · next hcard => exact .inr ⟨hcard, rfl⟩
  · next hcard => exact .inl ⟨hcard, rfl⟩

/-- The three outcomes of a registration that finds no failure. -/
theorem register_cases (he : s.enabled = true) (h : s.failure = none) (iteration : AFIteration) :
    (iteration.blocks = [] ∧ s.register iteration = (.error .index, s)) ∨
    ∃ first ∈ iteration.blocks, ∃ transaction,
      (s.rounds (s.sequences first.aDpRank)).getD
        { phases := iteration.blocks.map AFBlock.forwardPhase, finished := ∅, stage := 0,
          stagePeers := ∅ } = transaction ∧
      ((∃ e text, s.register iteration = (.error e, { s with
          rounds := fun _ => none
          iterations := fun _ => none
          failure := some text })) ∨
        transaction.phases = iteration.blocks.map AFBlock.forwardPhase ∧
        s.register iteration = (.ok (), { s with
          rounds := update s.rounds (s.sequences first.aDpRank) (some transaction)
          iterations := update s.iterations iteration.iterationId
            (some (s.sequences first.aDpRank, first.aDpRank))
          sequences := update s.sequences first.aDpRank
            (s.sequences first.aDpRank + 1) })) := by
  cases hb : iteration.blocks with
  | nil =>
    left
    refine ⟨rfl, ?_⟩
    simp only [register, he, check_eq_ok h, hb, if_true]
  | cons first rest =>
    right
    refine ⟨first, mem_cons_self, _, rfl, ?_⟩
    simp only [register, check_eq_ok h, hb]
    rw [if_pos he]
    split
    · left
      exact ⟨_, _, by rw [abort, if_pos ⟨he, h⟩]⟩
    · next hphases =>
      right
      exact ⟨not_not.mp hphases, rfl⟩

end NativeRendezvous

namespace PeerSystem

variable {layers : Nat} {s t : PeerSystem}

/-- The peer has completed its iteration of the round. -/
def Done (s : PeerSystem) (owner round : Nat) : Prop :=
  ∃ job, s.jobs (owner, round) = some job ∧ job.done = true

/-- The transactions that a peer has finished in a round, none before it has registered. -/
def finishedIn (s : PeerSystem) (o r : Nat) : Nat :=
  (s.jobs (o, r)).elim 0 Job.next

/-- `Done`, as a position in a barrier. -/
def doneIn (s : PeerSystem) (o r : Nat) : Nat :=
  (s.jobs (o, r)).elim 0 fun job => job.done.toNat

/-- How a round that is under way stands: the peers meet at each stage, and at its end. -/
structure RoundInv (s : PeerSystem) (r : Nat) (transaction : RoundTransaction) : Prop where
  later : s.rendezvous.completedRound < r
  stage : Barrier s.rendezvous.peers (s.finishedIn · r) transaction.stage transaction.stagePeers
  finished : Barrier s.rendezvous.peers (s.doneIn · r) 0 transaction.finished

/-- The round has the phases of the job, and the job has entered no other transaction
than the one of the stage. -/
def Joins (job : Job) (transaction : RoundTransaction) : Prop :=
  transaction.phases = job.phases ∧ (job.entered = true → job.next = transaction.stage)

/-- How an iteration stands. -/
structure JobInv (s : PeerSystem) (o r : Nat) (job : Job) : Prop where
  nonempty : job.phases ≠ []
  live : job.done = false → s.rendezvous.iterations job.iterationId = some (r, o)
  opened : s.rendezvous.completedRound < r →
    ∃ transaction, s.rendezvous.rounds r = some transaction ∧ Joins job transaction
  turn : job.entered = true ∨ 0 < job.next → (r : Int) ≤ s.rendezvous.completedRound + 1
  earlier : job.done = true → s.EarlierDone o r

/-- A system without a failure. -/
structure Inv (s : PeerSystem) : Prop where
  enabled : s.rendezvous.enabled = true
  peers : 1 < s.rendezvous.peers
  counted : -1 ≤ s.rendezvous.completedRound
  registered : ∀ o r, s.jobs (o, r) ≠ none ↔
    o < s.rendezvous.peers ∧ r < s.rendezvous.sequences o
  known : ∀ id entry, s.rendezvous.iterations id = some entry → id < s.nextIterationId
  jobs : ∀ o r job, s.jobs (o, r) = some job → s.JobInv o r job
  rounds : ∀ r transaction, s.rendezvous.rounds r = some transaction → s.RoundInv r transaction
  past : ∀ r : Nat, (r : Int) ≤ s.rendezvous.completedRound → ∀ o < s.rendezvous.peers, s.Done o r

/-- A system that was aborted. -/
structure Failed (s : PeerSystem) : Prop where
  enabled : s.rendezvous.enabled = true
  iterations : ∀ id, s.rendezvous.iterations id = none
  rounds : ∀ r, s.rendezvous.rounds r = none

def Valid (s : PeerSystem) : Prop :=
  (s.rendezvous.failure = none → s.Inv) ∧ (s.rendezvous.failure ≠ none → s.Failed)

variable {job job' : Job} {o r o' r' : Nat} {call : Call} {transaction : RoundTransaction}

theorem finishedIn_eq (hj : s.jobs (o, r) = some job) : s.finishedIn o r = job.next := by
  rw [finishedIn, hj]
  rfl

theorem doneIn_eq (hj : s.jobs (o, r) = some job) : s.doneIn o r = job.done.toNat := by
  rw [doneIn, hj]
  rfl

theorem doneIn_eq_one : s.doneIn o r = 1 ↔ s.Done o r := by
  unfold doneIn Done
  cases s.jobs (o, r) <;> simp

theorem Job.ordinal (job : Job) (owner : Nat) :
    job.layer * job.phases.length + (job.block owner).blockId = job.next :=
  Nat.div_add_mod' job.next job.phases.length

section Running

variable (h : s.Inv) (hf : s.rendezvous.failure = none) (hj : s.jobs (o, r) = some job)
  (hd : job.done = false)
include h hj

theorem Inv.owner : o < s.rendezvous.peers :=
  ((h.registered o r).mp (by rw [hj]; exact some_ne_none _)).1

theorem Inv.joins (hr : s.rendezvous.rounds r = some transaction) : Joins job transaction := by
  obtain ⟨before, hbefore, hjoins⟩ := (h.jobs o r job hj).opened (h.rounds r _ hr).later
  rw [hr] at hbefore
  cases hbefore
  exact hjoins

include hd

theorem Inv.underWay :
    ∃ transaction, s.rendezvous.rounds r = some transaction ∧ Joins job transaction ∧
      s.RoundInv r transaction := by
  have hlater : s.rendezvous.completedRound < r := by
    by_contra hpast
    obtain ⟨job', hj', hd'⟩ := h.past r (not_lt.mp hpast) o (h.owner hj)
    rw [hj] at hj'
    cases hj'
    exact Bool.false_ne_true (hd.symm.trans hd')
  obtain ⟨transaction, hr, hjoins⟩ := (h.jobs o r job hj).opened hlater
  exact ⟨transaction, hr, hjoins, h.rounds r transaction hr⟩

include hf

theorem Inv.transactionOf (hr : s.rendezvous.rounds r = some transaction) :
    s.rendezvous.transactionOf (job.block o) job.layer = .ok (r, transaction, job.next) := by
  rw [NativeRendezvous.transactionOf_eq_ok hf ((h.jobs o r job hj).live hd) hr,
    (h.joins hj hr).1, Job.ordinal]

/-- Who may pass the router: the earlier rounds are complete, and the transaction is
the stage of its round. -/
theorem Inv.waitTurn_router (hr : s.rendezvous.rounds r = some transaction)
    (hpass : s.rendezvous.waitTurn (job.block o) job.layer "router" = .ok true) :
    (r : Int) ≤ s.rendezvous.completedRound + 1 ∧ job.next = transaction.stage := by
  have heq : s.rendezvous.waitTurn (job.block o) job.layer "router" =
      .ok !(decide ((r : Int) > s.rendezvous.completedRound + 1) ||
        (true && decide (job.next ≠ transaction.stage))) := by
    simp only [NativeRendezvous.waitTurn, h.transactionOf hf hj hd hr]
    rfl
  rw [heq] at hpass
  simpa using hpass

theorem Inv.finishStage (he : job.entered = true) :
    ∃ transaction, s.rendezvous.rounds r = some transaction ∧
      s.rendezvous.finishStage (job.block o) job.layer = .ok { s.rendezvous with
        rounds := update s.rendezvous.rounds r
          (some (s.rendezvous.stageDone transaction o)) } := by
  obtain ⟨transaction, hr, hjoins, hround⟩ := h.underWay hj hd
  have hstage := hjoins.2 he
  have hnot : o ∉ transaction.stagePeers :=
    (hround.stage.notMem_iff (h.owner hj)).mpr ((finishedIn_eq hj).trans hstage)
  refine ⟨transaction, hr, ?_⟩
  simp only [NativeRendezvous.finishStage, h.enabled, if_true, h.transactionOf hf hj hd hr]
  show (if job.next ≠ transaction.stage ∨ o ∈ transaction.stagePeers then _ else _) = _
  rw [if_neg (by tauto)]
  rfl

end Running

/-! ## A call that returns sets one iteration -/

/-- What the calls have in common: peer `o` has the iteration `job` in round `r`, and no
other round is touched. -/
structure Puts (s : PeerSystem) (o r : Nat) (job : Job) (t : PeerSystem) : Prop where
  jobs : t.jobs = update s.jobs (o, r) (some job)
  peers : t.rendezvous.peers = s.rendezvous.peers
  enabled : t.rendezvous.enabled = s.rendezvous.enabled
  failure : t.rendezvous.failure = s.rendezvous.failure
  iterations : t.rendezvous.iterations = update s.rendezvous.iterations job.iterationId
    (if job.done then none else some (r, o))
  rounds : ∀ r', r' ≠ r → t.rendezvous.rounds r' = s.rendezvous.rounds r'
  completed : s.rendezvous.completedRound ≤ t.rendezvous.completedRound
  later : ∀ r' : Nat, r' ≠ r → s.rendezvous.completedRound < r' → t.rendezvous.completedRound < r'

namespace Puts

variable (hp : Puts s o r job t)
include hp

theorem jobs_self : t.jobs (o, r) = some job := by
  rw [hp.jobs, update_self]

theorem jobs_of_ne (h : (o', r') ≠ (o, r)) : t.jobs (o', r') = s.jobs (o', r') := by
  rw [hp.jobs, update_of_ne h]

theorem jobs_other (h : o' ≠ o) : t.jobs (o', r') = s.jobs (o', r') :=
  hp.jobs_of_ne fun heq => h (congrArg Prod.fst heq)

/-- A round is not affected by what happens to the iterations of other rounds. -/
theorem roundInv (hr : r' ≠ r) (h : s.RoundInv r' transaction) : t.RoundInv r' transaction := by
  have hjobs : ∀ o', t.jobs (o', r') = s.jobs (o', r') := fun o' =>
    hp.jobs_of_ne fun heq => hr (congrArg Prod.snd heq)
  refine ⟨hp.later r' hr h.later, ?_, ?_⟩ <;> rw [hp.peers]
  · exact h.stage.congr fun o' _ => by simp only [finishedIn, hjobs]
  · exact h.finished.congr fun o' _ => by simp only [doneIn, hjobs]

/-- The stage does not change when no position does. -/
theorem stage {stage : Nat} {ahead : Finset Nat}
    (h : Barrier s.rendezvous.peers (s.finishedIn · r) stage ahead)
    (hsame : job.next = s.finishedIn o r) :
    Barrier t.rendezvous.peers (t.finishedIn · r) stage ahead := by
  rw [hp.peers]
  refine h.congr fun o' _ => ?_
  by_cases heq : o' = o
  · rw [heq, finishedIn_eq hp.jobs_self, hsame]
  · simp only [finishedIn, hp.jobs_other heq]

theorem finished {ahead : Finset Nat} (h : Barrier s.rendezvous.peers (s.doneIn · r) 0 ahead)
    (hsame : job.done.toNat = s.doneIn o r) :
    Barrier t.rendezvous.peers (t.doneIn · r) 0 ahead := by
  rw [hp.peers]
  refine h.congr fun o' _ => ?_
  by_cases heq : o' = o
  · rw [heq, doneIn_eq hp.jobs_self, hsame]
  · simp only [doneIn, hp.jobs_other heq]

variable (hold : ∀ old, s.jobs (o, r) = some old → old.done = false)
include hold

theorem done (hd : s.Done o' r') : t.Done o' r' := by
  obtain ⟨job', hj', hd'⟩ := hd
  have hne : (o', r') ≠ (o, r) := by
    rintro ⟨⟩
    exact Bool.false_ne_true ((hold job' hj').symm.trans hd')
  exact ⟨job', (hp.jobs_of_ne hne).trans hj', hd'⟩

theorem jobInv (h : s.JobInv o' r' job')
    (hid : job'.done = false → job'.iterationId ≠ job.iterationId)
    (hopened : t.rendezvous.completedRound < r' →
      ∃ transaction, t.rendezvous.rounds r' = some transaction ∧ Joins job' transaction) :
    t.JobInv o' r' job' where
  nonempty := h.nonempty
  live := fun hd => by
    rw [hp.iterations, update_of_ne (hid hd)]
    exact h.live hd
  opened := hopened
  turn := fun hturn => (h.turn hturn).trans (by have := hp.completed; omega)
  earlier := fun hd r'' hr'' => hp.done hold (h.earlier hd r'' hr'')

end Puts

/-- A call keeps the invariant, if it does for the iteration and the round it is about. -/
theorem Inv.put (h : s.Inv) (hp : Puts s o r job t)
    (hold : ∀ old, s.jobs (o, r) = some old → old.done = false)
    (hown : ∀ entry, s.rendezvous.iterations job.iterationId = some entry → entry = (r, o))
    (hnext : s.nextIterationId ≤ t.nextIterationId) (hid : job.iterationId < t.nextIterationId)
    (hsequences : ∀ o' r', o' < s.rendezvous.peers ∧ r' < t.rendezvous.sequences o' ↔
      (o', r') = (o, r) ∨ o' < s.rendezvous.peers ∧ r' < s.rendezvous.sequences o')
    (hjob : t.JobInv o r job)
    (hround : ∀ transaction, t.rendezvous.rounds r = some transaction → t.RoundInv r transaction)
    (hothers : t.rendezvous.completedRound < r → ∀ o' job', o' ≠ o → s.jobs (o', r) = some job' →
      ∃ transaction, t.rendezvous.rounds r = some transaction ∧ Joins job' transaction)
    (hpast : (r : Int) ≤ t.rendezvous.completedRound → ∀ o' < s.rendezvous.peers, t.Done o' r) :
    t.Inv where
  enabled := hp.enabled.trans h.enabled
  peers := hp.peers ▸ h.peers
  counted := h.counted.trans hp.completed
  registered := fun o' r' => by
    rw [hp.peers, hsequences]
    by_cases heq : (o', r') = (o, r)
    · cases heq
      simp [hp.jobs_self]
    · rw [hp.jobs_of_ne heq, h.registered]
      simp only [heq, false_or]
  known := fun id entry hentry => by
    rw [hp.iterations] at hentry
    by_cases heq : id = job.iterationId
    · exact heq ▸ hid
    · rw [update_of_ne heq] at hentry
      exact (h.known id entry hentry).trans_le hnext
  jobs := fun o' r' job' hj' => by
    by_cases heq : (o', r') = (o, r)
    · cases heq
      rw [hp.jobs_self] at hj'
      cases hj'
      exact hjob
    · rw [hp.jobs_of_ne heq] at hj'
      have hinv := h.jobs o' r' job' hj'
      refine hp.jobInv hold hinv (fun hd hsame => heq ?_) fun hlater => ?_
      · -- the identifiers of iterations that are under way belong to one peer and round
        have hentry := hown _ (hsame ▸ hinv.live hd)
        cases hentry
        rfl
      · by_cases hr : r' = r
        · subst hr
          exact hothers hlater o' job' (fun ho => heq (by rw [ho])) hj'
        · obtain ⟨transaction, hbefore, hjoins⟩ :=
            hinv.opened (hp.completed.trans_lt hlater)
          exact ⟨transaction, (hp.rounds r' hr).trans hbefore, hjoins⟩
  rounds := fun r' transaction hr' => by
    by_cases hr : r' = r
    · subst hr
      exact hround transaction hr'
    · exact hp.roundInv hr (h.rounds r' transaction ((hp.rounds r' hr).symm.trans hr'))
  past := fun r' hr' o' ho' => by
    rw [hp.peers] at ho'
    by_cases hr : r' = r
    · subst hr
      exact hpast hr' o' ho'
    · refine hp.done hold (h.past r' (not_lt.mp fun hlt => ?_) o' ho')
      exact absurd (hp.later r' hr hlt) (not_lt.mpr hr')

section Old

variable (h : s.Inv) (hj : s.jobs (o, r) = some job) (hd : job.done = false)
include h hj hd

/-- `Inv.put` for an iteration that is under way. -/
theorem Inv.putOld (hp : Puts s o r job' t) (hid : job'.iterationId = job.iterationId)
    (hnext : t.nextIterationId = s.nextIterationId)
    (hsequences : t.rendezvous.sequences = s.rendezvous.sequences)
    (hphases : job'.phases = job.phases)
    (hturn : job'.entered = true ∨ 0 < job'.next → (r : Int) ≤ s.rendezvous.completedRound + 1)
    (hearlier : job'.done = true → s.EarlierDone o r)
    (hjoins : t.rendezvous.completedRound < r → ∃ transaction,
      t.rendezvous.rounds r = some transaction ∧ t.RoundInv r transaction ∧
        Joins job' transaction ∧
        ∀ o' job', o' ≠ o → s.jobs (o', r) = some job' → Joins job' transaction)
    (hclosed : (r : Int) ≤ t.rendezvous.completedRound → t.rendezvous.rounds r = none ∧
      ∀ o' < s.rendezvous.peers, t.Done o' r) : t.Inv := by
  have hinv := h.jobs o r job hj
  have hlive := hinv.live hd
  have hold : ∀ old, s.jobs (o, r) = some old → old.done = false := fun old hold => by
    rw [hj] at hold
    cases hold
    exact hd
  refine h.put hp hold (fun entry hentry => ?_) hnext.ge ?_ (fun o' r' => ?_) ?_
    (fun transaction hr => ?_) (fun hlater o' j hne hj' => ?_) fun hle => (hclosed hle).2
  · rw [hid, hlive] at hentry
    exact (some.inj hentry).symm
  · rw [hid, hnext]
    exact h.known _ _ hlive
  · rw [hsequences]
    refine ⟨.inr, fun hor => hor.elim (fun heq => ?_) id⟩
    cases heq
    exact (h.registered o r).mp (by rw [hj]; exact some_ne_none _)
  · refine ⟨hphases ▸ hinv.nonempty, fun hd' => ?_, fun hlater => ?_, fun hor => ?_,
      fun hd' r'' hr'' => hp.done hold (hearlier hd' r'' hr'')⟩
    · rw [hp.iterations, update_self, hd']
      rfl
    · obtain ⟨transaction, hr, -, hjoin, -⟩ := hjoins hlater
      exact ⟨transaction, hr, hjoin⟩
    · exact (hturn hor).trans (by have := hp.completed; omega)
  · by_cases hlater : t.rendezvous.completedRound < r
    · obtain ⟨transaction', hr', hround, -⟩ := hjoins hlater
      rw [hr] at hr'
      cases hr'
      exact hround
    · rw [(hclosed (not_lt.mp hlater)).1] at hr
      cases hr
  · obtain ⟨transaction, hr, -, -, hall⟩ := hjoins hlater
    exact ⟨transaction, hr, hall o' j hne hj'⟩

/-- The entry of an iteration that is under way is not changed by writing it again. -/
theorem Inv.iterations_eq (hid : job'.iterationId = job.iterationId) (hd' : job'.done = false) :
    s.rendezvous.iterations = update s.rendezvous.iterations job'.iterationId
      (if job'.done then none else some (r, o)) := by
  rw [hid, hd', if_neg Bool.false_ne_true, ← (h.jobs o r job hj).live hd, Function.update_eq_self]

end Old

/-! ## The calls -/

/-- The system after `finishStage` has returned. -/
def finishedStage (s : PeerSystem) (o r : Nat) (job : Job) (transaction : RoundTransaction) :
    PeerSystem :=
  let rounds := update s.rendezvous.rounds r (some (s.rendezvous.stageDone transaction o))
  { s with rendezvous := { s.rendezvous with rounds } }.setJob o r
    { job with next := job.next + 1, entered := false }

/-- The system after `complete`. -/
def completed (s : PeerSystem) (o r : Nat) (job : Job) (rendezvous : NativeRendezvous) :
    PeerSystem :=
  { s with rendezvous }.setJob o r { job with done := true }

/-- What a step may change of the rounds. -/
structure Moves (s t : PeerSystem) : Prop where
  peers : t.rendezvous.peers = s.rendezvous.peers
  stages : ∀ r before after, s.rendezvous.rounds r = some before →
    t.rendezvous.rounds r = some after → after.stage = before.stage ∨
      (after.stage = before.stage + 1 ∧ ∀ o < s.rendezvous.peers,
        ∃ job, t.jobs (o, r) = some job ∧ before.stage < job.next)
  completed : t.rendezvous.completedRound = s.rendezvous.completedRound ∨
    (t.rendezvous.completedRound = s.rendezvous.completedRound + 1 ∧ t.rendezvous.failure = none)
  failure : s.rendezvous.failure ≠ none → t.rendezvous.failure = s.rendezvous.failure

theorem Moves.of_rounds (hpeers : t.rendezvous.peers = s.rendezvous.peers)
    (hrounds : ∀ r after, t.rendezvous.rounds r = some after →
      ∀ before, s.rendezvous.rounds r = some before → after.stage = before.stage)
    (hcompleted : t.rendezvous.completedRound = s.rendezvous.completedRound)
    (hfailure : s.rendezvous.failure ≠ none → t.rendezvous.failure = s.rendezvous.failure) :
    Moves s t :=
  ⟨hpeers, fun r before after hb ha => .inl (hrounds r after ha before hb), .inl hcompleted,
    hfailure⟩

theorem Moves.of_eq (h : t.rendezvous = s.rendezvous) : Moves s t := by
  refine .of_rounds (by rw [h]) (fun r after ha before hb => ?_) (by rw [h]) fun _ => by rw [h]
  rw [h, hb] at ha
  cases ha
  rfl

theorem Inv.valid (h : s.Inv) (hf : s.rendezvous.failure = none) : s.Valid :=
  ⟨fun _ => h, fun hne => absurd hf hne⟩

/-- The rounds other than the one a call is about do not move. -/
theorem Puts.moves (hp : Puts s o r job t)
    (hstage : ∀ before after, s.rendezvous.rounds r = some before →
      t.rendezvous.rounds r = some after → after.stage = before.stage ∨
        (after.stage = before.stage + 1 ∧ ∀ o < s.rendezvous.peers,
          ∃ job, t.jobs (o, r) = some job ∧ before.stage < job.next))
    (hcompleted : t.rendezvous.completedRound = s.rendezvous.completedRound ∨
      t.rendezvous.completedRound = s.rendezvous.completedRound + 1 ∧
        t.rendezvous.failure = none) : Moves s t := by
  refine ⟨hp.peers, fun r' before after hb ha => ?_, hcompleted, fun _ => hp.failure⟩
  by_cases hr : r' = r
  · subst hr
    exact hstage before after hb ha
  · rw [hp.rounds r' hr, hb] at ha
    cases ha
    exact .inl rfl

section Calls

variable (h : s.Inv) (hf : s.rendezvous.failure = none) (hj : s.jobs (o, r) = some job)
  (hd : job.done = false)
include h hf hj hd

theorem Inv.enter {entered : Bool}
    (he : entered = true → job.entered = true ∨
      s.rendezvous.waitTurn (job.block o) job.layer "router" = .ok true) :
    (s.setJob o r { job with entered := entered }).Inv := by
  obtain ⟨transaction, hr, hjoins, hround⟩ := h.underWay hj hd
  have hturn : entered = true →
      (r : Int) ≤ s.rendezvous.completedRound + 1 ∧ job.next = transaction.stage := by
    intro htrue
    rcases he htrue with hbefore | hpass
    · exact ⟨(h.jobs o r job hj).turn (.inl hbefore), hjoins.2 hbefore⟩
    · exact h.waitTurn_router hf hj hd hr hpass
  have hp : Puts s o r { job with entered := entered } (s.setJob o r { job with entered }) :=
    ⟨rfl, rfl, rfl, rfl, h.iterations_eq hj hd rfl hd, fun _ _ => rfl, le_rfl, fun _ _ => id⟩
  refine h.putOld hj hd hp rfl rfl rfl rfl (fun hor => ?_)
    (fun hd' => absurd (hd.symm.trans hd') Bool.false_ne_true) (fun _ => ?_)
    fun hle => absurd hround.later (not_lt.mpr hle)
  · exact hor.elim (fun htrue => (hturn htrue).1) fun hpos =>
      (h.jobs o r job hj).turn (.inr hpos)
  · refine ⟨transaction, hr, ⟨hround.later, hp.stage hround.stage (finishedIn_eq hj).symm,
      hp.finished hround.finished (doneIn_eq hj).symm⟩, ⟨hjoins.1, fun htrue => (hturn htrue).2⟩, ?_⟩
    exact fun o' job' _ hj' => h.joins hj' hr

omit hf in
theorem Inv.finishedStage (he : job.entered = true)
    (hr : s.rendezvous.rounds r = some transaction) :
    (s.finishedStage o r job transaction).Inv ∧ Moves s (s.finishedStage o r job transaction) := by
  have hround := h.rounds r transaction hr
  have hjoins := h.joins hj hr
  have ho := h.owner hj
  have hp : Puts s o r { job with next := job.next + 1, entered := false }
      (s.finishedStage o r job transaction) :=
    ⟨rfl, rfl, rfl, rfl, h.iterations_eq hj hd rfl hd, fun r' hne => update_of_ne hne ..,
      le_rfl, fun _ _ => id⟩
  have hnew : (s.finishedStage o r job transaction).rendezvous.rounds r =
      some (s.rendezvous.stageDone transaction o) := update_self ..
  have hposition : (s.finishedStage o r job transaction).finishedIn o r =
      transaction.stage + 1 := (finishedIn_eq hp.jobs_self).trans (congrArg (· + 1) (hjoins.2 he))
  have hothers : ∀ o', o' ≠ o →
      (s.finishedStage o r job transaction).finishedIn o' r = s.finishedIn o' r :=
    fun o' hne => by simp only [finishedIn, hp.jobs_other hne]
  have hfinished := hp.finished hround.finished (doneIn_eq hj).symm
  have hturn := (h.jobs o r job hj).turn (.inl he)
  have hput := h.putOld hj hd hp rfl rfl rfl rfl (fun _ => hturn)
    (fun hd' => absurd (hd.symm.trans hd') Bool.false_ne_true)
  have hopen : ¬ (r : Int) ≤ s.rendezvous.completedRound := not_le.mpr hround.later
  rcases s.rendezvous.stageDone_cases transaction o with ⟨hcard, hdone⟩ | ⟨hcard, hdone⟩ <;>
    rw [hdone] at hnew
  · refine ⟨hput (fun _ => ⟨_, hnew, ⟨hround.later, ?_, hfinished⟩, ⟨hjoins.1, nofun⟩, ?_⟩)
      (absurd · hopen), hp.moves (fun before after hb ha => .inl ?_) (.inl rfl)⟩
    · exact hround.stage.arrive ho hposition hothers hcard
    · exact fun o' job' _ hj' => ⟨(h.joins hj' hr).1, (h.joins hj' hr).2⟩
    · rw [hr] at hb
      rw [hnew] at ha
      cases hb
      cases ha
      rfl
  · have hall := hround.stage.arrive_last ho hposition hothers hcard
    refine ⟨hput (fun _ => ⟨_, hnew, ⟨hround.later, ?_, hfinished⟩, ⟨hjoins.1, nofun⟩, ?_⟩)
      (absurd · hopen), hp.moves (fun before after hb ha => .inr ?_) (.inl rfl)⟩
    · exact .begin (lt_trans Nat.zero_lt_one h.peers) hall
    · -- nobody is inside the transaction that all have finished
      intro o' job' hne hj'
      refine ⟨(h.joins hj' hr).1, fun he' => ?_⟩
      have := hall o' (h.owner hj')
      rw [hothers o' hne, finishedIn_eq hj', (h.joins hj' hr).2 he'] at this
      omega
    · rw [hr] at hb
      rw [hnew] at ha
      cases hb
      cases ha
      refine ⟨rfl, fun o' ho' => ?_⟩
      have hlast := hall o' ho'
      cases hj' : (s.finishedStage o r job transaction).jobs (o', r) with
      | none => simp [finishedIn, hj'] at hlast
      | some job' =>
        rw [finishedIn_eq hj'] at hlast
        exact ⟨job', rfl, by omega⟩

omit hf hd in
/-- A peer that may complete an iteration has completed its earlier ones. -/
theorem Inv.earlierDone
    (hnext : job.next = transactions layers job) (hlayers : layers = 0 → s.EarlierDone o r) :
    s.EarlierDone o r := by
  by_cases hzero : layers = 0
  · exact hlayers hzero
  · have hpos : 0 < job.next := by
      rw [hnext]
      exact Nat.mul_pos (Nat.pos_of_ne_zero hzero)
        (length_pos_of_ne_nil (h.jobs o r job hj).nonempty)
    have hle := (h.jobs o r job hj).turn (.inr hpos)
    exact fun r' hr' => h.past r' (by omega) o (h.owner hj)

variable (hearlier : s.EarlierDone o r)
include hearlier

omit hf hd in
/-- The last peer to complete a round completes the one after `completedRound`. -/
theorem Inv.next_round (hround : s.RoundInv r transaction)
    (hothers : ∀ o' < s.rendezvous.peers, o' ≠ o → s.Done o' r) :
    (r : Int) = s.rendezvous.completedRound + 1 := by
  have hlater := hround.later
  have hcounted := h.counted
  by_contra hne
  -- else the round before is complete without being counted
  have hlt : s.rendezvous.completedRound < ((r - 1 : Nat) : Int) := by omega
  have hall : ∀ o' < s.rendezvous.peers, s.Done o' (r - 1) := by
    intro o' ho'
    by_cases heq : o' = o
    · subst heq
      exact hearlier (r - 1) (by omega)
    · obtain ⟨job', hj', hd'⟩ := hothers o' ho' heq
      exact (h.jobs o' r job' hj').earlier hd' (r - 1) (by omega)
  obtain ⟨job', hj', -⟩ := hall o (h.owner hj)
  obtain ⟨transaction', hr', -⟩ := (h.jobs o (r - 1) job' hj').opened hlt
  obtain ⟨o', ho', hbehind⟩ := (h.rounds (r - 1) transaction' hr').finished.exists_behind
  exact absurd (hbehind.symm.trans (doneIn_eq_one.mpr (hall o' ho'))) Nat.zero_ne_one

theorem Inv.completed : (s.completed o r job (s.rendezvous.complete job.iterationId).2).Valid ∧
    Moves s (s.completed o r job (s.rendezvous.complete job.iterationId).2) := by
  obtain ⟨transaction, hr, hjoins, hround⟩ := h.underWay hj hd
  have hinv := h.jobs o r job hj
  have ho := h.owner hj
  have hlater := hround.later
  have hposition : ∀ rendezvous, (s.completed o r job rendezvous).doneIn o r = 0 + 1 :=
    fun rendezvous => (doneIn_eq (update_self ..)).trans rfl
  have hothers : ∀ rendezvous o', o' ≠ o →
      (s.completed o r job rendezvous).doneIn o' r = s.doneIn o' r := by
    intro rendezvous o' hne
    have hsame : (s.completed o r job rendezvous).jobs (o', r) = s.jobs (o', r) :=
      update_of_ne (fun heq => hne (congrArg Prod.fst heq)) ..
    rw [doneIn, hsame, doneIn]
  rcases NativeRendezvous.complete_cases (hinv.live hd) hr with ⟨hcard, heq⟩ | ⟨hcard, heq⟩ <;>
    generalize (s.rendezvous.complete job.iterationId).2 = rendezvous at heq ⊢
  · have hp : Puts s o r { job with done := true } (s.completed o r job rendezvous) := by
      subst heq
      exact ⟨rfl, rfl, rfl, rfl, rfl, fun r' hne => update_of_ne hne .., le_rfl, fun _ _ => id⟩
    have hnew : rendezvous.rounds r =
        some { transaction with finished := insert o transaction.finished } := by
      rw [heq]
      exact update_self ..
    have hsame : rendezvous.completedRound = s.rendezvous.completedRound := by rw [heq]
    refine ⟨(h.putOld hj hd hp rfl rfl (by rw [heq]; rfl) rfl hinv.turn (fun _ => hearlier)
      (fun hlt => ⟨_, hnew, ⟨hlt, hp.stage hround.stage (finishedIn_eq hj).symm, ?_⟩, hjoins,
        fun o' job' _ hj' => ⟨(h.joins hj' hr).1, (h.joins hj' hr).2⟩⟩)
      (absurd · (not_le.mpr (hsame ▸ hlater)))).valid (hp.failure.trans hf),
      hp.moves (fun before after hb ha => .inl ?_) (.inl hsame)⟩
    · rw [hp.peers]
      exact hround.finished.arrive ho (hposition _) (hothers _) hcard
    · rw [hr] at hb
      cases hb
      cases hnew.symm.trans ha
      rfl
  · have hall := hround.finished.arrive_last ho (hposition rendezvous) (hothers _) hcard
    have hnext : (r : Int) = s.rendezvous.completedRound + 1 := by
      refine h.next_round hj hearlier hround fun o' ho' hne => doneIn_eq_one.mp ?_
      rw [← hothers rendezvous o' hne]
      exact hall o' ho'
    have hp : Puts s o r { job with done := true } (s.completed o r job rendezvous) := by
      subst heq
      exact ⟨rfl, rfl, rfl, rfl, rfl, fun r' hne => update_of_ne hne .., hlater.le,
        fun r' hne hlt => show (r : Int) < r' by omega⟩
    have hnone : rendezvous.rounds r = none := by
      rw [heq]
      exact update_self ..
    have hclosed : rendezvous.completedRound = r := by rw [heq]
    refine ⟨(h.putOld hj hd hp rfl rfl (by rw [heq]; rfl) rfl hinv.turn (fun _ => hearlier)
      (absurd · hclosed.not_lt) (fun _ => ⟨hnone, fun o' ho' => doneIn_eq_one.mp (hall o' ho')⟩)).valid
        (hp.failure.trans hf),
      hp.moves (fun before after hb ha => ?_) (.inr ⟨hclosed.trans hnext, hp.failure.trans hf⟩)⟩
    cases hnone.symm.trans ha

end Calls

/-- An iteration that has just been registered. -/
def newJob (s : PeerSystem) (phases : List String) : Job :=
  { iterationId := s.nextIterationId, phases := phases, next := 0, entered := false, done := false }

/-- The system after a registration that does not raise. -/
def registeredJob (s : PeerSystem) (o : Nat) (phases : List String)
    (transaction : RoundTransaction) : PeerSystem :=
  let r := s.rendezvous.sequences o
  let rendezvous := { s.rendezvous with
    rounds := update s.rendezvous.rounds r (some transaction)
    iterations := update s.rendezvous.iterations s.nextIterationId (some (r, o))
    sequences := update s.rendezvous.sequences o (r + 1) }
  { s with rendezvous, nextIterationId := s.nextIterationId + 1 }.setJob o r (s.newJob phases)

section Register

variable {phases : List String} (h : s.Inv) (ho : o < s.rendezvous.peers)
  (ht : (s.rendezvous.rounds (s.rendezvous.sequences o)).getD
    { phases := phases, finished := ∅, stage := 0, stagePeers := ∅ } = transaction)
include h ho

/-- A peer has no iteration yet in the round it registers for, and the round is not
complete. -/
theorem Inv.round_new : s.jobs (o, s.rendezvous.sequences o) = none ∧
    s.rendezvous.completedRound < s.rendezvous.sequences o := by
  have hnew : s.jobs (o, s.rendezvous.sequences o) = none := by
    by_contra hsome
    exact lt_irrefl _ ((h.registered o _).mp hsome).2
  refine ⟨hnew, not_le.mp fun hpast => ?_⟩
  obtain ⟨job, hj, -⟩ := h.past _ hpast o ho
  rw [hnew] at hj
  cases hj

include ht

/-- The transaction of the round, which may be a new one. -/
theorem Inv.round_getD : s.RoundInv (s.rendezvous.sequences o) transaction ∧
    ∀ o' job, s.jobs (o', s.rendezvous.sequences o) = some job → Joins job transaction := by
  obtain ⟨-, hlater⟩ := h.round_new ho
  cases hr : s.rendezvous.rounds (s.rendezvous.sequences o) with
  | some before =>
    rw [hr] at ht
    cases ht
    exact ⟨h.rounds _ _ hr, fun o' job hj => h.joins hj hr⟩
  | none =>
    rw [hr] at ht
    cases ht
    have hnone : ∀ o', s.jobs (o', s.rendezvous.sequences o) = none := by
      refine fun o' => eq_none_iff_forall_ne_some.mpr fun job hj => ?_
      obtain ⟨_, hsome, -⟩ := (h.jobs o' _ job hj).opened hlater
      rw [hr] at hsome
      cases hsome
    have hpos := lt_trans Nat.zero_lt_one h.peers
    refine ⟨⟨hlater, .begin hpos fun o' _ => ?_, .begin hpos fun o' _ => ?_⟩, fun o' job hj => ?_⟩
    · simp [finishedIn, hnone]
    · simp [doneIn, hnone]
    · rw [hnone] at hj
      cases hj

theorem Inv.registeredJob (hphases : phases ≠ []) (hmatch : transaction.phases = phases) :
    (s.registeredJob o phases transaction).Inv ∧ Moves s (s.registeredJob o phases transaction) := by
  obtain ⟨hnew, hlater⟩ := h.round_new ho
  obtain ⟨hround, hjoins⟩ := h.round_getD ho ht
  have hp : Puts s o (s.rendezvous.sequences o) (s.newJob phases)
      (s.registeredJob o phases transaction) :=
    ⟨rfl, rfl, rfl, rfl, rfl, fun r' hne => update_of_ne hne .., le_rfl, fun _ _ => id⟩
  have hopened : (s.registeredJob o phases transaction).rendezvous.rounds
      (s.rendezvous.sequences o) = some transaction := update_self ..
  refine ⟨h.put hp (fun old hold => ?_) (fun entry hentry => ?_) (Nat.le_succ _)
    (Nat.lt_succ_self _) (fun o' r' => ?_) ?_ (fun transaction' hr' => ?_)
    (fun _ o' job' _ hj' => ⟨transaction, hopened, hjoins o' job' hj'⟩)
    (absurd · (not_le.mpr hlater)), hp.moves (fun before after hb ha => .inl ?_) (.inl rfl)⟩
  · rw [hnew] at hold
    cases hold
  · exact absurd (h.known _ _ hentry) (lt_irrefl _)
  · show _ ∧ r' < update s.rendezvous.sequences o (s.rendezvous.sequences o + 1) o' ↔ _
    by_cases heq : o' = o
    · subst heq
      rw [update_self, Prod.mk.injEq]
      omega
    · rw [update_of_ne heq, Prod.mk.injEq]
      simp only [heq, false_and, false_or]
  · exact ⟨hphases, fun _ => update_self .., fun _ => ⟨transaction, hopened, hmatch, nofun⟩,
      by simp [newJob], nofun⟩
  · rw [hopened] at hr'
    cases hr'
    refine ⟨hlater, hp.stage hround.stage ?_, hp.finished hround.finished ?_⟩
    · simp [finishedIn, hnew, newJob]
    · simp [doneIn, hnew, newJob]
  · rw [hopened] at ha
    cases ha
    rw [hb] at ht
    rw [← ht]
    rfl

end Register

/-! ## Runs -/

section

variable (h : s.Failed) (hf : s.rendezvous.failure ≠ none)
include h hf

theorem Failed.valid : s.Valid :=
  ⟨fun hnone => absurd hnone hf, fun _ => h⟩

theorem Failed.check : ∃ e, s.rendezvous.check = .error e := by
  obtain ⟨text, htext⟩ := ne_none_iff_exists'.mp hf
  exact ⟨_, NativeRendezvous.check_eq_error h.enabled htext⟩

theorem Failed.register (iteration : AFIteration) :
    ∃ e, s.rendezvous.register iteration = (.error e, s.rendezvous) := by
  obtain ⟨e, he⟩ := h.check hf
  refine ⟨e, ?_⟩
  simp only [NativeRendezvous.register, he]
  rw [if_pos h.enabled]

theorem Failed.transactionOf (block : AFBlock) (layer : Nat) :
    ∃ e, s.rendezvous.transactionOf block layer = .error e := by
  obtain ⟨e, he⟩ := h.check hf
  exact ⟨e, by simp only [NativeRendezvous.transactionOf, he]; rfl⟩

theorem Failed.waitTurn (block : AFBlock) (layer : Nat) (stage : String) :
    ∃ e, s.rendezvous.waitTurn block layer stage = .error e := by
  obtain ⟨e, he⟩ := h.transactionOf hf block layer
  exact ⟨e, by simp only [NativeRendezvous.waitTurn, he]; rfl⟩

theorem Failed.finishStage (block : AFBlock) (layer : Nat) :
    ∃ e, s.rendezvous.finishStage block layer = .error e := by
  obtain ⟨e, he⟩ := h.transactionOf hf block layer
  refine ⟨e, ?_⟩
  simp only [NativeRendezvous.finishStage, he]
  rw [if_pos h.enabled]
  rfl

theorem Failed.step (hs : step layers s call = some t) : t.rendezvous = s.rendezvous := by
  cases call with
  | register owner phases =>
    obtain ⟨e, he⟩ := h.register hf (iteration s.nextIterationId owner phases)
    simp only [PeerSystem.step, he] at hs
    obtain ⟨-, ⟨⟩⟩ := ite_none_right_eq_some.mp hs
    rfl
  | waitTurn owner round stage =>
    obtain ⟨job, -, hs⟩ := bind_eq_some_iff.mp hs
    obtain ⟨e, he⟩ := h.waitTurn hf (job.block owner) job.layer stage
    rw [he] at hs
    obtain ⟨-, ⟨⟩⟩ := ite_none_right_eq_some.mp hs
    rfl
  | finishStage owner round =>
    obtain ⟨job, -, hs⟩ := bind_eq_some_iff.mp hs
    obtain ⟨e, he⟩ := h.finishStage hf (job.block owner) job.layer
    rw [he] at hs
    obtain ⟨-, ⟨⟩⟩ := ite_none_right_eq_some.mp hs
    rfl
  | complete owner round =>
    obtain ⟨job, -, hs⟩ := bind_eq_some_iff.mp hs
    obtain ⟨-, ⟨⟩⟩ := ite_none_right_eq_some.mp hs
    show (s.rendezvous.complete job.iterationId).2 = s.rendezvous
    rw [NativeRendezvous.complete, h.iterations]
  | abort reason =>
    cases hs
    exact if_neg fun hnone => hf hnone.2

end

theorem aborted_valid (he : s.rendezvous.enabled = true) (hf : s.rendezvous.failure = none)
    (reason : String) : ({ s with rendezvous := s.rendezvous.abort reason } : PeerSystem).Valid ∧
      Moves s { s with rendezvous := s.rendezvous.abort reason } := by
  rw [NativeRendezvous.abort, if_pos ⟨he, hf⟩]
  refine ⟨Failed.valid ⟨he, fun _ => rfl, fun _ => rfl⟩ (some_ne_none _), ?_⟩
  exact .of_rounds rfl nofun rfl fun hne => absurd hf hne

theorem mem_iteration_blocks {id : Nat} {phases : List String} {block : AFBlock}
    (h : block ∈ (iteration id o phases).blocks) : block.aDpRank = o := by
  obtain ⟨i, -, rfl⟩ := mem_mapIdx.mp h
  rfl

theorem iteration_phases (id o : Nat) (phases : List String) :
    (iteration id o phases).blocks.map AFBlock.forwardPhase = phases := by
  refine ext_getElem? fun i => ?_
  simp only [iteration, getElem?_map, getElem?_mapIdx, Option.map_map]
  exact Option.map_id'

theorem Inv.step (h : s.Inv) (hf : s.rendezvous.failure = none)
    (hs : step layers s call = some t) : t.Valid ∧ Moves s t := by
  cases call with
  | register o phases =>
    simp only [PeerSystem.step] at hs
    obtain ⟨ho, hs⟩ := ite_none_right_eq_some.mp hs
    rcases NativeRendezvous.register_cases h.enabled hf (iteration s.nextIterationId o phases)
      with ⟨-, hout⟩ | ⟨first, hfirst, transaction, ht, ⟨e, text, hout⟩ | ⟨hmatch, hout⟩⟩
    · rw [hout] at hs
      cases hs
      exact ⟨Inv.valid { h with
        known := fun id entry hentry => Nat.lt_succ_of_lt (h.known id entry hentry)
        jobs := fun o r job hj => { h.jobs o r job hj with }
        rounds := fun r transaction hr => { h.rounds r transaction hr with } } hf, .of_eq rfl⟩
    · rw [hout] at hs
      cases hs
      refine ⟨Failed.valid ⟨h.enabled, fun _ => rfl, fun _ => rfl⟩ (some_ne_none _), ?_⟩
      exact .of_rounds rfl nofun rfl fun hne => absurd hf hne
    · obtain rfl : first.aDpRank = o := mem_iteration_blocks hfirst
      rw [iteration_phases] at ht hmatch
      rw [hout] at hs
      cases hs
      have hphases : phases ≠ [] := by
        rintro rfl
        exact not_mem_nil hfirst
      exact (h.registeredJob ho ht hphases hmatch).imp_left (Inv.valid · hf)
  | waitTurn o r stage =>
    obtain ⟨job, hj, hs⟩ := bind_eq_some_iff.mp hs
    obtain ⟨hguard, hs⟩ := ite_none_right_eq_some.mp hs
    split at hs
    · next hpass =>
      cases hs
      refine ⟨(h.enter hf hj hguard.1 fun he => ?_).valid hf, .of_eq rfl⟩
      simp only [Bool.or_eq_true, decide_eq_true_eq] at he
      rcases he with he | rfl
      · exact .inl he
      · exact .inr hpass
    · cases hs
      exact ⟨h.valid hf, .of_eq rfl⟩
    · cases hs
      exact ⟨h.valid hf, .of_eq rfl⟩
  | finishStage o r =>
    obtain ⟨job, hj, hs⟩ := bind_eq_some_iff.mp hs
    obtain ⟨hguard, hs⟩ := ite_none_right_eq_some.mp hs
    obtain ⟨transaction, hr, hout⟩ := h.finishStage hf hj hguard.1 hguard.2
    rw [hout] at hs
    cases hs
    exact (h.finishedStage hj hguard.1 hguard.2 hr).imp_left (Inv.valid · hf)
  | complete o r =>
    obtain ⟨job, hj, hs⟩ := bind_eq_some_iff.mp hs
    obtain ⟨hguard, ⟨⟩⟩ := ite_none_right_eq_some.mp hs
    have hearlier := h.earlierDone hj hguard.2.1 hguard.2.2
    exact h.completed hf hj hguard.1 hearlier
  | abort reason =>
    cases hs
    exact aborted_valid h.enabled hf reason

theorem Valid.step (h : s.Valid) (hs : step layers s call = some t) :
    t.Valid ∧ Moves s t := by
  by_cases hf : s.rendezvous.failure = none
  · exact (h.1 hf).step hf hs
  · have hfailed := h.2 hf
    have heq := hfailed.step hf hs
    refine ⟨Failed.valid ?_ (by rw [heq]; exact hf), .of_eq heq⟩
    exact ⟨heq ▸ hfailed.enabled, heq ▸ hfailed.iterations, heq ▸ hfailed.rounds⟩

theorem start_valid {peers : Nat} (h : 1 < peers) : (start peers).Valid := by
  refine Inv.valid ⟨by simp [start, NativeRendezvous.init, h], h, le_rfl, ?_, nofun, nofun, nofun,
    fun r hr => ?_⟩ rfl
  · simp [start, NativeRendezvous.init]
  · simp only [start, NativeRendezvous.init] at hr
    omega

theorem reaches_valid {peers : Nat} (hpeers : 1 < peers)
    (hs : Reaches (step layers) (fun _ _ => True) (start peers) s) :
    s.Valid ∧ s.rendezvous.peers = peers :=
  hs.invariant (P := fun t => t.Valid ∧ t.rendezvous.peers = peers) ⟨start_valid hpeers, rfl⟩
    fun ht _ hstep => ⟨(ht.1.step hstep).1, (ht.1.step hstep).2.peers.trans ht.2⟩

/-- The order that the rendezvous keeps, in one state of a run and for each step from
it. -/
structure InOrder (layers : Nat) (s : PeerSystem) : Prop where
  /-- An iteration that finishes a transaction finds it to be the stage of its round. -/
  finishes : ∀ o r job, s.jobs (o, r) = some job → job.done = false → job.entered = true →
    s.rendezvous.failure = none →
      ∃ rendezvous, s.rendezvous.finishStage (job.block o) job.layer = .ok rendezvous
  /-- A stage advances by one, after all peers have finished it. -/
  advances : ∀ call t, step layers s call = some t → ∀ r before after,
    s.rendezvous.rounds r = some before → t.rendezvous.rounds r = some after →
      after.stage = before.stage ∨ (after.stage = before.stage + 1 ∧
        ∀ o < s.rendezvous.peers, ∃ job, t.jobs (o, r) = some job ∧ before.stage < job.next)
  /-- Who passes the router of transaction `n` comes after all peers have finished
  transaction `n - 1` of the round and have completed the earlier rounds. -/
  turns : ∀ o r job, s.jobs (o, r) = some job → job.done = false →
    s.rendezvous.waitTurn (job.block o) job.layer "router" = .ok true →
      ∀ o' < s.rendezvous.peers,
        (0 < job.next → ∃ job', s.jobs (o', r) = some job' ∧ job.next ≤ job'.next) ∧
        ∀ r' < r, s.Done o' r'
  /-- Rounds complete in order. -/
  completes : ∀ call t, step layers s call = some t →
    t.rendezvous.completedRound = s.rendezvous.completedRound ∨
      (t.rendezvous.completedRound = s.rendezvous.completedRound + 1 ∧
        ∀ r : Nat, (r : Int) = t.rendezvous.completedRound → ∀ o < s.rendezvous.peers, t.Done o r)
  /-- An abort is final: calls raise, and no stage is left to advance. -/
  aborts : ∀ reason, (s.rendezvous.abort reason).failure ≠ none
  failed : s.rendezvous.failure ≠ none →
    (∀ iteration, ∃ e, s.rendezvous.register iteration = (.error e, s.rendezvous)) ∧
    (∀ block layer stage, ∃ e, s.rendezvous.waitTurn block layer stage = .error e) ∧
    (∀ block layer, ∃ e, s.rendezvous.finishStage block layer = .error e) ∧
    (∀ r, s.rendezvous.rounds r = none) ∧
    ∀ call t, step layers s call = some t → t.rendezvous = s.rendezvous

theorem Inv.turns (h : s.Inv) (hf : s.rendezvous.failure = none)
    (hj : s.jobs (o, r) = some job) (hd : job.done = false)
    (hpass : s.rendezvous.waitTurn (job.block o) job.layer "router" = .ok true)
    (ho' : o' < s.rendezvous.peers) :
    (0 < job.next → ∃ job', s.jobs (o', r) = some job' ∧ job.next ≤ job'.next) ∧
      ∀ r' < r, s.Done o' r' := by
  obtain ⟨transaction, hr, -, hround⟩ := h.underWay hj hd
  obtain ⟨hle, hstage⟩ := h.waitTurn_router hf hj hd hr hpass
  refine ⟨fun hpos => ?_, fun r' hr' => h.past r' (by omega) o' ho'⟩
  have hposition : transaction.stage ≤ s.finishedIn o' r := hround.stage.le_position ho'
  cases hj' : s.jobs (o', r) with
  | none =>
    rw [finishedIn, hj', Option.elim] at hposition
    omega
  | some job' => exact ⟨job', rfl, hstage.trans_le (hposition.trans_eq (finishedIn_eq hj'))⟩

/-- A peer waits at the router exactly when an earlier round is not complete or a peer has
finished fewer transactions of its round.  So no two peers of a round wait for each other. -/
theorem waits_iff_ahead (layers : Nat) {peers : Nat} (hpeers : 1 < peers)
    (hs : Reaches (step layers) (fun _ _ => True) (start peers) s)
    (hf : s.rendezvous.failure = none) (hj : s.jobs (o, r) = some job) (hd : job.done = false) :
    s.rendezvous.waitTurn (job.block o) job.layer "router" = .ok false ↔
      s.rendezvous.completedRound + 1 < r ∨ ∃ o' < peers, s.finishedIn o' r < s.finishedIn o r := by
  obtain ⟨hvalid, rfl⟩ := reaches_valid hpeers hs
  obtain ⟨transaction, hr, -, hround⟩ := (hvalid.1 hf).underWay hj hd
  have hle : ∀ o' < s.rendezvous.peers, transaction.stage ≤ s.finishedIn o' r :=
    fun o' => hround.stage.le_position
  have hwaits : s.rendezvous.waitTurn (job.block o) job.layer "router" = .ok false ↔
      s.rendezvous.completedRound + 1 < r ∨ s.finishedIn o r ≠ transaction.stage := by
    simp only [NativeRendezvous.waitTurn, (hvalid.1 hf).transactionOf hf hj hd hr, finishedIn_eq hj]
    show Except.ok _ = _ ↔ _
    simp [or_iff_not_imp_left]
  rw [hwaits]
  refine or_congr_right ⟨fun hne => ?_, fun ⟨o', ho', hlt⟩ => ?_⟩
  · -- the stage is not complete, so a peer is still at it
    obtain ⟨o', ho', hbehind⟩ := hround.stage.exists_behind
    exact ⟨o', ho', hbehind.trans_lt
      (lt_of_le_of_ne (hle o ((hvalid.1 hf).owner hj)) hne.symm)⟩
  · exact ((hle o' ho').trans_lt hlt).ne'

/-- The first peer has finished a transaction and waits for the second one. -/
theorem waits_iff_ahead_of_two : ∃ s, Reaches (step 2) (fun _ _ => True) (start 2) s ∧
    ∃ o < 2, s.finishedIn o 0 < s.finishedIn 0 0 := by
  obtain ⟨s, hs, hf, hround, job, hj, hd, hwaits⟩ := exists_reaches (step 2) (fun _ _ => True)
    (start 2) [.register 0 ["decode"], .register 1 ["decode"], .waitTurn 0 0 "router",
      .finishStage 0 0]
    (fun s => s.rendezvous.failure = none ∧ ¬ s.rendezvous.completedRound + 1 < (0 : Nat) ∧
      ∃ job ∈ s.jobs (0, 0), job.done = false ∧
        s.rendezvous.waitTurn (job.block 0) job.layer "router" = .ok false) (by decide +kernel)
  exact ⟨s, hs, ((waits_iff_ahead 2 (by decide) hs hf hj hd).mp hwaits).resolve_left hround⟩

end PeerSystem

end Af

end TokenSim
