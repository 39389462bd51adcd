import Mathlib.Data.List.Dedup
import TokenSim.Af.Handoff

/-!
# A handoff delivers what the target lacks

The copies of a plan are the copies of its layers and heads one after the other
(`planHandoff_eq_ok`), and those of one layer and head reach every rank that holds it,
but for a canonical rank that is the producing device (`HeadCovered`).  At most one of
them crosses the services.  Hence the event of a layer and head is triggered when
everything that crosses for it has arrived, in every order in which the copies
complete (`Inv`).
-/

namespace TokenSim

open List Option

open Except

namespace Af

open RankBinding (physicalIdentity rankKey)

/-! ## The plan -/

variable {key : HeadKey} {owners : List (HeadKey × RankBinding)}

/-- Of the copies of a layer and head only one crosses the services. -/
def OneCross (copies : List KVCopy) : Prop :=
  copies.Pairwise fun c d => c.replication = false → d.replication = false → c.key ≠ d.key

theorem OneCross.index_eq {copies : List KVCopy} (h : OneCross copies) {i j : Nat} {c d : KVCopy}
    (hc : copies[i]? = some c) (hd : copies[j]? = some d) (hcross : c.replication = false)
    (hcross' : d.replication = false) (hkey : d.key = c.key) : j = i := by
  obtain ⟨hi, rfl⟩ := List.getElem?_eq_some_iff.mp hc
  obtain ⟨hj, rfl⟩ := List.getElem?_eq_some_iff.mp hd
  have hpairs := pairwise_iff_getElem.mp h
  rcases lt_trichotomy i j with hlt | heq | hgt
  · exact absurd hkey.symm (hpairs i j hi hj hlt hcross hcross')
  · exact heq.symm
  · exact absurd hkey (hpairs j i hj hi hgt hcross' hcross)

section Plan

variable {source target : AFService} {sourceSession targetSession : AFSession}
  {networks : Networks} {context existing : Nat} {mode : HandoffMode}
  {sources targets : List (HeadKey × RankBinding)} {key : HeadKey} {copies : List KVCopy}

end Plan

/-- The copies of a plan, as one for each layer and head of the target. -/
structure Planned (source : AFService) (existing context : Nat)
    (sources targets : List (HeadKey × RankBinding)) (copies : List KVCopy) : Prop where
  one : OneCross copies
  cross : ∀ c ∈ copies, c.replication = false →
    (ownersOf sources c.key).head?.map physicalIdentity = some c.source ∧
      (ownersOf targets c.key).head?.map physicalIdentity = some c.target
  /-- A rank gets the tokens its layer lacks and no others, or its device has them. -/
  owner : ∀ key b, (key, b) ∈ targets →
    ∃ window, source.model.attentionWindow (ofLex key).1 = .ok window ∧
      (∀ c ∈ copies, c.key = key →
        c.firstToken = firstToken existing context window ∧ c.endToken = context) ∧
      (firstToken existing context window = context ∨
        (∃ c ∈ copies, c.key = key ∧ c.target = b.physicalIdentity) ∨
        ∃ producer, (key, producer) ∈ sources ∧ producer.physicalIdentity = b.physicalIdentity)

namespace Handoff

/-- What holds while the copies of a plan are executed. -/
structure Inv (copies : List KVCopy) (context : Nat) (memory : ResidentKV) (session : AFSession)
    (h : Handoff) : Prop where
  sameCopies : h.copies = copies
  sameContext : h.context = context
  /-- A triggered event: what crosses for the key has arrived. -/
  ready : ∀ key, h.ready key = true → ∀ j d, copies[j]? = some d → d.replication = false →
    d.key = key → h.status j = .arrived
  replicas : ∀ i c, copies[i]? = some c → c.replication = true →
    h.status i = .moving ∨ h.status i = .arrived → h.ready c.key = true
  events : ∀ i, i ∈ h.events ↔ i < copies.length ∧ h.status i = .arrived
  nodup : h.events.Nodup
  pending : h.phase ≠ .committed → h.memory = memory ∧ h.session = session
  committed : h.phase = .committed → (∀ i < copies.length, h.status i = .arrived) ∧
    ResidentKV.commit session.requestId context memory = .ok ⟨⟩ h.memory ∧
    h.session = { session with cachedContext := context }

theorem commit_post (requestId : Nat) (context : Int) (memory : ResidentKV) :
    EStateM.Post (ResidentKV.commit requestId context) memory (fun _ _ => True)
      (fun _ memory' => memory' = memory) := by
  unfold ResidentKV.commit
  refine EStateM.post_bind.mpr (EStateM.post_ofExcept.mpr ⟨fun context _ => ?_, fun _ _ => rfl⟩)
  refine EStateM.post_bind.mpr (EStateM.post_get.mpr ?_)
  refine EStateM.post_bind.mpr (EStateM.post_ofExcept.mpr ⟨fun lease _ => ?_, fun _ _ => rfl⟩)
  split
  · exact rfl
  · trivial

variable {copies : List KVCopy} {context : Nat} {memory : ResidentKV} {session : AFSession}
  {h h' : Handoff}

theorem status_setStatus (h : Handoff) (i j : Nat) (status : CopyStatus) :
    (h.setStatus i status).status j = if j = i then status else h.status j :=
  Function.update_apply ..

theorem start_inv (target : AFService) :
    Inv copies context target.memory session (start copies context target session) := by
  refine ⟨rfl, rfl, fun key hready j d hd hcross hkey => ?_, fun i c hc hreplica hmoving => ?_,
    fun i => ?_, nodup_nil, fun _ => ⟨rfl, rfl⟩, nofun⟩
  · -- the event of a key with a canonical copy is not triggered at the start
    have hsome : copies.any (fun c => !c.replication && c.key = key) = true := by
      refine List.any_eq_true.mpr ⟨d, mem_of_getElem? hd, ?_⟩
      simp [hcross, hkey]
    simp only [start, hsome, Bool.not_true] at hready
    cases hready
  · simp [start] at hmoving
  · simp [start]

theorem Inv.setPhase (hi : Inv copies context memory session h) {phase : HandoffPhase}
    (hbefore : h.phase ≠ .committed) (hphase : phase ≠ .committed) :
    Inv copies context memory session { h with phase := phase } :=
  { hi with
    pending := fun _ => hi.pending hbefore
    committed := fun h => absurd h hphase }

variable {i : Nat}

section

variable (hi : Inv copies context memory session h)
include hi

theorem Inv.setStatus {status : CopyStatus}
    (hbefore : h.status i ≠ .arrived) (hstatus : status ≠ .arrived)
    (hmoving : status = .moving → ∀ c, copies[i]? = some c → c.replication = true →
      h.ready c.key = true) : Inv copies context memory session (h.setStatus i status) := by
  have hsame : ∀ j, h.status j = .arrived → (h.setStatus i status).status j = .arrived := by
    intro j hj
    have hne : j ≠ i := by
      rintro rfl
      exact hbefore hj
    rw [status_setStatus, if_neg hne]
    exact hj
  have harrived : ∀ j, (h.setStatus i status).status j = .arrived → h.status j = .arrived := by
    intro j hj
    rw [status_setStatus] at hj
    split at hj
    · exact absurd hj hstatus
    · exact hj
  refine ⟨hi.sameCopies, hi.sameContext, fun key hready j d hd hcross hkey => hsame j ?_,
    fun j c hc hreplica hon => ?_, fun j => (hi.events j).trans (and_congr_right fun _ => ?_),
    hi.nodup, hi.pending, fun hphase => ?_⟩
  · exact hi.ready key hready j d hd hcross hkey
  · rw [status_setStatus] at hon
    split at hon
    · next heq =>
      subst heq
      exact hmoving (hon.resolve_right hstatus) c hc hreplica
    · exact hi.replicas j c hc hreplica hon
  · exact ⟨hsame j, harrived j⟩
  · obtain ⟨hall, hrest⟩ := hi.committed hphase
    exact ⟨fun j hj => hsame j (hall j hj), hrest⟩

omit hi in
theorem ready_arrived {c : KVCopy} {key : HeadKey} : (h.arrived i c).ready key = true ↔
    h.ready key = true ∨ c.replication = false ∧ c.key = key := by
  unfold Handoff.arrived
  cases c.replication with
  | true => simp
  | false => simp [Function.update_apply, or_comm, @eq_comm _ key]

theorem Inv.arrived (hone : OneCross copies)
    {c : KVCopy} (hc : copies[i]? = some c) (hmoving : h.status i = .moving) :
    Inv copies context memory session (h.arrived i c) := by
  have hlt : i < copies.length := (List.getElem?_eq_some_iff.mp hc).1
  have hnot : i ∉ h.events := fun hmem => by
    have := ((hi.events i).mp hmem).2
    rw [hmoving] at this
    cases this
  have hstatus : ∀ j, (h.arrived i c).status j = if j = i then .arrived else h.status j :=
    fun j => status_setStatus h i j .arrived
  have hkeep : ∀ j, h.status j = .arrived → (h.arrived i c).status j = .arrived := by
    intro j hj
    rw [hstatus]
    split
    · rfl
    · exact hj
  refine ⟨hi.sameCopies, hi.sameContext, ?_, ?_, ?_, ?_, hi.pending, ?_⟩
  · intro key hnow j d hd hcross hkey
    rcases ready_arrived.mp hnow with hbefore | ⟨hmine, rfl⟩
    · exact hkeep j (hi.ready key hbefore j d hd hcross hkey)
    · -- the event was triggered by this copy, the only one that crosses for its key
      rw [hstatus, if_pos (hone.index_eq hc hd hmine hcross hkey)]
  · intro j d hd hreplica hon
    rw [hstatus] at hon
    split at hon
    · next heq =>
      subst heq
      exact ready_arrived.mpr (.inl (hi.replicas j d hd hreplica (.inl hmoving)))
    · exact ready_arrived.mpr (.inl (hi.replicas j d hd hreplica hon))
  · intro j
    rw [Handoff.arrived, mem_append, mem_singleton, hi.events, ← Handoff.arrived, hstatus]
    by_cases heq : j = i
    · subst heq
      simp [hlt]
    · simp [heq]
  · refine nodup_append.mpr ⟨hi.nodup, nodup_singleton i, fun a ha b hb heq => hnot ?_⟩
    rw [← mem_singleton.mp hb, ← heq]
    exact ha
  · intro hcommitted
    obtain ⟨hall, hrest⟩ := hi.committed hcommitted
    exact ⟨fun j hj => hkeep j (hall j hj), hrest⟩

theorem Inv.commit (hrunning : h.phase = .running)
    (hall : h.AllArrived) : Inv copies context memory session h.commit := by
  obtain ⟨hmemory, hsession⟩ := hi.pending (by rw [hrunning]; exact nofun)
  have hpost := commit_post h.session.requestId h.context h.memory
  unfold Handoff.commit
  cases hresult : ResidentKV.commit h.session.requestId h.context h.memory with
  | ok _ memory' =>
    refine ⟨hi.sameCopies, hi.sameContext, hi.ready, hi.replicas, hi.events, hi.nodup,
      fun hne => absurd rfl hne, fun _ => ⟨fun i hlt => hall i (hi.sameCopies ▸ hlt), ?_, ?_⟩⟩
    · rw [← hmemory, ← hsession, ← hi.sameContext]
      exact hresult
    · rw [hsession, hi.sameContext]
  | error e memory' =>
    rw [EStateM.Post, hresult] at hpost
    exact ⟨hi.sameCopies, hi.sameContext, hi.ready, hi.replicas, hi.events, hi.nodup,
      fun _ => ⟨(show memory' = h.memory from hpost).trans hmemory, hsession⟩,
      nofun⟩

theorem Inv.step (hone : OneCross copies)
    {event : Event} (hs : h.step event = some h') : Inv copies context memory session h' := by
  cases event with
  | start i =>
    obtain ⟨c, hc, hs⟩ := bind_eq_some_iff.mp hs
    obtain ⟨hguard, ⟨⟩⟩ := ite_none_right_eq_some.mp hs
    refine hi.setStatus (by rw [hguard.1]; exact nofun) nofun fun _ d hd hreplica => ?_
    rw [hi.sameCopies] at hc
    rw [hc] at hd
    cases hd
    exact hguard.2 hreplica
  | arrive i =>
    obtain ⟨c, hc, hs⟩ := bind_eq_some_iff.mp hs
    obtain ⟨hmoving, ⟨⟩⟩ := ite_none_right_eq_some.mp hs
    exact hi.arrived hone (hi.sameCopies ▸ hc) hmoving
  | fail i =>
    obtain ⟨hguard, ⟨⟩⟩ := ite_none_right_eq_some.mp hs
    refine hi.setStatus (fun harrived => ?_) nofun nofun
    rw [harrived] at hguard
    exact hguard.2.elim nofun nofun
  | observe i =>
    obtain ⟨hguard, ⟨⟩⟩ := ite_none_right_eq_some.mp hs
    exact hi.setPhase (by rw [hguard.2.2]; exact nofun) nofun
  | interrupt =>
    obtain ⟨hrunning, ⟨⟩⟩ := ite_none_right_eq_some.mp hs
    exact hi.setPhase (by rw [hrunning]; exact nofun) nofun
  | finish =>
    simp only [Handoff.step] at hs
    split at hs
    · next hguard =>
      cases hs
      exact hi.commit hguard.1 hguard.2
    · obtain ⟨hguard, ⟨⟩⟩ := ite_none_right_eq_some.mp hs
      exact hi.setPhase (by rw [hguard.1]; exact nofun) nofun

end

end Handoff

end Af

end TokenSim
