import TokenSim.Llm.Conserve
import TokenSim.Llm.Progress

/-!
# The token budget of a step

A step never spends more query tokens than its budget, and whatever it schedules
computes at least one token.  Every request in the queues is `Ready`: it has
tokens left to emit, room below the model's limit and a token to compute.

The loop over the running requests asks whether a request gets tokens.  The loop
of admissions asks whether it gets a query, and with multi-token prediction a
request that decodes has a query of full width even when the budget does not
cover it and it gets no tokens.  So the results need that no such request waits.
-/

namespace TokenSim

open List

open PagedRun (Open SameContext)

namespace PagedConfig

variable {cfg : PagedConfig} {r : Request}

/-- A request that can be given tokens. -/
structure Ready (cfg : PagedConfig) (r : Request) : Prop where
  live : r.cancelRequested = false
  limit : r.maxModelLen = cfg.maxModelLen
  isOpen : Open cfg r
  computed : r.numComputedTokens < r.contextLen

instance (cfg : PagedConfig) (r : Request) : Decidable (Ready cfg r) :=
  decidable_of_iff (r.cancelRequested = false ∧ r.maxModelLen = cfg.maxModelLen ∧
      (r.generationIdx < r.decodeLen ∧ ∀ limit ∈ cfg.maxModelLen, r.contextLen < limit) ∧
      r.numComputedTokens < r.contextLen)
    ⟨fun h => ⟨h.1, h.2.1, h.2.2.1, h.2.2.2⟩, fun h => ⟨h.live, h.limit, h.isOpen, h.computed⟩⟩

/-- Tokens that fit the context of a request or its output. -/
structure Fits (cfg : PagedConfig) (r : Request) (tokens : Nat) : Prop where
  pos : 1 ≤ tokens
  build : r.isContextBuild = true → r.numComputedTokens + tokens ≤ r.contextLen
  decode : r.isContextBuild = false → tokens ≤ cfg.remainingOutput r

/-- The request can compute the tokens it was given. -/
abbrev Assigned (cfg : PagedConfig) (r : Request) : Prop := Fits cfg r r.scheduledTokens

theorem Ready.queryRoom_pos (h : Ready cfg r) : ∀ room, cfg.queryRoom r = some room → 1 ≤ room := by
  intro room hroom
  obtain ⟨limit, hlimit, rfl⟩ := Option.map_eq_some_iff.mp hroom
  have hctx := h.isOpen.2 limit hlimit
  have hcomputed := h.computed
  omega

theorem clip_pos {n : Nat} {bound : Option Nat} (hn : 1 ≤ n) (hbound : ∀ b, bound = some b → 1 ≤ b) :
    1 ≤ clip n bound := by
  cases bound with
  | none => exact hn
  | some b => exact Nat.le_min.mpr ⟨hn, hbound b rfl⟩

theorem clip_le_of_eq_some {n b : Nat} {bound : Option Nat} (h : bound = some b) : clip n bound ≤ b := by
  subst h
  exact clip_le_some n b

/-! ## Context chunks -/

/-- A chunk is within the budget and within the room, so that its query is as
wide as the chunk. -/
theorem stepTokens_build_le (cfg : PagedConfig) (hbuild : r.isContextBuild = true)
    (threshold accepted budget : Nat) :
    cfg.stepTokens threshold accepted r (some budget) ≤ budget ∧
    cfg.queryTokens r (cfg.stepTokens threshold accepted r (some budget)) =
      cfg.stepTokens threshold accepted r (some budget) := by
  have hroom : ∀ room, cfg.queryRoom r = some room →
      cfg.stepTokens threshold accepted r (some budget) ≤ room := by
    intro room hroom
    simp only [stepTokens, hbuild, if_true]
    exact (clip_le _ _).trans (clip_le_of_eq_some hroom)
  constructor
  · simp only [stepTokens, hbuild, if_true]
    exact clip_le_some _ _
  · simp only [queryTokens, hbuild, Bool.true_or, if_true]
    cases hr : cfg.queryRoom r with
    | none => rfl
    | some room => exact min_eq_left (hroom room hr)

variable {budget : Nat}

theorem Ready.stepTokens_build_pos (h : Ready cfg r) (hbuild : r.isContextBuild = true)
    (threshold accepted : Nat) (hbudget : 1 ≤ budget) :
    1 ≤ cfg.stepTokens threshold accepted r (some budget) := by
  simp only [stepTokens, hbuild, if_true]
  refine clip_pos (clip_pos ?_ h.queryRoom_pos) ?_
  · split
    · exact le_max_left _ _
    · omega
  · rintro b ⟨⟩
    exact hbudget

/-! ## Decode steps -/

/-- A decode step that gets tokens has a query that the budget covers. -/
theorem stepTokens_decode_cost (hdecode : r.isContextBuild = false) (threshold accepted budget : Nat)
    (htokens : cfg.stepTokens threshold accepted r (some budget) ≠ 0) :
    cfg.queryTokens r (cfg.stepTokens threshold accepted r (some budget)) ≤ budget := by
  simp only [stepTokens, hdecode, Bool.false_eq_true, if_false] at htokens ⊢
  split
  · rename_i hzero
    simp [hzero] at htokens
  · rename_i hzero
    rw [if_neg hzero] at htokens
    split
    · rename_i hcovers
      simpa [covers] using hcovers
    · rename_i hcovers
      rw [if_neg hcovers] at htokens
      exact absurd rfl htokens

theorem Ready.remainingOutput_pos (h : Ready cfg r) : 1 ≤ cfg.remainingOutput r := by
  refine clip_pos (le_max_left _ _) ?_
  intro b hb
  obtain ⟨limit, hlimit, rfl⟩ := Option.map_eq_some_iff.mp hb
  have hctx := h.isOpen.2 limit hlimit
  omega

theorem Ready.decode_plain (h : Ready cfg r) (hdecode : r.isContextBuild = false)
    (hmtp : cfg.mtpEnabled = false) (threshold accepted : Nat) (hbudget : 1 ≤ budget) :
    cfg.stepTokens threshold accepted r (some budget) = 1 ∧ cfg.queryTokens r 1 = 1 := by
  have hremaining := h.remainingOutput_pos
  have hroom : clip 1 (cfg.queryRoom r) = 1 :=
    le_antisymm (clip_le _ _) (clip_pos (Nat.le_refl 1) h.queryRoom_pos)
  have hquery : cfg.queryTokens r 1 = 1 := by
    simp [queryTokens, hmtp, hroom]
  have hout : cfg.decodeOutputTokens accepted (cfg.remainingOutput r) = 1 := by
    simp only [decodeOutputTokens, hmtp, Bool.false_eq_true, if_false]
    omega
  refine ⟨?_, hquery⟩
  simp only [stepTokens, hdecode, Bool.false_eq_true, if_false, hout, hroom, hquery]
  rw [if_neg (by omega)]
  simp [covers, hbudget]

theorem Ready.decodeQuery_pos (h : Ready cfg r) (hdecode : r.isContextBuild = false)
    (hmtp : cfg.mtpEnabled = true) (tokens : Nat) : 1 ≤ cfg.queryTokens r tokens := by
  simp only [queryTokens, hdecode, hmtp, Bool.not_true, Bool.or_self, Bool.false_eq_true, if_false]
  exact clip_pos (Nat.le_add_right 1 _) h.queryRoom_pos

/-! ## The query of a waiting request -/

theorem waitingQueryTokens_le {tokens : Nat}
    (hquery : cfg.queryTokens r tokens = tokens) (htokens : tokens ≤ budget) (a b : Bool) :
    cfg.waitingQueryTokens r tokens (cfg.queryTokens r tokens) (some budget) a b ≤ budget := by
  unfold waitingQueryTokens
  dsimp only
  rw [hquery]
  split
  · exact htokens
  · split
    · exact htokens
    · split
      · exact htokens
      · split
        · rename_i hcovers
          simpa [covers] using hcovers
        · exact Nat.zero_le _

/-- The padding depends on the context and the position only. -/
theorem waitingQueryTokens_congr {r' : Request} (hbuild : r'.isContextBuild = r.isContextBuild)
    (hctx : r'.contextLen = r.contextLen) (hcomp : r'.numComputedTokens = r.numComputedTokens)
    (tokens queries : Nat) (budget : Option Nat) (a b : Bool) :
    cfg.waitingQueryTokens r' tokens queries budget a b =
      cfg.waitingQueryTokens r tokens queries budget a b := by
  simp only [waitingQueryTokens, hbuild, hctx, hcomp]

/-- A request with more than one token left is not padded. -/
theorem waitingQueryTokens_of_ne_one {tokens queries : Nat} (budget : Option Nat) (a b : Bool)
    (h : tokens ≠ 1 ∨ r.contextLen - r.numComputedTokens ≠ 1) :
    cfg.waitingQueryTokens r tokens queries budget a b = queries := by
  rcases h with h | h <;> simp [waitingQueryTokens, h]

theorem waitingQueryTokens_plain (hmtp : cfg.mtpEnabled = false) (tokens queries : Nat)
    (budget : Option Nat) (a b : Bool) :
    cfg.waitingQueryTokens r tokens queries budget a b = queries := by
  simp [waitingQueryTokens, hmtp]

theorem waitingQueryTokens_decode (hdecode : r.isContextBuild = false) (tokens queries : Nat)
    (budget : Option Nat) (a b : Bool) :
    cfg.waitingQueryTokens r tokens queries budget a b = queries := by
  simp [waitingQueryTokens, hdecode]

end PagedConfig

/-! ## Advancing a request -/

open PagedConfig (Ready Fits Assigned)

variable {cfg : PagedConfig} {r : Request}

/-- A request that is not done after sampling sampled as many tokens as asked. -/
theorem PagedConfig.Ready.le_sampled (h : Ready cfg r) {tokens : Nat}
    (hgen : r.generationIdx + r.sampled tokens < r.decodeLen)
    (hctx : ∀ limit, cfg.maxModelLen = some limit → r.contextLen + r.sampled tokens < limit) :
    tokens ≤ r.sampled tokens := by
  unfold Request.sampled at hgen hctx ⊢
  cases hmax : r.maxModelLen with
  | none =>
    simp only [hmax] at hgen ⊢
    omega
  | some limit =>
    have hlimit := hctx limit (h.limit ▸ hmax)
    simp only [hmax] at hgen hlimit ⊢
    omega

/-- The tokens of a step stay within a context that is being built. -/
def PagedConfig.Planned (r : Request) : Prop :=
  r.isContextBuild = true → r.numComputedTokens + r.stepTokens ≤ r.contextLen

open PagedConfig (Planned)

theorem PagedConfig.Ready.advance (h : Ready cfg r) (hplan : Planned r)
    (hdone : r.advance.isDone = false) : Ready cfg r.advance := by
  obtain ⟨hsame, -⟩ := r.advance_frame
  have hmax := hsame.maxModelLen
  have hlive' := hsame.cancelRequested.trans h.live
  have hopen := (Request.isDone_eq_false hlive').mp hdone
  rw [hmax, h.limit] at hopen
  refine ⟨hlive', hmax.trans h.limit, hopen, ?_⟩
  obtain ⟨hgen, hctx⟩ := hopen
  have hlen : r.advance.contextLen = r.prefillLen + r.advance.generationIdx := by
    rw [Request.contextLen, hsame.prefillLen]
  have hlen' : r.contextLen = r.prefillLen + r.generationIdx := rfl
  have hcomputed := h.computed
  rcases Nat.lt_or_ge (r.numComputedTokens + r.stepTokens) r.contextLen with hlt | hge
  · rw [Request.advance_chunk h.live hlt]
    exact hlt
  · obtain ⟨status, n, hadvance⟩ := Request.advance_complete h.live hge
    have hcomp : r.advance.numComputedTokens = r.numComputedTokens + r.stepTokens := by
      rw [hadvance]
      rfl
    have hgen' : r.advance.generationIdx =
        r.generationIdx + r.sampled (if r.isContextBuild then 1 else r.stepTokens) := by
      rw [hadvance]
    have hsampled : ∀ tokens, r.advance.generationIdx =
        r.generationIdx + r.sampled tokens → tokens ≤ r.sampled tokens := by
      intro tokens heq
      refine h.le_sampled ?_ ?_
      · rw [← heq, ← hsame.decodeLen]
        exact hgen
      · intro limit hlimit
        have hlt := hctx limit hlimit
        omega
    cases hb : r.isContextBuild with
    | true =>
      have hend := hplan hb
      rw [hb, if_pos rfl] at hgen'
      have hone := hsampled 1 hgen'
      omega
    | false =>
      rw [hb, if_neg Bool.false_ne_true] at hgen'
      have hall := hsampled _ hgen'
      omega

theorem PagedConfig.Ready.move {r' : Request} (h : Ready cfg r) (hsame : SameContext r r')
    (hcomputed : r'.numComputedTokens < r.contextLen) : Ready cfg r' :=
  ⟨hsame.cancelRequested.trans h.live, hsame.maxModelLen.trans h.limit, hsame.isOpen h.isOpen,
    hsame.contextLen.symm ▸ hcomputed⟩

theorem PagedConfig.Ready.toRecompute (h : Ready cfg r) : Ready cfg (StepConfig.toRecompute r) :=
  ⟨h.live, h.limit, h.isOpen, lt_of_le_of_lt (Nat.zero_le _) h.computed⟩

/-! ## The step -/

/-- An admission keeps the context of its request. -/
theorem sameContext_of_restores {r' : Request} (h : r'.restoreAdmissionState r = r) :
    SameContext r r' := by
  rw [← h]
  exact ⟨rfl, rfl, rfl, rfl, rfl, rfl, rfl⟩

/-- On a grouped cache the connector supplies no tokens at once. -/
def Cache.NoSynchronousHits {β : Type} (cache : Cache β) (cfg : PagedConfig) : Prop :=
  cfg.groupedCache = true → cache.asyncOffload = false →
    ∀ m r computed, (cache.getNumNewMatchedTokens m r computed).2 = 0

namespace StepConfig

variable {β : Type} {cfg : StepConfig} {cache : Cache β} {s s' : PagedScheduler β}
  {step step' : StepState} {strict : Prop} {total : Nat} {r r' : Request}

/-- The requests in the queues are ready. -/
structure AllReady (cfg : PagedConfig) (s : PagedScheduler β) : Prop where
  running : ∀ r ∈ s.running, Ready cfg r
  waiting : ∀ r ∈ s.waiting, Ready cfg r
  loading : ∀ r ∈ s.loading, Ready cfg r
  loadedWaiting : ∀ r ∈ s.loadedWaiting, Ready cfg r

/-- What was scheduled so far.  With `strict` the budget is accounted for: what is
left of it, and what it was spent on. -/
structure Spent (cfg : PagedConfig) (strict : Prop) (total : Nat) (step : StepState) : Prop where
  finite : ∃ b : Int, step.budget = some b
  left : strict → ∃ n : Nat, step.budget = some (n : Int) ∧
    (step.scheduled.map Request.scheduledQueryTokens).sum + n = total
  ready : ∀ r ∈ step.scheduled, Ready cfg r ∧ Planned r
  scheduled : strict → ∀ r ∈ step.scheduled, Assigned cfg r

/-- With multi-token prediction only requests that build their context wait. -/
def NoDecodeWaits (cfg : PagedConfig) (s : PagedScheduler β) : Prop :=
  cfg.mtpEnabled = true →
    (∀ r ∈ s.waiting, r.isContextBuild = true) ∧ ∀ r ∈ s.loadedWaiting, r.isContextBuild = true

theorem Spent.tokens_left (h : Spent cfg.paged strict total step) :
    ∃ n : Nat, tokenBudget step.budget = some n := by
  obtain ⟨b, hb⟩ := h.finite
  exact ⟨b.toNat, by rw [hb]; rfl⟩

theorem planned_assigned (hr : Ready cfg.paged r') {tokens : Nat} (htokens : r'.scheduledTokens = tokens)
    (hfit : r'.isContextBuild = true → r'.numComputedTokens + tokens ≤ r'.contextLen) : Planned r' := by
  intro hb
  have hle := hfit hb
  have hcomputed := hr.computed
  unfold Request.stepTokens Request.remainingContextTokens
  split <;> omega

theorem Spent.assign (h : Spent cfg.paged strict total step) (hr : Ready cfg.paged r')
    (hplan : Planned r')
    (hpaid : strict → Assigned cfg.paged r' ∧
      ∀ n : Nat, step.budget = some (n : Int) → r'.scheduledQueryTokens ≤ n)
    (hnew : step'.budget = spend step.budget r'.scheduledQueryTokens)
    (hscheduled : step'.scheduled = step.scheduled ++ [r']) : Spent cfg.paged strict total step' where
  finite := by
    obtain ⟨b, hb⟩ := h.finite
    exact ⟨_, by rw [hnew, hb]; rfl⟩
  left := by
    intro hstrict
    obtain ⟨n, hbudget, hsum⟩ := h.left hstrict
    have hcost := (hpaid hstrict).2 n hbudget
    refine ⟨n - r'.scheduledQueryTokens, ?_, ?_⟩
    · rw [hnew, hbudget, spend, Option.map_some]
      congr 1
      omega
    · rw [hscheduled, map_append, sum_append]
      simp only [map_cons, map_nil, sum_cons, sum_nil, add_zero]
      omega
  ready := by
    rw [hscheduled]
    exact forall_mem_append.mpr ⟨h.ready, forall_mem_singleton.mpr ⟨hr, hplan⟩⟩
  scheduled := by
    intro hstrict
    rw [hscheduled]
    exact forall_mem_append.mpr
      ⟨h.scheduled hstrict, forall_mem_singleton.mpr (hpaid hstrict).1⟩

/-- The tokens of a step fit a context that is being built. -/
theorem stepTokens_planned (hr : Ready cfg.paged r) (budget : Option Int)
    (hb : r.isContextBuild = true) :
    r.numComputedTokens + cfg.stepTokens r budget ≤ r.contextLen := by
  have hle := cfg.paged.stepTokens_contextBuild_le cfg.threshold (cfg.accepted r)
    (tokenBudget budget) hb hr.computed
  rw [add_comm]
  exact hle

/-- The tokens of a step fit the context or the output of the request. -/
theorem stepTokens_fit (hr : Ready cfg.paged r) {budget : Option Int}
    (hpos : 1 ≤ cfg.stepTokens r budget) : Fits cfg.paged r (cfg.stepTokens r budget) :=
  ⟨hpos, stepTokens_planned hr budget, fun hb =>
    cfg.paged.stepTokens_decode_le cfg.threshold (cfg.accepted r) (tokenBudget budget) hb⟩

variable {n : Nat} {rest : List Request}

/-- The query of a running request that gets tokens is what it is charged, and
the budget covers it. -/
theorem runningQuery_le {budget : Option Int} (hbudget : tokenBudget budget = some n)
    (htokens : cfg.stepTokens r budget ≠ 0) :
    cfg.paged.queryTokens r (cfg.stepTokens r budget) ≤ n ∧
    cfg.budgetCost r (cfg.stepTokens r budget) =
      cfg.paged.queryTokens r (cfg.stepTokens r budget) := by
  unfold StepConfig.stepTokens at htokens ⊢
  rw [hbudget] at htokens ⊢
  cases hb : r.isContextBuild with
  | true =>
    obtain ⟨hle, hquery⟩ :=
      cfg.paged.stepTokens_build_le hb cfg.threshold (cfg.accepted r) n
    rw [hquery]
    exact ⟨hle, by simp [budgetCost, hb]⟩
  | false =>
    exact ⟨PagedConfig.stepTokens_decode_cost hb _ _ n htokens, by simp [budgetCost, hb]⟩

theorem Preempts.allReady {victims : List Request} (h : Preempts victims s s')
    (hs : AllReady cfg.paged s) (hvictims : ∀ r ∈ victims, Ready cfg.paged r) :
    AllReady cfg.paged s' where
  running := h.running ▸ hs.running
  waiting := by
    intro r hr
    rw [h.waiting] at hr
    rcases mem_append.mp hr with hr | hr
    · obtain ⟨q, hq, rfl⟩ := mem_map.mp (mem_reverse.mp hr)
      exact (hvictims q hq).toRecompute
    · exact hs.waiting r hr
  loading := h.loading ▸ hs.loading
  loadedWaiting := h.loadedWaiting ▸ hs.loadedWaiting

theorem AllReady.append_running (hs : AllReady cfg.paged s) (hr : Ready cfg.paged r') (m : β) :
    AllReady cfg.paged { s with running := s.running ++ [r'], manager := m } where
  running := forall_mem_append.mpr ⟨hs.running, forall_mem_singleton.mpr hr⟩
  waiting := hs.waiting
  loading := hs.loading
  loadedWaiting := hs.loadedWaiting

/-- The state of the loop over the running requests, when `queue` is left. -/
structure Paying (cfg : PagedConfig) (strict : Prop) (total : Nat) (queue : List Request)
    (s : PagedScheduler β) (step : StepState) : Prop where
  ready : AllReady cfg s
  spent : Spent cfg strict total step
  queue : ∀ q ∈ queue, Ready cfg q

theorem Paying.scheduleOne (cache : Cache β) {queue : List Request}
    (h : Paying cfg.paged strict total (r :: queue) s step) :
    Paying cfg.paged strict total (cfg.scheduleOne cache r queue.reverse s step).2.2.reverse
      (cfg.scheduleOne cache r queue.reverse s step).1
      (cfg.scheduleOne cache r queue.reverse s step).2.1 := by
  obtain ⟨hr, hqueue⟩ := forall_mem_cons.mp h.queue
  refine scheduleOne_rule cfg cache
    (Q := fun x => Paying cfg.paged strict total x.2.2.reverse x.1 x.2.1) ?_ ?_ ?_
  · exact ⟨h.ready.append_running hr s.manager, h.spent, by rwa [reverse_reverse]⟩
  · intro s' victims left m p hsplit hpre htokens
    have hyoungest : ∀ q ∈ victims ++ left, Ready cfg.paged q := fun q hq =>
      hqueue q (mem_reverse.mp (hsplit ▸ hq))
    have hready := hpre.allReady h.ready (forall_mem_append.mp hyoungest).1
    have hfits := stepTokens_fit hr (Nat.pos_of_ne_zero htokens)
    obtain ⟨n, hbudget⟩ := h.spent.tokens_left
    obtain ⟨hle, hcost⟩ := runningQuery_le hbudget htokens
    have hr' : Ready cfg.paged (granted cfg r step.budget) := { hr with }
    refine ⟨hready.append_running hr' m, h.spent.assign hr' (planned_assigned hr' rfl hfits.build)
      (fun _ => ⟨⟨hfits.pos, hfits.build, hfits.decode⟩, ?_⟩) ?_ rfl, fun q hq =>
        (forall_mem_append.mp hyoungest).2 q (mem_reverse.mp hq)⟩
    · intro n' hn'
      rw [hn'] at hbudget
      cases hbudget
      exact hle
    · exact congrArg (spend step.budget) hcost
  · intro s' hpre
    refine ⟨hpre.allReady h.ready ?_, { h.spent with }, forall_mem_nil _⟩
    exact forall_mem_append.mpr
      ⟨fun q hq => hqueue q (mem_reverse.mp hq), forall_mem_singleton.mpr hr⟩

/-! ### Admissions -/

/-- A request that may wait gets tokens, and the budget covers its query. -/
theorem waitingTokens (cfg : StepConfig) (hr : Ready cfg.paged r)
    (hwaits : cfg.paged.mtpEnabled = true → r.isContextBuild = true) (hn : 1 ≤ n)
    (hbudget : tokenBudget step.budget = some n) :
    1 ≤ cfg.stepTokens r step.budget ∧
    cfg.waitingQuery r (cfg.stepTokens r step.budget) step ≤ n := by
  unfold waitingQuery StepConfig.stepTokens
  rw [hbudget]
  cases hb : r.isContextBuild with
  | true =>
    obtain ⟨hle, hquery⟩ := cfg.paged.stepTokens_build_le hb cfg.threshold (cfg.accepted r) n
    exact ⟨hr.stepTokens_build_pos hb _ _ hn, PagedConfig.waitingQueryTokens_le hquery hle _ _⟩
  | false =>
    have hmtp : cfg.paged.mtpEnabled = false := by
      cases hm : cfg.paged.mtpEnabled with
      | false => rfl
      | true => exact absurd ((hwaits hm).symm.trans hb) (by decide)
    obtain ⟨htokens, hquery⟩ := hr.decode_plain hb hmtp cfg.threshold (cfg.accepted r) hn
    rw [htokens, PagedConfig.waitingQueryTokens_decode hb, hquery]
    exact ⟨Nat.le_refl 1, hn⟩

/-- The state of the loop of admissions. -/
structure Admissible (cfg : PagedConfig) (strict : Prop) (total : Nat) (s : PagedScheduler β)
    (step : StepState) : Prop where
  ready : AllReady cfg s
  spent : Spent cfg strict total step
  waits : strict → NoDecodeWaits cfg s

/-- A waiting request gets its tokens: it leaves its queue and the rest stays. -/
theorem Admissible.assignWaiting (h : Admissible cfg.paged strict total s step)
    (hr : Ready cfg.paged r) {tokens q : Nat}
    (hbuild : r.isContextBuild = true → r.numComputedTokens + tokens ≤ r.contextLen)
    (hpaid : strict → Fits cfg.paged r tokens ∧ ∀ n : Nat, step.budget = some (n : Int) → q ≤ n)
    {s' : PagedScheduler β} (hrunning : s'.running = s.running)
    (hwaiting : ∀ q ∈ s'.waiting, q ∈ s.waiting) (hloading : ∀ q ∈ s'.loading, q ∈ s.loading)
    (hloaded : ∀ q ∈ s'.loadedWaiting, q ∈ s.loadedWaiting) :
    Admissible cfg.paged strict total (StepConfig.assignWaiting r tokens q s' step).1
      (StepConfig.assignWaiting r tokens q s' step).2 := by
  have hready : Ready cfg.paged { assigned r tokens q with
      scheduledPlaceholderTokens := if r.isContextBuild then q - tokens else 0 } :=
    { hr with }
  have hs' : AllReady cfg.paged s' :=
    ⟨hrunning ▸ h.ready.running, fun q hq => h.ready.waiting q (hwaiting q hq),
      fun q hq => h.ready.loading q (hloading q hq),
      fun q hq => h.ready.loadedWaiting q (hloaded q hq)⟩
  refine ⟨hs'.append_running hready s'.manager, h.spent.assign hready
    (planned_assigned hready rfl hbuild) (fun hstrict => ?_) rfl rfl, fun hstrict hm => ?_⟩
  · obtain ⟨hfits, hcost⟩ := hpaid hstrict
    exact ⟨⟨hfits.pos, hfits.build, hfits.decode⟩, hcost⟩
  · have hwaits := h.waits hstrict hm
    exact ⟨fun q hq => hwaits.1 q (hwaiting q hq), fun q hq => hwaits.2 q (hloaded q hq)⟩

theorem Spent.one_le (h : Spent cfg.paged strict total step) (hleft : budgetLeft step.budget = true) :
    ∃ n : Nat, tokenBudget step.budget = some n ∧ 1 ≤ n := by
  obtain ⟨b, hbudget⟩ := h.finite
  rw [hbudget] at hleft ⊢
  have hpos : 0 < b := of_decide_eq_true hleft
  exact ⟨b.toNat, rfl, by omega⟩

/-- What a waiting request is given under `strict` fits and is paid for. -/
theorem Admissible.paid (strict : Prop) (hready : Ready cfg.paged r)
    (hwaits : strict → cfg.paged.mtpEnabled = true → r.isContextBuild = true)
    (hn : 1 ≤ n) (hbudget : tokenBudget step.budget = some n) (hstrict : strict) :
    Fits cfg.paged r (cfg.stepTokens r step.budget) ∧
    ∀ n : Nat, step.budget = some (n : Int) →
      cfg.waitingQuery r (cfg.stepTokens r step.budget) step ≤ n := by
  obtain ⟨hpos, hquery⟩ := waitingTokens cfg hready (hwaits hstrict) hn hbudget
  refine ⟨stepTokens_fit hready hpos, fun n' hn' => ?_⟩
  rw [hn'] at hbudget
  cases hbudget
  exact hquery

theorem Admissible.resumeLoaded {next : PagedScheduler β × StepState}
    (h : Admissible cfg.paged strict total s step) (hloaded : s.loadedWaiting = r :: rest)
    (hleft : budgetLeft step.budget = true) (hnext : cfg.resumeLoaded cache r rest s step = some next) :
    Admissible cfg.paged strict total next.1 next.2 := by
  obtain ⟨n, hbudget, hn⟩ := h.spent.one_le hleft
  have hmem : r ∈ s.loadedWaiting := by
    rw [hloaded]
    exact mem_cons_self ..
  have hrest : ∀ q ∈ rest, q ∈ s.loadedWaiting := fun q hq =>
    hloaded ▸ mem_cons_of_mem _ hq
  have hr := h.ready.loadedWaiting r hmem
  obtain ⟨m, rfl⟩ := resumeLoaded_eq_some hnext
  have hr' : Ready cfg.paged { r with status := .running } :=
    { hr with }
  refine h.assignWaiting hr' (stepTokens_planned hr step.budget) (fun hstrict => ?_) rfl
    (fun _ hq => hq) (fun _ hq => mem_of_mem_filter hq) hrest
  obtain ⟨hfits, hcost⟩ :=
    Admissible.paid strict hr (fun hstrict hm => (h.waits hstrict hm).2 r hmem) hn hbudget hstrict
  exact ⟨⟨hfits.pos, hfits.build, hfits.decode⟩, hcost⟩

/-- The query of an admitted request is there: the gate tried the padding at the
position where the admission leaves it. -/
theorem waitingQuery_ne_zero (hr : Ready cfg.paged r) (htakes : Takes cfg cache s r false r')
    (hexternal : cfg.paged.groupedCache = true → cache.externalTokens s.manager r = 0)
    (hfits : cfg.paged.groupedCache = true →
      cfg.paddingFits r (cache.planReuse s.manager r).hitTokens step = true)
    (hn : 1 ≤ n) (hbudget : tokenBudget step.budget = some n) :
    cfg.waitingQuery r' (cfg.stepTokens r' step.budget) step ≠ 0 := by
  have hsame := sameContext_of_restores htakes.restores
  have hready : Ready cfg.paged r' := hr.move hsame (htakes.computed hr.computed)
  have hstep : cfg.stepTokens r' step.budget =
      cfg.paged.stepTokens cfg.threshold (cfg.accepted r') r' (some n) := by
    rw [← hbudget]
    rfl
  unfold waitingQuery
  cases hb : r'.isContextBuild with
  | false =>
    rw [PagedConfig.waitingQueryTokens_decode hb]
    cases hm : cfg.paged.mtpEnabled with
    | true => exact ne_of_gt (hready.decodeQuery_pos hb hm _)
    | false =>
      obtain ⟨htokens, hquery⟩ := hready.decode_plain hb hm cfg.threshold (cfg.accepted r') hn
      rw [hstep, htokens, hquery]
      exact Nat.one_ne_zero
  | true =>
    have hpos : 1 ≤ cfg.stepTokens r' step.budget :=
      hstep ▸ hready.stepTokens_build_pos hb _ _ hn
    have hquery : cfg.paged.queryTokens r' (cfg.stepTokens r' step.budget) =
        cfg.stepTokens r' step.budget :=
      hstep ▸ (cfg.paged.stepTokens_build_le hb cfg.threshold (cfg.accepted r') n).2
    rw [hquery]
    cases hm : cfg.paged.mtpEnabled with
    | false =>
      rw [PagedConfig.waitingQueryTokens_plain hm]
      exact ne_of_gt hpos
    | true =>
      have hgrouped : cfg.paged.groupedCache = true := by
        cases hg : cfg.paged.groupedCache with
        | true => rfl
        | false => exact absurd (hm.symm.trans (cfg.paged.uniform_mtp hg)) (by decide)
      have hposition := htakes.position hgrouped rfl (hexternal hgrouped)
        (hsame.isContextBuild.symm.trans hb)
      rcases Nat.decEq (cfg.stepTokens r' step.budget) 1 with hne | heq
      · rw [PagedConfig.waitingQueryTokens_of_ne_one _ _ _ (.inl hne)]
        exact ne_of_gt hpos
      rcases Nat.decEq (r'.contextLen - r'.numComputedTokens) 1 with hne | hone
      · rw [PagedConfig.waitingQueryTokens_of_ne_one _ _ _ (.inr hne)]
        exact ne_of_gt hpos
      -- one token is left: this is the case the gate tried
      have hgate := hfits hgrouped
      rw [hsame.contextLen, hposition] at hone
      rw [heq, PagedConfig.waitingQueryTokens_congr
        (r := { r with numComputedTokens := (cache.planReuse s.manager r).hitTokens })
        hsame.isContextBuild hsame.contextLen hposition]
      simpa [paddingFits, hone] using hgate

/-- The head of the waiting queue waits for its external KV. -/
theorem Admissible.load (h : Admissible cfg.paged strict total s step)
    (hwaiting : s.waiting = r :: rest) (hr' : Ready cfg.paged r') (m : β) (inflight : List Nat) :
    Admissible cfg.paged strict total { s with
      waiting := rest
      manager := m
      loading := s.loading ++ [r']
      inflightPrefills := inflight } step := by
  have hrest : ∀ q ∈ rest, q ∈ s.waiting := fun q hq => hwaiting ▸ mem_cons_of_mem _ hq
  refine ⟨⟨h.ready.running, fun q hq => h.ready.waiting q (hrest q hq), ?_, h.ready.loadedWaiting⟩,
    h.spent, fun hstrict hm => ?_⟩
  · exact forall_mem_append.mpr ⟨h.ready.loading, forall_mem_singleton.mpr hr'⟩
  · have hwaits := h.waits hstrict hm
    exact ⟨fun q hq => hwaits.1 q (hrest q hq), hwaits.2⟩

theorem Admissible.admitWaiting (hsync : cache.NoSynchronousHits cfg.paged)
    (h : Admissible cfg.paged strict total s step) (hwaiting : s.waiting = r :: rest)
    (hleft : budgetLeft step.budget = true) :
    (cfg.admitWaiting cache r rest s step).Post
      (fun x => Admissible cfg.paged strict total x.2.1 x.2.2)
      (fun e => e = Request.noQuery ∧ cache.LeavesNoQuery cfg.paged.groupedCache) := by
  obtain ⟨n, hbudget, hn⟩ := h.spent.one_le hleft
  have hmem : r ∈ s.waiting := by
    rw [hwaiting]
    exact mem_cons_self ..
  have hrest : ∀ q ∈ rest, q ∈ s.waiting := fun q hq => hwaiting ▸ mem_cons_of_mem _ hq
  have hr := h.ready.waiting r hmem
  have hmoved : ∀ {loads r'}, Takes cfg cache s r loads r' → Ready cfg.paged r' := fun htakes =>
    hr.move (sameContext_of_restores htakes.restores) (htakes.computed hr.computed)
  refine admitWaiting_rule hwaiting ?_ ?_ ?_ ?_ ?_
  · exact fun m inflight => ⟨{ h.ready with }, h.spent, h.waits⟩
  · exact fun m r' inflight htakes => h.load hwaiting (hmoved htakes) m inflight
  · intro m r' inflight htakes
    have hready := hmoved htakes
    have hpaid := Admissible.paid strict hready (fun hstrict hm =>
      (sameContext_of_restores htakes.restores).isContextBuild.trans
        ((h.waits hstrict hm).1 r hmem)) hn hbudget
    exact h.assignWaiting hready (stepTokens_planned hready _) hpaid rfl hrest (fun _ hq => hq)
      (fun _ hq => hq)
  · exact fun hleaves => ⟨rfl, hleaves hr.computed⟩
  · intro r' hgates hloads htakes hzero
    refine absurd hzero (waitingQuery_ne_zero hr htakes (fun hgrouped => ?_) (fun hgrouped => ?_)
      hn hbudget)
    · unfold Cache.externalTokens ReusePlan.loadTokens
      cases hasync : cache.asyncOffload with
      | true =>
        rw [hasync, Bool.true_and] at hloads
        simp [hloads]
      | false => simp [hsync hgrouped hasync]
    · simp only [passesGates, hloads, hgrouped, Bool.not_true, Bool.false_or, Bool.and_eq_true]
        at hgates
      exact hgates.1.2

/-- A step accounts for its budget, or raises because an admission leaves no query. -/
theorem schedule_spent (cfg : StepConfig) (hsync : cache.NoSynchronousHits cfg.paged)
    (hs : AllReady cfg.paged s) (hwaits : strict → NoDecodeWaits cfg.paged s) (budget : Nat) :
    (cfg.schedule cache s (some (budget : Int))).Post
      (fun x => AllReady cfg.paged x.1 ∧ Spent cfg.paged strict budget x.2)
      (fun e => e = Request.noQuery ∧ cache.LeavesNoQuery cfg.paged.groupedCache) := by
  refine schedule_rule fun s₁ step₁ hloop => ?_
  have hstart : Paying cfg.paged strict budget (s.running.insertionSort arrivedBefore)
      { s with running := [] } ⟨some (budget : Int), [], [], false, []⟩ :=
    ⟨⟨forall_mem_nil _, hs.waiting, hs.loading, hs.loadedWaiting⟩,
      ⟨⟨budget, rfl⟩, fun _ => ⟨budget, rfl, zero_add _⟩, forall_mem_nil _,
        fun _ => forall_mem_nil _⟩,
      fun q hq => hs.running q ((perm_insertionSort ..).subset hq)⟩
  have hpaying := scheduleRunning_rule cfg cache (fun _ _ _ _ h => h.scheduleOne cache) _ le_rfl
    hstart
  have hord := scheduleRunning_rule cfg cache (fun _ _ _ _ h => h.scheduleOne) _ le_rfl
    (Ordered.start s (some (budget : Int)))
  rw [hloop] at hpaying hord
  have hspent : Spent cfg.paged strict budget { step₁ with scheduledRunning := step₁.scheduled } :=
    { hpaying.spent with }
  refine ⟨fun hnone => ?_, fun _ => ⟨hpaying.ready, hspent⟩⟩
  have hwaits₁ : strict → NoDecodeWaits cfg.paged s₁ := by
    intro hstrict hm
    rw [hord.waiting, hord.loadedWaiting, hnone]
    exact hwaits hstrict hm
  refine Except.Post.mono (scheduleWaiting_rule (Q := Admissible cfg.paged strict budget)
    ?_ ?_ _ ⟨hpaying.ready, hspent, hwaits₁⟩) (fun _ h => ⟨h.ready, h.spent⟩) (fun _ h => h)
  · exact fun _ _ _ _ _ h hleft hloaded hnext => h.resumeLoaded hloaded hleft hnext
  · exact fun _ _ _ _ h hleft hwaiting => h.admitWaiting hsync hwaiting hleft

end StepConfig

/-! ## A scheduler that serves requests -/

/-- The scheduler of a worker with the requests of the step that executes. -/
structure Serving (β : Type) where
  sched : PagedScheduler β
  batch : List Request

inductive ServingEvent (β : Type) where
  /-- A request arrives, new or handed over with its KV. -/
  | arrive (r : Request)
  | schedule (threshold : Nat) (deferPrefills : Bool) (accepted : Request → Nat)
  /-- The step has run.  Requests cancelled meanwhile leave. -/
  | complete (cancelled : List Nat)
  /-- The external KV of a request is resident up to `boundary`. -/
  | loaded (r : Request) (boundary : Nat)
  | cancel (id : Nat)
  /-- Pages move between steps. -/
  | manage (m : β)

namespace Serving

open StepConfig

variable {β : Type} (paged : PagedConfig) (maxNumSeqs : Option Nat) (cache : Cache β) (budget : Nat)

/-- A request after its step. -/
def settle (batch : List Request) (cancelled : List Nat) (r : Request) : Option Request :=
  if r ∈ batch then
    if r.advance.isDone || cancelled.contains r.id then none else some r.advance
  else some r

/-- A request whose load has ended. -/
def finishLoad (r : Request) (boundary : Nat) : Request :=
  { r.startContextBuild boundary with
    recomputeTokens := if r.needsRecompute then r.contextLen - boundary else r.recomputeTokens
    status := .waiting }

def step (s : Serving β) : ServingEvent β → Option (Serving β)
  | .arrive r =>
    if Ready paged r then some { s with sched := { s.sched with waiting := s.sched.waiting ++ [r] } }
    else none
  | .schedule threshold deferPrefills accepted =>
    if s.batch = [] then
      match StepConfig.schedule ⟨paged, accepted, threshold, deferPrefills, maxNumSeqs⟩ cache s.sched
          (some (budget : Int)) with
      | .ok (sched, step) => some ⟨sched, step.scheduled⟩
      | .error _ => none
    else none
  | .complete cancelled =>
    some ⟨{ s.sched with
      running := s.sched.running.filterMap (settle s.batch cancelled)
      inflightPrefills := s.sched.inflightPrefills.filter fun id =>
        !s.batch.any fun r => r.id == id && !r.advance.isContextBuild }, []⟩
  | .loaded r boundary =>
    if r ∈ s.sched.loading then
      some { s with sched := { s.sched with
        loadedWaiting := s.sched.loadedWaiting ++ [finishLoad r boundary] } }
    else none
  | .cancel id =>
    if s.batch.any (·.id == id) then none
    else
      some { s with sched := { s.sched with
        running := s.sched.running.filter (·.id != id)
        waiting := s.sched.waiting.filter (·.id != id)
        loading := s.sched.loading.filter (·.id != id)
        loadedWaiting := s.sched.loadedWaiting.filter (·.id != id)
        inflightPrefills := s.sched.inflightPrefills.filter (· != id) } }
  | .manage m => some { s with sched := { s.sched with manager := m } }

def start (m : β) : Serving β := ⟨⟨[], [], [], [], [], m⟩, []⟩

instance (s : Serving β) : Decidable (NoDecodeWaits paged s.sched) := by
  unfold NoDecodeWaits
  infer_instance

/-- The requests are ready, and those of the batch have their plan. -/
structure Inv (s : Serving β) : Prop where
  ready : AllReady paged s.sched
  batch : ∀ r ∈ s.batch, Planned r

variable {paged maxNumSeqs cache budget} {s s' : Serving β} {e : ServingEvent β}

theorem Inv.start (m : β) : Inv paged (start m) :=
  ⟨⟨forall_mem_nil _, forall_mem_nil _, forall_mem_nil _, forall_mem_nil _⟩, forall_mem_nil _⟩

theorem Inv.settle (h : Inv paged s) {cancelled : List Nat} {r r' : Request} (hr : Ready paged r)
    (hs : settle s.batch cancelled r = some r') : Ready paged r' := by
  unfold Serving.settle at hs
  split at hs
  · rename_i hmem
    obtain ⟨hdone, ⟨⟩⟩ := Option.ite_none_left_eq_some.mp hs
    refine hr.advance (h.batch r hmem) ?_
    simp only [Bool.or_eq_true, not_or, Bool.not_eq_true] at hdone
    exact hdone.1
  · cases hs
    exact hr

theorem finishLoad_ready {r : Request} (hr : Ready paged r) (boundary : Nat) :
    Ready paged (finishLoad r boundary) := by
  have hcomputed := hr.computed
  refine ⟨hr.live, hr.limit, hr.isOpen, ?_⟩
  show min boundary (r.contextLen - 1) < r.contextLen
  omega

theorem Inv.step (hsync : cache.NoSynchronousHits paged) (h : Inv paged s)
    (hs : step paged maxNumSeqs cache budget s e = some s') : Inv paged s' := by
  cases e with
  | arrive r =>
    obtain ⟨hr, ⟨⟩⟩ := Option.ite_none_right_eq_some.mp hs
    refine ⟨{ h.ready with waiting := ?_ }, h.batch⟩
    exact forall_mem_append.mpr ⟨h.ready.waiting, forall_mem_singleton.mpr hr⟩
  | schedule threshold deferPrefills accepted =>
    obtain ⟨-, hs⟩ := Option.ite_none_right_eq_some.mp hs
    have hpost := schedule_spent ⟨paged, accepted, threshold, deferPrefills, maxNumSeqs⟩ hsync
      h.ready (fun hfalse : False => hfalse.elim) budget
    split at hs
    · rename_i heq
      rw [heq] at hpost
      cases hs
      exact ⟨hpost.1, fun r hr => (hpost.2.ready r hr).2⟩
    · cases hs
  | complete cancelled =>
    cases hs
    refine ⟨{ h.ready with running := fun q hq => ?_ }, forall_mem_nil _⟩
    obtain ⟨r, hr, hsettle⟩ := mem_filterMap.mp hq
    exact h.settle (h.ready.running r hr) hsettle
  | loaded r boundary =>
    obtain ⟨hmem, ⟨⟩⟩ := Option.ite_none_right_eq_some.mp hs
    refine ⟨{ h.ready with loadedWaiting := ?_ }, h.batch⟩
    exact forall_mem_append.mpr ⟨h.ready.loadedWaiting, forall_mem_singleton.mpr
      (finishLoad_ready (h.ready.loading r hmem) boundary)⟩
  | cancel id =>
    obtain ⟨-, ⟨⟩⟩ := Option.ite_none_left_eq_some.mp hs
    exact ⟨⟨fun q hq => h.ready.running q (mem_of_mem_filter hq),
      fun q hq => h.ready.waiting q (mem_of_mem_filter hq),
      fun q hq => h.ready.loading q (mem_of_mem_filter hq),
      fun q hq => h.ready.loadedWaiting q (mem_of_mem_filter hq)⟩, h.batch⟩
  | manage m =>
    cases hs
    exact ⟨{ h.ready with }, h.batch⟩

/-- In every state of a run, a step spends at most its budget and schedules no
request without tokens, unless multi-token prediction is on and a request waits
to decode, or a connector of a grouped cache supplies tokens at once.  It fails
only if the hits of an admission leave no token to compute. -/
theorem schedule_within_budget (hsync : cache.NoSynchronousHits paged) (m : β)
    (hrun : Reaches (step paged maxNumSeqs cache budget) (fun _ _ => True) (start m) s)
    (hwaits : NoDecodeWaits paged s.sched) (threshold : Nat) (deferPrefills : Bool)
    (accepted : Request → Nat) :
    (∃ sched built, StepConfig.schedule ⟨paged, accepted, threshold, deferPrefills, maxNumSeqs⟩ cache
        s.sched (some (budget : Int)) = .ok (sched, built) ∧
      (built.scheduled.map Request.scheduledQueryTokens).sum ≤ budget ∧
      (∃ left : Nat, built.budget = some (left : Int)) ∧
      ∀ r ∈ built.scheduled, 1 ≤ r.scheduledTokens) ∨
    StepConfig.schedule ⟨paged, accepted, threshold, deferPrefills, maxNumSeqs⟩ cache s.sched
        (some (budget : Int)) =
      .error (.simulationState "context-source tokens must leave a real query") ∧
    cache.LeavesNoQuery paged.groupedCache := by
  have hinv : Inv paged s :=
    hrun.invariant (Inv.start m) fun h _ hs => h.step hsync hs
  have hpost := schedule_spent ⟨paged, accepted, threshold, deferPrefills, maxNumSeqs⟩ hsync
    hinv.ready (fun _ : True => hwaits) budget
  cases hs : StepConfig.schedule ⟨paged, accepted, threshold, deferPrefills, maxNumSeqs⟩ cache s.sched
      (some (budget : Int)) with
  | error e =>
    rw [hs] at hpost
    obtain ⟨rfl, hleaves⟩ := hpost
    exact .inr ⟨rfl, hleaves⟩
  | ok result =>
    rw [hs] at hpost
    obtain ⟨left, hbudget, hsum⟩ := hpost.2.left trivial
    exact .inl ⟨result.1, result.2, rfl, by omega, ⟨left, hbudget⟩,
      fun r hr => (hpost.2.scheduled trivial r hr).pos⟩

/-- A grouped cache whose state is the number of free pages.  A connector supplies
some tokens of every request at once. -/
def pagesCache (external : Nat) : Cache Nat where
  asyncOffload := false
  watermarkBlocks := 0
  getNumFreeBlocks m := m
  isOccupyBelowUsage _ := true
  planReuse _ _ := ⟨0, 0, []⟩
  probe _ _ := (0, false)
  canAllocate m _ _ := decide (0 < m)
  canAdmitExternal _ _ _ := false
  allocate m _ := m - 1
  beginLoad m _ _ := m
  getNumNewMatchedTokens m _ _ := (m, external)
  updateStateAfterAlloc m _ _ := m
  canEnsureSlots _ _ _ _ := true
  ensureSlots m _ _ _ := m
  canAppendSlot _ _ := false
  appendSlot m _ := m
  remainingAdmissionSlots _ _ := 0
  releaseRequestBlocks m _ := m + 1

/-- One speculative token. -/
def speculating : PagedConfig := ⟨true, 1, none, true, nofun, fun _ => Nat.one_pos⟩

/-- A new request. -/
def promptRequest (id : Nat) : Request where
  id := id
  prefillLen := 2
  decodeLen := 4
  blockSize := 4
  cacheIdentity := id
  arrivalAt := id

/-- A request decodes, with one speculative token, and another one arrives. -/
def decodesAndArrives : List (ServingEvent Nat) :=
  [.arrive (promptRequest 1), .schedule 0 false fun _ => 1, .complete [], .arrive (promptRequest 2)]

/-- A step with a budget of three tokens. -/
def shortStep (external : Nat) (s : Serving Nat) : Except Err (PagedScheduler Nat × StepState) :=
  StepConfig.schedule ⟨speculating, fun _ => 1, 0, false, none⟩ (pagesCache external) s.sched (some 3)

theorem schedule_within_budget_speculating : ∃ s : Serving Nat,
    (∃ r ∈ s.sched.running, r.isContextBuild = false) ∧ s.sched.waiting ≠ [] ∧
    ∃ sched built, shortStep 0 s = .ok (sched, built) ∧
      (built.scheduled.map Request.scheduledQueryTokens).sum ≤ 3 := by
  obtain ⟨s, hrun, hwaits, hdecodes, hwaiting⟩ := exists_reaches
    (step speculating none (pagesCache 0) 3) (fun _ _ => True) (start 8) decodesAndArrives
    (fun s => NoDecodeWaits speculating s.sched ∧ (∃ r ∈ s.sched.running, r.isContextBuild = false) ∧
      s.sched.waiting ≠ []) (by decide +kernel)
  rcases schedule_within_budget (fun _ _ _ _ _ => rfl) 8 hrun hwaits 0 false fun _ => 1 with
    ⟨sched, built, heq, hsum, -⟩ | ⟨-, -, m, r, hcomputed, hleaves⟩
  · exact ⟨s, hdecodes, hwaiting, sched, built, heq, hsum⟩
  · have hleaves : (0 : Int) < 0 ∨ (r.contextLen : Int) ≤ 0 + 0 := hleaves
    omega

/-- The next step overdraws its budget. -/
def overdraws (s : Serving Nat) : Bool :=
  match shortStep 0 s with
  | .ok result => decide ((result.2.scheduled.map Request.scheduledQueryTokens).sum = 4 ∧
      result.2.budget = some (-1) ∧ ∃ r ∈ result.2.scheduled, r.scheduledTokens = 0)
  | .error _ => false

/-- The next step raises the given error. -/
def raises (external : Nat) (e : Err) (s : Serving Nat) : Bool :=
  match shortStep external s with
  | .ok _ => false
  | .error e' => decide (e' = e)

/-- Two requests that another worker prefilled wait for a step of three query
tokens.  The first takes two.  The second needs two as well, gets no tokens for
the one that is left, and is scheduled all the same: the budget is overdrawn.

A connector supplies one of two prompt tokens at once, while a request decodes.
The gate sees two tokens to compute.  After the admission there is one, which is
padded to two tokens that the budget does not cover: the step fails. -/
theorem overdrawn_or_refused : (∃ s : Serving Nat,
    Reaches (step speculating none (pagesCache 0) 3) (fun _ _ => True) (start 8) s ∧
    ∃ sched built, shortStep 0 s = .ok (sched, built) ∧
      (built.scheduled.map Request.scheduledQueryTokens).sum = 4 ∧ built.budget = some (-1) ∧
      ∃ r ∈ built.scheduled, r.scheduledTokens = 0) ∧
    ∃ s : Serving Nat, Reaches (step speculating none (pagesCache 1) 3) (fun _ _ => True) (start 8) s ∧
      NoDecodeWaits speculating s.sched ∧
      shortStep 1 s = .error (.configuration "waiting query budget changed after admission") := by
  constructor
  · obtain ⟨s, hrun, hcheck⟩ := exists_reaches (step speculating none (pagesCache 0) 3)
      (fun _ _ => True) (start 8) [.arrive (decodingRequest 1), .arrive (decodingRequest 2)]
      (fun s => overdraws s = true) (by decide +kernel)
    unfold overdraws at hcheck
    split at hcheck
    · rename_i result hs
      obtain ⟨hsum, hbudget, hzero⟩ := of_decide_eq_true hcheck
      exact ⟨s, hrun, result.1, result.2, hs, hsum, hbudget, hzero⟩
    · cases hcheck
  · obtain ⟨s, hrun, hwaits, hcheck⟩ := exists_reaches (step speculating none (pagesCache 1) 3)
      (fun _ _ => True) (start 8) decodesAndArrives
      (fun s => NoDecodeWaits speculating s.sched ∧ raises 1
        (.configuration "waiting query budget changed after admission") s = true)
      (by decide +kernel)
    unfold raises at hcheck
    split at hcheck
    · cases hcheck
    · rename_i hs
      exact ⟨s, hrun, hwaits, of_decide_eq_true hcheck ▸ hs⟩

end Serving

end TokenSim
