import TokenSim.Af.FfnBatcher

/-!
# What the batcher keeps

Four things hold of the queue of a key in every state.  Every member that has arrived
has left, has its result, or waits in the list or in the batch, and no member has two
results.  A task that is about to be interrupted has a batch that nobody waits for.
Every batch fits the configuration, and its query is the sum of its members.  What a
batch was granted it has given back, unless it is still at work.
-/

namespace TokenSim

open List

namespace Af

namespace Batching

open Planning

/-! ## Combines queries -/

/-- A query for the work of several queries. -/
structure Combines (queries : List AFComputeQuery) (query : AFComputeQuery) : Prop where
  localTokens : query.localTokenCount = (queries.map AFComputeQuery.localTokenCount).sum
  /-- The planner gives a query one count for both. -/
  tokens : (∀ q ∈ queries, q.tokenCount = q.localTokenCount) →
    query.tokenCount = (queries.map AFComputeQuery.tokenCount).sum
  assignments : query.assignmentCount = total AFComputeQuery.assignmentCount queries
  workload : ∀ expert, Tally.amount query.workload expert =
    (queries.map fun q => Tally.amount q.workload expert).sum
  edges : ∀ edge, edge ∈ query.routingEdges ↔ ∃ q ∈ queries, edge ∈ q.routingEdges

theorem total_singleton (field : AFComputeQuery → Option Nat) (query : AFComputeQuery) :
    total field [query] = field query := by
  cases h : field query with
  | none => simp [total, h]
  | some n => simp [total, h]

theorem Combines.single (query : AFComputeQuery) : Combines [query] query where
  localTokens := by simp
  tokens _ := by simp
  assignments := (total_singleton _ query).symm
  workload expert := by simp
  edges edge := by simp

theorem amount_mergedWorkload (expert : Nat) (queries : List AFComputeQuery) : ∀ t : Tally Nat,
    Tally.amount (queries.foldl (fun t query => Tally.addAll t query.workload.entries) t) expert =
      Tally.amount t expert + (queries.map fun q => Tally.amount q.workload expert).sum := by
  induction queries with
  | nil => simp
  | cons query queries ih =>
    intro t
    rw [foldl_cons, ih, Tally.amount_addAll, Tally.postings_entries, map_cons,
      sum_cons, Int.add_assoc]

theorem mergeQueries_merged {first query : AFComputeQuery} {rest : List AFComputeQuery}
    (h : mergeQueries first rest = .ok query) : Combines (first :: rest) query := by
  unfold mergeQueries at h
  simp only at h
  split at h
  · cases h
  · cases h
    refine ⟨rfl, fun hsame => ?_, rfl, fun expert => ?_, fun edge => mem_flatMap⟩
    · exact congrArg List.sum (map_congr_left fun q hq => (hsame q hq).symm)
    · have hsum := amount_mergedWorkload expert (first :: rest) .empty
      rw [Tally.amount_empty, Int.zero_add] at hsum
      exact (Tally.amount_update_of_perm (perm_insertionSort _ _) expert).trans hsum

/-! ## Selections -/

/-- A selection among the members of a list. -/
structure Queue.Selection.Fits (limit : Nat) (l : List BatchMember) (s : Queue.Selection) : Prop where
  owners : s.owners = (s.selected.map BatchMember.owner).reverse
  nodup : (s.selected.map BatchMember.owner).Nodup
  tokens : s.tokens = (s.selected.map BatchMember.tokens).sum
  limit : s.selected.length ≤ 1 ∨ s.tokens ≤ limit
  perm : (s.selected ++ s.retained).Perm l
  first : s.selected.head? = l.head?

theorem Queue.Selection.Fits.take {limit : Nat} {l : List BatchMember} {s : Queue.Selection}
    (h : s.Fits limit l) (member : BatchMember) : (s.take limit member).Fits limit (l ++ [member]) := by
  unfold Queue.Selection.take
  split
  · next hretain =>
    have hne : s.selected ≠ [] := by
      rcases hretain with hmem | ⟨hne, -⟩
      · rintro hnil
        rw [h.owners, hnil] at hmem
        cases hmem
      · exact hne
    refine ⟨h.owners, h.nodup, h.tokens, h.limit, ?_, ?_⟩
    · rw [← append_assoc]
      exact h.perm.append_right [member]
    · rw [h.first, head?_append]
      cases l with
      | nil => exact absurd (head?_eq_none_iff.mp h.first) hne
      | cons a l => rfl
  · next htake =>
    rw [not_or, not_and] at htake
    obtain ⟨hnew, hfits⟩ := htake
    refine ⟨?_, ?_, ?_, ?_, ?_, ?_⟩
    · rw [h.owners, map_append, reverse_append]
      rfl
    · rw [map_append, nodup_append]
      refine ⟨h.nodup, nodup_singleton _, fun o ho o' ho' heq => hnew ?_⟩
      rw [mem_singleton.mp ho'] at heq
      rw [h.owners, mem_reverse, ← heq]
      exact ho
    · simp [h.tokens]
    · by_cases hnil : s.selected = []
      · exact .inl (by simp [hnil])
      · exact .inr (Nat.le_of_not_lt (hfits hnil))
    · rw [append_assoc, singleton_append]
      exact perm_middle.trans ((h.perm.cons member).trans (perm_append_singleton member l).symm)
    · rw [head?_append, h.first, head?_append]

theorem Queue.Selection.Fits.foldl {limit : Nat} (l' : List BatchMember) :
    ∀ {l : List BatchMember} {s : Queue.Selection}, s.Fits limit l →
      (l'.foldl (Queue.Selection.take limit) s).Fits limit (l ++ l') := by
  induction l' with
  | nil => intro l s h; simpa using h
  | cons member l' ih =>
    intro l s h
    simpa using ih (h.take member)

theorem Queue.Selection.fits_foldl (limit : Nat) (l : List BatchMember) :
    (l.foldl (Queue.Selection.take limit) ⟨[], [], [], 0⟩).Fits limit l := by
  have hnil : Queue.Selection.Fits limit [] ⟨[], [], [], 0⟩ :=
    ⟨rfl, nodup_nil, rfl, .inl (Nat.zero_le _), .refl _, rfl⟩
  simpa using hnil.foldl l

/-- What holds of a batch that is executed. -/
structure Batch.Fits (config : Config) (b : Batch) : Prop where
  /-- It has the oldest live member of the list. -/
  oldest : ∃ m ∈ b.members, b.live.head? = some m
  subset : ∀ m ∈ b.members, m ∈ b.live
  owners : config.native = false → (b.members.map BatchMember.owner).Nodup
  tokens : config.native = false →
    b.members.length = 1 ∨ (b.members.map BatchMember.tokens).sum ≤ config.limit
  peers : config.native = true → b.members = b.live
  budget : config.native = true →
    (b.members.map fun m => m.block.tokenCount).sum ≤ config.limit
  query : Combines (b.members.map BatchMember.query) b.query

namespace Queue

variable {config : Config} {q : Queue}

variable {first : BatchMember} {query : AFComputeQuery} {rest : List BatchMember}

theorem batchQuery_merged (h : batchQuery first rest = .ok query) :
    Combines ((first :: rest).map BatchMember.query) query := by
  cases rest with
  | nil =>
    cases h
    exact .single first.query
  | cons m rest => exact mergeQueries_merged h

theorem prepare_spec (h : prepare config first rest = .ok query) :
    Combines ((first :: rest).map BatchMember.query) query ∧ (config.native = true →
      ((first :: rest).map fun m => m.block.tokenCount).sum ≤ config.limit) := by
  unfold prepare at h
  cases hquery : batchQuery first rest with
  | error e =>
    rw [hquery] at h
    cases h
  | ok merged =>
    rw [hquery] at h
    change (if _ then _ else _) = _ at h
    split at h
    · cases h
    · next hlimit =>
      cases h
      exact ⟨batchQuery_merged hquery,
        fun hnative => Nat.le_of_not_lt fun hlt => hlimit ⟨hnative, hlt⟩⟩

theorem select_perm (config : Config) (q : Queue) :
    ((q.select config).selected ++ (q.select config).retained).Perm q.live := by
  unfold select
  split
  · simp
  · exact (Selection.fits_foldl config.limit q.live).perm

theorem select_head? (config : Config) (q : Queue) :
    (q.select config).selected.head? = q.live.head? := by
  unfold select
  split
  · rfl
  · exact (Selection.fits_foldl config.limit q.live).first

theorem form_fits (hselected : (q.select config).selected = first :: rest)
    (hquery : prepare config first rest = .ok query) (number : Nat) :
    Batch.Fits config ⟨number, q.live, first :: rest, query⟩ := by
  obtain ⟨hmerged, hbudget⟩ := prepare_spec hquery
  have hhead := select_head? config q
  rw [hselected] at hhead
  have hsubset : ∀ m ∈ first :: rest, m ∈ q.live := fun m hm =>
    (select_perm config q).subset (mem_append_left _ (hselected ▸ hm))
  refine ⟨⟨first, mem_cons_self .., hhead.symm⟩, hsubset, fun hnative => ?_,
    fun hnative => ?_, fun hnative => ?_, hbudget, hmerged⟩
  · have hfits := Selection.fits_foldl config.limit q.live
    rw [select, if_neg (by simp [hnative])] at hselected
    exact hselected ▸ hfits.nodup
  · have hfits := Selection.fits_foldl config.limit q.live
    rw [select, if_neg (by simp [hnative])] at hselected
    have hlimit := hfits.limit
    rw [hfits.tokens, hselected] at hlimit
    exact hlimit.imp (fun hle => le_antisymm hle (by simp)) id
  · rw [select, if_pos hnative] at hselected
    exact hselected.symm

end Queue

/-! ## Leases -/

/-- The requests of the first `batches` batches for `n` resources.  `current` is the
batch at work with what it was granted. -/
structure LeaseBook (n : Nat) (leases : List Lease) (batches : Nat)
    (current : Option (Nat × List Nat)) : Prop where
  nodup : leases.Nodup
  bound : ∀ b i, .granted b i ∈ leases ∨ .released b i ∈ leases ∨ .withdrawn b i ∈ leases →
    b < batches
  released : ∀ b i, .released b i ∈ leases → .granted b i ∈ leases
  withdrawn : ∀ b i, .withdrawn b i ∈ leases → .granted b i ∉ leases
  settled : ∀ b i, .granted b i ∈ leases → .released b i ∈ leases ∨ ∃ g, current = some (b, g)
  holds : ∀ b g, current = some (b, g) → b < batches ∧ ∀ i,
    (.granted b i ∈ leases ↔ i ∈ g) ∧ .released b i ∉ leases ∧ .withdrawn b i ∉ leases ∧
      (i ∈ g → i < n)

variable {b b' i n : Nat} {g : List Nat}

theorem granted_not_mem_closing :
    Lease.granted b' i ∉ closing n b g := by
  intro h
  obtain ⟨j, -, hj⟩ := mem_map.mp h
  split at hj <;> cases hj

theorem released_mem_closing :
    Lease.released b' i ∈ closing n b g ↔ b' = b ∧ i < n ∧ i ∈ g := by
  constructor
  · intro h
    obtain ⟨j, hj, heq⟩ := mem_map.mp h
    split at heq
    · next hg =>
      cases heq
      exact ⟨rfl, mem_range.mp hj, hg⟩
    · cases heq
  · rintro ⟨rfl, hi, hg⟩
    exact mem_map.mpr ⟨i, mem_range.mpr hi, if_pos hg⟩

theorem withdrawn_mem_closing (h : Lease.withdrawn b' i ∈ closing n b g) : b' = b ∧ i ∉ g := by
  obtain ⟨j, -, heq⟩ := mem_map.mp h
  split at heq
  · cases heq
  · next hg =>
    cases heq
    exact ⟨rfl, hg⟩

theorem nodup_closing (n b : Nat) (g : List Nat) : (closing n b g).Nodup := by
  refine List.Nodup.map_on (fun i _ j _ h => ?_) nodup_range
  split at h
  · split at h
    · cases h; rfl
    · cases h
  · split at h
    · cases h
    · cases h; rfl

namespace LeaseBook

variable {batches : Nat} {leases : List Lease}

theorem empty : LeaseBook n [] 0 none where
  nodup := nodup_nil
  bound b i h := by simp at h
  released b i h := by cases h
  withdrawn b i h := by cases h
  settled b i h := by cases h
  holds b g h := by cases h

theorem newBatch (h : LeaseBook n leases batches none) :
    LeaseBook n leases (batches + 1) (some (batches, [])) where
  nodup := h.nodup
  bound b i hb := Nat.lt_succ_of_lt (h.bound b i hb)
  released := h.released
  withdrawn := h.withdrawn
  settled b i hb := .inl ((h.settled b i hb).resolve_right fun ⟨_, hg⟩ => by cases hg)
  holds b g hb := by
    cases hb
    refine ⟨Nat.lt_succ_self _, fun i => ⟨⟨fun hg => ?_, fun hi => by cases hi⟩, fun hr => ?_,
      fun hw => ?_, fun hi => by cases hi⟩⟩
    · exact absurd (h.bound _ i (.inl hg)) (lt_irrefl _)
    · exact absurd (h.bound _ i (.inr (.inl hr))) (lt_irrefl _)
    · exact absurd (h.bound _ i (.inr (.inr hw))) (lt_irrefl _)

theorem grant (h : LeaseBook n leases batches (some (b, g))) {i : Nat} (hi : i < n) (hg : i ∉ g) :
    LeaseBook n (leases ++ [.granted b i]) batches (some (b, i :: g)) := by
  obtain ⟨hb, hholds⟩ := h.holds b g rfl
  refine ⟨?_, ?_, ?_, ?_, ?_, ?_⟩
  · rw [← concat_eq_append]
    exact h.nodup.concat fun hmem => hg ((hholds i).1.mp hmem)
  · intro b' j hmem
    simp only [mem_append, mem_singleton, reduceCtorEq, or_false, Lease.granted.injEq] at hmem
    rcases hmem with (hmem | ⟨rfl, -⟩) | hmem | hmem
    · exact h.bound b' j (.inl hmem)
    · exact hb
    · exact h.bound b' j (.inr (.inl hmem))
    · exact h.bound b' j (.inr (.inr hmem))
  · intro b' j hmem
    simp only [mem_append, mem_singleton, reduceCtorEq, or_false] at hmem
    exact mem_append_left _ (h.released b' j hmem)
  · intro b' j hmem hgranted
    simp only [mem_append, mem_singleton, reduceCtorEq, or_false,
      Lease.granted.injEq] at hmem hgranted
    rcases hgranted with hgranted | ⟨rfl, rfl⟩
    · exact h.withdrawn b' j hmem hgranted
    · exact (hholds j).2.2.1 hmem
  · intro b' j hmem
    simp only [mem_append, mem_singleton, reduceCtorEq, or_false, Lease.granted.injEq] at hmem ⊢
    rcases hmem with hmem | ⟨rfl, -⟩
    · rcases h.settled b' j hmem with hr | ⟨g', hcur⟩
      · exact .inl hr
      · cases hcur
        exact .inr ⟨_, rfl⟩
    · exact .inr ⟨_, rfl⟩
  · intro b' g' hcur
    cases hcur
    refine ⟨hb, fun j => ?_⟩
    obtain ⟨hgranted, hreleased, hwithdrawn, hlt⟩ := hholds j
    simp only [mem_append, mem_singleton, reduceCtorEq, or_false,
      Lease.granted.injEq, true_and, hgranted]
    exact ⟨by rw [mem_cons, or_comm], hreleased, hwithdrawn,
      fun hj => (mem_cons.mp hj).elim (fun heq => heq ▸ hi) hlt⟩

theorem dismiss (h : LeaseBook n leases batches (some (b, []))) :
    LeaseBook n leases batches none where
  nodup := h.nodup
  bound := h.bound
  released := h.released
  withdrawn := h.withdrawn
  settled b' i hmem := by
    refine .inl ((h.settled b' i hmem).resolve_right fun ⟨g', hcur⟩ => ?_)
    cases hcur
    cases ((h.holds b [] rfl).2 i).1.mp hmem
  holds b' g' hcur := by cases hcur

theorem close (h : LeaseBook n leases batches (some (b, g))) :
    LeaseBook n (leases ++ closing n b g) batches none := by
  obtain ⟨hb, hholds⟩ := h.holds b g rfl
  refine ⟨?_, ?_, ?_, ?_, ?_, fun b' g' hcur => by cases hcur⟩
  · refine nodup_append.mpr ⟨h.nodup, nodup_closing n b g, ?_⟩
    rintro x hx y hy rfl
    obtain ⟨i, -, hi⟩ := mem_map.mp hy
    split at hi
    · exact (hholds i).2.1 (hi ▸ hx)
    · exact (hholds i).2.2.1 (hi ▸ hx)
  · intro b' i hmem
    simp only [mem_append, granted_not_mem_closing, or_false, released_mem_closing] at hmem
    rcases hmem with hmem | (hmem | ⟨rfl, -⟩) | hmem | hmem
    · exact h.bound b' i (.inl hmem)
    · exact h.bound b' i (.inr (.inl hmem))
    · exact hb
    · exact h.bound b' i (.inr (.inr hmem))
    · exact (withdrawn_mem_closing hmem).1 ▸ hb
  · intro b' i hmem
    rw [mem_append, released_mem_closing] at hmem
    rcases hmem with hmem | ⟨rfl, -, hi⟩
    · exact mem_append_left _ (h.released b' i hmem)
    · exact mem_append_left _ ((hholds i).1.mpr hi)
  · intro b' i hmem hgranted
    have hbefore : .granted b' i ∈ leases :=
      (mem_append.mp hgranted).resolve_right granted_not_mem_closing
    rcases mem_append.mp hmem with hmem | hmem
    · exact h.withdrawn b' i hmem hbefore
    · obtain ⟨rfl, hi⟩ := withdrawn_mem_closing hmem
      exact hi ((hholds i).1.mp hbefore)
  · intro b' i hmem
    have hgranted : .granted b' i ∈ leases :=
      (mem_append.mp hmem).resolve_right granted_not_mem_closing
    refine .inl (mem_append.mpr ?_)
    rcases h.settled b' i hgranted with hr | ⟨g', hcur⟩
    · exact .inl hr
    · cases hcur
      have hi := (hholds i).1.mp hgranted
      exact .inr (released_mem_closing.mpr ⟨rfl, (hholds i).2.2.2 hi, hi⟩)

end LeaseBook

/-! ## Members -/

namespace Queue

def settledIds (q : Queue) : List Nat := q.settled.map Prod.fst

/-- The members of a queue, where `waiting` are those without a result. -/
structure Kept (q : Queue) (waiting : List BatchMember) : Prop where
  nodup : (waiting.map BatchMember.id).Nodup
  known : ∀ m ∈ waiting, m.id ∈ q.arrived
  unsettled : ∀ m ∈ waiting, m.id ∉ q.settledIds
  once : q.settledIds.Nodup
  settled_known : ∀ id ∈ q.settledIds, id ∈ q.arrived
  fate : ∀ id ∈ q.arrived,
    id ∈ q.cancelled ∨ id ∈ q.settledIds ∨ id ∈ waiting.map BatchMember.id

theorem isLive_iff {q : Queue} {m : BatchMember} : q.isLive m = true ↔ m.id ∉ q.cancelled := by
  simp [isLive]

theorem settledIds_succeed (q : Queue) (members : List BatchMember)
    (outcome : BatchMember → Outcome) : (q.succeed members outcome).settledIds =
      q.settledIds ++ (members.filter q.isLive).map BatchMember.id := by
  simp [settledIds, succeed, Function.comp_def]

namespace Kept

variable {q : Queue} {waiting waiting' members : List BatchMember}

theorem perm (h : q.Kept waiting) (hperm : waiting.Perm waiting') : q.Kept waiting' where
  nodup := (hperm.map _).nodup_iff.mp h.nodup
  known m hm := h.known m (hperm.mem_iff.mpr hm)
  unsettled m hm := h.unsettled m (hperm.mem_iff.mpr hm)
  once := h.once
  settled_known := h.settled_known
  fate id hid := (h.fate id hid).imp_right (Or.imp_right (hperm.map _).mem_iff.mp)

/-- Members that have left need not wait. -/
theorem drop (h : q.Kept (waiting ++ members)) (hleft : ∀ m ∈ members, m.id ∈ q.cancelled) :
    q.Kept waiting where
  nodup := (nodup_append.mp (map_append ▸ h.nodup)).1
  known m hm := h.known m (mem_append_left _ hm)
  unsettled m hm := h.unsettled m (mem_append_left _ hm)
  once := h.once
  settled_known := h.settled_known
  fate id hid := by
    rcases h.fate id hid with hc | hs | hw
    · exact .inl hc
    · exact .inr (.inl hs)
    · rw [map_append, mem_append] at hw
      rcases hw with hw | hw
      · exact .inr (.inr hw)
      · obtain ⟨m, hm, rfl⟩ := mem_map.mp hw
        exact .inl (hleft m hm)

theorem filter (h : q.Kept waiting) {p : BatchMember → Bool}
    (hleft : ∀ m ∈ waiting, p m = false → m.id ∈ q.cancelled) : q.Kept (waiting.filter p) := by
  refine (h.perm (filter_append_perm p waiting).symm).drop fun m hm => ?_
  obtain ⟨hm, hp⟩ := mem_filter.mp hm
  exact hleft m hm (by simpa using hp)

/-- The results of members that waited. -/
theorem succeed (h : q.Kept (waiting ++ members)) (outcome : BatchMember → Outcome) :
    (q.succeed members outcome).Kept waiting := by
  have hmap := h.nodup
  rw [map_append, nodup_append] at hmap
  obtain ⟨hwaiting, hmembers, hdisjoint⟩ := hmap
  refine ⟨hwaiting, fun m hm => h.known m (mem_append_left _ hm), fun m hm => ?_, ?_, ?_, ?_⟩
  · rw [settledIds_succeed, mem_append, not_or]
    refine ⟨h.unsettled m (mem_append_left _ hm), fun hmem => ?_⟩
    obtain ⟨m', hm', heq⟩ := mem_map.mp hmem
    exact hdisjoint m.id (mem_map_of_mem hm) m'.id
      (mem_map_of_mem (mem_filter.mp hm').1) heq.symm
  · rw [settledIds_succeed, nodup_append]
    refine ⟨h.once, hmembers.sublist (filter_sublist.map _), fun id hid id' hid' heq => ?_⟩
    obtain ⟨m, hm, rfl⟩ := mem_map.mp hid'
    exact h.unsettled m (mem_append_right _ (mem_filter.mp hm).1) (heq ▸ hid)
  · intro id hid
    rw [settledIds_succeed, mem_append] at hid
    rcases hid with hid | hid
    · exact h.settled_known id hid
    · obtain ⟨m, hm, rfl⟩ := mem_map.mp hid
      exact h.known m (mem_append_right _ (mem_filter.mp hm).1)
  · intro id hid
    rw [settledIds_succeed, mem_append]
    rcases h.fate id hid with hc | hs | hw
    · exact .inl hc
    · exact .inr (.inl (.inl hs))
    · rw [map_append, mem_append] at hw
      rcases hw with hw | hw
      · exact .inr (.inr hw)
      · by_cases hc : id ∈ q.cancelled
        · exact .inl hc
        · obtain ⟨m, hm, rfl⟩ := mem_map.mp hw
          exact .inr (.inl (.inr (mem_map_of_mem (mem_filter.mpr ⟨hm, isLive_iff.mpr hc⟩))))

theorem fail (h : q.Kept (waiting ++ members)) (e : BatchError) :
    (q.fail members e).Kept waiting := by
  have hall : (members.filter fun m => !q.triggered m) = members := by
    refine filter_eq_self.mpr fun m hm => ?_
    have hm := h.unsettled m (mem_append_right _ hm)
    simpa [triggered, settledIds] using hm
  rw [Queue.fail, hall]
  exact h.succeed _

theorem cancel (h : q.Kept waiting) (id : Nat) :
    ({ q with cancelled := id :: q.cancelled } : Queue).Kept waiting :=
  { h with fate := fun id' hid => (h.fate id' hid).imp_left (mem_cons_of_mem _) }

theorem remaining (h : q.Kept q.pending) : q.Kept q.remaining := by
  refine h.filter fun m hm hp => ?_
  by_contra hc
  have hm := h.unsettled m hm
  have htriggered : q.triggered m = false := by simpa [triggered, settledIds] using hm
  simp [isLive_iff.mpr hc, htriggered] at hp

end Kept

theorem remaining_fail (q : Queue) (e : BatchError) : (q.fail q.pending e).remaining = [] := by
  refine filter_eq_nil_iff.mpr fun m hm => ?_
  intro hboth
  obtain ⟨hlive, hopen⟩ := Bool.and_eq_true_iff.mp hboth
  have hlive : q.isLive m = true := hlive
  have hids : (q.fail q.pending e).settledIds = q.settledIds ++
      ((q.pending.filter fun m => !q.triggered m).filter q.isLive).map BatchMember.id :=
    settledIds_succeed _ _ _
  have hnot : m.id ∉ (q.fail q.pending e).settledIds := by
    simpa [triggered, settledIds] using hopen
  rw [hids, mem_append, not_or] at hnot
  refine hnot.2 (mem_map_of_mem (mem_filter.mpr ⟨mem_filter.mpr ⟨hm, ?_⟩, hlive⟩))
  simpa [triggered, settledIds] using hnot.1

end Queue

end Batching

end Af

end TokenSim
