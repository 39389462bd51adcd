import TokenSim.Workload.Replay

/-!
# The counters of a play

The counters of a play are kept where its cursors change: at the submission of a
request, at its completion and where a branch is opened.  `Sound` says that they agree
with the cursors, and `Sound.replace` is the one rule by which every change of a cursor
keeps it.  A new play is sound also when it starts from a snapshot, as the snapshot
counts the turns before each of its positions as completed.
-/

namespace TokenSim

open List OrderedDict Option

namespace Replay

/-- A cursor keeps its turn and its request, and stays terminal. -/
structure StreamCursor.Keeps (c c' : StreamCursor) : Prop where
  inFlight : c'.inFlight = c.inFlight
  index : c'.index = c.index
  terminal : c.terminal = true → c'.terminal = true

theorem StreamCursor.Keeps.refl (c : StreamCursor) : c.Keeps c := ⟨rfl, rfl, id⟩

theorem StreamCursor.Keeps.trans {a b c : StreamCursor} (h : a.Keeps b) (h' : b.Keeps c) :
    a.Keeps c :=
  ⟨h'.inFlight.trans h.inFlight, h'.index.trans h.index, h'.terminal ∘ h.terminal⟩

namespace TreePlay

variable {play play' play'' : TreePlay} {cid : String} {c : StreamCursor}

/-- The number of cursors with a request in flight. -/
def flying (play : TreePlay) : Nat :=
  play.streams.sum fun _ c => if c.inFlight.isSome then 1 else 0

/-- The number of cursors that are not terminal. -/
def unfinished (play : TreePlay) : Nat := play.streams.sum fun _ c => if c.terminal then 0 else 1

/-- The counters of a play agree with its cursors. -/
structure Sound (play : TreePlay) : Prop where
  keys : ∀ cid c, play.streams.get? cid = some c → c.conversation.conversationId = cid
  inFlight : play.inFlight = play.flying
  active : ∀ cid, cid ∈ play.activeStreams ↔
    ∃ c, play.streams.get? cid = some c ∧ c.active = true ∧ c.terminal = false
  active_nodup : play.activeStreams.Nodup
  unfinished : play.unfinishedStreams = play.unfinished
  /-- The turns before a cursor are completed. -/
  played : ∀ cid c, play.streams.get? cid = some c → ∀ i < c.index, ⟨cid, i⟩ ∈ play.completed
  /-- A cursor with a request in flight is at a turn. -/
  turn : ∀ cid c, play.streams.get? cid = some c → c.inFlight.isSome = true →
    c.index < c.conversation.turns.length

/-- Replacing one cursor keeps the counters if they change with it. -/
theorem Sound.replace (h : play.Sound) (c' : StreamCursor)
    (hc : play.streams.get? cid = some c)
    (hid : c'.conversation.conversationId = cid)
    (hstreams : play'.streams = play.streams.set cid c')
    (hflying : play'.inFlight + (if c.inFlight.isSome then 1 else 0) =
      play.inFlight + (if c'.inFlight.isSome then 1 else 0))
    (hunfinished : play'.unfinishedStreams + (if c.terminal then 0 else 1) =
      play.unfinishedStreams + (if c'.terminal then 0 else 1))
    (hactive : ∀ j, j ∈ play'.activeStreams ↔
      if j = cid then c'.active = true ∧ c'.terminal = false else j ∈ play.activeStreams)
    (hnodup : play'.activeStreams.Nodup) (hcompleted : play.completed ⊆ play'.completed)
    (hplayed : ∀ i < c'.index, ⟨cid, i⟩ ∈ play'.completed)
    (hturn : c'.inFlight.isSome = true → c'.index < c'.conversation.turns.length) :
    play'.Sound := by
  have hget : ∀ j d, play'.streams.get? j = some d →
      j = cid ∧ d = c' ∨ j ≠ cid ∧ play.streams.get? j = some d := by
    intro j d hd
    rw [hstreams] at hd
    exact get?_set_cases hd
  refine ⟨fun j d hd => ?_, ?_, fun j => ?_, hnodup, ?_, fun j d hd => ?_, fun j d hd => ?_⟩
  · rcases hget j d hd with ⟨rfl, rfl⟩ | ⟨-, hd⟩
    · exact hid
    · exact h.keys j d hd
  · have hsum := sum_set_of_get? hc
      (fun _ c => if c.inFlight.isSome then 1 else 0) c'
    rw [← hstreams] at hsum
    have hsum : (play'.flying : Int) + (if c.inFlight.isSome then 1 else 0) =
        play.flying + (if c'.inFlight.isSome then 1 else 0) := by exact_mod_cast hsum
    have hbefore := h.inFlight
    omega
  · rw [hactive j]
    split
    · next hj => simp [hstreams, hj]
    · next hj => simp [hstreams, get?_set, hj, h.active j]
  · have hsum := sum_set_of_get? hc (fun _ c => if c.terminal then 0 else 1) c'
    rw [← hstreams] at hsum
    have hsum : (play'.unfinished : Int) + (if c.terminal then 0 else 1) =
        play.unfinished + (if c'.terminal then 0 else 1) := by exact_mod_cast hsum
    have hbefore := h.unfinished
    omega
  · rcases hget j d hd with ⟨rfl, rfl⟩ | ⟨-, hd⟩
    · exact hplayed
    · exact fun i hi => hcompleted (h.played j d hd i hi)
  · rcases hget j d hd with ⟨rfl, rfl⟩ | ⟨-, hd⟩
    · exact hturn
    · exact h.turn j d hd

/-- All cursors keep their turns and requests. -/
def Later (play play' : TreePlay) : Prop :=
  ∀ cid c, play.streams.get? cid = some c → ∃ c', play'.streams.get? cid = some c' ∧ c.Keeps c'

theorem Later.refl (play : TreePlay) : Later play play := fun _ c hc => ⟨c, hc, .refl c⟩

theorem Later.trans (h : Later play play') (h' : Later play' play'') : Later play play'' := by
  intro cid c hc
  obtain ⟨c', hc', hkeeps⟩ := h cid c hc
  obtain ⟨c'', hc'', hkeeps'⟩ := h' cid c' hc'
  exact ⟨c'', hc'', hkeeps.trans hkeeps'⟩

theorem Later.replace (c' : StreamCursor) (hc : play.streams.get? cid = some c)
    (hstreams : play'.streams = play.streams.set cid c') (hkeeps : c.Keeps c') :
    Later play play' := by
  intro j d hd
  by_cases hj : j = cid
  · subst hj
    cases hc.symm.trans hd
    exact ⟨c', by simp [hstreams], hkeeps⟩
  · exact ⟨d, by simp [hstreams, get?_set, hj, hd], .refl d⟩

/-! ## Branches -/

/-- What opening branches does to a play. -/
def Opens (r r' : TreePlay × Option ReplayError) : Prop :=
  r.1.Sound → r'.1.Sound ∧ Later r.1 r'.1

theorem Opens.refl (r : TreePlay × Option ReplayError) : Opens r r :=
  fun h => ⟨h, .refl _⟩

theorem Opens.trans {r r' r'' : TreePlay × Option ReplayError} (h : Opens r r')
    (h' : Opens r' r'') : Opens r r'' := fun hr =>
  ⟨(h' (h hr).1).1, (h hr).2.trans (h' (h hr).1).2⟩

theorem mem_filter_ne {l : List String} {j cid : String} :
    j ∈ l.filter (· ≠ cid) ↔ if j = cid then False else j ∈ l := by
  by_cases hj : j = cid
  · simp [hj]
  · simp [hj]

section

variable (h : play.Sound) (c' : StreamCursor) (hc : play.streams.get? cid = some c)
  (hid : c'.conversation.conversationId = cid) (hterminal : c'.terminal = c.terminal)
  {inFlight : Int} {completed : List TurnKey}
  (hflying : inFlight + (if c.inFlight.isSome then 1 else 0) =
    play.inFlight + (if c'.inFlight.isSome then 1 else 0))
  (hcompleted : play.completed ⊆ completed) (hplayed : ∀ i < c'.index, ⟨cid, i⟩ ∈ completed)
  (hturn : c'.inFlight.isSome = true → c'.index < c'.conversation.turns.length)
include h hc hid hterminal hflying hcompleted hplayed hturn

/-- Marking a cursor terminal, where it may have changed in other fields. -/
theorem Sound.setTerminal :
    ({ play with inFlight, completed }.setTerminal c').Sound := by
  refine h.replace { c' with terminal := true } hc hid ?_ hflying ?_ ?_ ?_ hcompleted
    hplayed hturn
  · simp only [TreePlay.setTerminal, hid]
  · simp only [TreePlay.setTerminal, hterminal]
    split <;> simp
  · intro j
    simp only [TreePlay.setTerminal, hid, mem_filter_ne]
    simp
  · exact h.active_nodup.filter _

theorem Sound.store (hactive : c'.active = c.active) :
    ({ play with inFlight, completed }.store c').Sound := by
  refine h.replace c' hc hid ?_ hflying ?_ ?_ h.active_nodup hcompleted hplayed hturn
  · simp only [TreePlay.store, hid]
  · simp only [TreePlay.store, hterminal]
  · intro j
    split
    · next hj =>
      subst hj
      simp only [TreePlay.store, h.active, hc, hterminal, hactive]
      simp
    · rfl

end

theorem Sound.activate (h : play.Sound) (hc : play.streams.get? cid = some c)
    (due : Option Rat) :
    ((if c.terminal = true ∨ cid ∈ play.activeStreams then play
      else { play with activeStreams := play.activeStreams ++ [cid] }).store
        { c with active := true, due }).Sound := by
  have hid := h.keys cid c hc
  split
  · next hcase =>
    refine h.replace { c with active := true, due } hc hid
      (by simp only [TreePlay.store, hid]) rfl rfl ?_ h.active_nodup (.refl _)
      (h.played cid c hc) (h.turn cid c hc)
    intro j
    split
    · next hj =>
      subst hj
      simp only [TreePlay.store, h.active, hc]
      rcases hcase with ht | hmem
      · simp [ht]
      · obtain ⟨d, hd, hactive, hterminal⟩ := (h.active j).mp hmem
        cases hc.symm.trans hd
        simp [hactive, hterminal]
    · rfl
  · next hcase =>
    rw [not_or] at hcase
    refine h.replace { c with active := true, due } hc hid
      (by simp only [TreePlay.store, hid]) rfl rfl ?_ ?_ (.refl _)
      (h.played cid c hc) (h.turn cid c hc)
    · intro j
      simp only [TreePlay.store, mem_append, mem_singleton]
      split
      · next hj => simp [hj, hcase.1]
      · next hj => simp [hj]
    · exact nodup_append.mpr ⟨h.active_nodup, nodup_singleton _, by
        intro a ha b hb hab
        exact hcase.2 (by rw [← mem_singleton.mp hb, ← hab]; exact ha)⟩

theorem opens_child (clock : Clock) (completedTurn : GraphTurn) (r : TreePlay × Option ReplayError)
    (cid : String) : Opens r (openChild clock completedTurn r cid) := by
  intro h
  unfold openChild
  split
  · next c _ hc =>
    have hid := h.keys cid c hc
    split
    · refine ⟨h.setTerminal { c with active := true } hc hid rfl rfl
        (.refl _) (h.played cid c hc) (h.turn cid c hc), ?_⟩
      exact Later.replace { c with active := true, terminal := true } hc
        (by simp only [TreePlay.setTerminal, hid]) ⟨rfl, rfl, fun _ => rfl⟩
    · have hlater : ∀ due, Later r.1
          ((if c.terminal = true ∨ cid ∈ r.1.activeStreams then r.1
            else { r.1 with activeStreams := r.1.activeStreams ++ [cid] }).store
              { c with active := true, due }) := by
        intro due
        refine Later.replace { c with active := true, due } hc ?_ ⟨rfl, rfl, id⟩
        split <;> simp only [TreePlay.store, hid]
      dsimp only
      split
      · exact ⟨h.activate hc _, hlater _⟩
      · exact ⟨h.activate hc c.due, hlater c.due⟩
  · exact ⟨h, .refl _⟩

theorem opens_branch (clock : Clock) (completedTurn : GraphTurn) (r : TreePlay × Option ReplayError)
    (branch : Branch) : Opens r (openBranch clock completedTurn r branch) := by
  unfold openBranch
  split
  · exact .refl r
  · have hopened : Opens r ({ r.1 with openedBranches := branch.branchId ::
        r.1.openedBranches }, none) := fun h =>
      ⟨{ h with }, .refl r.1⟩
    exact foldlRecOn (motive := Opens r) _ _ hopened fun r' hr' cid _ =>
      hr'.trans (opens_child clock completedTurn r' cid)

theorem opens_branches (clock : Clock) (play : TreePlay) (completedTurn : GraphTurn) :
    Opens (play, none) (play.openBranches clock completedTurn) :=
  foldlRecOn (motive := Opens (play, none)) _ _ (.refl _) fun r hr branch _ =>
    hr.trans (opens_branch clock completedTurn r branch)

/-! ## Completions -/

/-- The cursor of a completed request has moved on or is terminal; the others keep
theirs. -/
structure Settled (play play' : TreePlay) (cid : String) (c : StreamCursor) : Prop where
  own : ∃ c', play'.streams.get? cid = some c' ∧ c'.inFlight = none ∧
    (c.index < c'.index ∨ c'.index = c.index ∧ c'.terminal = true)
  others : ∀ j d, j ≠ cid → play.streams.get? j = some d →
    ∃ d', play'.streams.get? j = some d' ∧ d.Keeps d'

theorem Settled.of_set (c' : StreamCursor) (hstreams : play'.streams = play.streams.set cid c')
    (hin : c'.inFlight = none)
    (hindex : c.index < c'.index ∨ c'.index = c.index ∧ c'.terminal = true) :
    Settled play play' cid c where
  own := ⟨c', by simp [hstreams], hin, hindex⟩
  others := fun j d hj hd => ⟨d, by simp [hstreams, get?_set, hj, hd], .refl d⟩

theorem Settled.later (h : Settled play play' cid c) (h' : Later play' play'') :
    Settled play play'' cid c where
  own := by
    obtain ⟨c', hc', hin, hindex⟩ := h.own
    obtain ⟨c'', hc'', hkeeps⟩ := h' cid c' hc'
    refine ⟨c'', hc'', hkeeps.inFlight.trans hin, ?_⟩
    rw [hkeeps.index]
    exact hindex.imp_right fun hi => ⟨hi.1, hkeeps.terminal hi.2⟩
  others := fun j d hj hd => by
    obtain ⟨d', hd', hkeeps⟩ := h.others j d hj hd
    obtain ⟨d'', hd'', hkeeps'⟩ := h' j d' hd'
    exact ⟨d'', hd'', hkeeps.trans hkeeps'⟩

theorem settle_spec (clock : Clock) (h : play.Sound) (hc : play.streams.get? cid = some c)
    (hflying : c.inFlight.isSome = true) (phase : MeasurementPhase) (outcome : Outcome) :
    (play.settle clock cid phase outcome).1.Sound ∧
      Settled play (play.settle clock cid phase outcome).1 cid c := by
  have hid := h.keys cid c hc
  have hcount : play.inFlight - 1 + (if c.inFlight.isSome then 1 else 0) =
      play.inFlight + (if (none : Option Nat).isSome then 1 else 0) := by
    simp [hflying]
  obtain ⟨oldTurn, hturn⟩ : ∃ turn, c.conversation.turns[c.index]? = some turn :=
    ⟨_, getElem?_eq_getElem (h.turn cid c hc hflying)⟩
  have hkey := c.conversation.keys c.index oldTurn hturn
  unfold settle
  simp only [hc]
  split
  · rw [hturn]
    dsimp only
    generalize hcompleted : oldTurn.key :: play.completed = completed
    have hsubset : play.completed ⊆ completed := by
      rw [← hcompleted]
      exact subset_cons_self ..
    have hplayed : ∀ i < c.index + 1, (⟨cid, i⟩ : TurnKey) ∈ completed := by
      intro i hi
      rw [← hcompleted, hkey, hid]
      rcases Nat.lt_succ_iff_lt_or_eq.mp hi with hi | rfl
      · exact mem_cons_of_mem _ (h.played cid c hc i hi)
      · exact mem_cons_self ..
    generalize hdue : dueAfter clock _ _ = due
    let next : StreamCursor := { c with inFlight := none, index := c.index + 1, due }
    -- the play before branches are opened
    have hmid : ∀ mid : TreePlay, mid =
        (if c.conversation.turns.length ≤ c.index + 1 then
          { play with inFlight := play.inFlight - 1, completed }.setTerminal next
        else { play with inFlight := play.inFlight - 1, completed }.store next) →
        mid.Sound ∧ Settled play mid cid c := by
      rintro mid rfl
      split
      · exact ⟨h.setTerminal next hc hid rfl hcount hsubset hplayed (by rintro ⟨⟩),
          .of_set { next with terminal := true } (by simp only [TreePlay.setTerminal, next, hid]) rfl
            (.inl (Nat.lt_succ_self _))⟩
      · exact ⟨h.store next hc hid rfl hcount hsubset hplayed (by rintro ⟨⟩) rfl,
          .of_set next (by simp only [TreePlay.store, next, hid]) rfl (.inl (Nat.lt_succ_self _))⟩
    obtain ⟨hsound, hsettled⟩ := hmid _ rfl
    split
    · have hopened := opens_branches clock _ oldTurn hsound
      exact ⟨hopened.1, hsettled.later hopened.2⟩
    · exact ⟨hsound, hsettled⟩
  · exact ⟨h.setTerminal { c with inFlight := none, due := none } hc hid rfl hcount
      (.refl _) (h.played cid c hc) (by rintro ⟨⟩),
      .of_set { c with inFlight := none, due := none, terminal := true }
        (by simp only [TreePlay.setTerminal, hid]) rfl (.inr ⟨rfl, rfl⟩)⟩

end TreePlay

/-! ## New plays -/

/-- The positions of a snapshot are the numbers of turns that it counts as completed. -/
def Snapshot.Aligned (snap : Snapshot) : Prop :=
  ∀ state ∈ snap.states, state.nextTurnIndex =
    (Entries.get? snap.completedBoundaries state.conversationId).getD 0

theorem get?_positive (n : String → Nat) {cid : String} {ids : List String} (h : cid ∈ ids) :
    (Entries.get? (ids.filterMap fun id => if n id = 0 then none else some (id, n id))
      cid).getD 0 = n cid := by
  induction ids with
  | nil => exact absurd h not_mem_nil
  | cons id ids ih =>
    have htail : cid ≠ id → cid ∈ ids := fun hne => (mem_cons.mp h).resolve_left hne
    by_cases hzero : n id = 0
    · rw [filterMap_cons_none (by simp [hzero])]
      by_cases hid : cid ∈ ids
      · exact ih hid
      · have hcid : cid = id := by_contra fun hne => hid (htail hne)
        have hnone : Entries.get? (ids.filterMap fun id =>
            if n id = 0 then none else some (id, n id)) cid = none := by
          rw [Entries.get?_eq_none, Entries.keys, List.mem_map]
          rintro ⟨e, he, rfl⟩
          obtain ⟨id', hid', heq⟩ := mem_filterMap.mp he
          split at heq <;> cases heq
          exact hid hid'
        rw [hnone, hcid, hzero]
        rfl
    · rw [filterMap_cons_some (b := (id, n id)) (by simp [hzero]), Entries.get?]
      split
      · next hid => exact congrArg n hid
      · next hid => exact ih (htail fun h => hid h.symm)

section Snapshots

variable {graph : TraceGraph} {tStarMs : Rat}

theorem mem_ids_of_nextIndex {cid : String} {i : Nat} (h : nextIndex graph tStarMs cid = some i) :
    cid ∈ graph.ids := by
  obtain ⟨c, hc, -⟩ := bind_eq_some_iff.mp h
  have hmem := mem_reverse.mp (mem_of_find?_eq_some hc)
  have hid := find?_some hc
  rw [← of_decide_eq_true hid]
  exact List.mem_map_of_mem hmem

theorem nextIndex_of_mem {state : SnapshotState} (h : state ∈ snapshotStates graph tStarMs) :
    nextIndex graph tStarMs state.conversationId = some state.nextTurnIndex := by
  rcases mem_append.mp h with hroot | hbranch
  · obtain ⟨i, hi, rfl⟩ := map_eq_some_iff.mp (mem_toList.mp hroot)
    exact hi
  · obtain ⟨branch, -, hstate⟩ := mem_flatMap.mp hbranch
    unfold branchStates at hstate
    split at hstate
    · exact absurd hstate not_mem_nil
    · obtain ⟨cid, -, hcid⟩ := mem_filterMap.mp hstate
      obtain ⟨i, hi, rfl⟩ := map_eq_some_iff.mp hcid
      exact hi

theorem snapshotAt_aligned {lane : Nat} {snap : Snapshot}
    (h : snapshotAt graph tStarMs lane = some snap) : snap.Aligned := by
  unfold snapshotAt at h
  dsimp only at h
  split at h <;> cases h
  intro state hstate
  have hnext := nextIndex_of_mem hstate
  have hmem : state.conversationId ∈ graph.ids.dedup.insertionSort (· ≤ ·) :=
    (mem_insertionSort _).mpr (mem_dedup.mpr (mem_ids_of_nextIndex hnext))
  have hboundary : boundary graph tStarMs state.conversationId = state.nextTurnIndex := by
    unfold boundary
    rw [hnext]
  exact hboundary ▸ (get?_positive (boundary graph tStarMs) hmem).symm

end Snapshots

theorem tree_sound (clock : Clock) (graph : TraceGraph) (lane passIndex : Nat)
    {snapshot : Option Snapshot} (hsnap : ∀ snap, snapshot = some snap → snap.Aligned) :
    (tree clock graph lane passIndex snapshot).Sound := by
  have hget : ∀ cid c, (tree clock graph lane passIndex snapshot).streams.get? cid = some c →
      ∃ conv ∈ graph.conversations, ∃ ordinal, conv.conversationId = cid ∧
        c = openCursor clock graph snapshot conv ordinal := by
    intro cid c hc
    rcases get?_update hc with hmem | ⟨-, hnone⟩
    · obtain ⟨e, he, heq⟩ := List.mem_map.mp hmem
      cases heq
      exact ⟨e.1, fst_mem_of_mem_zipIdx he, e.2, rfl, rfl⟩
    · cases hnone
  refine ⟨fun cid c hc => ?_, ?_, fun cid => ?_, ?_, rfl, fun cid c hc i hi => ?_,
    fun cid c hc hin => ?_⟩
  · obtain ⟨conv, -, ordinal, rfl, rfl⟩ := hget cid c hc
    rfl
  · have hzero : (tree clock graph lane passIndex snapshot).flying = 0 := by
      refine sum_eq_zero fun n hn => ?_
      obtain ⟨e, he, rfl⟩ := List.mem_map.mp hn
      obtain ⟨conv, -, ordinal, -, hc⟩ := hget e.1 e.2 (get?_eq_some_iff.mpr he)
      rw [hc]
      rfl
    rw [hzero]
    rfl
  · simp only [get?_eq_some_iff]
    refine List.mem_map.trans ⟨?_, ?_⟩
    · rintro ⟨e, he, rfl⟩
      obtain ⟨he, hactive⟩ := mem_filter.mp he
      simp only [Bool.and_eq_true, Bool.not_eq_true'] at hactive
      exact ⟨e.2, he, hactive⟩
    · rintro ⟨c, hc, hactive, hterminal⟩
      exact ⟨(cid, c), mem_filter.mpr ⟨hc, by simp [hactive, hterminal]⟩, rfl⟩
  · exact (keys_nodup _).sublist (filter_sublist.map Prod.fst)
  · obtain ⟨conv, hconv, ordinal, rfl, rfl⟩ := hget cid c hc
    refine mem_flatMap.mpr ⟨conv, hconv, List.mem_map.mpr ⟨i, mem_range.mpr ?_, rfl⟩⟩
    -- a state of the snapshot is at its boundary
    unfold openCursor at hi
    dsimp only at hi
    cases hstate : (snapshot.bind fun snap => snap.states.reverse.find? fun state =>
        decide (state.conversationId = conv.conversationId)) with
    | none =>
      rw [hstate] at hi
      exact hi
    | some state =>
      rw [hstate] at hi
      obtain ⟨snap, rfl, hfind⟩ := bind_eq_some_iff.mp hstate
      have hmem := mem_reverse.mp (mem_of_find?_eq_some hfind)
      have hid := find?_some hfind
      simp only [decide_eq_true_eq] at hid
      have haligned := hsnap snap rfl state hmem
      rw [hid] at haligned
      exact haligned ▸ hi
  · obtain ⟨conv, -, ordinal, -, rfl⟩ := hget cid c hc
    cases hin

end Replay

end TokenSim
