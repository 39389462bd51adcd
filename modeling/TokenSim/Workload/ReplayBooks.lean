import TokenSim.Workload.ReplayPlays

/-!
# The books of a replay

`Inv` is what holds between the plays, the requests in flight, the records and the log
of issued turns in every state of a replay, also after an exception has left it.

An issued turn stays behind its cursor or under it: the cursor then has a request in
flight or is terminal, and is not ready.  So no turn is issued twice.  Every request id
is either in flight or in one record.
-/

namespace TokenSim

open List Option

namespace Replay

/-- The turn before an issued one and those it depends on were completed, and the
branches that join at it had been opened and had ended. -/
structure Issued.Permitted (e : Issued) (c : StreamCursor) (turn : GraphTurn) : Prop where
  cursor : e.found.streams.get? e.stream = some c
  index : c.index = e.turnIndex
  current : c.conversation.turns[e.turnIndex]? = some turn
  previous : ∀ i, i + 1 = e.turnIndex → ⟨e.stream, i⟩ ∈ e.found.completed
  predecessors : ∀ p ∈ turn.predecessors, p ∈ e.found.completed
  joins : c.ordinal = 0 → ∀ b ∈ e.found.graph.branches, b.joinTurnIndex = some e.turnIndex →
    b.branchId ∈ e.found.openedBranches ∧ ∀ child ∈ b.childConversationIds,
      ∃ d, e.found.streams.get? child = some d ∧ d.terminal = true

namespace TreePlay

variable {play : TreePlay} {now : Rat} {c : StreamCursor} {turn : GraphTurn}

theorem ready_eq_some (h : play.ready now c = some turn) :
    c.active = true ∧ c.terminal = false ∧ c.inFlight = none ∧
      c.conversation.turns[c.index]? = some turn ∧ play.joinsReady c ∧
      ∀ p ∈ turn.predecessors, p ∈ play.completed := by
  unfold ready at h
  split at h
  · next hcursor =>
    obtain ⟨hturn, hready⟩ := filter_eq_some_iff.mp h
    have hready := of_decide_eq_true hready
    exact ⟨hcursor.1, hcursor.2.1, hcursor.2.2, hturn, hready.2.1, hready.2.2⟩
  · cases h

end TreePlay

/-- A turn is behind a cursor, or under one that is not ready. -/
def StreamCursor.Past (c : StreamCursor) (i : Nat) : Prop :=
  i < c.index ∨ i = c.index ∧ (c.inFlight.isSome = true ∨ c.terminal = true)

theorem StreamCursor.Keeps.past {c c' : StreamCursor} {i : Nat} (h : c.Keeps c')
    (hi : c.Past i) : c'.Past i := by
  unfold StreamCursor.Past
  rw [h.index, h.inFlight]
  exact hi.imp_right fun hunder => ⟨hunder.1, hunder.2.imp_right h.terminal⟩

namespace AgentXReplay

variable {cfg : Config} {s t : AgentXReplay}

/-- The cursor of a conversation in a play. -/
def cursor? (s : AgentXReplay) (n : Nat) (cid : String) : Option StreamCursor :=
  s.plays[n]?.bind fun play => play.streams.get? cid

/-- What holds of a run. -/
structure Inv (s : AgentXReplay) : Prop where
  plays : ∀ play ∈ s.plays, play.Sound
  /-- The cursor of a request in flight refers to it. -/
  linked : ∀ w ∈ s.inFlight, ∀ cid, w.stream = some cid →
    ∃ c, s.cursor? w.play cid = some c ∧ c.inFlight = some w.req.id
  position : ∀ e ∈ s.issued, ∃ c, s.cursor? e.play e.stream = some c ∧ c.Past e.turnIndex
  once : (s.issued.map fun e => (e.play, e.stream, e.turnIndex)).Nodup
  permitted : ∀ e ∈ s.issued, ∃ c turn, e.Permitted c turn
  numbered : ∀ id, s.inFlight.countP (fun w => w.req.id = id) +
    s.records.countP (fun r => r.requestId = id) = if id < s.nextId then 1 else 0
  sent : ∀ p, s.sent p = s.counts p .successful + s.counts p .error + s.counts p .cancelled +
    s.inFlight.countP fun w => w.req.measurementPhase = p
  counted : ∀ p o, s.counts p o = s.records.countP fun r => r.phase = p ∧ r.outcome = o

/-! ## Plays -/

/-- New plays and cursors that keep their turns and requests. -/
theorem Inv.replays (h : s.Inv) {plays : List TreePlay}
    (hkept : ∀ (n : Nat) (play : TreePlay), s.plays[n]? = some play →
      ∃ play', plays[n]? = some play' ∧ play.Later play')
    (hsound : ∀ play ∈ plays, play.Sound) : ({ s with plays } : AgentXReplay).Inv := by
  have hcursor : ∀ n cid c, s.cursor? n cid = some c →
      ∃ c', ({ s with plays } : AgentXReplay).cursor? n cid = some c' ∧ c.Keeps c' := by
    intro n cid c hc
    obtain ⟨play, hplay, hc⟩ := bind_eq_some_iff.mp hc
    obtain ⟨play', hplay', hlater⟩ := hkept n play hplay
    obtain ⟨c', hc', hkeeps⟩ := hlater cid c hc
    exact ⟨c', bind_eq_some_iff.mpr ⟨play', hplay', hc'⟩, hkeeps⟩
  refine { h with plays := hsound, linked := fun w hw cid hcid => ?_, position := fun e he => ?_ }
  · obtain ⟨c, hc, hin⟩ := h.linked w hw cid hcid
    obtain ⟨c', hc', hkeeps⟩ := hcursor _ _ c hc
    exact ⟨c', hc', hkeeps.inFlight.trans hin⟩
  · obtain ⟨c, hc, hpast⟩ := h.position e he
    obtain ⟨c', hc', hkeeps⟩ := hcursor _ _ c hc
    exact ⟨c', hc', hkeeps.past hpast⟩

theorem sound_modifyPlay (h : ∀ play ∈ s.plays, play.Sound) {n : Nat} {f : TreePlay → TreePlay}
    (hf : ∀ play, s.plays[n]? = some play → (f play).Sound) :
    ∀ play ∈ (s.modifyPlay n f).plays, play.Sound := by
  intro play hplay
  obtain ⟨m, hm⟩ := mem_iff_getElem?.mp hplay
  simp only [AgentXReplay.modifyPlay, getElem?_modify, Option.map_eq_map] at hm
  obtain ⟨old, hold, rfl⟩ := map_eq_some_iff.mp hm
  split
  · next hnm => exact hf old (hnm ▸ hold)
  · exact h old (mem_of_getElem? hold)

theorem cursor?_modifyPlay {n : Nat} {play : TreePlay} {f : TreePlay → TreePlay}
    (hplay : s.plays[n]? = some play) (m : Nat) (j : String) : (s.modifyPlay n f).cursor? m j =
      if n = m then (f play).streams.get? j else s.cursor? m j := by
  simp only [cursor?, AgentXReplay.modifyPlay, getElem?_modify, Option.map_eq_map]
  by_cases hm : n = m
  · subst hm
    simp [hplay]
  · simp [hm]

theorem Inv.modifyPlay (h : s.Inv) {n : Nat} {f : TreePlay → TreePlay}
    (hf : ∀ play, play.Sound → (f play).Sound ∧ play.Later (f play)) : (s.modifyPlay n f).Inv := by
  refine h.replays (fun m play hm => ?_) (sound_modifyPlay h.plays fun play hplay =>
    (hf play (h.plays play (mem_of_getElem? hplay))).1)
  simp only [getElem?_modify, hm, Option.map_eq_map, map_some]
  by_cases hnm : n = m
  · exact ⟨f play, by simp [hnm], (hf play (h.plays play (mem_of_getElem? hm))).2⟩
  · exact ⟨play, by simp [hnm], .refl play⟩

theorem Inv.newPlay (h : s.Inv) (graph : TraceGraph) (lane : Nat) {snapshot : Option Snapshot}
    (hsnap : ∀ snap, snapshot = some snap → snap.Aligned) :
    (s.newPlay cfg graph lane snapshot).Inv := by
  refine { h.replays (fun m play hm => ⟨play, ?_, .refl play⟩) (forall_mem_append.mpr ⟨h.plays,
    forall_mem_singleton.mpr (tree_sound (s.clock cfg) graph lane _ hsnap)⟩) with }
  rw [getElem?_append_left (List.getElem?_eq_some_iff.mp hm).1]
  exact hm

theorem Inv.start (h : s.Inv) (lanes : List (TraceGraph × Option Rat)) :
    (s.start cfg lanes).Inv := by
  have h' : ({ s with phase := if cfg.warmup then .primers else .initial } : AgentXReplay).Inv :=
    { h with }
  refine foldlRecOn (motive := Inv) _ _ h' fun s hs e _ => ?_
  have hsnap : ∀ snap, (e.1.2.bind fun t => snapshotAt e.1.1 t e.2) = some snap →
      snap.Aligned := by
    intro snap hsnap
    obtain ⟨t, -, ht⟩ := bind_eq_some_iff.mp hsnap
    exact snapshotAt_aligned ht
  exact { hs.newPlay e.1.1 e.2 hsnap with }

theorem Inv.recycleLane (h : s.Inv) (lane n : Nat) : (s.recycleLane cfg lane n).Inv := by
  unfold AgentXReplay.recycleLane
  split
  · split
    · next graph _ _ _ =>
      have hnew : (s.newPlay cfg graph lane none).Inv :=
        h.newPlay graph lane fun _ hnone => by cases hnone
      exact { hnew with }
    · exact h
  · exact h

theorem Inv.recycle (h : s.Inv) : (s.recycle cfg).Inv :=
  foldlRecOn (motive := Inv) _ _ h fun _ hs e _ => hs.recycleLane e.2 e.1

theorem Inv.retime (h : s.Inv) (n : Nat) (cid : String) (due : Option Rat) :
    (s.retime n cid due).Inv := by
  refine h.modifyPlay fun play hsound => ?_
  cases hc : play.streams.get? cid with
  | none => exact ⟨hsound, .refl play⟩
  | some c =>
    have hid := hsound.keys cid c hc
    exact ⟨hsound.store { c with due } hc hid rfl rfl (.refl _)
      (hsound.played cid c hc) (hsound.turn cid c hc) rfl,
      .replace { c with due } hc (by simp only [TreePlay.store, hid]) ⟨rfl, rfl, id⟩⟩

/-! ## Submissions -/

/-- A new request, where the plays may already refer to it. -/
theorem Inv.launch_counts (h : s.Inv) (req : Request) (hid : req.id = s.nextId) (n : Nat)
    (stream : Option String) :
    (∀ id, (s.launch req n stream).inFlight.countP (fun w => w.req.id = id) +
      s.records.countP (fun r => r.requestId = id) = if id < s.nextId + 1 then 1 else 0) ∧
    ∀ p, (s.launch req n stream).sent p = s.counts p .successful + s.counts p .error +
      s.counts p .cancelled +
        (s.launch req n stream).inFlight.countP fun w => w.req.measurementPhase = p := by
  constructor
  · intro id
    have hnumbered := h.numbered id
    simp only [launch, countP_append, countP_singleton, hid, decide_eq_true_eq]
    split at hnumbered <;> split <;> split <;> omega
  · intro p
    have hsent := h.sent p
    simp only [launch, countP_append, countP_singleton, decide_eq_true_eq]
    by_cases hp : p = req.measurementPhase
    · rw [if_pos hp, if_pos hp.symm]
      omega
    · rw [if_neg hp, if_neg (Ne.symm hp)]
      omega

theorem makeRequest_id {play : TreePlay} {turn : GraphTurn} {warmup : Bool} {req : Request}
    (h : s.makeRequest cfg play turn warmup = .ok req) : req.id = s.nextId := by
  unfold makeRequest at h
  split at h <;> cases h
  rfl

theorem Inv.primer (h : s.Inv) (n : Nat) (key : TurnKey) (epoch : Nat) :
    (s.primer cfg n key epoch).Inv := by
  unfold AgentXReplay.primer
  split
  · exact h
  · split
    · exact h
    · split
      · exact h
      · split
        · exact { h with }
        · next req hreq =>
          have hcounts := h.launch_counts req (makeRequest_id hreq) n none
          refine ⟨h.plays, fun w hw cid hcid => ?_, h.position, h.once, h.permitted, hcounts.1,
            hcounts.2, h.counted⟩
          rcases mem_append.mp hw with hold | hnew
          · exact h.linked w hold cid hcid
          · cases mem_singleton.mp hnew
            cases hcid

theorem Inv.submit (h : s.Inv) {n : Nat} {play : TreePlay} {cid : String} {c : StreamCursor}
    {turn : GraphTurn} {req : Request} (hplay : s.plays[n]? = some play)
    (hc : play.streams.get? cid = some c) (hready : play.ready s.now c = some turn)
    (hid : req.id = s.nextId) : (s.submit req n play c).Inv := by
  obtain ⟨-, hterminal, hflying, hturn, hjoins, hpreds⟩ := TreePlay.ready_eq_some hready
  have hsound := h.plays play (mem_of_getElem? hplay)
  obtain rfl := hsound.keys cid c hc
  have hcounts := h.launch_counts req hid n (some c.conversation.conversationId)
  have hown : s.cursor? n c.conversation.conversationId = some c :=
    bind_eq_some_iff.mpr ⟨play, hplay, hc⟩
  have hcursor : ∀ m j, (s.submit req n play c).cursor? m j =
      if n = m ∧ j = c.conversation.conversationId then some { c with inFlight := some req.id }
      else s.cursor? m j := by
    intro m j
    refine (cursor?_modifyPlay (s := s) hplay m j).trans ?_
    by_cases hm : n = m
    · subst hm
      rw [if_pos rfl, TreePlay.store, OrderedDict.get?_set, cursor?, hplay]
      simp
    · simp [hm]
  refine ⟨sound_modifyPlay h.plays fun p hp => ?_, fun w hw j hj => ?_, fun e he => ?_, ?_,
    fun e he => ?_, hcounts.1, hcounts.2, h.counted⟩
  · cases hplay.symm.trans hp
    exact hsound.store { c with inFlight := some req.id } hc rfl rfl (by simp [hflying])
      (.refl _) (hsound.played _ c hc) (fun _ => (List.getElem?_eq_some_iff.mp hturn).1) rfl
  · rcases mem_append.mp hw with hold | hlast
    · obtain ⟨d, hd, hin⟩ := h.linked w hold j hj
      -- the cursor has no other request
      have hne : ¬ (n = w.play ∧ j = c.conversation.conversationId) := by
        rintro ⟨rfl, rfl⟩
        cases hown.symm.trans hd
        rw [hflying] at hin
        cases hin
      exact ⟨d, by rw [hcursor, if_neg hne, hd], hin⟩
    · cases mem_singleton.mp hlast
      cases hj
      exact ⟨_, (hcursor ..).trans (if_pos ⟨rfl, rfl⟩), rfl⟩
  · rcases mem_append.mp he with hold | hlast
    · obtain ⟨d, hd, hpast⟩ := h.position e hold
      rw [hcursor]
      split
      · next hsame =>
        rw [← hsame.1, hsame.2] at hd
        cases hown.symm.trans hd
        exact ⟨_, rfl, hpast.imp_right fun hunder => ⟨hunder.1, .inl rfl⟩⟩
      · exact ⟨d, hd, hpast⟩
    · cases mem_singleton.mp hlast
      exact ⟨_, (hcursor ..).trans (if_pos ⟨rfl, rfl⟩), .inr ⟨rfl, .inl rfl⟩⟩
  · change ((s.issued ++ [Issued.mk n c.conversation.conversationId c.index play]).map _).Nodup
    rw [map_append]
    refine nodup_append.mpr ⟨h.once, nodup_singleton _, ?_⟩
    rintro a ha b hb rfl
    obtain ⟨e, he, hkey⟩ := List.mem_map.mp ha
    cases mem_singleton.mp hb
    obtain ⟨d, hd, hpast⟩ := h.position e he
    obtain ⟨hn, hstream, hindex⟩ : e.play = n ∧ e.stream = c.conversation.conversationId ∧
        e.turnIndex = c.index := by simpa using hkey
    rw [hn, hstream] at hd
    cases hown.symm.trans hd
    rw [StreamCursor.Past, hindex, hflying, hterminal] at hpast
    simp at hpast
  · rcases mem_append.mp he with hold | hlast
    · exact h.permitted e hold
    · cases mem_singleton.mp hlast
      refine ⟨c, turn, hc, rfl, hturn, fun i hi => hsound.played _ c hc i (Nat.lt_of_succ_le hi.le),
        hpreds, fun hroot b hb hjoin => ?_⟩
      obtain ⟨hopened, hchildren⟩ := hjoins hroot b hb hjoin
      exact ⟨hopened, fun child hchild => (Option.any_eq_true ..).mp (hchildren child hchild)⟩

theorem Inv.issueStream (h : s.Inv) (n : Nat) (cid : String) : (s.issueStream cfg n cid).Inv := by
  unfold AgentXReplay.issueStream
  split
  · exact h
  · next play hplay =>
    split
    · exact h
    · next c hc =>
      split
      · exact h
      · next turn hready =>
        split
        · exact { h with }
        · next req hreq =>
          have hid := makeRequest_id hreq
          dsimp only
          split
          · have hsent : ∀ f, ({ s with pressureSent := f } : AgentXReplay).Inv :=
              fun _ => { h with }
            exact (hsent _).submit hplay hc hready hid
          · exact h.submit hplay hc hready hid

theorem Inv.issueStreams (n lane : Nat) : ∀ (cids : List String) {s : AgentXReplay}, s.Inv →
    (AgentXReplay.issueStreams cfg n lane cids s).Inv
  | [], _, h => h
  | cid :: rest, s, h => by
    rw [AgentXReplay.issueStreams]
    split
    · exact h
    · exact Inv.issueStreams n lane rest (h.issueStream n cid)

theorem Inv.issuePlay (h : s.Inv) (n : Nat) : (s.issuePlay cfg n).Inv := by
  unfold AgentXReplay.issuePlay
  split
  · exact h
  · exact h.issueStreams n _ _

theorem Inv.issueReady (h : s.Inv) : (s.issueReady cfg).Inv := by
  unfold AgentXReplay.issueReady
  split
  · exact foldlRecOn (motive := Inv) _ _ h.recycle fun _ hs n _ => hs.issuePlay n
  · exact h

/-! ## Completions -/

theorem countP_filter_id {l : List Wire} {w : Wire} (hw : w ∈ l)
    (hone : l.countP (fun v => v.req.id = w.req.id) = 1) (p : Wire → Bool) :
    (l.filter fun v => v.req.id ≠ w.req.id).countP p + (if p w then 1 else 0) = l.countP p := by
  rw [countP_eq_length_filter, length_eq_one_iff] at hone
  obtain ⟨v, hv⟩ := hone
  have hmem : w ∈ l.filter fun v => v.req.id = w.req.id := mem_filter.mpr ⟨hw, by simp⟩
  rw [hv, mem_singleton] at hmem
  subst hmem
  rw [countP_eq_countP_filter_add l p (fun v => v.req.id = w.req.id), hv,
    countP_singleton]
  simp only [decide_not, ne_eq]
  omega

section

variable {w : Wire} (h : s.Inv) (hw : w ∈ s.inFlight) (outcome : Outcome)
include h hw outcome

/-- A request goes from those in flight to the records. -/
theorem Inv.record_counts :
    (∀ id, (s.record w outcome).inFlight.countP (fun v => v.req.id = id) +
      (s.record w outcome).records.countP (fun r => r.requestId = id) =
        if id < s.nextId then 1 else 0) ∧
    (∀ p, s.sent p = (s.record w outcome).counts p .successful +
      (s.record w outcome).counts p .error + (s.record w outcome).counts p .cancelled +
        (s.record w outcome).inFlight.countP fun v => v.req.measurementPhase = p) ∧
    ∀ p o, (s.record w outcome).counts p o =
      (s.record w outcome).records.countP fun r => r.phase = p ∧ r.outcome = o := by
  have hpositive : 0 < s.inFlight.countP (fun v => v.req.id = w.req.id) :=
    countP_pos_iff.mpr ⟨w, hw, by simp⟩
  have hone : s.inFlight.countP (fun v => v.req.id = w.req.id) = 1 := by
    have hnumbered := h.numbered w.req.id
    split at hnumbered <;> omega
  have htaken := countP_filter_id hw hone
  refine ⟨fun id => ?_, fun p => ?_, fun p o => ?_⟩
  · have hnumbered := h.numbered id
    have hid := htaken fun v => v.req.id = id
    simp only [decide_eq_true_eq] at hid
    simp only [record, countP_append, countP_singleton, decide_eq_true_eq]
    omega
  · have hsent := h.sent p
    have hphase := htaken fun v => v.req.measurementPhase = p
    simp only [decide_eq_true_eq] at hphase
    simp only [record]
    by_cases hp : p = w.req.measurementPhase
    · rw [if_pos hp.symm] at hphase
      cases outcome <;> simp [hp] at hsent hphase ⊢ <;> omega
    · rw [if_neg (Ne.symm hp)] at hphase
      simp only [hp, false_and, if_false]
      omega
  · have hcounted := h.counted p o
    simp only [record, countP_append, countP_singleton, decide_eq_true_eq]
    by_cases hkey : p = w.req.measurementPhase ∧ o = outcome
    · rw [if_pos hkey, if_pos ⟨hkey.1.symm, hkey.2.symm⟩, hcounted]
    · rw [if_neg hkey, if_neg fun h => hkey ⟨h.1.symm, h.2.symm⟩, hcounted, add_zero]

theorem Inv.record :
    (s.record w outcome).Inv := by
  obtain ⟨hnumbered, hsent, hcounted⟩ := h.record_counts hw outcome
  exact ⟨h.plays, fun v hv => h.linked v (mem_filter.mp hv).1, h.position, h.once,
    h.permitted, hnumbered, hsent, hcounted⟩

theorem Inv.settle {cid : String}
    {play play' : TreePlay} {c : StreamCursor}
    (hplay : s.plays[w.play]? = some play) (hc : play.streams.get? cid = some c)
    (hin : c.inFlight = some w.req.id) (hsound : play'.Sound) (hsettled : play.Settled play' cid c) :
    ((s.record w outcome).modifyPlay w.play fun _ => play').Inv := by
  obtain ⟨hnumbered, hsent, hcounted⟩ := h.record_counts hw outcome
  obtain ⟨c', hc', hin', hmoved⟩ := hsettled.own
  have hown : s.cursor? w.play cid = some c := bind_eq_some_iff.mpr ⟨play, hplay, hc⟩
  have hcursor := cursor?_modifyPlay (s := s) (f := fun _ => play') hplay
  -- the other cursors keep their requests and their turns
  have hothers : ∀ m j d, s.cursor? m j = some d → ¬ (w.play = m ∧ j = cid) →
      ∃ d', (s.modifyPlay w.play fun _ => play').cursor? m j = some d' ∧ d.Keeps d' := by
    intro m j d hd hne
    rw [hcursor]
    split
    · next hm =>
      rw [← hm, cursor?, hplay] at hd
      exact hsettled.others j d (fun hj => hne ⟨hm, hj⟩) hd
    · exact ⟨d, hd, .refl d⟩
  refine ⟨sound_modifyPlay h.plays fun _ _ => hsound, fun v hv j hj => ?_, fun e he => ?_, h.once,
    h.permitted, hnumbered, hsent, hcounted⟩
  · obtain ⟨hv, hne⟩ := mem_filter.mp hv
    simp only [ne_eq, decide_not, Bool.not_eq_true', decide_eq_false_iff_not] at hne
    obtain ⟨d, hd, hdin⟩ := h.linked v hv j hj
    obtain ⟨d', hd', hkeeps⟩ := hothers _ _ d hd (by
      rintro ⟨hm, rfl⟩
      rw [← hm] at hd
      cases hown.symm.trans hd
      exact hne (some.inj (hdin.symm.trans hin)))
    exact ⟨d', hd', hkeeps.inFlight.trans hdin⟩
  · obtain ⟨d, hd, hpast⟩ := h.position e he
    by_cases hsame : w.play = e.play ∧ e.stream = cid
    · rw [← hsame.1, hsame.2] at hd
      cases hown.symm.trans hd
      refine ⟨c', (hcursor ..).trans ((if_pos hsame.1).trans (hsame.2 ▸ hc')), ?_⟩
      rcases hmoved with hlt | ⟨hindex, hterminal⟩
      · rcases hpast with hbehind | hunder
        · exact .inl (hbehind.trans hlt)
        · exact .inl (hunder.1 ▸ hlt)
      · rw [StreamCursor.Past, hindex]
        exact hpast.imp_right fun hunder => ⟨hunder.1, .inr hterminal⟩
    · obtain ⟨d', hd', hkeeps⟩ := hothers _ _ d hd hsame
      exact ⟨d', hd', hkeeps.past hpast⟩

end

theorem Inv.completed (h : s.Inv) (id : Nat) (ok isDone cancelRequested : Bool) :
    (s.completed cfg id ok isDone cancelRequested).Inv := by
  unfold AgentXReplay.completed
  split
  · exact h
  · next w hfind =>
    have hw := mem_of_find?_eq_some hfind
    dsimp only
    split
    · next cid play hstream hplay =>
      obtain ⟨c, hc, hin⟩ := h.linked w hw cid hstream
      rw [cursor?, hplay] at hc
      have hspec := TreePlay.settle_spec (s.clock cfg) (h.plays play (mem_of_getElem? hplay)) hc
        (by rw [hin]; rfl)
      obtain ⟨hsound, hsettled⟩ := hspec w.req.measurementPhase _
      exact { h.settle hw _ hplay hc hin hsound hsettled with }
    · exact h.record hw _

/-! ## Runs -/

theorem init_inv : init.Inv :=
  ⟨nofun, nofun, nofun, nodup_nil, nofun, fun _ => rfl, fun _ => rfl, fun _ _ => rfl⟩

theorem Inv.step (h : s.Inv) {event : Event} (hs : s.step cfg event = some t) : t.Inv := by
  unfold AgentXReplay.step at hs
  split at hs
  · cases hs
  · cases event with
    | start lanes =>
      dsimp only at hs
      split at hs <;> cases hs
      exact h.start lanes
    | primer n key epoch =>
      cases hs
      exact h.primer n key epoch
    | issueReady =>
      dsimp only at hs
      split at hs <;> cases hs
      exact h.issueReady
    | completed id ok isDone cancelRequested =>
      cases hs
      exact h.completed id ok isDone cancelRequested
    | beginProfiling =>
      dsimp only at hs
      split at hs <;> cases hs
      exact Inv.recycle { h with }
    | retime n cid due =>
      cases hs
      exact h.retime n cid due
    | rebase n origin =>
      cases hs
      exact h.modifyPlay fun play hsound => ⟨{ hsound with }, .refl play⟩
    | tick | beginPressure | beginWarmupDrain | beginGrace | finish =>
      dsimp only at hs
      split at hs <;> cases hs
      exact { h with }

/-- The books of a replay are right. -/
structure Books (s : AgentXReplay) : Prop where
  inFlight : ∀ play ∈ s.plays, play.inFlight = play.flying
  active : ∀ play ∈ s.plays, play.activeStreams.Nodup ∧ ∀ cid, cid ∈ play.activeStreams ↔
    ∃ c, play.streams.get? cid = some c ∧ c.active = true ∧ c.terminal = false
  unfinished : ∀ play ∈ s.plays, play.unfinishedStreams = play.unfinished
  /-- No turn of a play is issued twice. -/
  once : (s.issued.map fun e => (e.play, e.stream, e.turnIndex)).Nodup
  permitted : ∀ e ∈ s.issued, ∃ c turn, e.Permitted c turn
  sent : ∀ p, s.sent p = s.counts p .successful + s.counts p .error + s.counts p .cancelled +
    s.inFlight.countP fun w => w.req.measurementPhase = p
  counted : ∀ p o, s.counts p o = s.records.countP fun r => r.phase = p ∧ r.outcome = o
  /-- Every request is in flight or in one record. -/
  outcome : ∀ id < s.nextId, s.inFlight.countP (fun w => w.req.id = id) +
    s.records.countP (fun r => r.requestId = id) = 1

/-- In every state of every replay the books are right. -/
theorem replay_books (cfg : Config) (hs : Reaches (step cfg) (fun _ _ => True) init s) :
    s.Books := by
  have h : s.Inv := hs.invariant (P := Inv) init_inv fun ht _ hstep => ht.step hstep
  exact ⟨fun play hp => (h.plays play hp).inFlight,
    fun play hp => ⟨(h.plays play hp).active_nodup, (h.plays play hp).active⟩,
    fun play hp => (h.plays play hp).unfinished, h.once, h.permitted, h.sent, h.counted,
    fun id hid => (h.numbered id).trans (if_pos hid)⟩

/-! ## A branch that joins -/

def turnAt (cid : String) (i : Nat) (t : Rat) (predecessors : List TurnKey) : GraphTurn :=
  ⟨⟨cid, i⟩, ⟨t, some 1⟩, 1, predecessors⟩

/-- The first turn of the root spawns a worker that joins at the second. -/
def spawning : TraceGraph where
  traceId := "t"
  blockSize := 1
  root := ⟨"t", [turnAt "t" 0 0 [], turnAt "t" 1 5 [⟨"t::fa:000", 0⟩]], by
    intro i turn h
    match i, h with
    | 0, h | 1, h => cases h; rfl
    | _ + 2, h => cases h⟩
  workers := [⟨"t::fa:000", [turnAt "t::fa:000" 0 2 [⟨"t", 0⟩]], by
    intro i turn h
    match i, h with
    | 0, h => cases h; rfl
    | _ + 1, h => cases h⟩]
  branches := [⟨"t:flatspawn:0", ["t::fa:000"], 0, some 1, 2⟩]
  timeStartS := 0
  root_id := rfl
  children := by simp
  spawns := by simp

def oneLane : Config := ⟨16, false, 0, .closedLoop, [spawning]⟩

/-- One request is successful, one fails, and the last one is cancelled. -/
theorem replay_books_spawning : ∃ s, Reaches (step oneLane) (fun _ _ => True) init s ∧
    (s.records.map Record.outcome = [.successful, .error, .cancelled] ∧ s.failed = none) ∧
    s.Books := by
  obtain ⟨s, hs, hstate⟩ := exists_reaches (step oneLane) (fun _ _ => True) init
    [.start [(spawning, none)], .beginProfiling, .issueReady, .completed 0 true true false,
      .tick 1, .issueReady, .completed 1 false false false, .tick 10, .issueReady,
      .completed 2 true false true]
    (fun s => s.records.map Record.outcome = [.successful, .error, .cancelled] ∧ s.failed = none)
    (by decide +kernel)
  exact ⟨s, hs, hstate, replay_books oneLane hs⟩

end AgentXReplay

end Replay

end TokenSim
