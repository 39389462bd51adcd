import TokenSim.Af.ResidentKv
import Mathlib.Algebra.Order.BigOperators.Group.List

/-!
# The books of the resident KV leases

The reserved bytes of a device or a rank are the sum, over the live leases, of what
the lease holds there at its maximum context.  `load` is that amount for one lease,
for devices and ranks alike.
-/

namespace TokenSim

open List OrderedDict Option
open Tally (amount_addAll amount_empty mem_keys_addAll)

open Except

namespace Af

open RankBinding (physicalIdentity rankKey)

/-! ## Loads -/

namespace RuntimePlan

variable {plan : RuntimePlan} {domain instanceName : String} {context : Nat} {b : RankBinding}

/-- The bytes of a rank, if it has any. -/
def size (plan : RuntimePlan) (b : RankBinding) (context : Nat) : Nat :=
  (plan.rankKvBytes b context).toOption.getD 0

/-- What an instance holds on the ranks that share the key `k`. -/
def load {κ : Type} [DecidableEq κ] (plan : RuntimePlan) (key : RankBinding → κ)
    (domain instanceName : String) (context : Nat) (k : κ) : Nat :=
  (((plan.instanceBindings domain instanceName).filter fun b => key b = k).map
    fun b => plan.size b context).sum

/-- What an instance holds, a posting for each of its ranks. -/
def bill {κ : Type} (plan : RuntimePlan) (key : RankBinding → κ) (domain instanceName : String)
    (context : Nat) : List (κ × Int) :=
  (plan.instanceBindings domain instanceName).map fun b => (key b, (plan.size b context : Int))

theorem rankKvBytes_mono {c c' n' : Nat} (hle : c ≤ c') (h : plan.rankKvBytes b c' = .ok n') :
    ∃ n, plan.rankKvBytes b c = .ok n ∧ n ≤ n' := by
  obtain ⟨sizes', hsizes', hn'⟩ := bind_eq_ok.mp h
  rw [pure_eq_ok] at hn'
  suffices hsuff : ∃ sizes, plan.rankLayerKvBytes b c = .ok sizes ∧
      (sizes.map Prod.snd).sum ≤ (sizes'.map Prod.snd).sum by
    obtain ⟨sizes, hsizes, hsum⟩ := hsuff
    exact ⟨_, bind_eq_ok.mpr ⟨sizes, hsizes, rfl⟩, hn' ▸ hsum⟩
  unfold rankLayerKvBytes at hsizes' ⊢
  cases hp : b.kvPartition with
  | none =>
    rw [hp] at hsizes'
    exact ⟨[], rfl, Nat.zero_le _⟩
  | some p =>
    rw [hp] at hsizes'
    obtain ⟨layers, hlayers, hloop⟩ := bind_eq_ok.mp hsizes'
    obtain ⟨hne, hloop⟩ := ite_throw_eq_ok.mp hloop
    obtain ⟨sizes, hsizes, hrel⟩ := mapM_rel (R := fun e' e => e.2 ≤ e'.2) hloop
      (g := fun layer => do
        let perToken ← layerBytesPerToken p layers layer
        let window ← plan.attentionWindow layer
        pure (layer, perToken * windowed window c)) (by
      intro layer _ e' he'
      obtain ⟨perToken, hper, he'⟩ := bind_eq_ok.mp he'
      obtain ⟨window, hwindow, he'⟩ := bind_eq_ok.mp he'
      cases he'
      exact ⟨_, bind_eq_ok.mpr ⟨perToken, hper, bind_eq_ok.mpr ⟨window, hwindow, rfl⟩⟩,
        Nat.mul_le_mul_left perToken (windowed_mono window hle)⟩)
    refine ⟨sizes, bind_eq_ok.mpr ⟨layers, hlayers, ite_throw_eq_ok.mpr ⟨hne, hsizes⟩⟩, ?_⟩
    exact List.Forall₂.sum_le_sum
      (forall₂_map_left_iff.mpr (forall₂_map_right_iff.mpr hrel.flip))

theorem size_of_ok {n : Nat} (h : plan.rankKvBytes b context = .ok n) : plan.size b context = n := by
  rw [size, h]
  rfl

/-- The bytes of an instance exist at every context or at none. -/
def Sized (plan : RuntimePlan) (domain instanceName : String) (context : Nat) : Prop :=
  plan.instanceBindings domain instanceName ≠ [] ∧
  ∀ b ∈ plan.instanceBindings domain instanceName, ∃ n, plan.rankKvBytes b context = .ok n

theorem load_mono {κ : Type} [DecidableEq κ] (key : RankBinding → κ) {c c' : Nat} (hle : c ≤ c')
    (hsized : plan.Sized domain instanceName c') (k : κ) :
    plan.load key domain instanceName c k ≤ plan.load key domain instanceName c' k := by
  unfold load
  refine sum_le_sum fun b hb => ?_
  obtain ⟨n', hn'⟩ := hsized.2 b (mem_of_mem_filter hb)
  obtain ⟨n, hn, hlen⟩ := rankKvBytes_mono hle hn'
  rw [size_of_ok hn, size_of_ok hn']
  exact hlen

theorem mem_map_bill {κ : Type} {key : RankBinding → κ} {k : κ} :
    k ∈ (plan.bill key domain instanceName context).map Prod.fst ↔
      ∃ b ∈ plan.instanceBindings domain instanceName, key b = k := by
  rw [bill, List.map_map, List.mem_map]
  rfl

theorem postings_bill {κ : Type} [DecidableEq κ] (key : RankBinding → κ) (k : κ) :
    postings (plan.bill key domain instanceName context) k =
      (plan.load key domain instanceName context k : Int) := by
  unfold bill load
  induction plan.instanceBindings domain instanceName with
  | nil => rfl
  | cons b bs ih =>
    rw [map_cons, postings_cons, ih]
    by_cases h : key b = k
    · simp [h]
    · simp [h]

theorem Sized.mapM_rankBytes (h : plan.Sized domain instanceName context) :
    ((plan.instanceBindings domain instanceName).mapM fun b => do
      let size ← plan.rankKvBytes b context
      pure (b.rankKey, size)) =
    .ok ((plan.instanceBindings domain instanceName).map
      fun b => (b.rankKey, plan.size b context)) := by
  refine mapM_eq_map fun b hb => ?_
  obtain ⟨n, hn⟩ := h.2 b hb
  exact bind_eq_ok.mpr ⟨n, hn, by rw [size_of_ok hn]; rfl⟩

theorem rankBytes_eq_ok {sizes : List (RankKey × Nat)}
    (h : plan.rankBytes domain instanceName context = .ok sizes) :
    plan.Sized domain instanceName context ∧
    sizes = (plan.instanceBindings domain instanceName).map
      fun b => (b.rankKey, plan.size b context) := by
  obtain ⟨bs, hbs, hloop⟩ := bind_eq_ok.mp h
  have hne : plan.instanceBindings domain instanceName ≠ [] :=
    (ite_throw_eq_ok.mp hbs).1
  rw [bindingsForInstance_eq_ok hbs] at hloop
  have hsized : plan.Sized domain instanceName context := by
    refine ⟨hne, fun b hb => ?_⟩
    obtain ⟨e, he⟩ := exists_of_mapM hloop hb
    obtain ⟨n, hn, -⟩ := bind_eq_ok.mp he
    exact ⟨n, hn⟩
  exact ⟨hsized, ok.inj (hloop.symm.trans hsized.mapM_rankBytes)⟩

theorem Sized.rankBytes (h : plan.Sized domain instanceName context) :
    plan.rankBytes domain instanceName context =
      .ok ((plan.instanceBindings domain instanceName).map
        fun b => (b.rankKey, plan.size b context)) :=
  bind_eq_ok.mpr ⟨_, if_neg h.1, h.mapM_rankBytes⟩

/-- The bytes of an instance by device: one posting for every rank. -/
theorem Sized.deviceBytes (h : plan.Sized domain instanceName context) :
    plan.deviceBytes domain instanceName context =
      .ok (Tally.addAll .empty (plan.bill physicalIdentity domain instanceName context)) := by
  refine bind_eq_ok.mpr ⟨_, h.rankBytes, bind_eq_ok.mpr ⟨_, ?_, rfl⟩⟩
  rw [mapM_map]
  refine mapM_eq_map fun b hb => ?_
  have hbinding := binding_of_mem (mem_instanceBindings.mp hb).1
  exact bind_eq_ok.mpr ⟨b, hbinding, rfl⟩

theorem deviceBytes_eq_ok {sizes : Tally String}
    (h : plan.deviceBytes domain instanceName context = .ok sizes) :
    plan.Sized domain instanceName context ∧
    sizes = Tally.addAll .empty (plan.bill physicalIdentity domain instanceName context) := by
  obtain ⟨ranks, hranks, -⟩ := bind_eq_ok.mp h
  have hsized := (rankBytes_eq_ok hranks).1
  exact ⟨hsized, ok.inj (h.symm.trans hsized.deviceBytes)⟩

end RuntimePlan

/-- What a lease holds under the key `k`: its bytes at its maximum context. -/
abbrev KVLease.holds {κ : Type} [DecidableEq κ] (l : KVLease) (plan : RuntimePlan)
    (key : RankBinding → κ) (k : κ) : Nat :=
  plan.load key l.domain l.instanceName l.maximumContext k

/-- What a lease holds on every device. -/
abbrev KVLease.deviceBill (l : KVLease) (plan : RuntimePlan) : Tally String :=
  .addAll .empty (plan.bill physicalIdentity l.domain l.instanceName l.maximumContext)

/-! ## The loops -/

namespace ResidentKV

open EStateM

variable {plan : RuntimePlan} {s s' : ResidentKV}

theorem chargeDevices_eq (l : List (String × Int)) : ∀ {s : ResidentKV},
    (∀ e ∈ l, e.1 ∈ s.reserved.keys) →
    chargeDevices l s = .ok ⟨⟩ { s with reserved := s.reserved.addAll l } := by
  induction l with
  | nil => intro s _; rfl
  | cons e l ih =>
    intro s h
    refine (congrFun (if_pos (h e mem_cons_self)) s).trans
      (ih (s := { s with reserved := s.reserved.add e.1 e.2 }) fun e he => ?_)
    exact Tally.mem_keys_add.mpr (.inr (h e (mem_cons_of_mem _ he)))

theorem chargeRanks_eq (l : List (RankKey × Nat)) : ∀ {s : ResidentKV},
    chargeRanks l s = .ok ⟨⟩
      { s with reservedByRank := s.reservedByRank.addAll (l.map fun e => (e.1, (e.2 : Int))) } := by
  induction l with
  | nil => intro s; rfl
  | cons e l ih =>
    intro s
    exact ih (s := { s with reservedByRank := s.reservedByRank.add e.1 e.2 })

theorem creditRanks_eq (l : List (RankKey × Nat)) : ∀ {s : ResidentKV},
    (∀ e ∈ l, e.1 ∈ s.reservedByRank.keys) →
    creditRanks l s = .ok ⟨⟩
      { s with reservedByRank := s.reservedByRank.addAll (l.map fun e => (e.1, -(e.2 : Int))) } := by
  induction l with
  | nil => intro s _; rfl
  | cons e l ih =>
    intro s h
    refine (congrFun (if_pos (h e mem_cons_self)) s).trans
      (ih (s := { s with reservedByRank := s.reservedByRank.add e.1 (-e.2) }) fun e he => ?_)
    exact Tally.mem_keys_add.mpr (.inr (h e (mem_cons_of_mem _ he)))

theorem checkRanks_eq_ok {rankSizes : List (RankKey × Nat)} {l : List (RankKey × Nat)}
    (h : s.checkRanks plan rankSizes l = .ok ()) : ∀ e ∈ l, ∃ b size, plan.binding e.1 = .ok b ∧
      Entries.get? rankSizes e.1 = some size ∧
      s.reservedByRank.amount e.1 + size ≤ blockBudget b e.2 := by
  induction l with
  | nil => exact fun e he => absurd he not_mem_nil
  | cons e l ih =>
    obtain ⟨rank, blocks⟩ := e
    obtain ⟨b, hb, h⟩ := bind_eq_ok.mp h
    obtain ⟨size, hsize, h⟩ := bind_eq_ok.mp h
    obtain ⟨hle, h⟩ := ite_throw_eq_ok.mp h
    exact forall_mem_cons.mpr
      ⟨⟨b, size, hb, orRaise_eq_ok.mp hsize, Int.not_lt.mp hle⟩, ih h⟩

theorem checkDevices_eq_ok {l : List (String × Int)} (h : s.checkDevices plan l = .ok ()) :
    ∀ e ∈ l, ∃ st, plan.physicalState e.1 = .ok st ∧ e.1 ∈ s.reserved.keys ∧
      (st.modelBytes : Int) + st.protocolBufferBytes + s.reserved.amount e.1 + e.2 ≤
        st.capacityBytes := by
  induction l with
  | nil => exact fun e he => absurd he not_mem_nil
  | cons e l ih =>
    obtain ⟨physical, size⟩ := e
    obtain ⟨st, hst, h⟩ := bind_eq_ok.mp h
    obtain ⟨reserved, hreserved, h⟩ := bind_eq_ok.mp h
    obtain ⟨hle, h⟩ := ite_throw_eq_ok.mp h
    rw [orRaise_eq_ok] at hreserved
    refine forall_mem_cons.mpr ⟨⟨st, hst, mem_keys_iff.mpr ⟨reserved, hreserved⟩, ?_⟩, ih h⟩
    rw [Tally.amount, hreserved]
    exact Int.not_lt.mp hle

/-! ## The books -/

/-- What the live leases hold together under the key `k`. -/
def held {κ : Type} [DecidableEq κ] (plan : RuntimePlan) (key : RankBinding → κ) (s : ResidentKV)
    (k : κ) : Nat :=
  s.leases.sum fun _ l => l.holds plan key k

/-- A live lease is within its maximum, and its bytes can be computed. -/
structure LeaseOk (plan : RuntimePlan) (s : ResidentKV) (l : KVLease) : Prop where
  bounded : l.currentContext ≤ l.maximumContext
  sized : plan.Sized l.domain l.instanceName l.maximumContext
  ranks : ∀ b ∈ plan.instanceBindings l.domain l.instanceName, b.rankKey ∈ s.reservedByRank.keys

structure Accounts (plan : RuntimePlan) (s : ResidentKV) : Prop where
  devices : ∀ st ∈ plan.physicalStates, st.physicalIdentity ∈ s.reserved.keys
  leases : ∀ id l, s.leases.get? id = some l → LeaseOk plan s l
  reserved : ∀ d, s.reserved.amount d = held plan physicalIdentity s d
  reservedByRank : ∀ rank, s.reservedByRank.amount rank = held plan rankKey s rank
  capacity : ∀ st ∈ plan.physicalStates, (st.modelBytes : Int) + st.protocolBufferBytes +
    s.reserved.amount st.physicalIdentity ≤ st.capacityBytes
  budget : ∀ r ∈ plan.replicas, ∀ e ∈ r.localGpuBlocks, ∀ b, plan.binding e.1 = .ok b →
    s.reservedByRank.amount e.1 ≤ blockBudget b e.2

theorem accounts_init (plan : RuntimePlan) : Accounts plan (init plan) := by
  have hzero : ∀ d, (init plan).reserved.amount d = 0 := by
    intro d
    show (Tally.addAll .empty _).amount d = 0
    rw [amount_addAll, amount_empty, Int.zero_add]
    induction plan.physicalStates with
    | nil => rfl
    | cons st states ih =>
      rw [map_cons, postings_cons, ih]
      split <;> rfl
  refine ⟨?_, nofun, hzero, fun rank => rfl, ?_, ?_⟩
  · intro st hst
    refine (mem_keys_addAll _).mpr (.inr ?_)
    rw [List.map_map]
    exact List.mem_map_of_mem hst
  · intro st hst
    have hfits := plan.model_fits st hst
    rw [hzero]
    omega
  · intro r _ e _ b _
    exact Int.natCast_nonneg _

/-- What an admission that returned has done. -/
structure Admitted (plan : RuntimePlan) (s : ResidentKV) (l : KVLease) (s' : ResidentKV) : Prop where
  fresh : s.leases.get? l.requestId = none
  bounded : l.currentContext ≤ l.maximumContext
  sized : plan.Sized l.domain l.instanceName l.maximumContext
  leases : s'.leases = s.leases.set l.requestId l
  reserved : s'.reserved = s.reserved.addAll (l.deviceBill plan).entries
  reservedByRank : s'.reservedByRank = s.reservedByRank.addAll
    (plan.bill rankKey l.domain l.instanceName l.maximumContext)
  replica : ∃ r ∈ plan.replicas, r.domain = l.domain ∧ r.instanceName = l.instanceName ∧
    ∀ e ∈ r.localGpuBlocks, ∃ b size, plan.binding e.1 = .ok b ∧
      Entries.get? ((plan.instanceBindings l.domain l.instanceName).map
        fun b => (b.rankKey, plan.size b l.maximumContext)) e.1 = some size ∧
      s.reservedByRank.amount e.1 + size ≤ blockBudget b e.2
  fits : ∀ e ∈ (l.deviceBill plan).entries,
    ∃ st, plan.physicalState e.1 = .ok st ∧ e.1 ∈ s.reserved.keys ∧
      (st.modelBytes : Int) + st.protocolBufferBytes + s.reserved.amount e.1 + e.2 ≤
        st.capacityBytes

theorem integer_eq_ok {value minimum : Int} {name : String} {n : Nat}
    (h : integer value name minimum = .ok n) (hmin : 0 ≤ minimum) : (n : Int) = value := by
  obtain ⟨hle, h⟩ := ite_throw_eq_ok.mp h
  cases h
  omega

theorem admission_post (plan : RuntimePlan) (requestId : Int) (domain instanceName : String)
    (maximumContext currentContext : Int) (s : ResidentKV) :
    Post (admission plan requestId domain instanceName maximumContext currentContext) s
      (fun _ s' => ∃ l, l.domain = domain ∧ l.instanceName = instanceName ∧
        (l.requestId : Int) = requestId ∧ (l.maximumContext : Int) = maximumContext ∧
        (l.currentContext : Int) = currentContext ∧ Admitted plan s l s')
      (fun _ s' => s' = s) := by
  unfold admission
  refine post_bind.mpr (post_ofExcept.mpr ⟨fun rid hrid => ?_, fun _ _ => rfl⟩)
  refine post_bind.mpr (post_ofExcept.mpr ⟨fun maximum hmaximum => ?_, fun _ _ => rfl⟩)
  refine post_bind.mpr (post_ofExcept.mpr ⟨fun current hcurrent => ?_, fun _ _ => rfl⟩)
  refine post_bind.mpr (post_get.mpr ?_)
  by_cases hguard : rid ∈ s.leases.keys ∨ current > maximum
  · rw [if_pos hguard]
    exact post_throw.mpr rfl
  rw [if_neg hguard]
  obtain ⟨hfresh, hbounded⟩ := not_or.mp hguard
  refine post_bind.mpr (post_ofExcept.mpr ⟨fun sizes hsizes => ?_, fun _ _ => rfl⟩)
  refine post_bind.mpr (post_ofExcept.mpr ⟨fun rankSizes hrankSizes => ?_, fun _ _ => rfl⟩)
  refine post_bind.mpr (post_ofExcept.mpr ⟨fun replica hreplica => ?_, fun _ _ => rfl⟩)
  refine post_bind.mpr (post_ofExcept.mpr ⟨fun _ hranks => ?_, fun _ _ => rfl⟩)
  refine post_bind.mpr (post_ofExcept.mpr ⟨fun _ hdevices => ?_, fun _ _ => rfl⟩)
  obtain ⟨hsized, rfl⟩ := RuntimePlan.deviceBytes_eq_ok hsizes
  obtain ⟨-, rfl⟩ := RuntimePlan.rankBytes_eq_ok hrankSizes
  have hfits := checkDevices_eq_ok hdevices
  obtain ⟨hr, hdomain, hinstance⟩ := RuntimePlan.replicaForInstance_eq_ok hreplica
  -- from here on nothing raises
  refine post_bind.mpr (post_set.mpr ?_)
  refine post_bind.mpr (post_of_eq (chargeDevices_eq _ fun e he => ?_) (post_of_eq (chargeRanks_eq _) ?_))
  · obtain ⟨-, -, hkey, -⟩ := hfits e he
    exact hkey
  refine ⟨⟨rid, domain, instanceName, maximum, current⟩, rfl, rfl, integer_eq_ok hrid (by decide),
    integer_eq_ok hmaximum (by decide), integer_eq_ok hcurrent (by decide), ?_⟩
  refine ⟨get?_eq_none.mpr hfresh, Nat.not_lt.mp hbounded, hsized, rfl, rfl, ?_,
    ⟨replica, hr, hdomain, hinstance, checkRanks_eq_ok hranks⟩, hfits⟩
  show s.reservedByRank.addAll _ = _
  rw [List.map_map]
  rfl

/-! ## Every call keeps the books -/

variable {l : KVLease} {requestId : Nat}

theorem Admitted.amount_device (h : Admitted plan s l s') (d : String) :
    s'.reserved.amount d = s.reserved.amount d + l.holds plan physicalIdentity d := by
  rw [h.reserved, amount_addAll, Tally.postings_entries, amount_addAll,
    RuntimePlan.postings_bill, amount_empty, Int.zero_add]

theorem Admitted.amount_rank (h : Admitted plan s l s') (rank : RankKey) :
    s'.reservedByRank.amount rank = s.reservedByRank.amount rank +
      l.holds plan rankKey rank := by
  rw [h.reservedByRank, amount_addAll, RuntimePlan.postings_bill]

theorem Admitted.held {κ : Type} [DecidableEq κ] (h : Admitted plan s l s') (key : RankBinding → κ)
    (k : κ) : held plan key s' k =
      held plan key s k + l.holds plan key k := by
  unfold ResidentKV.held
  rw [h.leases, sum_set_of_get?_none h.fresh]

theorem load_eq_zero {κ : Type} [DecidableEq κ] {key : RankBinding → κ} {domain instanceName : String}
    {context : Nat} {k : κ} (h : ∀ b ∈ plan.instanceBindings domain instanceName, key b ≠ k) :
    plan.load key domain instanceName context k = 0 := by
  unfold RuntimePlan.load
  rw [filter_eq_nil_iff.mpr fun b hb => by simpa using h b hb]
  rfl

theorem nodup_rankKeys (plan : RuntimePlan) (l : KVLease) :
    (Entries.keys ((plan.instanceBindings l.domain l.instanceName).map
      fun b => (b.rankKey, plan.size b l.maximumContext))).Nodup := by
  unfold Entries.keys
  rw [List.map_map]
  exact plan.ranks_nodup.sublist (filter_sublist.map _)

theorem Admitted.accounts (h : Admitted plan s l s') (hs : Accounts plan s) : Accounts plan s' where
  devices st hst := by
    rw [h.reserved]
    exact (mem_keys_addAll _).mpr (.inl (hs.devices st hst))
  leases id l' hl' := by
    have hkeys : ∀ rank ∈ s.reservedByRank.keys, rank ∈ s'.reservedByRank.keys := by
      intro rank hrank
      rw [h.reservedByRank]
      exact (mem_keys_addAll _).mpr (.inl hrank)
    rw [h.leases] at hl'
    rcases get?_set_cases hl' with ⟨rfl, rfl⟩ | ⟨-, hl'⟩
    · refine ⟨h.bounded, h.sized, fun b hb => ?_⟩
      rw [h.reservedByRank, mem_keys_addAll, RuntimePlan.mem_map_bill]
      exact .inr ⟨b, hb, rfl⟩
    · have hok := hs.leases id l' hl'
      exact ⟨hok.bounded, hok.sized, fun b hb => hkeys _ (hok.ranks b hb)⟩
  reserved d := by
    rw [h.amount_device, hs.reserved, h.held]
    push_cast
    rfl
  reservedByRank rank := by
    rw [h.amount_rank, hs.reservedByRank, h.held]
    push_cast
    rfl
  capacity st hst := by
    rw [h.amount_device]
    by_cases hkey : st.physicalIdentity ∈ (l.deviceBill plan).keys
    · obtain ⟨size, hsize⟩ := mem_keys_iff.mp hkey
      obtain ⟨st', hst', -, hle⟩ := h.fits (st.physicalIdentity, size) (get?_eq_some_iff.mp hsize)
      cases hst'.symm.trans (RuntimePlan.physicalState_of_mem hst)
      have hamount : size = l.holds plan physicalIdentity st.physicalIdentity := by
        rw [← RuntimePlan.postings_bill, ← Int.zero_add (postings _ _),
          ← amount_empty st.physicalIdentity, ← amount_addAll, Tally.amount, hsize]
        rfl
      dsimp only at hle
      rw [hamount] at hle
      omega
    · have hzero : l.holds plan physicalIdentity st.physicalIdentity = 0 := by
        refine load_eq_zero fun b hb heq => hkey ?_
        rw [mem_keys_addAll, RuntimePlan.mem_map_bill]
        exact .inr ⟨b, hb, heq⟩
      have hle := hs.capacity st hst
      omega
  budget r hr e he b hb := by
    rw [h.amount_rank]
    obtain ⟨replica, hreplica, hdomain, hinstance, hchecked⟩ := h.replica
    obtain ⟨c, hc, hkey, hcdomain, hcinstance⟩ := plan.blocks_own r hr e he
    by_cases hown : l.domain = r.domain ∧ l.instanceName = r.instanceName
    · -- the replica that was checked is this one
      have hsame : replica = r := by
        have hfound := RuntimePlan.replicaForInstance_of_mem hreplica
        rw [hdomain, hinstance, hown.1, hown.2, RuntimePlan.replicaForInstance_of_mem hr] at hfound
        exact (ok.inj hfound).symm
      subst hsame
      obtain ⟨b', size, hb', hsize, hle⟩ := hchecked e he
      cases hb'.symm.trans hb
      have hload : (l.holds plan rankKey e.1 : Int) = size := by
        have hpost := Tally.postings_of_get? (f := Nat.cast) (nodup_rankKeys plan l) hsize
        rw [List.map_map] at hpost
        rw [← RuntimePlan.postings_bill]
        exact hpost
      rw [hload]
      exact hle
    · have hzero : l.holds plan rankKey e.1 = 0 := by
        refine load_eq_zero fun b' hb' heq => hown ?_
        obtain ⟨hmem, hd, hi⟩ := RuntimePlan.mem_instanceBindings.mp hb'
        have hcb : c = b' := by
          have hfound := RuntimePlan.binding_of_mem hc
          rw [hkey, ← heq, RuntimePlan.binding_of_mem hmem] at hfound
          exact (ok.inj hfound).symm
        subst hcb
        exact ⟨hd.symm.trans hcdomain, hi.symm.trans hcinstance⟩
      have hle := hs.budget r hr e he b hb
      omega

theorem commit_post (requestId : Nat) (context : Int) (s : ResidentKV) :
    Post (commit requestId context) s
      (fun _ s' => ∃ l c, s.leases.get? requestId = some l ∧ c ≤ l.maximumContext ∧
        s' = { s with leases := s.leases.set requestId { l with currentContext := c } })
      (fun _ s' => s' = s) := by
  unfold commit
  refine post_bind.mpr (post_ofExcept.mpr ⟨fun c hc => ?_, fun _ _ => rfl⟩)
  refine post_bind.mpr (post_get.mpr ?_)
  refine post_bind.mpr (post_ofExcept.mpr ⟨fun l hl => ?_, fun _ _ => rfl⟩)
  by_cases hguard : c > l.maximumContext
  · rw [if_pos hguard]
    exact post_throw.mpr rfl
  · rw [if_neg hguard]
    exact post_set.mpr ⟨l, c, orRaise_eq_ok.mp hl, Nat.not_lt.mp hguard, rfl⟩

theorem Accounts.commit (hs : Accounts plan s) {requestId c : Nat}
    (hl : s.leases.get? requestId = some l) (hc : c ≤ l.maximumContext) :
    Accounts plan { s with leases := s.leases.set requestId { l with currentContext := c } } := by
  have hheld : ∀ {κ : Type} [DecidableEq κ] (key : RankBinding → κ) (k : κ),
      held plan key { s with leases := s.leases.set requestId { l with currentContext := c } } k =
        held plan key s k := by
    intro κ _ key k
    have hsum := sum_set_of_get? hl (fun _ l => l.holds plan key k) { l with currentContext := c }
    unfold ResidentKV.held
    dsimp only [KVLease.holds] at hsum ⊢
    omega
  refine ⟨hs.devices, fun id l' hl' => ?_, fun d => ?_, fun rank => ?_, hs.capacity, hs.budget⟩
  · rcases get?_set_cases hl' with ⟨-, rfl⟩ | ⟨-, hl'⟩
    · have hok := hs.leases requestId l hl
      exact ⟨hc, hok.sized, hok.ranks⟩
    · have hok := hs.leases id l' hl'
      exact ⟨hok.bounded, hok.sized, hok.ranks⟩
  · rw [hheld]
    exact hs.reserved d
  · rw [hheld]
    exact hs.reservedByRank rank

/-- What a release that returned has done. -/
structure Released (plan : RuntimePlan) (s : ResidentKV) (requestId : Nat) (l : KVLease)
    (s' : ResidentKV) : Prop where
  lease : s.leases.get? requestId = some l
  leases : s'.leases = s.leases.erase requestId
  reserved : s'.reserved = s.reserved.addAll ((l.deviceBill plan).entries.map
      fun e => (e.1, -e.2))
  reservedByRank : s'.reservedByRank = s.reservedByRank.addAll
    ((plan.bill rankKey l.domain l.instanceName l.maximumContext).map fun e => (e.1, -e.2))

/-- Releasing a live lease returns. -/
theorem Accounts.releases (hs : Accounts plan s) (hl : s.leases.get? requestId = some l) :
    ∃ s', release plan requestId s = .ok ⟨⟩ s' ∧ Released plan s requestId l s' := by
  suffices hpost : Post (release plan requestId) s (fun _ s' => Released plan s requestId l s')
      (fun _ _ => False) by
    obtain ⟨⟨⟩, s', hcall, hreleased⟩ := hpost.returns
    exact ⟨s', hcall, hreleased⟩
  have hok := hs.leases requestId l hl
  unfold ResidentKV.release
  refine post_bind.mpr (post_get.mpr ?_)
  rw [hl]
  refine post_bind.mpr (post_of_eq rfl ?_)
  -- the lease is gone: from here on nothing may raise
  refine post_bind.mpr (post_set.mpr ?_)
  rw [hok.sized.deviceBytes, hok.sized.rankBytes]
  refine post_bind.mpr (post_bind.mpr (post_of_eq (chargeDevices_eq _ fun e he => ?_) ?_))
  · obtain ⟨e', he', rfl⟩ := List.mem_map.mp he
    have hkey : e'.1 ∈ (l.deviceBill plan).keys := List.mem_map_of_mem he'
    rw [mem_keys_addAll, RuntimePlan.mem_map_bill] at hkey
    rcases hkey with hkey | ⟨b, hb, hbe⟩
    · cases hkey
    · obtain ⟨st, hst, hid⟩ := plan.has_state b (RuntimePlan.mem_instanceBindings.mp hb).1
      have hdevice := hs.devices st hst
      rw [hid] at hdevice
      exact hbe ▸ hdevice
  refine post_bind.mpr (post_of_eq rfl (post_of_eq (creditRanks_eq _ fun e he => ?_) ?_))
  · obtain ⟨b, hb, rfl⟩ := List.mem_map.mp he
    exact hok.ranks b hb
  · refine ⟨hl, rfl, rfl, ?_⟩
    show s.reservedByRank.addAll _ = _
    rw [RuntimePlan.bill, List.map_map, List.map_map]
    rfl

theorem release_absent (hl : s.leases.get? requestId = none) :
    release plan requestId s = .error .keyError s := by
  have hcall : release plan requestId s =
      EStateM.bind (EStateM.ofExcept ((s.leases.get? requestId).orRaise Err.keyError)) _ s := rfl
  rw [hcall, hl]
  rfl

section

variable (h : Released plan s requestId l s')
include h

theorem Released.amount_device (d : String) :
    s'.reserved.amount d = s.reserved.amount d - l.holds plan physicalIdentity d := by
  rw [h.reserved, amount_addAll, postings_neg, Tally.postings_entries, amount_addAll,
    RuntimePlan.postings_bill, amount_empty, Int.zero_add]
  rfl

theorem Released.amount_rank (rank : RankKey) :
    s'.reservedByRank.amount rank = s.reservedByRank.amount rank -
      l.holds plan rankKey rank := by
  rw [h.reservedByRank, amount_addAll, postings_neg, RuntimePlan.postings_bill]
  rfl

theorem Released.held {κ : Type} [DecidableEq κ]
    (key : RankBinding → κ) (k : κ) : held plan key s' k +
      l.holds plan key k = held plan key s k := by
  unfold ResidentKV.held
  rw [h.leases]
  exact sum_erase_of_get? h.lease _

theorem Released.accounts (hs : Accounts plan s) :
    Accounts plan s' where
  devices st hst := by
    rw [h.reserved]
    exact (mem_keys_addAll _).mpr (.inl (hs.devices st hst))
  leases id l' hl' := by
    rw [h.leases] at hl'
    have hok := hs.leases id l' (get?_of_erase hl').2
    refine ⟨hok.bounded, hok.sized, fun b hb => ?_⟩
    rw [h.reservedByRank]
    exact (mem_keys_addAll _).mpr (.inl (hok.ranks b hb))
  reserved d := by
    have hheld := h.held physicalIdentity d
    rw [h.amount_device, hs.reserved]
    omega
  reservedByRank rank := by
    have hheld := h.held rankKey rank
    rw [h.amount_rank, hs.reservedByRank]
    omega
  capacity st hst := by
    have hle := hs.capacity st hst
    rw [h.amount_device]
    omega
  budget r hr e he b hb := by
    have hle := hs.budget r hr e he b hb
    rw [h.amount_rank]
    omega

end

/-- A call keeps the books.  If it raises, nothing has changed. -/
theorem Accounts.perform (hs : Accounts plan s) (c : Call) :
    Post (perform plan c) s (fun _ s' => Accounts plan s') (fun _ s' => s' = s) := by
  cases c with
  | admission id domain instanceName maximum current =>
    refine (admission_post plan id domain instanceName maximum current s).mono ?_ fun _ _ h => h
    rintro _ s' ⟨l, -, -, -, -, -, hadmitted⟩
    exact hadmitted.accounts hs
  | commit id context =>
    refine (commit_post id context s).mono ?_ fun _ _ h => h
    rintro _ s' ⟨l, c, hl, hc, rfl⟩
    exact hs.commit hl hc
  | release id =>
    show Post (release plan id) s _ _
    unfold Post
    cases hl : s.leases.get? id with
    | none => rw [release_absent hl]
    | some l =>
      obtain ⟨s', hcall, hreleased⟩ := hs.releases hl
      rw [hcall]
      exact hreleased.accounts hs

theorem accounts_of_reaches (hrun : Reaches (step plan) (fun _ _ => True) (init plan) s) :
    Accounts plan s := by
  refine hrun.invariant (accounts_init plan) ?_
  intro t c u ht _ hstep
  cases hstep
  refine post_finalState.mp ((ht.perform c).mono (fun _ _ h => h) ?_)
  rintro _ s' rfl
  exact ht

/-- In every state that calls reach, whether they returned or raised: what is
reserved on a device or a rank is what the live leases hold there at their maximum
contexts; devices stay within their capacity and ranks within their blocks; a lease
holds no more than it reserved; a call that raises changes nothing; an admission opens a
lease and adds what it holds at its maximum; and releasing a live lease returns, closes
the lease and takes exactly that away. -/
theorem reservations_exact (plan : RuntimePlan) (s : ResidentKV)
    (hrun : Reaches (step plan) (fun _ _ => True) (init plan) s) :
    (∀ d, s.reserved.amount d = held plan physicalIdentity s d) ∧
    (∀ rank, s.reservedByRank.amount rank = held plan rankKey s rank) ∧
    (∀ st ∈ plan.physicalStates, (st.modelBytes : Int) + st.protocolBufferBytes +
      s.reserved.amount st.physicalIdentity ≤ st.capacityBytes) ∧
    (∀ r ∈ plan.replicas, ∀ e ∈ r.localGpuBlocks, ∀ b, plan.binding e.1 = .ok b →
      s.reservedByRank.amount e.1 ≤ blockBudget b e.2) ∧
    (∀ id l, s.leases.get? id = some l →
      (∀ d, plan.load physicalIdentity l.domain l.instanceName l.currentContext d ≤
        plan.load physicalIdentity l.domain l.instanceName l.maximumContext d) ∧
      ∀ rank, plan.load rankKey l.domain l.instanceName l.currentContext rank ≤
        plan.load rankKey l.domain l.instanceName l.maximumContext rank) ∧
    (∀ c e s', perform plan c s = .error e s' → s' = s) ∧
    (∀ id domain instanceName maximum current s',
      perform plan (.admission id domain instanceName maximum current) s = .ok ⟨⟩ s' →
      s'.leases = s.leases.set id.toNat
        ⟨id.toNat, domain, instanceName, maximum.toNat, current.toNat⟩ ∧
      (∀ d, s'.reserved.amount d = s.reserved.amount d +
        plan.load physicalIdentity domain instanceName maximum.toNat d) ∧
      ∀ rank, s'.reservedByRank.amount rank = s.reservedByRank.amount rank +
        plan.load rankKey domain instanceName maximum.toNat rank) ∧
    (∀ id l, s.leases.get? id = some l → ∃ s', perform plan (.release id) s = .ok ⟨⟩ s' ∧
      s'.leases = s.leases.erase id ∧
      (∀ d, s'.reserved.amount d = s.reserved.amount d -
        plan.load physicalIdentity l.domain l.instanceName l.maximumContext d) ∧
      ∀ rank, s'.reservedByRank.amount rank = s.reservedByRank.amount rank -
        plan.load rankKey l.domain l.instanceName l.maximumContext rank) ∧
    (∀ id, s.leases.get? id = none → perform plan (.release id) s = .error .keyError s) := by
  have hs := accounts_of_reaches hrun
  refine ⟨hs.reserved, hs.reservedByRank, hs.capacity, hs.budget, ?_, ?_, ?_, ?_,
    fun id hl => release_absent hl⟩
  · intro id l hl
    have hok := hs.leases id l hl
    exact ⟨RuntimePlan.load_mono _ hok.bounded hok.sized, RuntimePlan.load_mono _ hok.bounded hok.sized⟩
  · intro c e s' hcall
    have hpost := hs.perform c
    rw [Post, hcall] at hpost
    exact hpost
  · intro id domain instanceName maximum current s' hcall
    have hpost := admission_post plan id domain instanceName maximum current s
    have hcall' : admission plan id domain instanceName maximum current s = .ok ⟨⟩ s' := hcall
    rw [Post, hcall'] at hpost
    obtain ⟨l, rfl, rfl, rfl, rfl, rfl, hadmitted⟩ := hpost
    exact ⟨hadmitted.leases, hadmitted.amount_device, hadmitted.amount_rank⟩
  · intro id l hl
    obtain ⟨s', hcall, hreleased⟩ := hs.releases hl
    exact ⟨s', hcall, hreleased.leases, hreleased.amount_device, hreleased.amount_rank⟩

theorem sharedDevice_fits : ∀ st ∈ [(⟨"gpu0", 64, 10, 2⟩ : PhysicalState)],
    st.modelBytes + st.protocolBufferBytes < st.capacityBytes := by decide

/-- Two attention ranks of one instance on one device, and a rank of another domain
there as well.  Layer 1 has a window of two tokens. -/
def sharedDevice : RuntimePlan where
  totalLayers := 2
  domains := [⟨"a", 1, none⟩, ⟨"f", 1, none⟩]
  rankBindings := [⟨"a", "a0", 0, 0, "gpu0", some ⟨[0], 4, 16, []⟩⟩,
    ⟨"a", "a0", 1, 0, "gpu0", some ⟨[1], 4, 16, []⟩⟩, ⟨"f", "f0", 0, 0, "gpu0", none⟩]
  replicas := [⟨"a", "a0", [(("a", 0), 2), (("a", 1), 2)]⟩, ⟨"f", "f0", [(("f", 0), 0)]⟩]
  physicalStates := [⟨"gpu0", 64, 10, 2⟩]
  attentionWindows := [none, some 2]
  physical_nodup := nodup_singleton "gpu0"
  model_fits := sharedDevice_fits

/-- A lease of three tokens holds ten bytes on each rank.  A second one would exceed
the blocks of the ranks and is refused, and releasing the first leaves nothing reserved. -/
theorem reservations_exact_shared : ∃ s s', s.reserved.amount "gpu0" = 20 ∧
    held sharedDevice physicalIdentity s "gpu0" = 20 ∧
    (12 : Int) + s.reserved.amount "gpu0" ≤ 64 ∧
    perform sharedDevice (.release 7) s = .ok ⟨⟩ s' ∧ s'.leases = s.leases.erase 7 ∧
    s'.reserved.amount "gpu0" = 0 := by
  obtain ⟨s, hrun, hamount, l, hl, hload⟩ := exists_reaches (step sharedDevice) (fun _ _ => True)
    (init sharedDevice) [.admission 7 "a" "a0" 3 1, .admission 8 "a" "a0" 8 1, .commit 7 3]
    (fun s => s.reserved.amount "gpu0" = 20 ∧ ∃ l ∈ s.leases.get? 7,
      sharedDevice.load physicalIdentity l.domain l.instanceName l.maximumContext "gpu0" = 20)
    (by decide +kernel)
  obtain ⟨hreserved, -, hcapacity, -, -, -, -, hrelease, -⟩ :=
    reservations_exact sharedDevice s hrun
  obtain ⟨s', hcall, hleases, hdevice, -⟩ := hrelease 7 l hl
  refine ⟨s, s', hamount, ?_, hcapacity _ (mem_singleton.mpr rfl), hcall, hleases, ?_⟩
  · have hheld := hreserved "gpu0"
    rw [hamount] at hheld
    exact Int.ofNat_inj.mp hheld.symm
  · rw [hdevice, hamount, hload]
    rfl

end ResidentKV

end Af

end TokenSim
