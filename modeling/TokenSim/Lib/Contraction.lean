import Mathlib.Algebra.BigOperators.Group.List.Basic
import Mathlib.Data.List.Nodup

/-!
# Contracting groups in a list of nodes

A directed acyclic graph is given as a list of nodes with ids and predecessor ids, where
the predecessors of a node stand before it.  A contraction replaces groups of nodes by
one node each: `relabel` says which id an id becomes, one node of each group is kept, and
`fuse` says what it becomes.  The kept node is the first of its group, so a group stands
where its first member stood.

`Contraction.ordered` says that the result is again such a list.  Where the members of a
group have the same predecessors the ancestors stay the same
(`Contracts.ancestor_iff`).  Quantities that a fused node sums up over its group have the
same total before and after (`Contraction.sum_eq`).
-/

universe u v

variable {ι : Type u} {ν : Type v} (key : ν → ι) (preds : ν → List ι)

/-- Distinct ids, and predecessors that stand before their node. -/
structure TopologicalOrder (l : List ν) : Prop where
  nodup : (l.map key).Nodup
  before : ∀ l₁ n l₂, l = l₁ ++ n :: l₂ → ∀ p ∈ preds n, p ∈ l₁.map key

/-- Go through the nodes with the ids that are known so far. -/
def inOrder [DecidableEq ι] : List ι → List ν → Bool
  | _, [] => true
  | known, n :: l =>
    key n ∉ known && (preds n).all (· ∈ known) && inOrder (known ++ [key n]) l

theorem inOrder_spec [DecidableEq ι] : ∀ {l : List ν} {known : List ι}, known.Nodup →
    inOrder key preds known l = true → (known ++ l.map key).Nodup ∧
      ∀ l₁ n l₂, l = l₁ ++ n :: l₂ → ∀ p ∈ preds n, p ∈ known ++ l₁.map key
  | [], known, hknown, _ => by simpa using hknown
  | n :: l, known, hknown, h => by
    simp only [inOrder, Bool.and_eq_true, decide_eq_true_eq, List.all_eq_true] at h
    obtain ⟨⟨hnew, hpreds⟩, hrest⟩ := h
    have hknown' : (known ++ [key n]).Nodup :=
      List.nodup_append.mpr ⟨hknown, List.nodup_singleton _, fun a ha b hb hab =>
        hnew (by rw [← List.mem_singleton.mp hb, ← hab]; exact ha)⟩
    obtain ⟨hnodup, hbefore⟩ := inOrder_spec hknown' hrest
    refine ⟨by simpa using hnodup, fun l₁ m l₂ hsplit p hp => ?_⟩
    cases l₁ with
    | nil =>
      cases hsplit
      simpa using hpreds p hp
    | cons a l₁ =>
      obtain ⟨rfl, htail⟩ := List.cons.inj hsplit
      simpa using hbefore l₁ m l₂ htail p hp

theorem topologicalOrder_of_inOrder [DecidableEq ι] {l : List ν}
    (h : inOrder key preds [] l = true) : TopologicalOrder key preds l := by
  obtain ⟨hnodup, hbefore⟩ := inOrder_spec key preds List.nodup_nil h
  exact ⟨by simpa using hnodup, by simpa using hbefore⟩

/-- `relabel` maps groups of nodes to one node of the result each. -/
structure Contraction (relabel : ι → ι) (kept : ν → Bool) (fuse : ν → ν) (l : List ν) : Prop where
  /-- A group has a kept node, which comes first. -/
  first : ∀ l₁ n l₂, l = l₁ ++ n :: l₂ →
    ∃ r ∈ l₁ ++ [n], kept r = true ∧ relabel (key r) = relabel (key n)
  /-- It has only one. -/
  unique : ∀ r ∈ l, ∀ r' ∈ l, kept r = true → kept r' = true →
    relabel (key r) = relabel (key r') → key r = key r'
  key_fuse : ∀ r ∈ l, kept r = true → key (fuse r) = relabel (key r)
  preds_fuse : ∀ r ∈ l, kept r = true → ∀ x, x ∈ preds (fuse r) ↔
    ∃ n ∈ l, relabel (key n) = relabel (key r) ∧ ∃ p ∈ preds n, relabel p = x
  /-- What the members depend on stands before the group. -/
  early : ∀ l₁ r l₂, l = l₁ ++ r :: l₂ → kept r = true →
    ∀ n ∈ l, relabel (key n) = relabel (key r) → ∀ p ∈ preds n, p ∈ l₁.map key

/-- The result of a contraction. -/
def contracted (kept : ν → Bool) (fuse : ν → ν) (l : List ν) : List ν := (l.filter kept).map fuse

variable {fuse : ν → ν} {kept : ν → Bool}

theorem mem_contracted {l : List ν} {n' : ν} :
    n' ∈ contracted kept fuse l ↔ ∃ r ∈ l, kept r = true ∧ fuse r = n' := by
  simp [contracted, and_assoc]

variable {key preds}

namespace TopologicalOrder

variable {l : List ν} (h : TopologicalOrder key preds l)

include h

theorem eq_of_key_eq {n m : ν} (hn : n ∈ l) (hm : m ∈ l) (heq : key n = key m) : n = m :=
  List.inj_on_of_nodup_map h.nodup hn hm heq

theorem mem_of_pred {n : ν} (hn : n ∈ l) {p : ι} (hp : p ∈ preds n) : ∃ m ∈ l, key m = p := by
  obtain ⟨l₁, l₂, hl⟩ := List.append_of_mem hn
  obtain ⟨m, hm, hkey⟩ := List.mem_map.mp (h.before l₁ n l₂ hl p hp)
  exact ⟨m, hl ▸ List.mem_append_left _ hm, hkey⟩

end TopologicalOrder

namespace Contraction

variable {relabel : ι → ι} {l : List ν} (h : Contraction key preds relabel kept fuse l)

include h

theorem exists_kept {n : ν} (hn : n ∈ l) :
    ∃ r ∈ l, kept r = true ∧ relabel (key r) = relabel (key n) := by
  obtain ⟨l₁, l₂, hl⟩ := List.append_of_mem hn
  obtain ⟨r, hr, hkept, heq⟩ := h.first l₁ n l₂ hl
  refine ⟨r, ?_, hkept, heq⟩
  rw [hl]
  rcases List.mem_append.mp hr with hr | hr
  · exact List.mem_append_left _ hr
  · rw [List.mem_singleton.mp hr]
    exact List.mem_append_right _ List.mem_cons_self

theorem ordered (hl : TopologicalOrder key preds l) :
    TopologicalOrder key preds (contracted kept fuse l) where
  nodup := by
    rw [contracted, List.map_map]
    have hnodup : l.Nodup := hl.nodup.of_map
    refine List.Nodup.map_on (fun r hr r' hr' heq => ?_) (hnodup.filter _)
    obtain ⟨hr, hkept⟩ := List.mem_filter.mp hr
    obtain ⟨hr', hkept'⟩ := List.mem_filter.mp hr'
    simp only [Function.comp, h.key_fuse r hr hkept, h.key_fuse r' hr' hkept'] at heq
    exact hl.eq_of_key_eq hr hr' (h.unique r hr r' hr' hkept hkept' heq)
  before := by
    intro l₁' n' l₂' hsplit x hx
    obtain ⟨f₁, f₂, hfilter, rfl, hrest⟩ := List.map_eq_append_iff.mp hsplit
    obtain ⟨r, f₃, rfl, rfl, -⟩ := List.map_eq_cons_iff.mp hrest
    obtain ⟨l₁, l₃, rfl, rfl, htail⟩ := List.filter_eq_append_iff.mp hfilter
    obtain ⟨k₁, l₂, rfl, hk₁, hkept, -⟩ := List.filter_eq_cons_iff.mp htail
    have hsplit' : l₁ ++ (k₁ ++ r :: l₂) = (l₁ ++ k₁) ++ r :: l₂ := by simp
    have hr : r ∈ l₁ ++ (k₁ ++ r :: l₂) := by simp
    obtain ⟨n, hn, hgroup, p, hp, rfl⟩ := (h.preds_fuse r hr hkept x).mp hx
    obtain ⟨m, hm, rfl⟩ := List.mem_map.mp
      (h.early (l₁ ++ k₁) r l₂ hsplit' hkept n hn hgroup p hp)
    -- the group of the predecessor stands where its first member stood
    obtain ⟨m₁, m₂, hm'⟩ := List.append_of_mem hm
    obtain ⟨r', hr', hkept', heq⟩ := h.first m₁ m (m₂ ++ r :: l₂) (by rw [hsplit', hm']; simp)
    have hbefore : r' ∈ l₁ ++ k₁ := by
      rw [hm']
      rcases List.mem_append.mp hr' with hr' | hr'
      · exact List.mem_append_left _ hr'
      · rw [List.mem_singleton.mp hr']
        exact List.mem_append_right _ List.mem_cons_self
    have hkept₁ : r' ∈ l₁ := by
      rcases List.mem_append.mp hbefore with hr' | hr'
      · exact hr'
      · exact absurd hkept' (hk₁ r' hr')
    rw [← heq, ← h.key_fuse r' (by simp [hkept₁]) hkept', List.map_map]
    exact List.mem_map_of_mem (f := key ∘ fuse) (List.mem_filter.mpr ⟨hkept₁, hkept'⟩)

end Contraction

/-- What the members of the groups have is what the result has. -/
theorem Contraction.mem_iff {β : Type*} {relabel : ι → ι}
    {l : List ν} (h : Contraction key preds relabel kept fuse l) (S : ν → List β)
    (hfuse : ∀ r ∈ l, kept r = true → ∀ x, x ∈ S (fuse r) ↔
      ∃ n ∈ l, relabel (key n) = relabel (key r) ∧ x ∈ S n) (x : β) :
    (∃ n' ∈ contracted kept fuse l, x ∈ S n') ↔ ∃ n ∈ l, x ∈ S n := by
  constructor
  · rintro ⟨n', hn', hx⟩
    obtain ⟨r, hr, hkept, rfl⟩ := mem_contracted.mp hn'
    obtain ⟨n, hn, -, hx⟩ := (hfuse r hr hkept x).mp hx
    exact ⟨n, hn, hx⟩
  · rintro ⟨n, hn, hx⟩
    obtain ⟨r, hr, hkept, heq⟩ := h.exists_kept hn
    exact ⟨fuse r, mem_contracted.mpr ⟨r, hr, hkept, rfl⟩,
      (hfuse r hr hkept x).mpr ⟨n, hn, heq.symm, hx⟩⟩

/-! ## Ancestors -/

section Ancestors

variable (key preds)

/-- `u` is an ancestor of `v`. -/
def Ancestor (l : List ν) : ι → ι → Prop :=
  Relation.TransGen fun u v => ∃ n ∈ l, key n = v ∧ u ∈ preds n

/-- The dependencies of `l'` are the images of those of `l`. -/
structure Contracts (relabel : ι → ι) (l l' : List ν) : Prop where
  image : ∀ n ∈ l, ∃ n' ∈ l', key n' = relabel (key n)
  source : ∀ n' ∈ l', ∃ n ∈ l, key n' = relabel (key n)
  forward : ∀ n ∈ l, ∀ n' ∈ l', key n' = relabel (key n) → ∀ p ∈ preds n, relabel p ∈ preds n'
  backward : ∀ n ∈ l, ∀ n' ∈ l', key n' = relabel (key n) → ∀ x ∈ preds n',
    ∃ p ∈ preds n, relabel p = x

end Ancestors

variable {relabel relabel' : ι → ι} {l l' l'' : List ν}

/-- Groups whose members have the same predecessors. -/
theorem Contraction.contracts (h : Contraction key preds relabel kept fuse l)
    (hshared : ∀ n ∈ l, ∀ m ∈ l, relabel (key n) = relabel (key m) → preds n = preds m) :
    Contracts key preds relabel l (contracted kept fuse l) := by
  have hfused : ∀ n ∈ l, ∀ n' ∈ contracted kept fuse l, key n' = relabel (key n) →
      ∃ r ∈ l, kept r = true ∧ fuse r = n' ∧ relabel (key n) = relabel (key r) := by
    intro n _ n' hn' heq
    obtain ⟨r, hr, hkept, rfl⟩ := mem_contracted.mp hn'
    exact ⟨r, hr, hkept, rfl, heq.symm.trans (h.key_fuse r hr hkept)⟩
  refine ⟨fun n hn => ?_, fun n' hn' => ?_, fun n hn n' hn' heq p hp => ?_,
    fun n hn n' hn' heq x hx => ?_⟩
  · obtain ⟨r, hr, hkept, heq⟩ := h.exists_kept hn
    exact ⟨fuse r, mem_contracted.mpr ⟨r, hr, hkept, rfl⟩, (h.key_fuse r hr hkept).trans heq⟩
  · obtain ⟨r, hr, hkept, rfl⟩ := mem_contracted.mp hn'
    exact ⟨r, hr, h.key_fuse r hr hkept⟩
  · obtain ⟨r, hr, hkept, rfl, hgroup⟩ := hfused n hn n' hn' heq
    exact (h.preds_fuse r hr hkept _).mpr ⟨n, hn, hgroup, p, hp, rfl⟩
  · obtain ⟨r, hr, hkept, rfl, hgroup⟩ := hfused n hn n' hn' heq
    obtain ⟨m, hm, hgroup', p, hp, hpx⟩ := (h.preds_fuse r hr hkept x).mp hx
    exact ⟨p, hshared m hm n hn (hgroup'.trans hgroup.symm) ▸ hp, hpx⟩

theorem Contracts.refl (hl : TopologicalOrder key preds l) : Contracts key preds id l l where
  image := fun n hn => ⟨n, hn, rfl⟩
  source := fun n hn => ⟨n, hn, rfl⟩
  forward := fun _ hn _ hn' heq _ hp => hl.eq_of_key_eq hn' hn heq ▸ hp
  backward := fun _ hn _ hn' heq x hx => ⟨x, hl.eq_of_key_eq hn' hn heq ▸ hx, rfl⟩

section

variable (h : Contracts key preds relabel l l')
include h

theorem Contracts.trans
    (h' : Contracts key preds relabel' l' l'') :
    Contracts key preds (relabel' ∘ relabel) l l'' where
  image := fun n hn => by
    obtain ⟨n', hn', heq⟩ := h.image n hn
    obtain ⟨n'', hn'', heq'⟩ := h'.image n' hn'
    exact ⟨n'', hn'', heq'.trans (congrArg relabel' heq)⟩
  source := fun n'' hn'' => by
    obtain ⟨n', hn', heq'⟩ := h'.source n'' hn''
    obtain ⟨n, hn, heq⟩ := h.source n' hn'
    exact ⟨n, hn, heq'.trans (congrArg relabel' heq)⟩
  forward := fun n hn n'' hn'' heq p hp => by
    obtain ⟨n', hn', hkey⟩ := h.image n hn
    exact h'.forward n' hn' n'' hn'' (heq.trans (congrArg relabel' hkey.symm)) _
      (h.forward n hn n' hn' hkey p hp)
  backward := fun n hn n'' hn'' heq x hx => by
    obtain ⟨n', hn', hkey⟩ := h.image n hn
    obtain ⟨y, hy, rfl⟩ := h'.backward n' hn' n'' hn'' (heq.trans (congrArg relabel' hkey.symm)) x hx
    obtain ⟨p, hp, rfl⟩ := h.backward n hn n' hn' hkey y hy
    exact ⟨p, hp, rfl⟩

theorem Contracts.ancestor {u v : ι}
    (huv : Ancestor key preds l u v) : Ancestor key preds l' (relabel u) (relabel v) := by
  have hedge : ∀ {u v}, (∃ n ∈ l, key n = v ∧ u ∈ preds n) →
      ∃ n' ∈ l', key n' = relabel v ∧ relabel u ∈ preds n' := by
    rintro u _ ⟨n, hn, rfl, hu⟩
    obtain ⟨n', hn', hkey⟩ := h.image n hn
    exact ⟨n', hn', hkey, h.forward n hn n' hn' hkey u hu⟩
  induction huv with
  | single huv => exact .single (hedge huv)
  | tail _ hvw ih => exact .tail ih (hedge hvw)

/-- An ancestor of the image of a node is the image of one of its ancestors. -/
theorem Contracts.ancestor_of
    (hl : TopologicalOrder key preds l) {u v : ι} (huv : Ancestor key preds l' u v) :
    ∀ n ∈ l, relabel (key n) = v → ∃ m ∈ l, relabel (key m) = u ∧
      Ancestor key preds l (key m) (key n) := by
  have hedge : ∀ {u v}, (∃ n' ∈ l', key n' = v ∧ u ∈ preds n') → ∀ n ∈ l, relabel (key n) = v →
      ∃ m ∈ l, relabel (key m) = u ∧ key m ∈ preds n := by
    rintro u _ ⟨n', hn', rfl, hu⟩ n hn heq
    obtain ⟨p, hp, rfl⟩ := h.backward n hn n' hn' heq.symm u hu
    obtain ⟨m, hm, rfl⟩ := hl.mem_of_pred hn hp
    exact ⟨m, hm, rfl, hp⟩
  induction huv with
  | single huv =>
    intro n hn heq
    obtain ⟨m, hm, hmu, hp⟩ := hedge huv n hn heq
    exact ⟨m, hm, hmu, .single ⟨n, hn, rfl, hp⟩⟩
  | tail _ hvw ih =>
    intro n hn heq
    obtain ⟨m, hm, hmv, hp⟩ := hedge hvw n hn heq
    obtain ⟨k, hk, hku, hkm⟩ := ih m hm hmv
    exact ⟨k, hk, hku, hkm.tail ⟨n, hn, rfl, hp⟩⟩

/-- Between nodes that are in no group the ancestors stay the same. -/
theorem Contracts.ancestor_iff
    (hl : TopologicalOrder key preds l) {n m : ν} (hm : m ∈ l) (hn' : relabel (key n) = key n)
    (hm' : relabel (key m) = key m) (honly : ∀ k ∈ l, relabel (key k) = key n → key k = key n) :
    Ancestor key preds l (key n) (key m) ↔ Ancestor key preds l' (key n) (key m) := by
  constructor
  · intro hnm
    have himage := h.ancestor hnm
    rwa [hn', hm'] at himage
  · intro hnm
    obtain ⟨k, hk, hkn, hkm⟩ := h.ancestor_of hl hnm m hm hm'
    rwa [honly k hk hkn] at hkm

end

/-! ## Totals -/

section Totals

variable [DecidableEq ι] {M : Type*} [AddCommMonoid M]

theorem sum_one_of_nodup {β : Type*} {c : β → ι} {x : ι} (m : M) :
    ∀ {R : List β}, (R.map c).Nodup → (∃ r ∈ R, c r = x) →
      (R.map fun r => if x = c r then m else 0).sum = m
  | r :: R, hnodup, hex => by
    rw [List.map_cons, List.nodup_cons] at hnodup
    rw [List.map_cons, List.sum_cons]
    by_cases hr : x = c r
    · have hzero : (R.map fun r => if x = c r then m else 0).sum = 0 := by
        refine List.sum_eq_zero fun k hk => ?_
        obtain ⟨r', hr', rfl⟩ := List.mem_map.mp hk
        refine if_neg fun hx => hnodup.1 ?_
        rw [← hr, hx]
        exact List.mem_map_of_mem hr'
      rw [if_pos hr, hzero, add_zero]
    · obtain ⟨r', hr', hx⟩ := hex
      have hmem : r' ∈ R := (List.mem_cons.mp hr').resolve_left fun h => hr (h ▸ hx).symm
      rw [if_neg hr, sum_one_of_nodup m hnodup.2 ⟨r', hmem, hx⟩, zero_add]

theorem sum_classes {β : Type*} {c : β → ι} (f : β → M) {R : List β} (hR : (R.map c).Nodup) :
    ∀ {l : List β}, (∀ n ∈ l, ∃ r ∈ R, c r = c n) →
      (R.map fun r => ((l.filter fun n => c n = c r).map f).sum).sum = (l.map f).sum
  | [], _ => by simp
  | n :: l, hl => by
    have ih := sum_classes f hR (List.forall_mem_cons.mp hl).2
    have hone := sum_one_of_nodup (f n) hR (hl n List.mem_cons_self)
    rw [List.map_cons, List.sum_cons, ← ih, ← hone, ← List.sum_map_add]
    congr 1
    refine List.map_congr_left fun r _ => ?_
    by_cases hr : c n = c r
    · simp [hr]
    · simp [hr]

/-- What a fused node sums up over its group has the same total. -/
theorem Contraction.sum_eq {kept : ν → Bool} {fuse : ν → ν}
    (h : Contraction key preds relabel kept fuse l) (hl : TopologicalOrder key preds l) (f : ν → M)
    (hfuse : ∀ r ∈ l, kept r = true →
      f (fuse r) = ((l.filter fun n => relabel (key n) = relabel (key r)).map f).sum) :
    ((contracted kept fuse l).map f).sum = (l.map f).sum := by
  have hnodup : ((l.filter kept).map fun r => relabel (key r)).Nodup := by
    refine List.Nodup.map_on (fun r hr r' hr' heq => ?_) (hl.nodup.of_map.filter _)
    obtain ⟨hr, hkept⟩ := List.mem_filter.mp hr
    obtain ⟨hr', hkept'⟩ := List.mem_filter.mp hr'
    exact hl.eq_of_key_eq hr hr' (h.unique r hr r' hr' hkept hkept' heq)
  have hclasses := sum_classes f hnodup (l := l) fun n hn => by
    obtain ⟨r, hr, hkept, heq⟩ := h.exists_kept hn
    exact ⟨r, List.mem_filter.mpr ⟨hr, hkept⟩, heq⟩
  rw [← hclasses, contracted, List.map_map]
  congr 1
  refine List.map_congr_left fun r hr => ?_
  obtain ⟨hr, hkept⟩ := List.mem_filter.mp hr
  exact hfuse r hr hkept

end Totals
