import Mathlib.Algebra.BigOperators.Intervals
import Mathlib.Combinatorics.Pigeonhole
import Mathlib.Order.Lattice.Nat

/-!
# Levels of a topology

The first level groups devices, and each further one the groups of the level below.
`groupLayout` finds the lowest level at which devices lie in one group, and how many
children of one group take part at each level.  Devices in several groups of the
outermost level have no common level; the answer is that level all the same
(`groupLayout_iff`).
-/

namespace TokenSim.Topology

open Finset

/-- What is read of a level.  Without a size it is one group. -/
structure TopologyLevel where
  name : String
  size : Option ℕ
  positive : ∀ n ∈ size, 1 ≤ n

structure TopologySpec where
  levels : List TopologyLevel
  nonempty : levels ≠ []
  /-- Only the outermost level may be unbounded. -/
  bounded : ∀ level ∈ levels.dropLast, level.size ≠ none
  names : (levels.map TopologyLevel.name).Nodup

/-- The group of a child. -/
def TopologyLevel.group (level : TopologyLevel) (cursor : ℕ) : ℕ :=
  match level.size with
  | none => 0
  | some n => cursor / n

/-- Group index of a device at every level, innermost first. -/
def coordinates : List TopologyLevel → ℕ → List ℕ
  | [], _ => []
  | level :: levels, cursor => level.group cursor :: coordinates levels (level.group cursor)

section

variable (levels : List TopologyLevel) (unique : Finset ℕ) (index : ℕ)

/-- The devices, and after them the groups they lie in at each level. -/
def layer : Finset ℕ :=
  unique.image fun device => (device :: coordinates levels device).getD index 0

/-- The children at a level, each with its group. -/
def children : Finset (ℕ × ℕ) :=
  unique.image fun device => ((device :: coordinates levels device).getD index 0,
    (coordinates levels device).getD index 0)

/-- The largest number of children of one group. -/
def fan : ℕ :=
  (children levels unique index).sup fun child =>
    ((children levels unique index).filter fun other => other.2 = child.2).card

end

structure GroupLayout where
  fan : List ℕ
  lowestCommonLevel : Int

namespace TopologySpec

variable (spec : TopologySpec)

def lowestCommonLevel (unique : Finset ℕ) : Int :=
  if unique.card ≤ 1 then -1
  else ((List.range spec.levels.length).find? fun index =>
    (layer spec.levels unique (index + 1)).card = 1).getD (spec.levels.length - 1)

def groupLayout (ranks : List ℕ) : Except String GroupLayout :=
  let unique := ranks.toFinset
  if unique = ∅ then .error "group layout requires at least one rank"
  else
    let common := spec.lowestCommonLevel unique
    if common < 0 then .ok ⟨List.replicate spec.levels.length 1, -1⟩
    else .ok ⟨(List.range spec.levels.length).map (fan spec.levels unique), common⟩

end TopologySpec

/-! ## Layers -/

variable {levels : List TopologyLevel} {unique : Finset ℕ} {level : TopologyLevel} {index : ℕ}

theorem coordinates_getD : ∀ {levels : List TopologyLevel} {index : ℕ} (device : ℕ),
    levels[index]? = some level → (coordinates levels device).getD index 0 =
      level.group ((device :: coordinates levels device).getD index 0)
  | [], _, _, h => by cases h
  | _ :: _, 0, _, h => by cases h; rfl
  | first :: levels, index + 1, device, h => coordinates_getD (first.group device) h

section

variable (h : levels[index]? = some level)
include h

theorem layer_succ :
    layer levels unique (index + 1) = (layer levels unique index).image level.group := by
  rw [layer, layer, image_image]
  exact image_congr fun device _ => coordinates_getD device h

theorem children_eq : children levels unique index =
    (layer levels unique index).image fun child => (child, level.group child) := by
  rw [children, layer, image_image]
  exact image_congr fun device _ => congrArg (Prod.mk _) (coordinates_getD device h)

theorem card_siblings (parent : ℕ) :
    ((children levels unique index).filter fun child => child.2 = parent).card =
      ((layer levels unique index).filter fun child => level.group child = parent).card := by
  rw [children_eq h, filter_image]
  exact card_image_of_injective _ fun _ _ he => congrArg Prod.fst he

theorem card_layer_le : (layer levels unique index).card ≤
    fan levels unique index * (layer levels unique (index + 1)).card := by
  rw [layer_succ h]
  refine card_le_mul_card_image _ _ fun parent hparent => ?_
  obtain ⟨child, hchild, rfl⟩ := mem_image.mp hparent
  have hmem : (child, level.group child) ∈ children levels unique index := by
    rw [children_eq h]
    exact mem_image_of_mem _ hchild
  rw [← card_siblings h]
  exact le_sup (f := fun child => ((children _ _ _).filter fun other => other.2 = child.2).card) hmem

theorem fan_le {bound : ℕ} (hbound : ∀ parent,
    ((layer levels unique index).filter fun child => level.group child = parent).card ≤ bound) :
    fan levels unique index ≤ bound :=
  Finset.sup_le fun child _ => (card_siblings h child.2).trans_le (hbound child.2)

theorem fan_le_size {n : ℕ} (hsize : level.size = some n) : fan levels unique index ≤ n := by
  refine fan_le h fun parent => ?_
  have hsub : ((layer levels unique index).filter fun child => level.group child = parent) ⊆
      Ico (n * parent) (n * parent + n) := by
    intro child hchild
    have hparent := (mem_filter.mp hchild).2
    rw [TopologyLevel.group, hsize] at hparent
    rw [mem_Ico, ← hparent, ← Nat.mul_succ]
    exact ⟨Nat.mul_div_le child n, Nat.lt_mul_div_succ child (level.positive n hsize)⟩
  simpa using card_le_card hsub

end

theorem card_layer_eq_one {i j : ℕ} (hone : (layer levels unique i).card = 1) (hij : i ≤ j)
    (hj : j ≤ levels.length) : (layer levels unique j).card = 1 := by
  induction j, hij using Nat.le_induction with
  | base => exact hone
  | succ j _ ih =>
    obtain ⟨group, hgroup⟩ := card_eq_one.mp (ih (by omega))
    rw [layer_succ (List.getElem?_eq_getElem hj), hgroup, image_singleton, card_singleton]

theorem card_le_prod_fan : ∀ {count : ℕ}, count ≤ levels.length → unique.card ≤
    ((List.range count).map (fan levels unique)).prod * (layer levels unique count).card
  | 0, _ => by simp [layer]
  | count + 1, h => by
    rw [List.prod_range_succ, mul_assoc]
    exact (card_le_prod_fan (by omega)).trans
      (Nat.mul_le_mul_left _ (card_layer_le (List.getElem?_eq_getElem h)))

theorem fan_eq_one (hone : (layer levels unique index).card = 1) (h : index < levels.length) :
    fan levels unique index = 1 := by
  have hget := List.getElem?_eq_getElem h
  have hle : (layer levels unique index).card ≤ _ := card_layer_le hget
  rw [hone, card_layer_eq_one hone (Nat.le_succ _) h, mul_one] at hle
  exact le_antisymm (fan_le hget fun _ => (card_filter_le _ _).trans hone.le) hle

/-! ## Layouts -/

/-- The layout says where the devices meet, and its fan has room for them. -/
structure LaidOut (spec : TopologySpec) (unique : Finset ℕ) (layout : GroupLayout) : Prop where
  common : layout.lowestCommonLevel = spec.lowestCommonLevel unique
  single : spec.lowestCommonLevel unique = -1 ↔ unique.card = 1
  least : unique.card ≠ 1 → ∃ k : ℕ, spec.lowestCommonLevel unique = k ∧ k < spec.levels.length ∧
    (layer spec.levels unique (k + 1)).card = 1 ∧
    ∀ i < k, (layer spec.levels unique (i + 1)).card ≠ 1
  length : layout.fan.length = spec.levels.length
  covered : unique.card ≤ (layout.fan.take (layout.lowestCommonLevel + 1).toNat).prod
  within : ∀ (i : ℕ) level n f, spec.levels[i]? = some level → level.size = some n →
    layout.fan[i]? = some f → f ≤ n
  above : ∀ (i : ℕ) f, layout.lowestCommonLevel < i → layout.fan[i]? = some f → f = 1

variable {spec : TopologySpec}

theorem laidOut_single (hcard : unique.card = 1) :
    LaidOut spec unique ⟨List.replicate spec.levels.length 1, -1⟩ := by
  have hcommon : spec.lowestCommonLevel unique = -1 := if_pos hcard.le
  have hone : ∀ {i f : ℕ}, (List.replicate spec.levels.length 1)[i]? = some f → f = 1 :=
    fun hf => List.eq_of_mem_replicate (List.mem_of_getElem? hf)
  exact ⟨hcommon.symm, iff_of_true hcommon hcard, fun h => absurd hcard h, List.length_replicate,
    by simp [hcard], fun _ level n _ _ hn hf => hone hf ▸ level.positive n hn, fun _ _ _ => hone⟩

theorem laidOut_of_common {k : ℕ} (hcard : unique.card ≠ 1)
    (hcommon : spec.lowestCommonLevel unique = k) (hk : k < spec.levels.length)
    (hone : (layer spec.levels unique (k + 1)).card = 1)
    (hleast : ∀ i < k, (layer spec.levels unique (i + 1)).card ≠ 1) :
    LaidOut spec unique ⟨(List.range spec.levels.length).map (fan spec.levels unique), k⟩ := by
  have hget : ∀ {i f : ℕ}, ((List.range spec.levels.length).map (fan spec.levels unique))[i]? =
      some f → i < spec.levels.length ∧ f = fan spec.levels unique i := by
    intro i f hf
    obtain ⟨hlt, rfl⟩ := List.getElem?_eq_some_iff.mp hf
    exact ⟨by simpa using hlt, by simp⟩
  refine ⟨hcommon.symm, iff_of_false (by omega) hcard, fun _ => ⟨k, hcommon, hk, hone, hleast⟩,
    by simp, ?_, fun i level n f hlevel hn hf => ?_, fun i f hi hf => ?_⟩
  · have hle : unique.card ≤ _ := card_le_prod_fan hk
    rw [hone, mul_one] at hle
    rw [← List.map_take, List.take_range, show min ((k : Int) + 1).toNat _ = k + 1 by omega]
    exact hle
  · rw [(hget hf).2]
    exact fan_le_size hlevel hn
  · obtain ⟨hlt, rfl⟩ := hget hf
    have hki : k < i := Int.ofNat_lt.mp hi
    exact fan_eq_one (card_layer_eq_one hone hki hlt.le) hlt

/-- A layout is right exactly when there is one device or the outermost level has all devices
in one group. -/
theorem groupLayout_iff (spec : TopologySpec) (first : ℕ) (rest : List ℕ) :
    (∃ layout, spec.groupLayout (first :: rest) = .ok layout ∧
      LaidOut spec (first :: rest).toFinset layout) ↔
    (first :: rest).toFinset.card = 1 ∨
      (layer spec.levels (first :: rest).toFinset spec.levels.length).card = 1 := by
  have hne : (first :: rest).toFinset ≠ ∅ := by simp
  unfold TopologySpec.groupLayout
  generalize (first :: rest).toFinset = unique at hne ⊢
  dsimp only
  rw [if_neg hne]
  constructor
  · rintro ⟨layout, -, h⟩
    refine or_iff_not_imp_left.mpr fun hcard => ?_
    obtain ⟨k, -, hk, hone, -⟩ := h.least hcard
    exact card_layer_eq_one hone hk le_rfl
  · intro h
    by_cases hcard : unique.card = 1
    · have hcommon : spec.lowestCommonLevel unique = -1 := if_pos hcard.le
      rw [hcommon, if_pos (by decide)]
      exact ⟨_, rfl, laidOut_single hcard⟩
    · have hlen := List.length_pos_iff.mpr spec.nonempty
      obtain ⟨k, hfind⟩ := Option.isSome_iff_exists.mp (List.find?_isSome
        (p := fun index => (layer spec.levels unique (index + 1)).card = 1) |>.mpr
        ⟨spec.levels.length - 1, List.mem_range.mpr (Nat.sub_one_lt_of_lt hlen),
          decide_eq_true (Nat.sub_add_cancel hlen ▸ h.resolve_left hcard)⟩)
      have hcommon : spec.lowestCommonLevel unique = k := by
        have hmany : ¬ unique.card ≤ 1 := by
          have := card_pos.mpr (nonempty_iff_ne_empty.mpr hne)
          omega
        rw [TopologySpec.lowestCommonLevel, if_neg hmany, hfind]
        rfl
      obtain ⟨hone, hk, hleast⟩ := List.find?_range_eq_some.mp hfind
      rw [hcommon, if_neg (by omega)]
      exact ⟨_, rfl, laidOut_of_common hcard hcommon (List.mem_range.mp hk)
        (of_decide_eq_true hone) fun i hi => by simpa using hleast i hi⟩

def oneNode : TopologySpec where
  levels := [⟨"node", some 8, by simp⟩]
  nonempty := by decide
  bounded := by decide
  names := by decide

/-- Two devices of different nodes are said to lie in one. -/
theorem oneNode_groupLayout : oneNode.groupLayout [0, 8] = .ok ⟨[1], 0⟩ ∧
    (layer oneNode.levels {0, 8} 1).card = 2 := ⟨rfl, by decide⟩

end TokenSim.Topology
