import Mathlib.Tactic.Ring
import TokenSim.Hybrid.Plan
import TokenSim.PrefixChains

/-!
# What a slot key names

A page is named by the block in which it ends.  The blocks are engine blocks,
or trace blocks for short pages of requests that come from a trace (`naming`);
the two ways of building a key are one (`slotKey_eq`).

Keys are stable: a key that is known stays the key of its page while the
context grows (`slotKey_extend`).  Whether two pages of one request can have one
key depends on the widths only: page widths have to divide the width of the
naming blocks (`slotKeysOk_iff`).
-/

namespace TokenSim

open List
open HybridKVLayout (blockTokens_pos eq_of_groupId)

/-! ## Trace hashes -/

/-- The hashes of the engine blocks of a trace: each is the digest of the hashes
of its trace blocks, taken as unsigned 64-bit words. -/
def engineHashes (digest : List Int → String) (hashes : List Int)
    (traceBlockSize engineBlockSize inputTokens : Nat) : Except Err (List HashId) :=
  if traceBlockSize = 0 then throw .zeroDivision
  else if engineBlockSize % traceBlockSize ≠ 0 then
    throw (.workloadValidation "engine block size must be a multiple of trace hash block size")
  else
    let width := engineBlockSize / traceBlockSize
    if width = 0 then throw .zeroDivision
    else
      let complete := min (hashes.length / width) (inputTokens / engineBlockSize)
      if width = 1 then pure ((hashes.take complete).map .int)
      else if ∃ h ∈ hashes.take (complete * width), h < 0 ∨ 2 ^ 64 ≤ h then throw .overflow
      else pure ((List.range complete).map fun i =>
        .str (digest ((hashes.drop (i * width)).take width)))

theorem engineHashes_dvd {digest : List Int → String} {hashes : List Int}
    {traceBlockSize engineBlockSize inputTokens : Nat} {out : List HashId}
    (h : engineHashes digest hashes traceBlockSize engineBlockSize inputTokens = .ok out) :
    0 < traceBlockSize ∧ traceBlockSize ∣ engineBlockSize := by
  obtain ⟨hpos, h⟩ := Except.ite_throw_eq_ok.mp h
  obtain ⟨hmod, -⟩ := Except.ite_throw_eq_ok.mp h
  exact ⟨Nat.pos_of_ne_zero hpos, Nat.dvd_of_mod_eq_zero (not_not.mp hmod)⟩

namespace HybridConfig

variable (cfg : HybridConfig)

/-- The trace of a request, if it comes from one, has hashes for engine blocks. -/
def TraceAccepted (digest : List Int → String) (r : Request) : Prop :=
  ∀ hashes, r.traceHashIds = some hashes → ∃ words out, hashes = words.map .int ∧
    engineHashes digest words r.traceBlockSize cfg.blockSize r.prefillLen = .ok out

/-! ## Naming blocks -/

/-- The workload hashes that name the pages of a group, and the tokens of one of
their blocks. -/
def naming (r : Request) (g : CacheGroup) : List HashId × Nat :=
  match r.traceHashIds with
  | some hashes =>
    if g.blockTokens < cfg.blockSize then (hashes, r.traceBlockSize)
    else (r.hashIds.getD [], cfg.blockSize)
  | none => (r.hashIds.getD [], cfg.blockSize)

/-- The keys of the naming blocks. -/
def blockKeys (r : Request) (g : CacheGroup) : List BlockKey :=
  cfg.extendContextKeys r (cfg.promptKeys r (cfg.naming r g).1 (cfg.naming r g).2)
    (cfg.naming r g).2

/-- The naming block in which a page ends. -/
def containing (r : Request) (g : CacheGroup) (index : Nat) : Nat :=
  ((index + 1) * g.blockTokens - 1) / (cfg.naming r g).2

variable {cfg} {r r' : Request} {g : CacheGroup} {index : Nat} {key : SlotKey}

theorem slotKey_eq (hg : g ∈ cfg.layout.groups) (r : Request) (index : Nat) :
    cfg.slotKey r g index = if (cfg.naming r g).2 = 0 then throw .zeroDivision
      else fineSlotKey g index (cfg.blockKeys r g) (cfg.naming r g).2 := by
  have hcoarse : pure (cfg.coarseSlotKey g index (cfg.inputKeys r)) =
      if cfg.blockSize = 0 then throw .zeroDivision
      else fineSlotKey g index (cfg.inputKeys r) cfg.blockSize := by
    have hpos := cfg.blockSize_pos
    have hwidth : cfg.blockSize / g.blockTokens ≠ 0 := by
      have := Nat.div_pos (Nat.le_of_dvd hpos (cfg.layout.tokens_dvd g hg))
        (blockTokens_pos hg)
      omega
    rw [if_neg (by omega)]
    unfold coarseSlotKey fineSlotKey
    dsimp only
    cases (cfg.inputKeys r)[((index + 1) * g.blockTokens - 1) / cfg.blockSize]? with
    | none => rfl
    | some key =>
      dsimp only
      rw [if_neg hwidth]
      rfl
  unfold slotKey blockKeys naming
  cases r.traceHashIds with
  | none => exact hcoarse
  | some hashes =>
    dsimp only
    split
    · unfold fineInputKeys
      dsimp only
      split
      · rfl
      · rfl
    · exact hcoarse

theorem fineSlotKey_eq_some {keys : List BlockKey} {size : Nat} :
    fineSlotKey g index keys size = .ok (some key) ↔ size / g.blockTokens ≠ 0 ∧
      key.groupId = g.groupId ∧
      keys[((index + 1) * g.blockTokens - 1) / size]? = some key.key ∧
      key.ordinal = index % (size / g.blockTokens) := by
  unfold fineSlotKey
  dsimp only
  cases keys[((index + 1) * g.blockTokens - 1) / size]? with
  | none => simp
  | some k =>
    dsimp only
    rw [Except.ite_throw_eq_ok, Except.pure_eq_ok]
    obtain ⟨gid, k', ordinal⟩ := key
    simp only [Option.some.injEq, SlotKey.mk.injEq, eq_comm]

/-- A key names a page by the block in which it ends and its place there. -/
theorem slotKey_eq_some (hg : g ∈ cfg.layout.groups) : cfg.slotKey r g index = .ok (some key) ↔
    (cfg.naming r g).2 ≠ 0 ∧ (cfg.naming r g).2 / g.blockTokens ≠ 0 ∧
    key.groupId = g.groupId ∧ (cfg.blockKeys r g)[cfg.containing r g index]? = some key.key ∧
    key.ordinal = index % ((cfg.naming r g).2 / g.blockTokens) := by
  rw [slotKey_eq hg, Except.ite_throw_eq_ok, fineSlotKey_eq_some]
  rfl

/-! ## Keys are stable -/

theorem naming_extend (h : Extends r r') (g : CacheGroup) : cfg.naming r' g = cfg.naming r g := by
  unfold naming
  rw [h.traceHashIds, h.traceBlockSize, h.hashIds]

variable {digest : List Int → String} {i : Nat} {k : BlockKey}

theorem TraceAccepted.extend (hr : cfg.TraceAccepted digest r)
    (h : Extends r r') : cfg.TraceAccepted digest r' := by
  unfold TraceAccepted
  rw [h.traceHashIds, h.traceBlockSize, h.prefillLen]
  exact hr

theorem promptKeys_extend (h : Extends r r') (hashes : List HashId) (blockTokens : Nat) :
    cfg.promptKeys r' hashes blockTokens = cfg.promptKeys r hashes blockTokens := by
  unfold promptKeys
  rw [h.prefillLen, h.cacheSalt, h.reuseGroup]

/-- The keys of a context start with the keys it was built from. -/
theorem getElem?_extendContextKeys {keys : List BlockKey} {blockTokens : Nat}
    (h : keys[i]? = some k) : (cfg.extendContextKeys r keys blockTokens)[i]? = some k := by
  unfold extendContextKeys
  dsimp only
  split
  · rw [getElem?_append_left (List.getElem?_eq_some_iff.mp h).1, h]
  · exact h

theorem blockKeys_extend (h : Extends r r')
    (hk : (cfg.blockKeys r g)[i]? = some k) : (cfg.blockKeys r' g)[i]? = some k := by
  unfold blockKeys at hk ⊢
  rw [naming_extend h, promptKeys_extend h, ← cfg.extendContextKeys_extend h]
  exact getElem?_extendContextKeys hk

/-- A known key stays the key of its page. -/
theorem slotKey_extend (hg : g ∈ cfg.layout.groups) (h : Extends r r')
    (hk : cfg.slotKey r g index = .ok (some key)) : cfg.slotKey r' g index = .ok (some key) := by
  rw [slotKey_eq_some hg] at hk ⊢
  obtain ⟨h1, h2, h3, h4, h5⟩ := hk
  unfold containing at h4 ⊢
  rw [naming_extend h]
  exact ⟨h1, h2, h3, blockKeys_extend h h4, h5⟩

/-! ## The keys of blocks -/

/-- The texts that are hashed for a request. -/
def hashedTexts (cfg : HybridConfig) (r : Request) : List String :=
  prefixTexts cfg.sha256 ((r.hashIds.getD []).take (r.prefillLen / cfg.blockSize)) cfg.model
      r.cacheSalt r.reuseGroup ++
    match r.traceHashIds with
    | some hashes => prefixTexts cfg.sha256 (hashes.take (r.prefillLen / r.traceBlockSize)) cfg.model
        r.cacheSalt r.reuseGroup
    | none => []

theorem hashedTexts_extend (h : Extends r r') : cfg.hashedTexts r' = cfg.hashedTexts r := by
  unfold hashedTexts
  rw [h.hashIds, h.prefillLen, h.traceHashIds, h.traceBlockSize, h.cacheSalt, h.reuseGroup]

theorem prefixTexts_subset (r : Request) (g : CacheGroup) :
    prefixTexts cfg.sha256 ((cfg.naming r g).1.take (r.prefillLen / (cfg.naming r g).2)) cfg.model
      r.cacheSalt r.reuseGroup ⊆ cfg.hashedTexts r := by
  unfold naming hashedTexts
  cases r.traceHashIds with
  | none => exact subset_append_left ..
  | some hashes =>
    dsimp only
    split
    · exact subset_append_right ..
    · exact subset_append_left ..

/-- The key of a block is that of its known prefix, or names the request and
the block. -/
theorem blockKeys_cases (h : (cfg.blockKeys r g)[i]? = some k) :
    (∃ p, k = .prompt p ∧
      (buildPrefixKeys cfg.sha256 ((cfg.naming r g).1.take (r.prefillLen / (cfg.naming r g).2))
        cfg.model r.cacheSalt r.reuseGroup)[i]? = some p) ∨
    ∃ l, k = .requestLocal l ∧ l.requestIdentity = r.cacheIdentity ∧ l.blockIndex = i := by
  unfold blockKeys extendContextKeys promptKeys at h
  dsimp only at h
  generalize hkeys : buildPrefixKeys cfg.sha256
    ((cfg.naming r g).1.take (r.prefillLen / (cfg.naming r g).2)) cfg.model r.cacheSalt
    r.reuseGroup = keys at h ⊢
  have hprompt : ∀ {j : Nat}, (keys.map BlockKey.prompt)[j]? = some k →
      ∃ p, k = .prompt p ∧ keys[j]? = some p := by
    intro j hj
    obtain ⟨p, hp, rfl⟩ := Option.map_eq_some_iff.mp (getElem?_map .. ▸ hj)
    exact ⟨p, rfl, hp⟩
  split at h
  · by_cases hlt : i < (keys.map BlockKey.prompt).length
    · rw [getElem?_append_left hlt] at h
      exact .inl (hprompt h)
    · have hle := Nat.le_of_not_lt hlt
      rw [getElem?_append_right hle, getElem?_map] at h
      obtain ⟨j, hj, rfl⟩ := Option.map_eq_some_iff.mp h
      refine .inr ⟨_, rfl, rfl, ?_⟩
      obtain ⟨_, hj⟩ := List.getElem?_eq_some_iff.mp hj
      rw [getElem_range'] at hj
      dsimp only
      omega
  · exact .inl (hprompt h)

/-- No collision among the texts hashed for two requests. -/
def HashInjOn (cfg : HybridConfig) (texts : List String) : Prop :=
  ∀ a ∈ texts, ∀ b ∈ texts, cfg.sha256 a = cfg.sha256 b → a = b

theorem HashInjOn.mono {texts texts' : List String} (h : cfg.HashInjOn texts)
    (hsub : texts' ⊆ texts) : cfg.HashInjOn texts' :=
  fun a ha b hb => h a (hsub ha) b (hsub hb)

theorem blockKeys_inj (hinj : cfg.HashInjOn (cfg.hashedTexts r)) {j : Nat}
    (hi : (cfg.blockKeys r g)[i]? = some k) (hj : (cfg.blockKeys r g)[j]? = some k) : i = j := by
  rcases blockKeys_cases hi with ⟨p, rfl, hp⟩ | ⟨l, rfl, -, hl⟩
  · rcases blockKeys_cases hj with ⟨p', he, hp'⟩ | ⟨l', he, -⟩
    · cases he
      refine (buildPrefixKeys_inj (hinj.mono ?_) hp hp').2.2.2.1
      exact append_subset.mpr ⟨prefixTexts_subset r g, prefixTexts_subset r g⟩
    · cases he
  · rcases blockKeys_cases hj with ⟨p', he, -⟩ | ⟨l', he, -, hl'⟩
    · cases he
    · cases he
      exact hl.symm.trans hl'

/-! ## Widths -/

/-- When page widths divide the naming block, the block and the place in it are
a quotient and a remainder. -/
theorem containing_of_dvd (hpos : 0 < g.blockTokens) (hdvd : g.blockTokens ∣ (cfg.naming r g).2)
    (index : Nat) :
    cfg.containing r g index = index / ((cfg.naming r g).2 / g.blockTokens) := by
  obtain ⟨q, hq⟩ := hdvd
  unfold containing
  rw [hq, Nat.mul_div_cancel_left _ hpos, ← Nat.div_div_eq_div_mul]
  congr 1
  rw [show (index + 1) * g.blockTokens - 1 = (g.blockTokens - 1) + g.blockTokens * index by
    rw [Nat.succ_mul, mul_comm]; omega, Nat.add_mul_div_left _ _ hpos,
    Nat.div_eq_of_lt (by omega), zero_add]

/-- The key function of a request is total, and different pages have different
keys. -/
structure SlotKeysOk (cfg : HybridConfig) (r : Request) : Prop where
  total : ∀ g ∈ cfg.layout.groups, ∀ index, ∃ key, cfg.slotKey r g index = .ok key
  inj : ∀ g ∈ cfg.layout.groups, ∀ g' ∈ cfg.layout.groups, ∀ index index' key,
    cfg.slotKey r g index = .ok (some key) → cfg.slotKey r g' index' = .ok (some key) →
    g = g' ∧ index = index'

/-- Short pages fit evenly into the blocks of the trace. -/
def PagesFitTrace (cfg : HybridConfig) (r : Request) : Prop :=
  ∀ hashes, r.traceHashIds = some hashes → ∀ g ∈ cfg.layout.groups,
    g.blockTokens < cfg.blockSize → g.blockTokens ∣ r.traceBlockSize

theorem PagesFitTrace.dvd (h : cfg.PagesFitTrace r) (hg : g ∈ cfg.layout.groups) :
    g.blockTokens ∣ (cfg.naming r g).2 := by
  unfold naming
  cases ht : r.traceHashIds with
  | none => exact cfg.layout.tokens_dvd g hg
  | some hashes =>
    dsimp only
    split
    · rename_i hlt
      exact h hashes ht g hg hlt
    · exact cfg.layout.tokens_dvd g hg

theorem naming_pos (haccept : cfg.TraceAccepted digest r)
    (g : CacheGroup) : 0 < (cfg.naming r g).2 := by
  unfold naming
  cases ht : r.traceHashIds with
  | none => exact cfg.blockSize_pos
  | some hashes =>
    dsimp only
    split
    · obtain ⟨words, out, -, hout⟩ := haccept hashes ht
      exact (engineHashes_dvd hout).1
    · exact cfg.blockSize_pos

/-- The blocks that name pages divide the engine blocks. -/
theorem naming_dvd (haccept : cfg.TraceAccepted digest r)
    (g : CacheGroup) : (cfg.naming r g).2 ∣ cfg.blockSize := by
  unfold naming
  cases ht : r.traceHashIds with
  | none => exact Nat.dvd_refl _
  | some hashes =>
    dsimp only
    split
    · obtain ⟨words, out, -, hout⟩ := haccept hashes ht
      exact (engineHashes_dvd hout).2
    · exact Nat.dvd_refl _

/-- Keys are defined when every page fits into the blocks that name it. -/
theorem slotKey_total (hg : g ∈ cfg.layout.groups) (hpos : 0 < (cfg.naming r g).2)
    (hdvd : g.blockTokens ∣ (cfg.naming r g).2) (index : Nat) :
    ∃ key, cfg.slotKey r g index = .ok key := by
  have hwidth := Nat.div_pos (Nat.le_of_dvd hpos hdvd) (blockTokens_pos hg)
  rw [slotKey_eq hg, if_neg (by omega)]
  unfold fineSlotKey
  dsimp only
  cases (cfg.blockKeys r g)[((index + 1) * g.blockTokens - 1) / (cfg.naming r g).2]? with
  | none => exact ⟨none, rfl⟩
  | some k =>
    dsimp only
    rw [if_neg (by omega)]
    exact ⟨_, rfl⟩

theorem slotKeysOk_of_dvd (hpos : ∀ g ∈ cfg.layout.groups, 0 < (cfg.naming r g).2)
    (hdvd : ∀ g ∈ cfg.layout.groups, g.blockTokens ∣ (cfg.naming r g).2)
    (hinj : cfg.HashInjOn (cfg.hashedTexts r)) : cfg.SlotKeysOk r where
  total g hg index := slotKey_total hg (hpos g hg) (hdvd g hg) index
  inj g hg g' hg' index index' key h h' := by
    obtain ⟨-, -, hgid, hblock, hord⟩ := (slotKey_eq_some hg).mp h
    obtain ⟨-, -, hgid', hblock', hord'⟩ := (slotKey_eq_some hg').mp h'
    obtain rfl := eq_of_groupId hg hg' (hgid.symm.trans hgid')
    have hquot := blockKeys_inj hinj hblock hblock'
    have htokens := blockTokens_pos hg
    rw [containing_of_dvd htokens (hdvd g hg), containing_of_dvd htokens (hdvd g hg)] at hquot
    refine ⟨rfl, ?_⟩
    have h1 := Nat.div_add_mod index ((cfg.naming r g).2 / g.blockTokens)
    have h2 := Nat.div_add_mod index' ((cfg.naming r g).2 / g.blockTokens)
    rw [← hord] at h1
    rw [← hord', ← hquot] at h2
    omega

/-- Some page ends so early in its block that the page as many pages further on
as a block has in full ends in the same block. -/
theorem exists_same_block {pages block : Nat} (hpos : 0 < pages) (hle : pages ≤ block)
    (hndvd : ¬ pages ∣ block) : ∃ index,
      ((index + 1) * pages - 1) / block = ((index + block / pages + 1) * pages - 1) / block := by
  have hblock : 0 < block := by omega
  have hrem : 0 < block % pages := Nat.pos_of_ne_zero fun h => hndvd (Nat.dvd_of_mod_eq_zero h)
  have hgcd : Nat.gcd pages block ≤ block % pages := by
    refine Nat.le_of_dvd hrem ?_
    exact (Nat.dvd_mod_iff (Nat.gcd_dvd_left ..)).mpr (Nat.gcd_dvd_right ..)
  have hd : 0 < Nat.gcd pages block := Nat.gcd_pos_of_pos_left _ hpos
  have hlt := Nat.mod_lt block hpos
  -- a multiple of the page width that is one common divisor past a block boundary
  obtain ⟨n, -, hn⟩ := Nat.exists_mul_mod_eq_gcd (k := block) (n := pages) (by omega)
  have hn0 : n ≠ 0 := by
    rintro rfl
    rw [mul_zero, Nat.zero_mod] at hn
    omega
  obtain ⟨index, rfl⟩ := Nat.exists_eq_succ_of_ne_zero hn0
  refine ⟨index, ?_⟩
  have hsplit := Nat.div_add_mod (pages * (index + 1)) block
  have hfull := Nat.div_add_mod block pages
  generalize hq : pages * (index + 1) / block = q at hsplit
  have hfirst : (index + 1) * pages - 1 = (Nat.gcd pages block - 1) + block * q := by
    rw [mul_comm (index + 1) pages]
    rw [Nat.succ_eq_add_one] at hn
    omega
  have hlast : (index + block / pages + 1) * pages - 1 =
      (Nat.gcd pages block - 1 + pages * (block / pages)) + block * q := by
    have : (index + block / pages + 1) * pages = (index + 1) * pages + pages * (block / pages) := by
      ring
    rw [Nat.succ_eq_add_one] at hn
    rw [mul_comm (index + 1) pages] at hfirst this
    omega
  rw [hfirst, hlast, Nat.add_mul_div_left _ _ hblock, Nat.add_mul_div_left _ _ hblock,
    Nat.div_eq_of_lt (by omega), Nat.div_eq_of_lt (by omega)]

/-- A context long enough for a given number of naming blocks. -/
theorem exists_extends (r : Request) (g : CacheGroup) (hpos : 0 < (cfg.naming r g).2) (blocks : Nat) :
    ∃ r', Extends r r' ∧ blocks ≤ (cfg.blockKeys r' g).length := by
  refine ⟨{ r with generationIdx := r.generationIdx + blocks * (cfg.naming r g).2 },
    ⟨rfl, rfl, rfl, rfl, rfl, rfl, rfl, ?_⟩, ?_⟩
  · simp only [Request.contextLen]
    omega
  · unfold blockKeys
    rw [length_extendContextKeys]
    refine le_trans ?_ (le_max_right ..)
    change blocks ≤ (r.prefillLen + (r.generationIdx + blocks * (cfg.naming r g).2)) /
      (cfg.naming r g).2
    exact (Nat.le_div_iff_mul_le hpos).mpr (by omega)

/-- Keys are total and injective in every context of a request exactly when the
short pages fit evenly into the blocks of its trace. -/
theorem slotKeysOk_iff (haccept : cfg.TraceAccepted digest r)
    (hinj : cfg.HashInjOn (cfg.hashedTexts r)) :
    (∀ r', Extends r r' → cfg.SlotKeysOk r') ↔ cfg.PagesFitTrace r := by
  constructor
  · intro hall hashes ht g hg hlt
    have hnaming : (cfg.naming r g).2 = r.traceBlockSize := by
      unfold naming
      rw [ht]
      dsimp only
      rw [if_pos hlt]
    have hpos := hnaming ▸ naming_pos haccept g
    have htokens := blockTokens_pos hg
    by_contra hndvd
    by_cases hle : g.blockTokens ≤ r.traceBlockSize
    · -- two pages of one block share their place
      obtain ⟨index, hsame⟩ := exists_same_block htokens hle hndvd
      obtain ⟨r', hr', hlen⟩ := exists_extends r g (hnaming ▸ hpos)
        (((index + 1) * g.blockTokens - 1) / r.traceBlockSize + 1)
      have hnaming' : (cfg.naming r' g).2 = r.traceBlockSize := by rw [naming_extend hr', hnaming]
      have hquot := Nat.div_pos hle htokens
      obtain ⟨k, hk⟩ : ∃ k, (cfg.blockKeys r' g)[((index + 1) * g.blockTokens - 1) /
          r.traceBlockSize]? = some k := ⟨_, getElem?_eq_getElem (by omega)⟩
      have hkey : ∀ i, ((i + 1) * g.blockTokens - 1) / r.traceBlockSize =
          ((index + 1) * g.blockTokens - 1) / r.traceBlockSize →
          i % (r.traceBlockSize / g.blockTokens) = index % (r.traceBlockSize / g.blockTokens) →
          cfg.slotKey r' g i = .ok (some ⟨g.groupId, k,
            index % (r.traceBlockSize / g.blockTokens)⟩) := by
        intro i hblock hplace
        rw [slotKey_eq_some hg, hnaming']
        refine ⟨by omega, by omega, rfl, ?_, hplace.symm⟩
        unfold containing
        rw [hnaming', hblock]
        exact hk
      have := (hall r' hr').inj g hg g hg index (index + r.traceBlockSize / g.blockTokens) _
        (hkey _ rfl rfl) (hkey _ hsame.symm (Nat.add_mod_right ..))
      omega
    · -- no page fits into a block
      obtain ⟨r', hr', hlen⟩ := exists_extends r g (hnaming ▸ hpos)
        (((0 + 1) * g.blockTokens - 1) / r.traceBlockSize + 1)
      have hnaming' : (cfg.naming r' g).2 = r.traceBlockSize := by rw [naming_extend hr', hnaming]
      obtain ⟨key, hkey⟩ := (hall r' hr').total g hg 0
      rw [slotKey_eq hg, hnaming', if_neg (by omega)] at hkey
      unfold fineSlotKey at hkey
      dsimp only at hkey
      rw [getElem?_eq_getElem (by omega)] at hkey
      dsimp only at hkey
      rw [if_pos (Nat.div_eq_of_lt (by omega))] at hkey
      cases hkey
  · intro hfit r' hr'
    refine slotKeysOk_of_dvd (fun g hg => ?_) (fun g hg => ?_) ?_
    · rw [naming_extend hr']
      exact naming_pos haccept g
    · rw [naming_extend hr']
      exact hfit.dvd hg
    · rw [hashedTexts_extend hr']
      exact hinj

end HybridConfig

end TokenSim
