import TokenSim.Block
import TokenSim.Lib.OrderedDict
import TokenSim.Lib.Raising

/-!
# The external page store

A bounded store of KV pages in LRU order.  A transfer that reads or writes a page
holds a reference to it, and only pages without references are evicted.  Python
objects are compared by identity, so a page is an address in a heap and the
dictionary of the store maps keys to addresses; a page that was evicted keeps its
object, and a page stored later under the same key is another one.

`Ok` is the invariant of the store when the transfers hold the references `refs`.
The counters of evictions and of the peak use are left out.
-/

namespace TokenSim

open OrderedDict
open Function (update update_of_ne update_self)

structure StoredPage (κ : Type) where
  key : κ
  bytes : Nat
  references : Nat
  ready : Bool

/-- The bound of a store, and its allocation unit if it is packed. -/
structure PageStoreConfig where
  capacityBytes : Nat
  allocationUnit : Option Nat

structure NativePageStore (κ : Type) where
  /-- The objects that were created, by address; `none` past the last one. -/
  heap : Nat → Option (StoredPage κ)
  /-- The address of the next object. -/
  next : Nat
  pages : OrderedDict κ Nat
  lru : OrderedDict κ Unit
  usedBytes : Nat

namespace NativePageStore

variable {κ : Type} [DecidableEq κ] (cfg : PageStoreConfig)

def init : NativePageStore κ := ⟨fun _ => none, 0, .empty, .empty, 0⟩

def allocationBytes (payloadBytes : Nat) : Nat := cfg.allocationUnit.getD payloadBytes

variable (s : NativePageStore κ)

/-- The page of a key. -/
def page? (key : κ) : Option (StoredPage κ) :=
  (s.pages.get? key).bind s.heap

/-- A page that reads may use. -/
def readable (key : κ) : Bool := (s.page? key).any StoredPage.ready

/-- A lookup refreshes the LRU order of what it finds. -/
def lookup (key : κ) : NativePageStore κ × Option Nat :=
  if s.readable key then ({ s with lru := s.lru.moveToEnd key }, s.pages.get? key) else (s, none)

/-- The first key whose page has no references. -/
def candidate : List κ → Except Err (Option κ)
  | [] => pure none
  | key :: rest => do
    let page ← (s.page? key).orRaise .keyError
    if page.references = 0 then pure (some key) else candidate rest

/-- Take a page out of the store. -/
def drop (key : κ) : NativePageStore κ :=
  { s with
    pages := s.pages.erase key
    lru := s.lru.erase key
    usedBytes := s.usedBytes - ((s.page? key).map StoredPage.bytes).getD 0 }

/-- Evict until `size` bytes fit; the flag tells whether they do.  Every round
takes a key off the LRU list, so that the rounds are bounded by its length. -/
def makeRoom (size : Nat) : Nat → NativePageStore κ → Except Err (NativePageStore κ × Bool)
  | 0, s => pure (s, s.usedBytes + size ≤ cfg.capacityBytes)
  | rounds + 1, s =>
    if s.usedBytes + size ≤ cfg.capacityBytes then pure (s, true)
    else do
      match ← s.candidate s.lru.keys with
      | none => pure (s, false)
      | some key => makeRoom size rounds (s.drop key)

/-- Store a new page that is being written. -/
def create (key : κ) (size : Nat) : NativePageStore κ where
  heap := update s.heap s.next (some ⟨key, size, 1, false⟩)
  next := s.next + 1
  pages := s.pages.set key s.next
  lru := s.lru.set key ()
  usedBytes := s.usedBytes + size

/-- Reserve a page for a write; `none` if the key is stored already or no room
can be made. -/
def reserveWrite (key : κ) (payloadBytes : Nat) : Except Err (NativePageStore κ × Option Nat):=
  if payloadBytes = 0 then throw (.configuration "payload_bytes must be >= 1")
  else if (s.pages.get? key).isSome then pure (s, none)
  else if cfg.capacityBytes < allocationBytes cfg payloadBytes then pure (s, none)
  else do
    let (s, fits) ← makeRoom cfg (allocationBytes cfg payloadBytes) s.lru.size s
    if fits then pure (s.create key (allocationBytes cfg payloadBytes), some s.next)
    else pure (s, none)

/-- Change the object at an address. -/
def setPage (a : Nat) (page : StoredPage κ) : NativePageStore κ :=
  { s with heap := update s.heap a (some page) }

def release (a : Nat) : Except Err (NativePageStore κ) := do
  let page ← (s.heap a).orRaise .keyError
  if page.references = 0 then throw (.simulationState "invalid external page release")
  else pure (s.setPage a { page with references := page.references - 1 })

def acquire (a : Nat) : Except Err (NativePageStore κ) := do
  let page ← (s.heap a).orRaise .keyError
  if s.pages.get? page.key ≠ some a ∨ page.ready = false then
    throw (.simulationState "external read needs a ready resident page")
  else pure { s.setPage a { page with references := page.references + 1 } with
    lru := s.lru.moveToEnd page.key }

def finishWrite (a : Nat) : Except Err (NativePageStore κ) := do
  let page ← (s.heap a).orRaise .keyError
  if s.pages.get? page.key ≠ some a then
    throw (.simulationState "a pinned external page was evicted during write")
  else (s.setPage a { page with ready := true }).release a

/-! ## The invariant -/

/-- The references of the object at an address. -/
def referencesAt (a : Nat) : Nat :=
  ((s.heap a).map StoredPage.references).getD 0

/-- The size of the object at an address. -/
def bytesAt (a : Nat) : Nat := ((s.heap a).map StoredPage.bytes).getD 0

/-- The store is consistent when transfers hold the references `refs`. -/
structure Ok (refs : Nat → Nat) (s : NativePageStore κ) : Prop where
  lru : ∀ key, key ∈ s.lru.keys ↔ key ∈ s.pages.keys
  used : s.usedBytes = s.pages.sum fun _ a => s.bytesAt a
  within : s.usedBytes ≤ cfg.capacityBytes
  /-- A stored page has the key it is stored under. -/
  keyed : ∀ key a, s.pages.get? key = some a → ∃ page, s.heap a = some page ∧ page.key = key
  references : ∀ a, s.referencesAt a = refs a
  /-- A page with references is stored. -/
  resident : ∀ a, refs a ≠ 0 → ∃ page, s.heap a = some page ∧ s.pages.get? page.key = some a
  unborn : ∀ a, s.next ≤ a → s.heap a = none

/-- What an operation leaves alone: the keys of the objects. -/
structure SameKeys (s s' : NativePageStore κ) : Prop where
  key : ∀ a page, s.heap a = some page → ∃ page', s'.heap a = some page' ∧ page'.key = page.key

omit [DecidableEq κ] in
theorem SameKeys.refl (s : NativePageStore κ) : SameKeys s s := ⟨fun _ page h => ⟨page, h, rfl⟩⟩

omit [DecidableEq κ] in
theorem SameKeys.trans {s s' s'' : NativePageStore κ} (h : SameKeys s s') (h' : SameKeys s' s'') :
    SameKeys s s'' := by
  constructor
  intro a page hp
  obtain ⟨page', hp', hk⟩ := h.key a page hp
  obtain ⟨page'', hp'', hk'⟩ := h'.key a page' hp'
  exact ⟨page'', hp'', hk'.trans hk⟩

variable {cfg s} {refs : Nat → Nat} {s' : NativePageStore κ} {key : κ} {a : Nat}

theorem init_ok : Ok cfg (fun _ => 0) (init : NativePageStore κ) where
  lru _ := Iff.rfl
  used := rfl
  within := Nat.zero_le _
  keyed _ _ h := by cases h
  references _ := rfl
  resident _ h := absurd rfl h
  unborn _ _ := rfl

theorem Ok.congr {refs' : Nat → Nat} (h : Ok cfg refs s) (hr : ∀ a, refs' a = refs a) :
    Ok cfg refs' s := by
  have he : refs' = refs := funext hr
  rw [he]
  exact h

variable (h : Ok cfg refs s)
include h

theorem page?_eq_some (ha : s.pages.get? key = some a) :
    ∃ page, s.page? key = some page ∧ s.heap a = some page ∧ page.key = key := by
  obtain ⟨page, hheap, hkey⟩ := h.keyed key a ha
  exact ⟨page, by rw [page?, ha]; exact hheap, hheap, hkey⟩

theorem Ok.touch (key : κ) : Ok cfg refs { s with lru := s.lru.moveToEnd key } :=
  { h with lru := fun k => (mem_keys_moveToEnd ..).trans (h.lru k) }

theorem Ok.lookup (key : κ) : Ok cfg refs (s.lookup key).1 := by
  unfold NativePageStore.lookup
  split
  · exact h.touch key
  · exact h

omit h [DecidableEq κ] in
theorem sameKeys_setPage {page : StoredPage κ} (page' : StoredPage κ) (hp : s.heap a = some page)
    (hkey : page'.key = page.key) : SameKeys s (s.setPage a page') := by
  constructor
  intro x page₀ hx
  by_cases hxa : x = a
  · subst hxa
    rw [hp] at hx
    cases hx
    exact ⟨page', update_self .., hkey⟩
  · exact ⟨page₀, (update_of_ne hxa ..).trans hx, rfl⟩

theorem Ok.references_eq {page : StoredPage κ} (hp : s.heap a = some page) :
    page.references = refs a := by
  rw [← h.references a, referencesAt, hp]
  rfl

theorem Ok.setPage {page : StoredPage κ} (page' : StoredPage κ)
    (hp : s.heap a = some page) (hkey : page'.key = page.key) (hbytes : page'.bytes = page.bytes)
    (hres : page'.references ≠ 0 → s.pages.get? page.key = some a) :
    Ok cfg (update refs a page'.references) (s.setPage a page') := by
  refine ⟨h.lru, h.used.trans ?_, h.within, fun key x hx => ?_, fun x => ?_, fun x hx => ?_,
    fun x hx => ?_⟩
  · have hsame : (fun (_ : κ) x => s.bytesAt x) = fun _ x => (s.setPage a page').bytesAt x := by
      funext _ x
      by_cases hxa : x = a
      · subst hxa
        simp [bytesAt, NativePageStore.setPage, hp, hbytes]
      · simp [bytesAt, NativePageStore.setPage, update_of_ne hxa]
    rw [hsame]
    rfl
  · obtain ⟨page₀, hx₀, hk₀⟩ := h.keyed key x hx
    obtain ⟨page₁, hx₁, hk₁⟩ := (sameKeys_setPage page' hp hkey).key x page₀ hx₀
    exact ⟨page₁, hx₁, hk₁.trans hk₀⟩
  · by_cases hxa : x = a
    · subst hxa
      simp [referencesAt, NativePageStore.setPage]
    · rw [update_of_ne hxa, ← h.references x]
      simp [referencesAt, NativePageStore.setPage, update_of_ne hxa]
  · by_cases hxa : x = a
    · subst hxa
      rw [update_self] at hx
      exact ⟨page', update_self .., by rw [hkey]; exact hres hx⟩
    · rw [update_of_ne hxa] at hx
      obtain ⟨page₀, hx₀, hget⟩ := h.resident x hx
      exact ⟨page₀, (update_of_ne hxa ..).trans hx₀, hget⟩
  · have hne : x ≠ a := by
      intro hxa
      rw [hxa] at hx
      rw [h.unborn a hx] at hp
      cases hp
    exact (update_of_ne hne ..).trans (h.unborn x hx)

/-! ## The operations -/

theorem acquire_spec (ha : s.pages.get? key = some a)
    (hready : s.readable key = true) : ∃ s', s.acquire a = .ok s' ∧
      Ok cfg (update refs a (refs a + 1)) s' ∧ SameKeys s s' ∧
      s'.pages = s.pages ∧ ∀ k, s'.readable k = s.readable k := by
  obtain ⟨page, hpage, hheap, hkey⟩ := page?_eq_some h ha
  have hr : page.ready = true := by
    rw [readable, hpage] at hready
    exact hready
  have hrefs := h.references_eq hheap
  have hget : s.pages.get? page.key = some a := by
    rw [hkey]
    exact ha
  have hcond : ¬(s.pages.get? page.key ≠ some a ∨ page.ready = false) := by
    rintro (hne | hnot)
    · exact hne hget
    · rw [hr] at hnot
      cases hnot
  refine ⟨_, ?_, (h.setPage { page with references := page.references + 1 } hheap rfl
    rfl fun _ => hget).touch page.key |>.congr fun x => ?_, ?_, rfl, fun k => ?_⟩
  · unfold NativePageStore.acquire
    rw [hheap]
    exact if_neg hcond
  · rw [hrefs]
  · exact ⟨(sameKeys_setPage { page with references := page.references + 1 } hheap rfl).key⟩
  · unfold readable page?
    show ((s.pages.get? k).bind _).any _ = _
    cases hk : s.pages.get? k with
    | none => rfl
    | some x =>
      by_cases hxa : x = a
      · subst hxa
        simp [NativePageStore.setPage, hheap]
      · simp [NativePageStore.setPage, update_of_ne hxa]

theorem release_spec (ha : refs a ≠ 0) : ∃ s', s.release a = .ok s' ∧
    Ok cfg (update refs a (refs a - 1)) s' ∧ SameKeys s s' := by
  obtain ⟨page, hheap, hget⟩ := h.resident a ha
  have hrefs := h.references_eq hheap
  refine ⟨_, ?_, (h.setPage { page with references := page.references - 1 } hheap rfl
    rfl fun _ => hget).congr fun x => by rw [hrefs], sameKeys_setPage _ hheap rfl⟩
  unfold NativePageStore.release
  rw [hheap]
  exact if_neg (hrefs ▸ ha)

theorem finishWrite_spec (ha : refs a ≠ 0) : ∃ s', s.finishWrite a = .ok s' ∧
    Ok cfg (update refs a (refs a - 1)) s' ∧ SameKeys s s' := by
  obtain ⟨page, hheap, hget⟩ := h.resident a ha
  have hrefs := h.references_eq hheap
  have hready : Ok cfg refs (s.setPage a { page with ready := true }) :=
    (h.setPage { page with ready := true } hheap rfl rfl fun _ => hget).congr fun x => by
      by_cases hxa : x = a
      · subst hxa
        simp [hrefs]
      · rw [update_of_ne hxa]
  obtain ⟨s', hs', hok', hkeys⟩ := release_spec hready ha
  refine ⟨s', ?_, hok', (sameKeys_setPage { page with ready := true } hheap rfl).trans hkeys⟩
  unfold NativePageStore.finishWrite
  rw [hheap]
  exact (if_neg (not_not.mpr hget)).trans hs'

/-- The search for a page to evict finds one without references. -/
theorem candidate_spec : ∀ {keys : List κ}, (∀ k ∈ keys, k ∈ s.pages.keys) →
    ∃ found, s.candidate keys = .ok found ∧ ∀ key, found = some key →
      ∃ a, s.pages.get? key = some a ∧ refs a = 0 := by
  intro keys
  induction keys with
  | nil => exact fun _ => ⟨none, rfl, fun key he => nomatch he⟩
  | cons key rest ih =>
    intro hmem
    obtain ⟨a, ha⟩ := mem_keys_iff.mp (hmem key List.mem_cons_self)
    obtain ⟨page, hpage, hheap, -⟩ := page?_eq_some h ha
    have hrefs := h.references_eq hheap
    unfold candidate
    rw [hpage]
    by_cases hzero : page.references = 0
    · refine ⟨some key, if_pos hzero, fun k he => ?_⟩
      cases he
      exact ⟨a, ha, hrefs ▸ hzero⟩
    · obtain ⟨found, hfound, hspec⟩ := ih (List.forall_mem_cons.mp hmem).2
      exact ⟨found, (if_neg hzero).trans hfound, hspec⟩

theorem Ok.drop (ha : s.pages.get? key = some a) (hzero : refs a = 0) : Ok cfg refs (s.drop key):= by
  obtain ⟨page, hpage, hheap, hkey⟩ := page?_eq_some h ha
  have hsum := sum_erase_of_get? ha fun _ x => s.bytesAt x
  have hbytes : ((s.page? key).map StoredPage.bytes).getD 0 = s.bytesAt a := by
    rw [hpage, bytesAt, hheap]
  have hused := h.used
  refine ⟨fun k => ?_, ?_, le_trans (Nat.sub_le ..) h.within, fun k x hx => ?_, h.references,
    fun x hx => ?_, h.unborn⟩
  · show k ∈ (s.lru.erase key).keys ↔ k ∈ (s.pages.erase key).keys
    rw [mem_keys_erase, mem_keys_erase, h.lru]
  · show s.usedBytes - _ = (s.pages.erase key).sum fun _ x => s.bytesAt x
    rw [hbytes]
    omega
  · exact h.keyed k x (get?_of_erase hx).2
  · obtain ⟨page₀, hx₀, hget⟩ := h.resident x hx
    refine ⟨page₀, hx₀, ?_⟩
    show (s.pages.erase key).get? page₀.key = some x
    rw [get?_erase, if_neg, hget]
    intro hk
    rw [hk, ha] at hget
    cases hget
    exact hx hzero

omit h in
theorem makeRoom_spec (size : Nat) : ∀ (rounds : Nat) {s : NativePageStore κ}, Ok cfg refs s →
    ∃ s' fits, makeRoom cfg size rounds s = .ok (s', fits) ∧ Ok cfg refs s' ∧
      (fits = true → s'.usedBytes + size ≤ cfg.capacityBytes) ∧
      (∀ k, s.pages.get? k = none → s'.pages.get? k = none) ∧ s'.heap = s.heap ∧
      s'.next = s.next := by
  intro rounds
  induction rounds with
  | zero => exact fun {s} h => ⟨s, _, rfl, h, fun he => by simpa using he, fun _ hk => hk, rfl, rfl⟩
  | succ rounds ih =>
    intro s h
    unfold makeRoom
    split
    · rename_i hfits
      exact ⟨s, true, rfl, h, fun _ => hfits, fun _ hk => hk, rfl, rfl⟩
    · obtain ⟨found, hfound, hspec⟩ := candidate_spec h fun k hk => (h.lru k).mp hk
      rw [hfound]
      cases found with
      | none => exact ⟨s, false, rfl, h, by simp, fun _ hk => hk, rfl, rfl⟩
      | some key =>
        obtain ⟨a, ha, hzero⟩ := hspec key rfl
        obtain ⟨s', fits, hroom, hok', hfits, habsent, hheap, hnext⟩ := ih (h.drop ha hzero)
        refine ⟨s', fits, hroom, hok', hfits, fun k hk => habsent k ?_, hheap, hnext⟩
        show (s.pages.erase key).get? k = none
        rw [get?_erase, hk, ite_self]

theorem Ok.create {size : Nat} (hkey : s.pages.get? key = none)
    (hfits : s.usedBytes + size ≤ cfg.capacityBytes) :
    Ok cfg (update refs s.next (refs s.next + 1)) (s.create key size) := by
  have hborn : ∀ x page, s.heap x = some page → x ≠ s.next := by
    intro x page hx he
    rw [he, h.unborn _ le_rfl] at hx
    cases hx
  have hzero : refs s.next = 0 := by
    rw [← h.references, referencesAt, h.unborn _ le_rfl]
    rfl
  have hself : (s.create key size).heap s.next = some ⟨key, size, 1, false⟩ :=
    update_self ..
  have hother : ∀ x, x ≠ s.next → (s.create key size).heap x = s.heap x :=
    fun x hx => update_of_ne hx ..
  refine ⟨fun k => ?_, ?_, hfits, fun k x hx => ?_, fun x => ?_, fun x hx => ?_, fun x hx => ?_⟩
  · show k ∈ (s.lru.set key ()).keys ↔ k ∈ (s.pages.set key s.next).keys
    rw [mem_keys_set, mem_keys_set, h.lru]
  · have hsum := sum_set_of_get?_none hkey
      (fun _ x => (s.create key size).bytesAt x) s.next
    have hold : s.pages.sum (fun _ x => (s.create key size).bytesAt x) =
        s.pages.sum fun _ x => s.bytesAt x := by
      unfold OrderedDict.sum Entries.sum
      congr 1
      refine List.map_congr_left fun e he => ?_
      obtain ⟨page, hx, -⟩ := h.keyed e.1 e.2 (get?_eq_some_iff.mpr he)
      simp only [bytesAt, hother e.2 (hborn e.2 page hx)]
    have hnew : (s.create key size).bytesAt s.next = size := by
      rw [bytesAt, hself]
      rfl
    have hused := h.used
    show s.usedBytes + size = (s.pages.set key s.next).sum _
    rw [hsum, hold, hnew, hused]
  · rcases get?_set_cases hx with ⟨rfl, rfl⟩ | ⟨-, hx⟩
    · exact ⟨_, hself, rfl⟩
    · obtain ⟨page, hpage, hk⟩ := h.keyed k x hx
      exact ⟨page, (hother x (hborn x page hpage)).trans hpage, hk⟩
  · by_cases hxn : x = s.next
    · subst hxn
      rw [update_self, referencesAt, hself, hzero]
      rfl
    · rw [update_of_ne hxn, referencesAt, hother x hxn]
      exact h.references x
  · by_cases hxn : x = s.next
    · subst hxn
      exact ⟨_, hself, get?_set_self⟩
    · rw [update_of_ne hxn] at hx
      obtain ⟨page, hpage, hget⟩ := h.resident x hx
      refine ⟨page, (hother x hxn).trans hpage, ?_⟩
      show (s.pages.set key s.next).get? page.key = some x
      rw [get?_set_of_ne, hget]
      intro hk
      rw [hk, hkey] at hget
      cases hget
  · have hx : s.next + 1 ≤ x := hx
    rw [hother x (by omega)]
    exact h.unborn x (by omega)

/-- A reservation does not raise.  If it returns a page, the page is new, has the
key and is held by the write. -/
theorem reserveWrite_spec (key : κ) {payloadBytes : Nat} (hpos : payloadBytes ≠ 0) :
    ∃ s' result, s.reserveWrite cfg key payloadBytes = .ok (s', result) ∧ SameKeys s s' ∧
      (result = none → Ok cfg refs s') ∧
      ∀ a, result = some a → Ok cfg (update refs a (refs a + 1)) s' ∧
        ∃ page, s'.heap a = some page ∧ page.key = key := by
  unfold reserveWrite
  rw [if_neg hpos]
  split
  · exact ⟨s, none, rfl, .refl s, fun _ => h, by simp⟩
  · rename_i hnew
    split
    · exact ⟨s, none, rfl, .refl s, fun _ => h, by simp⟩
    · obtain ⟨s₁, fits, hroom, hok, hfits, habsent, hheap, hnext⟩ :=
        makeRoom_spec (allocationBytes cfg payloadBytes) s.lru.size h
      have hsame : SameKeys s s₁ := ⟨fun a page hp => ⟨page, by rw [hheap]; exact hp, rfl⟩⟩
      rw [hroom]
      cases fits with
      | false => exact ⟨s₁, none, rfl, hsame, fun _ => hok, by simp⟩
      | true =>
        have hkey : s₁.pages.get? key = none := habsent key (by simpa using hnew)
        refine ⟨_, _, rfl, ⟨fun a page hp => ⟨page, ?_, rfl⟩⟩, by simp, fun a he => ?_⟩
        · rw [← hheap] at hp
          have hne : a ≠ s₁.next := by
            intro he
            rw [he, hok.unborn _ le_rfl] at hp
            cases hp
          exact (update_of_ne hne ..).trans hp
        · cases he
          exact ⟨hok.create hkey (hfits rfl), _, update_self .., rfl⟩

end NativePageStore

end TokenSim
