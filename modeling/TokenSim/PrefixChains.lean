import TokenSim.PrefixKeys

/-!
# Equal keys stand for equal prefixes

The texts that are hashed can be read back: JSON strings delimit themselves, so
each text determines the values it was built from.  When the digest has no
collision among the texts that two prompts hash (`prefixTexts`), a key that
occurs in both chains occurs at the same place, after the same signatures and
for the same model, salt and reuse group (`buildPrefixKeys_inj`).
-/

namespace TokenSim

open List
open Nat (mod_lt)

/-! ## JSON strings delimit themselves -/

theorem digitChar_inj : ∀ {m n : Nat}, m < 16 → n < 16 → m.digitChar = n.digitChar → m = n := by
  have h : ∀ m n : Fin 16, m.val.digitChar = n.val.digitChar → m = n := by decide
  intro m n hm hn he
  exact congrArg Fin.val (h ⟨m, hm⟩ ⟨n, hn⟩ he)

/-- A code unit is read back from its four digits. -/
theorem hex4_append_inj {m n : Nat} {t t' : List Char} (hm : m < 65536) (hn : n < 65536)
    (h : hex4 m ++ t = hex4 n ++ t') : m = n ∧ t = t' := by
  simp only [hex4, cons_append, nil_append, List.cons.injEq] at h
  obtain ⟨h3, h2, h1, h0, ht⟩ := h
  have e3 := digitChar_inj (mod_lt _ (by decide)) (mod_lt _ (by decide)) h3
  have e2 := digitChar_inj (mod_lt _ (by decide)) (mod_lt _ (by decide)) h2
  have e1 := digitChar_inj (mod_lt _ (by decide)) (mod_lt _ (by decide)) h1
  have e0 := digitChar_inj (mod_lt _ (by decide)) (mod_lt _ (by decide)) h0
  exact ⟨by omega, ht⟩

/-- The character that a short escape stands for. -/
def unescape (x : Char) : Char :=
  if x = 'n' then '\n' else if x = 'r' then '\r' else if x = 't' then '\t'
  else if x = 'f' then '\x0c' else if x = 'b' then '\x08' else x

/-- A character stands for itself, has a short escape, is one code unit or is a
pair of surrogates. -/
inductive Quoted : Char → List Char → Prop where
  | plain {c : Char} : c ≠ '\\' → c ≠ '"' → Quoted c [c]
  | short {x : Char} : x ≠ 'u' → Quoted (unescape x) ['\\', x]
  | unit {c : Char} : c.toNat < 0x10000 → Quoted c (unicodeEscape c.toNat)
  | pair {c : Char} : 0x10000 ≤ c.toNat → Quoted c
      (unicodeEscape (0xd800 + (c.toNat - 0x10000) / 1024 % 1024) ++
        unicodeEscape (0xdc00 + (c.toNat - 0x10000) % 1024))

theorem quoted_quoteChar (c : Char) : Quoted c (quoteChar c) := by
  unfold quoteChar
  split
  · rename_i h; subst h; exact .short (x := '\\') (by decide)
  split
  · rename_i h; subst h; exact .short (x := '"') (by decide)
  split
  · rename_i h; subst h; exact .short (x := 'n') (by decide)
  split
  · rename_i h; subst h; exact .short (x := 'r') (by decide)
  split
  · rename_i h; subst h; exact .short (x := 't') (by decide)
  split
  · rename_i h; subst h; exact .short (x := 'f') (by decide)
  split
  · rename_i h; subst h; exact .short (x := 'b') (by decide)
  split
  · rename_i hslash hquote _ _ _ _ _ _
    exact .plain hslash hquote
  split
  · rename_i h; exact .unit h
  · rename_i h; exact .pair (Nat.le_of_not_lt h)

theorem not_surrogate (c : Char) : c.toNat < 0xd800 ∨ 0xe000 ≤ c.toNat := by
  have h := c.valid
  rcases h with h | h
  · exact .inl h
  · exact .inr (by have : 0xdfff < c.toNat := h.1; omega)

theorem toNat_lt (c : Char) : c.toNat < 0x110000 := by
  rcases c.valid with h | h
  · have : c.toNat < 0xd800 := h
    omega
  · exact h.2

/-- A character is read back from its quoted form, whatever follows. -/
theorem Quoted.append_inj {c c' : Char} {q q' t t' : List Char} (h : Quoted c q)
    (h' : Quoted c' q') (he : q ++ t = q' ++ t') : c = c' ∧ t = t' := by
  have hc := not_surrogate c
  have hc' := not_surrogate c'
  have hlt := toNat_lt c
  have hlt' := toNat_lt c'
  cases h with
  | plain hs hq =>
    cases h' with
    | plain _ _ => exact List.cons.inj he
    | short _ => exact absurd (List.cons.inj he).1 hs
    | unit _ => exact absurd (List.cons.inj he).1 hs
    | pair _ => exact absurd (List.cons.inj he).1 hs
  | short hx =>
    cases h' with
    | plain hs _ => exact absurd (List.cons.inj he).1.symm hs
    | short _ =>
      obtain ⟨rfl, ht⟩ := List.cons.inj (List.cons.inj he).2
      exact ⟨rfl, ht⟩
    | unit _ => exact absurd (List.cons.inj (List.cons.inj he).2).1 hx
    | pair _ => exact absurd (List.cons.inj (List.cons.inj he).2).1 hx
  | unit hu =>
    cases h' with
    | plain hs _ => exact absurd (List.cons.inj he).1.symm hs
    | short hx => exact absurd (List.cons.inj (List.cons.inj he).2).1.symm hx
    | unit hu' =>
      obtain ⟨hn, ht⟩ := hex4_append_inj hu hu' (List.cons.inj (List.cons.inj he).2).2
      exact ⟨Char.toNat_inj.mp hn, ht⟩
    | pair hp =>
      rw [append_assoc] at he
      obtain ⟨hn, -⟩ := hex4_append_inj hu (by omega) (List.cons.inj (List.cons.inj he).2).2
      omega
  | pair hp =>
    rw [append_assoc] at he
    cases h' with
    | plain hs _ => exact absurd (List.cons.inj he).1.symm hs
    | short hx => exact absurd (List.cons.inj (List.cons.inj he).2).1.symm hx
    | unit hu =>
      obtain ⟨hn, -⟩ := hex4_append_inj (by omega) hu (List.cons.inj (List.cons.inj he).2).2
      omega
    | pair hp' =>
      rw [append_assoc] at he
      obtain ⟨hhigh, he⟩ := hex4_append_inj (by omega) (by omega)
        (List.cons.inj (List.cons.inj he).2).2
      obtain ⟨hlow, ht⟩ := hex4_append_inj (by omega) (by omega)
        (List.cons.inj (List.cons.inj he).2).2
      exact ⟨Char.toNat_inj.mp (by omega), ht⟩

theorem Quoted.ne_quote {c : Char} {q t t' : List Char} (h : Quoted c q) : q ++ t ≠ '"' :: t' := by
  intro he
  cases h with
  | plain _ hq => exact hq (List.cons.inj he).1
  | short _ => exact absurd (List.cons.inj he).1 (by decide)
  | unit _ => exact absurd (List.cons.inj he).1 (by decide)
  | pair _ =>
    rw [List.append_assoc] at he
    exact absurd (List.cons.inj he).1 (by decide)

theorem quoted_chars_inj : ∀ {l l' t t' : List Char},
    l.flatMap quoteChar ++ '"' :: t = l'.flatMap quoteChar ++ '"' :: t' → l = l' ∧ t = t'
  | [], [], t, t', h => ⟨rfl, (List.cons.inj h).2⟩
  | [], c :: l', t, t', h => by
    rw [List.flatMap_cons, List.append_assoc] at h
    exact absurd h.symm (quoted_quoteChar c).ne_quote
  | c :: l, [], t, t', h => by
    rw [List.flatMap_cons, List.append_assoc] at h
    exact absurd h (quoted_quoteChar c).ne_quote
  | c :: l, c' :: l', t, t', h => by
    rw [List.flatMap_cons, List.flatMap_cons, List.append_assoc, List.append_assoc] at h
    obtain ⟨rfl, hrest⟩ := (quoted_quoteChar c).append_inj (quoted_quoteChar c') h
    obtain ⟨rfl, ht⟩ := quoted_chars_inj hrest
    exact ⟨rfl, ht⟩

/-- A string is read back from its JSON form, whatever follows. -/
theorem quote_append_inj {s s' t t' : String} (h : quote s ++ t = quote s' ++ t') :
    s = s' ∧ t = t' := by
  have h := congrArg String.toList h
  simp only [quote, String.toList_append, String.toList_ofList, List.cons_append,
    List.append_assoc, List.nil_append, List.cons.injEq, true_and] at h
  obtain ⟨hs, ht⟩ := quoted_chars_inj h
  exact ⟨String.toList_inj.mp hs, String.toList_inj.mp ht⟩

theorem quoteOption_append_inj {s s' : Option String} {t t' : String}
    (h : quoteOption s ++ t = quoteOption s' ++ t') : s = s' ∧ t = t' := by
  -- `null` does not start with a quotation mark
  have hne : ∀ (s t t' : String), quote s ++ t ≠ "null" ++ t' := by
    intro s t t' he
    have := congrArg String.toList he
    simp [quote, String.toList_append] at this
  cases s with
  | none =>
    cases s' with
    | none =>
      rw [String.append_right_inj] at h
      exact ⟨rfl, h⟩
    | some s' => exact absurd h.symm (hne _ _ _)
  | some s =>
    cases s' with
    | none => exact absurd h (hne _ _ _)
    | some s' =>
      obtain ⟨rfl, ht⟩ := quote_append_inj h
      exact ⟨rfl, ht⟩

/-! ## Texts determine what they are built from -/

theorem append_cancel (s : String) {t t' : String} (h : s ++ t = s ++ t') : t = t' :=
  (String.append_right_inj s).mp h

theorem extraPayload_inj {model model' : String} {salt salt' group group' : Option String}
    (h : extraPayload model salt group = extraPayload model' salt' group') :
    model = model' ∧ salt = salt' ∧ group = group' := by
  unfold extraPayload at h
  simp only [String.append_assoc] at h
  obtain ⟨hsalt, h⟩ := quoteOption_append_inj (append_cancel "\x7b\"cache_salt\":" h)
  obtain ⟨hmodel, h⟩ := quote_append_inj (append_cancel ",\"model\":" h)
  obtain ⟨hgroup, -⟩ := quoteOption_append_inj (append_cancel ",\"reuse_group\":" h)
  exact ⟨hmodel, hsalt, hgroup⟩

theorem chainPayload_inj {parent parent' signature signature' extra extra' : String}
    (h : chainPayload parent signature extra = chainPayload parent' signature' extra') :
    parent = parent' ∧ signature = signature' ∧ extra = extra' := by
  unfold chainPayload at h
  simp only [String.append_assoc] at h
  obtain ⟨hsignature, h⟩ := quote_append_inj (append_cancel "\x7b\"block_signature\":" h)
  obtain ⟨hextra, h⟩ := quote_append_inj (append_cancel ",\"extra_hash\":" h)
  obtain ⟨hparent, -⟩ := quote_append_inj (append_cancel ",\"parent_hash\":" h)
  exact ⟨hparent, hsignature, hextra⟩

theorem rootPayload_ne_chainPayload (extra parent signature extra' : String) :
    rootPayload extra ≠ chainPayload parent signature extra' := by
  intro h
  unfold rootPayload chainPayload at h
  have h := congrArg String.toList h
  simp only [String.toList_append] at h
  -- they differ in their third character
  have h := congrArg (List.take 3) h
  simp at h

/-! ## Chains -/

section Chains

variable {sha256 : String → String}

/-- The texts that are hashed for a prompt. -/
def prefixTexts (sha256 : String → String) (blockHashes : List HashId) (model : String)
    (cacheSalt reuseGroup : Option String) : List String :=
  extraPayload model cacheSalt reuseGroup ::
    rootPayload (makeExtraHash sha256 model cacheSalt reuseGroup) ::
    (buildPrefixKeys sha256 blockHashes model cacheSalt reuseGroup).map fun key =>
      chainPayload key.parentHash key.blockSignature key.extraHash

theorem chainKeys_head {extra parent : String} {signatures : List String} {key : PrefixCacheKey}
    (h : (chainKeys sha256 extra parent signatures)[0]? = some key) :
    ∃ rest, signatures = key.blockSignature :: rest ∧ key.parentHash = parent ∧
      key.extraHash = extra := by
  cases signatures with
  | nil => cases h
  | cons signature rest =>
    cases h
    exact ⟨rest, rfl, rfl, rfl⟩

theorem chainKeys_succ {extra : String} : ∀ {signatures : List String} {parent : String} {i : Nat}
    {key : PrefixCacheKey}, (chainKeys sha256 extra parent signatures)[i + 1]? = some key →
    ∃ before, (chainKeys sha256 extra parent signatures)[i]? = some before ∧
      key.parentHash = chainHash sha256 before.parentHash before.blockSignature extra ∧
      before.extraHash = extra ∧ key.extraHash = extra ∧
      signatures.take (i + 2) = signatures.take (i + 1) ++ [key.blockSignature]
  | [], _, _, _, h => by cases h
  | signature :: rest, parent, i, key, h => by
    rw [chainKeys, getElem?_cons_succ] at h
    cases i with
    | zero =>
      obtain ⟨rest', rfl, hparent, hextra⟩ := chainKeys_head h
      exact ⟨⟨parent, signature, extra⟩, rfl, hparent, rfl, hextra, rfl⟩
    | succ i =>
      obtain ⟨before, hbefore, hparent, hextra, hextra', htake⟩ := chainKeys_succ h
      refine ⟨before, ?_, hparent, hextra, hextra', ?_⟩
      · rw [chainKeys, getElem?_cons_succ]
        exact hbefore
      · rw [take_succ_cons, htake, take_succ_cons, cons_append]

/-- A key that occurs in two chains occurs after the same signatures, when the
digest has no collision among the texts `T`. -/
theorem chainKeys_inj {extra : String} {T : List String}
    (hinj : ∀ a ∈ T, ∀ b ∈ T, sha256 a = sha256 b → a = b) {signatures signatures' : List String}
    (hroot : rootPayload extra ∈ T)
    (htexts : ∀ key ∈ chainKeys sha256 extra (makeRootParentHash sha256 extra) signatures,
      chainPayload key.parentHash key.blockSignature key.extraHash ∈ T)
    (htexts' : ∀ key ∈ chainKeys sha256 extra (makeRootParentHash sha256 extra) signatures',
      chainPayload key.parentHash key.blockSignature key.extraHash ∈ T) :
    ∀ {i j : Nat} {key : PrefixCacheKey},
    (chainKeys sha256 extra (makeRootParentHash sha256 extra) signatures)[i]? = some key →
    (chainKeys sha256 extra (makeRootParentHash sha256 extra) signatures')[j]? = some key →
    i = j ∧ signatures.take (i + 1) = signatures'.take (i + 1) := by
  -- a key after another one does not have the root as its parent
  have hne : ∀ before : PrefixCacheKey, before.extraHash = extra →
      chainPayload before.parentHash before.blockSignature before.extraHash ∈ T →
      chainHash sha256 before.parentHash before.blockSignature extra ≠
        makeRootParentHash sha256 extra := by
    intro before hextra hmem he
    rw [← hextra] at he
    have := hinj _ hmem _ (hextra ▸ hroot) he
    exact rootPayload_ne_chainPayload _ _ _ _ this.symm
  intro i
  induction i with
  | zero =>
    intro j key hi hj
    obtain ⟨rest, rfl, hparent, -⟩ := chainKeys_head hi
    cases j with
    | zero =>
      obtain ⟨rest', rfl, -, -⟩ := chainKeys_head hj
      exact ⟨rfl, rfl⟩
    | succ j =>
      obtain ⟨before, hbefore, hp, hextra, -, -⟩ := chainKeys_succ hj
      exact absurd (hp.symm.trans hparent)
        (hne before hextra (htexts' _ (mem_of_getElem? hbefore)))
  | succ i ih =>
    intro j key hi hj
    obtain ⟨before, hbefore, hp, hextra, -, htake⟩ := chainKeys_succ hi
    cases j with
    | zero =>
      obtain ⟨rest', rfl, hparent, -⟩ := chainKeys_head hj
      exact absurd (hp.symm.trans hparent)
        (hne before hextra (htexts _ (mem_of_getElem? hbefore)))
    | succ j =>
      obtain ⟨before', hbefore', hp', hextra', -, htake'⟩ := chainKeys_succ hj
      -- equal parents come from equal keys
      have htext : chainPayload before.parentHash before.blockSignature before.extraHash =
          chainPayload before'.parentHash before'.blockSignature before'.extraHash := by
        refine hinj _ (htexts _ (mem_of_getElem? hbefore)) _
          (htexts' _ (mem_of_getElem? hbefore')) ?_
        rw [hextra, hextra']
        exact hp.symm.trans hp'
      obtain ⟨h1, h2, h3⟩ := chainPayload_inj htext
      obtain ⟨p, s, e⟩ := before
      obtain ⟨p', s', e'⟩ := before'
      dsimp only at h1 h2 h3
      subst h1 h2 h3
      obtain ⟨rfl, hsame⟩ := ih hbefore hbefore'
      exact ⟨rfl, by rw [htake, htake', hsame]⟩

/-- A key of two prompts stands for one prefix of one model, salt and reuse
group. -/
theorem buildPrefixKeys_inj {hashes hashes' : List HashId} {model model' : String}
    {salt salt' group group' : Option String}
    (hinj : ∀ a ∈ prefixTexts sha256 hashes model salt group ++
        prefixTexts sha256 hashes' model' salt' group',
      ∀ b ∈ prefixTexts sha256 hashes model salt group ++
        prefixTexts sha256 hashes' model' salt' group', sha256 a = sha256 b → a = b)
    {i j : Nat} {key : PrefixCacheKey}
    (hi : (buildPrefixKeys sha256 hashes model salt group)[i]? = some key)
    (hj : (buildPrefixKeys sha256 hashes' model' salt' group')[j]? = some key) :
    model = model' ∧ salt = salt' ∧ group = group' ∧ i = j ∧
      (hashes.take (i + 1)).map HashId.signature = (hashes'.take (i + 1)).map HashId.signature := by
  have hextra : ∀ {hashes : List HashId} {model : String} {salt group : Option String} {i : Nat},
      (buildPrefixKeys sha256 hashes model salt group)[i]? = some key →
      key.extraHash = makeExtraHash sha256 model salt group := by
    intro hashes model salt group i h
    cases i with
    | zero =>
      obtain ⟨_, -, -, he⟩ := chainKeys_head h
      exact he
    | succ i =>
      obtain ⟨_, -, -, -, he, -⟩ := chainKeys_succ h
      exact he
  have hpayload := hinj _ (mem_append_left _ mem_cons_self) _
    (mem_append_right _ mem_cons_self) ((hextra hi).symm.trans (hextra hj))
  obtain ⟨rfl, rfl, rfl⟩ := extraPayload_inj hpayload
  obtain ⟨rfl, htake⟩ := chainKeys_inj hinj
    (mem_append_left _ (mem_cons_of_mem _ mem_cons_self))
    (fun key hkey => mem_append_left _ (mem_cons_of_mem _ (mem_cons_of_mem _
      (mem_map_of_mem hkey))))
    (fun key hkey => mem_append_right _ (mem_cons_of_mem _ (mem_cons_of_mem _
      (mem_map_of_mem hkey)))) hi hj
  refine ⟨rfl, rfl, rfl, rfl, ?_⟩
  rw [map_take, map_take]
  exact htake

end Chains

/-! ## Common prefixes -/

/-- The loop of `_common_prefix`: the lists agree up to `low` and differ before `high`. -/
def bisectPrefix (left right : List String) (low high : Nat) : Nat :=
  if high - low > 1 then
    let middle := (low + high) / 2
    if left.take middle = right.take middle then bisectPrefix left right middle high
    else bisectPrefix left right low middle
  else low
termination_by high - low

def commonPrefix (left right : List String) : Nat :=
  let size := min left.length right.length
  if size = 0 ∨ left.head? ≠ right.head? then 0
  else if left.take size = right.take size then size
  else bisectPrefix left right 1 size

theorem bisectPrefix_spec {left right : List String} {low high : Nat} (hlt : low < high)
    (hlow : left.take low = right.take low) (hhigh : left.take high ≠ right.take high) :
    ∃ n < high, bisectPrefix left right low high = n ∧ left.take n = right.take n ∧
      left.take (n + 1) ≠ right.take (n + 1) := by
  fun_induction bisectPrefix left right low high with
  | case1 low high hgap middle hsame ih => exact ih (by omega) hsame hhigh
  | case2 low high hgap middle hdiffer ih =>
    obtain ⟨n, hn, h⟩ := ih (by omega) hlow hdiffer
    exact ⟨n, by omega, h⟩
  | case3 low high hgap =>
    obtain rfl : high = low + 1 := by omega
    exact ⟨low, hlt, rfl, hlow, hhigh⟩

/-- The bisection finds the longest common prefix. -/
theorem le_commonPrefix_iff (left right : List String) (n : Nat) : n ≤ commonPrefix left right ↔
    n ≤ min left.length right.length ∧ left.take n = right.take n := by
  have hmono : ∀ {m n}, m ≤ n → left.take n = right.take n → left.take m = right.take m := by
    intro m n hle h
    simpa [take_take, Nat.min_eq_left hle] using congrArg (take m) h
  have hlast : ∀ {k size}, k ≤ size → left.take k = right.take k →
      (k < size → left.take (k + 1) ≠ right.take (k + 1)) →
      (n ≤ k ↔ n ≤ size ∧ left.take n = right.take n) := by
    refine fun hk htake hnext => ⟨fun hn => ⟨by omega, hmono hn htake⟩, fun ⟨hn, hsame⟩ => ?_⟩
    by_contra hlt
    exact hnext (by omega) (hmono (by omega) hsame)
  unfold commonPrefix
  dsimp only
  split
  · next h =>
    refine hlast (Nat.zero_le _) rfl fun hpos htake => h.elim (by omega) fun hhead => hhead ?_
    simpa [head?_take] using congrArg head? htake
  · next h =>
    push Not at h
    split
    · next hsame => exact hlast (Nat.le_refl _) hsame fun hlt => by omega
    · next hdiffer =>
      have hfirst : left.take 1 = right.take 1 := by rw [take_one, take_one, h.2]
      have hne : min left.length right.length ≠ 1 := fun hone => hdiffer (hone ▸ hfirst)
      obtain ⟨k, hk, heq, htake, hnext⟩ := bisectPrefix_spec (by omega) hfirst hdiffer
      exact heq ▸ hlast (Nat.le_of_lt hk) htake fun _ => hnext

end TokenSim
