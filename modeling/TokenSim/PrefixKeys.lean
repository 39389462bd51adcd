import Mathlib.Data.List.Basic

/-!
# Prefix keys

A prompt is a sequence of blocks, each named by a workload hash.  The key of a
block chains the hashes of all blocks before it, so that equal keys stand for
equal prefixes.  The chain is seeded with a hash of the model, the cache salt
and the reuse group.

The digest `sha256` is a parameter: it takes the text that the source encodes
and hashes and returns the hexadecimal digest.  The texts themselves are built
as the source builds them, with JSON string quoting.

Content that no workload hash covers gets a key that names the request, so
that it can only be recovered by the request that computed it.
-/

namespace TokenSim

/-- A block hash of the workload: a string or an integer. -/
inductive HashId where
  | str (s : String)
  | int (n : Int)
deriving DecidableEq, Repr

/-- The text of a hash, `str(hash)`. -/
def HashId.signature : HashId → String
  | .str s => s
  | .int n => toString n

/-- The key of a block of known content. -/
structure PrefixCacheKey where
  parentHash : String
  blockSignature : String
  extraHash : String
deriving DecidableEq, Repr

/-- The key of a block of unknown content.  Only the request itself has it. -/
structure RequestLocalPrefixKey where
  requestIdentity : Nat
  blockTokens : Nat
  blockIndex : Nat
  promptParent : Option PrefixCacheKey
  extraHash : String
deriving DecidableEq, Repr

/-- The key of a block.  The two kinds are tuples of different lengths and
never compare equal. -/
inductive BlockKey where
  | prompt (key : PrefixCacheKey)
  | requestLocal (key : RequestLocalPrefixKey)
deriving DecidableEq, Repr

/-! ## JSON texts -/

/-- Four hexadecimal digits. -/
def hex4 (n : Nat) : List Char :=
  [(n / 4096 % 16).digitChar, (n / 256 % 16).digitChar, (n / 16 % 16).digitChar, (n % 16).digitChar]

/-- The escape of a UTF-16 code unit. -/
def unicodeEscape (n : Nat) : List Char := '\\' :: 'u' :: hex4 n

/-- One character inside a JSON string, in ASCII. -/
def quoteChar (c : Char) : List Char :=
  if c = '\\' then ['\\', '\\']
  else if c = '"' then ['\\', '"']
  else if c = '\n' then ['\\', 'n']
  else if c = '\r' then ['\\', 'r']
  else if c = '\t' then ['\\', 't']
  else if c = '\x0c' then ['\\', 'f']
  else if c = '\x08' then ['\\', 'b']
  else if 0x20 ≤ c.toNat ∧ c.toNat ≤ 0x7e then [c]
  else if c.toNat < 0x10000 then unicodeEscape c.toNat
  else unicodeEscape (0xd800 + (c.toNat - 0x10000) / 1024 % 1024) ++
    unicodeEscape (0xdc00 + (c.toNat - 0x10000) % 1024)

/-- `json.encoder.encode_basestring_ascii`. -/
def quote (s : String) : String :=
  String.ofList ('"' :: (s.toList.flatMap quoteChar ++ ['"']))

/-- A string or `null`. -/
def quoteOption : Option String → String
  | none => "null"
  | some s => quote s

/-! ## Chains -/

section Chains

variable (sha256 : String → String)

/-- The text hashed by `make_extra_hash`. -/
def extraPayload (model : String) (cacheSalt reuseGroup : Option String) : String :=
  "\x7b\"cache_salt\":" ++ quoteOption cacheSalt ++ ",\"model\":" ++ quote model ++
    ",\"reuse_group\":" ++ quoteOption reuseGroup ++ "\x7d"

def makeExtraHash (model : String) (cacheSalt reuseGroup : Option String) : String :=
  sha256 (extraPayload model cacheSalt reuseGroup)

/-- The text hashed by `make_root_parent_hash`. -/
def rootPayload (extraHash : String) : String :=
  "\x7b\"extra_hash\":" ++ quote extraHash ++ ",\"root\":\"tokensim-prefix-cache\"\x7d"

def makeRootParentHash (extraHash : String) : String := sha256 (rootPayload extraHash)

/-- The text hashed by `_chain_hash`. -/
def chainPayload (parentHash signature extraHash : String) : String :=
  "\x7b\"block_signature\":" ++ quote signature ++ ",\"extra_hash\":" ++ quote extraHash ++
    ",\"parent_hash\":" ++ quote parentHash ++ "\x7d"

def chainHash (parentHash signature extraHash : String) : String :=
  sha256 (chainPayload parentHash signature extraHash)

/-- The keys of consecutive blocks after a given parent. -/
def chainKeys (extraHash : String) : String → List String → List PrefixCacheKey
  | _, [] => []
  | parent, signature :: rest =>
    ⟨parent, signature, extraHash⟩ :: chainKeys extraHash (chainHash sha256 parent signature extraHash) rest

/-- The keys of a prompt, built from the root. -/
def buildPrefixKeys (blockHashes : List HashId) (model : String)
    (cacheSalt reuseGroup : Option String) : List PrefixCacheKey :=
  let extraHash := makeExtraHash sha256 model cacheSalt reuseGroup
  chainKeys sha256 extraHash (makeRootParentHash sha256 extraHash) (blockHashes.map HashId.signature)

theorem length_chainKeys (extraHash : String) : ∀ (parent : String) (signatures : List String),
    (chainKeys sha256 extraHash parent signatures).length = signatures.length
  | _, [] => rfl
  | parent, signature :: rest => by
    simp only [chainKeys, List.length_cons]
    rw [length_chainKeys extraHash _ rest]

@[simp] theorem length_buildPrefixKeys (blockHashes : List HashId) (model : String)
    (cacheSalt reuseGroup : Option String) :
    (buildPrefixKeys sha256 blockHashes model cacheSalt reuseGroup).length = blockHashes.length := by
  simp [buildPrefixKeys, length_chainKeys]

end Chains

end TokenSim
