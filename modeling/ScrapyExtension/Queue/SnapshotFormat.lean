import Mathlib
import ScrapyExtension.Json.RoundTrip

/-!
# The snapshot format

Keys, limits and manifests of `queue/snapshot.py`. A snapshot is a manifest under its logical key
and a sequence of chunks under keys that carry the generation of the manifest. This file is the
pure part: how keys are formed, which manifests are accepted, and that a manifest the repository
writes is read back.

## Reading a manifest

`json.loads` is applied to raw bytes, so the encoding is detected first. A value that is not a
manifest is a raw legacy payload, except where it visibly starts like a manifest that was cut
off: `hasCurrentManifestMarker` is the byte scan that decides it.

SHA-256 is a parameter. Its digests are sixty-four hexadecimal digits by type.
-/

namespace ScrapyExtension

open Py Json

namespace Snapshot

/-! ## Constants -/

/-- `DEFAULT_SNAPSHOT_MAX_BYTES` -/
def defaultSnapshotMaxBytes : ℕ := 128 * 1024 * 1024

/-- `MAX_SNAPSHOT_CHUNK_BYTES` -/
def maxSnapshotChunkBytes : ℕ := 256 * 1024

/-- `MAX_SNAPSHOT_CHUNKS` -/
def maxSnapshotChunks : ℕ := 4096

/-- `_MANIFEST_SCHEMA` -/
def manifestSchema : Str := Py.str "scrapy-extension.queue-strategy-snapshot"

/-- `_MANIFEST_VERSION` -/
def manifestVersion : ℤ := 7

/-- `_STATE_NONE` -/
def stateNone : Str := Py.str "none"

/-- `_STATE_BYTES` -/
def stateBytes : Str := Py.str "bytes"

/-- `_MAX_MANIFEST_BYTES` -/
def maxManifestBytes : ℕ := 64 * 1024

/-- `_LEGACY_CHUNK_KEY_PREFIX` -/
def legacyChunkKeyPrefix : Str := Py.str "queue:snapshot-chunk:v1:"

/-- `_CURRENT_CHUNK_KEY_PREFIX` -/
def currentChunkKeyPrefix : Str := Py.str "queue:snapshot-chunk:v2:"

/-- The number of chunks of a payload, rounded up. -/
def chunkCount (length chunkBytes : ℕ) : ℕ := (length + chunkBytes - 1) / chunkBytes

/-- `minimum_chunk_bytes`: the chunk size below which a payload of `maxBytes` needs too many
chunks. -/
def minimumChunkBytes (maxBytes : ℕ) : ℕ := (maxBytes + maxSnapshotChunks - 1) / maxSnapshotChunks

/-- The sizes that `SnapshotRepository.__init__` accepts. -/
structure Limits where
  /-- `max_bytes` -/
  maxBytes : ℕ
  /-- `chunk_bytes` -/
  chunkBytes : ℕ
  one_le : 1 ≤ maxBytes
  minimum_le : minimumChunkBytes maxBytes ≤ chunkBytes
  chunk_le_max : chunkBytes ≤ maxBytes
  chunk_le : chunkBytes ≤ maxSnapshotChunkBytes

/-- The size checks of `__init__`; `none` is "Invalid snapshot repository size limits." -/
def Limits.ofSizes (maxBytes chunkBytes : ℕ) : Option Limits :=
  if h : 1 ≤ maxBytes ∧ minimumChunkBytes maxBytes ≤ chunkBytes ∧ chunkBytes ≤ maxBytes ∧
      chunkBytes ≤ maxSnapshotChunkBytes then
    some ⟨maxBytes, chunkBytes, h.1, h.2.1, h.2.2.1, h.2.2.2⟩
  else none

theorem Limits.chunkBytes_pos (L : Limits) : 0 < L.chunkBytes := by
  have h₁ := L.one_le
  have h₂ := L.minimum_le
  simp only [minimumChunkBytes, maxSnapshotChunks] at h₂
  omega

/-- A payload within the limit has at most `MAX_SNAPSHOT_CHUNKS` chunks. -/
theorem Limits.chunkCount_le (L : Limits) {length : ℕ} (h : length ≤ L.maxBytes) :
    chunkCount length L.chunkBytes ≤ maxSnapshotChunks := by
  have h₂ := L.minimum_le
  have hpos := L.chunkBytes_pos
  simp only [minimumChunkBytes, maxSnapshotChunks] at h₂
  have hmul : length ≤ 4096 * L.chunkBytes := by omega
  rw [chunkCount, maxSnapshotChunks]
  refine Nat.lt_succ_iff.mp ((Nat.div_lt_iff_lt_mul hpos).mpr ?_)
  have hexpand : (4096 + 1) * L.chunkBytes = 4096 * L.chunkBytes + L.chunkBytes := by ring
  omega

/-! ## Keys -/

/-- A hexadecimal text of fixed length. -/
abbrev Hex (n : ℕ) := List.Vector (Fin 16) n

/-- The text of a hexadecimal number, lower case. -/
def Hex.text {n : ℕ} (x : Hex n) : Str := x.toList.map hexDigit

/-- SHA-256, as `hexdigest`. -/
abbrev Sha256 := Bytes → Hex 64

/-- A generation identifier, `uuid.uuid4().hex`. -/
abbrev Generation := Hex 32

/-- The UTF-8 octets of a key. Keys are checked to be ASCII before they get here. -/
def keyOctets (key : Str) : Bytes := key.flatMap utf8CodePoint

/-- `_legacy_chunk_key` -/
def legacyChunkKey (sha : Sha256) (key generation : Str) (index : ℕ) : Str :=
  legacyChunkKeyPrefix ++ (sha (keyOctets (dumps ⟨false, false⟩
    (.arr [.str key, .str generation, .int index])))).text

/-- `_chunk_key` -/
def chunkKey (sha : Sha256) (key generation : Str) (index : ℕ) : Str :=
  currentChunkKeyPrefix ++ ((sha (keyOctets key)).text ++
    (chr ':' :: (generation ++ (chr ':' :: decimal index))))

/-- `_v4_chunk_key` -/
def v4ChunkKey (key generation : Str) (index : ℕ) : Str :=
  key ++ (Py.str ":generation:" ++ (generation ++ (Py.str ":chunk:" ++ decimal index)))

/-- A character that `KEY_NAME_PATTERN` allows. -/
def isKeyChar (c : CodePoint) : Bool :=
  (97 ≤ c.val && c.val ≤ 122) || (65 ≤ c.val && c.val ≤ 90) || isDigit c || c = chr '.' ||
    c = chr '_' || c = chr ':' || c = chr '-'

/-- `validate_key_name` -/
def validKeyName (key : Str) : Bool := key ≠ [] && key.all isKeyChar

/-- `_validate_logical_key`, under the storage's key limit if it has one. The message is that of
the `SnapshotRepositoryError`. -/
def validateLogicalKey (keyLimit : Option ℕ) (key : Str) : Except String Unit :=
  if ¬ validKeyName key then .error "Snapshot logical key is invalid."
  else if legacyChunkKeyPrefix <+: key ∨ currentChunkKeyPrefix <+: key then
    .error "Snapshot logical key uses the reserved chunk namespace."
  else if ∃ limit ∈ keyLimit, limit < (keyOctets key).length then
    .error "Snapshot logical key exceeds the storage backend limit."
  else .ok ()

/-- Texts that differ in their first letters. -/
theorem append_ne_append {a b : Str} (n : ℕ) (ha : n ≤ a.length) (hb : n ≤ b.length)
    (h : a.take n ≠ b.take n) (x y : Str) : a ++ x ≠ b ++ y := by
  intro heq
  have htake := congrArg (List.take n) heq
  rw [List.take_append_of_le_length ha, List.take_append_of_le_length hb] at htake
  exact h htake

theorem Hex.text_injective {n : ℕ} : Function.Injective (Hex.text (n := n)) := by
  have hdigit : Function.Injective hexDigit := by decide
  intro x y hxy
  exact Subtype.ext (List.map_injective_iff.2 hdigit hxy)

@[simp] theorem Hex.length_text {n : ℕ} (x : Hex n) : x.text.length = n := by
  rw [Hex.text, List.length_map, List.Vector.toList_length]

/-- A valid logical key is in neither namespace of the chunks. -/
theorem not_reserved {keyLimit : Option ℕ} {key : Str} (hkey : validateLogicalKey keyLimit key = .ok ()) :
    ¬ legacyChunkKeyPrefix <+: key ∧ ¬ currentChunkKeyPrefix <+: key := by
  rw [validateLogicalKey] at hkey
  split_ifs at hkey with h₁ h₂ h₃
  exact not_or.1 h₂

/-- A chunk key is in the reserved namespace, so it is no valid logical key. -/
theorem chunkKey_ne {keyLimit : Option ℕ} {key : Str} (hkey : validateLogicalKey keyLimit key = .ok ())
    (sha : Sha256) (key' generation : Str) (index : ℕ) :
    chunkKey sha key' generation index ≠ key := by
  intro heq
  have hreserved : currentChunkKeyPrefix <+: key := heq ▸ List.prefix_append _ _
  exact (not_reserved hkey).2 hreserved

theorem legacyChunkKey_ne {keyLimit : Option ℕ} {key : Str}
    (hkey : validateLogicalKey keyLimit key = .ok ()) (sha : Sha256) (key' generation : Str) (index : ℕ) :
    legacyChunkKey sha key' generation index ≠ key := by
  intro heq
  have hreserved : legacyChunkKeyPrefix <+: key := heq ▸ List.prefix_append _ _
  exact (not_reserved hkey).1 hreserved

theorem legacyChunkKey_ne_chunkKey (sha : Sha256) (key generation key' generation' : Str)
    (index index' : ℕ) :
    legacyChunkKey sha key generation index ≠ chunkKey sha key' generation' index' := by
  rw [legacyChunkKey, chunkKey]
  exact append_ne_append 24 (by decide) (by decide) (by decide) _ _

/-- A chunk key of version 4 starts with its logical key, which cannot reach into the namespace of the
chunks: after it comes the letter `g`, and that is no hexadecimal digit. -/
theorem v4ChunkKey_ne_chunkKey {keyLimit : Option ℕ} {key : Str}
    (hkey : validateLogicalKey keyLimit key = .ok ()) (sha : Sha256) (generation key' generation' : Str)
    (index index' : ℕ) : v4ChunkKey key generation index ≠ chunkKey sha key' generation' index' := by
  intro heq
  rw [v4ChunkKey, chunkKey] at heq
  -- the key is a proper start of the namespace
  have hstart : key <+: currentChunkKeyPrefix := by
    have hkeyStart : key <+: key ++ (Py.str ":generation:" ++
        (generation ++ (Py.str ":chunk:" ++ decimal index))) := List.prefix_append _ _
    rw [heq] at hkeyStart
    exact (List.prefix_or_prefix_of_prefix hkeyStart (List.prefix_append _ _)).resolve_right
      (not_reserved hkey).2
  obtain ⟨rest, hrest⟩ := hstart
  have hlength : key.length < 24 := by
    have hlen := congrArg List.length hrest
    rw [List.length_append] at hlen
    have hne : rest ≠ [] := by
      rintro rfl
      rw [List.append_nil] at hrest
      exact (not_reserved hkey).2 (hrest ▸ List.prefix_rfl)
    have hpos := List.length_pos_iff.2 hne
    have h24 : currentChunkKeyPrefix.length = 24 := by decide
    omega
  rw [← hrest, List.append_assoc] at heq
  have htail := List.append_cancel_left heq
  have hdrop : rest = currentChunkKeyPrefix.drop key.length := by
    rw [← hrest, List.drop_left]
  have htwo := congrArg (List.take 2) htail
  rw [List.take_append_of_le_length (by decide)] at htwo
  by_cases hlast : key.length = 23
  · -- the rest is the last colon, and a digit of the digest follows
    have hcolon : rest = [chr ':'] := by
      rw [hdrop, hlast]
      decide
    have hpos : 0 < (sha (keyOctets key')).toList.length := by
      rw [List.Vector.toList_length]
      decide
    obtain ⟨d, ds, hds⟩ := List.exists_cons_of_length_pos hpos
    have hdigit : ∀ d, hexDigit d ≠ chr 'g' := by decide
    rw [hcolon, Hex.text, hds] at htail
    exact hdigit d (List.cons.inj (List.cons.inj htail).2).1.symm
  · have hall : ∀ j < 23, (currentChunkKeyPrefix.drop j).take 2 ≠ (Py.str ":generation:").take 2 := by
      decide
    have hle : 2 ≤ (currentChunkKeyPrefix.drop key.length).length := by
      rw [List.length_drop]
      have h24 : currentChunkKeyPrefix.length = 24 := by decide
      omega
    rw [hdrop, List.take_append_of_le_length hle] at htwo
    exact hall key.length (by omega) htwo.symm

/-- A chunk key has the digest of its logical key, and its generation. -/
theorem chunkKey_inj {sha : Sha256} {key generation key' generation' : Str} {index index' : ℕ}
    (h : chunkKey sha key generation index = chunkKey sha key' generation' index') :
    sha (keyOctets key) = sha (keyOctets key') ∧
      (generation.length = generation'.length → generation = generation') := by
  rw [chunkKey, chunkKey, List.append_cancel_left_eq] at h
  obtain ⟨hsha, hrest⟩ := List.append_inj h (by rw [Hex.length_text, Hex.length_text])
  refine ⟨Hex.text_injective hsha, fun hlen ↦ ?_⟩
  exact (List.append_inj (List.cons.inj hrest).2 hlen).1

/-- Chunks of one snapshot have distinct keys. -/
theorem chunkKey_injective (sha : Sha256) (key generation : Str) :
    Function.Injective (chunkKey sha key generation) := by
  intro i j hij
  simp only [chunkKey, List.append_cancel_left_eq, List.cons.injEq, true_and] at hij
  rw [← readDecimal_decimal i, hij, readDecimal_decimal]

/-! ## Bytes as JSON text -/

/-- The encodings `json.detect_encoding` distinguishes. -/
inductive Encoding where
  /-- UTF-32 with a byte order mark. -/
  | utf32
  /-- UTF-16 with a byte order mark. -/
  | utf16
  /-- UTF-8 with a byte order mark. -/
  | utf8Sig
  | utf16Be
  | utf32Be
  | utf16Le
  | utf32Le
  | utf8
deriving DecidableEq

/-- The last part of `json.detect_encoding`: without a byte order mark, the positions of NUL
octets among the first four tell. -/
def detectByZeros : Bytes → Encoding
  | b₀ :: b₁ :: b₂ :: b₃ :: _ =>
    if b₀ = 0 then if b₁ ≠ 0 then .utf16Be else .utf32Be
    else if b₁ = 0 then if b₂ ≠ 0 ∨ b₃ ≠ 0 then .utf16Le else .utf32Le
    else .utf8
  | [b₀, b₁] => if b₀ = 0 then .utf16Be else if b₁ = 0 then .utf16Le else .utf8
  | _ => .utf8

/-- `json.detect_encoding` -/
def detectEncoding (b : Bytes) : Encoding :=
  if [0, 0, 0xFE, 0xFF] <+: b ∨ [0xFF, 0xFE, 0, 0] <+: b then .utf32
  else if [0xFE, 0xFF] <+: b ∨ [0xFF, 0xFE] <+: b then .utf16
  else if [0xEF, 0xBB, 0xBF] <+: b then .utf8Sig
  else detectByZeros b

/-- Pair up octets into code units, most significant octet first unless `little`. -/
def codeUnits (little : Bool) : Bytes → Option (List ℕ)
  | [] => some []
  | a :: b :: s =>
    ((if little then b.val * 0x100 + a.val else a.val * 0x100 + b.val) :: ·) <$> codeUnits little s
  | _ => none

/-- Join surrogate pairs; lone surrogates pass. -/
def joinSurrogates : List ℕ → Str
  | [] => []
  | [u] => [Fin.ofNat _ u]
  | u :: v :: s =>
    if 0xD800 ≤ u ∧ u < 0xDC00 ∧ 0xDC00 ≤ v ∧ v < 0xE000 then
      Fin.ofNat _ (0x10000 + (u - 0xD800) * 0x400 + (v - 0xDC00)) :: joinSurrogates s
    else Fin.ofNat _ u :: joinSurrogates (v :: s)

/-- Join octets in fours. -/
def decodeUtf32 (little : Bool) : Bytes → Option Str
  | [] => some []
  | a :: b :: c :: d :: s =>
    let n :=
      if little then ((d.val * 0x100 + c.val) * 0x100 + b.val) * 0x100 + a.val
      else ((a.val * 0x100 + b.val) * 0x100 + c.val) * 0x100 + d.val
    if n < 0x110000 then (Fin.ofNat _ n :: ·) <$> decodeUtf32 little s else none
  | _ => none

/-- `b.decode(json.detect_encoding(b), "surrogatepass")` -/
def decodeText (b : Bytes) : Option Str :=
  match detectEncoding b with
  | .utf8 => decodeUtf8 true b
  | .utf8Sig => decodeUtf8 true (b.drop 3)
  | .utf16 => (codeUnits ([0xFF, 0xFE] <+: b) (b.drop 2)).map joinSurrogates
  | .utf16Be => (codeUnits false b).map joinSurrogates
  | .utf16Le => (codeUnits true b).map joinSurrogates
  | .utf32 => decodeUtf32 ([0xFF, 0xFE] <+: b) (b.drop 4)
  | .utf32Be => decodeUtf32 false b
  | .utf32Le => decodeUtf32 true b

/-- ASCII text that starts with two characters other than NUL is detected as UTF-8. -/
theorem decodeText_ascii {c d : CodePoint} {s : Str} (hs : Str.IsAscii (c :: d :: s))
    (hc : c.val ≠ 0) (hd : d.val ≠ 0) : decodeText (Str.ascii (c :: d :: s)) = some (c :: d :: s) := by
  have hc' : c.val < 0x80 := hs c List.mem_cons_self
  have hd' : d.val < 0x80 := hs d (List.mem_cons_of_mem c List.mem_cons_self)
  have hcb : (CodePoint.toByte c).val = c.val := by
    simp only [CodePoint.toByte, Fin.val_ofNat]
    omega
  have hdb : (CodePoint.toByte d).val = d.val := by
    simp only [CodePoint.toByte, Fin.val_ofNat]
    omega
  have hhead : ∀ (b : Byte) (t : Bytes), b.val ≠ c.val →
      ¬ (b :: t) <+: Str.ascii (c :: d :: s) := by
    intro b t hb hp
    have heq : b = CodePoint.toByte c := (List.cons_prefix_cons.mp hp).1
    exact hb (heq ▸ hcb)
  have hutf8 : detectEncoding (Str.ascii (c :: d :: s)) = .utf8 := by
    have hz : ∀ t, ¬ ((0 : Byte) :: t) <+: Str.ascii (c :: d :: s) := fun t ↦
      hhead 0 t (by simpa using hc.symm)
    have hff : ∀ t, ¬ ((0xFF : Byte) :: t) <+: Str.ascii (c :: d :: s) := fun t ↦
      hhead 0xFF t (by simp; omega)
    have hfe : ∀ t, ¬ ((0xFE : Byte) :: t) <+: Str.ascii (c :: d :: s) := fun t ↦
      hhead 0xFE t (by simp; omega)
    have hef : ∀ t, ¬ ((0xEF : Byte) :: t) <+: Str.ascii (c :: d :: s) := fun t ↦
      hhead 0xEF t (by simp; omega)
    have hc0 : CodePoint.toByte c ≠ 0 := fun h ↦ hc (by rw [← hcb, h]; rfl)
    have hd0 : CodePoint.toByte d ≠ 0 := fun h ↦ hd (by rw [← hdb, h]; rfl)
    rw [detectEncoding, if_neg (not_or.mpr ⟨hz _, hff _⟩), if_neg (not_or.mpr ⟨hfe _, hff _⟩),
      if_neg (hef _)]
    rcases s with _ | ⟨e, _ | ⟨f, s⟩⟩
    · simp [Str.ascii, detectByZeros, hc0, hd0]
    · simp [Str.ascii, detectByZeros]
    · simp [Str.ascii, detectByZeros, hc0, hd0]
  rw [decodeText, hutf8]
  exact decodeUtf8_ascii hs true

/-! ## Cut-off manifests -/

/-- The octets of an ASCII literal. -/
def ascii (s : String) : Bytes := Str.ascii (Py.str s)

/-- The octets that `bytes.lstrip` removes. -/
def isAsciiSpace (b : Byte) : Bool := b.val = 0x20 || (0x09 ≤ b.val && b.val ≤ 0x0D)

/-- The octets of `b" \t\r\n"`. -/
def isJsonSpace (b : Byte) : Bool :=
  b.val = 0x20 || b.val = 0x09 || b.val = 0x0D || b.val = 0x0A

/-- The inner loop over a string: the token up to the closing quote, and what follows it. -/
def scanToken (escaped : Bool) : Bytes → Bytes × Bytes
  | [] => ([], [])
  | b :: s =>
    if escaped then (b :: (scanToken false s).1, (scanToken false s).2)
    else if b = CodePoint.toByte (chr '\\') then
      (b :: (scanToken true s).1, (scanToken true s).2)
    else if b = CodePoint.toByte (chr '"') then ([], s)
    else (b :: (scanToken false s).1, (scanToken false s).2)

/-- The value of a top-level `schema` key is the manifest schema, or was cut off. -/
def schemaValueMatches : Bytes → Bool
  | [] => true
  | b :: s =>
    if b = CodePoint.toByte (chr '"') then
      s.takeWhile (· ≠ CodePoint.toByte (chr '"')) <+: Str.ascii manifestSchema
    else Str.ascii manifestSchema <+: b :: s

/-- The main loop of `_has_current_manifest_marker`. Each round consumes an octet, so the length
of the value is fuel enough. -/
def scanMarker : ℕ → ℕ → Bytes → Bool
  | 0, _, _ => false
  | _, 0, _ => false
  | _, _, [] => false
  | fuel + 1, depth + 1, b :: s =>
    if b = CodePoint.toByte (chr '"') then
      let (token, rest) := scanToken false s
      if depth = 0 ∧ token = ascii "schema" then
        match rest.dropWhile isJsonSpace with
        | c :: t =>
          if c = CodePoint.toByte (chr ':') then
            schemaValueMatches (t.dropWhile isJsonSpace) ||
              scanMarker fuel (depth + 1) (t.dropWhile isJsonSpace)
          else scanMarker fuel (depth + 1) (c :: t)
        | [] => false
      else scanMarker fuel (depth + 1) rest
    else if b = CodePoint.toByte (chr '\x7b') then scanMarker fuel (depth + 2) s
    else if b = CodePoint.toByte (chr '\x7d') then scanMarker fuel depth s
    else scanMarker fuel (depth + 1) s

/-- `_has_current_manifest_marker` -/
def hasCurrentManifestMarker (value : Bytes) : Bool :=
  match value.dropWhile isAsciiSpace with
  | b :: s =>
    if b = CodePoint.toByte (chr '\x7b') then
      let firstKey := s.dropWhile isAsciiSpace
      let chunkBytes := ascii "\"chunk_bytes\""
      firstKey <+: chunkBytes || chunkBytes <+: firstKey || scanMarker (s.length + 1) 1 s
    else false
  | [] => false

/-! ## Manifests -/

/-- What a plain `json.loads` returns, floats without their value. -/
inductive Plain where
  /-- `None` -/
  | none
  /-- `bool` -/
  | bool (b : Bool)
  /-- `int` -/
  | int (i : ℤ)
  /-- `float` -/
  | float
  /-- `str` -/
  | str (s : Str)
  /-- `list` -/
  | list (xs : List Plain)
  /-- `dict`, without repeated keys -/
  | dict (ms : List (Str × Plain))

/-- A dict display: a later pair replaces an earlier one of the same key. -/
def dictOfPairs (pairs : List (Str × Plain)) : List (Str × Plain) :=
  pairs.foldl (fun ms m ↦ ms.filter (fun n ↦ n.1 ≠ m.1) ++ [m]) []

/-- `sys.int_info.default_max_str_digits`: longer integers raise `ValueError`. -/
def maxIntDigits : ℕ := 4300

/-- The hooks of a plain `json.loads`. -/
def plainHooks : Hooks Plain where
  null := .none
  bool := .bool
  int := fun i ↦ if i.natAbs < 10 ^ maxIntDigits then some (.int i) else none
  float := fun _ ↦ some .float
  constant := fun _ ↦ some .float
  str := .str
  arr := .list
  obj := fun ms ↦ some (.dict (dictOfPairs ms))

/-- `_Manifest` -/
structure Manifest where
  /-- `version` -/
  version : ℤ
  /-- `generation` -/
  generation : Str
  /-- `length` -/
  length : ℕ
  /-- `chunk_bytes` -/
  chunkBytes : ℕ
  /-- `chunks` -/
  chunks : ℕ
  /-- `checksum` -/
  checksum : Str
  /-- `state_present` -/
  statePresent : Bool
deriving DecidableEq

/-- The keys of a version 4 or 5 manifest. -/
def legacyRequired : List Str :=
  [Py.str "schema", Py.str "version", Py.str "generation", Py.str "length", Py.str "chunk_bytes",
    Py.str "chunks", Py.str "sha256"]

/-- `set(decoded) != required` is false. -/
def sameKeys (ms : List (Str × Plain)) (required : List Str) : Bool :=
  ms.all (fun m ↦ required.contains m.1) && required.all fun k ↦ (ms.lookup k).isSome

/-- `[0-9a-f]{n}` in full. -/
def isHexText (n : ℕ) (s : Str) : Bool :=
  s.length = n && s.all fun c ↦ isDigit c || (97 ≤ c.val && c.val ≤ 102)

/-- `version in {6, _MANIFEST_VERSION}` -/
def hasStateKind (version : ℤ) : Bool := version = 6 || version = manifestVersion

/-- The result of `_decode_manifest`: a manifest, a value that is none, or a failure message. -/
inductive Decoded where
  /-- A manifest. -/
  | manifest (m : Manifest)
  /-- Not a manifest: a raw legacy payload. -/
  | raw
  /-- A manifest that cannot be used. -/
  | failure (message : String)
deriving DecidableEq

/-- The message for every manifest that is not well formed. -/
def schemaInvalid : Decoded := .failure "Snapshot manifest schema is invalid."

/-- The field checks of `_decode_manifest`, on an object whose `schema` matches. -/
def decodeFields (ms : List (Str × Plain)) : Decoded :=
  match ms.lookup (Py.str "version"), ms.lookup (Py.str "generation"),
    ms.lookup (Py.str "length"), ms.lookup (Py.str "chunk_bytes"), ms.lookup (Py.str "chunks"),
    ms.lookup (Py.str "sha256") with
  | some (.int version), some (.str generation), some (.int length), some (.int chunkBytes),
    some (.int chunks), some (.str checksum) =>
    let required := if hasStateKind version then legacyRequired ++ [Py.str "state"]
      else legacyRequired
    let stateKind := match ms.lookup (Py.str "state") with
      | some (.str kind) => kind
      | _ => []
    if ¬(version = 4 ∨ version = 5 ∨ version = 6 ∨ version = manifestVersion) then schemaInvalid
    else if ¬ sameKeys ms required then schemaInvalid
    else if ¬ isHexText 32 generation ∨ length < 0 ∨ chunkBytes < 1 ∨ chunks < 0 ∨
        ¬ isHexText 64 checksum ∨ chunks.toNat ≠ chunkCount length.toNat chunkBytes.toNat then
      schemaInvalid
    else if hasStateKind version ∧ ¬(stateKind = stateNone ∨ stateKind = stateBytes) then
      schemaInvalid
    else if hasStateKind version ∧ stateKind = stateNone ∧ length ≠ 0 then schemaInvalid
    else
      .manifest ⟨version, generation, length.toNat, chunkBytes.toNat, chunks.toNat, checksum,
        if hasStateKind version then stateKind = stateBytes else 0 < length⟩
  | _, _, _, _, _, _ => schemaInvalid

/-- `_decode_manifest`, under the interpreter's recursion limit. -/
def decodeManifest (recursionLimit : ℕ) (value : Bytes) : Decoded :=
  let undecodable := if hasCurrentManifestMarker value then schemaInvalid else .raw
  if maxManifestBytes < value.length then .raw
  else
    match decodeText value with
    | none => undecodable
    | some text =>
      match loads plainHooks recursionLimit text with
      | .error .syntaxError => undecodable
      | .error _ => .failure "Snapshot manifest parsing failed."
      | .ok (.dict ms) =>
        match ms.lookup (Py.str "schema") with
        | some (.str schema) => if schema = manifestSchema then decodeFields ms else .raw
        | _ => .raw
      | .ok _ => .raw

private theorem decodeFields_failure {ms : List (Str × Plain)} {e : String}
    (h : decodeFields ms = .failure e) : e = "Snapshot manifest schema is invalid." := by
  have hschema : ∀ {e}, schemaInvalid = .failure e → e = "Snapshot manifest schema is invalid." :=
    fun h ↦ (Decoded.failure.inj h).symm
  rw [decodeFields] at h
  split at h
  · dsimp only at h
    split_ifs at h <;> exact hschema h
  · exact hschema h

/-- The two messages of `_decode_manifest`. -/
theorem decodeManifest_failure {n : ℕ} {value : Bytes} {e : String}
    (h : decodeManifest n value = .failure e) :
    e = "Snapshot manifest schema is invalid." ∨ e = "Snapshot manifest parsing failed." := by
  have hundecodable : (if hasCurrentManifestMarker value then schemaInvalid else .raw) = .failure e →
      e = "Snapshot manifest schema is invalid." := by
    intro h
    split_ifs at h
    exact (Decoded.failure.inj h).symm
  rw [decodeManifest] at h
  by_cases hlen : maxManifestBytes < value.length
  · rw [if_pos hlen] at h
    cases h
  rw [if_neg hlen] at h
  split at h
  · exact .inl (hundecodable h)
  · split at h
    · exact .inl (hundecodable h)
    · exact .inr (Decoded.failure.inj h).symm
    · split at h
      · split_ifs at h
        exact .inl (decodeFields_failure h)
      · cases h
    · cases h

private theorem decodeFields_generation {ms : List (Str × Plain)} {m : Manifest}
    (h : decodeFields ms = .manifest m) : isHexText 32 m.generation = true := by
  have hguard : ∀ {c : Prop} [Decidable c] {d : Decoded},
      (if c then schemaInvalid else d) = .manifest m → ¬ c ∧ d = .manifest m := by
    intro c _ d hd
    split_ifs at hd with hc
    · cases hd
    · exact ⟨hc, hd⟩
  rw [decodeFields] at h
  split at h
  · obtain ⟨-, h⟩ := hguard h
    obtain ⟨-, h⟩ := hguard h
    obtain ⟨hfields, h⟩ := hguard h
    obtain ⟨-, h⟩ := hguard h
    obtain ⟨-, h⟩ := hguard h
    obtain rfl := Decoded.manifest.inj h
    push Not at hfields
    exact hfields.1
  · cases h

/-- The generation of an accepted manifest is thirty-two hexadecimal digits. -/
theorem decodeManifest_generation {n : ℕ} {value : Bytes} {m : Manifest}
    (h : decodeManifest n value = .manifest m) : isHexText 32 m.generation = true := by
  have hundecodable : (if hasCurrentManifestMarker value then schemaInvalid else .raw) ≠ .manifest m := by
    split_ifs
    · exact nofun
    · exact nofun
  rw [decodeManifest] at h
  by_cases hlen : maxManifestBytes < value.length
  · rw [if_pos hlen] at h
    cases h
  rw [if_neg hlen] at h
  split at h
  · exact absurd h hundecodable
  · split at h
    · exact absurd h hundecodable
    · cases h
    · split at h
      · split_ifs at h
        exact decodeFields_generation h
      · cases h
    · cases h

/-- The JSON object of a manifest. -/
def manifestValue (m : Manifest) : Value :=
  .obj [(Py.str "schema", .str manifestSchema), (Py.str "version", .int manifestVersion),
    (Py.str "generation", .str m.generation), (Py.str "length", .int m.length),
    (Py.str "chunk_bytes", .int m.chunkBytes), (Py.str "chunks", .int m.chunks),
    (Py.str "sha256", .str m.checksum),
    (Py.str "state", .str (if m.statePresent then stateBytes else stateNone))]

/-- `_encode_manifest`. The text is ASCII, so `encode("utf-8")` is octet for character. -/
def encodeManifest (m : Manifest) : Bytes := Str.ascii (dumps .compact (manifestValue m))

/-! ## Reading back a manifest -/

/-- The manifests that `commit` writes. -/
structure Manifest.Committable (m : Manifest) : Prop where
  version : m.version = manifestVersion
  generation : isHexText 32 m.generation = true
  checksum : isHexText 64 m.checksum = true
  length_le : m.length ≤ maxSnapshotChunks * maxSnapshotChunkBytes
  chunkBytes_pos : 0 < m.chunkBytes
  chunkBytes_le : m.chunkBytes ≤ maxSnapshotChunkBytes
  chunks : m.chunks = chunkCount m.length m.chunkBytes
  chunks_le : m.chunks ≤ maxSnapshotChunks
  none_empty : m.statePresent = false → m.length = 0

/-- The members of a manifest as they arrive from `json.loads`. -/
def manifestMembers (m : Manifest) : List (Str × Plain) :=
  [(Py.str "schema", .str manifestSchema), (Py.str "version", .int manifestVersion),
    (Py.str "generation", .str m.generation), (Py.str "length", .int m.length),
    (Py.str "chunk_bytes", .int m.chunkBytes), (Py.str "chunks", .int m.chunks),
    (Py.str "sha256", .str m.checksum),
    (Py.str "state", .str (if m.statePresent then stateBytes else stateNone))]

private theorem dictOfPairs_eq {pairs : List (Str × Plain)} (hnodup : (pairs.map Prod.fst).Nodup) :
    dictOfPairs pairs = pairs := by
  have hloop : ∀ acc rest : List (Str × Plain), ((acc ++ rest).map Prod.fst).Nodup →
      rest.foldl (fun ms m ↦ ms.filter (fun n ↦ n.1 ≠ m.1) ++ [m]) acc = acc ++ rest := by
    intro acc rest
    induction rest generalizing acc with
    | nil =>
      intro _
      simp
    | cons m rest ih =>
      intro hacc
      have hkeep : acc.filter (fun n ↦ n.1 ≠ m.1) = acc := by
        refine List.filter_eq_self.mpr fun n hn ↦ ?_
        rw [List.map_append, List.map_cons] at hacc
        have hne : n.1 ≠ m.1 := fun heq ↦ List.disjoint_of_nodup_append hacc
          (List.mem_map_of_mem hn) (heq ▸ List.mem_cons_self)
        simpa using hne
      rw [List.foldl_cons, hkeep, ih (acc ++ [m]) (by simpa using hacc), List.append_assoc]
      rfl
  exact hloop [] pairs hnodup

private theorem int_of_le {n : ℕ} (hn : n ≤ maxSnapshotChunks * maxSnapshotChunkBytes) :
    plainHooks.int n = some (.int n) := by
  have hbound : maxSnapshotChunks * maxSnapshotChunkBytes < 10 ^ 10 := by decide
  have hpow : 10 ^ 10 ≤ 10 ^ maxIntDigits := Nat.pow_le_pow_right (by decide) (by decide)
  have hlt : (n : ℤ).natAbs < 10 ^ maxIntDigits := by
    rw [Int.natAbs_natCast]
    exact hn.trans_lt (hbound.trans_le hpow)
  simp only [plainHooks]
  rw [if_pos hlt]

private theorem fold_manifestValue {m : Manifest} (hm : m.Committable) :
    (manifestValue m).fold plainHooks = some (.dict (manifestMembers m)) := by
  have hlength := int_of_le hm.length_le
  have hchunkBytes := int_of_le (hm.chunkBytes_le.trans (by decide))
  have hchunks := int_of_le (hm.chunks_le.trans (by decide))
  have hversion : plainHooks.int manifestVersion = some (.int manifestVersion) :=
    int_of_le (n := 7) (by decide)
  have hmembers : foldMembers plainHooks
      [(Py.str "schema", .str manifestSchema), (Py.str "version", .int manifestVersion),
        (Py.str "generation", .str m.generation), (Py.str "length", .int m.length),
        (Py.str "chunk_bytes", .int m.chunkBytes), (Py.str "chunks", .int m.chunks),
        (Py.str "sha256", .str m.checksum),
        (Py.str "state", .str (if m.statePresent then stateBytes else stateNone))] =
      some (manifestMembers m) := by
    simp only [foldMembers, Value.fold, hversion, hlength, hchunkBytes, hchunks]
    rfl
  rw [manifestValue, Value.fold, hmembers, Option.bind_some]
  show some (Plain.dict (dictOfPairs (manifestMembers m))) = _
  rw [dictOfPairs_eq]
  exact (by decide : (legacyRequired ++ [Py.str "state"]).Nodup)

private theorem lookup_manifestMembers (m : Manifest) :
    (manifestMembers m).lookup (Py.str "schema") = some (.str manifestSchema) ∧
    (manifestMembers m).lookup (Py.str "version") = some (.int manifestVersion) ∧
    (manifestMembers m).lookup (Py.str "generation") = some (.str m.generation) ∧
    (manifestMembers m).lookup (Py.str "length") = some (.int m.length) ∧
    (manifestMembers m).lookup (Py.str "chunk_bytes") = some (.int m.chunkBytes) ∧
    (manifestMembers m).lookup (Py.str "chunks") = some (.int m.chunks) ∧
    (manifestMembers m).lookup (Py.str "sha256") = some (.str m.checksum) ∧
    (manifestMembers m).lookup (Py.str "state") =
      some (.str (if m.statePresent then stateBytes else stateNone)) :=
  ⟨rfl, rfl, rfl, rfl, rfl, rfl, rfl, rfl⟩

private theorem sameKeys_manifestMembers (m : Manifest) :
    sameKeys (manifestMembers m) (legacyRequired ++ [Py.str "state"]) = true := rfl

private theorem decodeFields_manifestMembers {m : Manifest} (hm : m.Committable) :
    decodeFields (manifestMembers m) = .manifest m := by
  obtain ⟨-, h₂, h₃, h₄, h₅, h₆, h₇, h₈⟩ := lookup_manifestMembers m
  have hkind : hasStateKind manifestVersion = true := by decide
  have hstate : (if m.statePresent = true then stateBytes else stateNone) = stateNone ∨
      (if m.statePresent = true then stateBytes else stateNone) = stateBytes := by
    cases m.statePresent
    · exact .inl rfl
    · exact .inr rfl
  have hempty : ¬((if m.statePresent = true then stateBytes else stateNone) = stateNone ∧
      (m.length : ℤ) ≠ 0) := by
    rintro ⟨hnone, hlen⟩
    cases hp : m.statePresent with
    | false => exact hlen (by rw [hm.none_empty hp]; rfl)
    | true =>
      rw [hp, if_pos rfl] at hnone
      exact absurd hnone (by decide)
  have hfields : ¬(¬ isHexText 32 m.generation = true ∨ (m.length : ℤ) < 0 ∨
      (m.chunkBytes : ℤ) < 1 ∨ (m.chunks : ℤ) < 0 ∨ ¬ isHexText 64 m.checksum = true ∨
      (m.chunks : ℤ).toNat ≠ chunkCount (m.length : ℤ).toNat (m.chunkBytes : ℤ).toNat) := by
    have hpos := hm.chunkBytes_pos
    simp only [hm.generation, hm.checksum, Int.toNat_natCast, hm.chunks]
    simp
    omega
  rw [decodeFields]
  simp only [h₂, h₃, h₄, h₅, h₆, h₇, h₈, hkind, if_true, true_and]
  rw [if_neg (by decide), if_neg (by rw [sameKeys_manifestMembers]; decide), if_neg hfields,
    if_neg (not_not.mpr hstate), if_neg hempty]
  obtain ⟨version, generation, length, chunkBytes, chunks, checksum, statePresent⟩ := m
  obtain rfl : version = manifestVersion := hm.version
  simp only [Int.toNat_natCast, Decoded.manifest.injEq, Manifest.mk.injEq, true_and]
  cases statePresent <;> rfl

private theorem length_escape_le (ensureAscii : Bool) (c : CodePoint) :
    (Json.escape ensureAscii c).length ≤ 12 := by
  rw [Json.escape]
  split_ifs <;> simp [unicodeEscape]

private theorem length_stringBody_le (ensureAscii : Bool) (s : Str) :
    (stringBody ensureAscii s).length ≤ 12 * s.length + 1 := by
  rw [stringBody, List.length_append, List.length_singleton, Nat.add_le_add_iff_right]
  induction s with
  | nil => exact Nat.zero_le _
  | cons c s ih =>
    have hc := length_escape_le ensureAscii c
    rw [List.flatMap_cons, List.length_append, List.length_cons]
    omega

private theorem length_intText_le {n : ℕ} (hn : n ≤ maxSnapshotChunks * maxSnapshotChunkBytes) :
    (intText n).length ≤ 10 := by
  have hbound : maxSnapshotChunks * maxSnapshotChunkBytes < 10 ^ 10 := by decide
  rw [intText, if_neg (by omega), Int.natAbs_natCast, decimal]
  split_ifs
  · exact Nat.le_of_ble_eq_true rfl
  · rw [List.length_map, List.length_reverse, Nat.digits_length_le_iff (by decide)]
    exact hn.trans_lt hbound

theorem length_of_isHexText {n : ℕ} {s : Str} (hs : isHexText n s = true) :
    s.length = n := by
  simp only [isHexText, Bool.and_eq_true, decide_eq_true_eq] at hs
  exact hs.1

/-- A written manifest is far below the size at which a value is no longer taken for one. -/
theorem length_encodeManifest_le {m : Manifest} (hm : m.Committable) :
    (encodeManifest m).length ≤ maxManifestBytes := by
  have hkey : ∀ k ∈ legacyRequired ++ [Py.str "state"], k.length ≤ 11 := by decide
  have hschema := length_stringBody_le true manifestSchema
  have hgeneration := length_stringBody_le true m.generation
  have hchecksum := length_stringBody_le true m.checksum
  have hstate := length_stringBody_le true (if m.statePresent then stateBytes else stateNone)
  have hkind : (if m.statePresent = true then stateBytes else stateNone).length ≤ 5 := by
    cases m.statePresent <;> decide
  have hschemaLength : manifestSchema.length = 40 := by decide
  have hversion : (intText manifestVersion).length = 1 := by decide
  have hlength := length_intText_le hm.length_le
  have hchunkBytes := length_intText_le (hm.chunkBytes_le.trans (by decide))
  have hchunks := length_intText_le (hm.chunks_le.trans (by decide))
  rw [length_of_isHexText hm.generation] at hgeneration
  rw [length_of_isHexText hm.checksum] at hchecksum
  have hnames : ∀ k ∈ legacyRequired ++ [Py.str "state"],
      (stringBody true k).length ≤ 12 * 11 + 1 := fun k hk ↦
    (length_stringBody_le true k).trans (by have := hkey k hk; omega)
  simp only [legacyRequired, List.cons_append, List.nil_append, List.forall_mem_cons] at hnames
  obtain ⟨k₁, k₂, k₃, k₄, k₅, k₆, k₇, k₈, -⟩ := hnames
  rw [encodeManifest, Str.ascii, List.length_map, manifestValue]
  simp only [dumps, dumpMembers, Layout.blank, Layout.compact, List.length_cons,
    List.length_append, List.nil_append, Bool.false_eq_true, if_false, List.length_nil,
    maxManifestBytes]
  omega

private theorem isScalar_of_isHexText {n : ℕ} {s : Str} (hs : isHexText n s = true) :
    s.IsScalar := by
  intro c hc
  simp only [isHexText, Bool.and_eq_true, decide_eq_true_eq, List.all_eq_true] at hs
  have hchar := hs.2 c hc
  simp only [isDigit, Bool.or_eq_true, Bool.and_eq_true, decide_eq_true_eq] at hchar
  left
  omega

private theorem manifestValue_isScalar {m : Manifest} (hm : m.Committable) :
    (manifestValue m).IsScalar := by
  have hstate : (if m.statePresent = true then stateBytes else stateNone).IsScalar := by
    cases m.statePresent <;> decide
  exact ⟨by decide, (by decide : manifestSchema.IsScalar), by decide, trivial, by decide,
    isScalar_of_isHexText hm.generation, by decide, trivial, by decide, trivial, by decide, trivial,
    by decide, isScalar_of_isHexText hm.checksum, by decide, hstate, trivial⟩

/-- **Manifest round trip.** A manifest that `commit` writes is read back as itself. -/
theorem decodeManifest_encodeManifest {recursionLimit : ℕ} (hlimit : 1 ≤ recursionLimit)
    {m : Manifest} (hm : m.Committable) :
    decodeManifest recursionLimit (encodeManifest m) = .manifest m := by
  have hascii := dumps_isAscii (l := .compact) rfl (manifestValue m)
  have htext : decodeText (encodeManifest m) = some (dumps .compact (manifestValue m)) := by
    rw [encodeManifest]
    rw [manifestValue, dumps] at hascii ⊢
    exact decodeText_ascii hascii (by decide) (by decide)
  have hdepth : (manifestValue m).depth ≤ recursionLimit := by
    simpa [manifestValue, Value.depth, membersDepth] using hlimit
  have hload := loads_dumps plainHooks .compact (manifestValue_isScalar hm) hdepth
  rw [fold_manifestValue hm] at hload
  rw [decodeManifest, if_neg (not_lt.mpr (length_encodeManifest_le hm)), htext]
  simp only [hload, Option.elim]
  rw [(lookup_manifestMembers m).1]
  simp only [if_true, decodeFields_manifestMembers hm]

end Snapshot

end ScrapyExtension
