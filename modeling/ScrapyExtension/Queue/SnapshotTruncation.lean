import ScrapyExtension.Json.Truncation
import ScrapyExtension.Queue.SnapshotRepository

/-!
# Manifests that were cut off

What the repository makes of a stored value that is the beginning of a manifest. Such a value is
never JSON (`Json.loads_cut`), so all depends on the byte scan for the marker of a current
manifest. The scan recognises an unfinished first key only if that key is `chunk_bytes`, with
which the manifests of older writers begin; the manifests written now begin with `schema`. From
the colon after it on, the unfinished schema is recognised.

In between are seven cuts, from the first letter of the key to its closing quote, that pass as raw
payloads of an older format.
-/

namespace ScrapyExtension

open Py Json

namespace Snapshot

/-! ## The text of a manifest -/

/-- The members of a manifest after its schema. -/
def manifestTail (m : Manifest) : List (Str × Value) :=
  [(Py.str "version", .int manifestVersion), (Py.str "generation", .str m.generation),
    (Py.str "length", .int m.length), (Py.str "chunk_bytes", .int m.chunkBytes),
    (Py.str "chunks", .int m.chunks), (Py.str "sha256", .str m.checksum),
    (Py.str "state", .str (if m.statePresent then stateBytes else stateNone))]

theorem verbatim_of_isHexText {n : ℕ} {s : Str} (hs : isHexText n s = true) : IsVerbatim s := by
  intro c hc
  simp only [isHexText, Bool.and_eq_true, decide_eq_true_eq, List.all_eq_true] at hs
  have hchar := hs.2 c hc
  simp only [isDigit, Bool.or_eq_true, Bool.and_eq_true, decide_eq_true_eq] at hchar
  have hquote : (chr '"').val = 34 := rfl
  have hslash : (chr '\\').val = 92 := rfl
  refine ⟨by omega, by omega, fun heq ↦ ?_, fun heq ↦ ?_⟩
  · rw [heq, hquote] at hchar
    omega
  · rw [heq, hslash] at hchar
    omega

/-- Up to the bound of a manifest's sizes, integers are read. -/
theorem flat_size {n : ℕ} (hn : n ≤ maxSnapshotChunks * maxSnapshotChunkBytes) :
    Flat plainHooks (.int n) := by
  refine .int fun m hm ↦ ?_
  have hbound : maxSnapshotChunks * maxSnapshotChunkBytes < 10 ^ 10 := by decide
  have hpow : 10 ^ 10 ≤ 10 ^ maxIntDigits := Nat.pow_le_pow_right (by decide) (by decide)
  have hlt : (m : ℤ).natAbs < 10 ^ maxIntDigits := by
    rw [Int.natAbs_natCast]
    exact (hm.trans hn).trans_lt (hbound.trans_le hpow)
  simp only [plainHooks]
  rw [if_pos hlt]
  rfl

theorem flat_manifest {m : Manifest} (hm : m.Committable) :
    ∀ member ∈ (Py.str "schema", Value.str manifestSchema) :: manifestTail m,
      IsVerbatim member.1 ∧ Flat plainHooks member.2 := by
  have hnames : ∀ k ∈ legacyRequired ++ [Py.str "state"], IsVerbatim k := by decide
  have hschema : IsVerbatim manifestSchema := by decide
  have hstate : IsVerbatim (if m.statePresent then stateBytes else stateNone) := by
    cases m.statePresent
    · exact (by decide : IsVerbatim stateNone)
    · exact (by decide : IsVerbatim stateBytes)
  simp only [legacyRequired, List.cons_append, List.nil_append, List.forall_mem_cons] at hnames
  obtain ⟨h₁, h₂, h₃, h₄, h₅, h₆, h₇, h₈, -⟩ := hnames
  simp only [manifestTail, List.forall_mem_cons]
  exact ⟨⟨h₁, .str hschema⟩, ⟨h₂, flat_size (n := 7) (by decide)⟩,
    ⟨h₃, .str (verbatim_of_isHexText hm.generation)⟩, ⟨h₄, flat_size hm.length_le⟩,
    ⟨h₅, flat_size (hm.chunkBytes_le.trans (by decide))⟩,
    ⟨h₆, flat_size (hm.chunks_le.trans (by decide))⟩,
    ⟨h₇, .str (verbatim_of_isHexText hm.checksum)⟩, ⟨h₈, .str hstate⟩,
    fun _ h ↦ absurd h List.not_mem_nil⟩

/-- What is left of a manifest is not JSON. -/
theorem loads_cut_manifest {recursionLimit : ℕ} (hlimit : 1 ≤ recursionLimit) {m : Manifest}
    (hm : m.Committable) {p : Str} (hp : Cut p (dumps .compact (manifestValue m))) :
    loads plainHooks recursionLimit p = .error .syntaxError :=
  loads_cut plainHooks .compact (flat_manifest hm) hlimit hp

/-- How a manifest begins. -/
def manifestStart : Str := Py.str "\x7b\"schema\":"

/-- A manifest begins with its schema. -/
theorem dumps_manifestValue (m : Manifest) :
    dumps .compact (manifestValue m) = manifestStart ++ (chr '"' :: (manifestSchema ++
      (chr '"' :: dumpMembers .compact (manifestTail m)))) := by
  have hname : stringBody true (Py.str "schema") = Py.str "schema" ++ [chr '"'] :=
    stringBody_verbatim true (by decide)
  have hschema : stringBody true manifestSchema = manifestSchema ++ [chr '"'] :=
    stringBody_verbatim true (by decide)
  have hstart : manifestStart =
      chr '\x7b' :: chr '"' :: (Py.str "schema" ++ [chr '"', chr ':']) := by decide
  rw [manifestValue, dumps, hstart]
  show chr '\x7b' :: chr '"' :: (stringBody true (Py.str "schema") ++ (chr ':' ::
    (dumps .compact (.str manifestSchema) ++ dumpMembers .compact (manifestTail m)))) = _
  rw [dumps]
  show chr '\x7b' :: chr '"' :: (stringBody true (Py.str "schema") ++ (chr ':' ::
    (chr '"' :: stringBody true manifestSchema ++ dumpMembers .compact (manifestTail m)))) = _
  rw [hname, hschema]
  simp only [List.cons_append, List.append_assoc, List.nil_append]

/-! ## The marker -/

theorem takeWhile_prefix_takeWhile {α : Type} (q : α → Bool) {s t : List α} (h : s <+: t) :
    s.takeWhile q <+: t.takeWhile q := by
  induction s generalizing t with
  | nil => exact List.nil_prefix
  | cons a s ih =>
    obtain ⟨t, rfl, hst⟩ := List.cons_prefix_iff.1 h
    rw [List.takeWhile_cons, List.takeWhile_cons]
    split_ifs
    · exact (List.prefix_cons_inj a).2 (ih hst)
    · exact List.nil_prefix

/-- Behind the colon of the first key, whatever is left of the schema is recognised. -/
theorem schemaValueMatches_cut {u : Bytes} {rest : Str}
    (hu : u <+: Str.ascii (chr '"' :: (manifestSchema ++ (chr '"' :: rest)))) :
    schemaValueMatches u = true := by
  rcases u with _ | ⟨b, v⟩
  · rfl
  rw [Str.ascii, List.map_cons] at hu
  obtain ⟨rfl, hv⟩ := List.cons_prefix_cons.1 hu
  have hplain : ∀ b ∈ Str.ascii manifestSchema, decide (b ≠ CodePoint.toByte (chr '"')) = true :=
    List.all_eq_true.1 (by decide)
  have hv' : v <+: Str.ascii manifestSchema ++ CodePoint.toByte (chr '"') :: Str.ascii rest := by
    rwa [List.map_append] at hv
  have hschema := takeWhile_prefix_takeWhile (fun b ↦ decide (b ≠ CodePoint.toByte (chr '"'))) hv'
  rw [List.takeWhile_append_of_pos hplain, List.takeWhile_cons, if_neg (by decide),
    List.append_nil] at hschema
  rw [schemaValueMatches, if_pos rfl]
  exact decide_eq_true hschema

/-- The marker is found from the colon after the first key on. -/
theorem hasCurrentManifestMarker_start {u : Bytes} (hu : schemaValueMatches u = true)
    (hspace : u.dropWhile isJsonSpace = u) :
    hasCurrentManifestMarker (Str.ascii manifestStart ++ u) = true := by
  have hscan : ∀ n, scanMarker (n + 1) 1 (ascii "\"schema\":" ++ u) = true := by
    intro n
    have htoken : scanToken false (ascii "schema\":" ++ u) = (ascii "schema", ascii ":" ++ u) := rfl
    have hstart : ascii "\"schema\":" ++ u =
        CodePoint.toByte (chr '"') :: (ascii "schema\":" ++ u) := rfl
    have hcolon : (ascii ":" ++ u).dropWhile isJsonSpace = CodePoint.toByte (chr ':') :: u := rfl
    rw [hstart, scanMarker, if_pos rfl, htoken]
    simp only [and_self, if_true, hcolon, hspace, hu, Bool.true_or]
  have hopen : (Str.ascii manifestStart ++ u).dropWhile isAsciiSpace =
      CodePoint.toByte (chr '\x7b') :: (ascii "\"schema\":" ++ u) := rfl
  rw [hasCurrentManifestMarker, hopen]
  simp only [if_true, hscan, Bool.or_true]

/-- Of the cuts inside the first key, the marker is found in the two shortest only. -/
theorem hasCurrentManifestMarker_key :
    ∀ k < 10, 0 < k → hasCurrentManifestMarker (Str.ascii (manifestStart.take k)) = decide (k ≤ 2) := by
  decide

/-! ## Cuts of a manifest -/

theorem decodeText_cut {m : Manifest} {k : ℕ} (hk : 0 < k) :
    decodeText (Str.ascii ((dumps .compact (manifestValue m)).take k)) =
      some ((dumps .compact (manifestValue m)).take k) := by
  have hascii := dumps_isAscii (l := .compact) rfl (manifestValue m)
  obtain ⟨t, ht⟩ : ∃ t, dumps .compact (manifestValue m) = chr '\x7b' :: chr '"' :: t := by
    have hstart : manifestStart = chr '\x7b' :: chr '"' :: Py.str "schema\":" := by decide
    rw [dumps_manifestValue, hstart]
    exact ⟨_, rfl⟩
  rw [ht] at hascii ⊢
  rcases k with _ | _ | k
  · exact absurd hk (lt_irrefl 0)
  · rw [List.take_succ_cons, List.take_zero]
    decide
  · rw [List.take_succ_cons, List.take_succ_cons]
    refine decodeText_ascii ?_ (by decide) (by decide)
    rw [← List.take_succ_cons, ← List.take_succ_cons]
    exact fun c hc ↦ hascii c (List.mem_of_mem_take hc)

/-- What the repository makes of what is left of a manifest. -/
theorem decodeManifest_cut {recursionLimit : ℕ} (hlimit : 1 ≤ recursionLimit) {m : Manifest}
    (hm : m.Committable) {k : ℕ} (hk : 0 < k) (hlen : k < (encodeManifest m).length) :
    decodeManifest recursionLimit ((encodeManifest m).take k) =
      if k ≤ 2 ∨ 10 ≤ k then schemaInvalid else .raw := by
  have htake : (encodeManifest m).take k =
      Str.ascii ((dumps .compact (manifestValue m)).take k) := (List.map_take).symm
  have hcut : Cut ((dumps .compact (manifestValue m)).take k) (dumps .compact (manifestValue m)) := by
    refine cut_take ?_
    rwa [encodeManifest, Str.ascii, List.length_map] at hlen
  have hsize : ((encodeManifest m).take k).length ≤ maxManifestBytes := by
    rw [List.length_take]
    exact (min_le_right _ _).trans (length_encodeManifest_le hm)
  have hmarker : hasCurrentManifestMarker ((encodeManifest m).take k) = decide (k ≤ 2 ∨ 10 ≤ k) := by
    rw [htake, dumps_manifestValue]
    by_cases hkey : k < 10
    · rw [List.take_append_of_le_length (show k ≤ manifestStart.length from hkey.le),
        hasCurrentManifestMarker_key k hkey hk]
      exact decide_eq_decide.2 (by omega)
    · have hten : manifestStart.length = 10 := by decide
      rw [List.take_append, hten, List.take_of_length_le (by omega), Str.ascii, List.map_append,
        decide_eq_true (.inr (by omega))]
      have hrest := List.take_prefix (k - 10) (chr '"' :: (manifestSchema ++
        (chr '"' :: dumpMembers .compact (manifestTail m))))
      refine hasCurrentManifestMarker_start (schemaValueMatches_cut (hrest.map _)) ?_
      rcases k - 10 with _ | j
      · rfl
      · rfl
  rw [decodeManifest, if_neg (not_lt.2 hsize), hmarker]
  rw [htake, decodeText_cut hk]
  simp only [loads_cut_manifest hlimit hm hcut, decide_eq_true_eq]

/-! ## Reading a cut manifest -/

variable (P : Platform) (L : Limits)

/-- What a read of a cut manifest returns, by the place of the cut. -/
theorem readHealthy_cut {m : Manifest} (hm : m.Committable) {k : ℕ} (hk : 0 < k)
    (hlen : k < (encodeManifest m).length) {key : Str}
    (hkey : validateLogicalKey P.keyLimit key = .ok ()) {s : Store}
    (hs : s.contents key = some (.bytes ((encodeManifest m).take k))) :
    readHealthy P L key s =
      if k ≤ 2 ∨ 10 ≤ k then .returned (.error "Snapshot manifest schema is invalid.")
      else if L.maxBytes < k then
        .returned (.error "Snapshot exceeds the configured size limit.")
      else .returned (.ok ⟨true, some ((encodeManifest m).take k), false, none⟩) := by
  have hk' : ((encodeManifest m).take k).length = k := by
    rw [List.length_take]
    omega
  have hretrieve : retrieve key s.healthy =
      (.returned (some (some (.bytes ((encodeManifest m).take k)))), s.healthy) := by
    rw [retrieve, Faulty.Storage.retrieve_of_script_nil rfl, Faulty.Storage.healthy_contents, hs]
  have hcopy : copyBuffer (some (.bytes ((encodeManifest m).take k)))
      (max L.maxBytes maxManifestBytes) = .ok ((encodeManifest m).take k) := by
    refine copyBuffer_bytes ?_
    rw [hk']
    exact le_max_of_le_right (hlen.le.trans (length_encodeManifest_le hm))
  rw [readHealthy, read, hkey]
  simp only [readTerminal, hretrieve, hcopy]
  rw [decodeManifest_cut P.one_le_recursionLimit hm hk hlen]
  by_cases hcond : k ≤ 2 ∨ 10 ≤ k
  · rw [if_pos hcond, if_pos hcond]
    rfl
  · rw [if_neg hcond, if_neg hcond, hk']
    split_ifs <;> rfl

/-- **Truncated manifests.** Of the non-empty proper beginnings of a manifest, those are refused as
corrupt that end before the first letter of its first key or behind the closing quote of it. -/
theorem truncated_manifest {m : Manifest} (hm : m.Committable) {k : ℕ} (hk : 0 < k)
    (hlen : k < (encodeManifest m).length) {key : Str}
    (hkey : validateLogicalKey P.keyLimit key = .ok ()) {s : Store}
    (hs : s.contents key = some (.bytes ((encodeManifest m).take k))) :
    (readHealthy P L key s = .returned (.error "Snapshot manifest schema is invalid.") ∧
      ∀ r, readHealthy P L key s ≠ .returned (.ok r)) ↔ k ≤ 2 ∨ 10 ≤ k := by
  rw [readHealthy_cut P L hm hk hlen hkey hs]
  constructor
  · rintro ⟨h, -⟩
    by_contra hcond
    rw [if_neg hcond] at h
    split_ifs at h
    · exact absurd (Except.error.inj (Faulty.Result.returned.inj h)) (by decide)
    · exact nomatch Faulty.Result.returned.inj h
  · intro hcond
    rw [if_pos hcond]
    exact ⟨rfl, fun r h ↦ nomatch Faulty.Result.returned.inj h⟩

/-- An empty state. -/
def sampleManifest : Manifest where
  version := manifestVersion
  generation := List.replicate 32 (chr '0')
  length := 0
  chunkBytes := 4
  chunks := 0
  checksum := List.replicate 64 (chr '0')
  statePresent := true

theorem sampleManifest_committable : sampleManifest.Committable where
  version := rfl
  generation := by decide
  checksum := by decide
  length_le := Nat.zero_le _
  chunkBytes_pos := by decide
  chunkBytes_le := by decide
  chunks := by decide
  chunks_le := Nat.zero_le _
  none_empty := fun _ ↦ rfl

theorem ten_lt_length_encodeManifest (m : Manifest) : 10 < (encodeManifest m).length := by
  have hten : manifestStart.length = 10 := by decide
  rw [encodeManifest, Str.ascii, List.length_map, dumps_manifestValue, List.length_append,
    List.length_cons, hten]
  omega

/-- A storage that holds the first `k` octets of the manifest. -/
def cutStore (k : ℕ) : Store := ⟨fun _ ↦ some (.bytes ((encodeManifest sampleManifest).take k)), []⟩

/-- Cut behind the colon, the manifest is refused. -/
theorem truncated_manifest_colon :
    readHealthy samplePlatform sampleLimits sampleKey (cutStore 10) =
        .returned (.error "Snapshot manifest schema is invalid.") ∧
      ∀ r, readHealthy samplePlatform sampleLimits sampleKey (cutStore 10) ≠ .returned (.ok r) :=
  (truncated_manifest samplePlatform sampleLimits sampleManifest_committable (by decide)
    (ten_lt_length_encodeManifest _) (by decide) rfl).2 (by decide)

/-- Cut behind the first letter of the first key, it is returned as the state of an older format. -/
theorem truncated_manifest_returned :
    sampleManifest.Committable ∧ 3 < (encodeManifest sampleManifest).length ∧
    readHealthy samplePlatform sampleLimits sampleKey (cutStore 3) =
      .returned (.ok ⟨true, some (ascii "\x7b\"s"), false, none⟩) := by
  have hlong := ten_lt_length_encodeManifest sampleManifest
  have hthree : (encodeManifest sampleManifest).take 3 = ascii "\x7b\"s" := by
    rw [encodeManifest, dumps_manifestValue]
    rfl
  refine ⟨sampleManifest_committable, by omega, ?_⟩
  rw [readHealthy_cut samplePlatform sampleLimits sampleManifest_committable (k := 3) (by decide)
    (by omega) (by decide) rfl, if_neg (by decide), if_neg (by decide), hthree]

end Snapshot

end ScrapyExtension
