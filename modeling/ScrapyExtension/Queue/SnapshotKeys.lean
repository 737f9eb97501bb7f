import ScrapyExtension.Py.Methods
import ScrapyExtension.Queue.Checkpoint

/-!
# The keys of snapshots

Where a queue and its repository keep what they store: manifests under the current key, in one of two
versions, and under the key of the layout before; tombstones; and chunks, in three layouts. Names may
contain colons and digits, so the current key gives the length of what it is made of. In the version with
an owner it does not do so for the queue, which comes last.

## Families

Two families are told apart by how their keys start, except for the key of the layout before, which has
no colon after its start, and the chunks of the oldest layout. These have the key of their manifest with a
suffix, and a suffix of a key with an owner reads as a longer name of the queue.
-/

namespace ScrapyExtension

open Py

namespace Snapshot

namespace Identity

/-! ## Names -/

/-- A text with its length is read back. -/
theorem sized_append_inj {s t x y : Str} (h : sized s ++ x = sized t ++ y) : s = t ∧ x = y := by
  have hdigits : ∀ u z : Str, (sized u ++ z).takeWhile isDigit = decimal u.length := by
    intro u z
    rw [sized, List.append_assoc, List.append_assoc,
      List.takeWhile_append_of_pos (decimal_isDigit _)]
    exact List.append_nil _
  have hlength : s.length = t.length := by
    rw [← readDecimal_decimal s.length, ← hdigits s x, h, hdigits, readDecimal_decimal]
  rw [sized, sized, hlength, List.append_assoc _ s, List.append_assoc _ t] at h
  exact List.append_inj (List.append_cancel_left h) hlength

theorem logical_injective : Function.Injective logical := by
  rintro ⟨owner, spider, queue⟩ ⟨owner', spider', queue'⟩ h
  rcases owner with - | owner <;> rcases owner' with - | owner' <;>
    simp only [logical, List.append_assoc] at h
  · obtain ⟨rfl, hrest⟩ := sized_append_inj (List.append_cancel_left h)
    have hqueue : sized queue ++ [] = sized queue' ++ [] := by
      rw [List.append_cancel_left hrest]
    rw [(sized_append_inj hqueue).1]
  · exact absurd h (append_ne_append 2 (by decide) (by decide) (by decide) _ _)
  · exact absurd h (append_ne_append 2 (by decide) (by decide) (by decide) _ _)
  · obtain ⟨rfl, hspider⟩ := sized_append_inj (List.append_cancel_left h)
    obtain ⟨rfl, hqueue⟩ := sized_append_inj (List.append_cancel_left hspider)
    rw [List.append_cancel_left hqueue]

theorem snapshotKey_injective : Function.Injective snapshotKey :=
  fun _ _ h ↦ logical_injective (List.append_cancel_left h)

/-- The names of a queue as they are configured. The name of a spider is not empty. -/
structure Names where
  /-- `_snapshot_owner` -/
  owner : Option Str
  /-- `spider.name` -/
  spider : Option {name : Str // name ≠ []}
  /-- `queue_name` -/
  queue : Str

/-- `str(spider_name) if spider_name else ""` -/
def Names.spiderComponent (n : Names) : Str := (n.spider.map Subtype.val).getD []

/-- The identity that the keys are built of. -/
def Names.identity (n : Names) : Identity := ⟨n.owner, n.spiderComponent, n.queue⟩

theorem Names.identity_injective : Function.Injective Names.identity := by
  rintro ⟨owner, spider, queue⟩ ⟨owner', spider', queue'⟩ h
  obtain ⟨rfl, hspider, rfl⟩ := Identity.mk.inj h
  rcases spider with - | ⟨spider, hne⟩ <;> rcases spider' with - | ⟨spider', hne'⟩
  · rfl
  · exact absurd hspider.symm hne'
  · exact absurd hspider hne
  · obtain rfl : spider = spider' := hspider
    rfl

/-- Owner and queue are valid key names, and so is the spider, if there is one. -/
def Valid (q : Identity) : Bool :=
  q.owner.all validKeyName && (q.spider = [] || validKeyName q.spider) && validKeyName q.queue

end Identity

/-! ## Families -/

/-- A kind of key. -/
inductive Family
  /-- The current key with an owner. -/
  | v2
  /-- The current key without one. -/
  | v3
  /-- The key of the layout before. -/
  | legacy
  /-- The key of a tombstone. -/
  | tombstone
  /-- A chunk of a manifest of version 4. -/
  | v4Chunk
  /-- A chunk of a manifest of version 5 or 6. -/
  | legacyChunk
  /-- A chunk of a current manifest. -/
  | chunk
deriving DecidableEq

/-- A key under which a queue has a manifest kept or looks for one. -/
inductive IsManifestKey : Str → Prop
  | current (q : Identity) : IsManifestKey q.snapshotKey
  | legacy {q : Identity} {key : Str} : q.legacyKey = some key → IsManifestKey key

/-- What a chunk of version 4 has after the key of its manifest. -/
def v4Suffix (generation : Generation) (index : ℕ) : Str :=
  Py.str ":generation:" ++ (generation.text ++ (Py.str ":chunk:" ++ decimal index))

/-- The keys of a family. -/
def Family.keys (sha : Sha256) : Family → Set Str
  | .v2 => {k | ∃ q : Identity, q.owner ≠ none ∧ q.snapshotKey = k}
  | .v3 => {k | ∃ q : Identity, q.owner = none ∧ q.snapshotKey = k}
  | .legacy => {k | ∃ q : Identity, q.legacyKey = some k}
  | .tombstone => {k | ∃ q : Identity, q.tombstoneKey = k}
  | .v4Chunk => {k | ∃ (key : Str) (generation : Generation) (index : ℕ),
      IsManifestKey key ∧ v4ChunkKey key generation.text index = k}
  | .legacyChunk => {k | ∃ (key : Str) (generation : Generation) (index : ℕ),
      legacyChunkKey sha key generation.text index = k}
  | .chunk => {k | ∃ (key : Str) (generation : Generation) (index : ℕ),
      chunkKey sha key generation.text index = k}

/-- What every key of a family starts with. -/
def Family.start : Family → Str
  | .v2 => Py.str "queue:snapshot:v2:"
  | .v3 => Py.str "queue:snapshot:v3:"
  | .legacy | .v4Chunk => Identity.keyPrefix
  | .tombstone => Identity.tombstonePrefix
  | .legacyChunk => legacyChunkKeyPrefix
  | .chunk => currentChunkKeyPrefix

variable {sha : Sha256} {f g : Family} {k key : Str}

theorem v4ChunkKey_eq (key : Str) (generation : Generation) (index : ℕ) :
    v4ChunkKey key generation.text index = key ++ v4Suffix generation index := rfl

theorem Identity.start_snapshotKey {q : Identity} :
    (if q.owner = none then Family.v3.start else Family.v2.start) <+: q.snapshotKey := by
  rcases q with ⟨- | owner, spider, queue⟩
  · exact ⟨_, by simp only [if_pos, Identity.snapshotKey, Identity.logical, List.append_assoc]; rfl⟩
  · exact ⟨_, by
      simp only [reduceCtorEq, if_false, Identity.snapshotKey, Identity.logical, List.append_assoc]
      rfl⟩

/-- A manifest key starts as the queue's own keys do. -/
theorem IsManifestKey.keyPrefix_front (h : IsManifestKey key) : Identity.keyPrefix <+: key := by
  rcases h with ⟨q⟩ | ⟨h⟩
  · exact List.prefix_append _ _
  · rw [(Identity.legacyKey_eq h).2.1]
    exact List.prefix_append _ _

theorem Family.start_front (h : k ∈ f.keys sha) : f.start <+: k := by
  cases f with
  | v2 =>
    obtain ⟨q, howner, rfl⟩ := h
    simpa [howner] using q.start_snapshotKey
  | v3 =>
    obtain ⟨q, howner, rfl⟩ := h
    simpa [howner] using q.start_snapshotKey
  | legacy =>
    obtain ⟨q, h⟩ := h
    exact (IsManifestKey.legacy h).keyPrefix_front
  | tombstone =>
    obtain ⟨q, rfl⟩ := h
    exact List.prefix_append _ _
  | v4Chunk =>
    obtain ⟨key, generation, index, hkey, rfl⟩ := h
    exact hkey.keyPrefix_front.trans (List.prefix_append _ _)
  | legacyChunk =>
    obtain ⟨key, generation, index, rfl⟩ := h
    exact List.prefix_append _ _
  | chunk =>
    obtain ⟨key, generation, index, rfl⟩ := h
    exact List.prefix_append _ _

/-- Families that start differently have no key in common. -/
theorem Family.disjoint_of_start (h : ¬ f.start <+: g.start) (h' : ¬ g.start <+: f.start) :
    Disjoint (f.keys sha) (g.keys sha) := by
  rw [Set.disjoint_left]
  intro k hf hg
  exact (List.prefix_or_prefix_of_prefix (start_front hf) (start_front hg)).elim h h'

/-- There is no colon after the start of a key of the layout before. -/
theorem Family.notMem_legacy {x : Str} (hx : chr ':' ∈ x) :
    Identity.keyPrefix ++ x ∉ Family.legacy.keys sha := by
  rintro ⟨q, hq⟩
  obtain ⟨-, heq, hcolon⟩ := Identity.legacyKey_eq hq
  exact hcolon (List.append_cancel_left heq ▸ hx)

/-- A key of the layout before is told from one whose start has a colon more. -/
theorem Family.disjoint_legacy {x : Str} (hstart : g.start = Identity.keyPrefix ++ x)
    (hx : chr ':' ∈ x) : Disjoint (Family.legacy.keys sha) (g.keys sha) := by
  rw [Set.disjoint_right]
  intro k hk
  obtain ⟨rest, rfl⟩ := start_front hk
  rw [hstart, List.append_assoc]
  exact notMem_legacy (List.mem_append_left _ hx)

/-- Every family but the chunks of version 4 is on its own. -/
theorem Family.pairwiseDisjoint :
    Set.PairwiseDisjoint {f | f ≠ Family.v4Chunk} (Family.keys sha) := by
  have hcurrent : Disjoint (Family.v2.keys sha) (Family.v3.keys sha) :=
    disjoint_of_start (by decide) (by decide)
  have hlegacy : ∀ g : Family, g ≠ .legacy → g ≠ .v4Chunk →
      Disjoint (Family.legacy.keys sha) (g.keys sha) := by
    intro g hg hg'
    cases g with
    | v2 => exact disjoint_legacy (x := Py.str "v2:") rfl (by decide)
    | v3 => exact disjoint_legacy (x := Py.str "v3:") rfl (by decide)
    | legacy => exact absurd rfl hg
    | v4Chunk => exact absurd rfl hg'
    | _ => exact disjoint_of_start (by decide) (by decide)
  intro f hf g hg hne
  by_cases hflegacy : f = .legacy
  · rw [hflegacy]
    exact hlegacy g (hflegacy ▸ hne.symm) hg
  by_cases hglegacy : g = .legacy
  · rw [hglegacy]
    exact (hlegacy f hflegacy hf).symm
  cases f <;> cases g <;>
    first
    | exact absurd rfl hne
    | exact absurd rfl hf
    | exact absurd rfl hg
    | exact absurd rfl hflegacy
    | exact absurd rfl hglegacy
    | exact disjoint_of_start (by decide) (by decide)

/-! ## Chunks of version 4 -/

/-- The name of a queue, read with the suffix, cannot take the place of a version. -/
theorem legacyKey_append_v4Suffix_ne {q q' : Identity} (h : q.legacyKey = some key)
    (generation : Generation) (index : ℕ) : key ++ v4Suffix generation index ≠ q'.snapshotKey := by
  obtain ⟨-, rfl, hcolon⟩ := Identity.legacyKey_eq h
  intro heq
  rw [List.append_assoc] at heq
  have hrest := List.append_cancel_left heq
  -- after the first colon comes the letter `g` on the left, and a digit on the right
  have hdigit : ∀ (s x y : Str), Py.str "generation:" ++ x ≠ Identity.sized s ++ y := by
    intro s x y hsized
    have hhead := congrArg (fun t ↦ (t.takeWhile isDigit).length) hsized
    rw [Identity.sized, List.append_assoc, List.append_assoc,
      List.takeWhile_append_of_pos (decimal_isDigit _), List.length_append] at hhead
    have hpos : 0 < (decimal s.length).length := by
      rcases decimal_cases s.length with h | ⟨c, t, h, -⟩ <;> rw [h] <;> simp
    have hzero : ((Py.str "generation:" ++ x).takeWhile isDigit).length = 0 := rfl
    omega
  have hversion : ∀ v : Str, chr ':' ∉ v → ∀ s y : Str,
      q.queue ++ v4Suffix generation index ≠ v ++ (chr ':' :: (Identity.sized s ++ y)) := by
    intro v hv s y hsplit
    have hcons : v4Suffix generation index = chr ':' :: (Py.str "generation:" ++
        (generation.text ++ (Py.str ":chunk:" ++ decimal index))) := rfl
    rw [hcons] at hsplit
    exact hdigit _ _ _ (append_cons_inj hcolon hv hsplit).2
  rcases q' with ⟨- | owner, spider, queue⟩ <;>
    simp only [Identity.logical, List.append_assoc] at hrest
  · exact hversion (Py.str "v3") (by decide) spider (Py.str ":" ++ Identity.sized queue) hrest
  · exact hversion (Py.str "v2") (by decide) owner _ hrest

/-- A current key with the suffix is one again only by a longer name of the queue. -/
theorem snapshotKey_append_v4Suffix_iff {q q' : Identity} {generation : Generation} {index : ℕ} :
    q.snapshotKey ++ v4Suffix generation index = q'.snapshotKey ↔
      q.owner ≠ none ∧ q' = { q with queue := q.queue ++ v4Suffix generation index } := by
  constructor
  · intro heq
    rw [Identity.snapshotKey, Identity.snapshotKey, List.append_assoc] at heq
    have hrest := List.append_cancel_left heq
    rcases q with ⟨- | owner, spider, queue⟩ <;> rcases q' with ⟨- | owner', spider', queue'⟩ <;>
      simp only [Identity.logical, List.append_assoc] at hrest
    · -- the length of the queue ends the key, and the suffix is not empty
      obtain ⟨rfl, hspider⟩ := Identity.sized_append_inj (List.append_cancel_left hrest)
      have hqueue : Identity.sized queue ++ v4Suffix generation index =
          Identity.sized queue' ++ [] := by
        rw [List.append_cancel_left hspider, List.append_nil]
      have hnil := (Identity.sized_append_inj hqueue).2
      cases hnil
    · exact absurd hrest (append_ne_append 2 (by decide) (by decide) (by decide) _ _)
    · exact absurd hrest (append_ne_append 2 (by decide) (by decide) (by decide) _ _)
    · obtain ⟨rfl, hspider⟩ := Identity.sized_append_inj (List.append_cancel_left hrest)
      obtain ⟨rfl, hqueue⟩ := Identity.sized_append_inj (List.append_cancel_left hspider)
      refine ⟨by simp, ?_⟩
      rw [List.append_cancel_left hqueue]
  · rintro ⟨howner, rfl⟩
    rcases q with ⟨- | owner, spider, queue⟩
    · exact absurd rfl howner
    · simp only [Identity.snapshotKey, Identity.logical, List.append_assoc]

/-- Where a chunk of version 4 has the key of a manifest. -/
theorem v4Chunk_eq_snapshotKey_iff {q : Identity} {generation : Generation} {index : ℕ}
    (hkey : IsManifestKey key) :
    v4ChunkKey key generation.text index = q.snapshotKey ↔
      ∃ q' : Identity, q'.owner ≠ none ∧ key = q'.snapshotKey ∧
        q = { q' with queue := q'.queue ++ v4Suffix generation index } := by
  rw [v4ChunkKey_eq]
  constructor
  · intro heq
    rcases hkey with ⟨q'⟩ | ⟨hlegacy⟩
    · obtain ⟨howner, rfl⟩ := snapshotKey_append_v4Suffix_iff.1 heq
      exact ⟨q', howner, rfl, rfl⟩
    · exact absurd heq (legacyKey_append_v4Suffix_ne hlegacy generation index)
  · rintro ⟨q', howner, rfl, rfl⟩
    exact snapshotKey_append_v4Suffix_iff.2 ⟨howner, rfl⟩

theorem Family.disjoint_v4Chunk (hf : f ≠ .v4Chunk) (hf' : f ≠ .v2) :
    Disjoint (f.keys sha) (Family.v4Chunk.keys sha) := by
  cases f with
  | v2 => exact absurd rfl hf'
  | v4Chunk => exact absurd rfl hf
  | v3 =>
    rw [Set.disjoint_left]
    rintro k ⟨q, howner, rfl⟩ ⟨key, generation, index, hkey, heq⟩
    obtain ⟨q', howner', -, rfl⟩ := (v4Chunk_eq_snapshotKey_iff hkey).1 heq
    exact howner' howner
  | legacy =>
    rw [Set.disjoint_right]
    rintro k ⟨key, generation, index, hkey, rfl⟩
    obtain ⟨x, rfl⟩ := hkey.keyPrefix_front
    rw [v4ChunkKey_eq, List.append_assoc]
    exact notMem_legacy (List.mem_append_right _ (by simp [v4Suffix, Py.str]))
  | _ => exact disjoint_of_start (by decide) (by decide)

/-- The current key is injective in the names; the families are disjoint, but for the chunks of version
4; and these only meet the keys with an owner, in the longer names of a queue. -/
theorem snapshot_keys (sha : Sha256) :
    Function.Injective (fun n : Identity.Names ↦ n.identity.snapshotKey) ∧
      Set.PairwiseDisjoint {f | f ≠ Family.v4Chunk} (Family.keys sha) ∧
      (∀ f : Family, f ≠ .v4Chunk → f ≠ .v2 → Disjoint (f.keys sha) (Family.v4Chunk.keys sha)) ∧
      ∀ (key : Str) (generation : Generation) (index : ℕ) (q : Identity), IsManifestKey key →
        (v4ChunkKey key generation.text index = q.snapshotKey ↔
          ∃ q' : Identity, q'.owner ≠ none ∧ key = q'.snapshotKey ∧
            q = { q' with queue := q'.queue ++ v4Suffix generation index }) := by
  refine ⟨?_, Family.pairwiseDisjoint, fun f ↦ Family.disjoint_v4Chunk, ?_⟩
  · exact Identity.snapshotKey_injective.comp Identity.Names.identity_injective
  · intro key generation index q hkey
    exact v4Chunk_eq_snapshotKey_iff hkey

/-- A queue whose name has the suffix, under the owner of the queue without it. -/
def aliasingQueue : Identity :=
  ⟨some (Py.str "o"), [], Py.str "q" ++ v4Suffix (List.Vector.replicate 32 0) 0⟩

/-- Its key is that of a chunk of the other queue. -/
theorem v4_chunk_alias :
    aliasingQueue.Valid = true ∧ (Identity.mk (some (Py.str "o")) [] (Py.str "q")).Valid = true ∧
      v4ChunkKey (Identity.mk (some (Py.str "o")) [] (Py.str "q")).snapshotKey
        (Hex.text (List.Vector.replicate 32 0)) 0 = aliasingQueue.snapshotKey ∧
      ∀ sha : Sha256, ¬ Disjoint (Family.v2.keys sha) (Family.v4Chunk.keys sha) := by
  have heq : v4ChunkKey (Identity.mk (some (Py.str "o")) [] (Py.str "q")).snapshotKey
      (Hex.text (List.Vector.replicate 32 0)) 0 = aliasingQueue.snapshotKey := by decide +kernel
  refine ⟨by decide +kernel, by decide, heq, fun sha ↦ ?_⟩
  rw [Set.not_disjoint_iff]
  exact ⟨_, ⟨aliasingQueue, by decide, rfl⟩, _, _, _, .current _, heq⟩

end Snapshot

end ScrapyExtension
