import ScrapyExtension.Backends.JsonCodec
import ScrapyExtension.Json.Image

/-!
# What the codec decodes

The decoder accepts more documents than the encoder writes: markers of earlier versions, markers that do
not decode, and objects that merely look like a marker. Whatever it returns is *stable* all the same, so
the encoder writes it in a form that is decoded to the same value, escaping the dicts that the decoder
would otherwise take for a marker.

As for the round trip, the interpreter's recursion limit and its limit on integer digits are left out.
-/

namespace ScrapyExtension

open Py Json

namespace JsonCodec

variable {H : Host}

/-! ## Dicts -/

private theorem nodup_keys_concat {β : Type} {ms : List (Str × β)} {m : Str × β}
    (hms : (ms.map Prod.fst).Nodup) (hm : (ms.lookup m.1).isSome = false) :
    ((ms ++ [m]).map Prod.fst).Nodup := by
  rw [List.map_append, List.nodup_append]
  refine ⟨hms, List.nodup_singleton _, ?_⟩
  intro k hk k' hk' heq
  obtain rfl : k' = m.1 := List.mem_singleton.1 hk'
  obtain ⟨n, hn, rfl⟩ := List.mem_map.1 hk
  rw [Option.isSome_eq_false_iff, Option.isNone_iff_eq_none, List.lookup_eq_none_iff] at hm
  have hne := hm n hn
  rw [heq] at hne
  simp at hne

/-- A dict that was built has the pairs in order, under distinct keys. -/
theorem buildDict_spec {pairs d : List (Str × Obj H)} (h : buildDict pairs = some d) :
    d = pairs ∧ (pairs.map Prod.fst).Nodup := by
  have hloop : ∀ acc rest : List (Str × Obj H), (acc.map Prod.fst).Nodup →
      rest.foldlM (fun result m ↦ if (result.lookup m.1).isSome then none
        else some (result ++ [m])) acc = some d → d = acc ++ rest ∧ ((acc ++ rest).map Prod.fst).Nodup := by
    intro acc rest
    induction rest generalizing acc with
    | nil =>
      intro hacc heq
      obtain rfl := Option.some.inj heq
      rw [List.append_nil]
      exact ⟨rfl, hacc⟩
    | cons m rest ih =>
      intro hacc heq
      rw [List.foldlM_cons] at heq
      split_ifs at heq with hnew
      · exact nomatch heq
      · have hrest := ih (acc ++ [m]) (nodup_keys_concat hacc (Bool.not_eq_true _ ▸ hnew)) heq
        rwa [List.append_assoc, List.singleton_append] at hrest
  exact hloop [] pairs List.nodup_nil h

/-- A member under a string that can be written, with a stable value. -/
def StableMember (m : Str × Obj H) : Prop := joinPairs m.1 = m.1 ∧ Stable m.2

theorem stable_strDict {ms : List (Str × Obj H)} (hnodup : (ms.map Prod.fst).Nodup)
    (h : ∀ m ∈ ms, StableMember m) : Stable (strDict ms) := by
  constructor
  · have hkeys : (ms.map fun m ↦ (Key.str m.1, m.2)).map Prod.fst = (ms.map Prod.fst).map Key.str := by
      rw [List.map_map, List.map_map]
      rfl
    rw [hkeys]
    exact hnodup.map fun _ _ heq ↦ Key.str.inj heq
  · clear hnodup
    induction ms with
    | nil => exact trivial
    | cons m ms ih =>
      have hm := h m List.mem_cons_self
      exact ⟨⟨m.1, rfl, hm.1⟩, hm.2, ih fun n hn ↦ h n (List.mem_cons_of_mem m hn)⟩

theorem itemsStable_iff {xs : List (Obj H)} : ItemsStable xs ↔ ∀ x ∈ xs, Stable x := by
  induction xs with
  | nil => exact ⟨fun _ _ hx ↦ absurd hx List.not_mem_nil, fun _ ↦ trivial⟩
  | cons x xs ih => rw [ItemsStable, ih, List.forall_mem_cons]

private theorem forall_mem_of_mapM {β γ : Type} {f : β → Option γ} {P : γ → Prop} {xs : List β} {ys : List γ}
    (hf : ∀ x ∈ xs, ∀ y, f x = some y → P y) (h : xs.mapM f = some ys) : ∀ y ∈ ys, P y := by
  induction xs generalizing ys with
  | nil =>
    obtain rfl := Option.some.inj h
    exact fun y hy ↦ absurd hy List.not_mem_nil
  | cons x xs ih =>
    rw [List.mapM_cons] at h
    obtain ⟨y, hy, h⟩ := Option.bind_eq_some_iff.1 h
    obtain ⟨ys', hys, h⟩ := Option.bind_eq_some_iff.1 h
    obtain rfl := Option.some.inj h
    exact List.forall_mem_cons.2 ⟨hf x List.mem_cons_self y hy,
      ih (fun z hz ↦ hf z (List.mem_cons_of_mem x hz)) hys⟩

/-! ## Markers -/

/-- An item of an escape marker has a stable member. -/
theorem stableMember_of_escapedPair {x : Obj H} {m : Str × Obj H} (hx : Stable x)
    (h : escapedPair x = some m) : StableMember m := by
  unfold escapedPair at h
  split at h
  · obtain rfl := Option.some.inj h
    exact ⟨hx.1, hx.2.1⟩
  · exact nomatch h

/-- The items of an escape marker are stable members. -/
theorem stableMember_of_escapedItems {obj items : List (Str × Obj H)} (hobj : ∀ m ∈ obj, StableMember m)
    (h : escapedItems obj = some items) : ∀ m ∈ items, StableMember m := by
  unfold escapedItems at h
  split at h
  · next tag xs _ _ hdata =>
    split_ifs at h
    have hlist : Stable (.list xs) := by
      obtain ⟨l₁, l₂, rfl, -⟩ := List.lookup_eq_some_iff.1 hdata
      exact (hobj _ (List.mem_append_right l₁ List.mem_cons_self)).2
    exact forall_mem_of_mapM (fun x hx m ↦ stableMember_of_escapedPair (itemsStable_iff.1 hlist x hx)) h
  · exact nomatch h

/-- A typed marker holds no text. -/
theorem stable_of_typedMarker {obj : List (Str × Obj H)} {v : Obj H} (h : typedMarker obj = some v) :
    Stable v := by
  unfold typedMarker at h
  split at h
  · split_ifs at h
    · obtain ⟨b, -, rfl⟩ := Option.map_eq_some_iff.1 h
      exact trivial
    · obtain ⟨d, -, rfl⟩ := Option.map_eq_some_iff.1 h
      exact trivial
    · obtain ⟨d, -, rfl⟩ := Option.map_eq_some_iff.1 h
      exact trivial
  · exact nomatch h

/-- A legacy marker becomes bytes, any other dict stays. -/
theorem stable_decodeBytesTag {obj : List (Str × Obj H)} (hobj : Stable (strDict obj)) :
    Stable (decodeBytesTag obj) := by
  unfold decodeBytesTag
  split_ifs
  · split
    · next value _ =>
      rcases Base64.decode value with - | b
      · exact hobj
      · exact trivial
    · exact hobj
  · exact hobj

theorem stable_of_jsonObjectFromPairs {pairs : List (Str × Obj H)} {v : Obj H}
    (hpairs : ∀ m ∈ pairs, StableMember m) (h : jsonObjectFromPairs pairs = some v) : Stable v := by
  obtain ⟨d, hbuild, hdecode⟩ := Option.bind_eq_some_iff.1 h
  obtain ⟨rfl, hnodup⟩ := buildDict_spec hbuild
  unfold decodeMarkerDict at hdecode
  split at hdecode
  · next items hitems =>
    obtain ⟨d', hbuild', rfl⟩ := Option.map_eq_some_iff.1 hdecode
    obtain ⟨rfl, hnodup'⟩ := buildDict_spec hbuild'
    exact stable_strDict hnodup' (stableMember_of_escapedItems hpairs hitems)
  · obtain rfl := Option.some.inj hdecode
    rcases htyped : typedMarker d with - | x
    · exact stable_decodeBytesTag (stable_strDict hnodup hpairs)
    · exact stable_of_typedMarker htyped

/-! ## Documents -/

theorem hooks_preserves (H : Host) : (hooks H).Preserves Stable where
  null := trivial
  bool _ := trivial
  int i x hx := by
    obtain rfl := Option.some.inj hx
    exact trivial
  float token x hx := by
    obtain ⟨y, -, rfl⟩ := Option.map_eq_some_iff.1 hx
    exact trivial
  constant w x hx := absurd hx (Option.not_mem_none x)
  str s hs := joinPairs_of_not_hasPair hs
  arr xs hxs := itemsStable_iff.2 hxs
  obj ms hms x hx :=
    stable_of_jsonObjectFromPairs (fun m hm ↦ ⟨joinPairs_of_not_hasPair (hms m hm).1, (hms m hm).2⟩) hx

/-- Whatever is decoded is stable. -/
theorem stable_of_deserialize {data : Bytes} {v : Obj H} (h : deserialize H data = .ok v) : Stable v := by
  unfold deserialize at h
  split at h
  · exact nomatch h
  · next text htext =>
    split at h
    · next obj hobj =>
      obtain rfl := Except.ok.inj h
      exact of_loads (hooks_preserves H) (isScalar_of_decodeUtf8 htext) hobj
    · exact nomatch h

/-- A document of an earlier version: legacy bytes, a legacy marker that does not decode, and an object that
has the shape of an escape marker but is none. -/
def legacyDocument : Value :=
  .arr [.obj [(bytesTag, .str (Py.str "AAEC"))], .obj [(bytesTag, .str (Py.str "?"))],
    .obj [(codecTag, .str codecDict), (codecData, .arr [.int 1, .str [0xD800]])]]

/-- What it is decoded to. -/
def legacyValue : Obj sampleHost :=
  .list [.bytes [0, 1, 2], .dict [(.str bytesTag, .str (Py.str "?"))],
    .dict [(.str codecTag, .str codecDict), (.str codecData, .list [.int 1, .str [0xD800]])]]

end JsonCodec

end ScrapyExtension
