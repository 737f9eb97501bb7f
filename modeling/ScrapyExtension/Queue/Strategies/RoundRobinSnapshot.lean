import ScrapyExtension.Json.Load
import ScrapyExtension.Queue.Strategies.RoundRobin

/-!
# The snapshot of a round robin

The sources are written in the order of the map, each with its items, so that a restore builds the same map.
It refuses a text in which one source comes twice.

## Names

The names of the sources go through `json.dumps`, which writes every surrogate as an escape of its own, and a
high surrogate in front of a low one is read back as one code point. A source whose name has such a pair comes
back under another name. What is pushed to it later is not put behind its items, but gets a turn of its own. A
caller can tell: of two new sources the one that was there before is served late.
-/

namespace ScrapyExtension

open Py Json

namespace RoundRobin

/-- The sources and their items. -/
abbrev Sources := OrderedDict Str (List Bytes)

/-! ## Writing -/

/-- The object of a source. -/
def sourceValue (e : Str × List Bytes) : Value :=
  .obj [(str "source", .str e.1), (str "items", .arr (e.2.map fun item ↦ .str (Base64.encode item)))]

/-- The object of a snapshot. -/
def snapshotValue (sources : List (Str × List Bytes)) : Value :=
  .obj [(str "version", .int 1), (str "strategy", .str (str "round_robin")),
    (str "sources", .arr (sources.map sourceValue))]

/-- `snapshot` -/
def snapshot (s : State Str Bytes) : Option Bytes :=
  let snapshotSources := s.sources.entries.filter fun e ↦ !e.2.isEmpty
  if snapshotSources = [] then none else some (dumpBytes .compact (snapshotValue snapshotSources))

/-! ## Restoring -/

/-- One source. -/
def readSource : Loaded → Option (Str × List Bytes)
  | .dict ms =>
    match ms.lookup (str "source"), ms.lookup (str "items") with
    | some (.str source), some (.list items) => (items.mapM Loaded.base64).map (source, ·)
    | _, _ => none
  | _ => none

/-- The loop over the sources, with those seen so far. -/
def recover (recovered : Sources) (seen : List Str) : List Loaded → Option Sources
  | [] => some recovered
  | entry :: entries =>
    match readSource entry with
    | none => none
    | some (source, items) =>
      if source ∈ seen then none
      else recover (if items = [] then recovered else recovered.set source items) (source :: seen) entries

/-- The part of `restore` that reads the text; there are no floats in it. -/
def readSnapshot (F : Floats) (limit : ℕ) (state : Bytes) : Option Sources :=
  match loadBytes F limit state with
  | some (.dict ms) =>
    match ms.lookup (str "strategy"), ms.lookup (str "version"), ms.lookup (str "sources") with
    | some (.str strategy), some (.int version), some (.list sources) =>
      if strategy ≠ str "round_robin" then none
      else if version ≠ 1 then none
      else recover .empty [] sources
    | _, _, _ => none
  | _ => none

/-- What a restore raises. -/
inductive Raised
  /-- `QueueStrategyRestoreError` -/
  | restoreError
deriving DecidableEq, Repr

/-- `restore` -/
def restore (F : Floats) (limit : ℕ) (state : Option Bytes) (s : State Str Bytes) :
    Except Raised Unit × State Str Bytes :=
  match state with
  | none => (.ok (), s)
  | some state =>
    match readSnapshot F limit state with
    | none => (.error .restoreError, s)
    | some recovered => (.ok (), { s with sources := recovered })

/-! ## What is read back -/

section Text

variable {F : Floats}

/-- A source as it comes from `json.loads`. -/
def loadedSource (e : Str × List Bytes) : Loaded :=
  .dict [(str "source", .str (joinPairs e.1)), (str "items", .list (e.2.map fun item ↦ .str (Base64.encode item)))]

theorem readSource_loadedSource (e : Str × List Bytes) :
    readSource (loadedSource e) = some (joinPairs e.1, e.2) := by
  have hitems : (e.2.map fun item ↦ Loaded.str (Base64.encode item)).mapM Loaded.base64 = some e.2 := by
    have := mapM_map_eq (f := Loaded.base64) (g := fun item ↦ Loaded.str (Base64.encode item)) (k := id) (l := e.2)
      fun item _ ↦ Base64.decode_encode item
    rwa [List.map_id] at this
  change (((e.2.map fun item ↦ Loaded.str (Base64.encode item)).mapM Loaded.base64).map (joinPairs e.1, ·)) = _
  rw [hitems]
  rfl

theorem readBackItems_map {β : Type} {l : Layout} {xs : List β} {f g : β → Value}
    (h : ∀ x ∈ xs, (f x).readBack l = g x) : readBackItems l (xs.map f) = xs.map g := by
  induction xs with
  | nil => rfl
  | cons x xs ih =>
    rw [List.map_cons, readBackItems, h x List.mem_cons_self, ih fun y hy ↦ h y (List.mem_cons_of_mem x hy),
      List.map_cons]

theorem readBack_encode (item : Bytes) :
    (Value.str (Base64.encode item)).readBack .compact = .str (Base64.encode item) :=
  Value.readBack_of_isScalar _ fun c hc ↦ (Base64.encode_isAscii item c hc).isScalar

theorem fold_sourceValue (e : Str × List Bytes) :
    ((sourceValue e).readBack .compact).fold (loadHooks F) = some (loadedSource e) := by
  have hkey : ∀ s : String, (str s).IsScalar → readBack (Layout.compact).ensureAscii (str s) = str s :=
    fun s hs ↦ readBack_of_isScalar _ hs
  have hitems : readBackItems .compact (e.2.map fun item ↦ .str (Base64.encode item)) =
      e.2.map fun item ↦ .str (Base64.encode item) := readBackItems_map fun item _ ↦ readBack_encode item
  rw [sourceValue, Value.readBack]
  simp only [readBackMembers, hkey "source" (by decide), hkey "items" (by decide), Value.readBack, hitems]
  rw [Value.fold]
  simp only [foldMembers, Value.fold,
    foldItems_map (F := F) (f := fun item ↦ Value.str (Base64.encode item))
      (g := fun item ↦ Loaded.str (Base64.encode item)) fun item _ ↦ rfl]
  simp only [loadHooks, Option.bind_eq_bind, Option.bind_some, Option.map_some]
  rw [dictOf_eq (by simp only [List.map_cons, List.map_nil]; decide), loadedSource]
  rfl

theorem depth_sourceValue (e : Str × List Bytes) : (sourceValue e).depth ≤ 2 := by
  have hitems : itemsDepth (e.2.map fun item ↦ .str (Base64.encode item)) ≤ 0 :=
    itemsDepth_map_le fun item _ ↦ le_rfl
  simp only [sourceValue, Value.depth, membersDepth]
  omega

/-- **What is read** from the text of a snapshot. -/
theorem readSnapshot_snapshotValue (F : Floats) {limit : ℕ} (hlimit : 4 ≤ limit) (sources : List (Str × List Bytes)) :
    readSnapshot F limit (dumpBytes .compact (snapshotValue sources)) =
      recover .empty [] (sources.map loadedSource) := by
  have hdepth : (snapshotValue sources).depth ≤ limit := by
    have hitems : itemsDepth (sources.map sourceValue) ≤ 2 := itemsDepth_map_le fun e _ ↦ depth_sourceValue e
    refine le_trans ?_ hlimit
    simp only [snapshotValue, Value.depth, membersDepth]
    omega
  have hkey : ∀ s : String, (str s).IsScalar → readBack (Layout.compact).ensureAscii (str s) = str s :=
    fun s hs ↦ readBack_of_isScalar _ hs
  have hfold : ((snapshotValue sources).readBack .compact).fold (loadHooks F) = some (.dict
      [(str "version", .int 1), (str "strategy", .str (str "round_robin")),
        (str "sources", .list (sources.map loadedSource))]) := by
    rw [snapshotValue, Value.readBack]
    simp only [readBackMembers, hkey "version" (by decide), hkey "strategy" (by decide),
      hkey "sources" (by decide), hkey "round_robin" (by decide), Value.readBack,
      @readBackItems_map _ .compact sources sourceValue (fun e ↦ (sourceValue e).readBack .compact) fun _ _ ↦ rfl]
    rw [Value.fold]
    simp only [foldMembers, Value.fold, foldItems_map (F := F) (f := fun e ↦ (sourceValue e).readBack .compact)
      (g := loadedSource) fun e _ ↦ fold_sourceValue e]
    simp only [loadHooks, Option.bind_eq_bind, Option.bind_some, Option.map_some]
    rw [dictOf_eq (by simp only [List.map_cons, List.map_nil]; decide)]
  rw [readSnapshot, loadBytes_dumpBytes rfl hdepth, hfold]
  change (if str "round_robin" ≠ str "round_robin" then none else if (1 : ℤ) ≠ 1 then none else
    recover .empty [] (sources.map loadedSource)) = _
  rw [if_neg fun h ↦ h rfl, if_neg fun h ↦ h rfl]

end Text

/-! ## What is restored -/

section Recover

variable {d recovered : Sources} {seen : List Str} {sources : List (Str × List Bytes)}

/-- A restore that succeeds has the sources under the names that were read. -/
theorem entries_recover (hitems : ∀ e ∈ sources, e.2 ≠ []) (hseen : ∀ k ∈ recovered.keys, k ∈ seen)
    (h : recover recovered seen (sources.map loadedSource) = some d) :
    d.entries = recovered.entries ++ sources.map fun e ↦ (joinPairs e.1, e.2) := by
  induction sources generalizing recovered seen with
  | nil =>
    rw [List.map_nil, recover, Option.some.injEq] at h
    rw [h, List.map_nil, List.append_nil]
  | cons e sources ih =>
    rw [List.forall_mem_cons] at hitems
    rw [List.map_cons, recover, readSource_loadedSource] at h
    dsimp only at h
    split_ifs at h with hmem hnil
    · exact absurd hnil hitems.1
    · have hkeys : joinPairs e.1 ∉ recovered.keys := fun hk ↦ hmem (hseen _ hk)
      rw [ih hitems.2 ?_ h, OrderedDict.entries_set_of_not_mem hkeys, List.append_assoc, List.map_cons]
      · rfl
      · intro k hk
        rw [OrderedDict.keys_set, if_neg hkeys, List.mem_append, List.mem_singleton] at hk
        rcases hk with hk | rfl
        · exact List.mem_cons_of_mem _ (hseen k hk)
        · exact List.mem_cons_self

/-- A restore succeeds when the names that are read differ. -/
theorem isSome_recover (hseen : ∀ e ∈ sources, joinPairs e.1 ∉ seen)
    (hnodup : (sources.map fun e ↦ joinPairs e.1).Nodup) :
    (recover recovered seen (sources.map loadedSource)).isSome = true := by
  induction sources generalizing recovered seen with
  | nil => rfl
  | cons e sources ih =>
    rw [List.forall_mem_cons] at hseen
    rw [List.map_cons, List.nodup_cons] at hnodup
    rw [List.map_cons, recover, readSource_loadedSource]
    dsimp only
    rw [if_neg hseen.1]
    refine ih (fun x hx ↦ ?_) hnodup.2
    rw [List.mem_cons, not_or]
    exact ⟨fun heq ↦ hnodup.1 (List.mem_map.mpr ⟨x, hx, heq⟩), hseen.2 x hx⟩

end Recover

/-- What a restore of the snapshot does. -/
theorem restore_snapshot (F : Floats) {limit : ℕ} (hlimit : 4 ≤ limit) {s : State Str Bytes} (hlive : Live s.sources) :
    restore F limit (snapshot s) ⟨.empty, s.bound⟩ =
      match recover .empty [] (s.sources.entries.map loadedSource) with
      | none => (.error .restoreError, ⟨.empty, s.bound⟩)
      | some d => (.ok (), ⟨d, s.bound⟩) := by
  have hfilter : s.sources.entries.filter (fun e ↦ !e.2.isEmpty) = s.sources.entries := by
    refine List.filter_eq_self.mpr fun e he ↦ ?_
    have hne : e.2 ≠ [] := fun hnil ↦ hlive e.1 (hnil ▸ s.sources.get?_of_mem he)
    simpa using hne
  rw [snapshot, hfilter]
  split_ifs with hnil
  · rw [hnil]
    rfl
  · rw [restore]
    dsimp only
    rw [readSnapshot_snapshotValue F hlimit]

/-! ## Future calls -/

section Future

variable {σ α : Type*} [DecidableEq σ]

/-- The item that a call returns. -/
def Event.answer : Event σ α → Option α
  | .pushed _ _ => none
  | .served _ item => some item

/-- What some calls return, in their order. -/
def answers : State σ α → List (Call σ α) → List (Option α)
  | _, [] => []
  | s, c :: cs => (call s c).2.bind Event.answer :: answers (call s c).1 cs

variable {d : OrderedDict σ (List α)} {s : State σ α} {source other : σ} {item : α} {queue : List α}
  {front rest : List (σ × List α)}

/-- A service takes the first source away, and puts it at the end with what is left. -/
theorem entries_takeNext (hlive : Live d) (h : d.entries = (source, item :: queue) :: rest) :
    (takeNext d none).1.entries = rest ++ if queue = [] then [] else [(source, queue)] := by
  have hnodup := d.nodup
  rw [h, List.map_cons, List.nodup_cons] at hnodup
  have hne : ∀ e ∈ rest, e.1 ≠ source := fun e he heq ↦ hnodup.1 (List.mem_map.mpr ⟨e, he, heq⟩)
  have hmodify : (d.modify source List.tail).entries = (source, queue) :: rest := by
    rw [OrderedDict.entries_modify, h, List.map_cons, if_pos rfl, List.tail_cons, List.cons.injEq]
    refine ⟨rfl, (List.map_congr_left fun e he ↦ ?_).trans (List.map_id' rest)⟩
    rw [if_neg (hne e he)]
  have herase : ((d.modify source List.tail).erase source).entries = rest := by
    rw [OrderedDict.entries_erase, hmodify, List.filter_cons_of_neg (by simp)]
    exact List.filter_eq_self.mpr fun e he ↦ by simpa using hne e he
  rw [takeNext_of_cons hlive h, rotate]
  split_ifs with hq
  · rw [herase, List.append_nil]
  · have hget : (d.modify source List.tail).get? source = some queue := by
      rw [OrderedDict.get?, hmodify, OrderedDict.lookup_cons_eq_ite, if_pos rfl]
    rw [OrderedDict.moveToEnd, hget]
    dsimp only
    rw [OrderedDict.entries_set_of_not_mem (OrderedDict.not_mem_keys_erase _ _), herase]

/-- A push to a new source puts it at the end. -/
theorem entries_append_of_not_mem (h : source ∉ d.keys) :
    (append d source item).entries = d.entries ++ [(source, [item])] := by
  have hget : d.get? source = none := by simpa [d.mem_keys_iff] using h
  have hne : ∀ e ∈ d.entries, e.1 ≠ source := fun e he heq ↦ h (heq ▸ List.mem_map_of_mem he)
  rw [append, hget]
  dsimp only
  rw [OrderedDict.entries_modify, OrderedDict.entries_set_of_not_mem h, List.map_append, List.map_cons, if_pos rfl]
  congr 1
  exact (List.map_congr_left fun e he ↦ by rw [if_neg (hne e he)]).trans (List.map_id' _)

theorem call_pop {name : String} (hbind : bind s name = some s) (hlive : Live s.sources)
    (h : s.sources.entries = (source, item :: queue) :: rest) :
    call s (.pop name none) =
      (⟨(takeNext s.sources none).1, s.bound⟩, some (.served source item)) := by
  rw [call, hbind]
  dsimp only
  rw [takeNext_of_cons hlive h]
  rfl

omit [DecidableEq σ] in
theorem bind_of_bound {name : String} {t : State σ α} (h : t.bound = s.bound) (hbind : bind s name = some s) :
    bind t name = some t := by
  unfold bind at hbind ⊢
  rw [h]
  rcases hbound : s.bound with - | bound
  · rw [hbound, Option.some.injEq] at hbind
    have := congrArg State.bound hbind
    rw [hbound] at this
    exact nomatch this
  · rw [hbound] at hbind
    dsimp only at hbind ⊢
    split_ifs at hbind ⊢
    rfl

/-- **The turns** of the sources in front come first. -/
theorem answers_pops {name : String} (hbind : bind s name = some s) (hlive : Live s.sources)
    (h : s.sources.entries = front ++ (source, item :: queue) :: rest) :
    (answers s (List.replicate (front.length + 1) (.pop name none))).getLast? = some (some item) := by
  induction front generalizing s rest with
  | nil =>
    rw [List.nil_append] at h
    rw [List.length_nil, Nat.zero_add, List.replicate_one, answers, answers, call_pop hbind hlive h]
    rfl
  | cons e front ih =>
    obtain ⟨first, items⟩ := e
    have hne : items ≠ [] := by
      rintro rfl
      exact hlive first (s.sources.get?_of_mem (e := (first, [])) (by rw [h]; exact List.mem_cons_self))
    obtain ⟨x, items, rfl⟩ := List.exists_cons_of_ne_nil hne
    rw [List.cons_append] at h
    have hrest := @ih ⟨(takeNext s.sources none).1, s.bound⟩
      (rest ++ if items = [] then [] else [(first, items)]) (bind_of_bound (s := s) rfl hbind) (hlive.takeNext h)
      (by rw [entries_takeNext hlive h, List.append_assoc, List.cons_append])
    have hcons : answers s (List.replicate ((first, x :: items) :: front).length.succ (.pop name none)) =
        some x :: answers ⟨(takeNext s.sources none).1, s.bound⟩
          (List.replicate (front.length + 1) (.pop name none)) := by
      rw [List.length_cons, List.replicate_succ, answers, call_pop hbind hlive h]
      rfl
    rw [Nat.succ_eq_add_one] at hcons
    rw [hcons, List.getLast?_cons, hrest]
    rfl

end Future

/-! ## Identity -/

section Identity

variable {F : Floats} {limit : ℕ} {s t : State Str Bytes}

/-- A new strategy for the same queue restores the snapshot, and all calls return what they would have
returned. -/
def Identical (F : Floats) (limit : ℕ) (s : State Str Bytes) : Prop :=
  ∃ t, restore F limit (snapshot s) ⟨.empty, s.bound⟩ = (.ok (), t) ∧ ∀ cs, answers t cs = answers s cs

theorem live_restored {d : Sources} (hlive : Live s.sources)
    (h : d.entries = s.sources.entries.map fun e ↦ (joinPairs e.1, e.2)) : Live d := by
  intro source hget
  obtain ⟨e, he, heq⟩ : ∃ e ∈ d.entries, e.2 = [] := by
    have hmem : source ∈ d.keys := (d.mem_keys_iff source).mpr (by rw [hget]; rfl)
    obtain ⟨e, he, rfl⟩ := List.mem_map.mp hmem
    exact ⟨e, he, Option.some.inj ((d.get?_of_mem he).symm.trans hget)⟩
  rw [h, List.mem_map] at he
  obtain ⟨x, hx, rfl⟩ := he
  have hnil : x.2 = [] := heq
  exact hlive x.1 (hnil ▸ s.sources.get?_of_mem hx)

theorem answers_push {name : String} {source : Str} {item : Bytes} (hbind : bind s name = some t)
    (cs : List (Call Str Bytes)) : answers s (.push name source item :: cs) =
      none :: answers { t with sources := append t.sources source item } cs := by
  rw [answers, call, hbind]
  rfl

/-- A queue that a strategy accepts, and goes on to accept. -/
theorem exists_bind (s : State Str Bytes) : ∃ name bound, ∀ sources : Sources,
    bind ⟨sources, s.bound⟩ name = some ⟨sources, bound⟩ ∧ bind ⟨sources, bound⟩ name = some ⟨sources, bound⟩ := by
  obtain ⟨sources, - | name⟩ := s
  · exact ⟨"", some "", fun _ ↦ ⟨rfl, by simp [bind]⟩⟩
  · exact ⟨name, some name, fun _ ↦ ⟨by simp [bind], by simp [bind]⟩⟩

/-- Two pushes, to a source that is there or not and to a new one, and pops up to the turn of the new one. -/
def distinguish (name : String) (old new : Str) (item item' : Bytes) (turns : ℕ) : List (Call Str Bytes) :=
  .push name old item :: .push name new item' :: List.replicate (turns + 1) (.pop name none)

/-- When the first source is there, the new one has its turn after the sources that were there. -/
theorem answers_distinguish_of_mem {name : String} {old new : Str} {item item' : Bytes} {bound : Option String}
    {sources : Sources} (hlive : Live sources) (hs : ∀ d : Sources, bind ⟨d, bound⟩ name = some ⟨d, bound⟩)
    {u : State Str Bytes} (hu : bind u name = some ⟨sources, bound⟩) (hold : old ∈ sources.keys)
    (hnew : new ∉ sources.keys) :
    (answers u (distinguish name old new item item' sources.keys.length)).getLast? = some (some item') := by
  have hkeys : (append sources old item).keys = sources.keys := by rw [keys_append, if_pos hold]
  have hentries := @entries_append_of_not_mem _ _ _ (append sources old item) new item' (by rwa [hkeys])
  have hlength : sources.keys.length = (append sources old item).entries.length := by
    rw [← hkeys, OrderedDict.keys, List.length_map]
  have hturn := @answers_pops _ _ _ ⟨append (append sources old item) new item', bound⟩ new item' []
    (append sources old item).entries [] name (hs _) hlive.append.append hentries
  rw [distinguish, answers_push hu, answers_push (hs _), hlength, List.getLast?_cons, List.getLast?_cons, hturn]
  rfl

/-- When it is not, it has its turn then. -/
theorem answers_distinguish_of_not_mem {name : String} {old new : Str} {item item' : Bytes}
    {bound : Option String} {sources : Sources} (hlive : Live sources)
    (hs : ∀ d : Sources, bind ⟨d, bound⟩ name = some ⟨d, bound⟩) {u : State Str Bytes}
    (hu : bind u name = some ⟨sources, bound⟩) (hold : old ∉ sources.keys) (hnew : new ∉ sources.keys)
    (hne : new ≠ old) :
    (answers u (distinguish name old new item item' sources.keys.length)).getLast? = some (some item) := by
  have hentries := @entries_append_of_not_mem _ _ _ _ _ item hold
  have hnew' : new ∉ (append sources old item).keys := by
    rw [keys_append, if_neg hold, List.mem_append, List.mem_singleton, not_or]
    exact ⟨hnew, hne⟩
  have hentries' := @entries_append_of_not_mem _ _ _ _ _ item' hnew'
  rw [hentries, List.append_assoc] at hentries'
  have hlength : sources.keys.length = sources.entries.length := by rw [OrderedDict.keys, List.length_map]
  have hturn := @answers_pops _ _ _ ⟨append (append sources old item) new item', bound⟩ old item []
    sources.entries [(new, [item'])] name (hs _) hlive.append.append hentries'
  rw [distinguish, answers_push hu, answers_push (hs _), hlength, List.getLast?_cons, List.getLast?_cons, hturn]
  rfl

/-- **Identity** holds exactly when no name of a held source has a surrogate pair. -/
theorem identical_iff (F : Floats) (hlimit : 4 ≤ limit) (hlive : Live s.sources) :
    Identical F limit s ↔ ∀ e ∈ s.sources.entries, hasPair e.1 = false := by
  have hitems : ∀ e ∈ s.sources.entries, e.2 ≠ [] := fun e he hnil ↦
    hlive e.1 (hnil ▸ s.sources.get?_of_mem he)
  rw [Identical, restore_snapshot F hlimit hlive]
  constructor
  · rintro ⟨t, hrestore, hanswers⟩ e he
    rcases hrecover : recover .empty [] (s.sources.entries.map loadedSource) with - | d
    · rw [hrecover] at hrestore
      cases congrArg Prod.fst hrestore
    rw [hrecover] at hrestore
    obtain rfl : ⟨d, s.bound⟩ = t := congrArg Prod.snd hrestore
    have hentries : d.entries = s.sources.entries.map fun e ↦ (joinPairs e.1, e.2) :=
      entries_recover hitems (fun k hk ↦ absurd hk List.not_mem_nil) hrecover
    have hkeys : d.keys = s.sources.keys.map joinPairs := by
      rw [OrderedDict.keys, OrderedDict.keys, hentries, List.map_map, List.map_map]
      rfl
    by_contra hpair
    -- the name of this source is not that of a restored one
    have hold : e.1 ∉ d.keys := by
      rw [hkeys, List.mem_map]
      rintro ⟨k, -, heq⟩
      exact hpair (heq ▸ hasPair_joinPairs k)
    obtain ⟨new, hnew⟩ := Infinite.exists_notMem_finset (e.1 :: (s.sources.keys ++ d.keys)).toFinset
    rw [List.mem_toFinset, List.mem_cons, List.mem_append, not_or, not_or] at hnew
    obtain ⟨name, bound, hbind⟩ := exists_bind s
    have hlast := @answers_distinguish_of_mem _ _ _ [] [byte 0] _ _ hlive (fun d ↦ (hbind d).2)
      _ (hbind s.sources).1 (List.mem_map_of_mem he) hnew.2.1
    have hlast' := @answers_distinguish_of_not_mem _ _ _ [] [byte 0] _ _ (live_restored hlive hentries)
      (fun d ↦ (hbind d).2) _ (hbind d).1 hold hnew.2.2 hnew.1
    rw [hkeys, List.length_map, hanswers] at hlast'
    rw [hlast] at hlast'
    cases hlast'
  · intro hpair
    have hnames : s.sources.entries.map (fun e ↦ (joinPairs e.1, e.2)) = s.sources.entries := by
      refine (List.map_congr_left fun e he ↦ ?_).trans (List.map_id' _)
      rw [joinPairs_of_not_hasPair (hpair e he)]
    have hnodup : (s.sources.entries.map fun e ↦ joinPairs e.1).Nodup := by
      rw [List.map_congr_left fun e he ↦ joinPairs_of_not_hasPair (hpair e he)]
      exact s.sources.nodup
    obtain ⟨d, hrecover⟩ := Option.isSome_iff_exists.mp
      (@isSome_recover .empty _ _ (fun e _ ↦ List.not_mem_nil) hnodup)
    have hentries : d.entries = s.sources.entries.map fun e ↦ (joinPairs e.1, e.2) :=
      entries_recover hitems (fun k hk ↦ absurd hk List.not_mem_nil) hrecover
    obtain rfl : d = s.sources := OrderedDict.ext (hentries.trans hnames)
    rw [hrecover]
    exact ⟨s, rfl, fun _ ↦ rfl⟩

/-- The states of a strategy: after pushes and pops, a clear of the queue it is bound to, and restores of
whatever text. -/
inductive Reachable (F : Floats) (limit : ℕ) : State Str Bytes → Prop
  | initial : Reachable F limit initial
  | call {s : State Str Bytes} (h : Reachable F limit s) (c : Call Str Bytes) : Reachable F limit (call s c).1
  | clear {s t : State Str Bytes} (h : Reachable F limit s) {queue : String} (hbind : bind s queue = some t) :
    Reachable F limit { t with sources := .empty }
  | restore {s : State Str Bytes} (h : Reachable F limit s) (state : Option Bytes) :
    Reachable F limit (restore F limit state s).2

theorem live_recover {recovered d : Sources} {seen : List Str} {entries : List Loaded} (hlive : Live recovered)
    (h : recover recovered seen entries = some d) : Live d := by
  induction entries generalizing recovered seen with
  | nil =>
    rw [recover, Option.some.injEq] at h
    rwa [← h]
  | cons entry entries ih =>
    rw [recover] at h
    rcases hread : readSource entry with - | ⟨source, items⟩
    · rw [hread] at h
      exact nomatch h
    rw [hread] at h
    dsimp only at h
    split_ifs at h with hseen hnil
    · exact ih hlive h
    · refine ih (fun other ↦ ?_) h
      rw [OrderedDict.get?_set]
      split_ifs
      · exact fun heq ↦ hnil (Option.some.inj heq)
      · exact hlive other

theorem Reachable.live (h : Reachable F limit s) : Live s.sources := by
  induction h with
  | initial => exact live_initial
  | call _ c ih => exact ih.call c
  | clear _ _ _ => exact live_initial
  | @restore s _ state ih =>
    rcases state with - | state
    · exact ih
    rw [RoundRobin.restore]
    rcases hread : readSnapshot F limit state with - | d
    · exact ih
    · unfold readSnapshot at hread
      split at hread
      · split at hread
        · split_ifs at hread
          exact live_recover live_initial hread
        · exact nomatch hread
      · exact nomatch hread

/-- **The snapshot** of a reachable state restores to an identical strategy exactly when no name of a held
source has a surrogate pair. A text that is refused changes nothing. -/
theorem round_robin_snapshot (F : Floats) {limit : ℕ} (hlimit : 4 ≤ limit) :
    (∀ s : State Str Bytes, Reachable F limit s →
      (Identical F limit s ↔ ∀ e ∈ s.sources.entries, hasPair e.1 = false)) ∧
    ∀ (state : Option Bytes) (s t : State Str Bytes) (e : Raised),
      restore F limit state s = (.error e, t) → t = s := by
  refine ⟨fun s hs ↦ identical_iff F hlimit hs.live, ?_⟩
  rintro (- | state) s t e h
  · exact nomatch congrArg Prod.fst h
  · rw [restore] at h
    rcases hread : readSnapshot F limit state with - | d
    · rw [hread] at h
      exact (congrArg Prod.snd h).symm
    · rw [hread] at h
      exact nomatch congrArg Prod.fst h

/-- Two sources, one of which has had its turn. -/
def twoSources : List (Call Str Bytes) :=
  [.push "q" (str "a") [byte 1], .push "q" (str "a") [byte 2], .push "q" (str "b") [byte 3], .pop "q" none]

theorem reachable_after {s : State Str Bytes} (h : Reachable F limit s) (cs : List (Call Str Bytes)) :
    Reachable F limit (after s cs) := by
  induction cs generalizing s with
  | nil => exact h
  | cons c cs ih => exact ih (h.call c)

theorem round_robin_snapshot_twoSources : Identical fractions 1000 (after initial twoSources) :=
  ((round_robin_snapshot fractions (by decide)).1 _ (reachable_after .initial twoSources)).mpr (by decide +kernel)

/-- A source whose name has a high surrogate in front of a low one. -/
def pairedSource : List (Call Str Bytes) := [.push "q" [⟨0xD83D, by decide⟩, ⟨0xDE00, by decide⟩] [byte 1]]

theorem not_identical_pairedSource :
    Reachable fractions 1000 (after initial pairedSource) ∧ ¬ Identical fractions 1000 (after initial pairedSource) := by
  refine ⟨reachable_after .initial pairedSource, ?_⟩
  rw [identical_iff fractions (by decide) (live_initial.after pairedSource)]
  decide +kernel

end Identity

end RoundRobin

end ScrapyExtension
