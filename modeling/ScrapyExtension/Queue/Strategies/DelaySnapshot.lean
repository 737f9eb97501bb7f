import ScrapyExtension.Json.Load
import ScrapyExtension.Program.Publish
import ScrapyExtension.Queue.Strategies.Delay

/-!
# The snapshot of a delay strategy

A snapshot has the entries in the order of release, with their delays; an overdue entry has the delay zero.
Numbers are not written: a restore sorts by the new times, then by the delays as they were written, and then
by the place in the text, and issues numbers in this order.

## Future calls

The clocks of the two processes have nothing to do with each other. From the downtime on, which is when the
delays begin to count again, the restored strategy is the old one at a fixed distance of the clocks. An entry
that became due in between is due at once, but it stays in its place among the others.
-/

namespace ScrapyExtension

open Py Json

namespace Delay

/-! ## Writing -/

/-- The object of an entry. -/
def savedValue (F : Floats) (now : ℚ) (h : Held Bytes) : Value :=
  .obj [(str "remaining", .float (F.repr (max 0 (h.readyAt - now)))),
    (str "item_b64", .str (Base64.encode h.item)),
    (str "priority", .float (F.repr h.priority))]

/-- The object of a snapshot. -/
def State.snapshotValue (F : Floats) (s : State Bytes) (wallTime : ℚ) : Value :=
  .obj [(str "version", .int 2),
    (str "strategy", .str (str "delay")),
    (str "snapshot_wall_time", .float (F.repr wallTime)),
    (str "items", .arr ((Heapq.sorted Held.key s.holding).map (savedValue F s.clock)))]

/-- `snapshot`, with the readings of both clocks. -/
def State.snapshot (F : Floats) (s : State Bytes) (wallTime : ℚ) : Option Bytes :=
  if s.holding = [] then none else some (dumpBytes .default (s.snapshotValue F wallTime))

/-! ## Reading -/

/-- One entry. -/
def readSaved (F : Floats) (v : Version) : Loaded → Option (Saved Bytes)
  | .dict ms => do
    let timing ← match v with
      | .two => (ms.lookup (str "remaining")).bind (Loaded.finiteNumber F)
      | .one => (ms.lookup (str "ready_at")).bind (Loaded.toFloat F)
    let item ← (ms.lookup (str "item_b64")).bind Loaded.base64
    let priority ← (ms.lookup (str "priority")).bind (Loaded.toFloat F)
    some ⟨timing, item, priority⟩
  | _ => none

/-- The part of `restore` that reads the text; `wallTime` is the reading of the wall clock, if it is finite. -/
def readSnapshot (F : Floats) (limit : ℕ) (wallTime : Option ℚ) (state : Bytes) : Option (Snapshot Bytes) :=
  match loadBytes F limit state with
  | some (.dict ms) =>
    match ms.lookup (str "strategy"), ms.lookup (str "version"), ms.lookup (str "items") with
    | some (.str strategy), some (.int version), some (.list items) =>
      if strategy ≠ str "delay" then none
      else if version = 1 then do
        let entries ← items.mapM (readSaved F .one)
        some ⟨.one, 0, entries⟩
      else if version = 2 then do
        let snapshotWallTime ← (ms.lookup (str "snapshot_wall_time")).bind (Loaded.toFloat F)
        let _ ← wallTime
        let entries ← items.mapM (readSaved F .two)
        some ⟨.two, snapshotWallTime, entries⟩
      else none
    | _, _, _ => none
  | _ => none

/-! ## Restoring -/

/-- What a restore raises. -/
inductive Raised
  /-- `QueueStrategyRestoreError` -/
  | restoreError
  /-- A signal. -/
  | signal
deriving DecidableEq, Repr

/-- The assignments at the end of `restore`. The counter of the tickets goes with the entries. -/
def assignments {α : Type*} (t : State α) : List (State α → State α) :=
  [fun s ↦ { s with holding := t.holding, tickets := t.tickets }, fun s ↦ { s with seq := t.seq }]

/-- The handler of these assignments. -/
def putBack {α : Type*} (previous s : State α) : State α := { previous with clock := s.clock }

/-- `restore`, after the clock was read: `stop` says where an exception comes between the assignments. -/
def restoreBytes (F : Floats) (limit : ℕ) (wallTime : Option ℚ) (stop : Option (ℕ × Raised)) :
    Option Bytes → Program (State Bytes) Raised Unit
  | none => pure ()
  | some state => do
    let s ← Program.state
    match (readSnapshot F limit wallTime state).bind (s.rebuilt (wallTime.getD 0)) with
    | none => Program.raise .restoreError
    | some rebuilt => Program.publish putBack stop (assignments (s.published rebuilt))

/-- **A restore** that returns has published what it read; one that raises has published nothing. -/
theorem wp_restoreBytes (F : Floats) (limit : ℕ) (wallTime : Option ℚ) (stop : Option (ℕ × Raised))
    (state : Bytes) (s : State Bytes) :
    Program.wp (restoreBytes F limit wallTime stop (some state))
      (fun _ t ↦ ∃ rebuilt, (readSnapshot F limit wallTime state).bind (s.rebuilt (wallTime.getD 0)) = some rebuilt ∧
        t = s.published rebuilt)
      (fun _ t ↦ t = s ∧ (stop = none →
        (readSnapshot F limit wallTime state).bind (s.rebuilt (wallTime.getD 0)) = none)) s := by
  rw [restoreBytes, Program.wp_bind, Program.wp_state]
  rcases (readSnapshot F limit wallTime state).bind (s.rebuilt (wallTime.getD 0)) with - | rebuilt
  · exact ⟨rfl, fun _ ↦ rfl⟩
  · have hput : Program.PutBack putBack (assignments (s.published rebuilt)) := by
      refine ⟨fun _ ↦ rfl, fun w hw p s ↦ ?_⟩
      simp only [assignments, List.mem_cons, List.not_mem_nil, or_false] at hw
      rcases hw with rfl | rfl <;> rfl
    refine (Program.wp_publish hput stop s).mono ?_ ?_
    · rintro _ t rfl
      exact ⟨rebuilt, rfl, rfl⟩
    · rintro _ t ⟨hstop, rfl⟩
      refine ⟨rfl, fun hnone ↦ ?_⟩
      rw [hnone] at hstop
      exact absurd hstop Bool.false_ne_true

/-! ## The order of a restore -/

section Order

variable {α : Type*} {s t : State α}

/-- What a snapshot says of an entry. -/
def Held.saved (now : ℚ) (h : Held α) : Saved α := ⟨max 0 (h.readyAt - now), h.item, h.priority⟩

/-- What a restore makes of it, for another clock and after a downtime. -/
def Held.recovered (now now' downtime : ℚ) (h : Held α) (inputOrder : ℕ) : Recovered α :=
  ⟨now' + max 0 (h.readyAt - now - downtime), max 0 (h.readyAt - now), inputOrder, h.item, h.priority⟩

theorem recoverAll_saved {downtime : ℚ} (hdowntime : 0 ≤ downtime) (now now' : ℚ) (inputOrder : ℕ)
    (hs : List (Held α)) : recoverAll .two now' downtime inputOrder (hs.map (Held.saved now)) =
      some ((hs.zipIdx inputOrder).map fun e ↦ e.1.recovered now now' downtime e.2) := by
  induction hs generalizing inputOrder with
  | nil => rfl
  | cons h hs ih =>
    have hneg : ¬ max 0 (h.readyAt - now) < 0 := not_lt.mpr (le_max_left _ _)
    have hmax : max 0 (max 0 (h.readyAt - now) - downtime) = max 0 (h.readyAt - now - downtime) := by
      rcases le_total 0 (h.readyAt - now) with hle | hle
      · rw [max_eq_right hle]
      · rw [max_eq_left hle, max_eq_left (by linarith), max_eq_left (by linarith)]
    have hone : recover .two now' downtime (h.saved now) inputOrder =
        some (h.recovered now now' downtime inputOrder) := by
      refine (if_neg hneg).trans ?_
      simp only [Held.saved, hmax, Held.recovered]
    rw [List.map_cons, recoverAll, hone]
    simp only [ih, Option.map_some, List.zipIdx_cons, List.map_cons]

/-- The entries are recovered in the order of release. -/
theorem pairwise_recovered {hs : List (Held α)} (h : hs.Pairwise fun a b ↦ a.key < b.key)
    (now now' downtime : ℚ) (inputOrder : ℕ) :
    ((hs.zipIdx inputOrder).map fun e ↦ e.1.recovered now now' downtime e.2).Pairwise
      fun a b ↦ a.key < b.key := by
  induction hs generalizing inputOrder with
  | nil => exact List.Pairwise.nil
  | cons x hs ih =>
    rw [List.pairwise_cons] at h
    rw [List.zipIdx_cons, List.map_cons]
    refine List.pairwise_cons.mpr ⟨fun e he ↦ ?_, ih h.2 _⟩
    obtain ⟨⟨y, n⟩, hy, rfl⟩ := List.mem_map.mp he
    have hle := readyAt_le_of_key_le (h.1 y (List.fst_mem_of_mem_zipIdx hy)).le
    have hn : inputOrder + 1 ≤ n := List.le_snd_of_mem_zipIdx hy
    have hready : max 0 (x.readyAt - now - downtime) ≤ max 0 (y.readyAt - now - downtime) :=
      max_le_max_left 0 (by linarith)
    have hdeadline : max 0 (x.readyAt - now) ≤ max 0 (y.readyAt - now) := max_le_max_left 0 (by linarith)
    simp only [Recovered.key, Held.recovered, Prod.Lex.lt_iff, ofLex_toLex]
    rcases hready.lt_or_eq with hlt | heq
    · exact .inl (by linarith)
    · refine .inr ⟨by rw [heq], ?_⟩
      rcases hdeadline.lt_or_eq with hlt | heq
      · exact .inl hlt
      · exact .inr ⟨heq, hn⟩

theorem map_enumerate {β : Type*} (g : ℚ → α → ℚ → β) (tickets seq : ℕ) (es : List (Recovered α)) :
    (enumerate tickets seq es).map (fun h ↦ g h.readyAt h.item h.priority) =
      es.map fun e ↦ g e.readyAt e.item e.priority := by
  induction es generalizing seq with
  | nil => rfl
  | cons e es ih => rw [enumerate, List.map_cons, List.map_cons, ih]

/-- **A restore** of what was written: the same items with the same priorities, in the same order, and the
delays without the downtime. -/
theorem rebuilt_saved (hs : Consistent s) (t : State α) (wallTime wallTime' : ℚ) :
    ∃ rebuilt, t.rebuilt wallTime' ⟨.two, wallTime, s.order.map (Held.saved s.clock)⟩ = some rebuilt ∧
      (Heapq.sorted Held.key rebuilt).map (fun h ↦ (h.readyAt - t.clock, h.item, h.priority)) =
        s.order.map fun h ↦
          (max 0 (h.readyAt - s.clock - max 0 (wallTime' - wallTime)), h.item, h.priority) := by
  have hdowntime : 0 ≤ max 0 (wallTime' - wallTime) := le_max_left _ _
  set downtime := max 0 (wallTime' - wallTime) with hset
  set recovered := (s.order.zipIdx 0).map fun e ↦ e.1.recovered s.clock t.clock downtime e.2 with hrecovered
  have hlt : s.order.Pairwise fun a b ↦ a.key < b.key := Heapq.pairwise_lt_sorted (nodup_keys hs.numbers)
  have hsorted : Heapq.sorted Recovered.key recovered = recovered :=
    Heapq.sorted_eq (pairwise_recovered hlt s.clock t.clock downtime 0) (List.Perm.refl _)
  have hready : recovered.Pairwise fun a b ↦ a.readyAt ≤ b.readyAt := by
    have := pairwise_readyAt recovered
    rwa [hsorted] at this
  have henumerate := pairwise_enumerate hready t.tickets 0
  obtain ⟨-, hperm⟩ := Heapq.heapify_spec (Heapq.Ordered.of_pairwise (henumerate.imp le_of_lt))
  refine ⟨Heapq.heapify Held.key (enumerate t.tickets 0 recovered), ?_, ?_⟩
  · simp only [State.rebuilt, ← hset, recoverAll_saved hdowntime, Option.map_some, ← hrecovered, hsorted]
  · rw [Heapq.sorted_eq henumerate hperm.symm,
      map_enumerate (fun r item priority ↦ (r - t.clock, item, priority)), hrecovered, List.map_map]
    refine Eq.trans (List.map_congr_left fun e _ ↦ ?_)
      (List.map_map.symm.trans (congrArg (List.map _) (List.zipIdx_map_fst 0 s.order)))
    simp [Held.recovered]

end Order

/-! ## The text of a snapshot -/

section Text

variable {F : Floats}

/-- An entry as it comes from `json.loads`. -/
def loadedEntry (now : ℚ) (h : Held Bytes) : Loaded :=
  .dict [(str "remaining", .float (some (max 0 (h.readyAt - now)))), (str "item_b64", .str (Base64.encode h.item)),
    (str "priority", .float (some h.priority))]

theorem isScalar_savedValue (F : Floats) (now : ℚ) (h : Held Bytes) : (savedValue F now h).IsScalar := by
  have hitem : (Base64.encode h.item).IsScalar := fun c hc ↦ (Base64.encode_isAscii h.item c hc).isScalar
  exact ⟨by decide, trivial, by decide, hitem, by decide, trivial, trivial⟩

theorem fold_savedValue (hF : F.Faithful) (now : ℚ) (h : Held Bytes) :
    (savedValue F now h).fold (loadHooks F) = some (loadedEntry now h) := by
  rw [savedValue, Value.fold]
  simp only [foldMembers, Value.fold, loadHooks, hF _, Option.bind_eq_bind, Option.bind_some]
  rw [dictOf_eq (by simp only [List.map_cons, List.map_nil]; decide), loadedEntry]

theorem readSaved_loadedEntry (now : ℚ) (h : Held Bytes) :
    readSaved F .two (loadedEntry now h) = some (h.saved now) := by
  have hitem : (List.lookup (str "item_b64") [(str "remaining", Loaded.float (some (max 0 (h.readyAt - now)))),
      (str "item_b64", .str (Base64.encode h.item)), (str "priority", .float (some h.priority))]).bind
        Loaded.base64 = some h.item := Base64.decode_encode h.item
  rw [loadedEntry, readSaved, hitem]
  rfl

/-- **What is read** from the text of a snapshot. -/
theorem readSnapshot_snapshotValue (hF : F.Faithful) {limit : ℕ} (hlimit : 3 ≤ limit) (s : State Bytes)
    (wallTime wallTime' : ℚ) :
    readSnapshot F limit (some wallTime') (dumpBytes .default (s.snapshotValue F wallTime)) =
      some ⟨.two, wallTime, s.order.map (Held.saved s.clock)⟩ := by
  have hscalar : (s.snapshotValue F wallTime).IsScalar := by
    have hitems : ItemsScalar (s.order.map (savedValue F s.clock)) :=
      itemsScalar_map fun h _ ↦ isScalar_savedValue F s.clock h
    exact ⟨by decide, trivial, by decide, (by decide : (str "delay").IsScalar), by decide, trivial, by decide,
      hitems, trivial⟩
  have hdepth : (s.snapshotValue F wallTime).depth ≤ limit := by
    have hitems : itemsDepth (s.order.map (savedValue F s.clock)) ≤ 1 := itemsDepth_map_le fun h _ ↦ le_rfl
    refine le_trans ?_ hlimit
    simp only [State.snapshotValue, Value.depth, membersDepth]
    rw [State.order] at hitems
    omega
  have hfold : (s.snapshotValue F wallTime).fold (loadHooks F) = some (.dict
      [(str "version", .int 2), (str "strategy", .str (str "delay")),
        (str "snapshot_wall_time", .float (some wallTime)),
        (str "items", .list (s.order.map (loadedEntry s.clock)))]) := by
    rw [State.snapshotValue, Value.fold]
    simp only [foldMembers, Value.fold, foldItems_map fun h _ ↦ fold_savedValue hF s.clock h]
    simp only [loadHooks, hF _, Option.bind_eq_bind, Option.bind_some, Option.map_some]
    rw [dictOf_eq (by simp only [List.map_cons, List.map_nil]; decide), State.order]
  have hentries : (s.order.map (loadedEntry s.clock)).mapM (readSaved F .two) =
      some (s.order.map (Held.saved s.clock)) := mapM_map_eq fun h _ ↦ readSaved_loadedEntry s.clock h
  rw [readSnapshot, loadBytes_dumpBytes rfl hdepth, Value.readBack_of_isScalar _ hscalar, hfold]
  have hversion : ¬ (2 : ℤ) = 1 := by decide
  have hstrategy : ¬ str "delay" ≠ str "delay" := fun h ↦ h rfl
  change (if str "delay" ≠ str "delay" then none else if (2 : ℤ) = 1 then _ else if (2 : ℤ) = 2 then _
    else none) = _
  rw [if_neg hstrategy, if_neg hversion, if_pos rfl, hentries]
  rfl

end Text

/-! ## Future calls -/

section Future

variable {α : Type*} {c c' : Config} {s t u : State α} {δ floor : ℚ}

/-- A call at another reading of the clock. -/
def Call.shift (δ : ℚ) : Call α → Call α
  | .push now item priority delay taken => .push (now + δ) item priority delay taken
  | .drain now taken => .drain (now + δ) taken
  | .clear cleared => .clear cleared
  | .close => .close
  | .restore now wallTime saved => .restore (now + δ) wallTime saved

/-- Calls before the next restore, with delays that mean the same to both strategies. -/
def Call.Alike (c c' : Config) : Call α → Prop
  | .push _ _ _ delay _ => ∀ d, delay = some d → c.effective d = c'.effective d
  | .restore .. => False
  | _ => True

/-- What the backend sees of a call. -/
def Effect.handed (e : Effect α) : List (α × ℚ) × List (α × ℚ) :=
  (e.released.map fun h ↦ (h.item, h.priority), e.direct)

/-- The entries of `t` are those of `s` at a distance of the clocks, and not before `floor`. -/
structure Rebased (δ floor : ℚ) (s t : State α) : Prop where
  clock : t.clock = s.clock + δ
  past : floor ≤ t.clock
  order : s.order.map (fun h ↦ (max floor (h.readyAt + δ), h.item, h.priority)) =
    t.order.map fun h ↦ (h.readyAt, h.item, h.priority)

theorem Rebased.read (h : Rebased δ floor s t) (now : ℚ) :
    (s.read now = none ∧ t.read (now + δ) = none) ∨
      ∃ s' t', s.read now = some s' ∧ t.read (now + δ) = some t' ∧ Rebased δ floor s' t' := by
  have hiff : t.clock ≤ now + δ ↔ s.clock ≤ now := by
    rw [h.clock]
    exact add_le_add_iff_right δ
  rw [State.read, State.read]
  by_cases hle : s.clock ≤ now
  · rw [if_pos hle, if_pos (hiff.mpr hle)]
    exact .inr ⟨_, _, rfl, rfl, rfl, h.past.trans (hiff.mpr hle), h.order⟩
  · rw [if_neg hle, if_neg (hle ∘ hiff.mp)]
    exact .inl ⟨rfl, rfl⟩

theorem takeWhile_congr {β : Type*} {p q : β → Bool} {l : List β} (h : ∀ x ∈ l, p x = q x) :
    l.takeWhile p = l.takeWhile q ∧ l.dropWhile p = l.dropWhile q := by
  induction l with
  | nil => exact ⟨rfl, rfl⟩
  | cons x l ih =>
    obtain ⟨htake, hdrop⟩ := ih fun y hy ↦ h y (List.mem_cons_of_mem x hy)
    rw [List.takeWhile_cons, List.takeWhile_cons, List.dropWhile_cons, List.dropWhile_cons, htake, hdrop,
      h x List.mem_cons_self]
    exact ⟨rfl, rfl⟩

/-- A new entry goes behind all entries that are not later. -/
theorem Consistent.order_push (hs : Consistent s) (h : Held α) (hseq : h.sequence = s.seq) (hheld : List (Held α))
    (hperm : hheld.Perm (h :: s.holding)) : Heapq.sorted Held.key hheld =
      s.order.takeWhile (fun x ↦ x.readyAt ≤ h.readyAt) ++
        h :: s.order.dropWhile fun x ↦ x.readyAt ≤ h.readyAt := by
  have hnumbers : ((h :: s.holding).map Held.sequence).Nodup := by
    refine List.nodup_cons.mpr ⟨fun hold ↦ ?_, hs.numbers⟩
    obtain ⟨x, hx, heq⟩ := List.mem_map.mp hold
    exact absurd (heq.trans hseq) (hs.fresh x hx).ne
  have hkey : ∀ x ∈ s.order, (decide (x.key < h.key)) = decide (x.readyAt ≤ h.readyAt) := by
    intro x hx
    have hlt : x.sequence < h.sequence := hseq ▸ hs.fresh x (Heapq.mem_sorted.mp hx)
    rw [decide_eq_decide, Held.key, Held.key, Prod.Lex.lt_iff, le_iff_lt_or_eq]
    exact or_congr Iff.rfl ⟨fun h ↦ h.1, fun h ↦ ⟨h, hlt⟩⟩
  obtain ⟨htake, hdrop⟩ := takeWhile_congr hkey
  rw [Heapq.sorted_congr hperm (nodup_keys hnumbers), Heapq.sorted_cons, ← State.order, htake, hdrop]

theorem effective_pos_of_not_le {d : ℚ} (h : ¬ c.effective d ≤ 0) : 0 < c.effective d := not_le.mp h

/-- **A push** into both. -/
theorem Rebased.push (h : Rebased δ floor s t) (hs : Consistent s) (ht : Consistent t) (item : α)
    (priority delay : Option ℚ) (taken : Bool) (halike : ∀ d, delay = some d → c.effective d = c'.effective d) :
    Rebased δ floor (c.push s item priority delay taken).1 (c'.push t item priority delay taken).1 ∧
      (c.push s item priority delay taken).2.handed = (c'.push t item priority delay taken).2.handed := by
  unfold Config.push
  split
  · next delay priority =>
    rw [← halike delay rfl]
    by_cases hneg : delay < 0
    · rw [if_pos hneg, if_pos hneg]
      exact ⟨h, rfl⟩
    rw [if_neg hneg, if_neg hneg]
    by_cases hdirect : c.effective delay ≤ 0
    · rw [if_pos hdirect, if_pos hdirect]
      exact ⟨h, rfl⟩
    rw [if_neg hdirect, if_neg hdirect]
    refine ⟨⟨h.clock, h.past, ?_⟩, rfl⟩
    have hlater : floor < t.clock + c.effective delay :=
      h.past.trans_lt (lt_add_of_pos_right _ (effective_pos_of_not_le hdirect))
    -- the two entries go to one place, since the order is that of the times
    set x : Held α := ⟨s.clock + c.effective delay, s.seq, item, priority, s.tickets⟩
    set y : Held α := ⟨t.clock + c.effective delay, t.seq, item, priority, t.tickets⟩
    have hplace : (fun a : Held α ↦ decide (a.readyAt ≤ x.readyAt)) =
        (fun e : ℚ × α × ℚ ↦ decide (e.1 ≤ y.readyAt)) ∘
          fun a ↦ (max floor (a.readyAt + δ), a.item, a.priority) := by
      funext a
      have hiff : a.readyAt ≤ s.clock + c.effective delay ↔
          max floor (a.readyAt + δ) ≤ t.clock + c.effective delay := by
        rw [max_le_iff, and_iff_right hlater.le, h.clock]
        constructor <;> intro hle <;> linarith
      exact decide_eq_decide.mpr hiff
    have hnew : (max floor (x.readyAt + δ), x.item, x.priority) = (y.readyAt, y.item, y.priority) := by
      have hready : s.clock + c.effective delay + δ = t.clock + c.effective delay := by
        rw [h.clock]
        ring
      simp only [x, y, hready, max_eq_right hlater.le]
    have horder := hs.order_push x rfl _ (Heapq.heappush_spec hs.heap x).2
    have horder' := ht.order_push y rfl _ (Heapq.heappush_spec ht.heap y).2
    have hplace' : (fun a : Held α ↦ decide (a.readyAt ≤ y.readyAt)) =
        (fun e : ℚ × α × ℚ ↦ decide (e.1 ≤ y.readyAt)) ∘ fun a ↦ (a.readyAt, a.item, a.priority) := rfl
    simp only [State.order] at h ⊢
    rw [horder, horder', hplace, hplace', List.map_append, List.map_append, List.map_cons, List.map_cons,
      ← List.takeWhile_map, ← List.takeWhile_map, ← List.dropWhile_map, ← List.dropWhile_map, h.order, hnew]
  · exact ⟨h, rfl⟩

/-- The push that raises is the same one. -/
theorem eq_of_taken {taken : ℕ → Bool} {k k' length : ℕ} (hk : ∀ n < k, taken n = true)
    (hk' : ∀ n < k', taken n = true) (hstop : k = length ∨ k < length ∧ taken k = false)
    (hstop' : k' = length ∨ k' < length ∧ taken k' = false) (hle : k ≤ length) (hle' : k' ≤ length) : k = k' := by
  rcases lt_trichotomy k k' with hlt | heq | hlt
  · rcases hstop with rfl | ⟨-, hfalse⟩
    · omega
    · rw [hk' k hlt] at hfalse
      exact absurd hfalse.symm Bool.false_ne_true
  · exact heq
  · rcases hstop' with rfl | ⟨-, hfalse⟩
    · omega
    · rw [hk k' hlt] at hfalse
      exact absurd hfalse.symm Bool.false_ne_true

theorem Drained.stop {taken : ℕ → Bool} {released : List (Held α)} {completed : Bool} {k : ℕ}
    (h : Drained s t taken released completed k) :
    k = s.due.length ∨ k < s.due.length ∧ taken k = false := by
  rcases completed with - | -
  · exact .inr (h.raised rfl)
  · exact .inl (h.returned rfl)

/-- The same entries are due. -/
theorem Rebased.due (h : Rebased δ floor s t) (hs : Consistent s) (ht : Consistent t) :
    s.due.map (fun x ↦ (x.item, x.priority)) = t.due.map fun x ↦ (x.item, x.priority) := by
  have hplace : (fun a : Held α ↦ decide (a.readyAt ≤ s.clock)) =
      (fun e : ℚ × α × ℚ ↦ decide (e.1 ≤ t.clock)) ∘
        fun a ↦ (max floor (a.readyAt + δ), a.item, a.priority) := by
    funext a
    have hiff : a.readyAt ≤ s.clock ↔ max floor (a.readyAt + δ) ≤ t.clock := by
      rw [max_le_iff, and_iff_right h.past, h.clock]
      exact (add_le_add_iff_right δ).symm
    exact decide_eq_decide.mpr hiff
  have hplace' : (fun a : Held α ↦ decide (a.readyAt ≤ t.clock)) =
      (fun e : ℚ × α × ℚ ↦ decide (e.1 ≤ t.clock)) ∘ fun a ↦ (a.readyAt, a.item, a.priority) := rfl
  have hdue : (ready s.clock s.order).map (fun h ↦ (max floor (h.readyAt + δ), h.item, h.priority)) =
      (ready t.clock t.order).map fun h ↦ (h.readyAt, h.item, h.priority) := by
    rw [ready, ready, hplace, hplace', ← List.takeWhile_map, ← List.takeWhile_map, h.order]
  rw [hs.due_eq, ht.due_eq]
  have hsnd := congrArg (List.map Prod.snd) hdue
  simpa only [List.map_map, Function.comp_def] using hsnd

/-- **A drain** of both. -/
theorem Rebased.drain (h : Rebased δ floor s t) (hs : Consistent s) (ht : Consistent t) (taken : ℕ → Bool) :
    Rebased δ floor (s.drain taken).1 (t.drain taken).1 ∧
      (s.drain taken).2.1.handed = (t.drain taken).2.1.handed := by
  obtain ⟨-, he, k, hk⟩ := @Consistent.drain _ s (s.drain taken).1 hs taken (s.drain taken).2.1 _ rfl
  obtain ⟨-, he', k', hk'⟩ := @Consistent.drain _ t (t.drain taken).1 ht taken (t.drain taken).2.1 _ rfl
  have hdue := h.due hs ht
  have hlength : s.due.length = t.due.length := by
    have := congrArg List.length hdue
    rwa [List.length_map, List.length_map] at this
  obtain rfl : k = k' :=
    eq_of_taken hk.pushed hk'.pushed hk.stop (hlength ▸ hk'.stop) hk.le (hlength ▸ hk'.le)
  refine ⟨⟨?_, ?_, ?_⟩, ?_⟩
  · rw [hk.frame.2.1, hk'.frame.2.1]
    exact h.clock
  · rw [hk'.frame.2.1]
    exact h.past
  · rw [hk.order, hk'.order, List.map_drop, List.map_drop, h.order]
  · rw [he, he']
    simp only [Effect.handed, hk.released, hk'.released, List.map_take, hdue]

/-- **A call** of both. -/
theorem Rebased.call (h : Rebased δ floor s t) (hs : Consistent s) (ht : Consistent t) (a : Call α)
    (halike : a.Alike c c') : (c.call s a = none ∧ c'.call t (a.shift δ) = none) ∨
      ∃ s' t' e e', c.call s a = some (s', e) ∧ c'.call t (a.shift δ) = some (t', e') ∧
        Rebased δ floor s' t' ∧ e.handed = e'.handed := by
  have hdiscard : Rebased δ floor s.discard.1 t.discard.1 := ⟨h.clock, h.past, rfl⟩
  rcases a with ⟨now, item, priority, delay, taken⟩ | ⟨now, taken⟩ | cleared | - | ⟨now, wallTime, saved⟩
  · rw [Config.call, Call.shift, Config.call]
    rcases h.read now with ⟨hnone, hnone'⟩ | ⟨s', t', hread, hread', h'⟩
    · rw [hnone, hnone']
      exact .inl ⟨rfl, rfl⟩
    · rw [hread, hread']
      obtain ⟨hpush, hhanded⟩ := h'.push (hs.read hread).1 (ht.read hread').1 item priority delay taken halike
      exact .inr ⟨_, _, _, _, rfl, rfl, hpush, hhanded⟩
  · rw [Config.call, Call.shift, Config.call]
    rcases h.read now with ⟨hnone, hnone'⟩ | ⟨s', t', hread, hread', h'⟩
    · rw [hnone, hnone']
      exact .inl ⟨rfl, rfl⟩
    · rw [hread, hread']
      obtain ⟨hdrain, hhanded⟩ := h'.drain (hs.read hread).1 (ht.read hread').1 taken
      exact .inr ⟨_, _, _, _, rfl, rfl, hdrain, hhanded⟩
  · rcases cleared with - | -
    · exact .inr ⟨s, t, .none, .none, rfl, rfl, h, rfl⟩
    · exact .inr ⟨_, _, _, _, rfl, rfl, hdiscard, rfl⟩
  · exact .inr ⟨_, _, _, _, rfl, rfl, hdiscard, rfl⟩
  · exact halike.elim

/-- **All calls**: the backend sees the same. -/
theorem Rebased.effects (h : Rebased δ floor s t) (hs : Consistent s) (ht : Consistent t) (as : List (Call α))
    (halike : ∀ a ∈ as, a.Alike c c') :
    (c.effects s as).map Effect.handed = (c'.effects t (as.map (Call.shift δ))).map Effect.handed := by
  induction as generalizing s t with
  | nil => rfl
  | cons a as ih =>
    rw [List.forall_mem_cons] at halike
    rw [List.map_cons]
    rcases h.call hs ht a halike.1 with ⟨hnone, hnone'⟩ | ⟨s', t', e, e', hcall, hcall', h', hhanded⟩
    · rw [Config.effects, Config.effects, hnone, hnone']
    · rw [effects_cons hcall, effects_cons hcall', List.map_cons, List.map_cons, hhanded,
        ih h' (hs.call hcall).1 (ht.call hcall').1 halike.2]

end Future

/-! ## Round trip -/

section RoundTrip

variable {c c' : Config} {s t : State Bytes}

/-- What a restore makes of the snapshot of `s`, after the downtime. -/
structure Restored (c c' : Config) (s t : State Bytes) (downtime : ℚ) : Prop where
  /-- The items, with their priorities and delays, in the order of release: what is overdue has no delay. -/
  order : t.order.map (fun h ↦ (h.readyAt - t.clock, h.item, h.priority)) =
    s.order.map fun h ↦ (max 0 (h.readyAt - s.clock - downtime), h.item, h.priority)
  /-- The backend sees the same of all calls before the next restore, from the end of the downtime on. -/
  future : ∀ as : List (Call Bytes), (∀ a ∈ as, a.Alike c c') →
    (c'.effects t (as.map (Call.shift (t.clock - (s.clock + downtime))))).map Effect.handed =
      (c.effects { s with clock := s.clock + downtime } as).map Effect.handed

theorem Restored.of_order {downtime : ℚ} (hs : Consistent s) (ht : Consistent t)
    (horder : t.order.map (fun h ↦ (h.readyAt - t.clock, h.item, h.priority)) =
      s.order.map fun h ↦ (max 0 (h.readyAt - s.clock - downtime), h.item, h.priority)) :
    Restored c c' s t downtime := by
  refine ⟨horder, fun as halike ↦ ?_⟩
  have hs' : Consistent { s with clock := s.clock + downtime } := ⟨hs.heap, hs.numbers, hs.fresh, hs.issued⟩
  have hrebased : Rebased (t.clock - (s.clock + downtime)) t.clock { s with clock := s.clock + downtime } t := by
    refine ⟨(add_sub_cancel _ _).symm, le_rfl, ?_⟩
    have hback := congrArg (List.map fun e : ℚ × Bytes × ℚ ↦ (e.1 + t.clock, e.2)) horder
    simp only [List.map_map, Function.comp_def, sub_add_cancel] at hback
    rw [hback]
    refine List.map_congr_left fun h _ ↦ ?_
    rw [← max_add_add_right, zero_add]
    congr 2
    ring
  exact (hrebased.effects hs' ht as halike).symm

/-- One entry that is overdue at 3, two that become due in the next two seconds, and one of a later time. -/
def fourDelays : List (Call Bytes) :=
  [.push 0 [byte 7] (some 0) (some 5) true, .push 0 [byte 8] (some 1) (some 4) true,
    .push 1 [byte 9] (some 0) (some 1) true, .push 1 [byte 10] (some 0) (some 8) true]

theorem isSome_fourDelays :
    ((machine immediate 0).run (machine immediate 0).init fourDelays).isSome = true := by decide +kernel

/-- The state after them. -/
def delayed : State Bytes := Option.get _ isSome_fourDelays

/-- A later time. -/
def late : State Bytes := { delayed with clock := 3 }

end RoundTrip

end Delay

end ScrapyExtension
