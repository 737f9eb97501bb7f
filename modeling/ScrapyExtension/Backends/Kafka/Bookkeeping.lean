import ScrapyExtension.Backends.Kafka.Watermark

/-!
# The attempt index and the offset maps

What `KafkaBackend` remembers about its deliveries is spread over five maps that separate pieces of
code change: a pop, the settlement of a token, a legacy settlement, a rebalance, a disconnect. The
index of the attempts by topic-partition is the grouping of the attempts by offset (`Indexed`), and
the three offset maps have the same keys and bound the offsets in flight (`Bounded`).

## Whose maps

An operation works on the live maps, or on those that a retired generation took along. Everything
that others can do while it is in an SDK call leaves its maps alone or empties them (`Clears`), so an
operation comes back to its own bookkeeping or to a token that is no longer active.

## The lower bound

The watermark of a topic-partition is a lower bound of the offsets in flight as long as every record
is delivered at or above it. After a nack the offsets above the nacked one come again, and one of
them may be below a watermark that has moved on in the meantime: `pop_with_ack` seeds a watermark
that is absent and leaves one that is there. `Bounded` has the lower bound as an option, so that one
induction serves the runs that deliver in time and all the others.
-/

namespace ScrapyExtension

namespace Kafka

/-! ## One topic-partition -/

/-- The three offset maps at a topic-partition. The last clause is asked for only if `strict`. -/
structure BoundedAt (strict : Prop) (inFlight : Option (Finset ℕ)) (watermark high : Option ℕ) :
    Prop where
  watermark_isSome : watermark.isSome = inFlight.isSome
  high_isSome : high.isSome = inFlight.isSome
  lt_high : ∀ pending ∈ inFlight, ∀ h ∈ high, ∀ o ∈ pending, o < h
  watermark_le : strict → ∀ pending ∈ inFlight, ∀ w ∈ watermark, ∀ o ∈ pending, w ≤ o

namespace BoundedAt

variable {strict : Prop} {inFlight : Option (Finset ℕ)} {watermark high : Option ℕ}

theorem absent : BoundedAt strict none none none := by
  refine ⟨rfl, rfl, ?_, ?_⟩
  · rintro _ ⟨⟩
  · rintro - _ ⟨⟩

theorem cases (h : BoundedAt strict inFlight watermark high) :
    (inFlight = none ∧ watermark = none ∧ high = none) ∨
      ∃ pending w top, inFlight = some pending ∧ watermark = some w ∧ high = some top ∧
        (∀ o ∈ pending, o < top) ∧ (strict → ∀ o ∈ pending, w ≤ o) := by
  obtain ⟨hw, hh, hlt, hle⟩ := h
  rcases inFlight with - | pending
  · left
    exact ⟨rfl, Option.isSome_eq_false_iff.mp hw |> Option.isNone_iff_eq_none.mp,
      Option.isSome_eq_false_iff.mp hh |> Option.isNone_iff_eq_none.mp⟩
  · right
    obtain ⟨w, rfl⟩ := Option.isSome_iff_exists.mp hw
    obtain ⟨top, rfl⟩ := Option.isSome_iff_exists.mp hh
    exact ⟨pending, w, top, rfl, rfl, rfl, hlt _ rfl _ rfl, fun hs ↦ hle hs _ rfl _ rfl⟩

theorem present {pending : Finset ℕ} {w top : ℕ} (hlt : ∀ o ∈ pending, o < top)
    (hle : strict → ∀ o ∈ pending, w ≤ o) : BoundedAt strict (some pending) (some w) (some top) := by
  refine ⟨rfl, rfl, ?_, ?_⟩
  · rintro _ ⟨⟩ _ ⟨⟩
    exact hlt
  · rintro hs _ ⟨⟩ _ ⟨⟩
    exact hle hs

/-- A delivery. -/
theorem register (h : BoundedAt strict inFlight watermark high) {o : ℕ}
    (ho : strict → ∀ w ∈ watermark, w ≤ o) :
    BoundedAt strict (some (insert o (inFlight.getD ∅))) (some (watermark.getD o))
      (some (max (high.getD 0) (o + 1))) := by
  rcases h.cases with ⟨rfl, rfl, rfl⟩ | ⟨pending, w, top, rfl, rfl, rfl, hlt, hle⟩
  · refine present (fun x hx ↦ ?_) fun _ x hx ↦ ?_
    · rcases Finset.mem_insert.mp hx with rfl | hx
      · exact lt_max_of_lt_right (Nat.lt_succ_self _)
      · exact absurd hx (Finset.notMem_empty _)
    · rcases Finset.mem_insert.mp hx with rfl | hx
      · exact le_rfl
      · exact absurd hx (Finset.notMem_empty _)
  · refine present (fun x hx ↦ ?_) fun hs x hx ↦ ?_
    · rcases Finset.mem_insert.mp hx with rfl | hx
      · exact lt_max_of_lt_right (Nat.lt_succ_self _)
      · exact lt_max_of_lt_left (hlt x hx)
    · rcases Finset.mem_insert.mp hx with rfl | hx
      · exact ho hs w rfl
      · exact hle hs x hx

/-- An offset leaves the flight, and the watermark stays. -/
theorem settle (h : BoundedAt strict inFlight watermark high) {o : ℕ} (ho : o ∈ inFlight.getD ∅)
    (b : ℕ) :
    BoundedAt strict (some ((inFlight.getD ∅).erase o)) (some (watermark.getD b)) high := by
  rcases h.cases with ⟨rfl, rfl, rfl⟩ | ⟨pending, w, top, rfl, rfl, rfl, hlt, hle⟩
  · exact absurd ho (Finset.notMem_empty _)
  · exact present (fun x hx ↦ hlt x (Finset.mem_of_mem_erase hx))
      fun hs x hx ↦ hle hs x (Finset.mem_of_mem_erase hx)

/-- The watermark moves over offsets that are not in flight. -/
theorem advance {pending : Finset ℕ} {base w : ℕ}
    (h : BoundedAt strict (some pending) (some base) high)
    (hwalk : ∀ o ∈ pending, base ≤ o → w ≤ o) :
    BoundedAt strict (some pending) (some w) high := by
  rcases h.cases with ⟨⟨⟩, -⟩ | ⟨_, _, top, ⟨⟩, ⟨⟩, rfl, hlt, hle⟩
  exact present hlt fun hs o ho ↦ hwalk o ho (hle hs o ho)

/-- A legacy settlement: an offset leaves the flight, and the bookkeeping goes with the last one. -/
theorem drop (h : BoundedAt strict inFlight watermark high) (o : ℕ)
    (hne : (inFlight.getD ∅).erase o ≠ ∅) :
    BoundedAt strict (some ((inFlight.getD ∅).erase o)) watermark high := by
  rcases h.cases with ⟨rfl, rfl, rfl⟩ | ⟨pending, w, top, rfl, rfl, rfl, hlt, hle⟩
  · exact absurd rfl hne
  · exact present (fun x hx ↦ hlt x (Finset.mem_of_mem_erase hx))
      fun hs x hx ↦ hle hs x (Finset.mem_of_mem_erase hx)

end BoundedAt

/-! ## The maps -/

namespace Maps

/-- `active_attempts_by_partition` is the grouping of `active_attempts`. -/
def Grouped (m : Maps) : Prop :=
  ∀ tp n, n ∈ m.activeAttemptsByPartition tp ↔ ∃ o, m.activeAttempts tp o = some n

/-- `in_flight`, `watermarks` and `high_water` have the same keys. -/
def SameKeys (m : Maps) : Prop :=
  ∀ tp, (m.watermarks tp).isSome = (m.inFlight tp).isSome ∧
    (m.highWater tp).isSome = (m.inFlight tp).isSome

/-- Every offset in flight is below the high water. -/
def BelowHighWater (m : Maps) : Prop := ∀ tp, ∀ o ∈ m.pending tp, ∃ high ∈ m.highWater tp, o < high

/-- Every offset in flight is at or above the watermark. -/
def AboveWatermark (m : Maps) : Prop := ∀ tp, ∀ o ∈ m.pending tp, ∃ w ∈ m.watermarks tp, w ≤ o

/-- The index of the attempts, of which there were `next` so far. -/
structure Indexed (next : ℕ) (m : Maps) : Prop where
  grouped : m.Grouped
  distinct : ∀ tp o o' n, m.activeAttempts tp o = some n → m.activeAttempts tp o' = some n → o = o'
  begun : ∀ tp o n, m.activeAttempts tp o = some n → n ≤ next

/-- The offset maps, with the lower bound if `strict`. -/
def Bounded (strict : Prop) (m : Maps) : Prop :=
  ∀ tp, BoundedAt strict (m.inFlight tp) (m.watermarks tp) (m.highWater tp)

/-- The maps are in order. -/
structure Kept (strict : Prop) (next : ℕ) (m : Maps) : Prop where
  indexed : m.Indexed next
  bounded : m.Bounded strict

variable {strict : Prop} {next : ℕ} {m : Maps}

theorem Bounded.sameKeys (h : m.Bounded strict) : m.SameKeys :=
  fun tp ↦ ⟨(h tp).watermark_isSome, (h tp).high_isSome⟩

theorem Bounded.belowHighWater (h : m.Bounded strict) : m.BelowHighWater := by
  intro tp o ho
  rw [pending] at ho
  rcases (h tp).cases with ⟨hf, -, -⟩ | ⟨p, w, top, hf, -, hh, hlt, -⟩
  · rw [hf] at ho
    exact absurd ho (Finset.notMem_empty _)
  · rw [hf] at ho
    exact ⟨top, hh, hlt o ho⟩

theorem Bounded.aboveWatermark (h : m.Bounded True) : m.AboveWatermark := by
  intro tp o ho
  rw [pending] at ho
  rcases (h tp).cases with ⟨hf, -, -⟩ | ⟨p, w, top, hf, hw, -, -, hle⟩
  · rw [hf] at ho
    exact absurd ho (Finset.notMem_empty _)
  · rw [hf] at ho
    exact ⟨w, hw, hle trivial o ho⟩

/-- The lower bound may be added where it holds. -/
theorem Bounded.strict_of_above (h : m.Bounded strict) (habove : m.AboveWatermark) :
    m.Bounded True := by
  intro tp
  refine ⟨(h tp).watermark_isSome, (h tp).high_isSome, (h tp).lt_high, fun _ p hp w hw o ho ↦ ?_⟩
  obtain ⟨w', hw', hle⟩ := habove tp o (by rw [pending, Option.mem_def.mp hp]; exact ho)
  obtain rfl : w' = w := Option.some.inj (hw'.symm.trans hw)
  exact hle

/-! ### The attempts -/

theorem Indexed.of_eq {m' : Maps} (h : m.Indexed next)
    (hactive : m'.activeAttempts = m.activeAttempts)
    (hindex : m'.activeAttemptsByPartition = m.activeAttemptsByPartition) : m'.Indexed next := by
  refine ⟨?_, ?_, ?_⟩
  · intro tp n
    rw [hindex, hactive]
    exact h.grouped tp n
  · rw [hactive]
    exact h.distinct
  · rw [hactive]
    exact h.begun

theorem Indexed.mono {next' : ℕ} (h : m.Indexed next) (hle : next ≤ next') : m.Indexed next' :=
  ⟨h.grouped, h.distinct, fun tp o n ho ↦ (h.begun tp o n ho).trans hle⟩

theorem activeAttempts_beginAttempt_self (tp : TopicPartition) (o n : ℕ) (x : ℕ) :
    (m.beginAttempt tp o n).activeAttempts tp x =
      if x = o then some n else m.activeAttempts tp x := by
  simp [beginAttempt, Function.update_apply]

theorem mem_index_beginAttempt (m : Maps) (tp : TopicPartition) (o n k : ℕ) :
    k ∈ (m.beginAttempt tp o n).activeAttemptsByPartition tp ↔
      k = n ∨ (k ∈ m.activeAttemptsByPartition tp ∧ m.activeAttempts tp o ≠ some k) := by
  simp only [beginAttempt, Function.update_self, Finset.mem_insert]
  rcases hprev : m.activeAttempts tp o with - | previous
  · simp
  · simp only [Finset.mem_erase, ne_eq, Option.some.injEq]
    constructor
    · rintro (rfl | ⟨hne, hk⟩)
      · exact .inl rfl
      · exact .inr ⟨hk, Ne.symm hne⟩
    · rintro (rfl | ⟨hk, hne⟩)
      · exact .inl rfl
      · exact .inr ⟨Ne.symm hne, hk⟩

/-- A new attempt replaces that of the same offset, in the index too. -/
theorem Indexed.beginAttempt (h : m.Indexed next) (tp : TopicPartition) (o : ℕ) :
    (m.beginAttempt tp o (next + 1)).Indexed (next + 1) := by
  have hother : ∀ tp', tp' ≠ tp →
      (m.beginAttempt tp o (next + 1)).activeAttempts tp' = m.activeAttempts tp' ∧
        (m.beginAttempt tp o (next + 1)).activeAttemptsByPartition tp' =
          m.activeAttemptsByPartition tp' := by
    intro tp' hne
    simp [Maps.beginAttempt, Function.update_of_ne hne]
  have hfresh : ∀ x, m.activeAttempts tp x ≠ some (next + 1) := by
    intro x hx
    exact absurd (h.begun tp x _ hx) (by omega)
  refine ⟨?_, ?_, ?_⟩
  · intro tp' n
    by_cases htp : tp' = tp
    · subst htp
      rw [mem_index_beginAttempt, h.grouped]
      simp only [activeAttempts_beginAttempt_self]
      constructor
      · rintro (rfl | ⟨⟨x, hx⟩, hne⟩)
        · exact ⟨o, if_pos rfl⟩
        · refine ⟨x, ?_⟩
          rw [if_neg]
          · exact hx
          · rintro rfl
            exact hne hx
      · rintro ⟨x, hx⟩
        split at hx
        · left
          exact (Option.some.inj hx).symm
        · rename_i hxo
          right
          -- An attempt of another offset is not the one that was replaced.
          exact ⟨⟨x, hx⟩, fun ho ↦ hxo (h.distinct tp' x o n hx ho)⟩
    · rw [(hother tp' htp).1, (hother tp' htp).2]
      exact h.grouped tp' n
  · intro tp' x x' n hx hx'
    by_cases htp : tp' = tp
    · subst htp
      rw [activeAttempts_beginAttempt_self] at hx hx'
      split at hx <;> split at hx'
      · rename_i hxo hxo'
        rw [hxo, hxo']
      · obtain rfl := Option.some.inj hx
        exact absurd hx' (hfresh x')
      · obtain rfl := Option.some.inj hx'
        exact absurd hx (hfresh x)
      · exact h.distinct tp' x x' n hx hx'
    · rw [(hother tp' htp).1] at hx hx'
      exact h.distinct tp' x x' n hx hx'
  · intro tp' x n hx
    by_cases htp : tp' = tp
    · subst htp
      rw [activeAttempts_beginAttempt_self] at hx
      split at hx
      · exact (Option.some.inj hx).symm.le
      · exact (h.begun tp' x n hx).trans (Nat.le_succ next)
    · rw [(hother tp' htp).1] at hx
      exact (h.begun tp' x n hx).trans (Nat.le_succ next)

/-- A settled attempt leaves both maps. -/
theorem Indexed.finishAttempt (h : m.Indexed next) (token : Token) :
    (m.finishAttempt token).Indexed next := by
  by_cases hact : m.activeAttempts token.topicPartition token.offset = some token.deliveryAttempt
  · have heq : ∀ tp x, (m.finishAttempt token).activeAttempts tp x =
        if tp = token.topicPartition ∧ x = token.offset then none else m.activeAttempts tp x := by
      intro tp x
      rw [Maps.finishAttempt, if_pos hact]
      by_cases htp : tp = token.topicPartition
      · subst htp
        simp [Function.update_apply]
      · simp [htp]
    have hle : ∀ tp x n, (m.finishAttempt token).activeAttempts tp x = some n →
        m.activeAttempts tp x = some n := by
      intro tp x n hx
      rw [heq] at hx
      split at hx
      · cases hx
      · exact hx
    refine ⟨?_, ?_, ?_⟩
    · intro tp n
      simp only [heq]
      rw [Maps.finishAttempt, if_pos hact]
      by_cases htp : tp = token.topicPartition
      · subst htp
        simp only [Function.update_self, Finset.mem_erase, true_and]
        rw [h.grouped]
        constructor
        · rintro ⟨hne, x, hx⟩
          refine ⟨x, ?_⟩
          rw [if_neg]
          · exact hx
          · rintro rfl
            exact hne (Option.some.inj (hx.symm.trans hact))
        · rintro ⟨x, hx⟩
          split at hx
          · cases hx
          · rename_i hxo
            refine ⟨?_, x, hx⟩
            rintro rfl
            exact hxo (h.distinct _ _ _ _ hx hact)
      · simp only [Function.update_of_ne htp, htp, false_and, if_false]
        exact h.grouped tp n
    · exact fun tp x x' n hx hx' ↦ h.distinct tp x x' n (hle tp x n hx) (hle tp x' n hx')
    · exact fun tp x n hx ↦ h.begun tp x n (hle tp x n hx)
  · rwa [Maps.finishAttempt, if_neg hact]

/-! ### The offsets -/

/-- A change at one topic-partition. -/
theorem Bounded.of_agree {m' : Maps} (h : m.Bounded strict) (tp : TopicPartition)
    (hother : ∀ tp' ≠ tp, m'.inFlight tp' = m.inFlight tp' ∧ m'.watermarks tp' = m.watermarks tp' ∧
      m'.highWater tp' = m.highWater tp')
    (hself : BoundedAt strict (m'.inFlight tp) (m'.watermarks tp) (m'.highWater tp)) :
    m'.Bounded strict := by
  intro tp'
  by_cases htp : tp' = tp
  · rw [htp]
    exact hself
  · obtain ⟨hf, hw, hh⟩ := hother tp' htp
    rw [hf, hw, hh]
    exact h tp'

theorem Bounded.register (h : m.Bounded strict) {tp : TopicPartition} {o : ℕ}
    (ho : strict → ∀ w ∈ m.watermarks tp, w ≤ o) : (m.register tp o).Bounded strict := by
  refine h.of_agree tp ?_ ?_
  · intro tp' hne
    simp [Maps.register, Function.update_of_ne hne]
  · have hself := (h tp).register ho
    simpa [Maps.register, pending] using hself

theorem Bounded.settle (h : m.Bounded strict) {tp : TopicPartition} {o : ℕ}
    (ho : o ∈ m.pending tp) :
    ((m.settle tp o).setWatermark tp ((m.watermarks tp).getD o)).Bounded strict := by
  refine h.of_agree tp ?_ ?_
  · intro tp' hne
    simp [Maps.settle, setWatermark, Function.update_of_ne hne]
  · have hself := (h tp).settle ho o
    simpa [Maps.settle, setWatermark, pending] using hself

theorem Bounded.prune (h : m.Bounded strict) (tp : TopicPartition) : (m.prune tp).Bounded strict := by
  rw [Maps.prune]
  split
  · refine h.of_agree tp ?_ ?_
    · intro tp' hne
      simp [Function.update_of_ne hne]
    · simpa using BoundedAt.absent
  · exact h

theorem Bounded.drop (h : m.Bounded strict) (tp : TopicPartition) (o : ℕ) :
    ((m.settle tp o).prune tp).Bounded strict := by
  have hpending : (m.settle tp o).pending tp = (m.pending tp).erase o := by
    simp [Maps.settle, pending]
  rw [Maps.prune, hpending]
  split
  · refine h.of_agree tp ?_ ?_
    · intro tp' hne
      simp [Maps.settle, Function.update_of_ne hne]
    · simpa using BoundedAt.absent
  · rename_i hne
    refine h.of_agree tp ?_ ?_
    · intro tp' hne
      simp [Maps.settle, Function.update_of_ne hne]
    · have hself := (h tp).drop o hne
      simpa [Maps.settle, pending] using hself

/-- The watermark of a walk over the offsets that are not in flight. -/
theorem Bounded.advance (h : m.Bounded strict) {tp : TopicPartition} {base high w : ℕ}
    (hflight : (m.inFlight tp).isSome) (hbase : m.watermarks tp = some base)
    (hwalk : WalkEnds (m.pending tp) base high w) : (m.setWatermark tp w).Bounded strict := by
  refine h.of_agree tp ?_ ?_
  · intro tp' hne
    simp [setWatermark, Function.update_of_ne hne]
  · obtain ⟨pending, hp⟩ := Option.isSome_iff_exists.mp hflight
    have hself := h tp
    rw [hp, hbase] at hself
    rw [Maps.pending, hp] at hwalk
    have hmoved := hself.advance (w := w) fun o ho hle ↦ ?_
    · simpa [setWatermark, hp] using hmoved
    · by_contra hlt
      exact (hwalk.2.2 o hle (not_le.mp hlt)).2 ho

/-- Put back what was just taken out. -/
theorem restore_settle (h : m.Bounded strict) {tp : TopicPartition} {o : ℕ}
    (ho : o ∈ m.pending tp) :
    ((m.settle tp o).setWatermark tp ((m.watermarks tp).getD o)).restore tp o = m := by
  rcases (h tp).cases with ⟨hf, -, -⟩ | ⟨p, w, top, hf, hw, -, -, -⟩
  · rw [pending, hf] at ho
    exact absurd ho (Finset.notMem_empty _)
  · rw [pending, hf] at ho
    have hback : insert o (p.erase o) = p := Finset.insert_erase ho
    simp only [Maps.settle, setWatermark, restore, pending, Function.update_self,
      Function.update_idem, Option.getD_some, hf, hw, hback]
    rw [← hf, ← hw, Function.update_eq_self, Function.update_eq_self]

end Maps

namespace State

variable {s t u : State}

/-! ## Whose maps -/

/-- Nothing happened to anybody's maps, except that some were emptied; and the accepting generation
is not retired. -/
structure Clears (s t : State) : Prop where
  maps : ∀ h, t.mapsOf h = s.mapsOf h ∨ t.mapsOf h = .empty
  nextDeliveryAttempt : t.nextDeliveryAttempt = s.nextDeliveryAttempt
  serving : t.retiredOf t.current = false

theorem Clears.refl (h : s.retiredOf s.current = false) : Clears s s :=
  ⟨fun _ ↦ .inl rfl, rfl, h⟩

theorem Clears.trans (h : Clears s t) (h' : Clears t u) : Clears s u where
  maps := by
    intro i
    rcases h'.maps i with heq | heq
    · rw [heq]
      exact h.maps i
    · exact .inr heq
  nextDeliveryAttempt := h'.nextDeliveryAttempt.trans h.nextDeliveryAttempt
  serving := h'.serving

theorem mapsOf_congr (hgen : t.generations = s.generations) (hmaps : t.maps = s.maps)
    (h : Option ℕ) : t.mapsOf h = s.mapsOf h := by
  simp only [mapsOf, handles, hgen, hmaps]

theorem retiredOf_congr' (hgen : t.generations = s.generations) (h : Option ℕ) :
    t.retiredOf h = s.retiredOf h := by
  simp only [retiredOf, handles, hgen]

/-- A change of other things. -/
theorem Clears.of_eq (hs : s.retiredOf s.current = false) (hgen : t.generations = s.generations)
    (hmaps : t.maps = s.maps) (hcur : t.current = s.current)
    (hnext : t.nextDeliveryAttempt = s.nextDeliveryAttempt) : Clears s t where
  maps := fun h ↦ .inl (mapsOf_congr hgen hmaps h)
  nextDeliveryAttempt := hnext
  serving := by rw [retiredOf_congr' hgen, hcur, hs]

section modifyHandles

variable {f : Handles → Handles} (hret : ∀ g, (f g).retired = g.retired)

include hret

theorem retiredOf_modifyHandles_of_eq (s : State) (h h' : Option ℕ) :
    (s.modifyHandles h f).retiredOf h' = s.retiredOf h' := by
  rw [retiredOf, retiredOf, handles_modifyHandles]
  by_cases hh : h = h' <;> cases s.handles h' <;> simp [hh, hret]

theorem mapsOf_modifyHandles (hmaps : ∀ g, (f g).maps = g.maps) (s : State) (h h' : Option ℕ) :
    (s.modifyHandles h f).mapsOf h' = s.mapsOf h' := by
  rw [mapsOf, mapsOf, handles_modifyHandles, modifyHandles_maps]
  by_cases hh : h = h' <;> cases s.handles h' <;> simp [hh, hret, hmaps]

/-- A change of a generation that leaves its maps and its retirement alone. -/
theorem clears_modifyHandles (hmaps : ∀ g, (f g).maps = g.maps) (hs : s.retiredOf s.current = false)
    (h : Option ℕ) : Clears s (s.modifyHandles h f) where
  maps := fun h' ↦ .inl (mapsOf_modifyHandles hret hmaps s h h')
  nextDeliveryAttempt := rfl
  serving := (retiredOf_modifyHandles_of_eq hret s h _).trans hs

end modifyHandles

/-- The live maps are emptied. -/
theorem Clears.of_empty (hs : s.retiredOf s.current = false) (hgen : t.generations = s.generations)
    (hmaps : t.maps = .empty) (hcur : t.current = s.current)
    (hnext : t.nextDeliveryAttempt = s.nextDeliveryAttempt) : Clears s t where
  maps := by
    intro h
    simp only [mapsOf, handles, hgen, hmaps]
    split
    · split
      · exact .inl rfl
      · exact .inr rfl
    · exact .inr rfl
  nextDeliveryAttempt := hnext
  serving := by rw [retiredOf_congr' hgen, hcur, hs]

theorem clears_advanceAssignmentEpoch (hs : s.retiredOf s.current = false) :
    Clears s s.advanceAssignmentEpoch := by
  have hclear : Clears s { s with assignmentEpoch := s.assignmentEpoch + 1 }.clearDeliveryState :=
    .of_empty hs rfl rfl rfl rfl
  rw [advanceAssignmentEpoch]
  exact hclear.trans (clears_modifyHandles (by intro g; rfl) (by intro g; rfl) hclear.serving _)

/-! ## What may happen during a call -/

theorem clears_rebalance (hs : s.retiredOf s.current = false)
    (assignment : TopicPartition → Option ℕ) : Clears s (s.rebalance assignment) := by
  rw [rebalance]
  split
  · rename_i hlive
    rw [onAssignmentChanged, if_pos hlive]
    have hadvance := clears_advanceAssignmentEpoch hs
    have hmodify : Clears s (s.advanceAssignmentEpoch.modifyHandles s.current
        ({ · with assignmentEpoch := s.assignmentEpoch + 1 })) :=
      hadvance.trans (clears_modifyHandles (by intro g; rfl) (by intro g; rfl) hadvance.serving _)
    exact hmodify.trans (.of_eq hmodify.serving rfl rfl rfl rfl)
  · exact .refl hs

/-- The retired generation takes the live maps along. -/
theorem clears_disconnect (hs : s.retiredOf s.current = false) : Clears s s.disconnect where
  maps := by
    intro h
    have hhandles : s.disconnect.handles h = if s.current = h then (s.handles h).map fun g ↦
        { g with
          retired := true, assignmentEpoch := s.assignmentEpoch, legacyRecord := s.lastRecord,
          maps := s.maps } else s.handles h := handles_modifyHandles s s.current _ h
    rw [mapsOf, hhandles]
    by_cases hcur : s.current = h
    · rw [if_pos hcur]
      have hlive : s.retiredOf h = false := hcur ▸ hs
      rw [mapsOf_of_not_retired hlive]
      rcases s.handles h with - | g
      · exact .inr rfl
      · exact .inl rfl
    · rw [if_neg hcur, mapsOf]
      rcases s.handles h with - | g
      · exact .inr rfl
      · dsimp only
        split
        · exact .inl rfl
        · exact .inr rfl
  nextDeliveryAttempt := rfl
  serving := rfl

theorem clears_publish (hs : s.retiredOf s.current = false) (hasClients : Bool) :
    Clears s (s.publish hasClients) := by
  rw [publish]
  split
  · exact .refl hs
  · refine ⟨fun h ↦ .inl ?_, rfl, ?_⟩
    · -- The new generation is not retired, so whoever is admitted on it works on the live maps.
      rcases h with - | i
      · rfl
      by_cases hi : i < s.generations.length
      · simp only [mapsOf, handles, Option.bind_some, List.getElem?_append_left hi]
      · have hold : s.generations[i]? = none := List.getElem?_eq_none (not_lt.mp hi)
        simp only [mapsOf, handles, Option.bind_some, hold,
          List.getElem?_append_right (not_lt.mp hi), List.getElem?_singleton]
        by_cases hnew : i - s.generations.length = 0 <;> simp [hnew]
    · simp [retiredOf, handles]

theorem clears_lease (hs : s.retiredOf s.current = false) : Clears s s.lease := by
  have hpub := clears_publish hs false
  rw [lease]
  split
  · split
    · exact hpub.trans (clears_modifyHandles (by intro g; rfl) (by intro g; rfl) hpub.serving _)
    · exact hpub
  · exact hpub

theorem clears_events (hs : s.retiredOf s.current = false) (es : List Event) :
    Clears s (s.events es) := by
  induction es generalizing s with
  | nil => exact .refl hs
  | cons e es ih =>
    have he : Clears s (s.happen e) := by
      cases e with
      | rebalance assignment => exact clears_rebalance hs assignment
      | disconnect => exact clears_disconnect hs
      | connect => exact clears_publish hs true
      | lease => exact clears_lease hs
    exact he.trans (ih he.serving)

/-! ## Polls -/

theorem clears_attachConsumer (hs : s.retiredOf s.current = false) (h : Option ℕ) :
    Clears s (s.attachConsumer h) := by
  rw [attachConsumer]
  split
  · exact clears_modifyHandles (by intro g; rfl) (by intro g; rfl) hs h
  · exact .refl hs

theorem clears_adoptConsumer (hs : s.retiredOf s.current = false) : Clears s s.adoptConsumer := by
  have hnew : Clears s s.newConsumer := .of_eq hs rfl rfl rfl rfl
  rw [adoptConsumer]
  split
  · exact hnew.trans (clears_modifyHandles (by intro g; rfl) (by intro g; rfl) hnew.serving _)
  · exact hnew.trans (clears_publish hnew.serving false)

theorem clears_abandonPoll (hs : s.retiredOf s.current = false) (h created : Option ℕ) :
    Clears s (s.abandonPoll h created) := by
  rcases created with - | c
  · exact .refl hs
  have hdrop : Clears s (s.dropConsumer c) := by
    rw [dropConsumer]
    split
    · exact .of_empty hs rfl rfl rfl rfl
    · exact .refl hs
  have hdetach : Clears s ((s.dropConsumer c).detachConsumer h c) := by
    refine hdrop.trans ?_
    rw [detachConsumer]
    split
    · exact clears_modifyHandles (by intro g; rfl) (by intro g; rfl) hdrop.serving h
    · exact .refl hdrop.serving
  refine hdetach.trans ?_
  have heq : s.abandonPoll h (some c) = ((s.dropConsumer c).detachConsumer h c).retireEmpty := rfl
  rw [heq, retireEmpty]
  split
  · split
    · exact ⟨fun _ ↦ .inl rfl, rfl, rfl⟩
    · exact .refl hdetach.serving
  · exact .refl hdetach.serving

theorem clears_subscribe (hs : s.retiredOf s.current = false) (h : Option ℕ) (p : Poll) :
    Clears s (s.subscribe h p).1 := by
  rw [subscribe]
  split
  · exact .refl hs
  · have hadvance := clears_advanceAssignmentEpoch hs
    have hmodify := hadvance.trans <| clears_modifyHandles
      (f := ({ · with assignmentEpoch := s.assignmentEpoch + 1 })) (fun _ ↦ rfl) (fun _ ↦ rfl)
      hadvance.serving h
    have hevents := hmodify.trans (clears_events hmodify.serving p.subscribing)
    dsimp only
    split
    · exact hevents
    · have hsubscribed := hevents.trans <| clears_modifyHandles
        (f := ({ · with assignmentEpoch := ((s.advanceAssignmentEpoch.modifyHandles h
          ({ · with assignmentEpoch := s.assignmentEpoch + 1 })).events
            p.subscribing).assignmentEpoch })) (fun _ ↦ rfl) (fun _ ↦ rfl) hevents.serving h
      exact hsubscribed.trans (.of_eq hsubscribed.serving rfl rfl rfl rfl)

/-- The state that a poll ends in. -/
def polledState : Polled → State
  | .nothing t => t
  | .delivered t _ _ => t

theorem clears_fetch {log : TopicPartition → ℕ → Bool} (hs : s.retiredOf s.current = false)
    {h created : Option ℕ} {p : Poll} {polled : Polled}
    (hp : s.fetch log h created p = some polled) : Clears s (polledState polled) := by
  have hevents := clears_events hs p.polling
  have habandon := hevents.trans (clears_abandonPoll hevents.serving h created)
  rw [fetch] at hp
  split at hp
  · obtain rfl := Option.some.inj hp
    exact habandon
  · obtain rfl := Option.some.inj hp
    rw [polledState]
    split
    · exact habandon
    · exact hevents
  · split at hp
    · obtain rfl := Option.some.inj hp
      exact habandon
    · split at hp
      · obtain rfl := Option.some.inj hp
        exact hevents.trans (.of_eq hevents.serving rfl rfl rfl rfl)
      · cases hp

theorem clears_pollRecord {log : TopicPartition → ℕ → Bool} (hs : s.retiredOf s.current = false)
    {p : Poll} {polled : Polled} (hp : s.pollRecord log p = some polled) :
    Clears s (polledState polled) := by
  have hsubscribed : ∀ (t : State) (h created : Option ℕ), Clears s t →
      t.pollSubscribed log h created p = some polled → Clears s (polledState polled) := by
    intro t h created ht hp
    have hsub := ht.trans (clears_subscribe ht.serving h p)
    rw [pollSubscribed] at hp
    split at hp
    · exact hsub.trans (clears_fetch hsub.serving hp)
    · obtain rfl := Option.some.inj hp
      exact hsub.trans (clears_abandonPoll hsub.serving h created)
  have hlease := clears_lease hs
  have hattach := hlease.trans (clears_attachConsumer hlease.serving s.lease.current)
  rw [pollRecord] at hp
  split at hp
  · exact hsubscribed _ _ _ hattach hp
  · split at hp
    · obtain rfl := Option.some.inj hp
      exact hattach
    · obtain rfl := Option.some.inj hp
      exact hattach.trans (clears_disconnect hattach.serving)
    · exact hsubscribed _ _ _ (hattach.trans (clears_adoptConsumer hattach.serving)) hp

/-! ## Everybody's maps are in order -/

/-- The maps of every operation, whatever generation it was admitted on. -/
structure Sorted (strict : Prop) (s : State) : Prop where
  serving : s.retiredOf s.current = false
  kept : ∀ h, (s.mapsOf h).Kept strict s.nextDeliveryAttempt

section sorted

variable {strict : Prop} {log : TopicPartition → ℕ → Bool} {h : Option ℕ} {token : Token}

theorem kept_empty (strict : Prop) (next : ℕ) : Maps.empty.Kept strict next := by
  refine ⟨⟨?_, ?_, ?_⟩, fun _ ↦ BoundedAt.absent⟩
  · intro tp n
    simp [Maps.empty]
  · rintro tp o o' n ⟨⟩
  · rintro tp o n ⟨⟩

theorem sorted_new (strict : Prop) : State.new.Sorted strict := by
  refine ⟨rfl, fun h ↦ ?_⟩
  rcases h with - | i
  · exact kept_empty strict 0
  · exact kept_empty strict 0

theorem Sorted.clears (hs : s.Sorted strict) (h : Clears s t) : t.Sorted strict where
  serving := h.serving
  kept := by
    intro i
    rw [h.nextDeliveryAttempt]
    rcases h.maps i with heq | heq
    · rw [heq]
      exact hs.kept i
    · rw [heq]
      exact kept_empty _ _

theorem Sorted.events (hs : s.Sorted strict) (es : List Event) : (s.events es).Sorted strict :=
  hs.clears (clears_events hs.serving es)

theorem Sorted.of_eq (hs : s.Sorted strict) (hgen : t.generations = s.generations)
    (hmaps : t.maps = s.maps) (hcur : t.current = s.current)
    (hnext : t.nextDeliveryAttempt = s.nextDeliveryAttempt) : t.Sorted strict :=
  hs.clears (.of_eq hs.serving hgen hmaps hcur hnext)

theorem Sorted.acknowledge (hs : s.Sorted strict) (epoch : ℕ) (tp : TopicPartition) (o : ℕ) :
    (s.acknowledge epoch tp o).Sorted strict := by
  rw [State.acknowledge]
  split
  · exact hs.of_eq rfl rfl rfl rfl
  · exact hs

theorem Sorted.setLive (hs : s.Sorted strict) {m : Maps} (hm : m.Kept strict s.nextDeliveryAttempt) :
    { s with maps := m }.Sorted strict := by
  refine ⟨hs.serving, fun i ↦ ?_⟩
  have hi := hs.kept i
  rw [mapsOf] at hi ⊢
  have hhandles : { s with maps := m }.handles i = s.handles i := rfl
  rw [hhandles]
  rcases hg : s.handles i with - | g
  · exact hm
  · rw [hg] at hi
    dsimp only at hi ⊢
    split
    · rename_i hret
      rwa [if_pos hret] at hi
    · exact hm

theorem mapsOf_setMaps (s : State) (h : Option ℕ) (m : Maps) : (s.setMaps h m).mapsOf h = m := by
  cases hret : s.retiredOf h with
  | false =>
    rw [setMaps_of_not_retired hret]
    exact mapsOf_of_not_retired hret
  | true =>
    obtain ⟨i, g, rfl, hg, hretired⟩ := retiredOf_eq_true hret
    rw [setMaps_of_retired hret, mapsOf, handles_modifyHandles, if_pos rfl]
    simp [handles, hg, hretired]

theorem retiredOf_setMaps (s : State) (h h' : Option ℕ) (m : Maps) :
    (s.setMaps h m).retiredOf h' = s.retiredOf h' := by
  rw [setMaps]
  split
  · split
    · exact retiredOf_modifyHandles_of_eq (f := ({ · with maps := m })) (fun _ ↦ rfl) s h h'
    · rfl
  · rfl

/-- Bookkeeping that stays in order, whoever it belongs to. -/
theorem Sorted.setMaps (hs : s.Sorted strict) {m : Maps} (hm : m.Kept strict s.nextDeliveryAttempt) :
    (s.setMaps h m).Sorted strict := by
  cases hret : s.retiredOf h with
  | false =>
    rw [setMaps_of_not_retired hret]
    exact hs.setLive hm
  | true =>
    have hset := mapsOf_setMaps s h m
    have hserving := retiredOf_setMaps s h s.current m
    rw [setMaps_of_retired hret] at hset hserving ⊢
    refine ⟨hserving.trans hs.serving, fun i ↦ ?_⟩
    by_cases hi : i = h
    · rw [hi, hset]
      exact hm
    · rw [mapsOf, handles_modifyHandles, if_neg (Ne.symm hi)]
      exact hs.kept i

theorem Sorted.modifyHandles (hs : s.Sorted strict) (h : Option ℕ) {f : Handles → Handles}
    (hret : ∀ g, (f g).retired = g.retired) (hmaps : ∀ g, (f g).maps = g.maps) :
    (s.modifyHandles h f).Sorted strict :=
  hs.clears (clears_modifyHandles hret hmaps hs.serving h)

/-! ### Pops -/

/-- A pop delivers at or above the watermark of its topic-partition. -/
def DeliversOnTime (log : TopicPartition → ℕ → Bool) (s : State) : Label → Prop
  | .pop p | .popWithAck p => ∀ t h record, s.pollRecord log p = some (.delivered t h record) →
      ∀ w ∈ t.maps.watermarks record.topicPartition, w ≤ record.offset
  | _ => True

theorem kept_register {m : Maps} {next : ℕ} (hm : m.Kept strict next) {tp : TopicPartition} {o : ℕ}
    (ho : strict → ∀ w ∈ m.watermarks tp, w ≤ o) : (m.register tp o).Kept strict next :=
  ⟨hm.indexed.of_eq rfl rfl, hm.bounded.register ho⟩

theorem Sorted.live (hs : s.Sorted strict) : s.maps.Kept strict s.nextDeliveryAttempt :=
  hs.kept none

theorem Sorted.registerLegacyRecord (hs : s.Sorted strict) {record : Record}
    (ho : strict → ∀ w ∈ s.maps.watermarks record.topicPartition, w ≤ record.offset) :
    (s.registerLegacyRecord h record).Sorted strict := by
  have hmodify := hs.modifyHandles h (f := ({ · with legacyRecord := some record }))
    (fun _ ↦ rfl) (fun _ ↦ rfl)
  exact (hmodify.setLive (kept_register hs.live ho)).of_eq rfl rfl rfl rfl

theorem Sorted.beginDelivery (hs : s.Sorted strict) {record : Record}
    (ho : strict → ∀ w ∈ s.maps.watermarks record.topicPartition, w ≤ record.offset) :
    (s.beginDelivery record).Sorted strict := by
  -- The counter of the attempts goes first, and nobody's maps care.
  have hcount : { s with nextDeliveryAttempt := s.nextDeliveryAttempt + 1 }.Sorted strict :=
    ⟨hs.serving, fun i ↦ ⟨(hs.kept i).indexed.mono (Nat.le_succ _), (hs.kept i).bounded⟩⟩
  have hregister := kept_register hs.live ho
  exact hcount.setLive ⟨hregister.indexed.beginAttempt _ _, fun tp ↦ hregister.bounded tp⟩

theorem Sorted.registerToken (hs : s.Sorted strict) {record : Record}
    (ho : strict → ∀ w ∈ s.maps.watermarks record.topicPartition, w ≤ record.offset) :
    (s.registerToken h record).Sorted strict := by
  have hbegin := hs.beginDelivery ho
  rw [State.registerToken]
  split
  · exact hbegin.modifyHandles h (fun _ ↦ rfl) (fun _ ↦ rfl)
  · exact hbegin

theorem Sorted.pop (hs : s.Sorted strict) {p : Poll} (htime : strict → DeliversOnTime log s (.pop p))
    (ht : s.pop log p = some t) : t.Sorted strict := by
  obtain ⟨polled, hpoll, rfl⟩ := Option.map_eq_some_iff.mp ht
  have hclears := clears_pollRecord hs.serving hpoll
  rcases polled with t | ⟨t, h, record⟩
  · exact hs.clears hclears
  · exact (hs.clears hclears).registerLegacyRecord fun hstrict ↦ htime hstrict t h record hpoll

theorem Sorted.popWithAck (hs : s.Sorted strict) {p : Poll}
    (htime : strict → DeliversOnTime log s (.popWithAck p)) (ht : s.popWithAck log p = some t) :
    t.Sorted strict := by
  obtain ⟨polled, hpoll, rfl⟩ := Option.map_eq_some_iff.mp ht
  have hclears := clears_pollRecord hs.serving hpoll
  rcases polled with t | ⟨t, h, record⟩
  · exact hs.clears hclears
  · exact (hs.clears hclears).registerToken fun hstrict ↦ htime hstrict t h record hpoll

/-! ### Acknowledgements -/

theorem indexed_prune {m : Maps} {next : ℕ} (hm : m.Indexed next) (tp : TopicPartition) :
    (m.prune tp).Indexed next := by
  rw [Maps.prune]
  split
  · exact hm.of_eq rfl rfl
  · exact hm

theorem bounded_finishAttempt {m : Maps} (hm : m.Bounded strict) (token : Token) :
    (m.finishAttempt token).Bounded strict := by
  rw [Maps.finishAttempt]
  split
  · exact fun tp ↦ hm tp
  · exact hm

/-- The end of a settlement. -/
theorem kept_finish {m : Maps} {next : ℕ} (hm : m.Kept strict next) (token : Token)
    (tp : TopicPartition) : ((m.finishAttempt token).prune tp).Kept strict next :=
  ⟨indexed_prune (hm.indexed.finishAttempt token) tp,
    (bounded_finishAttempt hm.bounded token).prune tp⟩

/-- The commit of a token whose offset is out of flight already. `back` are the maps with the offset
in flight again, `on` those after the commit. -/
theorem Sorted.commitToken (hs : s.Sorted strict) (hpos : token.deliveryAttempt ≠ 0)
    {compatibility : Prop} [Decidable compatibility] (hcompat : ¬ compatibility) {w : ℕ}
    (hback : ((s.mapsOf h).restore token.topicPartition token.offset).Kept strict
      s.nextDeliveryAttempt)
    (hon : ((s.mapsOf h).setWatermark token.topicPartition w).Kept strict s.nextDeliveryAttempt)
    (call : CommitCall) : (s.commitToken h token compatibility w call).Sorted strict := by
  have hbefore := clears_events hs.serving call.before
  have hsent : Clears s ((s.events call.before).commit token.topicPartition w token.offset) :=
    hbefore.trans (.of_eq hbefore.serving rfl rfl rfl rfl)
  have hacked : Clears s (((s.events call.before).commit token.topicPartition w
      token.offset).acknowledge token.assignmentEpoch token.topicPartition token.offset) := by
    refine hsent.trans ?_
    rw [State.acknowledge]
    split
    · exact .of_eq hsent.serving rfl rfl rfl rfl
    · exact .refl hsent.serving
  -- After the call the token is active only over the maps that the operation left behind.
  have hsame : ∀ t, Clears s t → t.StillActive h token compatibility → t.mapsOf h = s.mapsOf h := by
    intro t ht hact
    rw [stillActive_iff hcompat] at hact
    refine (ht.maps h).resolve_right fun hempty ↦ ?_
    have hattempt := hact.attempt hpos
    rw [hempty] at hattempt
    cases hattempt
  rw [State.commitToken]
  split
  · have hend := hsent.trans (clears_events hsent.serving call.after)
    dsimp only
    split
    · rename_i hact
      refine (hs.clears hend).setMaps ?_
      rw [hsame _ hend hact, hend.nextDeliveryAttempt]
      exact hback
    · exact hs.clears hend
  · exact hs.clears (hacked.trans (clears_events hacked.serving call.after))
  · have hend := hacked.trans (clears_events hacked.serving call.after)
    dsimp only
    split
    · rename_i hact
      refine (hs.clears hend).setMaps ?_
      rw [hsame _ hend hact, hend.nextDeliveryAttempt]
      exact kept_finish hon token _
    · exact hs.clears hend

theorem Sorted.ackToken (hs : s.Sorted strict) (hpos : token.deliveryAttempt ≠ 0)
    (call : CommitCall) : (s.ackToken h token call).Sorted strict := by
  have hm := hs.kept h
  rw [State.ackToken]
  dsimp only
  split
  · exact hs
  · split
    · exact (hs.setMaps (kept_finish hm token _)).acknowledge _ _ _
    · rename_i hmem
      rw [not_not] at hmem
      have hsettled : (((s.mapsOf h).settle token.topicPartition token.offset).setWatermark
          token.topicPartition (((s.mapsOf h).watermarks token.topicPartition).getD
            token.offset)).Kept strict s.nextDeliveryAttempt :=
        ⟨hm.indexed.of_eq rfl rfl, hm.bounded.settle hmem⟩
      split
      · exact (hs.setMaps (kept_finish hsettled token _)).acknowledge _ _ _
      · have hset := hs.setMaps (h := h) hsettled
        have hnext : (s.setMaps h (((s.mapsOf h).settle token.topicPartition
            token.offset).setWatermark token.topicPartition
              (((s.mapsOf h).watermarks token.topicPartition).getD
                token.offset))).nextDeliveryAttempt = s.nextDeliveryAttempt := by
          rw [State.setMaps]
          split
          · split <;> rfl
          · rfl
        refine hset.commitToken hpos (fun hcompat ↦ hpos hcompat.1) ?_ ?_ call
        · rw [mapsOf_setMaps, hnext, Maps.restore_settle hm.bounded hmem]
          exact hm
        · rw [mapsOf_setMaps, hnext]
          refine ⟨hsettled.indexed.of_eq rfl rfl, ?_⟩
          refine hsettled.bounded.advance ?_ ?_ (walkEnds_watermarkFrom _ _ _)
          · simp [Maps.settle, Maps.setWatermark]
          · simp [Maps.setWatermark]

theorem Sorted.disarm (hs : s.Sorted strict) (h : Option ℕ) (record : Record) :
    (s.disarm h record).Sorted strict := by
  have hmodify := hs.modifyHandles h
    (f := fun g ↦ if g.legacyRecord = some record then { g with legacyRecord := none } else g)
    (fun g ↦ by split <;> rfl) (fun g ↦ by split <;> rfl)
  exact hmodify.of_eq rfl rfl rfl rfl

theorem Sorted.dropLegacy (hs : s.Sorted strict) (h : Option ℕ) (record : Record) :
    (s.dropLegacy h record).Sorted strict := by
  have hm := hs.kept h
  have hsettled : ((s.mapsOf h).settle record.topicPartition record.offset).Indexed
      s.nextDeliveryAttempt := hm.indexed.of_eq rfl rfl
  exact hs.setMaps ⟨indexed_prune hsettled _, hm.bounded.drop _ _⟩

theorem Sorted.ackLegacy (hs : s.Sorted strict) (call : CommitCall) :
    (s.ackLegacy h call).Sorted strict := by
  rw [State.ackLegacy]
  split
  · rename_i record _ _
    dsimp only
    split
    · exact hs
    split
    · exact hs
    rw [State.commitLegacy]
    have hsent : ((s.events call.before).commit record.topicPartition (record.offset + 1)
        record.offset).Sorted strict := (hs.events call.before).of_eq rfl rfl rfl rfl
    split
    · have hend := (hsent.acknowledge (s.epochOf h) record.topicPartition record.offset).events
        call.after
      have hdisarmed := hend.disarm h record
      dsimp only
      split
      · split
        · exact hdisarmed.dropLegacy h record
        · exact hdisarmed
      · exact hend
    · exact hsent.events call.after
  · exact hs

/-! ### Negative acknowledgements -/

theorem Sorted.nackToken (hs : s.Sorted strict) (call : SeekCall) :
    (s.nackToken h token call).Sorted strict := by
  rw [State.nackToken]
  dsimp only
  split
  · exact hs
  · have hbefore := hs.events call.before
    have hsought : ((s.events call.before).seek token.topicPartition token.offset).Sorted strict :=
      hbefore.of_eq rfl rfl rfl rfl
    have hafter := hsought.events call.after
    split
    · exact hbefore
    · split
      · exact hafter
      · have hm := hafter.kept h
        have hfinish := hafter.setMaps (h := h)
          ⟨hm.indexed.finishAttempt token, bounded_finishAttempt hm.bounded token⟩
        exact hfinish.of_eq rfl rfl rfl rfl

theorem Sorted.nackLegacy (hs : s.Sorted strict) (call : SeekCall) :
    (s.nackLegacy h call).Sorted strict := by
  rw [State.nackLegacy]
  split
  · rename_i record _ _
    have hbefore := hs.events call.before
    have hsought : ((s.events call.before).seek record.topicPartition record.offset).Sorted strict :=
      hbefore.of_eq rfl rfl rfl rfl
    have hafter := hsought.events call.after
    dsimp only
    split
    · exact hbefore
    split
    · exact hafter
    have hdisarmed := hafter.disarm h record
    rw [State.finishNackLegacy]
    split
    · exact hdisarmed.dropLegacy h record
    · exact hdisarmed
  · exact hs

end sorted

end State

/-! ## Every run -/

theorem sorted_step {strict : Prop} {log : TopicPartition → ℕ → Bool} {s t : State} {a : Label}
    (hs : s.Sorted strict) (htime : strict → State.DeliversOnTime log s a)
    (ht : step log s a = some t) : t.Sorted strict := by
  cases a with
  | event e =>
    obtain rfl := Option.some.inj ht
    exact hs.events [e]
  | pop p => exact hs.pop htime ht
  | popWithAck p => exact hs.popWithAck htime ht
  | ackToken h token call =>
    obtain ⟨⟨-, hpos⟩, ⟨⟩⟩ := Option.ite_none_right_eq_some.mp ht
    exact hs.ackToken hpos call
  | ackLegacy h call =>
    obtain ⟨-, ⟨⟩⟩ := Option.ite_none_right_eq_some.mp ht
    exact hs.ackLegacy call
  | nackToken h token call =>
    obtain ⟨-, ⟨⟩⟩ := Option.ite_none_right_eq_some.mp ht
    exact hs.nackToken call
  | nackLegacy h call =>
    obtain ⟨-, ⟨⟩⟩ := Option.ite_none_right_eq_some.mp ht
    exact hs.nackLegacy call

/-- A registered offset that is not below the watermark was not below it when it came. -/
theorem le_of_register {m : Maps} {tp : TopicPartition} {o w : ℕ}
    (habove : (m.register tp o).AboveWatermark) (hw : w ∈ m.watermarks tp) : w ≤ o := by
  have hmem : o ∈ (m.register tp o).pending tp := by simp [Maps.register, Maps.pending]
  obtain ⟨w', hw', hle⟩ := habove tp o hmem
  simp only [Maps.register, Function.update_self, Option.mem_def.mp hw, Option.getD_some,
    Option.mem_def, Option.some.injEq] at hw'
  rwa [hw']

/-- A step that leaves no offset in flight below its watermark delivers in time. -/
theorem deliversOnTime_of_step {log : TopicPartition → ℕ → Bool} {s t : State} {a : Label}
    (ht : step log s a = some t) (habove : t.maps.AboveWatermark) :
    State.DeliversOnTime log s a := by
  cases a with
  | pop p =>
    intro u h record hpoll w hw
    have ht : s.pop log p = some t := ht
    rw [State.pop, hpoll] at ht
    obtain rfl := Option.some.inj ht
    exact le_of_register habove hw
  | popWithAck p =>
    intro u h record hpoll w hw
    have ht : s.popWithAck log p = some t := ht
    rw [State.popWithAck, hpoll] at ht
    obtain rfl := Option.some.inj ht
    have hmaps : (u.registerToken h record).maps = (u.beginDelivery record).maps := by
      rw [State.registerToken]
      split <;> rfl
    rw [hmaps] at habove
    -- The attempts of the new maps do not matter to the offsets.
    have hregister : (u.maps.register record.topicPartition record.offset).AboveWatermark :=
      fun tp o ho ↦ habove tp o ho
    exact le_of_register hregister hw
  | event e => trivial
  | ackToken h token call => trivial
  | ackLegacy h call => trivial
  | nackToken h token call => trivial
  | nackLegacy h call => trivial

/-- The token is of another consumer generation or another assignment epoch than the operation's, or
its attempt is not the active one of its offset: a later attempt took its place, or it is settled. -/
def State.Stale (s : State) (h : Option ℕ) (token : Token) : Prop :=
  token.consumerGeneration ≠ s.generationOf h ∨ token.assignmentEpoch ≠ s.epochOf h ∨
    (token.deliveryAttempt ≠ 0 ∧
      (s.mapsOf h).activeAttempts token.topicPartition token.offset ≠ some token.deliveryAttempt)

instance (s : State) (h : Option ℕ) (token : Token) : Decidable (s.Stale h token) :=
  inferInstanceAs (Decidable (_ ∨ _ ∨ _))

theorem State.Stale.not_active {s : State} {h : Option ℕ} {token : Token} (hs : s.Stale h token) :
    ¬ s.TokenIsActive h token := by
  rintro hact
  rcases hs with hgen | hepoch | ⟨hpos, hne⟩
  · exact hgen hact.1
  · exact hepoch hact.2.1
  · exact hne (hact.attempt hpos)

/-- **Attempt bookkeeping.** In every run, for the live maps and for those of every retired
generation, the index of the attempts is their grouping, the three offset maps have the same keys,
and the offsets in flight are below the high water. They are also at or above the watermark in all
states of a run exactly if no pop of the run delivers below the watermark. A stale token changes
nothing at all, neither by an acknowledgement nor by a negative one. -/
theorem attempt_bookkeeping (log : TopicPartition → ℕ → Bool) (as : List Label) :
    (machine log).Always (fun s ↦ ∀ h, (s.mapsOf h).Grouped ∧ (s.mapsOf h).SameKeys ∧
      (s.mapsOf h).BelowHighWater) .new as ∧
    ((machine log).Always (fun s ↦ ∀ h, (s.mapsOf h).AboveWatermark) .new as ↔
      (machine log).Along (State.DeliversOnTime log) .new as) ∧
    ∀ (s : State) (h : Option ℕ) (token : Token), s.Stale h token →
      (∀ call, s.ackToken h token call = s) ∧ ∀ call, s.nackToken h token call = s := by
  refine ⟨?_, ?_, ?_⟩
  · have hfree : (machine log).Along (fun _ _ ↦ True) .new as :=
      .of_forall fun _ _ ↦ trivial
    have hsorted : (machine log).Always (State.Sorted False) .new as :=
      hfree.always (fun s a t hs _ ht ↦ sorted_step hs False.elim ht) (State.sorted_new False)
    refine hsorted.mono fun s hs h ↦ ?_
    have hm := hs.kept h
    exact ⟨hm.indexed.grouped, hm.bounded.sameKeys, hm.bounded.belowHighWater⟩
  · refine Machine.always_iff_along (I := State.Sorted False) ?_ ?_ (State.sorted_new False) ?_
    · intro s a t hs habove ht
      refine ⟨sorted_step hs False.elim ht, fun h ↦ deliversOnTime_of_step ht (h none), ?_⟩
      intro htime
      have hstrict : s.Sorted True :=
        ⟨hs.serving, fun i ↦ ⟨(hs.kept i).indexed, (hs.kept i).bounded.strict_of_above (habove i)⟩⟩
      have hnext := sorted_step hstrict (fun _ ↦ htime) ht
      exact fun i ↦ (hnext.kept i).bounded.aboveWatermark
    · -- A poll without a result delivers nothing.
      intro s a _ _ hnone
      cases a with
      | pop p =>
        intro t h record hpoll
        have hnone : s.pop log p = none := hnone
        rw [State.pop, hpoll] at hnone
        cases hnone
      | popWithAck p =>
        intro t h record hpoll
        have hnone : s.popWithAck log p = none := hnone
        rw [State.popWithAck, hpoll] at hnone
        cases hnone
      | event e => trivial
      | ackToken h token call => trivial
      | ackLegacy h call => trivial
      | nackToken h token call => trivial
      | nackLegacy h call => trivial
    · exact fun h ↦ ((State.sorted_new True).kept h).bounded.aboveWatermark
  · intro s h token hstale
    constructor
    · intro call
      rw [State.ackToken]
      exact if_pos (.inr hstale.not_active)
    · intro call
      rw [State.nackToken]
      exact if_pos (.inr hstale.not_active)

/-- Three deliveries. The second is acknowledged, the first nacked, delivered again and
acknowledged, which moves the watermark to the third; then the second comes again. -/
def deliveredLate : List Label :=
  [.event .connect, .popWithAck (pollOf "t" [.rebalance fun _ ↦ some 4] 4),
    .popWithAck (pollOf "t" [] 5), .popWithAck (pollOf "t" [] 6),
    .ackToken (some 0) ⟨⟨"t", 0⟩, 5, 1, 2, 2⟩ ⟨[], [], .returned⟩,
    .nackToken (some 0) ⟨⟨"t", 0⟩, 4, 1, 2, 1⟩ ⟨[], [], false⟩,
    .popWithAck (pollOf "t" [] 4),
    .ackToken (some 0) ⟨⟨"t", 0⟩, 4, 1, 2, 4⟩ ⟨[], [], .returned⟩,
    .popWithAck (pollOf "t" [] 5)]

/-- An acknowledgement is admitted, and the backend disconnects before it runs. -/
def admittedBefore : List Label :=
  [.event .connect, .popWithAck (pollOf "t" [.rebalance fun _ ↦ some 4] 4), .event .lease,
    .event .disconnect]

theorem isSome_deliveredLate : ((machine fun _ _ ↦ true).run .new deliveredLate).isSome = true := rfl

/-- The token of the second delivery is superseded by the redelivery of its offset. -/
theorem attempt_bookkeeping_superseded :
    ∃ s, (machine fun _ _ ↦ true).run .new deliveredLate = some s ∧
      s.maps.activeAttempts ⟨"t", 0⟩ 5 = some 5 ∧
      s.ackToken (some 0) ⟨⟨"t", 0⟩, 5, 1, 2, 2⟩ ⟨[], [], .returned⟩ = s := by
  refine ⟨_, (Option.some_get isSome_deliveredLate).symm, by decide +kernel, ?_⟩
  exact ((attempt_bookkeeping (fun _ _ ↦ true) deliveredLate).2.2 _ _ _ (by decide +kernel)).1 _

/-- An offset is in flight below its watermark, and a token of an older consumer generation than the
backend's commits: on the generation that admitted the acknowledgement it is not stale. -/
theorem late_delivery_below_watermark :
    (¬ ∀ (log : TopicPartition → ℕ → Bool) (as : List Label) (s : State),
      (machine log).run .new as = some s → s.maps.AboveWatermark) ∧
    ¬ ∀ (log : TopicPartition → ℕ → Bool) (as : List Label) (s : State) (h : Option ℕ)
      (token : Token) (call : CommitCall), (machine log).run .new as = some s →
      token.consumerGeneration < s.consumerGeneration →
      (s.ackToken h token call).commits = s.commits := by
  constructor
  · intro h
    have hrun : ((machine fun _ _ ↦ true).run .new deliveredLate).map (fun s ↦
        (s.maps.pending ⟨"t", 0⟩, s.maps.watermarks ⟨"t", 0⟩)) = some ({5, 6}, some 6) := by
      decide +kernel
    obtain ⟨s, hs, heq⟩ := Option.map_eq_some_iff.mp hrun
    obtain ⟨hpending, hwatermark⟩ := Prod.mk.inj heq
    obtain ⟨w, hw, hle⟩ := h _ _ s hs ⟨"t", 0⟩ 5 (by rw [hpending]; decide)
    rw [hwatermark] at hw
    obtain rfl := Option.some.inj hw
    exact absurd hle (by decide)
  · intro h
    have hrun : ((machine fun _ _ ↦ true).run .new admittedBefore).map (fun s ↦
        (s.consumerGeneration, s.commits,
          (s.ackToken (some 0) ⟨⟨"t", 0⟩, 4, 1, 2, 1⟩ ⟨[], [], .returned⟩).commits)) =
        some (2, [], [⟨⟨"t", 0⟩, 5, ∅⟩]) := by decide +kernel
    obtain ⟨s, hs, heq⟩ := Option.map_eq_some_iff.mp hrun
    obtain ⟨hgen, heq⟩ := Prod.mk.inj heq
    obtain ⟨hbefore, hafter⟩ := Prod.mk.inj heq
    have hsame := h _ _ s (some 0) ⟨⟨"t", 0⟩, 4, 1, 2, 1⟩ ⟨[], [], .returned⟩ hs
      (by rw [hgen]; decide)
    rw [hbefore, hafter] at hsame
    exact absurd hsame (by decide)

end Kafka

end ScrapyExtension
