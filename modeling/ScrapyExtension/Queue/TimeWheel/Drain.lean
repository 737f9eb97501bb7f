import Mathlib.Data.List.GetD
import Mathlib.Data.List.TakeWhile
import ScrapyExtension.Queue.TimeWheel.Slots

/-!
# The loop of a drain

While a drain goes on, a slot holds what it held at the start, without the entries that were pushed; so does
the heap, in some order. The indices of the entries that are gone from a slot are those at which the list
at the start has an entry that was pushed: hence the number of them in front of an entry is how far it has
moved.

A candidate that comes from the heap is at its root. For the root is due as well and was not pushed, so
it is among the candidates that are left, and these are sorted like the heap.
-/

namespace ScrapyExtension

open Py

namespace TimeWheel

variable {α : Type*}

/-- What holds between two calls. -/
structure Consistent (c : Config) (s : State α) : Prop where
  size : s.wheel.length = c.wheelSize
  slots : ∀ r ∈ s.wheel, r = .ofHeld r.contents
  ascending : ∀ r ∈ s.wheel, r.sequences.Pairwise (· < ·)
  later : ∀ r ∈ s.wheel, ∀ h ∈ r.contents, s.lastTick < c.readyTick h.readyAt
  placed : ∀ i, ∀ h ∈ (slot s.wheel i).contents, c.slotAt h.readyAt = i
  heap : Heapq.Ordered Held.key s.overflow
  issued : List.Subperm (held s) s.issued
  numbered : (s.issued.map Held.sequence).Pairwise (· < ·)
  fresh : ∀ h ∈ s.issued, h.sequence < s.seq
  tick : s.lastTick ≤ c.tickAt s.clock

section

variable {c : Config} {s : State α}

theorem slot_mem {wheel : List (Slot α)} {i : ℕ} (h : i < wheel.length) : slot wheel i ∈ wheel := by
  rw [slot, List.getD_eq_getElem _ _ h]
  exact List.getElem_mem h

theorem contents_slot_of_le {wheel : List (Slot α)} {i : ℕ} (h : wheel.length ≤ i) :
    (slot wheel i).contents = [] := by
  rw [slot, List.getD_eq_default _ _ h]
  rfl

/-- An operation on all slots that keeps the empty one. -/
theorem slot_map {wheel : List (Slot α)} {f : Slot α → Slot α} (hf : f ⟨[], [], none⟩ = ⟨[], [], none⟩)
    (i : ℕ) : slot (wheel.map f) i = f (slot wheel i) := by
  rw [slot, slot, List.getD_eq_getElem?_getD, List.getD_eq_getElem?_getD, List.getElem?_map]
  cases wheel[i]? with
  | none => exact hf.symm
  | some r => rfl

theorem mem_held_of_slot {i : ℕ} {h : Held α} (hmem : h ∈ (slot s.wheel i).contents) : h ∈ held s := by
  rcases lt_or_ge i s.wheel.length with hlt | hge
  · exact List.mem_append_left _ (List.mem_flatMap.mpr ⟨_, slot_mem hlt, hmem⟩)
  · rw [contents_slot_of_le hge] at hmem
    exact absurd hmem List.not_mem_nil

theorem mem_held_of_overflow {h : Held α} (hmem : h ∈ s.overflow) : h ∈ held s :=
  List.mem_append_right _ hmem

theorem Consistent.nodup_sequences (hc : Consistent c s) : ((held s).map Held.sequence).Nodup := by
  have hissued : (s.issued.map Held.sequence).Nodup := hc.numbered.imp fun h ↦ h.ne
  obtain ⟨l, hperm, hsub⟩ := hc.issued
  exact (hperm.map _).nodup_iff.mp (hissued.sublist (hsub.map _))

theorem Consistent.nodup_held (hc : Consistent c s) : (held s).Nodup := hc.nodup_sequences.of_map _

/-- An entry is known by its number. -/
theorem Consistent.eq_of_sequence (hc : Consistent c s) {a b : Held α} (ha : a ∈ held s) (hb : b ∈ held s)
    (h : a.sequence = b.sequence) : a = b :=
  List.inj_on_of_nodup_map hc.nodup_sequences ha hb h

theorem Consistent.nodup_contents (hc : Consistent c s) (i : ℕ) : (slot s.wheel i).contents.Nodup := by
  rcases lt_or_ge i s.wheel.length with hlt | hge
  · have hwheel := hc.nodup_held.of_append_left
    rw [List.nodup_flatMap] at hwheel
    exact hwheel.1 _ (slot_mem hlt)
  · rw [contents_slot_of_le hge]
    exact List.nodup_nil

/-- An entry is in one slot. -/
theorem Consistent.not_mem_slot (hc : Consistent c s) {i j : ℕ} {h : Held α}
    (hmem : h ∈ (slot s.wheel i).contents) (hij : i ≠ j) : h ∉ (slot s.wheel j).contents := by
  intro hmem'
  exact hij ((hc.placed i h hmem).symm.trans (hc.placed j h hmem'))

theorem Consistent.not_mem_overflow (hc : Consistent c s) {i : ℕ} {h : Held α}
    (hmem : h ∈ (slot s.wheel i).contents) : h ∉ s.overflow := by
  intro hover
  have hlt : i < s.wheel.length := by
    by_contra hge
    rw [contents_slot_of_le (not_lt.mp hge)] at hmem
    exact List.not_mem_nil hmem
  have hdisjoint := List.disjoint_of_nodup_append hc.nodup_held
  exact hdisjoint (List.mem_flatMap.mpr ⟨_, slot_mem hlt, hmem⟩) hover

end

/-! ## Indices -/

section Indices

variable {p : Held α → Bool} {A B : List (Held α)} {h : Held α}

theorem findIdxs_split (hp : p h = false) :
    (A ++ h :: B).findIdxs p = A.findIdxs p ++ B.findIdxs p (A.length + 1) := by
  rw [List.findIdxs_append, List.findIdxs_cons, hp]
  simp

/-- How many entries in front of `h` are gone. -/
theorem bisectLeft_findIdxs (hp : p h = false) :
    bisectLeft ((A ++ h :: B).findIdxs p) A.length = (A.findIdxs p).length := by
  have hA : ∀ x ∈ A.findIdxs p, decide (x < A.length) = true := by
    intro x hx
    have := List.lt_add_of_mem_findIdxs x hx
    simpa using this
  have hB : (B.findIdxs p (A.length + 1)).takeWhile (· < A.length) = [] := by
    rw [List.takeWhile_eq_nil_iff]
    intro hpos
    have := List.ge_of_mem_findIdxs _ (List.get_mem (B.findIdxs p (A.length + 1)) ⟨0, hpos⟩)
    rw [decide_eq_true_eq]
    omega
  rw [bisectLeft, findIdxs_split hp, List.takeWhile_append_of_pos hA, hB, List.append_nil]

/-- Where `h` is, once these are gone. -/
theorem length_sub_findIdxs : A.length - (A.findIdxs p).length = (A.filter fun a ↦ !p a).length := by
  have hcount := List.length_eq_countP_add_countP p (l := A)
  rw [List.length_findIdxs]
  rw [List.countP_eq_length_filter (p := fun a ↦ ¬ p a = true)] at hcount
  have hfilter : (A.filter fun a ↦ decide ¬ p a = true) = A.filter fun a ↦ !p a := by
    apply List.filter_congr
    intro a _
    cases p a <;> rfl
  rw [hfilter] at hcount
  omega

theorem insertIdx_length_append (X Y : List ℕ) (o : ℕ) : (X ++ Y).insertIdx X.length o = X ++ o :: Y := by
  induction X with
  | nil => rfl
  | cons x X ih => rw [List.cons_append, List.length_cons, List.insertIdx_succ_cons, ih, List.cons_append]

end Indices

/-! ## One candidate -/

section Loop

variable [DecidableEq α] {c : Config} {s : State α} {p : Progress α}

/-- What holds while the drain of `s` goes on. -/
structure Draining (s : State α) (p : Progress α) : Prop where
  wheel : p.wheel = s.wheel.map fun r ↦ .ofHeld (r.contents.filter (· ∉ p.pushed))
  heap : Heapq.Ordered Held.key p.overflow
  overflow : p.overflow.Perm (s.overflow.filter (· ∉ p.pushed))
  removed : ∀ i, p.removed i = (slot s.wheel i).contents.findIdxs (· ∈ p.pushed)

theorem Draining.start (hc : Consistent c s) : Draining s ⟨s.wheel, s.overflow, fun _ ↦ [], []⟩ where
  wheel := by
    have hall : ∀ r ∈ s.wheel, Slot.ofHeld (r.contents.filter (· ∉ ([] : List (Held α)))) = r := by
      intro r hr
      simpa using (hc.slots r hr).symm
    exact (List.map_id' s.wheel).symm.trans (List.map_congr_left fun r hr ↦ (hall r hr).symm)
  heap := hc.heap
  overflow := by simp
  removed i := by
    symm
    rw [List.findIdxs_eq_nil_iff]
    simp

theorem Draining.slot_eq (hd : Draining s p) (i : ℕ) :
    slot p.wheel i = .ofHeld ((slot s.wheel i).contents.filter (· ∉ p.pushed)) := by
  rw [hd.wheel, slot_map]
  rfl

/-- A list that does not have the new entry. -/
theorem filter_pushed_of_not_mem {l pushed : List (Held α)} {h : Held α} (hl : h ∉ l) :
    l.filter (· ∉ pushed ++ [h]) = l.filter (· ∉ pushed) := by
  apply List.filter_congr
  intro a ha
  have hne : a ≠ h := fun e ↦ hl (e ▸ ha)
  simp [hne]

theorem findIdxs_pushed_of_not_mem {l pushed : List (Held α)} {h : Held α} (hl : h ∉ l) (n : ℕ) :
    l.findIdxs (· ∈ pushed ++ [h]) n = l.findIdxs (· ∈ pushed) n := by
  induction l generalizing n with
  | nil => rfl
  | cons a l ih =>
    rw [List.mem_cons, not_or] at hl
    have hne : ¬ a = h := fun e ↦ hl.1 e.symm
    rw [List.findIdxs_cons, List.findIdxs_cons, ih hl.2]
    simp [hne]

/-- A push that raises leaves all as it was. -/
theorem Draining.modify_recompute (hd : Draining s p) (i : ℕ) : p.wheel.modify i Slot.recompute = p.wheel := by
  rw [hd.wheel]
  apply List.ext_getElem?
  intro j
  rw [List.getElem?_modify, List.getElem?_map]
  cases s.wheel[j]? with
  | none => rfl
  | some r =>
    simp only [Option.map_some, Option.map_eq_map]
    split_ifs
    · rw [Slot.recompute_ofHeld]
    · rfl

/-- The deletion of an entry of slot `i`, in the whole wheel. -/
theorem Draining.modify_delete (hd : Draining s p) (hc : Consistent c s) {i : ℕ} {h : Held α}
    {A B : List (Held α)} (hcontents : (slot s.wheel i).contents = A ++ h :: B) (hnot : h ∉ p.pushed) :
    p.wheel.modify i (fun r ↦ (r.delete (A.filter (· ∉ p.pushed)).length).recompute) =
      s.wheel.map fun r ↦ .ofHeld (r.contents.filter (· ∉ p.pushed ++ [h])) := by
  have hnodup := hc.nodup_contents i
  rw [hcontents, List.nodup_middle, List.nodup_cons, List.mem_append, not_or] at hnodup
  rw [hd.wheel]
  apply List.ext_getElem?
  intro j
  rw [List.getElem?_modify, List.getElem?_map, List.getElem?_map]
  cases hj : s.wheel[j]? with
  | none => rfl
  | some r =>
    have hr : slot s.wheel j = r := by rw [slot, List.getD_eq_getElem?_getD, hj, Option.getD_some]
    simp only [Option.map_some, Option.map_eq_map]
    split_ifs with hij
    · subst hij
      rw [hr] at hcontents
      rw [Slot.delete_ofHeld, hcontents]
      simp only [List.filter_append, List.filter_cons]
      rw [if_pos (by simpa using hnot), if_neg (by simp), List.eraseIdx_append_of_length_le le_rfl,
        Nat.sub_self, List.eraseIdx_cons_zero, filter_pushed_of_not_mem hnodup.1.1,
        filter_pushed_of_not_mem hnodup.1.2]
    · rw [filter_pushed_of_not_mem]
      rw [← hr]
      apply hc.not_mem_slot _ hij
      rw [hcontents]
      simp

omit [DecidableEq α] in
/-- Where the drain finds an entry. -/
theorem lookup_origins {now : ℚ} {scanned : List ℕ} {i : ℕ} {h : Held α} (hi : i ∈ scanned)
    (hmem : h ∈ (slot s.wheel i).contents) (hdue : h.readyAt ≤ now) (hc : Consistent c s) :
    ∃ A B, (slot s.wheel i).contents = A ++ h :: B ∧
      (origins s.wheel now scanned).reverse.lookup (i, h.sequence) = some A.length := by
  have hkeys : ∀ o, ((i, h.sequence), o) ∈ origins s.wheel now scanned →
      (slot s.wheel i).contents[o]? = some h := by
    intro o ho
    obtain ⟨j, -, hj⟩ := List.mem_flatMap.mp ho
    obtain ⟨⟨h', o'⟩, he, heq⟩ := List.mem_map.mp hj
    simp only [Prod.mk.injEq] at heq
    obtain ⟨⟨rfl, hseq⟩, rfl⟩ := heq
    have hget := List.mk_mem_zipIdx_iff_getElem?.mp (List.mem_of_mem_filter he)
    rw [hget]
    have hmem' := List.mem_of_getElem? hget
    rw [hc.eq_of_sequence (mem_held_of_slot hmem') (mem_held_of_slot hmem) hseq]
  cases hlookup : (origins s.wheel now scanned).reverse.lookup (i, h.sequence) with
  | none =>
    exfalso
    rw [List.lookup_eq_none_iff] at hlookup
    obtain ⟨n, hn⟩ := List.mem_iff_getElem?.mp hmem
    have horigin : ((i, h.sequence), n) ∈ origins s.wheel now scanned := by
      refine List.mem_flatMap.mpr ⟨i, hi, List.mem_map.mpr ⟨(h, n), ?_, rfl⟩⟩
      exact List.mem_filter.mpr ⟨List.mk_mem_zipIdx_iff_getElem?.mpr hn, by simpa using hdue⟩
    simpa using hlookup _ (List.mem_reverse.mpr horigin)
  | some o =>
    obtain ⟨l₁, l₂, hsplit, -⟩ := List.lookup_eq_some_iff.mp hlookup
    have ho : ((i, h.sequence), o) ∈ origins s.wheel now scanned := by
      rw [← List.mem_reverse, hsplit]
      simp
    have hget := hkeys o ho
    have hlt : o < (slot s.wheel i).contents.length := (List.getElem?_eq_some_iff.mp hget).1
    refine ⟨(slot s.wheel i).contents.take o, (slot s.wheel i).contents.drop (o + 1), ?_, ?_⟩
    · have hcons := List.drop_eq_getElem_cons hlt
      rw [(List.getElem?_eq_some_iff.mp hget).2] at hcons
      rw [← hcons, List.take_append_drop]
    · rw [List.length_take_of_le hlt.le]

/-- A candidate from the wheel. -/
theorem release_wheel (hc : Consistent c s) (hd : Draining s p) {origin : List ((ℕ × ℕ) × ℕ)} {i : ℕ}
    {h : Held α} {A B : List (Held α)} (hcontents : (slot s.wheel i).contents = A ++ h :: B)
    (horigin : origin.reverse.lookup (i, h.sequence) = some A.length) (hnot : h ∉ p.pushed) (taken : Bool) :
    ∃ q, release origin p taken ⟨h, some i⟩ = (q, taken) ∧ Draining s q ∧
      q.pushed = if taken then p.pushed ++ [h] else p.pushed := by
  have hmem : h ∈ (slot s.wheel i).contents := by rw [hcontents]; simp
  have hnodup := hc.nodup_contents i
  rw [hcontents, List.nodup_middle, List.nodup_cons, List.mem_append, not_or] at hnodup
  have hp : decide (h ∈ p.pushed) = false := by simpa using hnot
  have hbisect : bisectLeft (p.removed i) A.length = (A.findIdxs (· ∈ p.pushed)).length := by
    rw [hd.removed i, hcontents]
    exact bisectLeft_findIdxs hp
  have hindex : A.length - (A.findIdxs (· ∈ p.pushed)).length = (A.filter (· ∉ p.pushed)).length := by
    rw [length_sub_findIdxs]
    simp
  have hseq : (slot p.wheel i).sequences[(A.filter (· ∉ p.pushed)).length]? = some h.sequence := by
    rw [hd.slot_eq, hcontents]
    simp only [Slot.ofHeld, List.filter_append, List.filter_cons, List.map_append]
    rw [if_pos (by simpa using hnot), List.getElem?_append_right (by simp)]
    simp
  simp only [release, horigin, hbisect, hindex, if_pos hseq]
  cases taken with
  | false =>
    refine ⟨_, rfl, ?_, rfl⟩
    rw [hd.modify_recompute]
    exact hd
  | true =>
    refine ⟨_, rfl, ⟨hd.modify_delete hc hcontents hnot, hd.heap, ?_, ?_⟩, rfl⟩
    · have hnot' : h ∉ s.overflow := hc.not_mem_overflow hmem
      change p.overflow.Perm (s.overflow.filter (· ∉ p.pushed ++ [h]))
      rw [filter_pushed_of_not_mem hnot']
      exact hd.overflow
    · intro j
      by_cases hj : j = i
      · subst hj
        simp only [Function.update_self]
        rw [hd.removed, hcontents, findIdxs_split hp]
        rw [insertIdx_length_append, List.findIdxs_append, List.findIdxs_cons, findIdxs_pushed_of_not_mem hnodup.1.1,
          findIdxs_pushed_of_not_mem hnodup.1.2]
        simp
      · simp only [Function.update_of_ne hj]
        rw [hd.removed, findIdxs_pushed_of_not_mem]
        exact hc.not_mem_slot hmem (Ne.symm hj)

/-- A candidate from the heap, when it is the least of what is left there. -/
theorem release_overflow (hc : Consistent c s) (hd : Draining s p) (origin : List ((ℕ × ℕ) × ℕ)) {h : Held α}
    (hmem : h ∈ s.overflow) (hnot : h ∉ p.pushed)
    (hleast : ∀ a ∈ s.overflow, a ∉ p.pushed → a.readyAt ≤ h.readyAt → h.key ≤ a.key) (taken : Bool) :
    ∃ q, release origin p taken ⟨h, none⟩ = (q, taken) ∧ Draining s q ∧
      q.pushed = if taken then p.pushed ++ [h] else p.pushed := by
  have hin : h ∈ p.overflow := by
    rw [hd.overflow.mem_iff]
    exact List.mem_filter.mpr ⟨hmem, by simpa using hnot⟩
  obtain ⟨root, rest, hover⟩ := List.exists_cons_of_ne_nil (List.ne_nil_of_mem hin)
  have hheap := hd.heap
  rw [hover] at hheap hin
  have hle : root.key ≤ h.key := hheap.le_of_mem hin
  have hroot : root ∈ s.overflow.filter (· ∉ p.pushed) := by
    rw [← hd.overflow.mem_iff, hover]
    exact List.mem_cons_self
  rw [List.mem_filter, decide_eq_true_eq] at hroot
  have hkey : h.key = root.key := by
    refine le_antisymm (hleast root hroot.1 hroot.2 ?_) hle
    exact (Prod.Lex.le_iff.mp hle).elim le_of_lt fun e ↦ e.1.le
  obtain rfl : root = h := by
    refine hc.eq_of_sequence (mem_held_of_overflow hroot.1) (mem_held_of_overflow hmem) ?_
    exact (congrArg (fun k ↦ (ofLex k).2) hkey).symm
  have hhead : p.overflow.head? = some root := by rw [hover]; rfl
  simp only [release, if_pos hhead]
  cases taken with
  | false => exact ⟨p, rfl, hd, rfl⟩
  | true =>
    obtain ⟨heap, hpop, hordered, hperm⟩ := Heapq.heappop_spec hheap
    rw [← hover] at hpop
    simp only [hpop, if_true]
    refine ⟨_, rfl, ⟨?_, hordered, ?_, ?_⟩, rfl⟩
    · -- the entry is in no slot
      rw [hd.wheel]
      apply List.map_congr_left
      intro r hr
      obtain ⟨i, hi, rfl⟩ := List.getElem_of_mem hr
      have hr : slot s.wheel i = s.wheel[i] := by rw [slot, List.getD_eq_getElem _ _ hi]
      rw [filter_pushed_of_not_mem]
      intro hslot
      exact hc.not_mem_overflow (hr ▸ hslot) hmem
    · refine hperm.trans ?_
      have hnodup : s.overflow.Nodup := hc.nodup_held.of_append_right
      have hsplit := hd.overflow
      rw [hover] at hsplit
      have herase := hsplit.erase root
      rw [List.erase_cons_head] at herase
      refine herase.trans (List.Perm.of_eq ?_)
      rw [(hnodup.filter _).erase_eq_filter, List.filter_filter]
      apply List.filter_congr
      intro a _
      rw [Bool.eq_iff_iff]
      simp
      tauto
    · intro i
      rw [hd.removed, findIdxs_pushed_of_not_mem]
      exact fun hslot ↦ hc.not_mem_overflow hslot hmem

end Loop

/-! ## The candidates -/

section Candidates

variable {c : Config} {s : State α} {now : ℚ} {scanned : List ℕ}

theorem mem_candidates {a : Candidate α} : a ∈ candidates s.wheel s.overflow now scanned ↔
    a.held.readyAt ≤ now ∧ ((∃ i ∈ scanned, a.held ∈ (slot s.wheel i).contents ∧ a.slot = some i) ∨
      (a.held ∈ s.overflow ∧ a.slot = none)) := by
  rw [candidates, (List.perm_insertionSort _ _).mem_iff, found, List.mem_append]
  constructor
  · rintro (hwheel | hover)
    · obtain ⟨i, hi, hwheel⟩ := List.mem_flatMap.mp hwheel
      obtain ⟨⟨h, n⟩, he, rfl⟩ := List.mem_map.mp hwheel
      obtain ⟨hzip, hdue⟩ := List.mem_filter.mp he
      have hmem := List.mem_of_getElem? (List.mk_mem_zipIdx_iff_getElem?.mp hzip)
      exact ⟨by simpa using hdue, .inl ⟨i, hi, hmem, rfl⟩⟩
    · obtain ⟨h, hh, rfl⟩ := List.mem_map.mp hover
      obtain ⟨hmem, hdue⟩ := List.mem_filter.mp hh
      exact ⟨by simpa using hdue, .inr ⟨hmem, rfl⟩⟩
  · obtain ⟨h, slot⟩ := a
    rintro ⟨hdue, ⟨i, hi, hmem, rfl⟩ | ⟨hmem, rfl⟩⟩
    · obtain ⟨n, hn⟩ := List.mem_iff_getElem?.mp hmem
      refine .inl (List.mem_flatMap.mpr ⟨i, hi, List.mem_map.mpr ⟨(h, n), ?_, rfl⟩⟩)
      exact List.mem_filter.mpr ⟨List.mk_mem_zipIdx_iff_getElem?.mpr hn, by simpa using hdue⟩
    · refine .inr (List.mem_map.mpr ⟨h, ?_, rfl⟩)
      exact List.mem_filter.mpr ⟨hmem, by simpa using hdue⟩

theorem pairwise_candidates (wheel : List (Slot α)) (overflow : List (Held α)) (now : ℚ) (scanned : List ℕ) :
    (candidates wheel overflow now scanned).Pairwise fun a b ↦ a.held.key ≤ b.held.key := by
  have : Std.Total fun a b : Candidate α ↦ a.held.key ≤ b.held.key := ⟨fun a b ↦ le_total _ _⟩
  have : IsTrans (Candidate α) fun a b ↦ a.held.key ≤ b.held.key := ⟨fun a b c ↦ le_trans⟩
  exact List.pairwise_insertionSort _ _

/-- The entries of a slot, without the indices. -/
theorem map_due (r : Slot α) (i : ℕ) : ((r.due now).map fun e ↦ (⟨e.1, some i⟩ : Candidate α)).map Candidate.held =
    r.contents.filter fun h ↦ h.readyAt ≤ now := by
  rw [Slot.due, List.map_map]
  have hfilter : ∀ (l : List (Held α)) (n : ℕ), ((l.zipIdx n).filter fun e ↦ decide (e.1.readyAt ≤ now)).map
      (Candidate.held ∘ fun e ↦ ⟨e.1, some i⟩) = l.filter fun h ↦ h.readyAt ≤ now := by
    intro l
    induction l with
    | nil => intro n; rfl
    | cons h l ih =>
      intro n
      rw [List.zipIdx_cons, List.filter_cons, List.filter_cons]
      split_ifs
      · rw [List.map_cons, ih]
        rfl
      · exact ih _
  exact hfilter _ _

/-- The candidates are held, each once. -/
theorem subperm_candidates (hnodup : scanned.Nodup) (hlt : ∀ i ∈ scanned, i < s.wheel.length) :
    List.Subperm ((candidates s.wheel s.overflow now scanned).map Candidate.held) (held s) := by
  have hperm : ((candidates s.wheel s.overflow now scanned).map Candidate.held).Perm
      ((scanned.flatMap fun i ↦ (slot s.wheel i).contents.filter fun h ↦ h.readyAt ≤ now) ++
        s.overflow.filter fun h ↦ h.readyAt ≤ now) := by
    refine ((List.perm_insertionSort _ _).map _).trans (List.Perm.of_eq ?_)
    rw [found, List.map_append, List.map_flatMap, List.map_map]
    congr 1
    · exact List.flatMap_congr fun i _ ↦ map_due _ i
    · exact List.map_id _
  refine hperm.subperm.trans (List.Subperm.append ?_ List.filter_sublist.subperm)
  have hrange : s.wheel.flatMap Slot.contents =
      (List.range s.wheel.length).flatMap fun i ↦ (slot s.wheel i).contents := by
    have hwheel : s.wheel = (List.range s.wheel.length).map (slot s.wheel) := by
      apply List.ext_getElem (by simp)
      intro i hi _
      rw [List.getElem_map, List.getElem_range, slot, List.getD_eq_getElem _ _ hi]
    conv_lhs => rw [hwheel]
    rw [List.flatMap_map]
  rw [hrange]
  obtain ⟨l, hl, hsub⟩ := hnodup.subperm fun i hi ↦ List.mem_range.mpr (hlt i hi)
  have hfilter : (scanned.flatMap fun i ↦ (slot s.wheel i).contents.filter fun h ↦ h.readyAt ≤ now).Sublist
      (scanned.flatMap fun i ↦ (slot s.wheel i).contents) :=
    List.Sublist.flatMap_right _ fun i _ ↦ List.filter_sublist
  exact hfilter.subperm.trans ((hl.flatMap_right _).symm.subperm.trans (hsub.flatMap _).subperm)

end Candidates

/-! ## The loop -/

section Loop

variable [DecidableEq α] {c : Config} {s : State α} {now : ℚ} {scanned : List ℕ}

/-- One round: the next candidate goes out, or is left with all that come after it. -/
theorem release_spec (hc : Consistent c s) {p : Progress α} (hd : Draining s p) {a : Candidate α}
    {as done : List (Candidate α)} (hsplit : candidates s.wheel s.overflow now scanned = done ++ a :: as)
    (hdone : done.map Candidate.held = p.pushed) (hnot : a.held ∉ p.pushed) (taken : Bool) :
    ∃ q, release (origins s.wheel now scanned) p taken a = (q, taken) ∧ Draining s q ∧
      q.pushed = if taken then p.pushed ++ [a.held] else p.pushed := by
  have ha : a ∈ candidates s.wheel s.overflow now scanned := by
    rw [hsplit]
    simp
  obtain ⟨h, slot⟩ := a
  obtain ⟨hdue, ⟨i, hi, hmem, rfl⟩ | ⟨hmem, rfl⟩⟩ := mem_candidates.mp ha
  · obtain ⟨A, B, hcontents, horigin⟩ := lookup_origins hi hmem hdue hc
    exact release_wheel hc hd hcontents horigin hnot taken
  · refine release_overflow hc hd _ hmem hnot ?_ taken
    -- what is left in the heap and due comes later among the candidates
    intro b hb hb' hle
    have hcandidate : (⟨b, none⟩ : Candidate α) ∈ candidates s.wheel s.overflow now scanned :=
      mem_candidates.mpr ⟨hle.trans hdue, .inr ⟨hb, rfl⟩⟩
    have hsorted := pairwise_candidates s.wheel s.overflow now scanned
    rw [hsplit] at hcandidate hsorted
    rcases List.mem_append.mp hcandidate with hin | hin
    · exact absurd (hdone ▸ List.mem_map_of_mem hin) hb'
    · rcases List.mem_cons.mp hin with heq | hin
      · rw [Candidate.mk.injEq] at heq
        exact heq.1 ▸ le_rfl
      · exact List.rel_of_pairwise_cons (List.pairwise_append.mp hsorted).2.1 hin

/-- **The loop of a drain** pushes the candidates in their order, all of them unless a push raises. -/
theorem releaseAll_spec (hc : Consistent c s) (hnodup : scanned.Nodup)
    (hlt : ∀ i ∈ scanned, i < s.wheel.length) (taken : ℕ → Bool) (rest done : List (Candidate α))
    (p : Progress α) (hd : Draining s p)
    (hsplit : candidates s.wheel s.overflow now scanned = done ++ rest)
    (hdone : done.map Candidate.held = p.pushed) :
    ∃ q completed left, releaseAll (origins s.wheel now scanned) taken rest p = (q, completed) ∧
      Draining s q ∧ (candidates s.wheel s.overflow now scanned).map Candidate.held = q.pushed ++ left ∧
      (completed = true → left = []) := by
  induction rest generalizing p done with
  | nil =>
    refine ⟨p, true, [], rfl, hd, ?_, fun _ ↦ rfl⟩
    rw [hsplit, List.append_nil, hdone, List.append_nil]
  | cons a as ih =>
    have hall : ((candidates s.wheel s.overflow now scanned).map Candidate.held).Nodup := by
      obtain ⟨l, hperm, hsub⟩ := subperm_candidates hnodup hlt
      exact hperm.nodup_iff.mp (hc.nodup_held.sublist hsub)
    have hnot : a.held ∉ p.pushed := by
      rw [hsplit, List.map_append, hdone, List.map_cons, List.nodup_middle, List.nodup_cons,
        List.mem_append, not_or] at hall
      exact hall.1.1
    obtain ⟨q, hq, hdq, hpushed⟩ := release_spec hc hd hsplit hdone hnot (taken p.pushed.length)
    rw [releaseAll, hq]
    cases htaken : taken p.pushed.length with
    | true =>
      rw [htaken, if_pos rfl] at hpushed
      rw [if_pos rfl]
      apply ih (done ++ [a]) q hdq
      · rw [hsplit, List.append_assoc, List.singleton_append]
      · rw [List.map_append, hdone, hpushed, List.map_singleton]
    | false =>
      rw [htaken, if_neg Bool.false_ne_true] at hpushed
      rw [if_neg Bool.false_ne_true]
      refine ⟨q, false, (a :: as).map Candidate.held, rfl, hdq, ?_, fun h ↦ absurd h Bool.false_ne_true⟩
      rw [hsplit, List.map_append, hdone, hpushed]

/-- What is held while the drain goes on. -/
theorem Draining.held_perm {p : Progress α} (hd : Draining s p) (t : State α) (hwheel : t.wheel = p.wheel)
    (hover : t.overflow = p.overflow) : (held t).Perm ((held s).filter (· ∉ p.pushed)) := by
  rw [held, held, List.filter_append, hwheel, hover, hd.wheel, List.flatMap_map, List.filter_flatMap]
  refine List.Perm.append (List.Perm.of_eq (List.flatMap_congr fun r _ ↦ ?_)) hd.overflow
  exact Slot.contents_ofHeld _

/-- What a drain has done, up to the entries that it left when a push raised. -/
structure Drained (c : Config) (s t : State α) (released left : List (Held α)) (completed : Bool) : Prop where
  split : (candidates s.wheel s.overflow s.clock (c.slotsToScan s.lastTick (c.tickAt s.clock))).map
    Candidate.held = released ++ left
  all : completed = true → left = []
  wheel : t.wheel = s.wheel.map fun r ↦ .ofHeld (r.contents.filter (· ∉ released))
  heap : Heapq.Ordered Held.key t.overflow
  overflow : t.overflow.Perm (s.overflow.filter (· ∉ released))
  remaining : (held t).Perm ((held s).filter (· ∉ released))
  lastTick : t.lastTick = if completed then c.tickAt s.clock else s.lastTick
  frame : t.seq = s.seq ∧ t.clock = s.clock ∧ t.issued = s.issued

theorem drain_spec (hc : Consistent c s) (taken : ℕ → Bool) :
    ∃ t released left completed, c.drain s taken = (t, ⟨[], released, []⟩, completed) ∧
      Drained c s t released left completed := by
  have hlt : ∀ i ∈ c.slotsToScan s.lastTick (c.tickAt s.clock), i < s.wheel.length := by
    intro i hi
    rw [hc.size]
    exact Config.lt_of_mem_slotsToScan hi
  obtain ⟨q, completed, left, hloop, hd, hsplit, hall⟩ :=
    releaseAll_spec hc Config.nodup_slotsToScan hlt taken
      (candidates s.wheel s.overflow s.clock (c.slotsToScan s.lastTick (c.tickAt s.clock))) [] _
      (Draining.start hc) rfl rfl
  let t : State α := { s with
    wheel := q.wheel
    overflow := q.overflow
    lastTick := if completed then c.tickAt s.clock else s.lastTick }
  refine ⟨t, q.pushed, left, completed, ?_, ?_⟩
  · rw [Config.drain, hloop]
    rfl
  · exact ⟨hsplit, hall, hd.wheel, hd.heap, hd.overflow, hd.held_perm t rfl rfl, rfl, rfl, rfl, rfl⟩

namespace Drained

variable {t : State α} {released left : List (Held α)} {completed : Bool}

/-- What is released is due, and was held. -/
theorem of_mem_released (hd : Drained c s t released left completed) {h : Held α} (hmem : h ∈ released) :
    h.readyAt ≤ s.clock ∧ h ∈ held s := by
  have hcandidate := List.mem_append_left left hmem
  rw [← hd.split] at hcandidate
  obtain ⟨a, ha, rfl⟩ := List.mem_map.mp hcandidate
  obtain ⟨hdue, ⟨i, -, hslot, -⟩ | ⟨hover, -⟩⟩ := mem_candidates.mp ha
  · exact ⟨hdue, mem_held_of_slot hslot⟩
  · exact ⟨hdue, mem_held_of_overflow hover⟩

theorem mem_released_of_overflow (hd : Drained c s t released left true) {h : Held α} (hmem : h ∈ s.overflow)
    (hdue : h.readyAt ≤ s.clock) : h ∈ released := by
  have hcandidate := List.mem_map_of_mem (f := Candidate.held)
    (mem_candidates.mpr ⟨hdue, .inr ⟨hmem, rfl⟩⟩ : (⟨h, none⟩ : Candidate α) ∈ candidates s.wheel s.overflow
      s.clock (c.slotsToScan s.lastTick (c.tickAt s.clock)))
  rwa [hd.split, hd.all rfl, List.append_nil] at hcandidate

/-- An entry of the wheel goes out as soon as its tick has come. -/
theorem mem_released_of_slot (hc : Consistent c s) (hd : Drained c s t released left true) {i : ℕ} {h : Held α}
    (hmem : h ∈ (slot s.wheel i).contents) (htick : c.readyTick h.readyAt ≤ c.tickAt s.clock) :
    h ∈ released := by
  have hlt : i < s.wheel.length := by
    by_contra hge
    rw [contents_slot_of_le (not_lt.mp hge)] at hmem
    exact List.not_mem_nil hmem
  have hscan := Config.slotOf_mem_slotsToScan (c := c) (hc.later _ (slot_mem hlt) h hmem) htick
  rw [← Config.slotAt, hc.placed i h hmem] at hscan
  have hcandidate := List.mem_map_of_mem (f := Candidate.held)
    (mem_candidates.mpr ⟨Config.le_of_readyTick_le htick, .inl ⟨i, hscan, hmem, rfl⟩⟩ :
      (⟨h, some i⟩ : Candidate α) ∈ candidates s.wheel s.overflow s.clock
        (c.slotsToScan s.lastTick (c.tickAt s.clock)))
  rwa [hd.split, hd.all rfl, List.append_nil] at hcandidate

/-- The order of release, without a repetition. -/
theorem pairwise_released (hc : Consistent c s) (hd : Drained c s t released left completed) :
    released.Pairwise fun a b ↦ a.key < b.key := by
  have hsorted := pairwise_candidates s.wheel s.overflow s.clock (c.slotsToScan s.lastTick (c.tickAt s.clock))
  rw [← List.pairwise_map (f := Candidate.held) (R := fun a b ↦ a.key ≤ b.key), hd.split] at hsorted
  have hlt : ∀ i ∈ c.slotsToScan s.lastTick (c.tickAt s.clock), i < s.wheel.length := by
    intro i hi
    rw [hc.size]
    exact Config.lt_of_mem_slotsToScan hi
  obtain ⟨l, hperm, hsub⟩ : List.Subperm _ (held s) := subperm_candidates Config.nodup_slotsToScan hlt
  have hnodup := (hperm.map Held.sequence).nodup_iff.mp (hc.nodup_sequences.sublist (hsub.map _))
  rw [hd.split, List.map_append] at hnodup
  have hboth := (List.pairwise_append.mp hsorted).1.and (List.pairwise_map.mp hnodup.of_append_left)
  refine hboth.imp ?_
  rintro a b ⟨hle, hne⟩
  refine lt_of_le_of_ne hle fun heq ↦ hne ?_
  exact congrArg (fun k ↦ (ofLex k).2) heq

/-- Nothing is lost: what was held was released, or is held. -/
theorem perm (hc : Consistent c s) (hd : Drained c s t released left completed) :
    (held s).Perm (released ++ held t) := by
  have hnodup : released.Nodup := by
    refine (hd.pairwise_released hc).imp ?_
    intro a b hlt heq
    exact hlt.ne (congrArg Held.key heq)
  have hmem : ((held s).filter (· ∈ released)).Perm released := by
    rw [List.perm_ext_iff_of_nodup (hc.nodup_held.filter _) hnodup]
    intro h
    rw [List.mem_filter, decide_eq_true_eq]
    exact ⟨fun hh ↦ hh.2, fun hh ↦ ⟨(hd.of_mem_released hh).2, hh⟩⟩
  have hsplit := List.filter_append_perm (· ∈ released) (held s)
  refine hsplit.symm.trans (List.Perm.append hmem ?_)
  refine List.Perm.trans (List.Perm.of_eq ?_) hd.remaining.symm
  apply List.filter_congr
  intro h _
  simp

end Drained

end Loop

end TimeWheel

end ScrapyExtension
