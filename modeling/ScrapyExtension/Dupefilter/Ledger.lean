import ScrapyExtension.Dupefilter.Operations

/-!
# The ledger of retry allowances

A legacy decision may only add a marker while there is room for the allowance that its failure would
need. The room is a slot. A slot is taken by the call, goes over to the receipt when the decision is
published, and ends as an allowance, or is given back.

What is kept in every run is `State.Kept`: which calls have an intent in the table, which of them have
a slot, and that no receipt is in the tables twice. Given that, the books balance after a step exactly
if they balanced before and the step was careful (`State.Ledger.step`, `State.Kept.careless`).

## The step that loses a slot

An interrupted call gives its slot up for an allowance, unless its receipt was published. Compensation
looks for that receipt by the request and the fingerprint, and so it can find the receipt of an earlier
call for the same request.
-/

namespace ScrapyExtension

namespace Dupefilter

namespace Stage

/-- Whether a call has a slot here, where the stage says so. -/
def slotted : Stage → Option Bool
  | seenDecide | seenReserve | seenProbe => some false
  | seenAdd | seenRelease _ => some true
  | seenPublish added => some added
  | _ => none

/-- The call is about to take this receipt out of the tables. -/
def settles (k : ℕ) : Stage → Bool
  | forgetRemove k' | forgetGrant k' | forgetSettle k' => k' = k
  | _ => false

theorem registered_of_slotted {stage : Stage} {b : Bool} (h : stage.slotted = some b) :
    stage.registered := by
  cases stage <;> simp [slotted, registered] at h ⊢

theorem admitted_of_registered {stage : Stage} (h : stage.registered) :
    stage.admitted ∧ stage.filters := by
  cases stage <;> simp [registered, admitted, filters] at h ⊢

theorem admitted_of_settles {stage : Stage} {k : ℕ} (h : stage.settles k) :
    stage.admitted ∧ stage.filters := by
  cases stage <;> simp [settles, admitted, filters] at h ⊢

end Stage

/-- The intent of the call is in the table, with a slot. -/
def Call.holdsSlot (c : Call) : Bool := c.live && c.slot

/-- The intent is in the table from its registration to the end of the call, and has a slot where the
stage says so. -/
structure Call.Ordered (c : Call) : Prop where
  live : c.live = c.stage.registered
  slot : ∀ b, c.stage.slotted = some b → c.slot = b

namespace State

/-- The receipts that are in a table. -/
def tables (s : State) : List ℕ := s.pending ++ s.handoffs

/-- The receipts in the tables that have a slot. -/
def receiptSlots (s : State) : ℕ := s.tables.countP s.hasSlot

/-- The intents in the table that have a slot. -/
def intentSlots (s : State) : ℕ := s.calls.countP Call.holdsSlot

/-- The books balance. -/
structure Balanced (limit : ℕ) (s : State) : Prop where
  bounded : s.allowances.card + s.slots ≤ limit
  slots : s.slots = s.receiptSlots + s.intentSlots

/-- What is kept even when the books do not balance. -/
structure Kept (s : State) : Prop where
  inv : s.Inv
  nodup : s.tables.Nodup
  numbered : ∀ k ∈ s.tables, k < s.receipts.length
  calls : ∀ c ∈ s.calls, c.Ordered
  settles : ∀ c ∈ s.calls, ∀ k, c.stage.settles k → s.hasSlot k → k ∈ s.tables

structure Ledger (limit : ℕ) (s : State) : Prop extends s.Kept, s.Balanced limit

variable {cfg : Config} {limit : ℕ} {s t : State} {n k : ℕ} {c d : Call}

/-- The tables after a change: a receipt that has a slot is in a table unless it was outside before. -/
structure Tabled (s t : State) : Prop where
  nodup : t.tables.Nodup
  numbered : ∀ k ∈ t.tables, k < t.receipts.length
  outside : ∀ k, t.hasSlot k → k ∉ t.tables → s.hasSlot k ∧ k ∉ s.tables

theorem Kept.new : (new).Kept :=
  ⟨.new, List.nodup_nil, fun _ hk ↦ absurd hk List.not_mem_nil, fun _ hc ↦ absurd hc List.not_mem_nil,
    fun _ hc ↦ absurd hc List.not_mem_nil⟩

theorem Balanced.new (limit : ℕ) : (new).Balanced limit := ⟨Nat.zero_le _, rfl⟩

theorem Kept.change (h : s.Kept) (ht : t.Inv) (htabled : s.Tabled t)
    (hcalls : ∀ d ∈ t.calls, d ∈ s.calls ∨
      d.Ordered ∧ ∀ k, d.stage.settles k → t.hasSlot k → k ∈ t.tables) : t.Kept := by
  refine ⟨ht, htabled.nodup, htabled.numbered, fun d hd ↦ ?_, fun d hd k hk hslot ↦ ?_⟩
  · rcases hcalls d hd with hd | ⟨hd, -⟩
    · exact h.calls d hd
    · exact hd
  · rcases hcalls d hd with hd | ⟨-, hd⟩
    · by_contra hmem
      obtain ⟨hslot, hmem⟩ := htabled.outside k hslot hmem
      exact hmem (h.settles d hd k hk hslot)
    · exact hd k hk hslot

/-- A call moves, and takes part in the change of the books. -/
theorem Ledger.update (h : s.Ledger limit) (ht : t.Inv) (hn : s.calls[n]? = some c)
    (hcalls : t.calls = s.calls.set n d) (htabled : s.Tabled t) (hd : d.Ordered)
    (hsettles : ∀ k, d.stage.settles k → t.hasSlot k → k ∈ t.tables)
    (hbounded : t.allowances.card + t.slots ≤ s.allowances.card + s.slots ∨
      t.allowances.card + t.slots ≤ limit)
    (hslots : t.slots + s.receiptSlots + c.holdsSlot.toNat =
      s.slots + t.receiptSlots + d.holdsSlot.toNat) : t.Ledger limit := by
  refine ⟨h.toKept.change ht htabled fun b hb ↦ ?_, ⟨?_, ?_⟩⟩
  · rw [hcalls] at hb
    rcases List.mem_or_eq_of_mem_set hb with hb | rfl
    · exact .inl hb
    · exact .inr ⟨hd, hsettles⟩
  · have := h.bounded
    omega
  · have hcount := List.countP_set_add Call.holdsSlot (b := d) hn
    have hsum := h.slots
    rw [← hcalls] at hcount
    change t.intentSlots + _ = s.intentSlots + _ at hcount
    omega

/-! ### Changes outside the ledger -/

/-- The ledger is the same, up to the order of the tables. -/
structure Same (s t : State) : Prop where
  allowances : t.allowances = s.allowances
  slots : t.slots = s.slots
  length : t.receipts.length = s.receipts.length
  hasSlot : ∀ k, t.hasSlot k = s.hasSlot k
  tables : t.tables.Perm s.tables

theorem Same.of_eq (hallowances : t.allowances = s.allowances) (hslots : t.slots = s.slots)
    (hreceipts : t.receipts = s.receipts) (hpending : t.pending = s.pending)
    (hhandoffs : t.handoffs = s.handoffs) : s.Same t := by
  refine ⟨hallowances, hslots, by rw [hreceipts], fun k ↦ ?_, ?_⟩
  · rw [State.hasSlot, State.hasSlot, hreceipts]
  · rw [State.tables, State.tables, hpending, hhandoffs]

theorem Same.tabled (h : s.Same t) (hs : s.Kept) : s.Tabled t := by
  refine ⟨h.tables.nodup_iff.2 hs.nodup, fun k hk ↦ ?_, fun k hslot hk ↦ ⟨?_, ?_⟩⟩
  · rw [h.length]
    exact hs.numbered k (h.tables.mem_iff.1 hk)
  · rwa [← h.hasSlot]
  · rwa [← h.tables.mem_iff]

theorem Same.receiptSlots (h : s.Same t) : t.receiptSlots = s.receiptSlots := by
  rw [State.receiptSlots, h.tables.countP_eq, State.receiptSlots]
  exact List.countP_congr fun k _ ↦ by rw [h.hasSlot]

/-- A call moves, with the same ledger. -/
theorem Ledger.move (h : s.Ledger limit) (ht : t.Inv) (hn : s.calls[n]? = some c)
    (hcalls : t.calls = s.calls.set n d) (hsame : s.Same t) (hd : d.Ordered)
    (hholds : d.holdsSlot = c.holdsSlot)
    (hsettles : ∀ k, d.stage.settles k → s.hasSlot k → k ∈ s.tables) : t.Ledger limit := by
  refine h.update ht hn hcalls (hsame.tabled h.toKept) hd (fun k hk hslot ↦ ?_) (.inl ?_) ?_
  · rw [hsame.hasSlot] at hslot
    exact hsame.tables.mem_iff.2 (hsettles k hk hslot)
  · rw [hsame.allowances, hsame.slots]
  · rw [hsame.slots, hsame.receiptSlots, hholds]

/-- A call moves on, and that is all. -/
theorem Ledger.goto (h : s.Ledger limit) (hn : s.calls[n]? = some c) {stage stage' : Stage}
    (ht : (s.goto n c stage').Inv) (hc : c.stage = stage)
    (hregistered : stage'.registered = stage.registered)
    (hslotted : stage'.slotted = none ∨ stage'.slotted = stage.slotted)
    (hsettles : ∀ k, stage'.settles k → stage.settles k) : (s.goto n c stage').Ledger limit := by
  subst hc
  have hmem := List.mem_of_getElem? hn
  have hordered := h.calls c hmem
  refine h.move ht hn rfl (.of_eq rfl rfl rfl rfl rfl) ⟨?_, fun b hb ↦ ?_⟩ rfl fun k hk ↦ ?_
  · exact hordered.live.trans hregistered.symm
  · rcases hslotted with hnone | hsame
    · simp [hnone] at hb
    · exact hordered.slot b (hsame.symm.trans hb)
  · exact h.settles c hmem k (hsettles k hk)

/-! ### Receipts -/

/-- A change of a receipt that leaves its slot alone. -/
theorem hasSlot_modify {g : Receipt → Receipt} (hg : ∀ r, (g r).slot = r.slot)
    (hreceipts : t.receipts = s.receipts.modify k g) (j : ℕ) : t.hasSlot j = s.hasSlot j := by
  have hmap : t.receipts.map Receipt.slot = s.receipts.map Receipt.slot := by
    rw [hreceipts]
    exact List.map_modify_eq hg _ _
  have hview : ∀ u : State, u.hasSlot j = ((u.receipts.map Receipt.slot)[j]?).any id := by
    intro u
    rw [State.hasSlot, List.getElem?_map]
    cases u.receipts[j]? <;> rfl
  rw [hview, hview, hmap]

theorem Same.of_modify {g : Receipt → Receipt} (hg : ∀ r, (g r).slot = r.slot)
    (hreceipts : t.receipts = s.receipts.modify k g) (hallowances : t.allowances = s.allowances)
    (hslots : t.slots = s.slots) (htables : t.tables.Perm s.tables) : s.Same t :=
  ⟨hallowances, hslots, by rw [hreceipts, List.length_modify], hasSlot_modify hg hreceipts, htables⟩

theorem hasSlot_clearSlot (s : State) (k j : ℕ) :
    (s.clearSlot k).hasSlot j = (s.hasSlot j && j ≠ k) := by
  rw [State.hasSlot, State.clearSlot, List.getElem?_modify, State.hasSlot]
  by_cases hkj : k = j
  · subst hkj
    cases s.receipts[k]? <;> simp
  · cases s.receipts[j]? <;> simp [hkj, Ne.symm hkj]

/-- In a table without duplicates, one entry less with the slot of that entry. -/
theorem countP_tables_cleared {l : List ℕ} (hl : l.Nodup) {p : ℕ → Bool} (hk : p k → k ∈ l) :
    l.countP (fun j ↦ p j && j ≠ k) + (p k).toNat = l.countP p := by
  have herase : l.countP (fun j ↦ p j && j ≠ k) = (l.erase k).countP p := by
    rw [hl.erase_eq_filter, List.countP_filter]
    refine List.countP_congr fun j _ ↦ ?_
    simp [bne_iff_ne]
  rw [herase, List.countP_erase]
  cases hp : p k with
  | false => simp
  | true =>
    have hpos : 0 < l.countP p := List.countP_pos_iff.2 ⟨k, hk hp, hp⟩
    rw [if_pos ⟨hk hp, rfl⟩]
    exact Nat.sub_add_cancel hpos

/-- The receipt gives its slot up, and may leave the tables. -/
structure Cleared (s t : State) (k : ℕ) : Prop where
  length : t.receipts.length = s.receipts.length
  hasSlot : ∀ j, t.hasSlot j = (s.hasSlot j && j ≠ k)
  tables : t.tables = s.tables ∨ t.tables = s.tables.erase k

theorem Cleared.tabled (h : s.Cleared t k) (hs : s.Kept) : s.Tabled t := by
  have hsub : t.tables.Sublist s.tables := by
    rcases h.tables with htables | htables
    · rw [htables]
    · rw [htables]
      exact List.erase_sublist
  refine ⟨hsub.nodup hs.nodup, fun j hj ↦ ?_, fun j hslot hj ↦ ?_⟩
  · rw [h.length]
    exact hs.numbered j (hsub.subset hj)
  · rw [h.hasSlot] at hslot
    obtain ⟨hslot, hne⟩ : s.hasSlot j ∧ j ≠ k := by simpa using hslot
    refine ⟨hslot, fun hmem ↦ hj ?_⟩
    rcases h.tables with htables | htables
    · rwa [htables]
    · rw [htables]
      exact (List.mem_erase_of_ne hne).2 hmem

theorem Cleared.receiptSlots (h : s.Cleared t k) (hs : s.Kept) (hk : s.hasSlot k → k ∈ s.tables) :
    t.receiptSlots + (s.hasSlot k).toNat = s.receiptSlots := by
  have hcount : t.receiptSlots = s.tables.countP fun j ↦ s.hasSlot j && j ≠ k := by
    rw [State.receiptSlots, List.countP_congr fun j _ ↦ by rw [h.hasSlot j]]
    rcases h.tables with htables | htables
    · rw [htables]
    · rw [htables, hs.nodup.erase_eq_filter, List.countP_filter]
      refine List.countP_congr fun j _ ↦ ?_
      simp [bne_iff_ne]
  rw [hcount]
  exact countP_tables_cleared hs.nodup hk

theorem Kept.tables_erase (h : s.Kept) (k : ℕ) :
    s.pending.erase k ++ s.handoffs.erase k = s.tables.erase k := by
  rw [State.tables, List.erase_append]
  split
  · rename_i hk
    have hnot : k ∉ s.handoffs := fun hk' ↦
      (List.disjoint_of_nodup_append h.nodup) hk hk'
    rw [List.erase_of_not_mem hnot]
  · rename_i hk
    rw [List.erase_of_not_mem hk]

theorem Kept.cleared_removeReceipt (h : s.Kept) (k : ℕ) : s.Cleared (s.removeReceipt k) k := by
  unfold State.removeReceipt
  dsimp only
  split
  · refine ⟨List.length_modify .., fun j ↦ ?_, .inr (h.tables_erase k)⟩
    exact hasSlot_clearSlot s k j
  · rename_i hslot
    refine ⟨rfl, fun j ↦ ?_, .inr (h.tables_erase k)⟩
    change s.hasSlot j = _
    by_cases hjk : j = k
    · subst hjk
      simp [Bool.eq_false_iff.2 hslot]
    · simp [hjk]

theorem slots_removeReceipt (s : State) (k : ℕ) :
    (s.removeReceipt k).slots = s.slots - (s.hasSlot k).toNat := by
  unfold State.removeReceipt
  dsimp only
  cases s.hasSlot k <;> rfl

theorem allowances_removeReceipt (s : State) (k : ℕ) :
    (s.removeReceipt k).allowances = s.allowances := by
  unfold State.removeReceipt
  dsimp only
  split <;> rfl

/-- The slots of the receipts are all counted. -/
theorem Ledger.toNat_hasSlot_le (h : s.Ledger limit) (hk : s.hasSlot k → k ∈ s.tables) :
    (s.hasSlot k).toNat ≤ s.slots := by
  have hsum := h.slots
  cases hslot : s.hasSlot k with
  | false => exact Nat.zero_le _
  | true =>
    have hpos : 0 < s.receiptSlots := List.countP_pos_iff.2 ⟨k, hk hslot, hslot⟩
    simp only [Bool.toNat_true]
    omega

/-- The books change, and no call moves. -/
theorem Ledger.books (h : s.Ledger limit) (hs : s.Bookkeeping t) (htabled : s.Tabled t)
    (hbounded : t.allowances.card + t.slots ≤ s.allowances.card + s.slots ∨
      t.allowances.card + t.slots ≤ limit)
    (hslots : t.slots + s.receiptSlots = s.slots + t.receiptSlots) : t.Ledger limit := by
  have ht := (h.inv.bookkeeping hs).inv
  refine ⟨h.toKept.change ht htabled fun d hd ↦ .inl (hs.calls ▸ hd), ⟨?_, ?_⟩⟩
  · have := h.bounded
    omega
  · have hsum := h.slots
    have hcalls : t.intentSlots = s.intentSlots := by rw [State.intentSlots, hs.calls]; rfl
    omega

theorem Ledger.removeReceipt (h : s.Ledger limit) (hk : s.hasSlot k → k ∈ s.tables) :
    (s.removeReceipt k).Ledger limit := by
  have hcleared := h.toKept.cleared_removeReceipt k
  have hcount := hcleared.receiptSlots h.toKept hk
  have hle := h.toNat_hasSlot_le hk
  have hslots := s.slots_removeReceipt k
  refine h.books (s.bookkeeping_removeReceipt k) (hcleared.tabled h.toKept) (.inl ?_) ?_
  · rw [s.allowances_removeReceipt k]
    omega
  · omega

/-- The slot of a receipt becomes an allowance. -/
theorem Ledger.grantReserved (h : s.Ledger limit) (hk : k ∈ s.tables) (hslot : s.hasSlot k) (f : ℕ) :
    (s.grantAllowance limit f true (some k)).Ledger limit := by
  have hcleared : s.Cleared (s.grantAllowance limit f true (some k)) k :=
    ⟨List.length_modify .., hasSlot_clearSlot s k, .inl rfl⟩
  have hcount := hcleared.receiptSlots h.toKept fun _ ↦ hk
  have hle := h.toNat_hasSlot_le fun _ ↦ hk
  have hslots : (s.grantAllowance limit f true (some k)).slots = s.slots - 1 := rfl
  have hcard : (s.grantAllowance limit f true (some k)).allowances.card ≤ s.allowances.card + 1 :=
    Finset.card_insert_le f s.allowances
  rw [hslot, Bool.toNat_true] at hcount hle
  refine h.books (bookkeeping_grantAllowance ..) (hcleared.tabled h.toKept) (.inl ?_) ?_
  · omega
  · omega

/-- Without a slot, an allowance is granted where there is room. -/
theorem Ledger.grantUnreserved (h : s.Ledger limit) (f : ℕ) (receipt : Option ℕ) :
    (s.grantAllowance limit f false receipt).Ledger limit := by
  have hbooks : s.Bookkeeping (s.grantAllowance limit f false receipt) :=
    bookkeeping_grantAllowance ..
  unfold State.grantAllowance at hbooks ⊢
  rw [if_neg (by simp)] at hbooks ⊢
  split
  · exact h
  · rename_i hroom
    rw [if_neg hroom] at hbooks
    have hcard := Finset.card_insert_le f s.allowances
    push Not at hroom
    refine h.books hbooks ⟨h.nodup, h.numbered, fun _ hslot hk ↦ ⟨hslot, hk⟩⟩ (.inr ?_) rfl
    change (insert f s.allowances).card + s.slots ≤ limit
    omega

theorem mem_tables_of_find {l : List ℕ} {p : ℕ → Bool} (hl : l ⊆ s.tables) (h : l.find? p = some k) :
    k ∈ s.tables :=
  hl (List.mem_of_find?_eq_some h)

theorem Ledger.settle (h : s.Ledger limit) (thread request : ℕ) :
    (s.settle thread request).Ledger limit := by
  unfold State.settle
  split
  · exact h
  · rename_i k hk
    split
    · exact h.removeReceipt fun _ ↦ mem_tables_of_find (List.subset_append_right _ _) hk
    · exact h

theorem Ledger.collect (h : s.Ledger limit) (k : ℕ) : (s.collect k).Ledger limit := by
  unfold State.collect
  split
  · rename_i hk
    exact h.removeReceipt fun _ ↦ List.mem_append.2 hk
  · exact h

theorem Ledger.same (h : s.Ledger limit) (hs : s.Bookkeeping t) (hsame : s.Same t) :
    t.Ledger limit := by
  refine h.books hs (hsame.tabled h.toKept) (.inl ?_) ?_
  · rw [hsame.allowances, hsame.slots]
  · rw [hsame.slots, hsame.receiptSlots]

theorem Ledger.consume (h : s.Ledger limit) (thread request : ℕ) :
    (s.consume thread request).Ledger limit := by
  refine h.same (s.bookkeeping_consume thread request) ?_
  unfold State.consume
  split
  · exact .of_eq rfl rfl rfl rfl rfl
  rename_i k hk
  split
  · have hpending : k ∈ s.pending := List.mem_of_find?_eq_some hk
    refine Same.of_modify (k := k) ?_ rfl rfl rfl ?_
    · exact fun _ ↦ rfl
    · -- The receipt goes from the one table to the end of the other.
      calc (s.pending.erase k ++ (s.handoffs ++ [k])).Perm (k :: (s.pending.erase k ++ s.handoffs)) := by
            rw [← List.append_assoc]
            exact List.perm_append_singleton ..
        List.Perm _ (s.pending ++ s.handoffs) :=
            ((List.perm_cons_erase hpending).append_right s.handoffs).symm
  · exact .of_eq rfl rfl rfl rfl rfl

/-! ### Calls of `request_seen` -/

/-- A call without an intent moves on, and that is all it does to the ledger. -/
theorem Ledger.pass (h : s.Ledger limit) (ht : t.Inv) (hn : s.calls[n]? = some c)
    (hcalls : t.calls = s.calls.set n d) (hsame : s.Same t) (hlive : d.live = c.live)
    (hslot : d.slot = c.slot) (hc : c.stage.registered = false) (hd : d.stage.registered = false)
    (hsettles : ∀ k, d.stage.settles k → s.hasSlot k → k ∈ s.tables) : t.Ledger limit := by
  have hordered := h.calls c (List.mem_of_getElem? hn)
  refine h.move ht hn hcalls hsame ⟨?_, fun b hb ↦ ?_⟩ ?_ hsettles
  · rw [hlive, hordered.live, hc, hd]
  · rw [Stage.registered_of_slotted hb] at hd
    simp at hd
  · rw [Call.holdsSlot, Call.holdsSlot, hlive, hslot]

/-- A call takes a slot. -/
theorem Ledger.take (h : s.Ledger limit) (hn : s.calls[n]? = some c)
    (hstage : c.stage.slotted = some false) (hs : s.Bookkeeping t) {stage : Stage}
    (ht : (t.goto n { c with slot := true } stage).Inv) (hsame : s.Tabled t)
    (hreceipts : t.receiptSlots = s.receiptSlots) (hslots : t.slots = s.slots + 1)
    (hbounded : t.allowances.card + t.slots ≤ limit) (hslotted : stage.slotted = some true)
    (hsettles : ∀ k, stage.settles k = false) :
    (t.goto n { c with slot := true } stage).Ledger limit := by
  have hordered := h.calls c (List.mem_of_getElem? hn)
  have hlive : c.live := by rw [hordered.live, Stage.registered_of_slotted hstage]
  refine h.update ht hn (congrArg (List.set · n _) hs.calls) ⟨hsame.nodup, hsame.numbered,
    hsame.outside⟩ ⟨?_, fun b hb ↦ ?_⟩ (fun k hk ↦ ?_) (.inr hbounded) ?_
  · exact hlive.trans (Stage.registered_of_slotted hslotted).symm
  · exact Option.some.inj (hslotted.symm.trans hb)
  · simp [hsettles k] at hk
  · have hc : c.holdsSlot = false := by rw [Call.holdsSlot, hordered.slot _ hstage, Bool.and_false]
    have hd : Call.holdsSlot { c with slot := true, stage } = true := by simp [Call.holdsSlot, hlive]
    have hgoto : (t.goto n { c with slot := true } stage).receiptSlots = t.receiptSlots := rfl
    change t.slots + _ + _ = _ + _ + (Call.holdsSlot { c with slot := true, stage }).toNat
    rw [hc, hd, hgoto, hreceipts, hslots, Bool.toNat_false, Bool.toNat_true]
    omega

theorem Ledger.consumeAllowance (h : s.Ledger limit) (hn : s.calls[n]? = some c)
    (hc : c.stage = .seenDecide) (hu : s.consumeAllowance c.fingerprint = some t)
    (ht : (t.goto n { c with slot := true } (.seenPublish true)).Inv) :
    (t.goto n { c with slot := true } (.seenPublish true)).Ledger limit := by
  have hbooks := bookkeeping_consumeAllowance hu
  obtain ⟨hmem, ⟨⟩⟩ := Option.ite_none_right_eq_some.1 hu
  have hcard := Finset.card_erase_add_one hmem
  have hbounded := h.bounded
  refine h.take hn (by simp [hc, Stage.slotted]) hbooks ht
    ⟨h.nodup, h.numbered, fun _ hslot hk ↦ ⟨hslot, hk⟩⟩ rfl rfl ?_ rfl fun _ ↦ rfl
  change (s.allowances.erase c.fingerprint).card + (s.slots + 1) ≤ limit
  omega

theorem Ledger.reserveSlot (h : s.Ledger limit) (hn : s.calls[n]? = some c)
    (hc : c.stage = .seenReserve) (hu : s.reserveSlot limit = some t)
    (ht : (t.goto n { c with slot := true } .seenAdd).Inv) :
    (t.goto n { c with slot := true } .seenAdd).Ledger limit := by
  have hbooks := bookkeeping_reserveSlot hu
  obtain ⟨hroom, ⟨⟩⟩ := Option.ite_none_left_eq_some.1 hu
  refine h.take hn (by simp [hc, Stage.slotted]) hbooks ht
    ⟨h.nodup, h.numbered, fun _ hslot hk ↦ ⟨hslot, hk⟩⟩ rfl rfl ?_ rfl fun _ ↦ rfl
  change s.allowances.card + (s.slots + 1) ≤ limit
  omega

/-- A call with a slot is counted. -/
theorem Ledger.slots_pos (h : s.Ledger limit) (hn : s.calls[n]? = some c) (hc : c.holdsSlot) :
    0 < s.slots := by
  have hle := List.toNat_le_countP Call.holdsSlot hn
  have hsum := h.slots
  rw [hc, Bool.toNat_true] at hle
  change 1 ≤ s.intentSlots at hle
  omega

theorem Ledger.releaseSlot (h : s.Ledger limit) (hn : s.calls[n]? = some c) {error : Bool}
    (hc : c.stage = .seenRelease error) {stage : Stage} (hregistered : stage.registered)
    (hslotted : ∀ b, stage.slotted = some b → b = false) (hsettles : ∀ k, stage.settles k = false)
    (ht : (s.releaseSlot.goto n { c with slot := false } stage).Inv) :
    (s.releaseSlot.goto n { c with slot := false } stage).Ledger limit := by
  have hordered := h.calls c (List.mem_of_getElem? hn)
  have hlive : c.live := by rw [hordered.live, hc]; rfl
  have hslot : c.slot := hordered.slot true (by rw [hc]; rfl)
  have hholds : c.holdsSlot := by simp [Call.holdsSlot, hlive, hslot]
  have hpos := h.slots_pos hn hholds
  refine h.update ht hn rfl ⟨h.nodup, h.numbered, fun _ hslot hk ↦ ⟨hslot, hk⟩⟩
    ⟨hlive.trans hregistered.symm, fun b hb ↦ (hslotted b hb).symm⟩ (fun k hk ↦ ?_) (.inl ?_) ?_
  · simp [hsettles k] at hk
  · change s.allowances.card + (s.slots - 1) ≤ _
    omega
  · have hd : Call.holdsSlot { c with slot := false, stage } = false := by simp [Call.holdsSlot]
    change s.slots - 1 + s.receiptSlots + _ = s.slots + s.receiptSlots + _
    rw [hholds, hd, Bool.toNat_true, Bool.toNat_false]
    omega

/-- The tables with a new receipt. -/
theorem Kept.tables_published (h : s.Kept) (added : Receipt)
    (hreceipts : t.receipts = s.receipts ++ [added])
    (hpending : t.pending = s.pending ++ [s.receipts.length]) (hhandoffs : t.handoffs = s.handoffs) :
    s.Tabled t ∧ t.receiptSlots = s.receiptSlots + added.slot.toNat := by
  have hfresh : s.receipts.length ∉ s.tables := fun hmem ↦ (h.numbered _ hmem).false
  have hperm : t.tables.Perm (s.receipts.length :: s.tables) := by
    rw [State.tables, hpending, hhandoffs, List.append_assoc]
    exact List.perm_middle
  have hnew : t.hasSlot s.receipts.length = added.slot := by
    rw [State.hasSlot, hreceipts, List.getElem?_concat_length]
    rfl
  have hold : ∀ j, j ≠ s.receipts.length → t.hasSlot j = s.hasSlot j := by
    intro j hj
    rw [State.hasSlot, State.hasSlot, hreceipts]
    rcases Nat.lt_or_gt_of_ne hj with hj | hj
    · rw [List.getElem?_append_left hj]
    · rw [List.getElem?_eq_none (by simp; omega), List.getElem?_eq_none hj.le]
  refine ⟨⟨?_, fun j hj ↦ ?_, fun j hslot hj ↦ ?_⟩, ?_⟩
  · exact hperm.nodup_iff.2 (List.nodup_cons.2 ⟨hfresh, h.nodup⟩)
  · rw [hreceipts, List.length_append, List.length_singleton]
    rcases List.mem_cons.1 (hperm.mem_iff.1 hj) with rfl | hj
    · exact Nat.lt_succ_self _
    · exact Nat.lt_succ_of_lt (h.numbered j hj)
  · rw [hperm.mem_iff, List.mem_cons, not_or] at hj
    rw [hold j hj.1] at hslot
    exact ⟨hslot, hj.2⟩
  · rw [State.receiptSlots, hperm.countP_eq, List.countP_cons, hnew]
    have hsame : s.tables.countP t.hasSlot = s.receiptSlots := List.countP_congr fun j hj ↦ by
      rw [hold j fun heq ↦ hfresh (heq ▸ hj)]
    rw [hsame]
    cases added.slot <;> rfl

theorem Ledger.publish (h : s.Ledger limit) (hn : s.calls[n]? = some c) {added : Bool}
    (hc : c.stage = .seenPublish added) (ht : (s.publish n c added).Inv) :
    (s.publish n c added).Ledger limit := by
  have hordered := h.calls c (List.mem_of_getElem? hn)
  have hlive : c.live := by rw [hordered.live, hc]; rfl
  have hslot : c.slot = added := hordered.slot added (by rw [hc]; rfl)
  have hholds : c.holdsSlot = added := by simp [Call.holdsSlot, hlive, hslot]
  cases added with
  | false =>
    refine h.update ht hn rfl ⟨h.nodup, h.numbered, fun _ hslot hk ↦ ⟨hslot, hk⟩⟩ ⟨rfl, nofun⟩ nofun
      (.inl le_rfl) ?_
    rw [hholds]
    rfl
  | true =>
    obtain ⟨htabled, hcount⟩ := h.toKept.tables_published (t := s.publish n c true)
      ⟨c.fingerprint, s.core.epoch, c.request, none, false, c.slot⟩ rfl rfl rfl
    refine h.update ht hn rfl htabled ⟨rfl, nofun⟩ nofun (.inl le_rfl) ?_
    rw [hcount, hholds, hslot]
    change s.slots + _ + 1 = s.slots + (_ + 1) + 0
    omega

/-- Compensation of a call whose intent is in the table. -/
theorem compensate_eq (limit : ℕ) (s : State) (n : ℕ) (hlive : c.live) :
    s.compensate limit n c =
      if ¬ c.slot ∨ s.sibling c then
        { s with calls := s.calls.set n { c with live := false, stage := .leaving true } }
      else { s with calls := s.calls.set n { c with live := false, stage := .leaving true } }.grantAllowance
        limit c.fingerprint true none := by
  have hcleared : ¬ (¬ c.live ∧ s.calls.any fun b ↦ b.live ∧ b.request = c.request) := by
    simp [hlive]
  rw [State.compensate, if_neg hcleared]

/-- **Compensation.** The books balance afterwards, unless the call gives its slot up for the receipt of
another one. -/
theorem Ledger.compensate (h : s.Ledger limit) (hn : s.calls[n]? = some c)
    (hc : c.stage = .seenCompensate) (ht : (s.compensate limit n c).Inv) :
    (s.compensate limit n c).Kept ∧
      ((s.compensate limit n c).Balanced limit ↔ (c.slot → s.sibling c = false)) := by
  have hordered := h.calls c (List.mem_of_getElem? hn)
  have hlive : c.live := by rw [hordered.live, hc]; rfl
  have hover : Call.Ordered { c with live := false, stage := .leaving true } := ⟨rfl, nofun⟩
  rw [compensate_eq limit s n hlive] at ht ⊢
  by_cases hgiven : ¬ c.slot ∨ s.sibling c
  · rw [if_pos hgiven] at ht ⊢
    constructor
    · refine h.toKept.change ht ⟨h.nodup, h.numbered, fun _ hslot hk ↦ ⟨hslot, hk⟩⟩ fun d hd ↦ ?_
      rcases List.mem_or_eq_of_mem_set hd with hd | rfl
      · exact .inl hd
      · exact .inr ⟨hover, nofun⟩
    by_cases hslot : c.slot
    · -- The intent is gone, and its slot with it.
      have hsibling : s.sibling c := hgiven.resolve_left (not_not.2 hslot)
      refine iff_of_false (fun hbalanced ↦ ?_) (by simp [hslot, hsibling])
      have hcount := List.countP_set_add Call.holdsSlot
        (b := { c with live := false, stage := .leaving true }) hn
      have hholds : c.holdsSlot := by simp [Call.holdsSlot, hlive, hslot]
      have hsum := hbalanced.slots
      have hbefore := h.slots
      change s.slots = s.receiptSlots + (s.calls.set n _).countP Call.holdsSlot at hsum
      change s.slots = _ + s.calls.countP Call.holdsSlot at hbefore
      rw [hholds, Bool.toNat_true] at hcount
      change _ + 1 = _ + 0 at hcount
      omega
    · have hholds : c.holdsSlot = false := by simp [Call.holdsSlot, hslot]
      have hledger := h.update ht hn rfl ⟨h.nodup, h.numbered, fun _ hslot hk ↦ ⟨hslot, hk⟩⟩ hover
        nofun (.inl le_rfl) (by rw [hholds]; rfl)
      exact iff_of_true hledger.toBalanced fun hslot' ↦ absurd hslot' hslot
  · rw [if_neg hgiven] at ht ⊢
    obtain ⟨hslot, hsibling⟩ := not_or.1 hgiven
    have hholds : c.holdsSlot := by simp [Call.holdsSlot, hlive, not_not.1 hslot]
    have hpos := h.slots_pos hn hholds
    have hcard := Finset.card_insert_le c.fingerprint s.allowances
    have hledger := h.update ht hn rfl ⟨h.nodup, h.numbered, fun _ hslot hk ↦ ⟨hslot, hk⟩⟩ hover
      nofun (.inl ?_) ?_
    · exact ⟨hledger.toKept, iff_of_true hledger.toBalanced fun _ ↦ Bool.eq_false_iff.2 hsibling⟩
    · change (insert c.fingerprint s.allowances).card + (s.slots - 1) ≤ _
      omega
    · rw [hholds]
      change s.slots - 1 + s.receiptSlots + 1 = s.slots + s.receiptSlots + 0
      omega

theorem Ledger.register (h : s.Ledger limit) (hn : s.calls[n]? = some c) (hc : c.stage = .seenRegister)
    (hcalls : t.calls = s.calls.set n { c with live := true, slot := false, stage := .seenDecide })
    (hsame : s.Same t) (ht : t.Inv) : t.Ledger limit := by
  have hordered := h.calls c (List.mem_of_getElem? hn)
  have hlive : c.live = false := by rw [hordered.live, hc]; rfl
  refine h.move ht hn hcalls hsame ⟨rfl, fun b hb ↦ ?_⟩ ?_ nofun
  · exact Option.some.inj hb
  · simp [Call.holdsSlot, hlive]

/-- A section of `request_seen`, apart from compensation. -/
theorem Ledger.actSeen (h : s.Ledger limit) (hn : s.calls[n]? = some c) {event : Event}
    (ht : s.actSeen limit n c event = some t) :
    (c.stage = .seenCompensate ∧ event = .next ∧ t = s.compensate limit n c) ∨ t.Ledger limit := by
  have hinv := (h.inv.actSeen hn ht).inv
  unfold State.actSeen at ht
  split at ht
  · rename_i hc
    right
    have hunregistered : c.stage.registered = false := by rw [hc]; rfl
    split at ht
    all_goals obtain ⟨⟩ := ht
    · exact h.pass hinv hn rfl (.of_eq rfl rfl rfl rfl rfl) rfl rfl hunregistered rfl nofun
    · exact h.goto hn hinv hc rfl (.inl rfl) nofun
  · rename_i hc
    obtain ⟨⟩ := ht
    exact .inr (h.register hn hc rfl (.of_eq rfl rfl rfl rfl rfl) hinv)
  · rename_i hc
    obtain ⟨⟩ := ht
    exact .inr (h.goto hn hinv hc rfl (.inl rfl) nofun)
  · rename_i hc
    obtain ⟨⟩ := ht
    exact .inr (h.goto hn hinv hc rfl (.inl rfl) nofun)
  · rename_i hc
    obtain ⟨⟩ := ht
    exact .inr (h.goto hn hinv hc rfl (.inr rfl) nofun)
  · rename_i hc
    right
    split at ht
    all_goals obtain ⟨⟩ := ht
    · rename_i u hu
      exact h.consumeAllowance hn hc hu hinv
    · exact h.goto hn hinv hc rfl (.inr rfl) nofun
  · rename_i hc
    right
    split at ht
    all_goals obtain ⟨⟩ := ht
    · rename_i u hu
      exact h.reserveSlot hn hc hu hinv
    · exact h.goto hn hinv hc rfl (.inr rfl) nofun
  · rename_i hc
    obtain ⟨⟩ := ht
    exact .inr (h.goto hn hinv hc rfl (.inr rfl) nofun)
  · rename_i hc
    obtain ⟨⟩ := ht
    exact .inr (h.goto hn hinv hc rfl (.inr rfl) nofun)
  · rename_i hc
    obtain ⟨⟩ := ht
    exact .inr (h.goto hn hinv hc rfl (.inr rfl) nofun)
  · rename_i hc
    obtain ⟨⟩ := ht
    exact .inr (h.goto hn hinv hc rfl (.inr rfl) nofun)
  · rename_i error hc
    right
    obtain ⟨⟩ := ht
    refine h.releaseSlot hn hc ?_ ?_ ?_ hinv
    · split <;> rfl
    · intro b hb
      split at hb
      · simp [Stage.slotted] at hb
      · exact (Option.some.inj hb).symm
    · intro k
      split <;> rfl
  · rename_i added hc
    obtain ⟨⟩ := ht
    exact .inr (h.publish hn hc hinv)
  · rename_i hc
    obtain ⟨⟩ := ht
    exact .inl ⟨hc, rfl, rfl⟩
  · right
    obtain ⟨hregistered, ⟨⟩⟩ := Option.ite_none_right_eq_some.1 ht
    exact h.goto hn hinv rfl hregistered.symm (.inl rfl) nofun
  · simp at ht

/-! ### The other calls -/

theorem Ledger.selectForget (h : s.Ledger limit) (hn : s.calls[n]? = some c)
    (hc : c.stage = .forgetSelect) : (s.selectForget n c).Ledger limit := by
  have hinv := (h.inv.selectForget hn hc).inv
  have hfollows : s.Follows (s.goto n c .over) :=
    h.inv.goto hn hc rfl rfl ⟨fun _ ↦ rfl, fun _ ↦ rfl, rfl⟩
  have hover := h.goto hn hfollows.inv hc rfl (.inl rfl) nofun
  unfold State.selectForget at hinv ⊢
  by_cases hclosed : s.core.lifecycle = .closed
  · rwa [if_pos hclosed]
  rw [if_neg hclosed] at hinv ⊢
  dsimp only at hinv ⊢
  by_cases hretired : s.selectHandoff c.request c.thread = none ∧ c.request ∈ s.retired
  · rwa [if_pos hretired]
  rw [if_neg hretired] at hinv ⊢
  cases hk : (s.selectHandoff c.request c.thread).or (s.selectPending c.request) with
  | none => exact hover
  | some k =>
    rw [hk] at hinv
    dsimp only at hinv ⊢
    by_cases hepoch : s.OfEpoch k
    · rw [if_pos hepoch] at hinv ⊢
      refine h.pass hinv hn rfl ?_ rfl rfl (by rw [hc]; rfl) rfl nofun
      refine Same.of_modify (k := k) ?_ rfl rfl rfl (.refl _)
      exact fun _ ↦ rfl
    · rwa [if_neg hepoch]

theorem Ledger.enterForget (h : s.Ledger limit) (hn : s.calls[n]? = some c)
    (hc : c.stage = .forgetEnter k) : (s.enterForget n c k).Ledger limit := by
  have hinv := (h.inv.enterForget hn hc).inv
  have hunregistered : c.stage.registered = false := by rw [hc]; rfl
  unfold State.enterForget at hinv ⊢
  by_cases hcurrent : s.ReceiptCurrent k
  · have hmem : k ∈ s.tables := List.mem_append.2 hcurrent.2
    rw [if_neg (not_not.2 hcurrent)] at hinv ⊢
    by_cases hadmits : s.core.lifecycle.admits
    · rw [if_neg (not_not.2 hadmits)] at hinv ⊢
      refine h.pass hinv hn rfl (.of_eq rfl rfl rfl rfl rfl) rfl rfl hunregistered rfl ?_
      intro j hj _
      obtain rfl : k = j := by simpa [Stage.settles] using hj
      exact hmem
    · rw [if_pos hadmits] at hinv ⊢
      have hremoved := h.removeReceipt fun _ ↦ hmem
      refine hremoved.goto ?_ hinv hc rfl (.inl rfl) nofun
      rw [(s.bookkeeping_removeReceipt k).calls, hn]
  · rw [if_pos hcurrent] at hinv ⊢
    exact h.goto hn hinv hc rfl (.inl rfl) nofun

/-- Reservations of the scheduler are not part of the ledger. -/
theorem Ledger.discard (h : s.Ledger limit) (r : ℕ) : (s.discard r).Ledger limit :=
  h.same (s.bookkeeping_discard r) (.of_eq rfl rfl rfl rfl rfl)

theorem Ledger.enterCommit (h : s.Ledger limit) (hn : s.calls[n]? = some c) {r : ℕ} {volatile : Bool}
    (hc : c.stage = .commitEnter r volatile) : (s.enterCommit n c r volatile).Ledger limit := by
  have hinv := (h.inv.enterCommit hn hc).inv
  unfold State.enterCommit at hinv ⊢
  by_cases hcurrent : s.ReservationCurrent r
  · rw [if_neg (not_not.2 hcurrent)] at hinv ⊢
    by_cases hadmits : s.core.lifecycle.admits
    · rw [if_neg (not_not.2 hadmits)] at hinv ⊢
      refine h.pass hinv hn rfl (.of_eq rfl rfl rfl rfl rfl) rfl rfl (by rw [hc]; rfl) ?_ fun k hk ↦ ?_
      · cases volatile <;> rfl
      · cases volatile <;> simp [Stage.settles] at hk
    · rw [if_pos hadmits] at hinv ⊢
      exact (h.discard r).goto hn hinv hc rfl (.inl rfl) nofun
  · rw [if_pos hcurrent] at hinv ⊢
    exact h.goto hn hinv hc rfl (.inl rfl) nofun

theorem Ledger.grant (h : s.Ledger limit) (hn : s.calls[n]? = some c) (hc : c.stage = .forgetGrant k)
    {r : Receipt} (hr : s.receipts[k]? = some r)
    (ht : ((s.grantAllowance limit r.fingerprint r.slot (some k)).goto n c (.forgetSettle k)).Inv) :
    ((s.grantAllowance limit r.fingerprint r.slot (some k)).goto n c (.forgetSettle k)).Ledger
      limit := by
  have hgranted : (s.grantAllowance limit r.fingerprint r.slot (some k)).Ledger limit := by
    cases hslot : r.slot with
    | false => exact h.grantUnreserved r.fingerprint (some k)
    | true =>
      have hhas : s.hasSlot k := by rw [State.hasSlot, hr]; exact hslot
      have hsettles : c.stage.settles k := by simp [hc, Stage.settles]
      exact h.grantReserved (h.settles c (List.mem_of_getElem? hn) k hsettles hhas) hhas r.fingerprint
  refine hgranted.goto ?_ ht hc rfl (.inl rfl) fun _ hk ↦ hk
  rw [(bookkeeping_grantAllowance ..).calls, hn]

theorem Ledger.settleForget (h : s.Ledger limit) (hn : s.calls[n]? = some c)
    (hc : c.stage = .forgetSettle k) (ht : ((s.removeReceipt k).goto n c (.leaving true)).Inv) :
    ((s.removeReceipt k).goto n c (.leaving true)).Ledger limit := by
  have hsettles : c.stage.settles k := by simp [hc, Stage.settles]
  have hremoved := h.removeReceipt (h.settles c (List.mem_of_getElem? hn) k hsettles)
  refine hremoved.goto ?_ ht hc rfl (.inl rfl) nofun
  rw [(s.bookkeeping_removeReceipt k).calls, hn]

theorem Ledger.actOther (h : s.Ledger limit) (hn : s.calls[n]? = some c) {event : Event}
    (ht : s.actOther limit n c event = some t) : t.Ledger limit := by
  have hinv := (h.inv.actOther hn ht).inv
  unfold State.actOther at ht
  split at ht
  · rename_i owner hc
    split at ht
    all_goals obtain ⟨⟩ := ht
    · refine h.pass hinv hn rfl (.of_eq rfl rfl rfl rfl rfl) rfl rfl ?_ rfl nofun
      rw [hc]
      rfl
    · exact h.goto hn hinv hc rfl (.inl rfl) nofun
  · rename_i owner hc
    obtain ⟨⟩ := ht
    unfold State.register at hinv ⊢
    split
    · rename_i hactive
      rw [if_pos hactive] at hinv
      exact h.goto hn hinv hc rfl (.inl rfl) nofun
    · rename_i hactive
      rw [if_neg hactive] at hinv
      refine h.pass hinv hn rfl (.of_eq rfl rfl rfl rfl rfl) rfl rfl ?_ rfl nofun
      rw [hc]
      rfl
  · rename_i hc
    obtain ⟨⟩ := ht
    exact h.goto hn hinv hc rfl (.inl rfl) nofun
  · rename_i hc
    obtain ⟨⟩ := ht
    exact h.goto hn hinv hc rfl (.inl rfl) nofun
  · rename_i hc
    obtain ⟨⟩ := ht
    exact h.goto hn hinv hc rfl (.inl rfl) nofun
  · rename_i hc
    obtain ⟨⟩ := ht
    exact h.goto hn hinv hc rfl (.inl rfl) nofun
  · rename_i r seen hc
    obtain ⟨⟩ := ht
    cases seen with
    | false => exact h.goto hn hinv hc rfl (.inl rfl) nofun
    | true => exact (h.discard r).goto hn hinv hc rfl (.inl rfl) nofun
  · rename_i r volatile hc
    obtain ⟨⟩ := ht
    exact h.enterCommit hn hc
  · rename_i hc
    obtain ⟨⟩ := ht
    exact h.goto hn hinv hc rfl (.inl rfl) nofun
  · rename_i hc
    obtain ⟨⟩ := ht
    exact h.goto hn hinv hc rfl (.inl rfl) nofun
  · rename_i hc
    obtain ⟨⟩ := ht
    exact h.goto hn hinv hc rfl (.inl rfl) nofun
  · rename_i r hc
    obtain ⟨⟩ := ht
    exact (h.discard r).goto hn hinv hc rfl (.inl rfl) nofun
  · rename_i r hc
    split at ht
    all_goals obtain ⟨⟩ := ht
    · refine h.pass hinv hn rfl (.of_eq rfl rfl rfl rfl rfl) rfl rfl ?_ rfl nofun
      rw [hc]
      rfl
    · exact h.goto hn hinv hc rfl (.inl rfl) nofun
  · rename_i r hc
    obtain ⟨⟩ := ht
    exact (h.discard r).goto hn hinv hc rfl (.inl rfl) nofun
  · rename_i hc
    obtain ⟨⟩ := ht
    exact h.selectForget hn hc
  · rename_i k hc
    obtain ⟨⟩ := ht
    exact h.enterForget hn hc
  · rename_i hc
    obtain ⟨⟩ := ht
    exact h.goto hn hinv hc rfl (.inl rfl) fun _ hk ↦ hk
  · rename_i hc
    obtain ⟨⟩ := ht
    exact h.goto hn hinv hc rfl (.inl rfl) fun _ hk ↦ hk
  · rename_i k hc
    cases hr : s.receipts[k]? with
    | none =>
      rw [hr] at ht
      obtain ⟨⟩ := ht
      exact h
    | some r =>
      rw [hr] at ht
      obtain ⟨⟩ := ht
      exact h.grant hn hc hr hinv
  · rename_i k hc
    obtain ⟨⟩ := ht
    exact h.settleForget hn hc hinv
  · rename_i filter hc
    obtain ⟨⟩ := ht
    refine h.pass hinv hn rfl (.of_eq rfl rfl rfl rfl rfl) rfl rfl ?_ rfl nofun
    rw [hc]
    rfl
  · simp at ht

/-! ### Transitions -/

/-- A transition empties the ledger when no filter operation is left, so that no call has an intent. -/
theorem Ledger.empty (h : s.Ledger limit) (hfree : ∀ l ∈ s.core.operations, l.filter = false)
    {core : Core} (ht : ({ s with core }.clearRetryAllowances).Inv) :
    ({ s with core }.clearRetryAllowances).Ledger limit := by
  have hidle : ∀ c ∈ s.calls, ¬ (c.stage.admitted ∧ c.stage.filters) := by
    rintro c hc ⟨hadmitted, hfilters⟩
    rw [h.inv.plain hfree hc hadmitted] at hfilters
    exact Bool.false_ne_true hfilters
  refine ⟨⟨ht, List.nodup_nil, fun _ hk ↦ absurd hk List.not_mem_nil, fun d hd ↦ ?_,
    fun d hd k hk ↦ ?_⟩, Nat.zero_le _, ?_⟩
  · obtain ⟨c, hc, rfl⟩ := List.mem_map.1 hd
    have hunregistered : c.stage.registered = false :=
      Bool.eq_false_iff.2 fun hr ↦ hidle c hc (Stage.admitted_of_registered hr)
    refine ⟨hunregistered.symm, fun b hb ↦ ?_⟩
    rw [Stage.registered_of_slotted hb] at hunregistered
    simp at hunregistered
  · obtain ⟨c, hc, rfl⟩ := List.mem_map.1 hd
    exact absurd (Stage.admitted_of_settles hk) (hidle c hc)
  · have hintents : ({ s with core }.clearRetryAllowances).intentSlots = 0 := by
      rw [State.intentSlots, List.countP_eq_zero]
      intro d hd
      obtain ⟨c, -, rfl⟩ := List.mem_map.1 hd
      simp [Call.holdsSlot]
    rw [hintents]
    rfl

/-- An open has waited for the operations before it resets the ledger. -/
theorem Inv.free_of_resets (h : s.Inv) {move : Move} (hmove : s.resets move) :
    ∀ l ∈ s.core.operations, l.filter = false := by
  cases move with
  | act n ok =>
    obtain ⟨c, hc, hphase⟩ := (Option.any_eq_true ..).1 hmove
    refine h.core.drained c (List.mem_of_getElem? hc) ?_
    rw [of_decide_eq_true hphase]
    rfl
  | _ => simp [State.resets] at hmove

theorem Ledger.moveLifecycle (h : s.Ledger limit) {move : Move}
    (ht : s.moveLifecycle cfg move = some t) : t.Ledger limit := by
  have hinv := (h.inv.moveLifecycle ht).inv
  unfold State.moveLifecycle at ht
  split at ht
  · simp at ht
  · simp at ht
  rename_i henter hleave
  obtain ⟨core, hstep, rfl⟩ := Option.map_eq_some_iff.1 ht
  by_cases hboundary : core.epoch ≠ s.core.epoch ∨ s.resets move
  · rw [if_pos hboundary] at hinv ⊢
    refine h.empty ?_ hinv
    rcases hboundary with hepoch | hresets
    · obtain ⟨-, hsame | ⟨-, hfree⟩⟩ := h.inv.core.epoch_step hstep henter hleave
      · exact absurd hsame hepoch
      · exact hfree
    · exact h.inv.free_of_resets hresets
  · rw [if_neg hboundary] at hinv ⊢
    refine ⟨h.toKept.change hinv ⟨h.nodup, h.numbered, fun _ hslot hk ↦ ⟨hslot, hk⟩⟩ fun d hd ↦
      .inl hd, h.bounded, h.slots⟩

theorem Ledger.call (h : s.Ledger limit) (thread request fingerprint : ℕ) {stage : Stage}
    (hregistered : stage.registered = false) (hsettles : ∀ k, stage.settles k = false)
    (ht : (s.call thread request fingerprint stage).Inv) :
    (s.call thread request fingerprint stage).Ledger limit := by
  refine ⟨h.toKept.change ht ⟨h.nodup, h.numbered, fun _ hslot hk ↦ ⟨hslot, hk⟩⟩ fun d hd ↦ ?_,
    h.bounded, ?_⟩
  · rcases List.mem_append.1 hd with hd | hd
    · exact .inl hd
    · obtain rfl := List.mem_singleton.1 hd
      refine .inr ⟨⟨hregistered.symm, fun b hb ↦ ?_⟩, fun k hk ↦ ?_⟩
      · rw [Stage.registered_of_slotted hb] at hregistered
        simp at hregistered
      · simp [hsettles k] at hk
  · have hcount : (s.call thread request fingerprint stage).intentSlots = s.intentSlots := by
      rw [State.intentSlots, State.call, List.countP_concat]
      rfl
    rw [hcount]
    exact h.slots

end State

/-- The step is not the compensation of a call with a slot that takes the receipt of another call of
the same request for its own. -/
def Label.Careful (s : State) : Label → Prop
  | .act n .next => ∀ c ∈ s.calls[n]?, c.stage = .seenCompensate → c.slot → s.sibling c = false
  | _ => True

instance (s : State) : DecidablePred (Label.Careful s)
  | .act n .next => inferInstanceAs (Decidable (∀ c ∈ s.calls[n]?, _))
  | .act _ .observed | .act _ .shadowed | .act _ .added | .act _ .notAdded | .act _ .unsupported
  | .act _ (.answered _) | .act _ .removed | .act _ .notRemoved | .act _ .interrupted
  | .lifecycle _ | .seen .. | .reserve .. | .commit .. | .rollback .. | .forget .. | .consume ..
  | .settle .. | .rollbackIntent _ | .collect _ => .isTrue trivial

namespace State

variable {cfg : Config} {limit : ℕ} {s t : State}

theorem actSeen_compensate {n : ℕ} {c : Call} (hc : c.stage = .seenCompensate) :
    s.actSeen limit n c .next = some (s.compensate limit n c) := by
  unfold State.actSeen
  rw [hc]

theorem careful_of_not_compensate {n : ℕ} {c : Call} {event : Event} (hn : s.calls[n]? = some c)
    (h : ¬ (c.stage = .seenCompensate ∧ event = .next)) : (Label.act n event).Careful s := by
  cases event with
  | next =>
    intro d hd hc
    obtain rfl : c = d := Option.some.inj (hn.symm.trans hd)
    exact absurd ⟨hc, rfl⟩ h
  | _ => trivial

/-- One step: the books balance afterwards exactly if it is careful. -/
theorem Ledger.step (h : s.Ledger limit) {label : Label} (ht : s.step cfg limit label = some t) :
    t.Kept ∧ (t.Balanced limit ↔ label.Careful s) := by
  have hinv := (h.inv.step ht).inv
  have hsafe : label.Careful s → t.Ledger limit → t.Kept ∧ (t.Balanced limit ↔ label.Careful s) :=
    fun hcareful hledger ↦ ⟨hledger.toKept, iff_of_true hledger.toBalanced hcareful⟩
  cases label with
  | lifecycle move => exact hsafe trivial (h.moveLifecycle ht)
  | seen thread request fingerprint =>
    obtain ⟨⟩ := ht
    exact hsafe trivial (h.call _ _ _ rfl (fun _ ↦ rfl) hinv)
  | reserve thread request fingerprint owner =>
    obtain ⟨⟩ := ht
    exact hsafe trivial (h.call _ _ _ rfl (fun _ ↦ rfl) hinv)
  | commit thread r volatile =>
    obtain ⟨⟩ := ht
    exact hsafe trivial (h.call _ _ _ rfl (fun _ ↦ rfl) hinv)
  | rollback thread r =>
    obtain ⟨⟩ := ht
    exact hsafe trivial (h.call _ _ _ rfl (fun _ ↦ rfl) hinv)
  | forget thread request =>
    obtain ⟨⟩ := ht
    exact hsafe trivial (h.call _ _ _ rfl (fun _ ↦ rfl) hinv)
  | act n event =>
    obtain ⟨c, hn, ht⟩ := Option.bind_eq_some_iff.1 ht
    by_cases hcompensate : c.stage = .seenCompensate ∧ event = .next
    · obtain ⟨hc, rfl⟩ := hcompensate
      rw [actSeen_compensate hc] at ht
      obtain ⟨⟩ := ht
      obtain ⟨hkept, hbalanced⟩ := h.compensate hn hc hinv
      refine ⟨hkept, hbalanced.trans ?_⟩
      simp [Label.Careful, hn, hc]
    · refine hsafe (careful_of_not_compensate hn hcompensate) ?_
      split at ht
      · rename_i u hu
        obtain ⟨⟩ := ht
        rcases h.actSeen hn hu with ⟨hc, hevent, -⟩ | hledger
        · exact absurd ⟨hc, hevent⟩ hcompensate
        · exact hledger
      · exact h.actOther hn ht
  | consume thread request =>
    obtain ⟨⟩ := ht
    exact hsafe trivial (h.consume thread request)
  | settle thread request =>
    obtain ⟨⟩ := ht
    exact hsafe trivial (h.settle thread request)
  | rollbackIntent owner =>
    obtain ⟨⟩ := ht
    exact hsafe trivial (h.same (s.bookkeeping_rollbackIntent owner) (.of_eq rfl rfl rfl rfl rfl))
  | collect k =>
    obtain ⟨⟩ := ht
    exact hsafe trivial (h.collect k)

theorem careful_of_disabled {label : Label} (ht : s.step cfg limit label = none) :
    label.Careful s := by
  cases label with
  | act n event =>
    cases hn : s.calls[n]? with
    | none =>
      cases event with
      | next =>
        intro c hc
        rw [hn] at hc
        exact absurd hc (Option.not_mem_none c)
      | _ => trivial
    | some c =>
      refine careful_of_not_compensate hn ?_
      rintro ⟨hc, rfl⟩
      simp [State.step, hn, actSeen_compensate hc] at ht
  | _ => trivial

end State

/-- **The ledger of retry allowances.** Allowances and slots stay within the limit, and the slots are
those of the receipts and the intents in the tables, all along a run exactly if its steps are careful. -/
theorem balanced_iff_careful (cfg : Config) (limit : ℕ) (labels : List Label) :
    (machine cfg limit).Always (State.Balanced limit) State.new labels ↔
      (machine cfg limit).Along (fun s label ↦ label.Careful s) State.new labels := by
  refine Machine.always_iff_along (I := State.Kept) (fun s label t hs hP ht ↦ ?_)
    (fun s label _ _ ht ↦ State.careful_of_disabled ht) .new (.new limit)
  exact State.Ledger.step ⟨hs, hP⟩ ht

/-- A decision of which the push failed, and the same request again, interrupted in `filter.add`. -/
def interruptedAgain : List Label :=
  [.seen 1 0 7, .act 0 .next, .act 0 .next, .act 0 .next, .act 0 .next, .act 0 .added, .act 0 .next,
    .act 0 .next, .seen 1 0 7, .act 1 .next, .act 1 .next, .act 1 .next, .act 1 .next,
    .act 1 .interrupted, .act 1 .next]

/-- Two slots are taken for one receipt. -/
theorem not_always_balanced :
    ¬ ∀ (cfg : Config) (limit : ℕ) (s : State), (machine cfg limit).Reachable s →
      s.Balanced limit := by
  intro h
  have hs := h ⟨false, false⟩ 4 _ ⟨interruptedAgain, rfl⟩
  exact absurd hs.slots (by decide)

end Dupefilter

end ScrapyExtension
