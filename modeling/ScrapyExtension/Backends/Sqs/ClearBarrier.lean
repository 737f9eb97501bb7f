import ScrapyExtension.Backends.Sqs.Layers

/-!
# The barrier of a clear

Between the start of a purge and the end of its waiting window nothing else happens on its queue, in this
generation or in the next; and no receipt from before the clear, or from another generation, is used
after it.

A generation with leases is the last one, since the next is only published once a disconnect has drained
it and has given the connect lock back. So two calls on one queue always share a lifecycle, and there a
clear waits until the operations are gone and keeps new ones out. What is left are receipts: their epochs
are at most the one of the lifecycle, and below it while a clear is through.
-/

namespace ScrapyExtension

namespace Sqs

namespace Stage

/-- The lifecycle, and where it was found. -/
def place : Stage → Option Place
  | enter _ x | inside _ x _ | broker _ x _ | poison _ x | leave _ x _ | drain x | retire x | purge x
  | wait x => some x
  | _ => none

/-- The queue. -/
def queue : Stage → Option ℕ
  | lookup _ _ u => some u
  | stage => stage.place.map (·.queueUrl)

/-- The epoch that the operation has seen. -/
def epoch : Stage → Option ℕ
  | inside _ _ e | broker _ _ e => some e
  | _ => none

/-- A message operation is at the broker. -/
def atBroker : Stage → Option Place
  | broker _ x _ | poison _ x => some x
  | _ => none

/-- The purge has been sent, and the waiting window is not over. -/
def window : Stage → Option Place
  | purge x | wait x => some x
  | _ => none

theorem leases_of_place {stage : Stage} {x : Place} (h : stage.place = some x) :
    stage.leases = some x.generation := by
  cases stage <;> first | (obtain rfl := Option.some.inj h; rfl) | cases h

theorem operates_of_epoch {stage : Stage} {x : Place} {e : ℕ} (h : stage.place = some x)
    (he : stage.epoch = some e) : stage.operates = some x.lifecycle := by
  cases stage <;> first | (obtain rfl := Option.some.inj h; rfl) | cases he

end Stage

namespace State

variable {s t : State} {n : ℕ} {a b : Stage} {outcome : Outcome}

/-- What a call has to do with the records that it uses. -/
structure Fits (s : State) (stage : Stage) : Prop where
  place : ∀ x, stage.place = some x →
    (s.generations x.generation).queueLifecycles x.queueUrl = some x.lifecycle
  epoch : ∀ x e, stage.place = some x → stage.epoch = some e → e = (s.lifecycles x.lifecycle).epoch
  legacy : ∀ r action, stage.purpose = some (.legacy r action) → r ∈ s.issued
  receipt : ∀ p r g, stage.purpose = some p → s.receipt p = some r → stage.leases = some g →
    (r.generationKey = none ∨ r.generationKey = some g) ∧ ∀ u, stage.queue = some u → r.queueUrl = u
  sends : ∀ p r x e, stage = .broker p x e → s.receipt p = some r →
    r.queueEpoch = none ∨ r.queueEpoch = some e
  /-- A receipt names its queue. -/
  named : ∀ p g, stage = .resolve p g → s.receipt p = none

/-- What holds of a receipt that has been issued: unless its generation is gone, its epoch is one that the
lifecycle has had, and the present one only if no clear has ended since. -/
structure Knows (s : State) (r : Receipt) (g e : ℕ) : Prop where
  generationKey : r.generationKey = some g
  queueEpoch : r.queueEpoch = some e
  lt : g < s.count
  current : s.generation = some g ∨ 0 < (s.generations g).activeLeases →
    ∃ l, (s.generations g).queueLifecycles r.queueUrl = some l ∧ e ≤ (s.lifecycles l).epoch ∧
      (e = (s.lifecycles l).epoch → r.clears = s.clears r.queueUrl) ∧
      (0 < s.held Stage.excludes l → e < (s.lifecycles l).epoch)

structure Aligned (s : State) : Prop where
  known : ∀ g u l, (s.generations g).queueLifecycles u = some l → l < s.lifecycleCount
  stages : ∀ stage ∈ s.calls, s.Fits stage
  receipts : ∀ r ∈ s.issued, ∃ g e, s.Knows r g e
  legacy : ∀ r, s.lastReceipt = some r → r ∈ s.issued
  tokens : ∀ x ∈ s.tokens, x.receipt ∈ s.issued ∨
    (x.receipt.generationKey = none ∧ x.receipt.queueEpoch = none)

/-- All layers. -/
structure Inv (s : State) : Prop where
  leasing : s.Leasing
  fenced : s.Fenced
  settling : s.Settling
  aligned : s.Aligned

theorem Inv.new : State.new.Inv where
  leasing := ⟨fun _ ↦ rfl, by simp [State.new], nofun, by simp [State.new], rfl, nofun, nofun⟩
  fenced := ⟨fun _ ↦ rfl, fun _ ↦ rfl, fun _ _ ↦ rfl⟩
  settling := ⟨nofun, by simp [State.new], by simp [State.new]⟩
  aligned := ⟨nofun, nofun, nofun, nofun, nofun⟩

/-! ## Frames -/

/-- The receipt of a purpose is read off the tokens. -/
theorem receipt_congr (h : t.tokens.map (·.receipt) = s.tokens.map (·.receipt)) (p : Purpose) :
    t.receipt p = s.receipt p := by
  cases p with
  | token k action => simp only [State.receipt, ← List.getElem?_map, h]
  | _ => rfl

/-- A stage that has to do with no record. -/
theorem Fits.of_none (hplace : b.place = none) (hpurpose : b.purpose = none) : s.Fits b := by
  refine ⟨?_, ?_, ?_, ?_, ?_, ?_⟩
  · rw [hplace]
    exact nofun
  · rw [hplace]
    exact nofun
  · rw [hpurpose]
    exact nofun
  · rw [hpurpose]
    exact nofun
  · rintro p r x e rfl
    cases hpurpose
  · rintro p g rfl
    cases hpurpose

theorem Fits.congr {stage : Stage} (h : s.Fits stage)
    (hentries : ∀ x, stage.place = some x → (t.generations x.generation).queueLifecycles x.queueUrl =
      (s.generations x.generation).queueLifecycles x.queueUrl)
    (hepochs : ∀ x e, stage.place = some x → stage.epoch = some e →
      (t.lifecycles x.lifecycle).epoch = (s.lifecycles x.lifecycle).epoch)
    (hissued : ∀ r ∈ s.issued, r ∈ t.issued)
    (hreceipt : ∀ p, stage.purpose = some p → t.receipt p = s.receipt p) : t.Fits stage := by
  refine ⟨fun x hx ↦ ?_, fun x e hx he ↦ ?_, fun r action hp ↦ hissued r (h.legacy r action hp),
    fun p r g hp hr ↦ ?_, fun p r x e hb hr ↦ ?_, fun p g hb ↦ ?_⟩
  · rw [hentries x hx]
    exact h.place x hx
  · rw [hepochs x e hx he]
    exact h.epoch x e hx he
  · rw [hreceipt p hp] at hr
    exact h.receipt p r g hp hr
  · subst hb
    rw [hreceipt p rfl] at hr
    exact h.sends p r x e rfl hr
  · subst hb
    rw [hreceipt p rfl]
    exact h.named p g rfl

theorem Knows.congr {r : Receipt} {g e : ℕ} (h : s.Knows r g e) (hcount : s.count ≤ t.count)
    (huse : t.generation = some g ∨ 0 < (t.generations g).activeLeases →
      s.generation = some g ∨ 0 < (s.generations g).activeLeases)
    (hentry : ∀ l, (s.generations g).queueLifecycles r.queueUrl = some l →
      (t.generations g).queueLifecycles r.queueUrl = some l ∧
        (t.lifecycles l).epoch = (s.lifecycles l).epoch)
    (hclears : t.clears = s.clears)
    (hexcludes : ∀ l, 0 < t.held Stage.excludes l → 0 < s.held Stage.excludes l) : t.Knows r g e := by
  refine ⟨h.generationKey, h.queueEpoch, h.lt.trans_le hcount, fun hg ↦ ?_⟩
  obtain ⟨l, hl, hle, heq, hlt⟩ := h.current (huse hg)
  obtain ⟨hl', he⟩ := hentry l hl
  refine ⟨l, hl', by rwa [he], fun heq' ↦ ?_, fun hpos ↦ ?_⟩
  · rw [hclears]
    exact heq (heq'.trans he)
  · rw [he]
    exact hlt (hexcludes l hpos)

/-- A call goes on, and what receipts are compared with stays. -/
theorem Aligned.move (h : s.Aligned) (m : s.Moves t n a b) (hfits : s.Fits b)
    (hexcludes : ∀ l, b.excludes = some l → a.excludes = some l) (hcount : t.count = s.count)
    (huse : ∀ g, t.generation = some g ∨ 0 < (t.generations g).activeLeases →
      s.generation = some g ∨ 0 < (s.generations g).activeLeases)
    (hentries : ∀ g, (t.generations g).queueLifecycles = (s.generations g).queueLifecycles)
    (hepochs : ∀ l, (t.lifecycles l).epoch = (s.lifecycles l).epoch)
    (hknown : t.lifecycleCount = s.lifecycleCount)
    (htokens : t.tokens.map (·.receipt) = s.tokens.map (·.receipt)) (hissued : t.issued = s.issued)
    (hlegacy : ∀ r, t.lastReceipt = some r → s.lastReceipt = some r) (hclears : t.clears = s.clears) :
    t.Aligned := by
  have hcongr : ∀ stage, s.Fits stage → t.Fits stage := fun stage hs ↦
    hs.congr (fun x _ ↦ by rw [hentries]) (fun x _ _ _ ↦ hepochs _) (fun r hr ↦ hissued ▸ hr)
      fun p _ ↦ receipt_congr htokens p
  refine ⟨fun g u l hl ↦ ?_, m.mem (fun stage hs ↦ hcongr stage (h.stages stage hs)) (hcongr b hfits),
    fun r hr ↦ ?_, fun r hr ↦ ?_, fun x hx ↦ ?_⟩
  · rw [hknown]
    exact h.known g u l (hentries g ▸ hl)
  · obtain ⟨g, e, hk⟩ := h.receipts r (hissued ▸ hr)
    refine ⟨g, e, hk.congr hcount.ge (huse g) (fun l hl ↦ ⟨by rwa [hentries], hepochs l⟩) hclears
      fun l hl ↦ ?_⟩
    have hheld := m.held Stage.excludes l
    by_cases hb : b.excludes = some l
    · simp only [hb, hexcludes l hb] at hheld
      omega
    · simp only [hb, decide_false, Bool.toNat_false] at hheld
      omega
  · rw [hissued]
    exact h.legacy r (hlegacy r hr)
  · rw [hissued]
    have hmem : x.receipt ∈ s.tokens.map (·.receipt) := htokens ▸ List.mem_map_of_mem hx
    obtain ⟨y, hy, heq⟩ := List.mem_map.1 hmem
    rw [← heq]
    exact h.tokens y hy

/-! ## Steps -/

/-- A call goes on and changes nothing. -/
theorem Inv.goto (h : s.Inv) (hn : s.calls[n]? = some a) (hfits : s.Fits b) (hleases : b.leases = a.leases)
    (hlocks : b.locks = a.locks) (hdrains : b.drains = a.drains) (hdrops : b.drops = a.drops)
    (hfencing : b.fencing = a.fencing) (hclaiming : b.claiming = a.claiming) : (s.goto n b).Inv := by
  have m : s.Moves (s.goto n b) n a b := .goto hn
  have hexcludes : b.excludes = a.excludes := congrArg (·.2.2) hfencing
  exact ⟨h.leasing.move m (by rw [hlocks]; rfl) hleases hdrains (fun g hg ↦ hdrops ▸ hg)
      (fun _ ↦ ⟨rfl, rfl⟩) rfl rfl,
    h.fenced.move m hfencing rfl, h.settling.move m hclaiming rfl,
    h.aligned.move m hfits (fun l hl ↦ hexcludes ▸ hl) rfl (fun _ ↦ id) (fun _ ↦ rfl) (fun _ ↦ rfl) rfl rfl rfl
      (fun _ ↦ id) rfl⟩

/-- The legacy slot is emptied. -/
theorem Inv.forget (h : s.Inv) : ({ s with lastReceipt := none } : State).Inv where
  leasing := { h.leasing with }
  fenced := { h.fenced with }
  settling := { h.settling with }
  aligned := { h.aligned with
    stages := fun stage hs ↦
      (h.aligned.stages stage hs).congr (fun _ _ ↦ rfl) (fun _ _ _ _ ↦ rfl) (fun _ ↦ id) fun _ _ ↦ rfl
    receipts := fun r hr ↦ by
      obtain ⟨g, e, hk⟩ := h.aligned.receipts r hr
      exact ⟨g, e, { hk with }⟩
    legacy := nofun }

theorem Inv.clearLegacyReceiptIfCurrent (h : s.Inv) (r : Receipt) :
    (s.clearLegacyReceiptIfCurrent r).Inv := by
  rw [State.clearLegacyReceiptIfCurrent]
  split_ifs
  · exact h.forget
  · exact h

@[simp] theorem clearLegacyReceiptIfCurrent_calls (s : State) (r : Receipt) :
    (s.clearLegacyReceiptIfCurrent r).calls = s.calls := by
  rw [State.clearLegacyReceiptIfCurrent]
  split_ifs <;> rfl

/-- What a slot that is emptied leaves. -/
theorem clearLegacyReceiptIfCurrent_fits (r : Receipt) (h : s.Fits b) :
    (s.clearLegacyReceiptIfCurrent r).Fits b := by
  rw [State.clearLegacyReceiptIfCurrent]
  split_ifs
  · exact h.congr (fun _ _ ↦ rfl) (fun _ _ _ _ ↦ rfl) (fun _ ↦ id) fun _ _ ↦ rfl
  · exact h

theorem setLeases_generations (s : State) (g m g' : ℕ) :
    ((s.setLeases g m).generations g').queueLifecycles = (s.generations g').queueLifecycles := by
  by_cases hg : g' = g
  · subst hg
    simp [setLeases, setGeneration]
  · simp [setLeases, setGeneration, Function.update_of_ne hg]

/-- A lease is taken. -/
theorem Inv.lease {p : Purpose} {g : ℕ} (h : s.Inv) (hn : s.calls[n]? = some (.lease p))
    (hlease : s.leaseGeneration ((s.receipt p).bind (·.generationKey)) = .leased g) :
    ((s.setLeases g ((s.generations g).activeLeases + 1)).goto n (s.admitted g p)).Inv := by
  obtain ⟨hkey, hgeneration⟩ : (((s.receipt p).bind (·.generationKey)) = none ∨
      ((s.receipt p).bind (·.generationKey)) = some g) ∧ s.generation = some g := by
    rw [leaseGeneration] at hlease
    split_ifs at hlease with hretired
    split at hlease
    · cases hlease
    · next g' hg' =>
      split_ifs at hlease
      obtain ⟨⟩ := hlease
      refine ⟨?_, hg'⟩
      rw [not_and_or, not_not, hg'] at hretired
      rcases hretired with hnone | hsome
      · exact .inl (Option.not_isSome_iff_eq_none.1 hnone)
      · exact .inr hsome.symm
  have hadmitted : (s.admitted g p).leases = some g ∧ (s.admitted g p).purpose = some p ∧
      (s.admitted g p).place = none ∧ (s.admitted g p).locks = false ∧ (s.admitted g p).drains = none ∧
      (s.admitted g p).drops = none ∧ (s.admitted g p).fencing = (none, none, none) ∧
      (s.admitted g p).claiming = (Stage.lease p).claiming := by
    rw [admitted]
    split <;> exact ⟨rfl, rfl, rfl, rfl, rfl, rfl, rfl, rfl⟩
  obtain ⟨hleases, hpurpose, hplace, hlocks, hdrains, hdrops, hfencing, hclaiming⟩ := hadmitted
  have m : s.Moves ((s.setLeases g ((s.generations g).activeLeases + 1)).goto n (s.admitted g p)) n
      (.lease p) (s.admitted g p) := ⟨hn, rfl⟩
  have hfits : s.Fits (s.admitted g p) := by
    refine ⟨by rw [hplace]; exact nofun, by rw [hplace]; exact nofun, fun r action hp ↦ ?_,
      fun q r g' hq hr hg' ↦ ?_, ?_, ?_⟩
    · rw [hpurpose] at hp
      exact (h.aligned.stages _ m.mem_was).legacy r action hp
    · rw [hpurpose] at hq
      obtain rfl := Option.some.inj hq
      rw [hleases] at hg'
      obtain rfl := Option.some.inj hg'
      rw [hr] at hkey
      refine ⟨hkey, fun u hu ↦ ?_⟩
      rw [admitted, hr] at hu
      exact Option.some.inj hu
    · rintro q r x e heq
      rw [heq] at hplace
      cases hplace
    · intro q g' heq
      rw [admitted] at heq
      split at heq
      · cases heq
      · next hnone =>
        obtain ⟨rfl, -⟩ := Stage.resolve.inj heq
        exact hnone
  refine ⟨?_, h.fenced.move m hfencing rfl, h.settling.move m hclaiming rfl, ?_⟩
  · refine h.leasing.setLeases m rfl (by rw [hlocks]; rfl) hdrains hdrops (fun g' hg' ↦ ?_) ?_
      (.inl hgeneration) (.inl hgeneration) rfl rfl
    · rw [hleases]
      simpa [Stage.leases] using hg'.symm
    · have ha : (Stage.lease p).leases = none := rfl
      rw [hleases, ha]
      simp
  · refine h.aligned.move m hfits (fun l hl ↦ ?_) rfl (fun g' hg' ↦ ?_) (setLeases_generations s g _)
      (fun _ ↦ rfl) rfl rfl rfl (fun _ ↦ id) rfl
    · rw [show (s.admitted g p).excludes = none from congrArg (·.2.2) hfencing] at hl
      cases hl
    · by_cases hg : g' = g
      · subst hg
        exact .inl hgeneration
      · have hother : ((s.setLeases g ((s.generations g).activeLeases + 1)).generations g') =
          s.generations g' := Function.update_of_ne hg _ _
        exact hg'.imp_right fun hpos ↦ by rwa [← hother]

/-- A lease is given back. -/
theorem Inv.release {g : ℕ} (h : s.Inv) (hn : s.calls[n]? = some a) (ha : a.leases = some g)
    (hlocks : a.locks = false) (hfencing : b.fencing = a.fencing) (hclaiming : b.claiming = a.claiming)
    (hdrains : a.drains = none) (hb : b.leases = none ∧ b.locks = false ∧ b.drains = none ∧ b.drops = none)
    (hfits : s.Fits b) : ((s.setLeases g ((s.generations g).activeLeases - 1)).goto n b).Inv := by
  have m : s.Moves ((s.setLeases g ((s.generations g).activeLeases - 1)).goto n b) n a b := ⟨hn, rfl⟩
  have hpos := h.leasing.pos m.mem_was ha
  have hexcludes : b.excludes = a.excludes := congrArg (·.2.2) hfencing
  refine ⟨?_, h.fenced.move m hfencing rfl, h.settling.move m hclaiming rfl, ?_⟩
  · refine h.leasing.setLeases m rfl (by rw [hlocks, hb.2.1]; rfl) (hb.2.2.1.trans hdrains.symm) hb.2.2.2
      (fun g' hg' ↦ ?_) ?_ (.inr hpos) (.inr (by omega)) rfl rfl
    · rw [ha, hb.1]
      simpa using hg'.symm
    · simp only [ha, hb.1, decide_true, reduceCtorEq, decide_false, Bool.toNat_true, Bool.toNat_false]
      omega
  · refine h.aligned.move m hfits (fun l hl ↦ hexcludes ▸ hl) rfl (fun g' hg' ↦ ?_)
      (setLeases_generations s g _) (fun _ ↦ rfl) rfl rfl rfl (fun _ ↦ id) rfl
    by_cases hg : g' = g
    · subst hg
      exact .inr hpos
    · have hother : ((s.setLeases g ((s.generations g).activeLeases - 1)).generations g') =
        s.generations g' := Function.update_of_ne hg _ _
      exact hg'.imp_right fun hp ↦ by rwa [← hother]

/-- A step on a lifecycle that leaves its epoch alone. -/
theorem Inv.setLifecycle {x : Place} {y : QueueLifecycle} (h : s.Inv) (hn : s.calls[n]? = some a)
    (hfits : s.Fits b) (hleases : b.leases = a.leases) (hlocks : b.locks = a.locks)
    (hdrains : b.drains = a.drains) (hdrops : b.drops = a.drops) (hclaiming : b.claiming = a.claiming)
    (hepoch : y.epoch = (s.lifecycles x.lifecycle).epoch)
    (hexcludes : b.excludes = none) (hexcludes' : a.excludes = none)
    (hsame : ∀ l', l' ≠ x.lifecycle → (a.operates = some l' ↔ b.operates = some l') ∧
      (a.clears = some l' ↔ b.clears = some l'))
    (hoperations : y.activeOperations + (decide (a.operates = some x.lifecycle)).toNat =
      (s.lifecycles x.lifecycle).activeOperations + (decide (b.operates = some x.lifecycle)).toNat)
    (hclearing : y.clearing.toNat + (decide (a.clears = some x.lifecycle)).toNat =
      (s.lifecycles x.lifecycle).clearing.toNat + (decide (b.clears = some x.lifecycle)).toNat)
    (hfree : 0 < s.held Stage.excludes x.lifecycle → y.activeOperations = 0) :
    ((s.setLifecycle x.lifecycle y).goto n b).Inv := by
  have m : s.Moves ((s.setLifecycle x.lifecycle y).goto n b) n a b := ⟨hn, rfl⟩
  have hepochs : ∀ l, (((s.setLifecycle x.lifecycle y).goto n b).lifecycles l).epoch =
      (s.lifecycles l).epoch := by
    intro l
    by_cases hl : l = x.lifecycle
    · subst hl
      exact (congrArg QueueLifecycle.epoch (Function.update_self _ _ _)).trans hepoch
    · exact congrArg QueueLifecycle.epoch (Function.update_of_ne hl _ _)
  refine ⟨?_, ?_, h.settling.move m hclaiming rfl, ?_⟩
  · exact h.leasing.move m (by rw [hlocks]; rfl) hleases hdrains (fun g hg ↦ hdrops ▸ hg)
      (fun _ ↦ ⟨rfl, rfl⟩) rfl rfl
  · refine h.fenced.setLifecycle m rfl (fun l' hl' ↦ ⟨(hsame l' hl').1, (hsame l' hl').2, ?_⟩) hoperations
      hclearing fun hpos ↦ hfree ?_
    · rw [hexcludes, hexcludes']
    · rwa [m.held_eq (hexcludes.trans hexcludes'.symm)] at hpos
  · refine h.aligned.move m hfits (fun l hl ↦ ?_) rfl (fun _ ↦ id) (fun _ ↦ rfl) hepochs rfl rfl rfl
      (fun _ ↦ id) rfl
    rw [hexcludes] at hl
    cases hl

/-- Every call below a lease sees the entry that its generation has. -/
theorem Inv.entry {stage : Stage} {x : Place} (h : s.Inv) (hs : stage ∈ s.calls)
    (hx : stage.place = some x) :
    (s.generations x.generation).queueLifecycles x.queueUrl = some x.lifecycle :=
  (h.aligned.stages stage hs).place x hx

/-- The barrier is closed, and the epoch goes up. -/
theorem Inv.advance {x : Place} (h : s.Inv) (hn : s.calls[n]? = some (.drain x))
    (hidle : (s.lifecycles x.lifecycle).activeOperations = 0) :
    ((s.setLifecycle x.lifecycle { s.lifecycles x.lifecycle with
      epoch := (s.lifecycles x.lifecycle).epoch + 1 }).goto n (.retire x)).Inv := by
  generalize ht : (s.setLifecycle x.lifecycle { s.lifecycles x.lifecycle with
      epoch := (s.lifecycles x.lifecycle).epoch + 1 }).goto n (.retire x) = t
  have m : s.Moves t n (.drain x) (.retire x) := ⟨hn, by rw [← ht]; rfl⟩
  have hlifecycles : t.lifecycles = Function.update s.lifecycles x.lifecycle
      { s.lifecycles x.lifecycle with epoch := (s.lifecycles x.lifecycle).epoch + 1 } := by rw [← ht]; rfl
  have hself : (t.lifecycles x.lifecycle).epoch = (s.lifecycles x.lifecycle).epoch + 1 := by
    rw [hlifecycles, Function.update_self]
  have hother : ∀ l, l ≠ x.lifecycle → t.lifecycles l = s.lifecycles l := fun l hl ↦ by
    rw [hlifecycles, Function.update_of_ne hl]
  have hrecords : t.generations = s.generations := by rw [← ht]; rfl
  have hheld : ∀ l, l ≠ x.lifecycle → t.held Stage.excludes l = s.held Stage.excludes l := by
    intro l hl
    have := m.held Stage.excludes l
    simp [Stage.excludes, hl.symm] at this
    exact this
  refine ⟨?_, ?_, h.settling.move m rfl (by rw [← ht]; rfl), ?_⟩
  · exact h.leasing.move m (by rw [← ht]; rfl) rfl rfl nofun (fun _ ↦ by rw [hrecords]; exact ⟨rfl, rfl⟩)
      (by rw [← ht]; rfl) (by rw [← ht]; rfl)
  · refine h.fenced.setLifecycle m hlifecycles (fun l hl ↦ ⟨.rfl, .rfl, ?_⟩) rfl ?_ fun _ ↦ hidle
    · simpa [Stage.excludes] using hl.symm
    · simp [Stage.clears]
  · have hepoch : ∀ stage ∈ s.calls, ∀ y e, stage.place = some y → stage.epoch = some e →
        (t.lifecycles y.lifecycle).epoch = (s.lifecycles y.lifecycle).epoch := by
      intro stage hs y e hy he
      rw [hother]
      intro heq
      -- an operation that has seen the epoch would be active
      have hpos := held_pos hs (Stage.operates_of_epoch hy he)
      rw [heq, ← h.fenced.operations, hidle] at hpos
      exact absurd hpos (lt_irrefl 0)
    have hcongr : ∀ stage, s.Fits stage → (∀ y e, stage.place = some y → stage.epoch = some e →
        (t.lifecycles y.lifecycle).epoch = (s.lifecycles y.lifecycle).epoch) → t.Fits stage := by
      intro stage hs he
      refine hs.congr (fun _ _ ↦ by rw [hrecords]) he (fun r hr ↦ ?_) fun p _ ↦ receipt_congr ?_ p
      · rw [← ht]
        exact hr
      · rw [← ht]
        rfl
    have hretire : s.Fits (.retire x) :=
      ⟨(h.aligned.stages _ m.mem_was).place, nofun, nofun, nofun, nofun, nofun⟩
    refine ⟨fun g u l hl ↦ ?_, m.mem (fun stage hs ↦ hcongr stage (h.aligned.stages stage hs) (hepoch stage hs))
      (hcongr _ hretire nofun), fun r hr ↦ ?_, ?_, ?_⟩
    · rw [hrecords] at hl
      rw [← ht]
      exact h.aligned.known g u l hl
    · obtain ⟨g, e, hk⟩ := h.aligned.receipts r (by rw [← ht] at hr; exact hr)
      refine ⟨g, e, hk.generationKey, hk.queueEpoch, ?_, fun hg ↦ ?_⟩
      · rw [← ht]
        exact hk.lt
      rw [hrecords] at hg ⊢
      obtain ⟨l, hl, hle, heq, hlt⟩ := hk.current (by rw [← ht] at hg; exact hg)
      have hclears : t.clears = s.clears := by rw [← ht]; rfl
      refine ⟨l, hl, ?_⟩
      by_cases hx : l = x.lifecycle
      · subst hx
        rw [hself]
        exact ⟨by omega, fun he ↦ by omega, fun _ ↦ by omega⟩
      · rw [hother l hx, hclears, hheld l hx]
        exact ⟨hle, heq, hlt⟩
    · rw [← ht]
      exact h.aligned.legacy
    · rw [← ht]
      exact h.aligned.tokens

/-- The waiting window is over. -/
theorem Inv.endClear {x : Place} (h : s.Inv) (hn : s.calls[n]? = some a) (ha : a = .purge x ∨ a = .wait x) :
    ((s.endClear x).goto n (.release .clear x.generation none)).Inv := by
  generalize ht : (s.endClear x).goto n (.release .clear x.generation none) = t
  have m : s.Moves t n a (.release .clear x.generation none) := ⟨hn, by rw [← ht]; rfl⟩
  have hview : a.leases = some x.generation ∧ a.locks = false ∧ a.drains = none ∧ a.drops = none ∧
      a.operates = none ∧ a.clears = some x.lifecycle ∧ a.excludes = some x.lifecycle ∧
      a.claiming = (none, none) ∧ a.place = some x := by
    rcases ha with rfl | rfl <;> exact ⟨rfl, rfl, rfl, rfl, rfl, rfl, rfl, rfl, rfl⟩
  obtain ⟨hleases, hlocks, hdrains, hdrops, hoperates, hclears, hexcludes, hclaiming, hplace⟩ := hview
  have hlifecycles : t.lifecycles = Function.update s.lifecycles x.lifecycle
      { s.lifecycles x.lifecycle with clearing := false } := by rw [← ht]; rfl
  have hepochs : ∀ l, (t.lifecycles l).epoch = (s.lifecycles l).epoch := by
    intro l
    rw [hlifecycles]
    by_cases hl : l = x.lifecycle
    · subst hl
      rw [Function.update_self]
    · rw [Function.update_of_ne hl]
  have hrecords : t.generations = s.generations := by rw [← ht]; rfl
  have hheld : ∀ l, t.held Stage.excludes l ≤ s.held Stage.excludes l := by
    intro l
    have := m.held Stage.excludes l
    have hb : (Stage.release .clear x.generation none).excludes = none := rfl
    simp only [hb, reduceCtorEq, decide_false, Bool.toNat_false] at this
    omega
  have hexcluded := held_pos m.mem_was hexcludes
  refine ⟨?_, ?_, h.settling.move m hclaiming.symm (by rw [← ht]; rfl), ?_⟩
  · exact h.leasing.move m (by rw [← ht, hlocks]; rfl) hleases.symm hdrains.symm nofun
      (fun _ ↦ by rw [hrecords]; exact ⟨rfl, rfl⟩) (by rw [← ht]; rfl) (by rw [← ht]; rfl)
  · refine h.fenced.setLifecycle m hlifecycles (fun l hl ↦ ⟨?_, ?_, ?_⟩) ?_ ?_ fun _ ↦
      h.fenced.exclusive _ hexcluded
    · rw [hoperates]
      rfl
    · rw [hclears]
      simpa [Stage.clears] using hl.symm
    · rw [hexcludes]
      simpa [Stage.excludes] using hl.symm
    · rw [hoperates]
      rfl
    · -- the flag was set by this call
      have hset := h.fenced.clearing x.lifecycle
      have hpos := hexcluded.trans_le (excludes_le_clears s x.lifecycle)
      rw [← hset] at hpos
      have htrue : (s.lifecycles x.lifecycle).clearing = true := by
        cases hc : (s.lifecycles x.lifecycle).clearing with
        | true => rfl
        | false => simp [hc] at hpos
      have hb : (Stage.release .clear x.generation none).clears = none := rfl
      simp [hclears, htrue, hb]
  · have hcongr : ∀ stage, s.Fits stage → t.Fits stage := by
      intro stage hs
      refine hs.congr (fun _ _ ↦ by rw [hrecords]) (fun _ _ _ _ ↦ hepochs _) (fun r hr ↦ ?_) fun p _ ↦
        receipt_congr ?_ p
      · rw [← ht]
        exact hr
      · rw [← ht]
        rfl
    have hrelease : s.Fits (.release .clear x.generation none) := by
      refine ⟨nofun, nofun, nofun, fun p r g hp hr ↦ ?_, nofun, nofun⟩
      obtain rfl := Option.some.inj hp
      cases hr
    refine ⟨fun g u l hl ↦ ?_, m.mem (fun stage hs ↦ hcongr stage (h.aligned.stages stage hs))
      (hcongr _ hrelease), fun r hr ↦ ?_, ?_, ?_⟩
    · rw [hrecords] at hl
      rw [← ht]
      exact h.aligned.known g u l hl
    · obtain ⟨g, e, hk⟩ := h.aligned.receipts r (by rw [← ht] at hr; exact hr)
      refine ⟨g, e, hk.generationKey, hk.queueEpoch, ?_, fun hg ↦ ?_⟩
      · rw [← ht]
        exact hk.lt
      rw [hrecords] at hg ⊢
      have huse : s.generation = some g ∨ 0 < (s.generations g).activeLeases := by
        rw [← ht] at hg
        exact hg
      obtain ⟨l, hl, hle, heq, hlt⟩ := hk.current huse
      refine ⟨l, hl, by rw [hepochs]; exact hle, fun he ↦ ?_, fun hpos ↦ ?_⟩
      · rw [hepochs] at he
        have hclears' : t.clears = Function.update s.clears x.queueUrl (s.clears x.queueUrl + 1) := by
          rw [← ht]
          rfl
        by_cases hu : r.queueUrl = x.queueUrl
        · -- the receipt is of the lifecycle that was cleared, and too old
          have hlast := h.leasing.last g huse
          have hlast' := h.leasing.last x.generation (.inr (h.leasing.pos m.mem_was hleases))
          obtain rfl : g = x.generation := by omega
          have hentry := h.entry m.mem_was hplace
          rw [hu, hentry] at hl
          obtain rfl := Option.some.inj hl
          exact absurd he (hlt hexcluded).ne
        · rw [hclears', Function.update_of_ne hu]
          exact heq he
      · rw [hepochs]
        exact hlt (hpos.trans_le (hheld l))
    · rw [← ht]
      exact h.aligned.legacy
    · rw [← ht]
      exact h.aligned.tokens

/-- A lifecycle is found. -/
theorem Fits.enter {p : Purpose} {g u l : ℕ} (h : s.Fits (.lookup p g u))
    (hl : (s.generations g).queueLifecycles u = some l) : s.Fits (.enter p ⟨g, u, l⟩) := by
  refine ⟨fun x hx ↦ ?_, nofun, h.legacy, fun q r g' hq hr hg' ↦ ?_, nofun, nofun⟩
  · obtain rfl := Option.some.inj hx
    exact hl
  · obtain ⟨hkey, hurl⟩ := h.receipt q r g' hq hr hg'
    refine ⟨hkey, fun u' hu' ↦ ?_⟩
    obtain rfl := Option.some.inj hu'
    exact hurl u rfl

theorem Inv.lookup {p : Purpose} {g u : ℕ} (h : s.Inv) (hn : s.calls[n]? = some (.lookup p g u)) :
    ((s.queueLifecycleForGeneration g u).1.goto n
      (.enter p ⟨g, u, (s.queueLifecycleForGeneration g u).2⟩)).Inv := by
  have hlookup := h.aligned.stages _ (List.mem_of_getElem? hn)
  rw [queueLifecycleForGeneration]
  split
  · next l hl => exact h.goto hn (hlookup.enter hl) rfl rfl rfl rfl rfl rfl
  next hnone =>
  dsimp only
  generalize ht : State.goto _ _ _ = t
  have m : s.Moves t n (.lookup p g u) (.enter p ⟨g, u, s.lifecycleCount⟩) := ⟨hn, by rw [← ht]; rfl⟩
  have hlifecycles : t.lifecycles = Function.update s.lifecycles s.lifecycleCount ⟨0, false, 0⟩ := by
    rw [← ht]
    rfl
  have hcount : t.lifecycleCount = s.lifecycleCount + 1 := by rw [← ht]; rfl
  have hself : (t.generations g).queueLifecycles =
      Function.update (s.generations g).queueLifecycles u (some s.lifecycleCount) := by
    rw [← ht]
    simp [State.goto, setGeneration]
  have hother : ∀ g', g' ≠ g → t.generations g' = s.generations g' := fun g' hg' ↦ by
    rw [← ht]
    exact Function.update_of_ne hg' _ _
  have hrecords : ∀ g', (t.generations g').activeLeases = (s.generations g').activeLeases ∧
      (t.generations g').accepting = (s.generations g').accepting := by
    intro g'
    by_cases hg : g' = g
    · subst hg
      rw [← ht]
      simp [State.goto, setGeneration]
    · rw [hother g' hg]
      exact ⟨rfl, rfl⟩
  -- what was found stays where it is
  have hentry : ∀ g' u' l, (s.generations g').queueLifecycles u' = some l →
      (t.generations g').queueLifecycles u' = some l := by
    intro g' u' l hl
    by_cases hg : g' = g
    · subst hg
      have hu : u' ≠ u := by
        rintro rfl
        rw [hnone] at hl
        cases hl
      rw [hself, Function.update_of_ne hu, hl]
    · rw [hother g' hg, hl]
  have hepoch : ∀ l, l < s.lifecycleCount → t.lifecycles l = s.lifecycles l := fun l hl ↦ by
    rw [hlifecycles, Function.update_of_ne hl.ne]
  have hplaced : ∀ stage ∈ s.calls, ∀ x, stage.place = some x → x.lifecycle < s.lifecycleCount :=
    fun stage hs x hx ↦ h.aligned.known _ _ _ (h.entry hs hx)
  have hfresh : ∀ f : Stage → Option ℕ, (∀ stage l, f stage = some l → ∃ x, stage.place = some x ∧
      x.lifecycle = l) → s.held f s.lifecycleCount = 0 := by
    intro f hf
    rw [State.held, List.countP_eq_zero]
    intro stage hs hl
    obtain ⟨x, hx, heq⟩ := hf stage _ (by simpa using hl)
    exact absurd (hplaced stage hs x hx) (heq ▸ lt_irrefl _)
  have hoperates := hfresh Stage.operates fun stage l hl ↦ by
    cases stage <;> first | exact ⟨_, rfl, Option.some.inj hl⟩ | cases hl
  have hclears := hfresh Stage.clears fun stage l hl ↦ by
    cases stage <;> first | exact ⟨_, rfl, Option.some.inj hl⟩ | cases hl
  have htokens : t.tokens = s.tokens := by rw [← ht]; rfl
  refine ⟨?_, ?_, h.settling.move m rfl htokens, ?_⟩
  · exact h.leasing.move m (by rw [← ht]; rfl) rfl rfl (by rintro _ ⟨⟩) hrecords (by rw [← ht]; rfl)
      (by rw [← ht]; rfl)
  · refine h.fenced.setLifecycle m hlifecycles (fun _ _ ↦ ⟨.rfl, .rfl, .rfl⟩) ?_ ?_ fun _ ↦ rfl
    · rw [h.fenced.operations, hoperates]
      rfl
    · rw [h.fenced.clearing, hclears]
      rfl
  · have hcongr : ∀ stage, s.Fits stage → (∀ x, stage.place = some x → x.lifecycle < s.lifecycleCount) →
        t.Fits stage := by
      intro stage hs hlt
      refine hs.congr (fun x hx ↦ ?_) (fun x e hx _ ↦ by rw [hepoch _ (hlt x hx)]) (fun r hr ↦ ?_)
        fun q _ ↦ receipt_congr (by rw [htokens]) q
      · rw [hentry _ _ _ (hs.place x hx), hs.place x hx]
      · rw [← ht]
        exact hr
    have henter : t.Fits (.enter p ⟨g, u, s.lifecycleCount⟩) := by
      refine (hcongr _ hlookup (by rintro _ ⟨⟩)).enter ?_
      rw [hself, Function.update_self]
    refine ⟨fun g' u' l hl ↦ ?_, m.mem (fun stage hs ↦ hcongr stage (h.aligned.stages stage hs)
      (hplaced stage hs)) henter, fun r hr ↦ ?_, ?_, ?_⟩
    · rw [hcount]
      by_cases hg : g' = g
      · subst hg
        rw [hself] at hl
        by_cases hu : u' = u
        · subst hu
          rw [Function.update_self] at hl
          obtain rfl := Option.some.inj hl
          exact Nat.lt_succ_self _
        · rw [Function.update_of_ne hu] at hl
          exact Nat.lt_succ_of_lt (h.aligned.known _ _ _ hl)
      · rw [hother g' hg] at hl
        exact Nat.lt_succ_of_lt (h.aligned.known _ _ _ hl)
    · obtain ⟨g', e, hk⟩ := h.aligned.receipts r (by rw [← ht] at hr; exact hr)
      refine ⟨g', e, hk.congr (by rw [← ht]; exact le_rfl) (fun hg' ↦ ?_)
        (fun l hl ↦ ⟨hentry _ _ _ hl, by rw [hepoch _ (h.aligned.known _ _ _ hl)]⟩) (by rw [← ht]; rfl)
        fun l hl ↦ ?_⟩
      · rw [(hrecords g').1] at hg'
        rw [← ht] at hg'
        exact hg'
      · rwa [m.held_eq rfl] at hl
    · rw [← ht]
      exact h.aligned.legacy
    · rw [← ht]
      exact h.aligned.tokens

/-- A step on one token. -/
theorem Inv.setToken {k : ℕ} {x y : AckToken} (h : s.Inv) (hn : s.calls[n]? = some a)
    (hx : s.tokens[k]? = some x) (hreceipt : y.receipt = x.receipt) (hfits : s.Fits b)
    (hleases : b.leases = a.leases) (hlocks : b.locks = a.locks) (hdrains : b.drains = a.drains)
    (hdrops : b.drops = a.drops) (hfencing : b.fencing = a.fencing)
    (hsame : ∀ k', k' ≠ k → (a.claims = some k' ↔ b.claims = some k') ∧
      (a.settles = some k' ↔ b.settles = some k'))
    (hclaims : (decide (y.settlementState = .settling)).toNat + (decide (a.claims = some k)).toNat =
      (decide (x.settlementState = .settling)).toNat + (decide (b.claims = some k)).toNat)
    (hsettled : y.settled + x.settlementState.final.toNat + (decide (a.settles = some k)).toNat =
      x.settled + y.settlementState.final.toNat + (decide (b.settles = some k)).toNat) :
    ((s.setToken k y).goto n b).Inv := by
  have m : s.Moves ((s.setToken k y).goto n b) n a b := ⟨hn, rfl⟩
  have hexcludes : b.excludes = a.excludes := congrArg (·.2.2) hfencing
  have htokens : (s.tokens.set k y).map (·.receipt) = s.tokens.map (·.receipt) := by
    obtain ⟨hk, rfl⟩ := List.getElem?_eq_some_iff.1 hx
    rw [List.map_set, hreceipt]
    refine List.ext_getElem? fun i ↦ ?_
    rw [List.getElem?_set]
    split_ifs with hi hlt
    · subst hi
      simp [hk]
    · subst hi
      exact absurd (by simpa using hk) hlt
    · rfl
  refine ⟨?_, h.fenced.move m hfencing rfl, ?_, ?_⟩
  · exact h.leasing.move m (by rw [hlocks]; rfl) hleases hdrains (fun g hg ↦ hdrops ▸ hg)
      (fun _ ↦ ⟨rfl, rfl⟩) rfl rfl
  · exact h.settling.setToken m hx rfl hsame hclaims hsettled
  · exact h.aligned.move m hfits (fun l hl ↦ hexcludes ▸ hl) rfl (fun _ ↦ id) (fun _ ↦ rfl) (fun _ ↦ rfl) rfl
      htokens rfl (fun _ ↦ id) rfl

theorem Inv.claim {k : ℕ} {action : Action} {x : AckToken} (h : s.Inv)
    (hn : s.calls[n]? = some (.claim k action)) (hx : s.tokens[k]? = some x)
    (hstate : x.settlementState = .pending) :
    ((s.setToken k { x with settlementState := .settling }).goto n (.lease (.token k action))).Inv := by
  have hfits : s.Fits (.lease (.token k action)) := ⟨nofun, nofun, nofun, nofun, nofun, nofun⟩
  refine h.setToken hn hx rfl hfits rfl rfl rfl rfl rfl (fun k' hk' ↦ ⟨?_, .rfl⟩) ?_ ?_
  · simpa [Stage.claims, Stage.purpose] using hk'.symm
  · simp [hstate, Stage.claims, Stage.purpose]
  · simp [hstate, SettlementState.final, Stage.settles]

theorem Inv.succeed {k e : ℕ} {action : Action} {x : Place} {y : AckToken} (h : s.Inv)
    (hn : s.calls[n]? = some (.broker (.token k action) x e)) (hy : s.tokens[k]? = some y)
    (hfits : s.Fits (.leave (.token k action) x (some action.terminal))) :
    ((s.setToken k { y with settled := y.settled + 1 }).goto n
      (.leave (.token k action) x (some action.terminal))).Inv := by
  have hfinal : action.terminal.final = true := by cases action <;> rfl
  refine h.setToken hn hy rfl hfits rfl rfl rfl rfl rfl (fun k' hk' ↦ ⟨.rfl, ?_⟩) rfl ?_
  · simpa [Stage.settles, hfinal] using hk'.symm
  · simp only [Stage.settles, Option.any_some, hfinal, if_true, decide_true, Bool.toNat_true, reduceCtorEq,
      decide_false, Bool.toNat_false]
    omega

theorem Inv.finish {k : ℕ} {result : Option Terminal} {x : AckToken} (h : s.Inv)
    (hn : s.calls[n]? = some (.finish k result)) (hx : s.tokens[k]? = some x) :
    ((s.setToken k { x with settlementState := result.elim .pending .terminal }).goto n
      (if result.isSome then .discard k else .over)).Inv := by
  have hfits : s.Fits (if result.isSome then .discard k else .over) := by
    split_ifs <;> exact .of_none rfl rfl
  -- the call has claimed the token
  have hstate : x.settlementState = .settling := by
    have hpos : 0 < s.held Stage.claims k := held_pos (List.mem_of_getElem? hn) rfl
    rw [h.settling.claims k x hx] at hpos
    by_contra hne
    simp [hne] at hpos
  cases result with
  | none =>
    refine h.setToken hn hx rfl hfits rfl rfl rfl rfl rfl (fun k' hk' ↦ ⟨?_, ?_⟩) ?_ ?_
    · simpa [Stage.claims, Stage.purpose] using hk'.symm
    · simp [Stage.settles]
    · simp [hstate, Stage.claims, Stage.purpose]
    · simp [hstate, SettlementState.final, Stage.settles]
  | some r =>
    refine h.setToken hn hx rfl hfits rfl rfl rfl rfl rfl (fun k' hk' ↦ ⟨?_, ?_⟩) ?_ ?_
    · simpa [Stage.claims, Stage.purpose] using hk'.symm
    · simpa [Stage.settles] using fun _ ↦ hk'.symm
    · simp [hstate, Stage.claims, Stage.purpose]
    · cases hr : r.final <;> simp [hstate, SettlementState.final, Stage.settles, hr]

/-- Records that calls refer to stay when one is added. -/
theorem Inv.grow (h : s.Inv) (hcalls : t.calls = s.calls) (hlock : t.connectLock = s.connectLock)
    (hgeneration : t.generation = s.generation) (hcount : t.count = s.count)
    (hgenerations : t.generations = s.generations) (hlifecycles : t.lifecycles = s.lifecycles)
    (hknown : t.lifecycleCount = s.lifecycleCount) (hclears : t.clears = s.clears)
    (hissued : ∀ r ∈ s.issued, r ∈ t.issued)
    (hreceipt : ∀ k, k < s.tokens.length → t.tokens[k]? = s.tokens[k]?) (hsettling : t.Settling)
    (hreceipts : ∀ r ∈ t.issued, r ∈ s.issued ∨ ∃ g e, s.Knows r g e)
    (hlegacy : ∀ r, t.lastReceipt = some r → r ∈ t.issued)
    (htokens : ∀ x ∈ t.tokens, x ∈ s.tokens ∨ x.receipt ∈ t.issued ∨
      (x.receipt.generationKey = none ∧ x.receipt.queueEpoch = none)) : t.Inv := by
  have hheld : ∀ f k, t.held f k = s.held f k := fun f k ↦ by rw [State.held, hcalls]; rfl
  have hknows : ∀ r g e, s.Knows r g e → t.Knows r g e := by
    intro r g e hk
    refine hk.congr hcount.ge (fun hg ↦ ?_) (fun l hl ↦ ?_) hclears fun l hl ↦ ?_
    · rwa [hgeneration, hgenerations] at hg
    · rw [hgenerations, hlifecycles]
      exact ⟨hl, rfl⟩
    · rwa [hheld] at hl
  refine ⟨⟨fun g ↦ ?_, ?_, ?_, fun g ↦ ?_, ?_, ?_, ?_⟩, ⟨fun l ↦ ?_, fun l ↦ ?_, fun l ↦ ?_⟩, hsettling,
    ⟨?_, fun stage hs ↦ ?_, fun r hr ↦ ?_, hlegacy, fun x hx ↦ ?_⟩⟩
  · rw [hgenerations, hheld, h.leasing.leases]
  · rw [hgeneration, hgenerations, hcount]
    exact h.leasing.last
  · rw [hgeneration, hgenerations]
    exact h.leasing.accepting
  · rw [hgeneration, hgenerations, hheld]
    exact h.leasing.drained g
  · rw [hlock, hcalls, h.leasing.lock]
  · rw [hgeneration, hcalls, hcount]
    exact h.leasing.detached
  · rw [hgenerations, hcalls]
    exact h.leasing.empty
  · rw [hlifecycles, hheld, h.fenced.operations]
  · rw [hlifecycles, hheld, h.fenced.clearing]
  · rw [hlifecycles, hheld]
    exact h.fenced.exclusive l
  · rw [hgenerations, hknown]
    exact h.aligned.known
  · rw [hcalls] at hs
    refine (h.aligned.stages stage hs).congr (fun _ _ ↦ by rw [hgenerations])
      (fun _ _ _ _ ↦ by rw [hlifecycles]) hissued fun p hp ↦ ?_
    cases p with
    | token k action =>
      have hk : stage.claims = some k := by
        cases stage <;> first | (obtain rfl := Option.some.inj hp; rfl) | cases hp
      rw [State.receipt, State.receipt, hreceipt k (h.settling.bound stage hs k hk)]
    | _ => rfl
  · rcases hreceipts r hr with hold | ⟨g, e, hk⟩
    · obtain ⟨g, e, hk⟩ := h.aligned.receipts r hold
      exact ⟨g, e, hknows r g e hk⟩
    · exact ⟨g, e, hknows r g e hk⟩
  · rcases htokens x hx with hold | hnew
    · exact (h.aligned.tokens x hold).imp_left (hissued _)
    · exact hnew

/-- A token that is made by hand. -/
theorem Inv.token (h : s.Inv) (u k : ℕ) :
    ({ s with tokens := s.tokens ++ [⟨⟨u, k, none, none, s.clears u⟩, .pending, 0⟩] } : State).Inv := by
  refine h.grow rfl rfl rfl rfl rfl rfl rfl rfl (fun _ ↦ id) (fun i hi ↦ List.getElem?_append_left hi)
    (h.settling.append rfl rfl rfl rfl) (fun r hr ↦ .inl hr) h.aligned.legacy fun x hx ↦ ?_
  rcases List.mem_append.1 hx with hx | hx
  · exact .inl hx
  · obtain rfl := List.mem_singleton.1 hx
    exact .inr (.inr ⟨rfl, rfl⟩)

/-- A message is handed out. -/
theorem Inv.issue {issueToken : Bool} {x : Place} {e k : ℕ} (h : s.Inv)
    (hn : s.calls[n]? = some (.broker (.pop issueToken) x e)) : (s.issue issueToken x e k).Inv := by
  have hmem : Stage.broker (.pop issueToken) x e ∈ s.calls := List.mem_of_getElem? hn
  have hlast := h.leasing.last x.generation (.inr (h.leasing.pos hmem rfl))
  have hknows : s.Knows ⟨x.queueUrl, k, some x.generation, some e, s.clears x.queueUrl⟩ x.generation e := by
    refine ⟨rfl, rfl, by omega, fun _ ↦ ⟨x.lifecycle, h.entry hmem rfl, ?_, fun _ ↦ rfl, fun hpos ↦ ?_⟩⟩
    · exact ((h.aligned.stages _ hmem).epoch x e rfl rfl).le
    · -- nobody has the lifecycle for itself
      obtain ⟨stage, hs, hexcludes⟩ := List.countP_pos_iff.1 hpos
      exact absurd rfl (h.fenced.disjoint hs hmem (by simpa using hexcludes))
  rw [State.issue]
  have hreceipts : ∀ r ∈ s.issued ++ [⟨x.queueUrl, k, some x.generation, some e, s.clears x.queueUrl⟩],
      r ∈ s.issued ∨ ∃ g e, s.Knows r g e := by
    intro r hr
    rcases List.mem_append.1 hr with hr | hr
    · exact .inl hr
    · obtain rfl := List.mem_singleton.1 hr
      exact .inr ⟨_, _, hknows⟩
  split_ifs
  · refine h.grow rfl rfl rfl rfl rfl rfl rfl rfl (fun r hr ↦ List.mem_append_left _ hr)
      (fun i hi ↦ List.getElem?_append_left hi) (h.settling.append rfl rfl rfl rfl) hreceipts
      (fun r hr ↦ List.mem_append_left _ (h.aligned.legacy r hr)) fun y hy ↦ ?_
    rcases List.mem_append.1 hy with hy | hy
    · exact .inl hy
    · obtain rfl := List.mem_singleton.1 hy
      exact .inr (.inl (List.mem_append_right _ (List.mem_singleton.2 rfl)))
  · refine h.grow rfl rfl rfl rfl rfl rfl rfl rfl (fun r hr ↦ List.mem_append_left _ hr) (fun _ _ ↦ rfl)
      { h.settling with } hreceipts (fun r hr ↦ ?_) fun y hy ↦ .inl hy
    obtain rfl := Option.some.inj hr
    exact List.mem_append_right _ (List.mem_singleton.2 rfl)

/-- The connect lock is taken or given back. -/
theorem Inv.setLock {connectLock : Bool} (h : s.Inv) (hn : s.calls[n]? = some a)
    (hlock : connectLock.toNat + a.locks.toNat = s.connectLock.toNat + b.locks.toNat)
    (hplace : b.place = none) (hpurpose : b.purpose = none) (hleases : b.leases = a.leases)
    (hdrains : b.drains = a.drains) (hdrops : b.drops = a.drops) (hfencing : b.fencing = a.fencing)
    (hclaiming : b.claiming = a.claiming) : ({ s with connectLock }.goto n b : State).Inv := by
  have m : s.Moves ({ s with connectLock }.goto n b) n a b := ⟨hn, rfl⟩
  have hexcludes : b.excludes = a.excludes := congrArg (·.2.2) hfencing
  refine ⟨?_, h.fenced.move m hfencing rfl, h.settling.move m hclaiming rfl, ?_⟩
  · exact h.leasing.move m hlock hleases hdrains (fun g hg ↦ hdrops ▸ hg) (fun _ ↦ ⟨rfl, rfl⟩) rfl rfl
  · exact h.aligned.move m (.of_none hplace hpurpose) (fun l hl ↦ hexcludes ▸ hl) rfl (fun _ ↦ id)
      (fun _ ↦ rfl) (fun _ ↦ rfl) rfl rfl rfl (fun _ ↦ id) rfl

theorem Inv.publish {e : ℕ} (h : s.Inv) (hn : s.calls[n]? = some (.creating e))
    (hgeneration : s.generation = none) : (s.publish.goto n .published).Inv := by
  have m : s.Moves (s.publish.goto n .published) n (.creating e) .published := ⟨hn, rfl⟩
  have hidle := h.leasing.idle hn rfl rfl hgeneration
  have hother : ∀ g, g ≠ s.count → (s.publish.goto n .published).generations g = s.generations g :=
    fun g hg ↦ Function.update_of_ne hg _ _
  have hnew : ((s.publish.goto n .published).generations s.count).queueLifecycles = fun _ ↦ none := by
    simp [State.publish, State.goto, setGeneration]
  refine ⟨h.leasing.publish hn hgeneration, h.fenced.move m rfl rfl, h.settling.move m rfl rfl, ?_⟩
  refine ⟨fun g u l hl ↦ ?_, m.mem (fun stage hs ↦ ?_) (.of_none rfl rfl), fun r hr ↦ ?_, h.aligned.legacy,
    h.aligned.tokens⟩
  · by_cases hg : g = s.count
    · subst hg
      rw [hnew] at hl
      cases hl
    · rw [hother g hg] at hl
      exact h.aligned.known g u l hl
  · refine (h.aligned.stages stage hs).congr (fun x hx ↦ ?_) (fun _ _ _ _ ↦ rfl) (fun _ ↦ id) fun _ _ ↦ rfl
    -- there is no call below a lease
    have hpos := h.leasing.pos hs (Stage.leases_of_place hx)
    rw [hidle] at hpos
    exact absurd hpos (lt_irrefl 0)
  · obtain ⟨g, e', hk⟩ := h.aligned.receipts r hr
    have hne : g ≠ s.count := hk.lt.ne
    refine ⟨g, e', hk.generationKey, hk.queueEpoch, Nat.lt_succ_of_lt hk.lt, fun hg ↦ ?_⟩
    rw [hother g hne, hidle] at hg
    rcases hg with hg | hg
    · exact absurd (Option.some.inj hg).symm hne
    · exact absurd hg (lt_irrefl 0)

theorem Inv.detach {back : Back} (h : s.Inv) (hn : s.calls[n]? = some (.detach back)) :
    (s.detach.goto n (.draining back s.generation)).Inv := by
  have hdetach := detach_eq s
  have m : s.Moves (s.detach.goto n (.draining back s.generation)) n (.detach back)
      (.draining back s.generation) := ⟨hn, by rw [hdetach]; rfl⟩
  refine ⟨h.leasing.detach hn, h.fenced.move m rfl (by rw [hdetach]; rfl),
    h.settling.move m rfl (by rw [hdetach]; rfl), ?_⟩
  refine h.aligned.move m (.of_none rfl rfl) nofun (by rw [hdetach]; rfl) (fun g hg ↦ .inr ?_)
    (fun g ↦ (detach_generations s g).2) (fun _ ↦ by rw [hdetach]; rfl) (by rw [hdetach]; rfl)
    (by rw [hdetach]; rfl) (by rw [hdetach]; rfl) (fun r hr ↦ by rw [hdetach] at hr; exact hr)
    (by rw [hdetach]; rfl)
  have hnone : (s.detach.goto n (.draining back s.generation)).generation = none := by
    rw [hdetach]
    rfl
  rw [hnone] at hg
  have hpos := hg.resolve_left nofun
  exact (detach_generations s g).1 ▸ hpos

theorem Inv.drain {back : Back} {g : Option ℕ} (h : s.Inv) (hn : s.calls[n]? = some (.draining back g))
    (hempty : ∀ g', g = some g' → (s.generations g').activeLeases = 0) :
    (s.goto n (.forget back g)).Inv := by
  have m : s.Moves (s.goto n (.forget back g)) n (.draining back g) (.forget back g) := ⟨hn, rfl⟩
  exact ⟨h.leasing.drain hn hempty, h.fenced.move m rfl rfl, h.settling.move m rfl rfl,
    h.aligned.move m (.of_none rfl rfl) nofun rfl (fun _ ↦ id) (fun _ ↦ rfl) (fun _ ↦ rfl) rfl rfl rfl
      (fun _ ↦ id) rfl⟩

theorem Back.view (back : Back) : back.stage.leases = none ∧ back.stage.locks = true ∧
    back.stage.drains = none ∧ back.stage.drops = none ∧ back.stage.fencing = (none, none, none) ∧
    back.stage.claiming = (none, none) ∧ back.stage.place = none ∧ back.stage.purpose = none := by
  cases back <;> exact ⟨rfl, rfl, rfl, rfl, rfl, rfl, rfl, rfl⟩

/-- The lifecycles of a drained generation are dropped. -/
theorem Inv.drop {back : Back} {g : ℕ} (h : s.Inv) (hn : s.calls[n]? = some (.drop back (some g))) :
    ((s.setGeneration g { s.generations g with queueLifecycles := fun _ ↦ none }).goto n back.stage).Inv := by
  generalize ht : (s.setGeneration g { s.generations g with queueLifecycles := fun _ ↦ none }).goto n
    back.stage = t
  have m : s.Moves t n (.drop back (some g)) back.stage := ⟨hn, by rw [← ht]; rfl⟩
  obtain ⟨hleases, hlocks, hdrains, hdrops, hfencing, hclaiming, hplace, hpurpose⟩ := Back.view back
  have hother : ∀ g', g' ≠ g → t.generations g' = s.generations g' := fun g' hg' ↦ by
    rw [← ht]
    exact Function.update_of_ne hg' _ _
  have hself : t.generations g = { s.generations g with queueLifecycles := fun _ ↦ none } := by
    rw [← ht]
    exact Function.update_self _ _ _
  have hrecords : ∀ g', (t.generations g').activeLeases = (s.generations g').activeLeases ∧
      (t.generations g').accepting = (s.generations g').accepting := by
    intro g'
    by_cases hg : g' = g
    · subst hg
      rw [hself]
      exact ⟨rfl, rfl⟩
    · rw [hother g' hg]
      exact ⟨rfl, rfl⟩
  have hgone := (h.leasing.detached _ m.mem_was g (.inr rfl)).1
  have hempty := h.leasing.empty _ m.mem_was g rfl
  have hgeneration : t.generation = s.generation := by rw [← ht]; rfl
  refine ⟨?_, h.fenced.move m hfencing (by rw [← ht]; rfl), h.settling.move m hclaiming (by rw [← ht]; rfl), ?_⟩
  · refine h.leasing.move m (by rw [← ht, hlocks]; rfl) hleases hdrains (fun g' hg' ↦ ?_) hrecords hgeneration
      (by rw [← ht]; rfl)
    rw [hdrops] at hg'
    cases hg'
  · refine ⟨fun g' u l hl ↦ ?_, m.mem (fun stage hs ↦ ?_) (.of_none hplace hpurpose), fun r hr ↦ ?_, ?_, ?_⟩
    · by_cases hg : g' = g
      · subst hg
        rw [hself] at hl
        cases hl
      · rw [hother g' hg] at hl
        rw [← ht]
        exact h.aligned.known g' u l hl
    · refine (h.aligned.stages stage hs).congr (fun x hx ↦ ?_) (fun _ _ _ _ ↦ by rw [← ht]; rfl)
        (fun r hr ↦ by rw [← ht]; exact hr) fun p _ ↦ receipt_congr (by rw [← ht]; rfl) p
      rw [hother]
      intro heq
      have hpos := h.leasing.pos hs (Stage.leases_of_place hx)
      rw [heq, hempty] at hpos
      exact absurd hpos (lt_irrefl 0)
    · obtain ⟨g', e, hk⟩ := h.aligned.receipts r (by rw [← ht] at hr; exact hr)
      have huse : t.generation = some g' ∨ 0 < (t.generations g').activeLeases → g' ≠ g := by
        rintro huse rfl
        rw [hgeneration, (hrecords g').1, hempty] at huse
        exact huse.elim hgone (lt_irrefl 0)
      refine ⟨g', e, hk.generationKey, hk.queueEpoch, by rw [← ht]; exact hk.lt, fun hg' ↦ ?_⟩
      have hne := huse hg'
      have hclears : t.clears = s.clears := by rw [← ht]; rfl
      have hlifecycles : t.lifecycles = s.lifecycles := by rw [← ht]; rfl
      rw [hgeneration, hother g' hne] at hg'
      obtain ⟨l, hl, hle, heq, hlt⟩ := hk.current hg'
      rw [hother g' hne, hlifecycles, hclears]
      refine ⟨l, hl, hle, heq, fun hpos ↦ hlt ?_⟩
      have hexcludes : back.stage.excludes = none := congrArg (fun view ↦ view.2.2) hfencing
      rwa [m.held_eq hexcludes] at hpos
    · rw [← ht]
      exact h.aligned.legacy
    · rw [← ht]
      exact h.aligned.tokens

/-- A call begins. -/
theorem Inv.call (h : s.Inv) (op : Operation) : ({ s with calls := s.calls ++ [op.stage] } : State).Inv := by
  have hview : op.stage.leases = none ∧ op.stage.locks = false ∧ op.stage.drains = none ∧
      op.stage.drops = none ∧ op.stage.fencing = (none, none, none) ∧ op.stage.claiming = (none, none) := by
    cases op <;> exact ⟨rfl, rfl, rfl, rfl, rfl, rfl⟩
  obtain ⟨hleases, hlocks, hdrains, hdrops, hfencing, hclaiming⟩ := hview
  unfold Stage.fencing at hfencing
  unfold Stage.claiming at hclaiming
  simp only [Prod.mk.injEq] at hfencing hclaiming
  have hheld : ∀ (f : Stage → Option ℕ), f op.stage = none → ∀ x,
      ({ s with calls := s.calls ++ [op.stage] } : State).held f x = s.held f x := by
    intro f hf x
    unfold State.held
    rw [List.countP_concat, hf]
    rfl
  have hmem : ∀ {P : Stage → Prop}, (∀ stage ∈ s.calls, P stage) → P op.stage →
      ∀ stage ∈ s.calls ++ [op.stage], P stage := by
    intro P hP hop stage hs
    rcases List.mem_append.1 hs with hs | hs
    · exact hP stage hs
    · rwa [List.mem_singleton.1 hs]
  have hfits : s.Fits op.stage := by
    refine ⟨?_, ?_, ?_, ?_, ?_, ?_⟩ <;> cases op <;> exact nofun
  refine ⟨⟨fun g ↦ ?_, h.leasing.last, h.leasing.accepting, fun g hg ↦ ?_, ?_, ?_, ?_⟩,
    ⟨fun l ↦ ?_, fun l ↦ ?_, fun l ↦ ?_⟩, ⟨?_, fun k x ↦ ?_, fun k x ↦ ?_⟩,
    ⟨h.aligned.known, ?_, fun r hr ↦ ?_, h.aligned.legacy, h.aligned.tokens⟩⟩
  · rw [hheld _ hleases]
    exact h.leasing.leases g
  · rw [hheld _ hdrains]
    exact h.leasing.drained g hg
  · rw [List.countP_concat, hlocks]
    exact h.leasing.lock
  · refine hmem h.leasing.detached ?_
    rw [hdrains, hdrops]
    rintro g (hg | hg) <;> cases hg
  · refine hmem h.leasing.empty ?_
    rw [hdrops]
    exact nofun
  · rw [hheld _ hfencing.1]
    exact h.fenced.operations l
  · rw [hheld _ hfencing.2.1]
    exact h.fenced.clearing l
  · rw [hheld _ hfencing.2.2]
    exact h.fenced.exclusive l
  · refine hmem h.settling.bound ?_
    rw [hclaiming.1]
    exact nofun
  · rw [hheld _ hclaiming.1]
    exact h.settling.claims k x
  · rw [hheld _ hclaiming.2]
    exact h.settling.settled k x
  · refine hmem (fun stage hs ↦ ?_) ?_
    · exact (h.aligned.stages stage hs).congr (fun _ _ ↦ rfl) (fun _ _ _ _ ↦ rfl) (fun _ ↦ id) fun _ _ ↦ rfl
    · exact hfits.congr (fun _ _ ↦ rfl) (fun _ _ _ _ ↦ rfl) (fun _ ↦ id) fun _ _ ↦ rfl
  · obtain ⟨g, e, hk⟩ := h.aligned.receipts r hr
    refine ⟨g, e, hk.congr le_rfl id (fun l hl ↦ ⟨hl, rfl⟩) rfl fun l hl ↦ ?_⟩
    rwa [hheld _ hfencing.2.2] at hl

/-! ## Every step -/

/-- A call that uses no more than before. -/
theorem Fits.next (h : s.Fits a) (hplace : ∀ x, b.place = some x → a.place = some x)
    (hepoch : ∀ e, b.epoch = some e → a.epoch = some e)
    (hpurpose : ∀ p, b.purpose = some p → a.purpose = some p)
    (hleases : ∀ g, b.leases = some g → a.leases = some g)
    (hqueue : ∀ u, b.queue = some u → a.queue = some u) (hbroker : ∀ p x e, b ≠ .broker p x e)
    (hresolve : ∀ p g, b ≠ .resolve p g) : s.Fits b := by
  refine ⟨fun x hx ↦ h.place x (hplace x hx), fun x e hx he ↦ h.epoch x e (hplace x hx) (hepoch e he),
    fun r action hp ↦ h.legacy r action (hpurpose _ hp), fun p r g hp hr hg ↦ ?_,
    fun p r x e hb ↦ absurd hb (hbroker p x e), fun p g hb ↦ absurd hb (hresolve p g)⟩
  obtain ⟨hkey, hurl⟩ := h.receipt p r g (hpurpose p hp) hr (hleases g hg)
  exact ⟨hkey, fun u hu ↦ hurl u (hqueue u hu)⟩

theorem Fits.leave {p : Purpose} {x : Place} {result : Option Terminal} (h : s.Fits a)
    (hplace : a.place = some x) (hpurpose : a.purpose = some p) (hqueue : a.queue = some x.queueUrl) :
    s.Fits (.leave p x result) := by
  refine h.next (fun y hy ↦ ?_) nofun (fun q hq ↦ ?_) (fun g hg ↦ ?_) (fun u hu ↦ ?_) nofun nofun
  · rw [hplace]
    exact hy
  · rw [hpurpose]
    exact hq
  · rw [Stage.leases_of_place hplace]
    exact hg
  · rw [hqueue]
    exact hu

/-- What a call goes to the broker with. -/
theorem Fits.broker {p : Purpose} {x : Place} {e : ℕ} (h : s.Fits (.inside p x e))
    (hsends : ∀ r, s.receipt p = some r → r.queueEpoch = none ∨ r.queueEpoch = some e) :
    s.Fits (.broker p x e) := by
  refine ⟨h.place, h.epoch, h.legacy, h.receipt, fun q r y e' hb hr ↦ ?_, nofun⟩
  obtain ⟨rfl, rfl, rfl⟩ := Stage.broker.inj hb
  exact hsends r hr

/-- The epoch that the receipt has is not another one. -/
theorem not_cleared {p : Purpose} {e : ℕ}
    (h : ((s.receipt p).any fun r ↦ r.queueEpoch.isSome ∧ r.queueEpoch ≠ some e) = false) :
    ∀ r, s.receipt p = some r → r.queueEpoch = none ∨ r.queueEpoch = some e := by
  intro r hr
  rw [hr, Option.any_some, decide_eq_false_iff_not, not_and_or, not_not] at h
  exact h.imp_left Option.not_isSome_iff_eq_none.1

theorem Inv.answer {p : Purpose} {x : Place} {e : ℕ} (h : s.Inv) (hn : s.calls[n]? = some (.broker p x e))
    (outcome : Outcome) : (s.answer n p x e outcome).Inv := by
  have hfits := h.aligned.stages _ (List.mem_of_getElem? hn)
  have hleave : ∀ {t : State} {result : Option Terminal}, t.Inv → t.calls = s.calls →
      (Stage.leave p x result).claiming = (Stage.broker p x e).claiming →
      (t.goto n (.leave p x result)).Inv := by
    intro t result ht hcalls hclaiming
    have hn' : t.calls[n]? = some (.broker p x e) := hcalls ▸ hn
    exact ht.goto hn' ((ht.aligned.stages _ (List.mem_of_getElem? hn')).leave rfl rfl rfl) rfl rfl rfl rfl rfl
      hclaiming
  have hnone : (Stage.leave p x none).claiming = (Stage.broker p x e).claiming := by
    cases p <;> rfl
  unfold State.answer
  split
  · refine hleave (h.issue hn) ?_ rfl
    rw [State.issue]
    split_ifs <;> rfl
  · exact h.goto hn (hfits.next (fun _ ↦ id) nofun (fun _ ↦ id) (fun _ ↦ id) (fun _ ↦ id) nofun nofun) rfl rfl rfl
      rfl rfl rfl
  · next k action =>
    split
    · next y hy => exact h.succeed hn hy (hfits.leave rfl rfl rfl)
    · exact hleave h rfl hnone
  · exact hleave (h.clearLegacyReceiptIfCurrent _) (clearLegacyReceiptIfCurrent_calls _ _) hnone
  · exact hleave h rfl hnone

theorem Inv.enter {p : Purpose} {x : Place} (h : s.Inv) (hn : s.calls[n]? = some (.enter p x))
    (ht : s.act n outcome (.enter p x) = some t) : t.Inv := by
  have hfits := h.aligned.stages _ (List.mem_of_getElem? hn)
  simp only [State.act] at ht
  split_ifs at ht with hclearing hclear
  all_goals obtain ⟨⟩ := ht
  · -- a clear closes the barrier
    subst hclear
    have hfits' : s.Fits (.drain x) := ⟨hfits.place, by rintro _ _ _ ⟨⟩, by rintro _ _ ⟨⟩, by rintro _ _ _ ⟨⟩,
      by simp, by rintro _ _ ⟨⟩⟩
    refine h.setLifecycle hn hfits' rfl rfl rfl rfl rfl rfl rfl rfl (fun l hl ↦ ⟨.rfl, ?_⟩) rfl ?_
      (h.fenced.exclusive x.lifecycle)
    · simpa [Stage.clears] using hl.symm
    · simp [Stage.clears, hclearing]
  · -- an operation goes in, and finds nobody alone
    have hfits' : s.Fits (.inside p x (s.lifecycles x.lifecycle).epoch) := by
      refine ⟨hfits.place, fun y e hy he ↦ ?_, hfits.legacy, hfits.receipt, by simp, by rintro _ _ ⟨⟩⟩
      obtain rfl := Option.some.inj hy
      exact (Option.some.inj he).symm
    have hclaiming : (Stage.inside p x (s.lifecycles x.lifecycle).epoch).claiming =
        (Stage.enter p x).claiming := by cases p <;> rfl
    refine h.setLifecycle hn hfits' rfl rfl rfl rfl hclaiming rfl rfl rfl (fun l hl ↦ ⟨?_, .rfl⟩) ?_ rfl
      fun hpos ↦ ?_
    · simpa [Stage.operates] using hl.symm
    · simp [Stage.operates]
    · have hset := hpos.trans_le (excludes_le_clears s x.lifecycle)
      rw [← h.fenced.clearing] at hset
      simp [hclearing] at hset

theorem Inv.inside {p : Purpose} {x : Place} {e : ℕ} (h : s.Inv)
    (hn : s.calls[n]? = some (.inside p x e)) (ht : s.act n outcome (.inside p x e) = some t) : t.Inv := by
  have hfits := h.aligned.stages _ (List.mem_of_getElem? hn)
  have hbroker : (∀ r, s.receipt p = some r → r.queueEpoch = none ∨ r.queueEpoch = some e) →
      (s.goto n (.broker p x e)).Inv := by
    intro hsends
    refine h.goto hn (hfits.broker hsends) rfl rfl rfl rfl rfl ?_
    cases p <;> rfl
  cases p with
  | token k action =>
    simp only [State.act] at ht
    obtain ⟨⟩ := ht
    split_ifs with hcleared
    · exact h.goto hn (hfits.leave rfl rfl rfl) rfl rfl rfl rfl rfl rfl
    · exact hbroker (not_cleared (by simpa using hcleared))
  | legacy r action =>
    simp only [State.act] at ht
    split_ifs at ht with hcurrent hcleared
    · obtain ⟨⟩ := ht
      have hn' : (s.clearLegacyReceiptIfCurrent r).calls[n]? = some (.inside (.legacy r action) x e) := by
        rw [clearLegacyReceiptIfCurrent_calls]
        exact hn
      exact (h.clearLegacyReceiptIfCurrent r).goto hn'
        ((clearLegacyReceiptIfCurrent_fits r hfits).leave rfl rfl rfl) rfl rfl rfl rfl rfl rfl
    · obtain ⟨⟩ := ht
      exact hbroker (not_cleared (by simpa using hcleared))
    · obtain ⟨⟩ := ht
      exact h.goto hn (hfits.leave rfl rfl rfl) rfl rfl rfl rfl rfl rfl
  | _ =>
    simp only [State.act] at ht
    obtain ⟨⟩ := ht
    exact hbroker (by rintro _ ⟨⟩)

theorem Inv.act {stage : Stage} (h : s.Inv) (hn : s.calls[n]? = some stage)
    (ht : s.act n outcome stage = some t) : t.Inv := by
  have hfits := h.aligned.stages _ (List.mem_of_getElem? hn)
  have hidle : ∀ {b : Stage}, b.place = none → b.purpose = none → b.leases = stage.leases →
      b.locks = stage.locks → b.drains = stage.drains → b.drops = stage.drops →
      b.fencing = stage.fencing → b.claiming = stage.claiming → (s.goto n b).Inv :=
    fun hplace hpurpose ↦ h.goto hn (.of_none hplace hpurpose)
  cases stage with
  | claim k action =>
    obtain ⟨x, hx, ht⟩ := Option.bind_eq_some_iff.1 ht
    split at ht
    · cases ht
    · next hstate =>
      obtain ⟨⟩ := ht
      exact h.claim hn hx hstate
    · obtain ⟨⟩ := ht
      exact hidle rfl rfl rfl rfl rfl rfl rfl rfl
  | snapshot action =>
    simp only [State.act] at ht
    split at ht
    · next r hr =>
      obtain ⟨⟩ := ht
      have hlease : s.Fits (.lease (.legacy r action)) := by
        refine ⟨by rintro _ ⟨⟩, by rintro _ _ ⟨⟩, fun r' action' hp ↦ ?_, by intros; contradiction, by simp,
          by rintro _ _ ⟨⟩⟩
        obtain ⟨rfl, -⟩ := Purpose.legacy.inj (Option.some.inj hp)
        exact h.aligned.legacy r hr
      exact h.goto hn hlease rfl rfl rfl rfl rfl rfl
    · obtain ⟨⟩ := ht
      exact hidle rfl rfl rfl rfl rfl rfl rfl rfl
  | lease p =>
    simp only [State.act] at ht
    split at ht
    · next g hg =>
      obtain ⟨⟩ := ht
      exact h.lease hn hg
    · obtain ⟨⟩ := ht
      cases p <;> exact hidle rfl rfl rfl rfl rfl rfl rfl rfl
    · split at ht
      · obtain ⟨⟩ := ht
        exact hidle rfl rfl rfl rfl rfl rfl rfl rfl
      · next r _ _ =>
        obtain ⟨⟩ := ht
        have hn' := (congrArg (·[n]?) (clearLegacyReceiptIfCurrent_calls s r)).trans hn
        exact (h.clearLegacyReceiptIfCurrent r).goto hn' (.of_none rfl rfl) rfl rfl rfl rfl rfl rfl
      · cases ht
  | resolve p g =>
    have hlookup : ∀ u, s.Fits (.lookup p g u) := by
      intro u
      refine ⟨by rintro _ ⟨⟩, by rintro _ _ ⟨⟩, hfits.legacy, fun q r g' hq hr ↦ ?_, by simp,
        by rintro _ _ ⟨⟩⟩
      obtain rfl := Option.some.inj hq
      rw [hfits.named p g rfl] at hr
      cases hr
    simp only [State.act] at ht
    split at ht <;> obtain ⟨⟩ := ht
    · exact h.goto hn (hlookup _) rfl rfl rfl rfl rfl rfl
    · refine h.goto hn (hfits.next (by rintro _ ⟨⟩) (by rintro _ ⟨⟩) (fun _ ↦ id) (fun _ ↦ id)
        (by rintro _ ⟨⟩) (by rintro _ _ _ ⟨⟩) (by rintro _ _ ⟨⟩)) rfl rfl rfl rfl rfl ?_
      cases p <;> rfl
  | lookup p g u =>
    simp only [State.act] at ht
    obtain ⟨⟩ := ht
    exact h.lookup hn
  | enter p x => exact h.enter hn ht
  | inside p x e => exact h.inside hn ht
  | broker p x e =>
    obtain ⟨⟩ := ht
    exact h.answer hn outcome
  | poison p x =>
    obtain ⟨⟩ := ht
    refine h.goto hn (hfits.leave rfl rfl rfl) rfl rfl rfl rfl rfl ?_
    cases p <;> rfl
  | leave p x result =>
    simp only [State.act] at ht
    obtain ⟨⟩ := ht
    have hpos := held_pos (List.mem_of_getElem? hn) (show (Stage.leave p x result).operates = some x.lifecycle from rfl)
    rw [← h.fenced.operations] at hpos
    refine h.setLifecycle hn (hfits.next (by rintro _ ⟨⟩) (by rintro _ ⟨⟩) (fun _ ↦ id) (fun _ ↦ id)
      (by rintro _ ⟨⟩) (by rintro _ _ _ ⟨⟩) (by rintro _ _ ⟨⟩)) rfl rfl rfl rfl
      ?_ rfl rfl rfl (fun l hl ↦ ⟨?_, .rfl⟩) ?_ rfl fun hexcludes ↦ ?_
    · cases p <;> rfl
    · simpa [Stage.operates] using hl.symm
    · simp [Stage.operates]
      omega
    · have := h.fenced.exclusive _ hexcludes
      show (s.lifecycles x.lifecycle).activeOperations - 1 = 0
      omega
  | release p g result =>
    simp only [State.act] at ht
    obtain ⟨⟩ := ht
    cases p <;>
      exact h.release hn rfl rfl rfl rfl rfl ⟨rfl, rfl, rfl, rfl⟩ (.of_none rfl rfl)
  | finish k result =>
    obtain ⟨x, hx, rfl⟩ := Option.map_eq_some_iff.1 ht
    exact h.finish hn hx
  | discard k =>
    simp only [State.act] at ht
    obtain ⟨⟩ := ht
    rw [State.discard]
    split
    · next x _ =>
      have hn' := (congrArg (·[n]?) (clearLegacyReceiptIfCurrent_calls s x.receipt)).trans hn
      exact (h.clearLegacyReceiptIfCurrent _).goto hn' (.of_none rfl rfl) rfl rfl rfl rfl rfl rfl
    · exact hidle rfl rfl rfl rfl rfl rfl rfl rfl
  | drain x =>
    simp only [State.act] at ht
    split_ifs at ht with hempty
    obtain ⟨⟩ := ht
    exact h.advance hn hempty
  | retire x =>
    simp only [State.act] at ht
    obtain ⟨⟩ := ht
    have hpurge : ∀ {t : State}, t.Fits (.retire x) → t.Fits (.purge x) := fun hf ↦
      hf.next (fun _ ↦ id) (by rintro _ ⟨⟩) (by rintro _ ⟨⟩) (fun _ ↦ id) (fun _ ↦ id)
        (by rintro _ _ _ ⟨⟩) (by rintro _ _ ⟨⟩)
    rw [State.retireQueueDeliveries]
    split_ifs
    · have hn' : ({ s with lastReceipt := none } : State).calls[n]? = some (.retire x) := hn
      exact h.forget.goto hn' (hpurge (h.forget.aligned.stages _ (List.mem_of_getElem? hn'))) rfl rfl rfl rfl rfl
        rfl
    · exact h.goto hn (hpurge hfits) rfl rfl rfl rfl rfl rfl
  | purge x =>
    simp only [State.act] at ht
    split at ht
    · obtain ⟨⟩ := ht
      exact h.endClear hn (.inl rfl)
    · obtain ⟨⟩ := ht
      exact h.goto hn (hfits.next (fun _ ↦ id) (by rintro _ ⟨⟩) (by rintro _ ⟨⟩) (fun _ ↦ id) (fun _ ↦ id)
        (by rintro _ _ _ ⟨⟩) (by rintro _ _ ⟨⟩)) rfl rfl rfl rfl
        rfl rfl
  | wait x =>
    obtain ⟨⟩ := ht
    exact h.endClear hn (.inr rfl)
  | connect =>
    simp only [State.act] at ht
    split_ifs at ht with hlock
    obtain ⟨⟩ := ht
    refine h.setLock hn ?_ rfl rfl rfl rfl rfl rfl rfl
    simp [hlock, Stage.locks]
  | check =>
    simp only [State.act] at ht
    obtain ⟨⟩ := ht
    split_ifs <;> exact hidle rfl rfl rfl rfl rfl rfl rfl rfl
  | creating e =>
    simp only [State.act] at ht
    split at ht
    · split_ifs at ht with hpublish <;> obtain ⟨⟩ := ht
      · exact h.publish hn hpublish.2
      · exact hidle rfl rfl rfl rfl rfl rfl rfl rfl
    · obtain ⟨⟩ := ht
      exact hidle rfl rfl rfl rfl rfl rfl rfl rfl
    · obtain ⟨⟩ := ht
      exact hidle rfl rfl rfl rfl rfl rfl rfl rfl
  | published =>
    simp only [State.act] at ht
    split at ht <;> obtain ⟨⟩ := ht <;> exact hidle rfl rfl rfl rfl rfl rfl rfl rfl
  | disconnect =>
    simp only [State.act] at ht
    split_ifs at ht with hlock
    obtain ⟨⟩ := ht
    refine h.setLock hn ?_ rfl rfl rfl rfl rfl rfl rfl
    simp [hlock, Stage.locks]
  | detach back =>
    obtain ⟨⟩ := ht
    exact h.detach hn
  | draining back g =>
    simp only [State.act] at ht
    split_ifs at ht with hempty
    obtain ⟨⟩ := ht
    refine h.drain hn fun g' hg' ↦ ?_
    rw [hg'] at hempty
    exact of_decide_eq_true hempty
  | forget back g =>
    obtain ⟨⟩ := ht
    have hn' : ({ s with lastReceipt := none } : State).calls[n]? = some (.forget back g) := hn
    exact h.forget.goto hn' (.of_none rfl rfl) rfl rfl rfl rfl rfl rfl
  | drop back g =>
    cases g with
    | none =>
      obtain ⟨⟩ := ht
      obtain ⟨hleases, hlocks, hdrains, hdrops, hfencing, hclaiming, hplace, hpurpose⟩ := Back.view back
      exact hidle hplace hpurpose hleases hlocks hdrains hdrops hfencing hclaiming
    | some g =>
      obtain ⟨⟩ := ht
      exact h.drop hn
  | unlock =>
    obtain ⟨⟩ := ht
    refine h.setLock hn ?_ rfl rfl rfl rfl rfl rfl rfl
    have hpos : 0 < s.calls.countP Stage.locks :=
      List.countP_pos_iff.2 ⟨_, List.mem_of_getElem? hn, rfl⟩
    rw [← h.leasing.lock] at hpos
    have hle := s.connectLock.toNat_le
    simp only [Stage.locks, Bool.toNat_false, Bool.toNat_true]
    omega
  | _ => cases ht

theorem Inv.step {label : Label} (h : s.Inv) (ht : s.step label = some t) : t.Inv := by
  cases label with
  | call op =>
    obtain ⟨⟩ := ht
    exact h.call op
  | token u k =>
    obtain ⟨⟩ := ht
    exact h.token u k
  | act n outcome =>
    obtain ⟨stage, hn, ht⟩ := Option.bind_eq_some_iff.1 ht
    exact h.act hn ht

/-- Nothing of its queue is at the broker while a clear has the barrier. -/
theorem Inv.window (h : s.Inv) {x y : Place} (ha : a ∈ s.calls) (hb : b ∈ s.calls)
    (hx : a.window = some x) (hy : b.atBroker = some y) : x.queueUrl ≠ y.queueUrl := by
  intro hurl
  have hax : a.place = some x ∧ a.excludes = some x.lifecycle := by
    cases a <;> first | (obtain rfl := Option.some.inj hx; exact ⟨rfl, rfl⟩) | cases hx
  have hby : b.place = some y ∧ b.operates = some y.lifecycle := by
    cases b <;> first | (obtain rfl := Option.some.inj hy; exact ⟨rfl, rfl⟩) | cases hy
  have hgeneration := h.leasing.eq ha hb (Stage.leases_of_place hax.1) (Stage.leases_of_place hby.1)
  have hentry := h.entry ha hax.1
  rw [hgeneration, hurl, h.entry hb hby.1] at hentry
  exact h.fenced.disjoint ha hb hax.2 (Option.some.inj hentry ▸ hby.2)

/-- The receipts at the broker are of the last generation, and no clear of their queue has ended since they
were issued. -/
theorem Inv.current (h : s.Inv) {p : Purpose} {x : Place} {e : ℕ} {r : Receipt}
    (hs : Stage.broker p x e ∈ s.calls) (hr : s.receipt p = some r) (hissued : r ∈ s.issued) :
    r.clears = s.clears r.queueUrl ∧ ∃ g, r.generationKey = some g ∧ g + 1 = s.count := by
  obtain ⟨g, e', hk⟩ := h.aligned.receipts r hissued
  have hfits := h.aligned.stages _ hs
  obtain ⟨hkey, hurl⟩ := hfits.receipt p r x.generation rfl hr rfl
  have hg : g = x.generation := by
    rw [hk.generationKey] at hkey
    exact Option.some.inj (hkey.resolve_left nofun)
  have hpos := h.leasing.pos hs (show (Stage.broker p x e).leases = some x.generation from rfl)
  subst hg
  refine ⟨?_, x.generation, hk.generationKey, h.leasing.last _ (.inr hpos)⟩
  obtain ⟨l, hl, -, heq, -⟩ := hk.current (.inr hpos)
  rw [hurl x.queueUrl rfl, hfits.place x rfl] at hl
  obtain rfl := Option.some.inj hl
  have he := hfits.sends p r x e rfl hr
  rw [hk.queueEpoch] at he
  obtain rfl := Option.some.inj (he.resolve_left nofun)
  exact heq (hfits.epoch x e' rfl rfl)

end State

theorem inv_of_reachable {s : State} (h : machine.Reachable s) : s.Inv :=
  h.invariant State.Inv.new fun _ _ _ hs ht ↦ hs.step ht

/-- **The barrier**, over every interleaving: between the start of a purge and the end of its window no
message operation of the queue is at the broker; a receipt at the broker was issued by the last generation,
after the last clear of its queue had ended; and a token is settled at most once. -/
theorem barrier_of_reachable {s : State} (h : machine.Reachable s) :
    (∀ a ∈ s.calls, ∀ b ∈ s.calls, ∀ x y, a.window = some x → b.atBroker = some y →
      x.queueUrl ≠ y.queueUrl) ∧
    (∀ p x e r, Stage.broker p x e ∈ s.calls → s.receipt p = some r → r ∈ s.issued →
      r.clears = s.clears r.queueUrl ∧ ∃ g, r.generationKey = some g ∧ g + 1 = s.count) ∧
    ∀ x ∈ s.tokens, x.settled ≤ 1 := by
  have hinv := inv_of_reachable h
  refine ⟨fun a ha b hb x y hx hy ↦ hinv.window ha hb hx hy, fun p x e r hs hr hi ↦ hinv.current hs hr hi,
    fun x hx ↦ ?_⟩
  obtain ⟨k, hk⟩ := List.getElem?_of_mem hx
  exact hinv.settling.le_one hk

/-- A message is received, and its queue cleared. Its acknowledgement waits at the barrier. -/
def fenced : List Label :=
  [.call .connect, .act 0 .ok, .act 0 .ok, .act 0 .ok, .act 0 .ok, .act 0 .ok,
    .call .popWithAck, .act 1 .ok, .act 1 (.url 7), .act 1 .ok, .act 1 .ok, .act 1 .ok, .act 1 (.message 5),
    .act 1 .ok, .act 1 .ok,
    .call .clearQueue, .act 2 .ok, .act 2 (.url 7), .act 2 .ok, .act 2 .ok, .act 2 .ok, .act 2 .ok, .act 2 .ok,
    .call (.settleToken 0 .ack), .act 3 .ok, .act 3 .ok, .act 3 .ok]

theorem barrier_of_reachable_fenced : ∃ s, machine.run .new fenced = some s ∧
    s.calls[2]? = some (.wait ⟨0, 7, 0⟩) ∧ s.calls[3]? = some (.enter (.token 0 .ack) ⟨0, 7, 0⟩) ∧
    (∀ a ∈ s.calls, ∀ b ∈ s.calls, ∀ x y, a.window = some x → b.atBroker = some y →
      x.queueUrl ≠ y.queueUrl) ∧
    (∀ p x e r, Stage.broker p x e ∈ s.calls → s.receipt p = some r → r ∈ s.issued →
      r.clears = s.clears r.queueUrl ∧ ∃ g, r.generationKey = some g ∧ g + 1 = s.count) ∧
    ∀ x ∈ s.tokens, x.settled ≤ 1 :=
  ⟨_, rfl, rfl, rfl, barrier_of_reachable ⟨fenced, rfl⟩⟩

end Sqs

end ScrapyExtension
