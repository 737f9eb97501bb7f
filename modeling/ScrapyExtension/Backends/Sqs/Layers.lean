import ScrapyExtension.Backends.Sqs.QueueLifecycle

/-!
# Leases, barriers and claims

The counters of the code count calls: the leases of a generation, the operations of a lifecycle, the clear
that holds it, the claim of a token. There is one invariant for each layer, and a call that goes on touches
at most one of them.
-/

namespace ScrapyExtension

namespace Sqs

/-! ## What a call holds -/

namespace Stage

/-- The lease. -/
def leases : Stage → Option ℕ
  | resolve _ g | lookup _ g _ | release _ g _ => some g
  | enter _ x | inside _ x _ | broker _ x _ | poison _ x | leave _ x _ | drain x | retire x | purge x
  | wait x => some x.generation
  | _ => none

/-- The connect lock. -/
def locks : Stage → Bool
  | check | creating _ | published | detach _ | draining _ _ | forget _ _ | drop _ _ | unlock => true
  | _ => false

/-- The generation that the call waits for. -/
def drains : Stage → Option ℕ
  | draining _ g => g
  | _ => none

/-- The generation that the call has drained. -/
def drops : Stage → Option ℕ
  | forget _ g | drop _ g => g
  | _ => none

/-- The lifecycle that the call is an operation of. -/
def operates : Stage → Option ℕ
  | inside _ x _ | broker _ x _ | poison _ x | leave _ x _ => some x.lifecycle
  | _ => none

/-- The lifecycle that the call clears. -/
def clears : Stage → Option ℕ
  | drain x | retire x | purge x | wait x => some x.lifecycle
  | _ => none

/-- The lifecycle that the call has for itself. -/
def excludes : Stage → Option ℕ
  | retire x | purge x | wait x => some x.lifecycle
  | _ => none

/-- What the call is for. -/
def purpose : Stage → Option Purpose
  | lease p | resolve p _ | lookup p _ _ | enter p _ | inside p _ _ | broker p _ _ | poison p _ | leave p _ _
  | release p _ _ => some p
  | _ => none

/-- The token that the call has claimed. -/
def claims : Stage → Option ℕ
  | finish k _ => some k
  | stage =>
    match stage.purpose with
    | some (.token k _) => some k
    | _ => none

/-- The token that the call has settled, and not yet given back. -/
def settles : Stage → Option ℕ
  | leave (.token k _) _ result | release (.token k _) _ result | finish k result =>
    if result.any Terminal.final then some k else none
  | _ => none

/-- What the call has to do with lifecycles. -/
def fencing (stage : Stage) : Option ℕ × Option ℕ × Option ℕ :=
  (stage.operates, stage.clears, stage.excludes)

/-- What it has to do with tokens. -/
def claiming (stage : Stage) : Option ℕ × Option ℕ := (stage.claims, stage.settles)

end Stage

namespace State

variable {s t : State} {n : ℕ} {a b : Stage}

/-- How many calls hold something. -/
def held (s : State) (f : Stage → Option ℕ) (x : ℕ) : ℕ := s.calls.countP fun stage ↦ f stage = some x

/-- A call goes on. -/
structure Moves (s t : State) (n : ℕ) (a b : Stage) : Prop where
  was : s.calls[n]? = some a
  now : t.calls = s.calls.set n b

theorem Moves.goto (h : s.calls[n]? = some a) : s.Moves (s.goto n b) n a b := ⟨h, rfl⟩

theorem Moves.held (m : s.Moves t n a b) (f : Stage → Option ℕ) (x : ℕ) :
    t.held f x + (decide (f a = some x)).toNat = s.held f x + (decide (f b = some x)).toNat := by
  rw [State.held, State.held, m.now]
  exact List.countP_set_add _ m.was

theorem Moves.held_eq (m : s.Moves t n a b) {f : Stage → Option ℕ} (hf : f b = f a) (x : ℕ) :
    t.held f x = s.held f x := by
  have := m.held f x
  rw [hf] at this
  omega

theorem Moves.mem (m : s.Moves t n a b) {P : Stage → Prop} (h : ∀ stage ∈ s.calls, P stage) (hb : P b) :
    ∀ stage ∈ t.calls, P stage := by
  rw [m.now]
  exact List.forall_mem_set h hb

theorem held_pos {f : Stage → Option ℕ} {x : ℕ} {stage : Stage} (h : stage ∈ s.calls)
    (hf : f stage = some x) : 0 < s.held f x :=
  List.countP_pos_iff.2 ⟨stage, h, by simpa using hf⟩

theorem Moves.mem_was (m : s.Moves t n a b) : a ∈ s.calls := List.mem_of_getElem? m.was

/-! ## Generations -/

structure Leasing (s : State) : Prop where
  leases : ∀ g, (s.generations g).activeLeases = s.held Stage.leases g
  /-- Only the last generation is in use. -/
  last : ∀ g, s.generation = some g ∨ 0 < (s.generations g).activeLeases → g + 1 = s.count
  accepting : ∀ g, s.generation = some g → (s.generations g).accepting = true
  drained : ∀ g, 0 < (s.generations g).activeLeases → s.generation = some g ∨ 0 < s.held Stage.drains g
  lock : s.connectLock.toNat = s.calls.countP Stage.locks
  detached : ∀ stage ∈ s.calls, ∀ g, stage.drains = some g ∨ stage.drops = some g →
    s.generation ≠ some g ∧ g < s.count
  empty : ∀ stage ∈ s.calls, ∀ g, stage.drops = some g → (s.generations g).activeLeases = 0

theorem Leasing.pos (h : s.Leasing) {stage : Stage} {g : ℕ} (hs : stage ∈ s.calls)
    (hg : stage.leases = some g) : 0 < (s.generations g).activeLeases := by
  rw [h.leases]
  exact held_pos hs hg

/-- Two calls below leases share their generation. -/
theorem Leasing.eq (h : s.Leasing) {x y : Stage} {g g' : ℕ} (hx : x ∈ s.calls) (hy : y ∈ s.calls)
    (hg : x.leases = some g) (hg' : y.leases = some g') : g = g' := by
  have h₁ := h.last g (.inr (h.pos hx hg))
  have h₂ := h.last g' (.inr (h.pos hy hg'))
  omega

/-- The lock is taken, given back, or left alone. -/
theorem Moves.locks (m : s.Moves t n a b) (h : s.Leasing)
    (hlock : t.connectLock.toNat + a.locks.toNat = s.connectLock.toNat + b.locks.toNat) :
    t.connectLock.toNat = t.calls.countP Stage.locks := by
  have hcount := List.countP_set_add (b := b) Stage.locks m.was
  have := h.lock
  rw [m.now]
  omega

/-- A call goes on without a lease. -/
theorem Leasing.move (h : s.Leasing) (m : s.Moves t n a b)
    (hlock : t.connectLock.toNat + a.locks.toNat = s.connectLock.toNat + b.locks.toNat)
    (hleases : b.leases = a.leases) (hdrains : b.drains = a.drains)
    (hdrops : ∀ g, b.drops = some g → a.drops = some g)
    (hrecords : ∀ g, (t.generations g).activeLeases = (s.generations g).activeLeases ∧
      (t.generations g).accepting = (s.generations g).accepting)
    (hgeneration : t.generation = s.generation) (hcount : t.count = s.count) : t.Leasing := by
  refine ⟨fun g ↦ ?_, fun g ↦ ?_, fun g hg ↦ ?_, fun g ↦ ?_, m.locks h hlock, ?_, ?_⟩
  · rw [(hrecords g).1, m.held_eq hleases, h.leases]
  · rw [hgeneration, (hrecords g).1, hcount]
    exact h.last g
  · rw [(hrecords g).2]
    exact h.accepting g (hgeneration ▸ hg)
  · rw [hgeneration, (hrecords g).1, m.held_eq hdrains]
    exact h.drained g
  · rw [hgeneration, hcount]
    refine m.mem h.detached fun g hg ↦ ?_
    rw [hdrains] at hg
    exact h.detached a m.mem_was g (hg.imp_right (hdrops g))
  · refine m.mem (fun stage hs g hg ↦ ?_) fun g hg ↦ ?_
    · rw [(hrecords g).1]
      exact h.empty stage hs g hg
    · rw [(hrecords g).1]
      exact h.empty a m.mem_was g (hdrops g hg)

/-- A lease is taken or given back. -/
theorem Leasing.setLeases {g m' : ℕ} (h : s.Leasing) (m : s.Moves t n a b)
    (ht : t.generations = (s.setLeases g m').generations)
    (hlock : t.connectLock.toNat + a.locks.toNat = s.connectLock.toNat + b.locks.toNat)
    (hdrains : b.drains = a.drains) (hdrops : b.drops = none)
    (hsame : ∀ g', g' ≠ g → (a.leases = some g' ↔ b.leases = some g'))
    (hm : m' + (decide (a.leases = some g)).toNat =
      (s.generations g).activeLeases + (decide (b.leases = some g)).toNat)
    (huse : s.generation = some g ∨ 0 < (s.generations g).activeLeases)
    (hempty : s.generation = some g ∨ m' < (s.generations g).activeLeases)
    (hgeneration : t.generation = s.generation) (hcount : t.count = s.count) : t.Leasing := by
  have hself : (t.generations g).activeLeases = m' := by
    rw [ht]
    simp [State.setLeases, setGeneration]
  have hother : ∀ g', g' ≠ g → t.generations g' = s.generations g' := fun g' hne ↦ by
    rw [ht]
    exact Function.update_of_ne hne _ _
  have haccepting : ∀ g', (t.generations g').accepting = (s.generations g').accepting := by
    intro g'
    by_cases hg : g' = g
    · subst hg
      rw [ht]
      simp [State.setLeases, setGeneration]
    · rw [hother g' hg]
  refine ⟨fun g' ↦ ?_, fun g' hg' ↦ ?_, fun g' hg' ↦ ?_, fun g' hg' ↦ ?_, m.locks h hlock, ?_, ?_⟩
  · have hheld := m.held Stage.leases g'
    by_cases hg : g' = g
    · subst hg
      rw [hself]
      have := h.leases g'
      omega
    · rw [hother g' hg, h.leases]
      have := hsame g' hg
      simp only [this] at hheld
      omega
  · rw [hcount]
    by_cases hg : g' = g
    · subst hg
      exact h.last g' huse
    · rw [hgeneration, hother g' hg] at hg'
      exact h.last g' hg'
  · rw [haccepting]
    exact h.accepting g' (hgeneration ▸ hg')
  · rw [hgeneration, m.held_eq hdrains]
    by_cases hg : g' = g
    · subst hg
      rcases hempty with hg | hlt
      · exact .inl hg
      · exact h.drained g' (by omega)
    · rw [hother g' hg] at hg'
      exact h.drained g' hg'
  · rw [hgeneration, hcount]
    refine m.mem h.detached ?_
    rw [hdrains, hdrops]
    intro g' hg'
    exact h.detached a m.mem_was g' (hg'.imp_right nofun)
  · refine m.mem (fun stage hs g' hg' ↦ ?_) (by rw [hdrops]; exact nofun)
    by_cases hg : g' = g
    · subst hg
      have hzero := h.empty stage hs g' hg'
      have hgone := (h.detached stage hs g' (.inr hg')).1
      rcases huse with hg | hpos
      · exact absurd hg hgone
      · omega
    · rw [hother g' hg]
      exact h.empty stage hs g' hg'

/-- Nobody has a lease while a call that has the connect lock finds no generation. -/
theorem Leasing.idle (h : s.Leasing) (hn : s.calls[n]? = some a) (hlocks : a.locks = true)
    (hdrains : a.drains = none) (hgeneration : s.generation = none) (g : ℕ) :
    (s.generations g).activeLeases = 0 := by
  by_contra hg
  obtain hcurrent | hdraining := h.drained g (Nat.pos_of_ne_zero hg)
  · rw [hgeneration] at hcurrent
    cases hcurrent
  -- a call that waits for the leases has the lock as well
  obtain ⟨stage, hmem, hstage⟩ := List.countP_pos_iff.1 hdraining
  obtain ⟨i, hi⟩ := List.getElem?_of_mem hmem
  have hd : stage.drains = some g := by simpa using hstage
  have hlocked : stage.locks = true := by
    cases stage <;> first | rfl | cases hd
  have hone : s.calls.countP Stage.locks ≤ 1 := by
    rw [← h.lock]
    exact Bool.toNat_le _
  obtain rfl := List.eq_of_countP_le_one _ hone hi hn hlocked hlocks
  obtain rfl := Option.some.inj (hi.symm.trans hn)
  rw [hdrains] at hd
  cases hd

theorem Leasing.publish (h : s.Leasing) {e : ℕ} (hn : s.calls[n]? = some (.creating e))
    (hgeneration : s.generation = none) : (s.publish.goto n .published).Leasing := by
  have m : s.Moves (s.publish.goto n .published) n (.creating e) .published := ⟨hn, rfl⟩
  have hidle := h.idle hn rfl rfl hgeneration
  have hleases : ∀ g, ((s.publish.goto n .published).generations g).activeLeases = 0 := by
    intro g
    by_cases hg : g = s.count
    · simp [State.publish, State.goto, setGeneration, hg]
    · have hold : (s.publish.goto n .published).generations g = s.generations g :=
        Function.update_of_ne hg _ _
      rw [hold, hidle]
  refine ⟨fun g ↦ ?_, fun g hg ↦ ?_, fun g hg ↦ ?_, fun g hg ↦ ?_, m.locks h rfl, ?_, ?_⟩
  · rw [hleases, m.held_eq rfl, ← h.leases, hidle]
  · rw [hleases] at hg
    obtain rfl := Option.some.inj (hg.resolve_right (lt_irrefl 0))
    rfl
  · obtain rfl := Option.some.inj hg
    simp [State.publish, State.goto, setGeneration]
  · rw [hleases] at hg
    exact absurd hg (lt_irrefl 0)
  · refine m.mem (fun stage hs g hg ↦ ?_) nofun
    have hlt := (h.detached stage hs g hg).2
    refine ⟨fun heq ↦ ?_, Nat.lt_succ_of_lt hlt⟩
    obtain rfl := Option.some.inj heq
    exact absurd hlt (lt_irrefl _)
  · exact m.mem (fun stage _ g _ ↦ hleases g) fun g _ ↦ hleases g

theorem detach_generations (s : State) (g : ℕ) :
    (s.detach.generations g).activeLeases = (s.generations g).activeLeases ∧
      (s.detach.generations g).queueLifecycles = (s.generations g).queueLifecycles := by
  rw [State.detach]
  dsimp only
  split
  · next g' _ =>
    by_cases hg : g = g'
    · subst hg
      simp [setGeneration]
    · simp [setGeneration, Function.update_of_ne hg]
  · exact ⟨rfl, rfl⟩

/-- Everything but the generations. -/
theorem detach_eq (s : State) : s.detach = { s with
    lifecycleEpoch := s.lifecycleEpoch + 1
    generation := none
    generations := s.detach.generations } := by
  rw [State.detach]
  dsimp only
  split <;> rfl

theorem Leasing.detach {back : Back} (h : s.Leasing) (hn : s.calls[n]? = some (.detach back)) :
    (s.detach.goto n (.draining back s.generation)).Leasing := by
  have hdetach := detach_eq s
  have m : s.Moves (s.detach.goto n (.draining back s.generation)) n (.detach back)
      (.draining back s.generation) := ⟨hn, by rw [hdetach]; rfl⟩
  have hrecords : ∀ g, ((s.detach.goto n (.draining back s.generation)).generations g).activeLeases =
      (s.generations g).activeLeases := fun g ↦ (detach_generations s g).1
  have hgeneration : (s.detach.goto n (.draining back s.generation)).generation = none := by
    rw [hdetach]
    rfl
  have hcount : (s.detach.goto n (.draining back s.generation)).count = s.count := by
    rw [hdetach]
    rfl
  refine ⟨fun g ↦ ?_, fun g hg ↦ ?_, fun g hg ↦ ?_, fun g hg ↦ .inr ?_, m.locks h ?_, ?_, ?_⟩
  · rw [hrecords, m.held_eq rfl, h.leases]
  · rw [hgeneration, hrecords] at hg
    rw [hcount]
    exact h.last g (.inr (hg.resolve_left nofun))
  · rw [hgeneration] at hg
    cases hg
  · rw [hrecords] at hg
    have hheld := m.held Stage.drains g
    rcases h.drained g hg with hcurrent | hpos
    · have hb : (Stage.draining back s.generation).drains = some g := hcurrent
      simp only [hb, decide_true, Bool.toNat_true] at hheld
      have ha : (Stage.detach back).drains = none := rfl
      simp only [ha, reduceCtorEq, decide_false, Bool.toNat_false] at hheld
      omega
    · have ha : (Stage.detach back).drains = none := rfl
      simp only [ha, reduceCtorEq, decide_false, Bool.toNat_false] at hheld
      omega
  · rw [hdetach]
    rfl
  · rw [hgeneration, hcount]
    refine m.mem (fun stage hs g hg ↦ ⟨nofun, (h.detached stage hs g hg).2⟩) fun g hg ↦ ⟨nofun, ?_⟩
    have hcurrent : s.generation = some g := hg.resolve_right nofun
    have := h.last g (.inl hcurrent)
    omega
  · refine m.mem (fun stage hs g hg ↦ ?_) nofun
    rw [hrecords]
    exact h.empty stage hs g hg

/-- The last lease of a detached generation is gone. -/
theorem Leasing.drain {back : Back} {g : Option ℕ} (h : s.Leasing)
    (hn : s.calls[n]? = some (.draining back g))
    (hempty : ∀ g', g = some g' → (s.generations g').activeLeases = 0) :
    (s.goto n (.forget back g)).Leasing := by
  have m : s.Moves (s.goto n (.forget back g)) n (.draining back g) (.forget back g) := ⟨hn, rfl⟩
  refine ⟨fun g' ↦ ?_, h.last, h.accepting, fun g' hg' ↦ (h.drained g' hg').imp_right fun hpos ↦ ?_,
    m.locks h rfl, ?_, ?_⟩
  · rw [m.held_eq rfl]
    exact h.leases g'
  · have hheld := m.held Stage.drains g'
    have hne : g ≠ some g' := fun heq ↦ by
      have hzero := hempty g' heq
      rw [show (s.goto n (.forget back g)).generations = s.generations from rfl, hzero] at hg'
      exact absurd hg' (lt_irrefl 0)
    have ha : (Stage.draining back g).drains = g := rfl
    simp only [ha, hne, decide_false, Bool.toNat_false] at hheld
    omega
  · refine m.mem h.detached fun g' hg' ↦ ?_
    exact h.detached _ m.mem_was g' (.inl (hg'.resolve_left nofun))
  · exact m.mem h.empty fun g' hg' ↦ hempty g' hg'

/-! ## Lifecycles -/

structure Fenced (s : State) : Prop where
  operations : ∀ l, (s.lifecycles l).activeOperations = s.held Stage.operates l
  clearing : ∀ l, (s.lifecycles l).clearing.toNat = s.held Stage.clears l
  exclusive : ∀ l, 0 < s.held Stage.excludes l → (s.lifecycles l).activeOperations = 0

theorem Fenced.move (h : s.Fenced) (m : s.Moves t n a b) (hview : b.fencing = a.fencing)
    (hlifecycles : t.lifecycles = s.lifecycles) : t.Fenced := by
  simp only [Stage.fencing, Prod.mk.injEq] at hview
  obtain ⟨hoperates, hclears, hexcludes⟩ := hview
  refine ⟨fun l ↦ ?_, fun l ↦ ?_, fun l ↦ ?_⟩
  · rw [hlifecycles, m.held_eq hoperates, h.operations]
  · rw [hlifecycles, m.held_eq hclears, h.clearing]
  · rw [hlifecycles, m.held_eq hexcludes]
    exact h.exclusive l

/-- A step on one lifecycle. -/
theorem Fenced.setLifecycle {l : ℕ} {y : QueueLifecycle} (h : s.Fenced) (m : s.Moves t n a b)
    (ht : t.lifecycles = Function.update s.lifecycles l y)
    (hsame : ∀ l', l' ≠ l → (a.operates = some l' ↔ b.operates = some l') ∧
      (a.clears = some l' ↔ b.clears = some l') ∧ (a.excludes = some l' ↔ b.excludes = some l'))
    (hoperations : y.activeOperations + (decide (a.operates = some l)).toNat =
      (s.lifecycles l).activeOperations + (decide (b.operates = some l)).toNat)
    (hclearing : y.clearing.toNat + (decide (a.clears = some l)).toNat =
      (s.lifecycles l).clearing.toNat + (decide (b.clears = some l)).toNat)
    (hexclusive : 0 < t.held Stage.excludes l → y.activeOperations = 0) : t.Fenced := by
  have hself : t.lifecycles l = y := by rw [ht, Function.update_self]
  have hother : ∀ l', l' ≠ l → t.lifecycles l' = s.lifecycles l' := fun l' hne ↦ by
    rw [ht, Function.update_of_ne hne]
  refine ⟨fun l' ↦ ?_, fun l' ↦ ?_, fun l' hl' ↦ ?_⟩
  · have hheld := m.held Stage.operates l'
    have := h.operations l'
    by_cases hl : l' = l
    · subst hl
      rw [hself]
      omega
    · simp only [(hsame l' hl).1] at hheld
      rw [hother l' hl]
      omega
  · have hheld := m.held Stage.clears l'
    have := h.clearing l'
    by_cases hl : l' = l
    · subst hl
      rw [hself]
      omega
    · simp only [(hsame l' hl).2.1] at hheld
      rw [hother l' hl]
      omega
  · by_cases hl : l' = l
    · subst hl
      rw [hself]
      exact hexclusive hl'
    · have hheld := m.held Stage.excludes l'
      simp only [(hsame l' hl).2.2] at hheld
      rw [hother l' hl]
      exact h.exclusive l' (by omega)

/-- A call that has a lifecycle for itself clears it. -/
theorem excludes_le_clears (s : State) (l : ℕ) : s.held Stage.excludes l ≤ s.held Stage.clears l := by
  refine List.countP_mono_left fun stage _ h ↦ ?_
  cases stage <;> first | exact h | cases h

/-- Nobody operates on what a call has for itself. -/
theorem Fenced.disjoint (h : s.Fenced) {x y : Stage} {l : ℕ} (hx : x ∈ s.calls) (hy : y ∈ s.calls)
    (hexcludes : x.excludes = some l) : y.operates ≠ some l := by
  intro hoperates
  have hzero := h.exclusive l (held_pos hx hexcludes)
  have hpos := held_pos hy hoperates
  rw [← h.operations] at hpos
  omega

/-! ## Tokens -/

structure Settling (s : State) : Prop where
  bound : ∀ stage ∈ s.calls, ∀ k, stage.claims = some k → k < s.tokens.length
  claims : ∀ k x, s.tokens[k]? = some x →
    s.held Stage.claims k = (decide (x.settlementState = .settling)).toNat
  settled : ∀ k x, s.tokens[k]? = some x →
    x.settled = x.settlementState.final.toNat + s.held Stage.settles k

theorem Settling.move (h : s.Settling) (m : s.Moves t n a b) (hview : b.claiming = a.claiming)
    (htokens : t.tokens = s.tokens) : t.Settling := by
  simp only [Stage.claiming, Prod.mk.injEq] at hview
  obtain ⟨hclaims, hsettles⟩ := hview
  refine ⟨?_, fun k x ↦ ?_, fun k x ↦ ?_⟩
  · rw [htokens]
    refine m.mem h.bound ?_
    rw [hclaims]
    exact h.bound a m.mem_was
  · rw [htokens, m.held_eq hclaims]
    exact h.claims k x
  · rw [htokens, m.held_eq hsettles]
    exact h.settled k x

/-- A step on one token. -/
theorem Settling.setToken {k : ℕ} {x y : AckToken} (h : s.Settling) (m : s.Moves t n a b)
    (hx : s.tokens[k]? = some x) (ht : t.tokens = s.tokens.set k y)
    (hsame : ∀ k', k' ≠ k → (a.claims = some k' ↔ b.claims = some k') ∧
      (a.settles = some k' ↔ b.settles = some k'))
    (hclaims : (decide (y.settlementState = .settling)).toNat + (decide (a.claims = some k)).toNat =
      (decide (x.settlementState = .settling)).toNat + (decide (b.claims = some k)).toNat)
    (hsettled : y.settled + x.settlementState.final.toNat + (decide (a.settles = some k)).toNat =
      x.settled + y.settlementState.final.toNat + (decide (b.settles = some k)).toNat) : t.Settling := by
  have hlength : t.tokens.length = s.tokens.length := by rw [ht, List.length_set]
  refine ⟨?_, fun k' z hz ↦ ?_, fun k' z hz ↦ ?_⟩
  · rw [hlength]
    refine m.mem h.bound fun k' hk' ↦ ?_
    by_cases hk : k' = k
    · subst hk
      exact (List.getElem?_eq_some_iff.1 hx).1
    · exact h.bound a m.mem_was k' ((hsame k' hk).1.2 hk')
  · have hheld := m.held Stage.claims k'
    rw [ht] at hz
    obtain ⟨rfl, rfl⟩ | ⟨hk, hz⟩ := List.getElem?_set_some hz
    · have := h.claims k' x hx
      omega
    · simp only [(hsame k' hk).1] at hheld
      have := h.claims k' z hz
      omega
  · have hheld := m.held Stage.settles k'
    rw [ht] at hz
    obtain ⟨rfl, rfl⟩ | ⟨hk, hz⟩ := List.getElem?_set_some hz
    · have := h.settled k' x hx
      omega
    · simp only [(hsame k' hk).2] at hheld
      have := h.settled k' z hz
      omega

/-- A call that has settled a token has claimed it. -/
theorem settles_le_claims (s : State) (k : ℕ) : s.held Stage.settles k ≤ s.held Stage.claims k := by
  refine List.countP_mono_left fun stage _ h ↦ ?_
  have hsettles : stage.settles = some k := by simpa using h
  have hclaims : stage.claims = some k := by
    unfold Stage.settles at hsettles
    split at hsettles
    all_goals first
      | exact (Option.ite_none_right_eq_some.1 hsettles).2
      | cases hsettles
  simpa using hclaims

/-- A token that is new. -/
theorem Settling.append {x : AckToken} (h : s.Settling) (hcalls : t.calls = s.calls)
    (htokens : t.tokens = s.tokens ++ [x]) (hstate : x.settlementState = .pending)
    (hsettled : x.settled = 0) : t.Settling := by
  have hheld : ∀ f k, t.held f k = s.held f k := fun f k ↦ by rw [State.held, hcalls]; rfl
  have hnone : s.held Stage.claims s.tokens.length = 0 := by
    rw [State.held, List.countP_eq_zero]
    intro stage hs hk
    exact absurd (h.bound stage hs _ (by simpa using hk)) (lt_irrefl _)
  have hsettles : s.held Stage.settles s.tokens.length ≤ s.held Stage.claims s.tokens.length :=
    settles_le_claims s _
  refine ⟨?_, fun k y hy ↦ ?_, fun k y hy ↦ ?_⟩
  · rw [hcalls, htokens]
    intro stage hs k hk
    rw [List.length_append]
    exact Nat.lt_add_right _ (h.bound stage hs k hk)
  · rw [hheld]
    rw [htokens] at hy
    obtain ⟨rfl, rfl⟩ | hy := List.getElem?_concat_some hy
    · rw [hnone, hstate]
      rfl
    · exact h.claims k y hy
  · rw [hheld]
    rw [htokens] at hy
    obtain ⟨rfl, rfl⟩ | hy := List.getElem?_concat_some hy
    · rw [hstate, hsettled]
      show 0 = 0 + _
      omega
    · exact h.settled k y hy

/-- Every token is settled once. -/
theorem Settling.le_one (h : s.Settling) {k : ℕ} {x : AckToken} (hx : s.tokens[k]? = some x) :
    x.settled ≤ 1 := by
  have hclaims := h.claims k x hx
  have hsettled := h.settled k x hx
  have hle := settles_le_claims s k
  -- a token that is `settling` is not in a final state
  cases hstate : x.settlementState with
  | pending | settling =>
    simp [hstate, SettlementState.final] at hclaims hsettled
    omega
  | terminal r =>
    simp only [hstate, reduceCtorEq, decide_false, Bool.toNat_false] at hclaims hsettled
    have := (SettlementState.terminal r).final.toNat_le
    omega

end State

end Sqs

end ScrapyExtension
