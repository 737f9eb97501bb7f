import ScrapyExtension.Backends.Pulsar.ReceivePump

/-!
# Subscriptions of a topic

A topic has one consumer at a time. The argument is about where a consumer is owned: by the pump that
`_receive_pumps` has for the topic, or by the tombstone that `_consumer_retirements` has for it. A pump is
made when there is neither, so what has to be shown is that nothing is owned elsewhere, and that a
tombstone that is overwritten was of no use any more.
-/

namespace ScrapyExtension

namespace Pulsar

/-! ## What holds of the backend -/

namespace State

/-- A pump that may have a consumer is in `_receive_pumps`, or its tombstone is registered. A topic has
one or the other, or both for one pump. -/
structure Inv (s : State) : Prop where
  pump : ∀ n, (s.pumps n).Ok
  fresh : ∀ n, s.count ≤ n → s.pumps n = .none
  attached : ∀ t n, s.receivePumps t = some n → n < s.count ∧ (s.pumps n).topic = t
  registered : ∀ t n, s.consumerRetirements t = some n →
    n < s.count ∧ (s.pumps n).topic = t ∧ (s.pumps n).retirement.isSome = true
  covered : ∀ n, (s.pumps n).busy = true →
    ((s.pumps n).retirement = .none ∧ s.receivePumps (s.pumps n).topic = some n) ∨
      s.consumerRetirements (s.pumps n).topic = some n
  own : ∀ t m n, s.receivePumps t = some m → s.consumerRetirements t = some n →
    (s.pumps n).completed = false → n = m

variable {s t : State} {n : ℕ} {p : Pump} {stage : Stage}

theorem Inv.new : (new).Inv where
  pump _ := .none
  fresh _ _ := rfl
  attached _ _ h := by cases h
  registered _ _ h := by cases h
  covered _ h := by cases h
  own _ _ _ h := by cases h

theorem Inv.lt (h : s.Inv) (hn : s.pumps n ≠ .none) : n < s.count := by
  by_contra hle
  exact hn (h.fresh n (not_lt.1 hle))

/-- A topic has one consumer. -/
theorem Inv.exclusive (h : s.Inv) {m : ℕ} (hm : (s.pumps m).busy = true) (hn : (s.pumps n).busy = true)
    (htopic : (s.pumps m).topic = (s.pumps n).topic) : m = n := by
  have hopen : ∀ {k}, (s.pumps k).busy = true → (s.pumps k).completed = false := by
    intro k hk
    by_contra hc
    rw [(h.pump k).not_busy (by simpa using hc)] at hk
    cases hk
  rcases h.covered m hm with ⟨-, hma⟩ | hmr <;> rcases h.covered n hn with ⟨-, hna⟩ | hnr
  · rw [htopic, hna] at hma
    exact (Option.some.inj hma).symm
  · rw [htopic] at hma
    exact (h.own _ _ _ hma hnr (hopen hn)).symm
  · rw [htopic] at hmr
    exact h.own _ _ _ hna hmr (hopen hm)
  · rw [htopic, hnr] at hmr
    exact (Option.some.inj hmr).symm

@[simp] theorem setPump_self (s : State) (n : ℕ) (p : Pump) : (s.setPump n p).pumps n = p :=
  Function.update_self _ _ _

theorem setPump_of_ne {m : ℕ} (h : m ≠ n) (s : State) (p : Pump) :
    (s.setPump n p).pumps m = s.pumps m := Function.update_of_ne h _ _

/-- A pump goes on, and the topics stay. -/
theorem Inv.setPump (h : s.Inv) (hn : n < s.count) (hok : p.Ok) (htopic : p.topic = (s.pumps n).topic)
    (hbusy : p.busy = true → (s.pumps n).busy = true)
    (hretirement : p.retirement.isSome = (s.pumps n).retirement.isSome)
    (hcompleted : (s.pumps n).completed = true → p.completed = true) : (s.setPump n p).Inv := by
  have htopics : ∀ m, ((s.setPump n p).pumps m).topic = (s.pumps m).topic := by
    intro m
    by_cases hm : m = n
    · rw [hm, setPump_self, htopic]
    · rw [setPump_of_ne hm]
  refine ⟨fun m ↦ ?_, fun m hm ↦ ?_, fun t m hm ↦ ?_, fun t m hm ↦ ?_, fun m hm ↦ ?_,
    fun t m k hm hk hc ↦ ?_⟩
  · by_cases hm : m = n
    · rw [hm, setPump_self]
      exact hok
    · rw [setPump_of_ne hm]
      exact h.pump m
  · rw [setPump_of_ne (hn.trans_le hm).ne']
    exact h.fresh m hm
  · rw [htopics]
    exact h.attached t m hm
  · rw [htopics]
    obtain ⟨hlt, ht, hs⟩ := h.registered t m hm
    refine ⟨hlt, ht, ?_⟩
    by_cases hmn : m = n
    · subst hmn
      rw [setPump_self, hretirement]
      exact hs
    · rw [setPump_of_ne hmn]
      exact hs
  · rw [htopics]
    by_cases hmn : m = n
    · subst hmn
      rw [setPump_self] at hm ⊢
      rcases h.covered m (hbusy hm) with ⟨hnone, ha⟩ | hr
      · refine .inl ⟨?_, ha⟩
        rw [hnone] at hretirement
        exact Option.isSome_eq_false_iff.1 hretirement |> Option.isNone_iff_eq_none.1
      · exact .inr hr
    · rw [setPump_of_ne hmn] at hm ⊢
      exact h.covered m hm
  · refine h.own t m k hm hk ?_
    by_cases hkn : k = n
    · subst hkn
      rw [setPump_self] at hc
      by_contra hcs
      rw [hcompleted (by simpa using hcs)] at hc
      cases hc
    · rwa [setPump_of_ne hkn] at hc

/-- A worker goes on. -/
theorem Inv.goto (h : s.Inv) (hn : n < s.count) (hok : ({ s.pumps n with stage } : Pump).Ok)
    (hstage : stage ≠ .subscribing) : (s.goto n stage).Inv := by
  refine h.setPump hn hok rfl (fun hb ↦ ?_) rfl id
  have hopened : (s.pumps n).handle = .opened := by simpa [Pump.busy, hstage] using hb
  simp [Pump.busy, hopened]

/-- A tombstone that is completed is dropped. -/
theorem Inv.drop (h : s.Inv) {t : ℕ} (ht : s.consumerRetirements t = some n)
    (hc : (s.pumps n).completed = true) :
    ({ s with consumerRetirements := Function.update s.consumerRetirements t .none } : State).Inv := by
  have hold : ∀ {t' m}, Function.update s.consumerRetirements t .none t' = some m →
      s.consumerRetirements t' = some m := by
    intro t' m hm
    by_cases htt : t' = t
    · rw [htt, Function.update_self] at hm
      cases hm
    · rwa [Function.update_of_ne htt] at hm
  refine ⟨h.pump, h.fresh, h.attached, fun t' m hm ↦ h.registered t' m (hold hm), fun m hm ↦ ?_,
    fun t' m k hm hk ↦ h.own t' m k hm (hold hk)⟩
  rcases h.covered m hm with ha | hr
  · exact .inl ha
  · refine .inr ?_
    have hmn : (s.pumps m).topic ≠ t := by
      intro heq
      rw [heq, ht] at hr
      obtain rfl := Option.some.inj hr
      rw [(h.pump n).not_busy hc] at hm
      cases hm
    dsimp only
    rw [Function.update_of_ne hmn]
    exact hr

theorem Inv.unregister (h : s.Inv) (hc : (s.pumps n).completed = true) : (s.unregister n).Inv := by
  rw [State.unregister]
  split_ifs with hr
  · exact h.drop hr hc
  · exact h

theorem Inv.prune (h : s.Inv) (topic : ℕ) : (s.prune topic).Inv := by
  unfold State.prune
  split
  · next m hm =>
    split_ifs with hc
    · exact h.drop hm hc
    · exact h
  · exact h

/-- A pump that is in `_receive_pumps`, or was, gets its tombstone. -/
theorem Inv.register (h : s.Inv) (hn : n < s.count) (hok : p.Ok) (htopic : p.topic = (s.pumps n).topic)
    (hnone : (s.pumps n).retirement = .none)
    (hattached : s.receivePumps (s.pumps n).topic = some n) (hsome : p.retirement.isSome = true)
    {receivePumps consumers : ℕ → Option ℕ}
    (hreceive : ∀ t m, receivePumps t = some m → s.receivePumps t = some m)
    (hother : ∀ t, t ≠ p.topic → receivePumps t = s.receivePumps t) :
    (({ s.setPump n p with receivePumps, consumers } : State).register n).Inv := by
  -- no other tombstone of the topic is open
  have hfree : ∀ m, s.consumerRetirements (s.pumps n).topic = some m → (s.pumps m).busy = false := by
    intro m hm
    by_contra hb
    have hmc : (s.pumps m).completed = false := by
      by_contra hc
      exact hb ((h.pump m).not_busy (by simpa using hc))
    obtain rfl := h.own _ _ _ hattached hm hmc
    have hs := (h.registered _ _ hm).2.2
    rw [hnone] at hs
    cases hs
  have hpump : ∀ m, m ≠ n → (({ s.setPump n p with receivePumps, consumers } : State).register n).pumps m =
      s.pumps m := fun m hm ↦ setPump_of_ne hm s p
  have hself : (({ s.setPump n p with receivePumps, consumers } : State).register n).pumps n = p :=
    setPump_self s n p
  have htopics : ∀ m, ((({ s.setPump n p with receivePumps, consumers } : State).register n).pumps m).topic =
      (s.pumps m).topic := by
    intro m
    by_cases hm : m = n
    · rw [hm, hself, htopic]
    · rw [hpump m hm]
  have hmap : (({ s.setPump n p with receivePumps, consumers } : State).register n).consumerRetirements =
      Function.update s.consumerRetirements p.topic (some n) := by
    rw [State.register]
    dsimp only
    rw [setPump_self]
    rfl
  refine ⟨fun m ↦ ?_, fun m hm ↦ ?_, fun t m hm ↦ ?_, fun t m hm ↦ ?_, fun m hm ↦ ?_,
    fun t m k hm hk hc ↦ ?_⟩
  · by_cases hm : m = n
    · rw [hm, hself]
      exact hok
    · rw [hpump m hm]
      exact h.pump m
  · rw [hpump m (hn.trans_le hm).ne']
    exact h.fresh m hm
  · rw [htopics]
    exact h.attached t m (hreceive t m hm)
  · rw [htopics]
    rw [hmap] at hm
    by_cases ht : t = p.topic
    · rw [ht, Function.update_self] at hm
      obtain rfl := Option.some.inj hm
      rw [hself]
      exact ⟨hn, htopic.symm.trans ht.symm, hsome⟩
    · rw [Function.update_of_ne ht] at hm
      obtain ⟨hlt, hmt, hs⟩ := h.registered t m hm
      refine ⟨hlt, hmt, ?_⟩
      by_cases hmn : m = n
      · rw [hmn, hself]
        exact hsome
      · rw [hpump m hmn]
        exact hs
  · by_cases hmn : m = n
    · subst hmn
      refine .inr ?_
      rw [hself, hmap, Function.update_self]
    · rw [hpump m hmn] at hm ⊢
      have hne : (s.pumps m).topic ≠ p.topic := by
        intro heq
        rcases h.covered m hm with ⟨-, ha⟩ | hr
        · rw [heq, htopic, hattached] at ha
          exact hmn (Option.some.inj ha).symm
        · rw [heq, htopic] at hr
          rw [hfree m hr] at hm
          cases hm
      rw [hmap, Function.update_of_ne hne]
      refine (h.covered m hm).imp_left fun ha ↦ ⟨ha.1, ?_⟩
      exact (hother _ hne).trans ha.2
  · rw [hmap] at hk
    have hm' := hreceive t m hm
    by_cases ht : t = p.topic
    · rw [ht, Function.update_self] at hk
      rw [ht, htopic, hattached] at hm'
      exact (Option.some.inj hk).symm.trans (Option.some.inj hm')
    · rw [Function.update_of_ne ht] at hk
      have hkn : k ≠ n := by
        rintro rfl
        exact ht ((h.registered t k hk).2.1.symm.trans htopic.symm)
      rw [hpump k hkn] at hc
      exact h.own t m k hm' hk hc

end State

/-! ## The steps -/

namespace State

variable {s t : State} {n : ℕ} {p : Pump} {stage : Stage} {start : Start}

/-- A subscription that is not closed, and has no tombstone, is that of the pump of its topic. -/
theorem Inv.attached_of_busy (h : s.Inv) (hb : (s.pumps n).busy = true)
    (hnone : (s.pumps n).retirement = .none) : s.receivePumps (s.pumps n).topic = some n := by
  refine (h.covered n hb).elim And.right fun hr ↦ ?_
  have hs := (h.registered _ _ hr).2.2
  rw [hnone] at hs
  cases hs

theorem Inv.connect (h : s.Inv) : s.connect.Inv := by
  unfold State.connect
  split
  · exact h
  · exact { h with }

theorem Inv.closeStalePumpCandidate {fault : Bool} (h : s.Inv) (hn : n < s.count)
    (hstage : (s.pumps n).stage = .stale fault) : (s.closeStalePumpCandidate n fault start).Inv := by
  have hok := h.pump n
  have hearly : (s.pumps n).stage.early = true := by rw [hstage]; rfl
  have hopened := hok.candidate (.inr ⟨fault, hstage⟩)
  have hbusy : (s.pumps n).busy = true := by simp [Pump.busy, hopened]
  cases hr : (s.pumps n).retirement with
  | none =>
    simp only [State.closeStalePumpCandidate, hr]
    have hnew : ({ (s.pumps n).startConsumerRetirement start with
        stage := if fault then .faulted else .leaving } : Pump).Ok := by
      refine hok.attach hearly rfl rfl ?_ ?_ ?_ ?_
      · cases start <;> rfl
      all_goals cases fault <;> rfl
    exact h.register hn hnew rfl hr (h.attached_of_busy hbusy hr) rfl (fun _ _ ↦ id) fun _ _ ↦ rfl
  | some r =>
    -- the tombstone of a disconnect is still empty
    have hempty : r.consumer = false := by
      by_contra hc
      rw [hok.full r hr (by simpa using hc)] at hearly
      cases hearly
    have hcompleted : r.completed = false := by
      by_contra hc
      rw [(hok.closed r hr (.inl (by simpa using hc))).1] at hearly
      cases hearly
    have hthread : r.thread.any Closing.ended = false := by
      by_contra hc
      rw [(hok.closed r hr (.inr (by simpa using hc))).1] at hearly
      cases hearly
    simp only [State.closeStalePumpCandidate, hr, Pump.modifyRetirement, Option.map_some]
    refine h.setPump hn ?_ rfl (fun _ ↦ hbusy) (by rw [hr]; rfl) fun hc ↦ ?_
    · exact hok.attach hearly rfl hcompleted hthread rfl rfl rfl
    · rw [Pump.completed, hr] at hc
      exact hc

/-- What a step of `_run_consumer_retirement` does. -/
structure Ran (s t : State) (n : ℕ) (c : Closing) : Prop where
  inv : t.Inv
  count : t.count = s.count
  pump : ∃ (handle : Handle) (f : Retirement → Retirement),
    t.pumps n = { (s.pumps n).modifyRetirement f with handle } ∧ handle ≠ .opened ∧
      (∀ r, f r = { r with completed := (f r).completed }) ∧
      (∀ r, r.completed = true → (f r).completed = true)
  completed : c.finished = true → (t.pumps n).completed = true

theorem ran_of_run {c c' : Closing} {r : Retirement} (h : s.Inv) (hn : n < s.count)
    (hr : (s.pumps n).retirement = some r) (hconsumer : r.consumer = true)
    (hended : c.ended = true → (s.pumps n).handle ≠ .opened)
    (hcompleted : c.finished = true → (s.pumps n).completed = true)
    (ht : s.runConsumerRetirement n c = some (c', t)) : s.Ran t n c' ∧ c'.ended = true := by
  have hok := h.pump n
  have hlate := hok.full r hr hconsumer
  cases c with
  | closing =>
    obtain ⟨⟩ := ht
    refine ⟨⟨?_, rfl, ⟨.closed, id, ?_, nofun, fun _ ↦ rfl, fun _ ↦ id⟩, nofun⟩, rfl⟩
    · refine h.setPump hn (hok.setClosed hlate) rfl (fun hb ↦ ?_) rfl id
      have hs : (s.pumps n).stage = .subscribing := by simpa [Pump.busy] using hb
      simp [Pump.busy, hs]
    · rw [setPump_self, Pump.modifyRetirement, Option.map_id]
      rfl
  | closed =>
    obtain ⟨⟩ := ht
    have hdone := hended rfl
    have hset : ((s.pumps n).modifyRetirement fun r ↦ { r with completed := true }).completed = true := by
      rw [Pump.completed, Pump.modifyRetirement, hr]
      rfl
    refine ⟨⟨?_, rfl, ⟨(s.pumps n).handle, fun r ↦ { r with completed := true }, ?_, hdone, fun _ ↦ rfl,
      fun _ _ ↦ rfl⟩, fun _ ↦ ?_⟩, rfl⟩
    · refine h.setPump hn ?_ rfl id ?_ fun _ ↦ hset
      · refine hok.modifyRetirement (fun _ ↦ rfl) (fun _ _ ↦ rfl) (fun _ _ _ ↦ rfl) (hok.threaded ·)
          fun r' hr' hc ↦ ⟨hlate, hdone⟩
      · rw [Pump.modifyRetirement, hr]
        rfl
    · rw [setPump_self]
      rfl
    · rw [setPump_self]
      exact hset
  | completed =>
    obtain ⟨⟩ := ht
    have hpumps : (s.unregister n).pumps = s.pumps := by
      rw [State.unregister]
      split_ifs <;> rfl
    have hcount : (s.unregister n).count = s.count := by
      rw [State.unregister]
      split_ifs <;> rfl
    refine ⟨⟨h.unregister (hcompleted rfl), hcount, ⟨(s.pumps n).handle, id, ?_, hended rfl, fun _ ↦ rfl,
      fun _ ↦ id⟩, fun _ ↦ ?_⟩, rfl⟩
    · rw [hpumps, Pump.modifyRetirement, Option.map_id]
      rfl
    · rw [hpumps]
      exact hcompleted rfl
  | _ => cases ht

/-- The pump after a step of `_run_consumer_retirement`. -/
theorem Ran.pump_eq {c : Closing} {r : Retirement} (h : s.Ran t n c)
    (hr : (s.pumps n).retirement = some r) :
    ∃ handle completed, t.pumps n = { s.pumps n with
        handle, retirement := some { r with completed } } ∧ handle ≠ .opened := by
  obtain ⟨handle, f, hp, hh, hf, -⟩ := h.pump
  refine ⟨handle, (f r).completed, ?_, hh⟩
  rw [hp, Pump.modifyRetirement, hr, Option.map_some, ← hf r]

/-- A worker that runs a retirement goes on. -/
theorem Ran.goto {c : Closing} {r : Retirement} (h : s.Ran t n c) (hn : n < s.count)
    (hr : (s.pumps n).retirement = some r) (hlate : (s.pumps n).stage.early = false)
    (hover : (s.pumps n).stage ≠ .over) (hconsumer : r.consumer = true) (hearly : stage.early = false)
    (hfinished : stage.finished = c.finished) (hfinishes : stage ≠ .finishing) :
    (t.goto n stage).Inv := by
  obtain ⟨handle, completed, hp, hh⟩ := h.pump_eq hr
  have hstage : (t.pumps n).stage = (s.pumps n).stage := by rw [hp]
  have hhandle : (t.pumps n).handle ≠ .opened := by rw [hp]; exact hh
  refine h.inv.goto (h.count.symm ▸ hn) ?_ ?_
  · refine (h.inv.pump n).advance (hstage ▸ hlate) (hstage ▸ hover) hearly (fun _ ↦ hhandle) (fun hf ↦ ?_)
      (fun _ ↦ ⟨{ r with completed }, by rw [hp], hconsumer⟩) fun hf ↦ absurd hf hfinishes
    exact h.completed (hfinished ▸ hf)
  · rintro rfl
    cases hearly

theorem Inv.close (h : s.Inv) (hn : n < s.count) (ht : s.close n = some t) : t.Inv := by
  obtain ⟨r, hr, ht⟩ := Option.bind_eq_some_iff.1 ht
  obtain ⟨c, hc, ht⟩ := Option.bind_eq_some_iff.1 ht
  obtain ⟨⟨c', u⟩, hrun, rfl⟩ := Option.map_eq_some_iff.1 ht
  have hok := h.pump n
  have hconsumer := hok.threaded r hr (by rw [hc]; rfl)
  have hended : c.ended = true → (s.pumps n).handle ≠ .opened := fun he ↦
    (hok.closed r hr (.inr (by rw [hc]; exact he))).2
  have hfinished : c.finished = true → (s.pumps n).completed = true := by
    intro hf
    rw [Pump.completed, hr]
    exact hok.threadFinished r hr (by rw [hc]; exact hf)
  obtain ⟨hran, hc'⟩ := ran_of_run h hn hr hconsumer hended hfinished hrun
  obtain ⟨handle, completed, hp, hh⟩ := hran.pump_eq hr
  have hret : (u.pumps n).retirement = some { r with completed } := by rw [hp]
  have hlate : (u.pumps n).stage.early = false := by
    rw [hp]
    exact hok.full r hr hconsumer
  have hhandle : (u.pumps n).handle ≠ .opened := by
    rw [hp]
    exact hh
  refine hran.inv.setPump (hran.count.symm ▸ hn) ?_ rfl id ?_ ?_
  · refine (hran.inv.pump n).modifyRetirement (fun _ ↦ rfl) (fun _ ↦ id) (fun r' hr' hf ↦ ?_)
      (fun r' hr' _ ↦ ?_) fun _ _ _ ↦ ⟨hlate, hhandle⟩
    · have hcompleted := hran.completed hf
      rw [Pump.completed, hr'] at hcompleted
      exact hcompleted
    · obtain rfl := Option.some.inj (hr'.symm.trans hret)
      exact hconsumer
  · rw [Pump.modifyRetirement, hret]
    rfl
  · intro hcompleted
    rw [Pump.completed, hret] at hcompleted
    rw [Pump.completed, Pump.modifyRetirement, hret]
    exact hcompleted

theorem Inv.receive (h : s.Inv) : (s.receive n start).Inv := by
  rw [State.receive]
  dsimp only
  by_cases hlive : s.live n = true ∧ (s.pumps n).failed = true
  · obtain ⟨hlive, hfailed⟩ := hlive
    have hattached : s.receivePumps (s.pumps n).topic = some n := by
      simp only [State.live, Bool.and_eq_true, decide_eq_true_eq] at hlive
      exact hlive.2
    have hn := (h.attached _ _ hattached).1
    have hlate := (h.pump n).failed hfailed
    rw [if_pos ⟨hlive, hfailed⟩]
    have hdrop : ∀ t m, Function.update s.receivePumps (s.pumps n).topic .none t = some m →
        s.receivePumps t = some m := by
      intro t m hm
      by_cases ht : t = (s.pumps n).topic
      · rw [ht, Function.update_self] at hm
        cases hm
      · rwa [Function.update_of_ne ht] at hm
    by_cases hretire : (s.pumps n).consumer = true ∧ (s.pumps n).retirement.isNone = true
    · have hnone := Option.isNone_iff_eq_none.1 hretire.2
      rw [if_pos hretire, Pump.giveUp]
      dsimp only
      rw [if_pos hretire]
      exact h.register hn ((h.pump n).startConsumerRetirement hlate hnone start false) rfl hnone hattached
        rfl hdrop fun t ht ↦ Function.update_of_ne ht _ _
    · rw [if_neg hretire, Pump.giveUp]
      dsimp only
      rw [if_neg hretire]
      -- there is no consumer, or its tombstone is there already
      have hidle : (s.pumps n).retirement = .none → (s.pumps n).busy = false := by
        intro hnone
        have hconsumer : (s.pumps n).consumer = false := by
          by_contra hc
          exact hretire ⟨by simpa using hc, by rw [hnone]; rfl⟩
        have hclosed : (s.pumps n).handle ≠ .opened := by
          intro ho
          rcases (h.pump n).owned hlate ho with hc | ⟨r, hr, -⟩
          · rw [hconsumer] at hc
            cases hc
          · rw [hnone] at hr
            cases hr
        have hstage : (s.pumps n).stage ≠ .subscribing := by
          intro heq
          rw [heq] at hlate
          cases hlate
        simp [Pump.busy, hclosed, hstage]
      have hquiet : (s.setPump n { s.pumps n with accepting := false }).Inv := by
        refine h.setPump hn ?_ rfl id rfl id
        exact { h.pump n with empty := fun r hr hc ↦ ⟨((h.pump n).empty r hr hc).1, rfl⟩ }
      refine ⟨hquiet.pump, hquiet.fresh, fun t m hm ↦ hquiet.attached t m (hdrop t m hm), hquiet.registered,
        fun m hm ↦ ?_, fun t m k hm ↦ hquiet.own t m k (hdrop t m hm)⟩
      rcases hquiet.covered m hm with ⟨hnone, ha⟩ | hr
      · refine .inl ⟨hnone, ?_⟩
        have hmn : m ≠ n := by
          rintro rfl
          have hnone' : (s.pumps m).retirement = .none := by
            simpa using hnone
          have hbusy : (s.pumps m).busy = true := by
            simpa [Pump.busy] using hm
          rw [hidle hnone'] at hbusy
          cases hbusy
        have hm' : (({ s.setPump n { s.pumps n with accepting := false } with
            receivePumps := Function.update s.receivePumps (s.pumps n).topic .none } : State).pumps m).topic ≠
            (s.pumps n).topic := by
          intro heq
          have hsame : ((s.setPump n { s.pumps n with accepting := false }).pumps m).topic =
            (s.pumps n).topic := heq
          rw [hsame] at ha
          exact hmn (Option.some.inj (ha.symm.trans hattached))
        dsimp only
        rw [Function.update_of_ne hm']
        exact ha
      · exact .inr hr
  · rw [if_neg hlive]
    exact h

/-- A worker that runs a retirement does its next step. -/
theorem Inv.runs {c : Closing} {g : Closing → Stage} (h : s.Inv) (hn : n < s.count)
    (hstage : (s.pumps n).stage = g c) (hcloses : ∀ c, (g c).closes = true)
    (hsettled : ∀ c, (g c).settled = c.ended) (hfinished : ∀ c, (g c).finished = c.finished)
    (ht : (s.runConsumerRetirement n c).map (fun x ↦ x.2.goto n (g x.1)) = some t) : t.Inv := by
  obtain ⟨⟨c', u⟩, hrun, rfl⟩ := Option.map_eq_some_iff.1 ht
  have hok := h.pump n
  obtain ⟨r, hr, hconsumer⟩ := hok.closes (by rw [hstage, hcloses])
  have hended : c.ended = true → (s.pumps n).handle ≠ .opened := fun he ↦
    hok.settled (by rw [hstage, hsettled, he])
  have hcompleted : c.finished = true → (s.pumps n).completed = true := fun hf ↦
    hok.finished (by rw [hstage, hfinished, hf])
  have hshape : ∀ {stage : Stage}, stage.closes = true →
      stage.early = false ∧ stage ≠ .over ∧ stage ≠ .finishing := by
    intro stage hs
    refine ⟨?_, ?_, ?_⟩
    · cases stage <;> first | rfl | cases hs
    · rintro rfl
      cases hs
    · rintro rfl
      cases hs
  obtain ⟨hran, -⟩ := ran_of_run h hn hr hconsumer hended hcompleted hrun
  exact hran.goto hn hr (hok.full r hr hconsumer) (by rw [hstage]; exact (hshape (hcloses c)).2.1) hconsumer
    (hshape (hcloses c')).1 (hfinished c') (hshape (hcloses c')).2.2

theorem Inv.work {outcome : Outcome} (h : s.Inv) (hn : n < s.count)
    (ht : s.work n outcome start = some t) : t.Inv := by
  have hok := h.pump n
  have hbusy : ∀ {q : Pump}, q.stage ≠ .subscribing → q.handle = (s.pumps n).handle → q.busy = true →
      (s.pumps n).busy = true := by
    intro q hq hh hb
    have hopened : (s.pumps n).handle = .opened := by
      rw [← hh]
      unfold Pump.busy at hb
      simpa [hq] using hb
    unfold Pump.busy
    simp [hopened]
  -- after its bootstrap, a worker may go on to any of these
  have hgoto : ∀ {stage : Stage}, (s.pumps n).stage.early = false → (s.pumps n).stage ≠ .over →
      stage.early = false → stage.settled = false → stage.finished = false → stage.closes = false →
      stage ≠ .finishing → (s.goto n stage).Inv := by
    intro stage hlate hover he hs hf hc hfi
    refine h.goto hn (hok.advance hlate hover he (fun h ↦ ?_) (fun h ↦ ?_) (fun h ↦ ?_) fun h ↦ absurd h hfi) ?_
    · rw [h] at hs
      cases hs
    · rw [h] at hf
      cases hf
    · rw [h] at hc
      cases hc
    · rintro rfl
      cases he
  unfold State.work at ht
  cases hstage : (s.pumps n).stage with
  | subscribing =>
    have hnone := hok.bootstrap (.inl hstage)
    simp only [hstage] at ht
    split_ifs at ht <;> obtain ⟨⟩ := ht
    · refine h.setPump hn ?_ rfl (fun _ ↦ by unfold Pump.busy; simp [hstage]) rfl id
      exact hok.bootstraps (by rw [hstage]; rfl) rfl (by simp) fun _ ↦ rfl
    · refine h.goto hn ?_ nofun
      exact hok.bootstraps (by rw [hstage]; rfl) rfl (fun _ ↦ hnone) (by simp)
  | refused =>
    have hnone := hok.bootstrap (.inr hstage)
    simp only [hstage] at ht
    obtain ⟨⟩ := ht
    refine h.setPump hn ?_ rfl (hbusy nofun rfl) rfl id
    have hleaving : ({ s.pumps n with stage := .leaving } : Pump).Ok := by
      refine hok.goto rfl (hok.running (by rw [hstage]; exact nofun)) (fun ho ↦ ?_) nofun nofun nofun nofun
      rw [hnone] at ho
      cases ho
    exact hleaving.setFailed rfl _
  | candidate =>
    have hopened := hok.candidate (.inl hstage)
    have hstale : ∀ fault, (s.goto n (.stale fault)).Inv := by
      intro fault
      refine h.goto hn ?_ nofun
      exact hok.bootstraps (by rw [hstage]; rfl) rfl (by simp) fun _ ↦ hopened
    have hpublish : ∀ {stage : Stage}, s.live n = true → stage.early = false → stage.settled = false →
        stage.finished = false → stage.closes = false → stage ≠ .finishing →
        ({ s.setPump n { s.pumps n with consumer := true, stage } with
          consumers := Function.update s.consumers (s.pumps n).topic (some n) } : State).Inv := by
      intro stage hlive he hs hf hc hfi
      have haccepting : (s.pumps n).accepting = true := by
        simp only [State.live, Bool.and_eq_true] at hlive
        exact hlive.1.1.1
      have hset : (s.setPump n { s.pumps n with consumer := true, stage }).Inv := by
        refine h.setPump hn (hok.publish hstage haccepting he hs hf hc hfi) rfl (hbusy ?_ rfl) rfl id
        rintro rfl
        cases he
      exact { hset with }
    cases outcome with
    | ok =>
      simp only [hstage, if_true, reduceCtorEq, if_false] at ht
      split_ifs at ht with hlive <;> obtain ⟨⟩ := ht
      · exact hpublish hlive rfl rfl rfl rfl nofun
      · exact hstale _
    | failed =>
      simp only [hstage, if_true] at ht
      obtain ⟨⟩ := ht
      exact hstale true
    | other =>
      simp only [hstage, reduceCtorEq, if_false] at ht
      split_ifs at ht with hlive <;> obtain ⟨⟩ := ht
      · exact hpublish hlive rfl rfl rfl rfl nofun
      · exact hstale _
  | stale fault =>
    simp only [hstage] at ht
    obtain ⟨⟩ := ht
    exact h.closeStalePumpCandidate hn hstage
  | closing c fault =>
    cases c with
    | closing | closed | completed =>
      simp only [hstage] at ht
      exact h.runs (g := fun c ↦ .closing c fault) hn hstage (fun _ ↦ rfl) (fun _ ↦ rfl) (fun _ ↦ rfl) ht
    | _ =>
      simp only [hstage] at ht
      obtain ⟨⟩ := ht
      cases fault
      · exact hgoto (by rw [hstage]; rfl) (by rw [hstage]; exact nofun) rfl rfl rfl rfl nofun
      · exact hgoto (by rw [hstage]; rfl) (by rw [hstage]; exact nofun) rfl rfl rfl rfl nofun
  | faulted =>
    simp only [hstage] at ht
    obtain ⟨⟩ := ht
    refine h.setPump hn ?_ rfl (hbusy nofun rfl) rfl id
    have hleaving : ({ s.pumps n with stage := .leaving } : Pump).Ok :=
      hok.advance (by rw [hstage]; rfl) (by rw [hstage]; exact nofun) rfl nofun nofun nofun nofun
    exact hleaving.setFailed rfl _
  | looping =>
    simp only [hstage] at ht
    obtain ⟨⟩ := ht
    split_ifs
    · exact hgoto (by rw [hstage]; rfl) (by rw [hstage]; exact nofun) rfl rfl rfl rfl nofun
    · exact hgoto (by rw [hstage]; rfl) (by rw [hstage]; exact nofun) rfl rfl rfl rfl nofun
  | receiving =>
    have hnext : ∀ {stage : Stage}, stage.early = false → stage.settled = false →
        stage.finished = false → stage.closes = false → stage ≠ .finishing → (s.goto n stage).Inv :=
      fun h₁ h₂ h₃ h₄ h₅ ↦ hgoto (by rw [hstage]; rfl) (by rw [hstage]; exact nofun) h₁ h₂ h₃ h₄ h₅
    simp only [hstage] at ht
    split_ifs at ht <;> obtain ⟨⟩ := ht
    · exact hnext rfl rfl rfl rfl nofun
    · refine h.setPump hn ?_ rfl (hbusy nofun rfl) rfl id
      have hleaving : ({ s.pumps n with stage := .leaving } : Pump).Ok :=
        hok.advance (by rw [hstage]; rfl) (by rw [hstage]; exact nofun) rfl nofun nofun nofun nofun
      exact hleaving.setFailed rfl _
    · exact hnext rfl rfl rfl rfl nofun
    · exact hnext rfl rfl rfl rfl nofun
  | leaving =>
    have hlate : (s.pumps n).stage.early = false := by rw [hstage]; rfl
    have hover : (s.pumps n).stage ≠ .over := by rw [hstage]; exact nofun
    cases hr : (s.pumps n).retirement with
    | none =>
      simp only [hstage, hr] at ht
      obtain ⟨⟩ := ht
      exact hgoto hlate hover rfl rfl rfl rfl nofun
    | some r =>
      simp only [hstage, hr] at ht
      by_cases hempty : r.consumer = false
      · simp only [hempty, Bool.false_eq_true, not_false_eq_true, if_true] at ht
        obtain ⟨⟩ := ht
        refine h.goto hn (hok.advance hlate hover rfl (fun _ ho ↦ ?_) nofun nofun fun _ ↦ by rw [hr]; rfl) nofun
        rcases hok.owned hlate ho with hc | ⟨r', hr', hc⟩
        · rw [(hok.empty r hr hempty).1] at hc
          cases hc
        · obtain rfl := Option.some.inj (hr.symm.trans hr')
          rw [hempty] at hc
          cases hc
      · have hconsumer : r.consumer = true := by simpa using hempty
        simp only [hconsumer, not_true_eq_false, if_false] at ht
        split_ifs at ht <;> obtain ⟨⟩ := ht
        · have hmodified : ((s.pumps n).modifyRetirement fun r ↦ { r with worker := true }).Ok :=
            hok.modifyRetirement (fun _ ↦ rfl) (fun _ ↦ id) (fun r hr ↦ hok.threadFinished r hr)
              (fun r hr ↦ hok.threaded r hr) fun r hr ↦ hok.closed r hr
          refine h.setPump hn ?_ rfl (hbusy nofun rfl) ?_ fun hc ↦ ?_
          · exact hmodified.advance hlate hover rfl nofun nofun
              (fun _ ↦ ⟨{ r with worker := true }, by unfold Pump.modifyRetirement; rw [hr]; rfl, hconsumer⟩) nofun
          · unfold Pump.modifyRetirement
            rw [hr]
            rfl
          · unfold Pump.completed at hc
            rw [hr] at hc
            unfold Pump.completed Pump.modifyRetirement
            rw [hr]
            exact hc
        · exact hgoto hlate hover rfl rfl rfl rfl nofun
  | finishing =>
    have hlate : (s.pumps n).stage.early = false := by rw [hstage]; rfl
    have hover : (s.pumps n).stage ≠ .over := by rw [hstage]; exact nofun
    have hclosed := hok.settled (by rw [hstage]; rfl)
    obtain ⟨r, hr⟩ := Option.isSome_iff_exists.1 (hok.finishes hstage)
    simp only [hstage] at ht
    obtain ⟨⟩ := ht
    have hmodified : ((s.pumps n).modifyRetirement fun r ↦ { r with completed := true }).Ok :=
      hok.modifyRetirement (fun _ ↦ rfl) (fun _ _ ↦ rfl) (fun _ _ _ ↦ rfl)
        (fun r hr ↦ hok.threaded r hr) fun _ _ _ ↦ ⟨hlate, hclosed⟩
    have hcompleted : ((s.pumps n).modifyRetirement fun r ↦ { r with completed := true }).completed =
        true := by
      unfold Pump.completed Pump.modifyRetirement
      rw [hr]
      rfl
    refine h.setPump hn ?_ rfl (hbusy nofun rfl) ?_ fun _ ↦ hcompleted
    · exact hmodified.advance hlate hover rfl (fun _ ↦ hclosed) (fun _ ↦ hcompleted) nofun nofun
    · unfold Pump.modifyRetirement
      rw [hr]
      rfl
  | unregistering =>
    have hlate : (s.pumps n).stage.early = false := by rw [hstage]; rfl
    have hover : (s.pumps n).stage ≠ .over := by rw [hstage]; exact nofun
    have hcompleted := hok.finished (by rw [hstage]; rfl)
    simp only [hstage] at ht
    obtain ⟨⟩ := ht
    have hpumps : (s.unregister n).pumps = s.pumps := by
      rw [State.unregister]
      split_ifs <;> rfl
    have hcount : (s.unregister n).count = s.count := by
      rw [State.unregister]
      split_ifs <;> rfl
    refine (h.unregister hcompleted).goto (hcount ▸ hn) ?_ nofun
    rw [hpumps]
    exact hok.advance hlate hover rfl nofun nofun nofun nofun
  | deferred c =>
    cases c with
    | closing | closed | completed =>
      simp only [hstage] at ht
      exact h.runs (g := fun c ↦ .deferred c) hn hstage (fun _ ↦ rfl) (fun _ ↦ rfl) (fun _ ↦ rfl) ht
    | _ =>
      simp only [hstage] at ht
      obtain ⟨⟩ := ht
      exact hgoto (by rw [hstage]; rfl) (by rw [hstage]; exact nofun) rfl rfl rfl rfl nofun
  | stopping =>
    have hlate : (s.pumps n).stage.early = false := by rw [hstage]; rfl
    have hover : (s.pumps n).stage ≠ .over := by rw [hstage]; exact nofun
    simp only [hstage] at ht
    obtain ⟨⟩ := ht
    refine h.setPump hn ?_ rfl (hbusy nofun rfl) rfl id
    have hmoved : ({ s.pumps n with stage := .over } : Pump).Ok :=
      hok.advance hlate hover rfl nofun nofun nofun nofun
    exact { hmoved with stopped := fun _ ↦ rfl }
  | _ =>
    simp only [hstage] at ht
    cases ht

/-- A pump of a topic that has neither a pump nor a tombstone. -/
theorem Inv.append {topic : ℕ} (h : s.Inv) (hfree : s.receivePumps topic = .none)
    (hopen : s.consumerRetirements topic = .none) (hok : p.Ok) (htopic : p.topic = topic)
    {receivePumps consumerRetirements : ℕ → Option ℕ}
    (hreceive : ∀ t ≠ topic, receivePumps t = s.receivePumps t)
    (hretire : ∀ t ≠ topic, consumerRetirements t = s.consumerRetirements t)
    (hself : (receivePumps topic = some s.count ∧ p.retirement = .none ∧
        consumerRetirements topic = .none) ∨
      (receivePumps topic = .none ∧ p.retirement.isSome = true ∧
        consumerRetirements topic = some s.count)) :
    ({ s.setPump s.count p with count := s.count + 1, receivePumps, consumerRetirements } : State).Inv := by
  have hnew : (s.setPump s.count p).pumps s.count = p := setPump_self s s.count p
  have hold : ∀ m, m ≠ s.count → (s.setPump s.count p).pumps m = s.pumps m := fun m hm ↦
    setPump_of_ne hm s p
  refine ⟨fun m ↦ ?_, fun m hm ↦ ?_, fun t m hm ↦ ?_, fun t m hm ↦ ?_, fun m hm ↦ ?_,
    fun t m k hm hk hc ↦ ?_⟩ <;> dsimp only at *
  · by_cases hm : m = s.count
    · rw [hm, hnew]
      exact hok
    · rw [hold m hm]
      exact h.pump m
  · rw [hold m (by omega)]
    exact h.fresh m (by omega)
  · by_cases ht : t = topic
    · subst ht
      rcases hself with ⟨hs, -⟩ | ⟨hs, -⟩
      · obtain rfl := Option.some.inj (hm.symm.trans hs)
        rw [hnew]
        exact ⟨Nat.lt_succ_self _, htopic⟩
      · rw [hs] at hm
        cases hm
    · rw [hreceive t ht] at hm
      obtain ⟨hlt, hmt⟩ := h.attached t m hm
      rw [hold m hlt.ne]
      exact ⟨Nat.lt_succ_of_lt hlt, hmt⟩
  · by_cases ht : t = topic
    · subst ht
      rcases hself with ⟨-, -, hs⟩ | ⟨-, hsome, hs⟩
      · rw [hs] at hm
        cases hm
      · obtain rfl := Option.some.inj (hm.symm.trans hs)
        rw [hnew]
        exact ⟨Nat.lt_succ_self _, htopic, hsome⟩
    · rw [hretire t ht] at hm
      obtain ⟨hlt, hmt⟩ := h.registered t m hm
      rw [hold m hlt.ne]
      exact ⟨Nat.lt_succ_of_lt hlt, hmt⟩
  · by_cases hmc : m = s.count
    · subst hmc
      rw [hnew, htopic]
      rcases hself with ⟨hs, hnone, -⟩ | ⟨-, -, hs⟩
      · exact .inl ⟨hnone, hs⟩
      · exact .inr hs
    · rw [hold m hmc] at hm ⊢
      have hne : (s.pumps m).topic ≠ topic := by
        rintro rfl
        rcases h.covered m hm with ⟨-, ha⟩ | hr
        · rw [hfree] at ha
          cases ha
        · rw [hopen] at hr
          cases hr
      rw [hreceive _ hne, hretire _ hne]
      exact h.covered m hm
  · by_cases ht : t = topic
    · subst ht
      rcases hself with ⟨-, -, hs⟩ | ⟨hs, -⟩
      · rw [hs] at hk
        cases hk
      · rw [hs] at hm
        cases hm
    · rw [hreceive t ht] at hm
      rw [hretire t ht] at hk
      rw [hold k (h.registered t k hk).1.ne] at hc
      exact h.own t m k hm hk hc

theorem Inv.ensureReceivePump {topic : ℕ} {start : PumpStart} (h : s.Inv) :
    (s.ensureReceivePump topic start).Inv := by
  rw [State.ensureReceivePump]
  have hpruned := h.prune topic
  generalize s.prune topic = u at hpruned
  dsimp only
  split
  · next client hfree hopen _ =>
    have hok := Pump.Ok.new topic client u.lifecycleGeneration
    cases start with
    | started =>
      refine hpruned.append hfree hopen hok rfl (fun t ht ↦ Function.update_of_ne ht _ _) (fun _ _ ↦ rfl)
        (.inl ⟨Function.update_self _ _ _, rfl, hopen⟩)
    | launched =>
      have hmap : (u.setPump u.count ({ Pump.new topic client u.lifecycleGeneration with
          accepting := false }.newConsumerRetirement false)).pumps u.count =
          ({ Pump.new topic client u.lifecycleGeneration with
            accepting := false }.newConsumerRetirement false) := setPump_self _ _ _
      dsimp only
      rw [State.register]
      dsimp only
      rw [hmap]
      refine hpruned.append hfree hopen (hok.newConsumerRetirement rfl rfl) rfl (fun _ _ ↦ rfl)
        (fun t ht ↦ Function.update_of_ne ht _ _) (.inr ⟨hfree, rfl, Function.update_self _ _ _⟩)
    | unstarted => exact hpruned
  · exact hpruned

theorem Inv.disconnect {reentrant : Option ℕ} {start : ℕ → Start} (h : s.Inv) :
    (s.disconnect reentrant start).Inv := by
  have hattached : ∀ m, s.attached m = true → (s.disconnect reentrant start).pumps m =
      (s.pumps m).disconnect (reentrant = some m) (start m) := fun m hm ↦ if_pos hm
  have hother : ∀ m, s.attached m ≠ true → (s.disconnect reentrant start).pumps m = s.pumps m :=
    fun m hm ↦ if_neg hm
  have hspec : ∀ m, s.attached m = true →
      Pump.Disconnected (s.pumps m) ((s.disconnect reentrant start).pumps m) := by
    intro m hm
    rw [hattached m hm]
    exact (h.pump m).disconnect _ _
  have htopic : ∀ m, ((s.disconnect reentrant start).pumps m).topic = (s.pumps m).topic := by
    intro m
    by_cases hm : s.attached m = true
    · exact (hspec m hm).topic
    · rw [hother m hm]
  have hself : ∀ {t m}, s.receivePumps t = some m → s.attached m = true := by
    intro t m hm
    rw [State.attached, (h.attached t m hm).2, hm]
    exact decide_eq_true rfl
  have hmap : ∀ t, (s.disconnect reentrant start).consumerRetirements t = s.consumerRetirements t ∨
      ∃ m, s.receivePumps t = some m ∧ (s.pumps m).retirement = .none ∧
        ((s.disconnect reentrant start).pumps m).retirement.isSome = true ∧
        (s.disconnect reentrant start).consumerRetirements t = some m := by
    intro t
    cases hr : s.receivePumps t with
    | none =>
      left
      simp only [State.disconnect, hr]
    | some m =>
      by_cases hnew : (s.pumps m).retirement.isNone = true ∧
          ((s.disconnect reentrant start).pumps m).retirement.isSome = true
      · refine .inr ⟨m, rfl, Option.isNone_iff_eq_none.1 hnew.1, hnew.2, ?_⟩
        simp only [State.disconnect, hr]
        exact if_pos hnew
      · left
        simp only [State.disconnect, hr]
        exact if_neg hnew
  refine ⟨fun m ↦ ?_, fun m hm ↦ ?_, nofun, fun t m hm ↦ ?_, fun m hm ↦ ?_, nofun⟩
  · by_cases hm : s.attached m = true
    · exact (hspec m hm).ok
    · rw [hother m hm]
      exact h.pump m
  · have hle : s.count ≤ m := hm
    rw [hother m]
    · exact h.fresh m hle
    · intro ha
      exact absurd hle (not_le.2 (h.attached _ _ (of_decide_eq_true ha)).1)
  · rw [htopic]
    rcases hmap t with hsame | ⟨k, hk, -, hsome, heq⟩
    · rw [hsame] at hm
      obtain ⟨hlt, hmt, hs⟩ := h.registered t m hm
      refine ⟨hlt, hmt, ?_⟩
      by_cases ha : s.attached m = true
      · rw [(hspec m ha).retirement hs]
        exact hs
      · rw [hother m ha]
        exact hs
    · obtain rfl := Option.some.inj (hm.symm.trans heq)
      exact ⟨(h.attached t m hk).1, (h.attached t m hk).2, hsome⟩
  · refine .inr ?_
    rw [htopic]
    by_cases ha : s.attached m = true
    · have hm' : s.receivePumps (s.pumps m).topic = some m := of_decide_eq_true ha
      have hsome : ((s.disconnect reentrant start).pumps m).retirement.isSome = true := by
        by_contra hs
        rw [Option.not_isSome_iff_eq_none] at hs
        rw [(hspec m ha).idle hs] at hm
        cases hm
      rcases hmap (s.pumps m).topic with hsame | ⟨k, hk, hnone, -, heq⟩
      · rw [hsame]
        -- the tombstone was there before
        rw [(hspec m ha).busy] at hm
        refine (h.covered m hm).resolve_left fun hcov ↦ ?_
        have hnew : (s.disconnect reentrant start).consumerRetirements (s.pumps m).topic = some m := by
          simp only [State.disconnect, hm']
          exact if_pos ⟨by rw [hcov.1]; rfl, hsome⟩
        rw [hsame] at hnew
        have hs := (h.registered _ _ hnew).2.2
        rw [hcov.1] at hs
        cases hs
      · obtain rfl := Option.some.inj (hk.symm.trans hm')
        exact heq
    · rw [hother m ha] at hm
      have hr : s.consumerRetirements (s.pumps m).topic = some m := by
        refine (h.covered m hm).resolve_left fun hcov ↦ ha ?_
        exact decide_eq_true hcov.2
      rcases hmap (s.pumps m).topic with hsame | ⟨k, hk, hnone, -, -⟩
      · rw [hsame]
        exact hr
      · -- a tombstone that is open is that of the pump
        have hopen : (s.pumps m).completed = false := by
          by_contra hc
          rw [(h.pump m).not_busy (by simpa using hc)] at hm
          cases hm
        obtain rfl := h.own _ _ _ hk hr hopen
        have hs := (h.registered _ _ hr).2.2
        rw [hnone] at hs
        cases hs

theorem Inv.step {a : Label} (h : s.Inv) (ht : s.step a = some t) : t.Inv := by
  cases a with
  | connect =>
    obtain ⟨⟩ := ht
    exact h.connect
  | disconnect reentrant start =>
    obtain ⟨-, ⟨⟩⟩ := Option.ite_none_right_eq_some.1 ht
    exact h.disconnect
  | ensureReceivePump topic start =>
    obtain ⟨⟩ := ht
    exact h.ensureReceivePump
  | receive n start =>
    obtain ⟨⟩ := ht
    exact h.receive
  | work n outcome start =>
    obtain ⟨hn, ht⟩ := Option.ite_none_right_eq_some.1 ht
    exact h.work hn ht
  | close n =>
    obtain ⟨hn, ht⟩ := Option.ite_none_right_eq_some.1 ht
    exact h.close hn ht

end State

theorem inv_of_reachable {s : State} (h : machine.Reachable s) : s.Inv :=
  h.invariant State.Inv.new fun _ _ _ hs ht ↦ hs.step ht

/-! ## One consumer of a topic -/

/-- A pump is made for a topic that has neither a pump nor a tombstone. -/
theorem State.topic_free {s : State} {topic : ℕ} {start : PumpStart}
    (h : s.count < (s.ensureReceivePump topic start).count) :
    (s.prune topic).receivePumps topic = .none ∧ (s.prune topic).consumerRetirements topic = .none := by
  have hcount : (s.prune topic).count = s.count := by
    unfold State.prune
    split
    · split_ifs <;> rfl
    · rfl
  rw [State.ensureReceivePump] at h
  dsimp only at h
  split at h
  · next hfree hopen _ => exact ⟨hfree, hopen⟩
  · rw [hcount] at h
    exact absurd h (lt_irrefl _)

/-- **Exclusive subscriptions**, over every interleaving: the pumps of a topic that subscribe, or whose
consumer is not closed, are one; and a pump is only made when there is none. -/
theorem exclusive_of_reachable {s : State} (h : machine.Reachable s) :
    (∀ m n, (s.pumps m).busy = true → (s.pumps n).busy = true →
      (s.pumps m).topic = (s.pumps n).topic → m = n) ∧
    ∀ topic start, s.count < (s.ensureReceivePump topic start).count →
      ∀ n, (s.pumps n).topic = topic → (s.pumps n).busy = false := by
  have hinv := inv_of_reachable h
  refine ⟨fun m n hm hn ↦ hinv.exclusive hm hn, fun topic start hlt n hn ↦ ?_⟩
  obtain ⟨hfree, hopen⟩ := State.topic_free hlt
  have hpumps : (s.prune topic).pumps = s.pumps := by
    unfold State.prune
    split
    · split_ifs <;> rfl
    · rfl
  have hcovered := (hinv.prune topic).covered n
  rw [hpumps, hn, hfree, hopen] at hcovered
  by_contra hb
  rcases hcovered (by simpa using hb) with ⟨-, ha⟩ | hr
  · cases ha
  · cases hr

/-- A consumer is retired by a disconnect; the next connection waits for its close. -/
def handedOver : List Label :=
  [.connect, .ensureReceivePump 0 .started, .work 0 .ok .started, .work 0 .ok .started,
    .disconnect .none fun _ ↦ .started, .connect, .ensureReceivePump 0 .started, .close 0, .close 0,
    .ensureReceivePump 0 .started]

theorem exclusive_of_reachable_handedOver : ∃ s, machine.run .new handedOver = some s ∧ s.count = 2 ∧
    ∀ m n, (s.pumps m).busy = true → (s.pumps n).busy = true →
      (s.pumps m).topic = (s.pumps n).topic → m = n :=
  ⟨_, rfl, rfl, (exclusive_of_reachable ⟨handedOver, rfl⟩).1⟩

end Pulsar

end ScrapyExtension
