import Observe.Protocol.Accounts

/-!
# Who is notified

Two invariants about the registry's entries.  Every entry, and so every notification, belongs to the
generation through whose observation it was made.  And a thread on its way to `park` has an entry
until the drain takes it, and its token from the moment the drain has come to that entry.
-/

namespace Observe

variable {O W : Type}

/-! ## Classes of program counters -/

def ThreadPc.enqueued : ThreadPc O W → Bool
  | .recheck (.wait _) => true
  | _ => false

def ThreadPc.parked : ThreadPc O W → Bool
  | .unlock .park | .unlock (.clock _) | .clock _ | .park _ => true
  | _ => false

/-- The thread is inside `wait` or `wait_timeout` and can have an entry. -/
def ThreadPc.waiting : ThreadPc O W → Bool
  | .check (.wait _) | .setBit (.wait _) | .loadReg (.wait _) | .casReg (.wait _)
  | .acquire (.wait _) | .push _ | .recheck (.wait _) | .dereg
  | .unlock .park | .unlock (.clock _) | .clock _ | .park _
  | .loadReg .timeout | .casReg .timeout | .acquire .timeout | .expire => true
  | _ => false

theorem ThreadPc.active_of_parked {k : ThreadPc O W} (h : k.parked = true) :
    k.active = true := by
  cases k <;> first | rfl | cases h

/-- Who has pushed an entry and rechecks holds the mutex. -/
theorem ThreadPc.holds_of_enqueued {k : ThreadPc O W} (h : k.enqueued = true) :
    k.holds = true := by
  cases k <;> first | rfl | cases h

theorem ThreadPc.not_waiting_of_inactive {k : ThreadPc O W} (h : k.active = false) :
    k.waiting = false := by
  cases k <;> first | rfl | cases h

/-! ## Tags -/

/-- The waker of an entry was stored through an observation of the entry's generation. -/
def Waiter.Stored (log : List (Gen × W)) : Waiter W → Prop
  | .thread .. => True
  | .waker e _ _ g => (g, e) ∈ log

theorem Waiter.Stored.mono {log log' : List (Gen × W)} (h : ∀ x ∈ log, x ∈ log') {x : Waiter W}
    (hx : x.Stored log) : x.Stored log' := by
  cases x with
  | thread t g => trivial
  | waker e p n g => exact h _ hx

structure Waiter.Belongs (g : Gen) (log : List (Gen × W)) (x : Waiter W) : Prop where
  gen : x.gen = g
  stored : x.Stored log

/-- The tag of an entry does not depend on its flag and its count. -/
theorem Waiter.stable_belongs (g : Gen) (log : List (Gen × W)) :
    Registry.Stable (Waiter.Belongs g log) :=
  fun _ _ _ _ _ _ h => ⟨h.gen, h.stored⟩

structure SlotSys.Tags (s : SlotSys O W) : Prop where
  via : ∀ t, (s.thr t).active = true → (s.via t).gen = s.gen
  registry : ∀ x ∈ s.slot.registry, x.Belongs s.gen s.stored
  rest : ∀ x ∈ s.comp.rest, x.Belongs s.gen s.stored
  notified : ∀ p ∈ s.notified, p.2.Belongs p.1 s.stored ∧ s.published p.1 ≠ none
  past : ∀ g, s.published g ≠ none → g ≤ s.gen

variable {t : Tid} {f : FutId} {e e' : Env} {s s' : SlotSys O W}

/-- The drain hands on what was in the registry, and notifies what it has taken. -/
theorem CompStep.handOn (h : CompStep e s e' s') (hp : s.Published) :
    (∀ x ∈ s'.slot.registry, x ∈ s.slot.registry) ∧
      (∀ x ∈ s'.comp.rest, x ∈ s.comp.rest ∨ x ∈ s.slot.registry) ∧
      ∀ p ∈ s'.notified, p ∈ s.notified ∨
        p.1 = s.gen ∧ p.2 ∈ s.comp.rest ∧ s.published s.gen ≠ none := by
  have hcell := hp.cell
  cases h with
  | unpark hpc =>
    rw [hpc] at hcell ⊢
    obtain ⟨rfl, v, -, hv⟩ := hcell
    simp +contextual [CompPc.rest, hv]
  | wake panics hpc =>
    rw [hpc] at hcell ⊢
    obtain ⟨rfl, v, -, hv⟩ := hcell
    simp +contextual [CompPc.rest, hv]
  | _ => simp_all +contextual [CompPc.rest, Slot.registry, Slot.setOutcome]

/-- A notification takes a thread out of the rest by setting its token. -/
theorem CompStep.wakeUp (h : CompStep e s e' s') (htk : s.comp.taken = true) {u : Tid}
    (hu : e.token u = true ∨ s.comp.rest.queued u = true) :
    e'.token u = true ∨ s'.comp.rest.queued u = true := by
  cases h with
  | @unpark g t' g' ws b hpc =>
    rw [hpc] at hu
    by_cases htu : u = t'
    · exact .inl (by simp [htu])
    · simpa [CompPc.rest, htu, Ne.symm htu] using hu
  | wake panics hpc =>
    rw [hpc] at hu
    simpa [CompPc.rest] using hu
  | _ => simp_all [CompPc.taken, CompPc.rest]

theorem CompStep.publishes (h : CompStep e s e' s') (g : Gen) (hg : s.published g ≠ none) :
    s'.published g ≠ none := by
  have hmono (g' : Gen) (v : O) : Function.update s.published g' (some v) g ≠ none := by
    by_cases hgg : g = g'
    · simp [hgg]
    · simpa [hgg] using hg
  cases h with
  | publish_alone => exact hmono _ _
  | publish_waiters => exact hmono _ _
  | _ => exact hg

/-- A completion publishes for its own generation only. -/
theorem CompStep.published_other (h : CompStep e s e' s') (hp : s.Published) {g : Gen}
    (hg : g ≠ s.gen) : s'.published g = s.published g := by
  have hcell := hp.cell
  cases h with
  | publish_alone hpc =>
    rw [hpc] at hcell
    exact Function.update_of_ne (by rw [hcell.1]; exact hg) _ _
  | publish_waiters hpc =>
    rw [hpc] at hcell
    exact Function.update_of_ne (by rw [hcell.1]; exact hg) _ _
  | _ => rfl

namespace SlotSys.Tags

/-- The registry changes and the log of stored wakers grows. -/
theorem edit (ht : s.Tags) (hvia : ∀ u, (s'.thr u).active = true → (s'.via u).gen = s.gen)
    (hreg : ∀ x ∈ s'.slot.registry, x.Belongs s.gen s'.stored)
    (hlog : ∀ x ∈ s.stored, x ∈ s'.stored) (hrest : s'.comp.rest = s.comp.rest)
    (hgen : s'.gen = s.gen)
    (hn : s'.notified = s.notified) (hpub : s'.published = s.published) : s'.Tags where
  via u hu := by
    rw [hgen]
    exact hvia u hu
  registry x hx := by
    rw [hgen]
    exact hreg x hx
  rest x hx := by
    rw [hrest] at hx
    rw [hgen]
    exact ⟨(ht.rest x hx).gen, (ht.rest x hx).stored.mono hlog⟩
  notified p hp := by
    rw [hn] at hp
    rw [hpub]
    obtain ⟨hb, hne⟩ := ht.notified p hp
    exact ⟨⟨hb.gen, hb.stored.mono hlog⟩, hne⟩
  past g hg := by
    rw [hpub] at hg
    rw [hgen]
    exact ht.past g hg

section Steps

variable [WillWake W]

/-- What a thread pushes or registers carries the generation of its call. -/
theorem threadStep (ht : s.Tags) (h : ThreadStep t e s e' s') : s'.Tags := by
  have hfr := h.frame
  have hvia := ht.via t h.active
  refine ht.edit (fun u hu => ?_) ?_ ?_ (by rw [hfr.comp]) hfr.gen hfr.notified hfr.published
  · rw [hfr.via]
    by_cases hut : u = t
    · rw [hut]
      exact hvia
    · exact ht.via u (by rwa [hfr.thr u hut] at hu)
  · cases h.edit with
    | none _ hr _ hs =>
      rw [hr, hs]
      exact ht.registry
    | push d hpc hpc' hr _ hs =>
      rw [hr, hs]
      exact Registry.forall_pushThread ⟨hvia, trivial⟩ ht.registry
    | store w hpc hpc' hr _ hs =>
      rw [hr, hs]
      refine Registry.forall_registerWaker (Waiter.stable_belongs _ _)
        ⟨hvia, List.mem_cons_self⟩ fun x hx => ?_
      obtain ⟨hg, hst⟩ := ht.registry x hx
      exact ⟨hg, hst.mono fun _ => List.mem_cons_of_mem _⟩
    | retain hpc hpc' hr _ hs =>
      rw [hr, hs]
      exact Registry.forall_retainOthers t ht.registry
  · cases h.edit with
    | store w hpc hpc' hr _ hs =>
      rw [hs]
      exact fun _ => List.mem_cons_of_mem _
    | none _ _ _ hs => exact fun _ => hs ▸ id
    | push _ _ _ _ _ hs => exact fun _ => hs ▸ id
    | retain _ _ _ _ hs => exact fun _ => hs ▸ id

/-- What a future registers carries the generation of the future. -/
theorem futStep (ht : s.Tags) (hr : s.Records) (h : FutStep f s s') : s'.Tags := by
  have hfr := h.frame
  have hgen := hr.gen f (hr.mem f h.active)
  refine ht.edit (fun u hu => ?_) ?_ ?_ (by rw [hfr.comp]) hfr.gen hfr.notified hfr.published
  · rw [hfr.via]
    exact ht.via u (by rwa [hfr.thr] at hu)
  · cases h.edit with
    | none hreg hs =>
      rw [hreg, hs]
      exact ht.registry
    | store w hpc hpc' hreg hs =>
      rw [hs]
      refine Registry.forall_registerFutureWaker (Waiter.stable_belongs _ _)
        ⟨hgen, List.mem_cons_self⟩ hreg fun x hx => ?_
      obtain ⟨hg, hst⟩ := ht.registry x hx
      exact ⟨hg, hst.mono fun _ => List.mem_cons_of_mem _⟩
    | record w b hpc hpc' hc hreg hs =>
      rw [hreg, hs]
      exact ht.registry
    | remove hpc hpc' hreg hs =>
      rw [hreg, hs]
      exact Registry.forall_cancel (Waiter.stable_belongs _ _) _ ht.registry
  · cases h.edit with
    | store w hpc hpc' hreg hs =>
      rw [hs]
      exact fun _ => List.mem_cons_of_mem _
    | none _ hs => exact fun _ => hs ▸ id
    | record _ _ _ _ _ _ hs => exact fun _ => hs ▸ id
    | remove _ _ _ hs => exact fun _ => hs ▸ id

end Steps

/-- The drain notifies entries of its own generation, once it is published. -/
theorem compStep (ht : s.Tags) (hp : s.Published) (h : CompStep e s e' s') : s'.Tags := by
  have hfr := h.frame
  obtain ⟨hreg, hrest, hn⟩ := h.handOn hp
  refine ⟨?via, ?registry, ?rest, ?notified, ?past⟩
  case via =>
    rw [hfr.thr, hfr.via, hfr.gen]
    exact ht.via
  case registry =>
    intro x hx
    rw [hfr.gen, hfr.stored]
    exact ht.registry x (hreg x hx)
  case rest =>
    intro x hx
    rw [hfr.gen, hfr.stored]
    exact (hrest x hx).elim (ht.rest x) (ht.registry x)
  case notified =>
    intro p hp'
    rw [hfr.stored]
    rcases hn p hp' with hold | ⟨hg, hx, hpub⟩
    · obtain ⟨hb, hne⟩ := ht.notified p hold
      exact ⟨hb, h.publishes p.1 hne⟩
    · rw [hg]
      exact ⟨ht.rest _ hx, h.publishes s.gen hpub⟩
  case past =>
    intro g hg
    rw [hfr.gen]
    by_cases hgs : g = s.gen
    · exact hgs.le
    · exact ht.past g (by rwa [h.published_other hp hgs] at hg)

/-- What happens to a slot while no call is in the registry. -/
theorem congr (ht : s.Tags) (hvia : ∀ u, (s'.thr u).active = true → (s'.via u).gen = s.gen)
    (hreg : s'.slot.registry = s.slot.registry) (hlog : s'.stored = s.stored)
    (hrest : s'.comp.rest = s.comp.rest) (hgen : s'.gen = s.gen) (hn : s'.notified = s.notified)
    (hpub : s'.published = s.published) : s'.Tags :=
  ht.edit hvia (by rw [hreg, hlog]; exact ht.registry) (fun _ => hlog ▸ id) hrest hgen hn hpub

theorem startCall (ht : s.Tags) {h : Handle} (hg : h.gen = s.gen) (c : Call W) :
    (s.startCall t h c).Tags := by
  refine ht.congr (fun u hu => ?_) rfl rfl rfl rfl rfl rfl
  by_cases hut : u = t
  · simp [SlotSys.startCall, hut, hg]
  · simp only [SlotSys.startCall, Function.update_of_ne hut] at hu ⊢
    exact ht.via u hu

theorem startCancel (ht : s.Tags) (f : FutId) : (s.startCancel f).Tags := by
  unfold SlotSys.startCancel
  split
  · exact ht.congr ht.via rfl rfl rfl rfl rfl rfl
  · exact ht.congr ht.via rfl rfl rfl rfl rfl rfl

theorem startComplete (ht : s.Tags) (hidle : s.comp = .idle) (g : Gen) (v : O) :
    (s.startComplete g v).Tags :=
  ht.congr ht.via rfl rfl (by rw [hidle]; rfl) rfl rfl rfl

/-- A later generation starts with an empty registry. -/
theorem prepared (ht : s.Tags) (hidle : ∀ t, (s.thr t).active = false) (hthr : s'.thr = s.thr)
    (hreg : s'.slot.registry = []) (hcomp : s'.comp = .idle) (hlog : s'.stored = s.stored)
    (hn : s'.notified = s.notified) (hpub : s'.published = s.published) (hg : s.gen ≤ s'.gen) :
    s'.Tags where
  via u hu := by
    rw [hthr, hidle u] at hu
    cases hu
  registry := by simp [hreg]
  rest := by simp [hcomp, CompPc.rest]
  notified := by
    rw [hn, hlog, hpub]
    exact ht.notified
  past g hg' := by
    rw [hpub] at hg'
    exact (ht.past g hg').trans hg

end SlotSys.Tags

/-! ## Threads and their tokens -/

structure SlotSys.Awake (e : Env) (s : SlotSys O W) : Prop where
  /-- A thread that has pushed its entry finds it until the mutex is free. -/
  pushed : ∀ t, (s.thr t).enqueued = true → s.slot.registry.queued t = true
  /-- A thread goes to park with its entry in the registry, -/
  parked : ∀ t, (s.thr t).parked = true → s.comp.taken = false → s.slot.registry.queued t = true
  /-- and the drain that takes the entry sets the thread's token. -/
  token : ∀ t, (s.thr t).parked = true → s.comp.taken = true →
    e.token t = true ∨ s.comp.rest.queued t = true
  /-- A thread leaves its entry behind only for a drain that is still to come. -/
  inside : ∀ t, s.slot.registry.queued t = true →
    (s.thr t).waiting = true ∨ (s.slot.state.completed = true ∧ s.comp.taken = false)

section Awake

variable [WillWake W]

/-- Only its own thread consumes a parking token, and then it leaves `park`. -/
theorem ThreadStep.token (h : ThreadStep t e s e' s') {u : Tid}
    (hu : u ≠ t ∨ (s'.thr t).parked = true) (htok : e.token u = true) : e'.token u = true := by
  cases h with
  | park_token hpc ht =>
    rcases hu with hu | hp
    · simpa [hu] using htok
    · simp [ThreadPc.parked] at hp
  | _ => exact htok

/-- A thread's step leaves the entries of other threads alone. -/
theorem ThreadStep.queued (h : ThreadStep t e s e' s') (u : Tid) (hu : u ≠ t) :
    s'.slot.registry.queued u = s.slot.registry.queued u := by
  cases h.edit with
  | none _ hr => rw [hr]
  | push d hpc hpc' hr => rw [hr, Registry.queued_pushThread]; simp [hu.symm]
  | store w hpc hpc' hr => rw [hr, Registry.queued_registerWaker]
  | retain hpc hpc' hr => rw [hr, Registry.queued_retainOthers]; simp [bne, hu.symm]

theorem FutStep.queued (h : FutStep f s s') (u : Tid) :
    s'.slot.registry.queued u = s.slot.registry.queued u := by
  cases h.edit with
  | none hr => rw [hr]
  | store w hpc hpc' hr => rw [Registry.queued_registerFutureWaker hr]
  | record w b hpc hpc' hc hr => rw [hr]
  | remove hpc hpc' hr => rw [hr, Registry.queued_cancel]

/-- A thread that has just pushed is in the registry. -/
theorem ThreadStep.enqueues (h : ThreadStep t e s e' s') (hp : (s'.thr t).enqueued = true) :
    s'.slot.registry.queued t = true := by
  cases h with
  | push hpc => simp [Slot.registry, Registry.queued_pushThread]
  | _ => simp_all [ThreadPc.enqueued]

/-- Where a thread comes from that is on its way to park. -/
theorem ThreadStep.parked_self (h : ThreadStep t e s e' s') (hp : (s'.thr t).parked = true) :
    s'.slot.registry = s.slot.registry ∧ ((s.thr t).parked = true ∨
      ((s.thr t).enqueued = true ∧ s.slot.state.completed = false)) := by
  cases h <;> simp_all [ThreadPc.parked, ThreadPc.enqueued, Slot.registry]

/-- A thread's own entry: it pushes one, and leaves without taking it back only when it has seen
`COMPLETED`. -/
theorem ThreadStep.inside_self (h : ThreadStep t e s e' s')
    (hq : s'.slot.registry.queued t = true) :
    (s'.thr t).waiting = true ∨ (s.slot.registry.queued t = true ∧
      ((s.thr t).waiting = false ∨ ((s.thr t).pushed = false ∧
        s.slot.state.completed = true))) := by
  cases h with
  | dereg hpc =>
    simp only [SlotSys.goThr, SlotSys.setRegistry, Slot.registry, Option.getD_some,
      Registry.queued_retainOthers, bne_self_eq_false, Bool.false_and] at hq
    cases hq
  | expire hpc =>
    simp only [SlotSys.goThr, SlotSys.setRegistry, Slot.registry, Option.getD_some,
      Registry.queued_retainOthers, bne_self_eq_false, Bool.false_and] at hq
    cases hq
  | push hpc => exact .inl (by simp [ThreadPc.waiting])
  | store hpc =>
    simp only [SlotSys.goThr, SlotSys.noteDirect, SlotSys.setRegistry, Slot.registry,
      Option.getD_some, Registry.queued_registerWaker] at hq
    exact .inr ⟨hq, .inl (by simp [hpc, ThreadPc.waiting])⟩
  | @check_pending c hpc hc => cases c <;> simp_all [ThreadPc.waiting, Slot.registry]
  | @setBit c hpc => cases c <;> simp_all [ThreadPc.waiting, Slot.registry]
  | @loadReg_null c hpc hn => cases c <;> simp_all [Slot.registry]
  | @loadReg_some c hpc hn => cases c <;> simp_all [ThreadPc.waiting, Slot.registry]
  | @casReg c hpc => cases c <;> simp_all [ThreadPc.waiting, Slot.registry]
  | _ => simp_all [ThreadPc.waiting, ThreadPc.pushed, Slot.registry]

namespace SlotSys.Awake

/-- A thread parks with its entry in the registry, or with its token set. -/
theorem threadStep (ha : s.Awake e) (hw : s.Wf) (h : ThreadStep t e s e' s') : s'.Awake e' := by
  have hfr := h.frame
  refine ⟨?pushed, ?parked, ?token, ?inside⟩
  case pushed =>
    intro u hu
    by_cases hut : u = t
    · subst hut
      exact h.enqueues hu
    · rw [h.queued u hut]
      exact ha.pushed u (by rwa [hfr.thr u hut] at hu)
  case parked =>
    intro u hu htk
    rw [hfr.comp] at htk
    by_cases hut : u = t
    · subst hut
      obtain ⟨hr, hp | ⟨hq, -⟩⟩ := h.parked_self hu
      · rw [hr]
        exact ha.parked u hp htk
      · rw [hr]
        exact ha.pushed u hq
    · rw [h.queued u hut]
      exact ha.parked u (by rwa [hfr.thr u hut] at hu) htk
  case token =>
    intro u hu htk
    rw [hfr.comp] at htk ⊢
    by_cases hut : u = t
    · subst hut
      obtain ⟨-, hp | ⟨-, hc⟩⟩ := h.parked_self hu
      · exact (ha.token u hp htk).imp_left (h.token (.inr hu))
      · rw [hw.not_taken_of_pending hc] at htk
        cases htk
    · exact (ha.token u (by rwa [hfr.thr u hut] at hu) htk).imp_left (h.token (.inl hut))
  case inside =>
    intro u hq
    rw [hfr.completed, hfr.comp]
    by_cases hut : u = t
    · subst hut
      rcases h.inside_self hq with hin | ⟨hold, hout⟩
      · exact .inl hin
      · refine .inr ?_
        rcases hout with hnot | ⟨hpush, hc⟩
        · exact (ha.inside u hold).resolve_left (by rw [hnot]; simp)
        · refine ⟨hc, ?_⟩
          -- behind the drain only the thread that has just pushed has an entry
          by_contra htk
          obtain ⟨x, hx, hxu⟩ := List.any_eq_true.mp hold
          obtain ⟨u', hxu', hu'⟩ := hw.drained.registry (by simpa using htk) x hx
          have huu : u' = u := Waiter.thread_unique hxu' hxu
          rw [huu, hpush] at hu'
          cases hu'
    · rw [hfr.thr u hut]
      exact ha.inside u (by rwa [h.queued u hut] at hq)

/-- A future takes no thread's entry out of the registry. -/
theorem futStep (ha : s.Awake e) (h : FutStep f s s') : s'.Awake e := by
  have hfr := h.frame
  refine ⟨?pushed, ?parked, ?token, ?inside⟩
  case pushed =>
    intro u hu
    rw [h.queued]
    exact ha.pushed u (by rwa [hfr.thr] at hu)
  case parked =>
    intro u hu htk
    rw [h.queued]
    exact ha.parked u (by rwa [hfr.thr] at hu) (by rwa [hfr.comp] at htk)
  case token =>
    intro u hu htk
    rw [hfr.comp] at htk ⊢
    exact ha.token u (by rwa [hfr.thr] at hu) htk
  case inside =>
    intro u hq
    rw [hfr.thr, hfr.completed, hfr.comp]
    exact ha.inside u (by rwa [h.queued] at hq)

end SlotSys.Awake

end Awake

namespace SlotSys.Awake

/-- A thread whose entry the drain takes is unparked before the drain forgets it. -/
theorem compStep (ha : s.Awake e) (hw : s.Wf) (h : CompStep e s e' s') : s'.Awake e' := by
  have hfr := h.frame
  refine ⟨?pushed, ?parked, ?token, ?inside⟩
  case pushed =>
    intro u hu
    rw [hfr.thr] at hu
    rcases h.registry with hr | ⟨g, hpc, -⟩
    · rw [hr]
      exact ha.pushed u hu
    · -- the drain holds the mutex, so no thread has just pushed
      have h₁ := hw.mutex.comp.mp (by rw [hpc]; rfl)
      have h₂ := (hw.mutex.thr u).mp (ThreadPc.holds_of_enqueued hu)
      rw [h₁] at h₂
      cases h₂
  case parked =>
    intro u hu htk
    obtain ⟨hold, -, hreg⟩ := h.pending htk
    rw [hreg]
    exact ha.parked u (by rwa [hfr.thr] at hu) hold
  case token =>
    intro u hu htk
    rw [hfr.thr] at hu
    cases hold : s.comp.taken with
    | true => exact h.wakeUp hold (ha.token u hu hold)
    | false =>
      obtain ⟨hrest, -, -⟩ := h.takes hw hold htk
      rw [hrest]
      exact .inr (ha.parked u hu hold)
  case inside =>
    intro u hq
    rw [hfr.thr]
    cases htk' : s'.comp.taken with
    | false =>
      obtain ⟨-, -, hreg⟩ := h.pending htk'
      exact (ha.inside u (by rwa [hreg] at hq)).imp_right fun ⟨hc, _⟩ => ⟨h.completed hc, rfl⟩
    | true =>
      cases htk : s.comp.taken with
      | false =>
        obtain ⟨-, hnil, -⟩ := h.takes hw htk htk'
        rw [hnil] at hq
        cases hq
      | true =>
        rcases h.registry with hr | ⟨g, -, hnil, -⟩
        · refine .inl ((ha.inside u (by rwa [hr] at hq)).resolve_right ?_)
          rw [htk]
          simp
        · rw [hnil] at hq
          cases hq

/-- A step that leaves the registry and the drain alone, in an environment that takes no token from
a thread on its way to park. -/
theorem congr (ha : s.Awake e) (hthr : ∀ u, s'.thr u = s.thr u ∨
      ((s.thr u).waiting = false ∧ (s'.thr u).parked = false ∧ (s'.thr u).enqueued = false))
    (htok : ∀ u, (s.thr u).parked = true → e.token u = true → e'.token u = true)
    (hreg : s'.slot.registry = s.slot.registry)
    (hc : s'.slot.state.completed = s.slot.state.completed) (htaken : s'.comp.taken = s.comp.taken)
    (hrest : s'.comp.rest = s.comp.rest) : s'.Awake e' := by
  refine ⟨?pushed, ?parked, ?token, ?inside⟩
  case pushed =>
    intro u hu
    rw [hreg]
    rcases hthr u with hu' | ⟨-, -, hne⟩
    · exact ha.pushed u (by rwa [hu'] at hu)
    · rw [hne] at hu
      cases hu
  case parked =>
    intro u hu htk
    rw [hreg]
    rcases hthr u with hu' | ⟨-, hne, -⟩
    · exact ha.parked u (by rwa [hu'] at hu) (by rwa [htaken] at htk)
    · rw [hne] at hu
      cases hu
  case token =>
    intro u hu htk
    rw [hrest]
    rcases hthr u with hu' | ⟨-, hne, -⟩
    · rw [hu'] at hu
      exact (ha.token u hu (by rwa [htaken] at htk)).imp_left (htok u hu)
    · rw [hne] at hu
      cases hu
  case inside =>
    intro u hq
    rw [hc, htaken]
    have hold := ha.inside u (by rwa [hreg] at hq)
    rcases hthr u with hu' | ⟨hne, -⟩
    · rwa [hu']
    · exact .inr (hold.resolve_left (by rw [hne]; simp))

theorem startCall (ha : s.Awake e) (hidle : (s.thr t).active = false) (h : Handle) (c : Call W) :
    (s.startCall t h c).Awake e := by
  refine ha.congr (fun u => ?_) (fun _ _ => id) rfl rfl rfl rfl
  by_cases hut : u = t
  · subst hut
    refine .inr ⟨ThreadPc.not_waiting_of_inactive hidle, ?_, ?_⟩
    · cases c <;> simp [SlotSys.startCall, Call.entry, ThreadPc.parked]
    · cases c <;> simp [SlotSys.startCall, Call.entry, ThreadPc.enqueued]
  · exact .inl (by simp [SlotSys.startCall, hut])

theorem startComplete (ha : s.Awake e) (hidle : s.comp = .idle) (g : Gen) (v : O) :
    (s.startComplete g v).Awake e :=
  ha.congr (fun _ => .inl rfl) (fun _ _ => id) rfl rfl (by rw [hidle]; rfl) (by rw [hidle]; rfl)

theorem prepared (hidle : ∀ t, (s.thr t).active = false) (hthr : s'.thr = s.thr)
    (hreg : s'.slot.registry = []) : s'.Awake e := by
  have hnot (u : Tid) (P : ThreadPc O W → Bool)
      (hP : ∀ k : ThreadPc O W, k.active = false → P k = false) : P (s'.thr u) ≠ true := by
    rw [hthr, hP _ (hidle u)]
    simp
  refine ⟨fun u hu => absurd hu (hnot u _ ?_), fun u hu => absurd hu (hnot u _ ?_),
    fun u hu => absurd hu (hnot u _ ?_), fun u hq => ?_⟩
  · intro k hk
    cases k <;> first | rfl | cases hk
  · intro k hk
    cases k <;> first | rfl | cases hk
  · intro k hk
    cases k <;> first | rfl | cases hk
  · rw [hreg] at hq
    cases hq

end SlotSys.Awake

/-! ## Answers -/

/-- `register_waker` returns `false` only for a waker it has stored. -/
structure SlotSys.Answered (s : SlotSys O W) : Prop where
  answered : ∀ w ∈ s.answered, w ∈ s.direct
  thr : ∀ t w, s.thr t = .unlock (.returned (.registered w false)) → w ∈ s.direct

section Answered

variable [WillWake W]

theorem ThreadStep.direct (h : ThreadStep t e s e' s') : ∀ w ∈ s.direct, w ∈ s'.direct := by
  cases h.edit with
  | none _ _ hd => exact fun _ => hd ▸ id
  | push _ _ _ _ hd => exact fun _ => hd ▸ id
  | store w _ _ _ hd => rw [hd]; exact fun _ => List.mem_cons_of_mem _
  | retain _ _ _ hd => exact fun _ => hd ▸ id

/-- The answer `false` comes right behind the registration. -/
theorem ThreadStep.answers_self (h : ThreadStep t e s e' s') {w : W}
    (hw : s'.thr t = .unlock (.returned (.registered w false))) : w ∈ s'.direct := by
  cases h <;> simp_all

/-- `register_waker` answers `false` only after it has stored the waker. -/
theorem SlotSys.Answered.threadStep (ha : s.Answered) (h : ThreadStep t e s e' s') :
    s'.Answered := by
  refine ⟨fun w hw => h.direct w ?_, fun u w hw => ?_⟩
  · rcases h.answered with heq | ⟨r, hpc, heq⟩
    · exact ha.answered w (by rwa [heq] at hw)
    · rw [heq] at hw
      rcases List.mem_append.mp hw with hw | hw
      · cases r with
        | registered w' b =>
          cases b with
          | true => cases hw
          | false =>
            rw [List.mem_singleton.mp hw]
            exact ha.thr t w' hpc
        | value v => cases hw
        | none => cases hw
      · exact ha.answered w hw
  · by_cases hut : u = t
    · subst hut
      exact h.answers_self hw
    · exact h.direct w (ha.thr u w (by rwa [h.frame.thr u hut] at hw))

end Answered

theorem SlotSys.Answered.congr (ha : s.Answered) (hans : s'.answered = s.answered)
    (hdir : s'.direct = s.direct)
    (hthr : ∀ u, s'.thr u = s.thr u ∨ (s'.thr u).holds = false) : s'.Answered := by
  refine ⟨by rw [hans, hdir]; exact ha.answered, fun u w hw => ?_⟩
  rw [hdir]
  rcases hthr u with hu | hu
  · exact ha.thr u w (by rw [← hu, hw])
  · rw [hw] at hu
    cases hu

end Observe
