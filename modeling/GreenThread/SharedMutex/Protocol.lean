import GreenThread.SharedMutex.Sections

/-!
# Exclusion

The invariant of the threads of a `shared_timed_mutex`: the queues hold the threads that sleep, the
`state_data` is balanced with the locks that are held and the exclusive lock that is granted, and a
grant is on its way only to an upgrader that waits.
-/

namespace GreenThread

namespace SharedMutex

variable {τ : Type} [DecidableEq τ]

/-- The exclusive locks granted by a notification that the thread has still to give, or to the
thread itself. -/
def PC.grants : PC → Nat
  | .woken op _ _ => op.grants
  | .notifying n ns => (n :: ns).count (.one .upgrade)
  | _ => 0

/-- The operation of a thread that waits, or whose wait has just ended. -/
def PC.waiter? : PC → Option Op
  | .asleep op _ _ | .woken op _ _ => some op
  | _ => none

/-- The queues hold the threads that sleep. -/
structure Queues (s : State τ) : Prop where
  queued : ∀ c t, t ∈ s.queue c ↔ ∃ op timed, s.pc t = .asleep op c timed
  nodup : ∀ c, (s.queue c).Nodup
  asleep : ∀ {t op c timed}, s.pc t = .asleep op c timed → op.cond = some c ∧ op.timed = timed
  woken : ∀ {t op notified timed}, s.pc t = .woken op notified timed → op.cond ≠ none

structure Inv [Fintype τ] (s : State τ) : Prop where
  queues : Queues s
  balanced : Balanced s.data (s.held .shared) (s.held .upgrade) (s.held .exclusive)
    (∑ t, (s.pc t).grants)
  source : ∀ {t op m}, (s.pc t).waiter? = some op → op.tries = true → op.source = some m →
    0 < (s.hold t).count m
  pending : ∀ {t n}, n ∈ (s.pc t).pending → n = .one .upgrade ∨ n.cond ≠ .upgrade
  granting : ∀ {t}, .one .upgrade ∈ (s.pc t).pending → s.queue .upgrade ≠ []
  upgrading : s.data.upgrade = true → 0 < s.held .upgrade ∨ s.queue .upgrade ≠ []
  passed : ∀ t, s.pc t ≠ .failed

/-! ### Notifications -/

section

variable {s : State τ}

omit [DecidableEq τ] in
theorem Notify.mem_queue (n : Notify) (q : List τ) (t : τ) :
    t ∈ q ↔ t ∈ n.wakes q ∨ t ∈ n.leaves q := by
  cases n with
  | one c =>
    rw [← List.mem_append]
    simp only [Notify.wakes, Notify.leaves, List.take_append_drop]
  | all c => simp [Notify.wakes, Notify.leaves]

omit [DecidableEq τ] in
theorem Notify.leaves_sublist (n : Notify) (q : List τ) : (n.leaves q).Sublist q := by
  cases n with
  | one c => exact List.drop_sublist 1 q
  | all c => exact List.nil_sublist q

omit [DecidableEq τ] in
theorem Notify.disjoint (n : Notify) {q : List τ} (hq : q.Nodup) {t : τ} (hw : t ∈ n.wakes q) :
    t ∉ n.leaves q := by
  cases n with
  | one c => exact List.disjoint_take_drop hq (Nat.le_refl 1) hw
  | all c => exact List.not_mem_nil

theorem Queues.notify_pc (hq : Queues s) (n : Notify) (t : τ) :
    (t ∈ n.wakes (s.queue n.cond) ∧ ∃ op timed, s.pc t = .asleep op n.cond timed ∧
      (s.notify n).pc t = .woken op true timed) ∨
    (t ∉ n.wakes (s.queue n.cond) ∧ (s.notify n).pc t = s.pc t) := by
  by_cases hw : t ∈ n.wakes (s.queue n.cond)
  · obtain ⟨op, timed, hpc⟩ := (hq.queued n.cond t).mp ((n.mem_queue _ t).mpr (.inl hw))
    refine .inl ⟨hw, op, timed, hpc, ?_⟩
    show (if t ∈ n.wakes (s.queue n.cond) then (s.pc t).wake else s.pc t) = _
    rw [if_pos hw, hpc]
    rfl
  · exact .inr ⟨hw, if_neg hw⟩

theorem Queues.notify (hq : Queues s) (n : Notify) : Queues (s.notify n) := by
  refine ⟨fun c t => ?_, fun c => ?_, ?_, ?_⟩
  · by_cases hc : c = n.cond
    · subst hc
      have hqueue : (s.notify n).queue n.cond = n.leaves (s.queue n.cond) := Function.update_self ..
      rw [hqueue]
      rcases hq.notify_pc n t with ⟨hw, op, timed, hpc, hnew⟩ | ⟨hw, hsame⟩
      · refine iff_of_false (n.disjoint (hq.nodup _) hw) ?_
        rintro ⟨op', timed', hpc'⟩
        rw [hnew] at hpc'
        cases hpc'
      · rw [hsame, ← hq.queued, n.mem_queue (s.queue n.cond)]
        exact ⟨.inr, fun h => h.resolve_left hw⟩
    · have hqueue : (s.notify n).queue c = s.queue c := Function.update_of_ne hc _ _
      rw [hqueue, hq.queued]
      rcases hq.notify_pc n t with ⟨hw, op, timed, hpc, hnew⟩ | ⟨hw, hsame⟩
      · rw [hpc, hnew]
        refine iff_of_false ?_ ?_
        · rintro ⟨op', timed', hpc'⟩
          cases hpc'
          exact hc rfl
        · rintro ⟨op', timed', hpc'⟩
          cases hpc'
      · rw [hsame]
  · by_cases hc : c = n.cond
    · subst hc
      have hqueue : (s.notify n).queue n.cond = n.leaves (s.queue n.cond) := Function.update_self ..
      rw [hqueue]
      exact (hq.nodup _).sublist (n.leaves_sublist _)
    · have hqueue : (s.notify n).queue c = s.queue c := Function.update_of_ne hc _ _
      rw [hqueue]
      exact hq.nodup c
  · intro t op c timed hpc
    rcases hq.notify_pc n t with ⟨hw, op', timed', hold, hnew⟩ | ⟨hw, hsame⟩
    · rw [hnew] at hpc
      cases hpc
    · exact hq.asleep (hsame ▸ hpc)
  · intro t op notified timed hpc
    rcases hq.notify_pc n t with ⟨hw, op', timed', hold, hnew⟩ | ⟨hw, hsame⟩
    · rw [hnew] at hpc
      cases hpc
      rw [(hq.asleep hold).1]
      exact Option.some_ne_none _
    · exact hq.woken (hsame ▸ hpc)

theorem Queues.notify_waiter (hq : Queues s) (n : Notify) (t : τ) :
    ((s.notify n).pc t).waiter? = (s.pc t).waiter? := by
  rcases hq.notify_pc n t with ⟨hw, op, timed, hold, hnew⟩ | ⟨hw, hsame⟩
  · rw [hold, hnew]
    rfl
  · rw [hsame]

theorem Queues.notify_pending (hq : Queues s) (n : Notify) (t : τ) :
    ((s.notify n).pc t).pending = (s.pc t).pending := by
  rcases hq.notify_pc n t with ⟨hw, op, timed, hold, hnew⟩ | ⟨hw, hsame⟩
  · rw [hold, hnew]
    rfl
  · rw [hsame]

theorem Op.grants_of_cond {op : Op} {c : Cond} (hcond : op.cond = some c) (hc : c ≠ .upgrade) :
    op.grants = 0 := by
  cases op <;> cases hcond <;> first | rfl | exact absurd rfl hc

/-- Only a notification of `upgrade_cond` wakes a thread to which the lock is granted. -/
theorem Queues.notify_grants (hq : Queues s) {n : Notify} (hn : n.cond ≠ .upgrade) (t : τ) :
    ((s.notify n).pc t).grants = (s.pc t).grants := by
  rcases hq.notify_pc n t with ⟨hw, op, timed, hold, hnew⟩ | ⟨hw, hsame⟩
  · rw [hold, hnew]
    exact Op.grants_of_cond (hq.asleep hold).1 hn
  · rw [hsame]

theorem Queues.notify_failed (hq : Queues s) (n : Notify) (t : τ) (h : s.pc t ≠ .failed) :
    (s.notify n).pc t ≠ .failed := by
  rcases hq.notify_pc n t with ⟨hw, op, timed, hold, hnew⟩ | ⟨hw, hsame⟩
  · rw [hnew]
    exact fun h => by cases h
  · rw [hsame]
    exact h

variable [Fintype τ]

theorem Inv.notify (hinv : Inv s) {n : Notify} (hn : n.cond ≠ .upgrade) : Inv (s.notify n) := by
  have hq := hinv.queues
  have hqueue : (s.notify n).queue .upgrade = s.queue .upgrade := Function.update_of_ne hn.symm _ _
  refine ⟨hq.notify n, ?_, ?_, ?_, ?_, ?_, fun t => hq.notify_failed n t (hinv.passed t)⟩
  · have hsum : ∑ t, ((s.notify n).pc t).grants = ∑ t, (s.pc t).grants :=
      Finset.sum_congr rfl fun t _ => hq.notify_grants hn t
    rw [hsum]
    exact hinv.balanced
  · intro t op m hwaiter
    rw [hq.notify_waiter] at hwaiter
    exact hinv.source hwaiter
  · intro t n' hpending
    rw [hq.notify_pending] at hpending
    exact hinv.pending hpending
  · intro t hpending
    rw [hq.notify_pending] at hpending
    rw [hqueue]
    exact hinv.granting hpending
  · rw [hqueue]
    exact hinv.upgrading

theorem Inv.notifyAll (hinv : Inv s) {ns : List Notify} (hns : ∀ n ∈ ns, n.cond ≠ .upgrade) :
    Inv (ns.foldl State.notify s) := by
  induction ns generalizing s with
  | nil => exact hinv
  | cons n ns ih =>
    rw [List.forall_mem_cons] at hns
    exact ih (hinv.notify hns.1) hns.2

end

/-! ### Sections -/

section

variable {s : State τ} {t : τ} {op : Op} {r : Option CvStatus} {h : Holds} {l : Leaves}

/-- The thread begins the operation, or ends a wait of it. -/
def Enters (s : State τ) (t : τ) (op : Op) (r : Option CvStatus) : Prop :=
  (r = none ∧ s.pc t = .idle ∧ ∀ m, op.source = some m → 0 < (s.hold t).count m) ∨
    ∃ status notified timed, r = some status ∧ s.pc t = .woken op notified timed

omit [DecidableEq τ] in
theorem Enters.not_asleep (he : Enters s t op r) {op' : Op} {c : Cond} {timed : Bool} :
    s.pc t ≠ .asleep op' c timed := by
  rcases he with ⟨-, hpc, -⟩ | ⟨_, _, _, -, hpc⟩ <;> rw [hpc] <;> exact fun h => by cases h

omit [DecidableEq τ] in
theorem Enters.grants (he : Enters s t op r) :
    (s.pc t).grants = if r = none then 0 else op.grants := by
  rcases he with ⟨rfl, hpc, -⟩ | ⟨_, _, _, rfl, hpc⟩ <;> rw [hpc] <;> rfl

theorem leave_data (s : State τ) (t : τ) (op : Op) (h : Holds) (l : Leaves) :
    (s.leave t op h l).data = l.state := by
  rw [State.leave]
  split <;> rfl

theorem leave_hold (s : State τ) (t : τ) (op : Op) (h : Holds) (l : Leaves) :
    (s.leave t op h l).hold = Function.update s.hold t (l.holds op h) := by
  cases hnext : l.next <;> simp only [State.leave, Leaves.holds, hnext]

/-- Where the thread is after the section. -/
def Leaves.pc (l : Leaves) (op : Op) : PC :=
  match l.next with
  | .ret _ => PC.notifyNext l.after
  | .wait c timed => .asleep op c timed

theorem leave_pc (s : State τ) (t : τ) (op : Op) (h : Holds) (l : Leaves) :
    (s.leave t op h l).pc = Function.update s.pc t (l.pc op) := by
  cases hnext : l.next <;> simp only [State.leave, Leaves.pc, hnext]

theorem leave_pc_of_ne (s : State τ) (op : Op) (h : Holds) (l : Leaves) {t u : τ} (hu : u ≠ t) :
    (s.leave t op h l).pc u = s.pc u := by
  rw [leave_pc, Function.update_of_ne hu]

theorem leave_hold_of_ne (s : State τ) (op : Op) (h : Holds) (l : Leaves) {t u : τ} (hu : u ≠ t) :
    (s.leave t op h l).hold u = s.hold u := by
  rw [leave_hold, Function.update_of_ne hu]

theorem leave_queue (s : State τ) (t : τ) (op : Op) (h : Holds) (l : Leaves) (c : Cond) :
    (s.leave t op h l).queue c = s.queue c ∨
      ∃ timed, l.next = .wait c timed ∧ (s.leave t op h l).queue c = s.queue c ++ [t] := by
  rw [State.leave]
  split
  · exact .inl rfl
  · rename_i c' timed hnext
    by_cases hc : c = c'
    · subst hc
      exact .inr ⟨timed, hnext, Function.update_self ..⟩
    · exact .inl (Function.update_of_ne hc _ _)

theorem notifyNext_pending (ns : List Notify) : (PC.notifyNext ns).pending = ns := by
  cases ns <;> rfl

theorem notifyNext_grants (ns : List Notify) :
    (PC.notifyNext ns).grants = ns.count (.one .upgrade) := by
  cases ns <;> rfl

theorem notifyNext_waiter (ns : List Notify) : (PC.notifyNext ns).waiter? = none := by
  cases ns <;> rfl

theorem notifyNext_failed (ns : List Notify) : PC.notifyNext ns ≠ .failed := by
  cases ns <;> exact fun h => by cases h

theorem notifyNext_asleep (ns : List Notify) (op : Op) (c : Cond) (timed : Bool) :
    PC.notifyNext ns ≠ .asleep op c timed := by
  cases ns <;> exact fun h => by cases h

theorem notifyNext_woken (ns : List Notify) (op : Op) (notified timed : Bool) :
    PC.notifyNext ns ≠ .woken op notified timed := by
  cases ns <;> exact fun h => by cases h

theorem Leaves.pending_of_mem {n : Notify} (hn : n ∈ (l.pc op).pending) : n ∈ l.after := by
  rw [Leaves.pc] at hn
  split at hn
  · rwa [notifyNext_pending] at hn
  · cases hn

theorem Queues.leave (hq : Queues s) (he : Enters s t op r)
    (hwait : ∀ c timed, l.next = .wait c timed → op.cond = some c ∧ op.timed = timed) :
    Queues (s.leave t op h l) := by
  have hout : ∀ c, t ∉ s.queue c := by
    intro c ht
    obtain ⟨op', timed, hpc⟩ := (hq.queued c t).mp ht
    exact he.not_asleep hpc
  refine ⟨fun c u => ?_, fun c => ?_, ?_, ?_⟩
  · rw [leave_pc]
    by_cases hu : u = t
    · subst hu
      rw [Function.update_self]
      cases hnext : l.next with
      | ret b =>
        simp only [State.leave, Leaves.pc, hnext]
        refine iff_of_false (hout c) ?_
        rintro ⟨op', timed, hpc⟩
        exact notifyNext_asleep _ _ _ _ hpc
      | wait c' timed =>
        simp only [State.leave, Leaves.pc, hnext]
        by_cases hc : c = c'
        · subst hc
          simp only [Function.update_self]
          exact iff_of_true (List.mem_append_right _ (List.mem_singleton.mpr rfl)) ⟨op, timed, rfl⟩
        · simp only [Function.update_of_ne hc]
          refine iff_of_false (hout c) ?_
          rintro ⟨op', timed', hpc⟩
          cases hpc
          exact hc rfl
    · rw [Function.update_of_ne hu, ← hq.queued]
      rcases leave_queue s t op h l c with hsame | ⟨timed, -, hqueue⟩
      · rw [hsame]
      · rw [hqueue, List.mem_append, List.mem_singleton]
        exact ⟨fun h => h.resolve_right hu, .inl⟩
  · rcases leave_queue s t op h l c with hsame | ⟨timed, -, hqueue⟩
    · rw [hsame]
      exact hq.nodup c
    · rw [hqueue, ← List.concat_eq_append]
      exact (hq.nodup c).concat (hout c)
  · intro u op' c timed hpc
    rw [leave_pc] at hpc
    by_cases hu : u = t
    · subst hu
      rw [Function.update_self, Leaves.pc] at hpc
      split at hpc
      · exact absurd hpc (notifyNext_asleep _ _ _ _)
      · rename_i c' timed' hnext
        cases hpc
        exact hwait _ _ hnext
    · rw [Function.update_of_ne hu] at hpc
      exact hq.asleep hpc
  · intro u op' notified timed hpc
    rw [leave_pc] at hpc
    by_cases hu : u = t
    · subst hu
      rw [Function.update_self, Leaves.pc] at hpc
      split at hpc
      · exact absurd hpc (notifyNext_woken _ _ _ _)
      · cases hpc
    · rw [Function.update_of_ne hu] at hpc
      exact hq.woken hpc

variable [Fintype τ]

theorem Inv.before (hinv : Inv s) (he : Enters s t op r)
    (hroom : op.counts = true → s.held .shared + s.held .upgrade + 1 < UInt32.size) :
    ∃ rs ru rx rk, Before op r s.data (s.hold t) rs ru rx rk ∧
      ∀ s' : State τ, (∀ v, v ≠ t → s'.hold v = s.hold v) → (∀ v, v ≠ t → s'.pc v = s.pc v) →
        s'.held .shared = rs + (s'.hold t).shared ∧ s'.held .upgrade = ru + (s'.hold t).upgrade ∧
          s'.held .exclusive = rx + (s'.hold t).exclusive ∧ ∑ v,
          (s'.pc v).grants = rk + (s'.pc t).grants := by
  obtain ⟨rs, hrs⟩ := Counting.exists_rest (fun v => (s.hold v).count .shared) t
  obtain ⟨ru, hru⟩ := Counting.exists_rest (fun v => (s.hold v).count .upgrade) t
  obtain ⟨rx, hrx⟩ := Counting.exists_rest (fun v => (s.hold v).count .exclusive) t
  obtain ⟨rk, hrk⟩ := Counting.exists_rest (fun v => (s.pc v).grants) t
  have hrest : ∀ s' : State τ, (∀ v, v ≠ t → s'.hold v = s.hold v) →
    (∀ v, v ≠ t → s'.pc v = s.pc v) →
      s'.held .shared = rs + (s'.hold t).shared ∧ s'.held .upgrade = ru + (s'.hold t).upgrade ∧
        s'.held .exclusive = rx + (s'.hold t).exclusive ∧ ∑ v,
        (s'.pc v).grants = rk + (s'.pc t).grants := by
    intro s' hhold hpc
    refine ⟨hrs _ fun v hv => ?_, hru _ fun v hv => ?_, hrx _ fun v hv => ?_, hrk _ fun v hv => ?_⟩
    · rw [hhold v hv]
    · rw [hhold v hv]
    · rw [hhold v hv]
    · rw [hpc v hv]
  obtain ⟨hs, hu, hx, hk⟩ := hrest s (fun _ _ => rfl) fun _ _ => rfl
  refine ⟨rs, ru, rx, rk, ⟨?_, ?_, ?_, ?_⟩, hrest⟩
  · have hbal := hinv.balanced
    rwa [hs, hu, hx, hk, he.grants] at hbal
  · intro hfirst m hsource
    rcases he with ⟨-, -, hholds⟩ | ⟨status, notified, timed, rfl, hpc⟩
    · exact hholds m hsource
    · exact hinv.source (by rw [hpc]; rfl) (hfirst.resolve_left (Option.some_ne_none _)) hsource
  · intro hr
    rcases he with ⟨rfl, -⟩ | ⟨status, notified, timed, -, hpc⟩
    · exact absurd rfl hr
    · exact hinv.queues.woken hpc
  · intro hcounts
    have h := hroom hcounts
    rwa [hs, hu] at h

theorem Inv.leave (hinv : Inv s) (he : Enters s t op r) {rs ru rx rk : Nat}
    (hb : Before op r s.data (s.hold t) rs ru rx rk)
    (hk : Keeps op r s.data (s.hold t) rs ru rx rk l)
    (hrest : ∀ s' : State τ, (∀ v, v ≠ t → s'.hold v = s.hold v) → (∀ v, v ≠ t → s'.pc v = s.pc v) →
      s'.held .shared = rs + (s'.hold t).shared ∧ s'.held .upgrade = ru + (s'.hold t).upgrade ∧
        s'.held .exclusive = rx + (s'.hold t).exclusive ∧ ∑ v,
        (s'.pc v).grants = rk + (s'.pc t).grants) :
    Inv (s.leave t op (op.locks r (s.hold t)) l) := by
  have hq := hinv.queues
  obtain ⟨hshared, hupgrade, hexclusive, hgrants⟩ := hrest (s.leave t op (op.locks r (s.hold t)) l)
    (fun v hv => leave_hold_of_ne s op _ l hv) (fun v hv => leave_pc_of_ne s op _ l hv)
  obtain ⟨-, hupgrade₀, -, -⟩ := hrest s (fun _ _ => rfl) fun _ _ => rfl
  have hself : (s.leave t op (op.locks r (s.hold t)) l).hold t =
    l.holds op (op.locks r (s.hold t)) := by
    rw [leave_hold, Function.update_self]
  have hpc : (s.leave t op (op.locks r (s.hold t)) l).pc t = l.pc op := by
    rw [leave_pc, Function.update_self]
  have hafter : (l.pc op).grants = l.after.count (.one .upgrade) := by
    rw [Leaves.pc]
    split
    · exact notifyNext_grants _
    · rename_i c timed hnext
      rw [(hk.wait c timed hnext).2.2.2]
      rfl
  have hgrows : s.queue .upgrade ≠ [] →
    (s.leave t op (op.locks r (s.hold t)) l).queue .upgrade ≠ [] := by
    intro hne
    rcases leave_queue s t op (op.locks r (s.hold t)) l .upgrade with hsame | ⟨timed, -, hqueue⟩
    · rwa [hsame]
    · rw [hqueue]
      exact List.append_ne_nil_of_right_ne_nil _ (List.cons_ne_nil _ _)
  refine ⟨hq.leave he fun c timed hnext => ⟨(hk.wait c timed hnext).1, (hk.wait c timed hnext).2.1⟩,
    ?_, ?_, ?_, ?_, ?_, ?_⟩
  · rw [hshared, hupgrade, hexclusive, hgrants, hself, hpc, hafter, leave_data]
    exact hk.balanced
  · intro u op' m hwaiter htries hsource
    by_cases hu : u = t
    · subst hu
      rw [hpc, Leaves.pc] at hwaiter
      split at hwaiter
      · rw [notifyNext_waiter] at hwaiter
        cases hwaiter
      · rename_i c timed hnext
        cases hwaiter
        rw [hself, Leaves.holds, hnext, Op.locks_of_tries htries]
        exact hb.source (.inr htries) m hsource
    · rw [leave_pc_of_ne s op _ l hu] at hwaiter
      rw [leave_hold_of_ne s op _ l hu]
      exact hinv.source hwaiter htries hsource
  · intro u n hpending
    by_cases hu : u = t
    · subst hu
      rw [hpc] at hpending
      exact hk.after n (Leaves.pending_of_mem hpending)
    · rw [leave_pc_of_ne s op _ l hu] at hpending
      exact hinv.pending hpending
  · intro u hpending
    apply hgrows
    by_cases hu : u = t
    · subst hu
      rw [hpc] at hpending
      have hpending := Leaves.pending_of_mem hpending
      obtain ⟨hflag, hzero⟩ := hk.granting hpending
      rcases hinv.upgrading hflag with hpos | hne
      · omega
      · exact hne
    · rw [leave_pc_of_ne s op _ l hu] at hpending
      exact hinv.granting hpending
  · intro hflag
    rw [leave_data] at hflag
    rw [hupgrade, hself]
    rcases hk.upgrading hflag with hpos | ⟨-, hnext⟩ | ⟨hold, hzero⟩
    · exact .inl hpos
    · right
      rw [State.leave, hnext]
      simp
    · right
      apply hgrows
      rcases hinv.upgrading hold with hpos | hne
      · omega
      · exact hne
  · intro u
    by_cases hu : u = t
    · subst hu
      rw [hpc, Leaves.pc]
      split
      · exact notifyNext_failed _
      · exact fun h => by cases h
    · rw [leave_pc_of_ne s op _ l hu]
      exact hinv.passed u

theorem Inv.finish (hinv : Inv s) (he : Enters s t op r)
    (hroom : op.counts = true → s.held .shared + s.held .upgrade + 1 < UInt32.size) :
    Inv (s.finish t op (op.locks r (s.hold t)) (op.run r s.data)) := by
  obtain ⟨rs, ru, rx, rk, hb, hrest⟩ := hinv.before he hroom
  obtain ⟨l, hrun, hk⟩ := hb.kept
  rw [hrun]
  exact (hinv.leave he hb hk hrest).notifyAll hk.notify

end

/-! ### Steps -/

/-- What a step is. -/
inductive Move (s : State τ) (l : Label τ) : State τ → Prop
  | runs {t : τ} {op : Op} {r : Option CvStatus} (hl : l.section? s = some (t, op, r))
      (he : Enters s t op r) :
    Move s l (s.finish t op (op.locks r (s.hold t)) (op.run r s.data))
  | expires {t : τ} {op : Op} {c : Cond} (hpc : s.pc t = .asleep op c true) :
    Move s l ((s.setQueue c ((s.queue c).erase t)).setPc t (.woken op false true))
  | notifies {t : τ} {n : Notify} {ns : List Notify} (hl : l = .notify t)
      (hpc : s.pc t = .notifying n ns) :
    Move s l ((s.setPc t (PC.notifyNext ns)).notify n)

theorem step_move {s s' : State τ} {l : Label τ} (hstep : step s l = some s') : Move s l s' := by
  cases l with
  | call t op =>
    simp only [step] at hstep
    split at hstep
    · rename_i hpc
      rw [Option.ite_none_right_eq_some, Option.some.injEq] at hstep
      obtain ⟨hsource, rfl⟩ := hstep
      exact .runs rfl (.inl ⟨rfl, hpc, hsource⟩)
    · cases hstep
  | resume t status =>
    simp only [step] at hstep
    split at hstep
    · rename_i op notified timed hpc
      rw [Option.ite_none_right_eq_some, Option.some.injEq] at hstep
      obtain ⟨-, rfl⟩ := hstep
      exact .runs (by simp only [Label.section?, hpc]) (.inr ⟨status, notified, timed, rfl, hpc⟩)
    · cases hstep
  | expire t =>
    simp only [step] at hstep
    split at hstep
    · rename_i op c hpc
      cases hstep
      exact .expires hpc
    · cases hstep
  | notify t =>
    simp only [step] at hstep
    split at hstep
    · rename_i n ns hpc
      cases hstep
      exact .notifies rfl hpc
    · cases hstep

section

variable {s s' : State τ} {t : τ} {l : Label τ}

theorem Queues.expire (hq : Queues s) {op : Op} {c : Cond} (hpc : s.pc t = .asleep op c true) :
    Queues ((s.setQueue c ((s.queue c).erase t)).setPc t (.woken op false true)) := by
  refine ⟨fun c' u => ?_, fun c' => ?_, ?_, ?_⟩
  · by_cases hu : u = t
    · subst hu
      have hnew : ((s.setQueue c ((s.queue c).erase u)).setPc u (.woken op false true)).pc u =
        .woken op false true :=
        Function.update_self ..
      rw [hnew]
      refine iff_of_false ?_ ?_
      · show u ∉ Function.update s.queue c ((s.queue c).erase u) c'
        by_cases hc : c' = c
        · subst hc
          rw [Function.update_self]
          exact (hq.nodup c').not_mem_erase
        · rw [Function.update_of_ne hc, hq.queued]
          rintro ⟨op', timed, hpc'⟩
          rw [hpc] at hpc'
          cases hpc'
          exact hc rfl
      · rintro ⟨op', timed, hpc'⟩
        cases hpc'
    · have hsame : ((s.setQueue c ((s.queue c).erase t)).setPc t (.woken op false true)).pc u =
        s.pc u :=
        Function.update_of_ne hu _ _
      rw [hsame, ← hq.queued]
      show u ∈ Function.update s.queue c ((s.queue c).erase t) c' ↔ _
      by_cases hc : c' = c
      · subst hc
        rw [Function.update_self, List.mem_erase_of_ne hu]
      · rw [Function.update_of_ne hc]
  · show (Function.update s.queue c ((s.queue c).erase t) c').Nodup
    by_cases hc : c' = c
    · subst hc
      rw [Function.update_self]
      exact (hq.nodup c').erase t
    · rw [Function.update_of_ne hc]
      exact hq.nodup c'
  · intro u op' c' timed hpc'
    have hpc' : Function.update s.pc t (.woken op false true) u = .asleep op' c' timed := hpc'
    by_cases hu : u = t
    · subst hu
      rw [Function.update_self] at hpc'
      cases hpc'
    · rw [Function.update_of_ne hu] at hpc'
      exact hq.asleep hpc'
  · intro u op' notified timed hpc'
    have hpc' : Function.update s.pc t (.woken op false true) u = .woken op' notified timed := hpc'
    by_cases hu : u = t
    · subst hu
      rw [Function.update_self] at hpc'
      cases hpc'
      rw [(hq.asleep hpc).1]
      exact Option.some_ne_none _
    · rw [Function.update_of_ne hu] at hpc'
      exact hq.woken hpc'

theorem Queues.setPc (hq : Queues s) {n : Notify} {ns : List Notify}
    (hpc : s.pc t = .notifying n ns) :
    Queues (s.setPc t (PC.notifyNext ns)) := by
  have hother : ∀ {u}, u ≠ t → (s.setPc t (PC.notifyNext ns)).pc u = s.pc u :=
    fun hu => Function.update_of_ne hu _ _
  have hself : (s.setPc t (PC.notifyNext ns)).pc t = PC.notifyNext ns := Function.update_self ..
  refine ⟨fun c u => ?_, hq.nodup, ?_, ?_⟩
  · show u ∈ s.queue c ↔ _
    rw [hq.queued]
    by_cases hu : u = t
    · subst hu
      rw [hself, hpc]
      refine iff_of_false ?_ ?_
      · rintro ⟨op, timed, h⟩
        cases h
      · rintro ⟨op, timed, h⟩
        exact notifyNext_asleep _ _ _ _ h
    · rw [hother hu]
  · intro u op c timed h
    by_cases hu : u = t
    · subst hu
      rw [hself] at h
      exact absurd h (notifyNext_asleep _ _ _ _)
    · rw [hother hu] at h
      exact hq.asleep h
  · intro u op notified timed h
    by_cases hu : u = t
    · subst hu
      rw [hself] at h
      exact absurd h (notifyNext_woken _ _ _ _)
    · rw [hother hu] at h
      exact hq.woken h

theorem cond_of_timed {op : Op} {c : Cond} (hcond : op.cond = some c) (htimed : op.timed = true) :
    c ≠ .upgrade := by
  rintro rfl
  cases op <;> cases hcond
  cases htimed

variable [Fintype τ]

theorem Inv.expire (hinv : Inv s) {op : Op} {c : Cond} (hpc : s.pc t = .asleep op c true) :
    Inv ((s.setQueue c ((s.queue c).erase t)).setPc t (.woken op false true)) := by
  obtain ⟨hcond, htimed⟩ := hinv.queues.asleep hpc
  have hne := cond_of_timed hcond htimed
  have hother : ∀ {u}, u ≠ t →
    ((s.setQueue c ((s.queue c).erase t)).setPc t (.woken op false true)).pc u = s.pc u :=
    fun hu => Function.update_of_ne hu _ _
  have hself : ((s.setQueue c ((s.queue c).erase t)).setPc t (.woken op false true)).pc t =
    .woken op false true :=
    Function.update_self ..
  have hqueue : ((s.setQueue c ((s.queue c).erase t)).setPc t (.woken op false true)).queue
    .upgrade =
      s.queue .upgrade := Function.update_of_ne hne.symm _ _
  have hpending :
    ∀ u, (((s.setQueue c ((s.queue c).erase t)).setPc t (.woken op false true)).pc u).pending =
      (s.pc u).pending := by
    intro u
    by_cases hu : u = t
    · subst hu
      rw [hself, hpc]
      rfl
    · rw [hother hu]
  refine ⟨hinv.queues.expire hpc, ?_, ?_, ?_, ?_, ?_, ?_⟩
  · have hsum : ∑ u,
      (((s.setQueue c ((s.queue c).erase t)).setPc t (.woken op false true)).pc u).grants =
        ∑ u, (s.pc u).grants := by
      refine Finset.sum_congr rfl fun u _ => ?_
      by_cases hu : u = t
      · subst hu
        rw [hself, hpc]
        exact Op.grants_of_cond hcond hne
      · rw [hother hu]
    rw [hsum]
    exact hinv.balanced
  · intro u op' m hwaiter
    by_cases hu : u = t
    · subst hu
      rw [hself] at hwaiter
      exact hinv.source (by rw [hpc]; exact hwaiter)
    · rw [hother hu] at hwaiter
      exact hinv.source hwaiter
  · intro u n h
    rw [hpending] at h
    exact hinv.pending h
  · intro u h
    rw [hpending] at h
    rw [hqueue]
    exact hinv.granting h
  · rw [hqueue]
    exact hinv.upgrading
  · intro u
    by_cases hu : u = t
    · subst hu
      rw [hself]
      exact fun h => by cases h
    · rw [hother hu]
      exact hinv.passed u

section

omit [Fintype τ]

@[simp] theorem setPc_pc_self (s : State τ) (t : τ) (p : PC) :
    (s.setPc t p).pc t = p := Function.update_self ..

theorem setPc_pc_of_ne (s : State τ) (p : PC) {t u : τ} (hu : u ≠ t) :
    (s.setPc t p).pc u = s.pc u :=
  Function.update_of_ne hu _ _

theorem pending_of_setPc {n n' : Notify} {ns : List Notify} {u : τ} (hpc : s.pc t = .notifying n ns)
    (h : n' ∈ ((s.setPc t (PC.notifyNext ns)).pc u).pending) : n' ∈ (s.pc u).pending := by
  by_cases hu : u = t
  · subst hu
    rw [setPc_pc_self, notifyNext_pending] at h
    rw [hpc]
    exact List.mem_cons_of_mem _ h
  · rwa [setPc_pc_of_ne s _ hu] at h

theorem waiter_of_setPc {ns : List Notify} {u : τ} {op : Op}
    (h : ((s.setPc t (PC.notifyNext ns)).pc u).waiter? = some op) : (s.pc u).waiter? = some op := by
  by_cases hu : u = t
  · subst hu
    rw [setPc_pc_self, notifyNext_waiter] at h
    cases h
  · rwa [setPc_pc_of_ne s _ hu] at h

theorem passed_setPc {ns : List Notify} (h : ∀ u, s.pc u ≠ .failed) (u : τ) :
    (s.setPc t (PC.notifyNext ns)).pc u ≠ .failed := by
  by_cases hu : u = t
  · subst hu
    rw [setPc_pc_self]
    exact notifyNext_failed _
  · rw [setPc_pc_of_ne s _ hu]
    exact h u

end

theorem grants_setPc {n : Notify} {ns : List Notify} (hpc : s.pc t = .notifying n ns) :
    ∑ u, ((s.setPc t (PC.notifyNext ns)).pc u).grants + (n :: ns).count (.one .upgrade) =
      ∑ u, (s.pc u).grants + ns.count (.one .upgrade) := by
  have h := Counting.total_change (f := fun u => (s.pc u).grants)
    (g := fun u => ((s.setPc t (PC.notifyNext ns)).pc u).grants) (i := t) fun u hu => by
      rw [setPc_pc_of_ne s _ hu]
  simp only [setPc_pc_self, notifyNext_grants, hpc] at h
  exact h

/-- A thread has given a notification that does not grant the lock. -/
theorem Inv.setPc (hinv : Inv s) {n : Notify} {ns : List Notify} (hpc : s.pc t = .notifying n ns)
    (hn : n ≠ .one .upgrade) : Inv (s.setPc t (PC.notifyNext ns)) := by
  refine ⟨hinv.queues.setPc hpc, ?_, fun h => hinv.source (waiter_of_setPc h),
    fun h => hinv.pending (pending_of_setPc hpc h), fun h => hinv.granting (pending_of_setPc hpc h),
      hinv.upgrading,
    passed_setPc hinv.passed⟩
  have hsum := grants_setPc hpc
  rw [List.count_cons_of_ne hn] at hsum
  rw [Nat.add_right_cancel hsum]
  exact hinv.balanced

theorem op_of_upgrade {op : Op} (hcond : op.cond = some .upgrade) : op = .unlockUpgradeAndLock := by
  cases op <;> cases hcond
  rfl

theorem pos_of_pending {p : PC} (h : .one .upgrade ∈ p.pending) : 0 < p.grants := by
  cases p with
  | notifying n ns => exact List.count_pos_iff.mpr h
  | idle => cases h
  | asleep op c timed => cases h
  | woken op notified timed => cases h
  | failed => cases h

/-- The longest waiting upgrader is woken, and the lock is granted to it from then on. -/
theorem Inv.of_grant (hq : Queues s)
    (hbal : Balanced s.data (s.held .shared) (s.held .upgrade) (s.held .exclusive)
      (∑ t, (s.pc t).grants + 1))
    (hsource : ∀ {t op m}, (s.pc t).waiter? = some op → op.tries = true → op.source = some m →
      0 < (s.hold t).count m)
    (hpending : ∀ {t n}, n ∈ (s.pc t).pending → n = .one .upgrade ∨ n.cond ≠ .upgrade)
    (hpassed : ∀ t, s.pc t ≠ .failed) (hne : s.queue .upgrade ≠ []) :
    Inv (s.notify (.one .upgrade)) := by
  obtain ⟨w, q, hqueue⟩ := List.exists_cons_of_ne_nil hne
  obtain ⟨op, timed, hw⟩ := (hq.queued .upgrade w).mp (hqueue ▸ List.mem_cons_self)
  obtain rfl := op_of_upgrade (hq.asleep hw).1
  have hpc : (s.notify (.one .upgrade)).pc =
    Function.update s.pc w (.woken .unlockUpgradeAndLock true timed) := by
    funext u
    show (if u ∈ (s.queue .upgrade).take 1 then _ else _) = _
    rw [hqueue]
    by_cases hu : u = w
    · subst hu
      rw [if_pos (by simp), hw, Function.update_self]
      rfl
    · rw [if_neg (by simpa using hu), Function.update_of_ne hu]
  have hsum : ∑ u, ((s.notify (.one .upgrade)).pc u).grants = ∑ u, (s.pc u).grants + 1 := by
    have h := Counting.total_change (f := fun u => (s.pc u).grants)
      (g := fun u => ((s.notify (.one .upgrade)).pc u).grants) (i := w) fun u hu => by
        rw [hpc, Function.update_of_ne hu]
    simp only [hpc, Function.update_self, hw] at h ⊢
    exact h
  obtain ⟨hone, -, -, -, hflag, -⟩ := hbal.of_exclusive (by omega)
  -- nothing else is granted
  have hnone : ∀ {u}, .one .upgrade ∉ ((s.notify (.one .upgrade)).pc u).pending := by
    intro u hu
    rw [hq.notify_pending] at hu
    have hle := Counting.le_total (fun v => (s.pc v).grants) u
    have hpos := pos_of_pending hu
    omega
  refine ⟨hq.notify _, ?_, ?_, ?_, fun h => absurd h hnone, fun h => ?_,
    fun u => hq.notify_failed _ u (hpassed u)⟩
  · rw [hsum]
    exact hbal
  · intro u op m hwaiter
    rw [hq.notify_waiter] at hwaiter
    exact hsource hwaiter
  · intro u n h
    rw [hq.notify_pending] at h
    exact hpending h
  · cases hflag.symm.trans h

theorem Inv.passGrant (hinv : Inv s) {ns : List Notify}
    (hpc : s.pc t = .notifying (.one .upgrade) ns) :
    Inv ((s.setPc t (PC.notifyNext ns)).notify (.one .upgrade)) := by
  refine Inv.of_grant (hinv.queues.setPc hpc) ?_ (fun h => hinv.source (waiter_of_setPc h))
    (fun h => hinv.pending (pending_of_setPc hpc h)) (passed_setPc hinv.passed)
      (hinv.granting (t := t) ?_)
  · have hsum := grants_setPc hpc
    rw [List.count_cons_self] at hsum
    have hbal := hinv.balanced
    rwa [show ∑ u, (s.pc u).grants = ∑ u, ((s.setPc t (PC.notifyNext ns)).pc u).grants + 1 by omega]
      at hbal
  · rw [hpc]
    exact List.mem_cons_self

theorem Inv.move (hinv : Inv s) (hfits : fits s l) (hmove : Move s l s') : Inv s' := by
  cases hmove with
  | runs hl he => exact hinv.finish he (hfits _ _ _ hl)
  | expires hpc => exact hinv.expire hpc
  | @notifies t n ns _ hpc =>
    by_cases hn : n = .one .upgrade
    · subst hn
      exact hinv.passGrant hpc
    · refine (hinv.setPc hpc hn).notify ((hinv.pending (t := t) ?_).resolve_left hn)
      rw [hpc]
      exact List.mem_cons_self

omit [DecidableEq τ] in
theorem inv_initial : Inv (State.initial : State τ) := by
  have hzero : ∀ m, (State.initial : State τ).held m = 0 := by
    intro m
    apply Finset.sum_eq_zero
    intro t _
    cases m <;> rfl
  refine ⟨⟨fun c t => ?_, fun _ => List.nodup_nil, fun h => (by cases h), fun h => (by cases h)⟩,
    ?_,
    fun h => (by cases h), fun h => (by cases h), fun h => (by cases h), fun h => (by cases h),
    fun _ h => (by cases h)⟩
  · refine iff_of_false List.not_mem_nil ?_
    rintro ⟨op, timed, h⟩
    cases h
  · rw [hzero, hzero, hzero, show ∑ t,
      ((State.initial : State τ).pc t).grants = 0 from Finset.sum_eq_zero fun _ _ => rfl]
    exact ⟨rfl, rfl, Nat.le_refl 0, fun h => (by cases h), fun h => (by cases h)⟩

theorem reach_inv (hreach : system.Reach fits s) : Inv s := by
  refine hreach.invariant ?_ ?_
  · rintro s rfl
    exact inv_initial
  · exact fun s l s' _ hinv hfits hstep => hinv.move hfits (step_move hstep)

/-- While `shared_count` does not wrap: an exclusive holder excludes every other holder, one thread
at most holds upgrade ownership, `shared_count` counts the shared and upgrade holders, and no
`assert_*` check fails. -/
theorem exclusion (hreach : system.Reach fits s) :
    s.Excludes ∧ s.OneUpgrader ∧
      s.data.sharedCount.toNat = ∑ t, ((s.hold t).shared + (s.hold t).upgrade) ∧
      ∀ t, s.pc t ≠ .failed := by
  have hinv := reach_inv hreach
  have hbal := hinv.balanced
  refine ⟨fun t ht => ?_, fun t ht => ?_, ?_, hinv.passed⟩
  · have hx : (s.hold t).exclusive ≤ s.held .exclusive :=
      Counting.le_total (fun u => (s.hold u).exclusive) t
    obtain ⟨hone, hs, hu, -⟩ := hbal.of_exclusive (by omega)
    have hzero : ∀ u, (s.hold u).shared = 0 ∧ (s.hold u).upgrade = 0 := by
      intro u
      have hs' : (s.hold u).shared ≤ s.held .shared :=
        Counting.le_total (fun u => (s.hold u).shared) u
      have hu' : (s.hold u).upgrade ≤ s.held .upgrade :=
        Counting.le_total (fun u => (s.hold u).upgrade) u
      omega
    refine ⟨Holds.ext (hzero t).1 (hzero t).2 (by simp only; omega),
      fun u hut => Holds.ext (hzero u).1 (hzero u).2 ?_⟩
    have htwo := Counting.add_le_total (fun v => (s.hold v).exclusive) hut
    have heq : ∑ v, (s.hold v).exclusive = s.held .exclusive := rfl
    show (s.hold u).exclusive = 0
    omega
  · have hle := hbal.le_one
    have hu : (s.hold t).upgrade ≤ s.held .upgrade :=
      Counting.le_total (fun u => (s.hold u).upgrade) t
    refine ⟨by omega, fun u hut => ?_⟩
    have htwo := Counting.add_le_total (fun v => (s.hold v).upgrade) hut
    have heq : ∑ v, (s.hold v).upgrade = s.held .upgrade := rfl
    omega
  · rw [hbal.counted, Finset.sum_add_distrib]
    rfl

/-- A check of one step that is enough for `fits`. -/
def fewHeld (s : State τ) (_ : Label τ) : Bool := s.held .shared + s.held .upgrade + 1 < UInt32.size

omit [DecidableEq τ] in
theorem fits_of_fewHeld (h : fewHeld s l = true) : fits s l :=
  fun _ _ _ _ _ => of_decide_eq_true h

end

/-- Thread 0 waits to turn its upgrade lock into an exclusive one, and the last reader grants it. -/
theorem exclusion_granted : ∃ s : State (Fin 2),
    (s.hold 0).exclusive = 1 ∧ s.Excludes ∧ s.OneUpgrader ∧
    s.data.sharedCount.toNat = ∑ t, ((s.hold t).shared + (s.hold t).upgrade) ∧
    ∀ t, s.pc t ≠ .failed := by
  let labels : List (Label (Fin 2)) :=
    [.call 0 .lockUpgrade, .call 1 .lockShared, .call 0 .unlockUpgradeAndLock,
      .call 1 .unlockShared, .notify 1, .resume 0 .noTimeout]
  have hreach := system.reach_of_run fewHeld .initial rfl labels rfl
  exact ⟨_, rfl, exclusion (hreach.mono fun _ _ => fits_of_fewHeld)⟩

/-! ### The count wraps -/

section

variable {N : Nat} {s : State (Fin N)}

/-- Any number of idle threads take a shared lock one after the other, and `shared_count` is the
number of them modulo 2^32. -/
theorem reach_readers (hreach : system.Reachable s) {a : Nat} (n : Nat) (hn : a + n ≤ N)
    (hidle : ∀ t : Fin N, a ≤ t → s.pc t = .idle ∧ s.hold t = .none) (hcan : s.data.canLockShared) :
    ∃ s', system.Reachable s' ∧ s'.data =
    { s.data with sharedCount := s.data.sharedCount + UInt32.ofNat n } ∧
      s'.queue = s.queue ∧ s'.pc = s.pc ∧
      ∀ t : Fin N, s'.hold t = if a ≤ t ∧ t < a + n then ⟨1, 0, 0⟩ else s.hold t := by
  induction n with
  | zero =>
    refine ⟨s, hreach, ?_, rfl, rfl, fun t => ?_⟩
    · simp
    · rw [if_neg (by omega)]
  | succ n ih =>
    obtain ⟨s', hreach', hdata, hqueue, hpc, hhold⟩ := ih (by omega)
    let t : Fin N := ⟨a + n, by omega⟩
    obtain ⟨hidlet, hnone⟩ := hidle t (Nat.le_add_right a n)
    have hholdt : s'.hold t = .none := by
      rw [hhold, if_neg (fun h => Nat.lt_irrefl _ h.2), hnone]
    have hrun : lockShared s'.data = returns s'.data.lockShared true := by
      rw [lockShared, if_pos]
      rw [hdata]
      exact hcan
    have hstep : system.step s' (.call t .lockShared) =
        some (s'.finish t .lockShared (s'.hold t) (returns s'.data.lockShared true)) := by
      show step s' (.call t .lockShared) = _
      rw [step, hpc, hidlet, ← hrun]
      exact if_pos fun m hm => by cases hm
    refine ⟨_, hreach'.step trivial hstep, ?_, hqueue, ?_, fun u => ?_⟩
    · show s'.data.lockShared = _
      rw [StateData.lockShared, hdata]
      simp only [StateData.mk.injEq, and_self, and_true]
      rw [UInt32.add_assoc, UInt32.ofNat_add]
      rfl
    · show Function.update s'.pc t .idle = s.pc
      rw [hpc, ← hidlet, Function.update_eq_self]
    · show Function.update s'.hold t _ u = _
      by_cases hu : u = t
      · subst hu
        rw [Function.update_self, hholdt, if_pos ⟨Nat.le_add_right a n, Nat.lt_succ_self _⟩]
        rfl
      · have hval : u.val ≠ a + n := fun h => hu (Fin.ext h)
        rw [Function.update_of_ne hu, hhold]
        by_cases hin : a ≤ u.val ∧ u.val < a + n
        · rw [if_pos hin, if_pos ⟨hin.1, by omega⟩]
        · rw [if_neg hin, if_neg (by omega)]

end

/-- With 2^32 readers `shared_count` is 0 again, and another thread locks exclusively beside
them. -/
theorem count_wraps : ∃ s : State (Fin (2 ^ 32 + 1)), system.Reachable s ∧ s.data.sharedCount = 0 ∧
    (∀ t : Fin (2 ^ 32 + 1), t.val < 2 ^ 32 → s.hold t = ⟨1, 0, 0⟩) ∧
    s.hold (Fin.last _) = ⟨0, 0, 1⟩ ∧ ¬ s.Excludes := by
  obtain ⟨s, hreach, hdata, -, hpc, hhold⟩ :=
    reach_readers (N := 2 ^ 32 + 1) (s := .initial) (.init rfl) (a := 0)
    (2 ^ 32) (by omega) (fun _ _ => ⟨rfl, rfl⟩) ⟨rfl, rfl⟩
  have hzero : s.data = .start := hdata
  have hlast : s.hold (Fin.last _) = .none := by
    rw [hhold, if_neg (fun h => by
      have hlt := h.2
      rw [Fin.val_last] at hlt
      omega)]
    rfl
  have hstep : system.step s (.call (Fin.last _) .tryLock) =
      some (s.finish (Fin.last _) .tryLock .none (returns ⟨0, true, false, false⟩ true)) := by
    show step s (.call (Fin.last _) .tryLock) = _
    rw [step, hpc, hzero, hlast]
    rfl
  have hreader : ∀ t : Fin (2 ^ 32 + 1), t.val < 2 ^ 32 →
      (s.finish (Fin.last _) .tryLock .none (returns ⟨0, true, false, false⟩ true)).hold t =
      ⟨1, 0, 0⟩ := by
    intro t ht
    have hne : t ≠ Fin.last _ := fun h => by
      rw [h, Fin.val_last] at ht
      omega
    show Function.update s.hold (Fin.last _) _ t = _
    rw [Function.update_of_ne hne, hhold, if_pos ⟨Nat.zero_le _, by omega⟩]
  have hwriter : (s.finish (Fin.last _) .tryLock .none (returns ⟨0, true, false, false⟩ true)).hold
    (Fin.last _) =
      ⟨0, 0, 1⟩ := by
    show Function.update s.hold (Fin.last _) _ (Fin.last _) = _
    rw [Function.update_self]
    rfl
  refine ⟨_, hreach.step trivial hstep, rfl, hreader, hwriter, fun hexcl => ?_⟩
  have hnone := (hexcl (Fin.last _) (by rw [hwriter]; exact Nat.one_pos)).2 0 (by
    intro h
    have hval := congrArg Fin.val h
    rw [Fin.val_last] at hval
    cases hval)
  rw [hreader 0 (by decide)] at hnone
  cases hnone

end SharedMutex

end GreenThread
