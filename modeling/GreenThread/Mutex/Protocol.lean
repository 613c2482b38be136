import GreenThread.Machine.Discipline

/-!
# The mutex protocol

Any number of green threads that lock, try to lock and unlock one mutex in any order. A caller
remembers how many of its locks have not been unlocked; a ledger watches the run and lists the
threads that were queued by a contended `lock`, those the mutex was handed to, and those that
returned from the pause.
-/

namespace GreenThread

namespace MutexProtocol

inductive Op
  | lock
  | tryLock
  | unlock
  deriving DecidableEq, Repr

/-- A thread's position: the operation it calls or is in, its successful `lock` and `try_lock` calls
less its `unlock` calls, and what its last call gave. -/
structure Caller where
  op : Option Op
  held : Nat
  last : Option Ret
  deriving DecidableEq, Repr

def Op.call : Op → Call Unit Empty
  | .lock => .lock ()
  | .tryLock => .tryLock ()
  | .unlock => .unlock ()

def heldAfter (op : Option Op) (r : Ret) (held : Nat) : Nat :=
  match op, r with
  | some .lock, .done | some .tryLock, .bool true => held + 1
  | some .unlock, .done => held - 1
  | _, _ => held

def Caller.after (a : Caller) (r : Ret) : Caller := ⟨none, heldAfter a.op r a.held, some r⟩

variable {τ : Type} [DecidableEq τ]

def callers : Client τ Unit Empty Caller Unit Op where
  call := fun a => a.op.map Op.call
  ret := Caller.after
  act := fun _ a _ op => if a.op = none then some ({ a with op := some op }, ()) else none

abbrev State (τ : Type) := Machine.State τ Unit Empty Caller Unit

abbrev Label (τ : Type) := Machine.Label τ Op

def start : Caller := ⟨none, 0, none⟩

/-- The thread is in the pause of a contended `lock`. -/
def inLock (p : PC Unit Empty Caller) : Bool :=
  match p with
  | .locking _ _ => true
  | _ => false

structure Ledger (τ : Type) where
  queued : List τ
  granted : List τ
  returned : List τ
  deriving DecidableEq, Repr

/-- The thread the mutex passes to from a previous owner. -/
def grant (s s' : State τ) : List τ :=
  match (s.mutex ()).owner, (s'.mutex ()).owner with
  | some t, some next => if next = t then [] else [next]
  | _, _ => []

def record (h : Ledger τ) (s : State τ) : Label τ → State τ → Ledger τ
  | .call t _, s' =>
    { h with
      queued := if inLock (s'.pc t) then h.queued ++ [t] else h.queued
      granted := h.granted ++ grant s s' }
  | .wake t, _ => { h with returned := if inLock (s.pc t) then h.returned ++ [t] else h.returned }
  | _, _ => h

/-- All threads are green. -/
def system : TransitionSystem (State τ × Ledger τ) (Label τ) :=
  (Machine.system callers (fun _ => true) (fun _ => start) ()).withHistory ⟨[], [], []⟩ record

/-- The step is not a `try_lock` of the current owner. -/
def noOwnerTry (sh : State τ × Ledger τ) : Label τ → Bool
  | .call t _ =>
    match sh.1.pc t with
    | .user a => ¬ (a.op = some .tryLock ∧ (sh.1.mutex ()).owner = some t)
    | _ => true
  | _ => true

/-- The thread lies between a successful `lock` or `try_lock` and its `unlock`. -/
def Holds (s : State τ) (t : τ) : Prop := ∃ a, s.pc t = .user a ∧ 0 < a.held

/-- The thread has just called an operation that threw. -/
def Threw (s : State τ) (t : τ) (e : ErrorCode) : Prop :=
  ∃ a, s.pc t = .user a ∧ a.last = some (.threw e)

/-- The thread the mutex was handed to and that has not yet returned from its pause. -/
def awaited (s : State τ) : List τ :=
  match (s.mutex ()).owner with
  | some t => if inLock (s.pc t) then [t] else []
  | none => []

structure Protocol (s : State τ) (h : Ledger τ) : Prop where
  exclusive : ∀ t u, Holds s t → Holds s u → t = u
  holder : ∀ t, Holds s t → (s.mutex ()).owner = some t
  contended : ∀ t, inLock (s.pc t) = true →
    ((s.mutex ()).suspended.count t = 1 ∧ s.pending t = 0) ∨
      (t ∉ (s.mutex ()).suspended ∧ (s.mutex ()).owner = some t ∧ s.pending t = 1)
  free : (s.mutex ()).owner = none → (s.mutex ()).suspended = []
  order : h.queued = h.granted ++ (s.mutex ()).suspended
  returns : h.granted = h.returned ++ awaited s

/-! ### The callers keep count -/

/-- The count of a caller is one while it owns the mutex and zero otherwise; a thread inside `lock`
has no lock yet and a thread in the `yield` of `unlock` has given its own away. -/
def CallerOk (s : State τ) (t : τ) : Prop :=
  match s.pc t with
  | .user a => a.held = if (s.mutex ()).owner = some t then 1 else 0
  | .locking _ a => a.held = 0 ∧ a.op = some .lock
  | .yielding a => a.held = 1 ∧ a.op = some .unlock ∧ (s.mutex ()).owner ≠ some t
  | _ => False

/-- What the callers and the ledger keep. -/
structure Books (s : State τ) (h : Ledger τ) : Prop where
  caller : ∀ t, CallerOk s t
  order : h.queued = h.granted ++ (s.mutex ()).suspended
  returns : h.granted = h.returned ++ awaited s

variable {s s' : State τ} {h : Ledger τ} {t : τ} {a : Caller}

theorem callerOk_ne {u : τ} (hok : CallerOk s u) (hpc : s'.pc u = s.pc u)
    (howner : inLock (s.pc u) = false →
      ((s'.mutex ()).owner = some u ↔ (s.mutex ()).owner = some u)) :
    CallerOk s' u := by
  unfold CallerOk at hok ⊢
  rw [hpc]
  cases hu : s.pc u with
  | user b =>
    rw [hu] at howner hok
    simpa only [howner rfl] using hok
  | yielding b =>
    rw [hu] at howner hok
    simpa only [ne_eq, howner rfl] using hok
  | locking m b =>
    rw [hu] at hok
    exact hok
  | _ =>
    rw [hu] at hok
    exact hok.elim

omit [DecidableEq τ] in
theorem awaited_congr (howner : (s'.mutex ()).owner = (s.mutex ()).owner)
    (hpc : ∀ u, (s.mutex ()).owner = some u → inLock (s'.pc u) = inLock (s.pc u)) :
    awaited s' = awaited s := by
  unfold awaited
  rw [howner]
  split
  · rename_i u hu
    rw [hpc u hu]
  · rfl

omit [DecidableEq τ] in
theorem awaited_of_owner (howner : (s.mutex ()).owner = some t) :
    awaited s = if inLock (s.pc t) then [t] else [] := by
  simp [awaited, howner]

theorem inLock_update {u : τ} {p : PC Unit Empty Caller} (hp : inLock p = false)
    (ht : inLock (s.pc t) = false) : inLock (Function.update s.pc t p u) = inLock (s.pc u) := by
  by_cases hu : u = t
  · rw [hu, Function.update_self, hp, ht]
  · rw [Function.update_of_ne hu]

namespace Books

theorem stay (hb : Books s h) (ht : inLock (s.pc t) = false) {p : PC Unit Empty Caller}
    (hp : inLock p = false) (hok : CallerOk (s.setPc t p) t) : Books (s.setPc t p) h where
  caller := fun u => by
    by_cases hu : u = t
    · rwa [hu]
    · exact callerOk_ne (hb.caller u) (Function.update_of_ne hu _ _) fun _ => Iff.rfl
  order := hb.order
  returns := by
    have hawaited : awaited (s.setPc t p) = awaited s := awaited_congr rfl fun u _ =>
      inLock_update hp ht
    rw [hawaited]
    exact hb.returns

end Books

theorem grant_self (howner : (s'.mutex ()).owner = (s.mutex ()).owner) : grant s s' = [] := by
  unfold grant
  rw [howner]
  split
  · rename_i u v hu hv
    rw [if_pos (Option.some.inj (hv.symm.trans hu))]
  · rfl

theorem record_call (h : Ledger τ) {switch : Bool} (hpc : inLock (s'.pc t) = false)
    (howner : grant s s' = []) : record h s (.call t switch) s' = h := by
  simp [record, hpc, howner]

theorem Books.returned (hb : Books s h) (hpc : s.pc t = .user a) {r : Ret} {switch : Bool}
    (hheld : heldAfter a.op r a.held = a.held) :
    Books (s.setPc t (.user (a.after r)))
      (record h s (.call t switch) (s.setPc t (.user (a.after r)))) := by
  have hrecord : record h s (.call t switch) (s.setPc t (.user (a.after r))) = h :=
    record_call h (by simp [Machine.State.setPc, inLock]) (grant_self rfl)
  rw [hrecord]
  refine hb.stay (by simp [hpc, inLock]) rfl ?_
  have hcaller := hb.caller t
  simp only [CallerOk, hpc] at hcaller
  simp only [CallerOk, Machine.State.setPc, Function.update_self, Caller.after, hheld]
  exact hcaller

theorem Books.acquired (hb : Books s h) (hpc : s.pc t = .user a) {r : Ret}
    {switch : Bool} (hfree : (s.mutex ()).owner = none)
    (hheld : heldAfter a.op r a.held = a.held + 1) {s' : State τ}
    (hs' : s' = (s.setMutex () { s.mutex () with owner := some t }).setPc t (.user (a.after r))) :
    Books s' (record h s (.call t switch) s') := by
  have howner : (s'.mutex ()).owner = some t := by simp [hs', Machine.State.setPc]
  have hself : s'.pc t = .user (a.after r) := by simp [hs', Machine.State.setPc]
  have hne : ∀ u, u ≠ t → s'.pc u = s.pc u := fun u hu => by
    simp [hs', Machine.State.setPc, Machine.State.setMutex, hu]
  have hqueue : (s'.mutex ()).suspended = (s.mutex ()).suspended := by
    simp [hs', Machine.State.setPc]
  have hcaller := hb.caller t
  simp only [CallerOk, hpc, hfree, reduceCtorEq, if_false] at hcaller
  rw [record_call h (by simp [hself, inLock]) (by simp [grant, hfree])]
  refine ⟨fun u => ?_, by rw [hqueue, hb.order], ?_⟩
  · by_cases hu : u = t
    · subst hu
      simp only [CallerOk, hself, howner, Caller.after,
        hheld.trans (congrArg (· + 1) hcaller), if_true]
    · refine callerOk_ne (hb.caller u) (hne u hu) fun _ => ?_
      simp [howner, hfree, Ne.symm hu]
  · have hbefore : awaited s = [] := by simp [awaited, hfree]
    rw [awaited_of_owner howner, hself, hb.returns, hbefore]
    simp [inLock]

theorem Books.queued (hb : Books s h) (hpc : s.pc t = .user a) (hop : a.op = some .lock) {u : τ}
    {switch : Bool} (hown : (s.mutex ()).owner = some u) (hne : u ≠ t) {s' : State τ}
    (hs' : s' = (s.setMutex () { s.mutex () with suspended := (s.mutex ()).suspended ++ [t] }).setPc
      t
      (.locking () a)) : Books s' (record h s (.call t switch) s') := by
  have hself : s'.pc t = .locking () a := by simp [hs', Machine.State.setPc]
  have hother : ∀ u, u ≠ t → s'.pc u = s.pc u := fun u hu => by
    simp [hs', Machine.State.setPc, Machine.State.setMutex, hu]
  have howner : (s'.mutex ()).owner = (s.mutex ()).owner := by simp [hs', Machine.State.setPc]
  have hqueue : (s'.mutex ()).suspended = (s.mutex ()).suspended ++ [t] := by
    simp [hs', Machine.State.setPc]
  have hcaller := hb.caller t
  rw [hown] at howner
  simp only [CallerOk, hpc, hown, Option.some.injEq, hne, if_false] at hcaller
  refine ⟨fun v => ?_, ?_, ?_⟩
  · by_cases hv : v = t
    · subst hv
      simp [CallerOk, hself, hcaller, hop]
    · refine callerOk_ne (hb.caller v) (hother v hv) fun _ => ?_
      rw [howner, hown]
  · simp only [record, hself, inLock, if_true, grant_self (howner.trans hown.symm), List.append_nil]
    rw [hb.order, hqueue, List.append_assoc]
  · rw [awaited_congr (s := s) (howner.trans hown.symm) fun v hv => ?_]
    · simpa [record, grant_self (howner.trans hown.symm)] using hb.returns
    · rw [hown, Option.some.injEq] at hv
      rw [hother v (hv ▸ hne)]

theorem Books.released (hb : Books s h) (hpc : s.pc t = .user a) (hop : a.op = some .unlock)
    {switch : Bool} (hown : (s.mutex ()).owner = some t) (hempty : (s.mutex ()).suspended = [])
    {s' : State τ} (hs' : s' = (s.setMutex () ⟨none, []⟩).setPc t (.user (a.after .done))) :
    Books s' (record h s (.call t switch) s') := by
  have hself : s'.pc t = .user (a.after .done) := by simp [hs', Machine.State.setPc]
  have hother : ∀ u, u ≠ t → s'.pc u = s.pc u := fun u hu => by
    simp [hs', Machine.State.setPc, Machine.State.setMutex, hu]
  have hmutex : s'.mutex () = ⟨none, []⟩ := by simp [hs', Machine.State.setPc]
  have hcaller := hb.caller t
  simp only [CallerOk, hpc, hown, if_true] at hcaller
  rw [record_call h (by simp [hself, inLock]) (by simp [grant, hmutex])]
  refine ⟨fun u => ?_, ?_, ?_⟩
  · by_cases hu : u = t
    · subst hu
      simp [CallerOk, hself, hmutex, Caller.after, heldAfter, hop, hcaller]
    · refine callerOk_ne (hb.caller u) (hother u hu) fun _ => ?_
      simp [hmutex, hown, Ne.symm hu]
  · rw [hmutex, hb.order, hempty]
  · have hbefore : awaited s = [] := by simp [awaited, hown, hpc, inLock]
    rw [hb.returns, hbefore]
    simp [awaited, hmutex]

theorem Books.handed (hb : Books s h) (hok : (s.mutex ()).Ok) (hpc : s.pc t = .user a)
    (hop : a.op = some .unlock) {switch : Bool} (hown : (s.mutex ()).owner = some t) {next : τ}
    {rest : List τ} (hqueue : (s.mutex ()).suspended = next :: rest)
    (hlocking : inLock (s.pc next) = true) {s' : State τ} (hmutex : s'.mutex () = ⟨some next, rest⟩)
    (hother : ∀ u, u ≠ t → s'.pc u = s.pc u)
    (hself : s'.pc t = .user (a.after .done) ∨ s'.pc t = .yielding a) :
    Books s' (record h s (.call t switch) s') := by
  have hnext := hok.next_ne hown hqueue
  have hcaller := hb.caller t
  simp only [CallerOk, hpc, hown, if_true] at hcaller
  have hout : inLock (s'.pc t) = false := by rcases hself with hs | hs <;> simp [hs, inLock]
  have hgrant : grant s s' = [next] := by simp [grant, hown, hmutex, hnext]
  have hbefore : awaited s = [] := by simp [awaited, hown, hpc, inLock]
  refine ⟨fun u => ?_, ?_, ?_⟩
  · by_cases hu : u = t
    · subst hu
      rcases hself with hs | hs
      · simp [CallerOk, hs, hmutex, hnext, Caller.after, heldAfter, hop, hcaller]
      · simp [CallerOk, hs, hmutex, hnext, hop, hcaller]
    · refine callerOk_ne (hb.caller u) (hother u hu) fun hnot => ?_
      have hun : next ≠ u := by
        rintro rfl
        rw [hnot] at hlocking
        cases hlocking
      simp [hmutex, hown, hun, Ne.symm hu]
  · simp [record, hout, hgrant, hb.order, hqueue, hmutex]
  · have hafter : awaited s' = [next] := by simp [awaited, hmutex, hother next hnext, hlocking]
    simp [record, hgrant, hafter, hb.returns, hbefore]

theorem Books.woken (hb : Books s h) (hpc : s.pc t = .locking () a)
    (hown : (s.mutex ()).owner = some t) {s' : State τ} (hmutex : s'.mutex = s.mutex)
    (hother : ∀ u, u ≠ t → s'.pc u = s.pc u) (hself : s'.pc t = .user (a.after .done)) :
    Books s' (record h s (.wake t) s') := by
  have hcaller := hb.caller t
  simp only [CallerOk, hpc] at hcaller
  refine ⟨fun u => ?_, ?_, ?_⟩
  · by_cases hu : u = t
    · subst hu
      simp [CallerOk, hself, hmutex, hown, Caller.after, heldAfter, hcaller]
    · exact callerOk_ne (hb.caller u) (hother u hu) fun _ => by rw [hmutex]
  · simp [record, hmutex, hb.order]
  · have hbefore : awaited s = [t] := by simp [awaited, hown, hpc, inLock]
    have hafter : awaited s' = [] := by simp [awaited, hmutex, hown, hself, inLock]
    simp [record, hpc, inLock, hafter, hb.returns, hbefore]

theorem Books.yielded (hb : Books s h) (hpc : s.pc t = .yielding a) {s' : State τ}
    (hmutex : s'.mutex = s.mutex) (hother : ∀ u, u ≠ t → s'.pc u = s.pc u)
    (hself : s'.pc t = .user (a.after .done)) : Books s' (record h s (.wake t) s') := by
  have hcaller := hb.caller t
  simp only [CallerOk, hpc] at hcaller
  obtain ⟨hheld, hop, hnot⟩ := hcaller
  refine ⟨fun u => ?_, ?_, ?_⟩
  · by_cases hu : u = t
    · subst hu
      simp [CallerOk, hself, hmutex, hnot, Caller.after, heldAfter, hop, hheld]
    · exact callerOk_ne (hb.caller u) (hother u hu) fun _ => by rw [hmutex]
  · simp [record, hpc, inLock, hmutex, hb.order]
  · rw [awaited_congr (s := s) (by rw [hmutex]) fun u hu => ?_]
    · simpa [record, hpc, inLock] using hb.returns
    · rw [hother u fun htu => hnot (htu ▸ hu)]

section

omit [DecidableEq τ]

theorem op_of_call {call : Call Unit Empty} (hcall : (callers (τ := τ)).call a = some call) :
    ∃ op, a.op = some op ∧ call = op.call := by
  obtain ⟨op, hop, rfl⟩ := Option.map_eq_some_iff.mp hcall
  exact ⟨op, hop, rfl⟩

theorem lock_of_call (hcall : (callers (τ := τ)).call a = some (.lock ())) : a.op = some .lock := by
  obtain ⟨op, hop, hcall⟩ := op_of_call hcall
  cases op <;> first | exact hop | cases hcall

theorem tryLock_of_call (hcall : (callers (τ := τ)).call a = some (.tryLock ())) :
    a.op = some .tryLock := by
  obtain ⟨op, hop, hcall⟩ := op_of_call hcall
  cases op <;> first | exact hop | cases hcall

theorem unlock_of_call (hcall : (callers (τ := τ)).call a = some (.unlock ())) :
    a.op = some .unlock := by
  obtain ⟨op, hop, hcall⟩ := op_of_call hcall
  cases op <;> first | exact hop | cases hcall

theorem locking_of_queued (hinv : Machine.Inv (fun _ => true) s)
    (hmem : t ∈ (s.mutex ()).suspended) : inLock (s.pc t) = true := by
  rcases hinv.locking_of_queued hmem with ⟨a, hpc⟩ | ⟨w, -, -, -⟩
  · rw [hpc]
    rfl
  · exact w.cond.elim

end

/-- One step keeps the books. -/
theorem Books.step (hb : Books s h) (hinv : Machine.Inv (fun _ => true) s) {l : Label τ}
    (hok : noOwnerTry (s, h) l = true)
    (hmove : Machine.Move callers (fun _ => true) s l s') : Books s' (record h s l s') := by
  have hmutex := hinv.mutex ()
  cases hmove with
  | @act t a b o x hpc hact =>
    simp only [callers, Option.ite_none_right_eq_some, Option.some.injEq, Prod.mk.injEq] at hact
    obtain ⟨hop, rfl, -⟩ := hact
    refine hb.stay (p := .user { a with op := some o }) (by simp [hpc, inLock]) rfl ?_
    have hcaller := hb.caller t
    simp only [CallerOk, hpc] at hcaller
    simp only [CallerOk, Machine.State.setPc, Function.update_self]
    exact hcaller
  | native _ _ hnative => cases hnative
  | lockThrew hpc hcall => exact hb.returned hpc (by simp [heldAfter, lock_of_call hcall])
  | tryBusy hpc hcall => exact hb.returned hpc (by simp [heldAfter, tryLock_of_call hcall])
  | unlockThrew hpc hcall => exact hb.returned hpc (by simp [heldAfter, unlock_of_call hcall])
  | @tryOwned t a m switch hpc hcall _ hown =>
    simp [noOwnerTry, hpc, tryLock_of_call hcall, hown] at hok
  | lockFree hpc hcall _ hfree =>
    exact hb.acquired hpc hfree (by simp [heldAfter, lock_of_call hcall]) rfl
  | tryFree hpc hcall _ hfree =>
    exact hb.acquired hpc hfree (by simp [heldAfter, tryLock_of_call hcall]) rfl
  | lockQueued hpc hcall _ hown hne => exact hb.queued hpc (lock_of_call hcall) hown hne rfl
  | unlockFree hpc hcall _ hown hempty =>
    exact hb.released hpc (unlock_of_call hcall) hown hempty rfl
  | @unlockHanded t a m next rest hpc hcall _ hown hqueue =>
    refine hb.handed hmutex hpc (unlock_of_call hcall) hown hqueue
      (locking_of_queued hinv (by simp [hqueue]))
        (by simp [Machine.State.setPc, Machine.State.resume])
      (fun u hu => ?_) (.inl ?_)
    · simp [Machine.State.setPc, Machine.State.resume, Machine.State.setMutex, hu]
    · simp [Machine.State.setPc, callers]
  | @unlockYield t a m next rest hpc hcall _ hown hqueue =>
    refine hb.handed hmutex hpc (unlock_of_call hcall) hown hqueue
      (locking_of_queued hinv (by simp [hqueue]))
      (by simp [Machine.State.yieldTo, Machine.State.setPc, Machine.State.resume])
        (fun u hu => ?_) (.inr ?_)
    · simp [Machine.State.yieldTo, Machine.State.setPc, Machine.State.resume,
        Machine.State.setMutex, hu]
    · simp [Machine.State.yieldTo, Machine.State.setPc]
  | @waitThrew _ _ w | @waitQueued _ _ w | @releaseFree _ _ w | @releaseHanded _ _ w
  | @releaseYield _ _ w | @relockFree _ _ w | @relockQueued _ _ w => exact w.cond.elim
  | @notifyNobody _ _ c | @notifyOne _ _ c | @notifyAll _ _ c | @expire _ c | @aborted _ c
  | @timeout _ c => exact c.elim
  | deliver => exact ⟨hb.caller, hb.order, hb.returns⟩
  | @wake t p hdelivered hp =>
    cases Machine.switched hp with
    | locked hpc =>
      exact hb.woken hpc (hinv.owns_of_wake hpc hdelivered) rfl
        (fun u hu => by simp [Machine.State.setPc, Machine.State.consume, hu])
        (by simp [Machine.State.setPc, callers])
    | yielded hpc =>
      exact hb.yielded hpc rfl
        (fun u hu => by simp [Machine.State.setPc, Machine.State.consume, hu])
        (by simp [Machine.State.setPc, callers])
    | @unlocked w | @resumed w | @relocked w => exact w.cond.elim

theorem initial_books : Books (Machine.initial (fun _ => start) () : State τ) ⟨[], [], []⟩ where
  caller := fun _ => rfl
  order := rfl
  returns := rfl

theorem reach_books {sh : State τ × Ledger τ} (hreach : system.Reach (noOwnerTry · ·) sh) :
    Books sh.1 sh.2 := by
  refine hreach.invariant (I := fun sh => Books sh.1 sh.2) ?_ ?_
  · rintro ⟨s, h⟩ ⟨hs, hh⟩
    cases hs
    cases hh
    exact initial_books
  · rintro ⟨s, h⟩ l sh' hr hb hl hstep
    obtain ⟨s', hs', rfl⟩ := TransitionSystem.withHistory_step.mp hstep
    have hinv := Machine.reach_inv hr.forget
    exact hb.step hinv hl (Machine.step_move hinv hs')

/-! ### The protocol -/

theorem Books.holder (hb : Books s h) (hholds : Holds s t) : (s.mutex ()).owner = some t := by
  obtain ⟨a, hpc, hpos⟩ := hholds
  have hcaller := hb.caller t
  simp only [CallerOk, hpc] at hcaller
  by_contra hnot
  rw [if_neg hnot] at hcaller
  omega

theorem Books.protocol (hb : Books s h) (hinv : Machine.Inv (fun _ => true) s) : Protocol s h where
  exclusive := fun t u ht hu => Option.some.inj ((hb.holder ht).symm.trans (hb.holder hu))
  holder := fun t => hb.holder
  contended := fun t hin => by
    have hthread := hinv.thread t
    cases hpc : s.pc t with
    | locking m a =>
      simp only [Machine.View.Ok, Machine.State.view, hpc] at hthread
      obtain ⟨⟨-, ⟨hmem, hzero⟩ | ⟨hnot, hown, hone⟩⟩, -⟩ := hthread
      · exact .inl ⟨List.count_eq_one_of_mem (hinv.mutex ()).nodup hmem, hzero⟩
      · exact .inr ⟨hnot, hown, hone⟩
    | _ => simp [hpc, inLock] at hin
  free := (hinv.mutex ()).free
  order := hb.order
  returns := hb.returns

/-- The operation about to be called is a relock by the owner or an unlock by another thread. -/
def Illegal (s : State τ) (t : τ) (a : Caller) : Prop :=
  (a.op = some .lock ∧ (s.mutex ()).owner = some t) ∨
  (a.op = some .unlock ∧ (s.mutex ()).owner ≠ some t)

/-- A call throws exactly when it is illegal, and then it leaves the mutex as it was. -/
theorem call_throws (hinv : Machine.Inv (fun _ => true) s) (hpc : s.pc t = .user a) {switch : Bool}
    (hstep : Machine.step callers (fun _ => true) s (.call t switch) = some s') :
    ((∃ e, Threw s' t e) ↔ Illegal s t a) ∧ ((∃ e, Threw s' t e) → s'.mutex () = s.mutex ()) := by
  have hreturned : ∀ {r}, s'.pc t = .user (a.after r) →
    ((∃ e, Threw s' t e) ↔ ∃ e, r = .threw e) := by
    intro r hs'
    simp [Threw, hs', Caller.after]
  -- a call that does not throw is legal, and there is nothing to say about the mutex
  have hfine : Illegal s t a = False → (¬ ∃ e, Threw s' t e) →
      ((∃ e, Threw s' t e) ↔ Illegal s t a) ∧ ((∃ e, Threw s' t e) → s'.mutex () = s.mutex ()) :=
    fun hlegal hnot =>
      ⟨⟨fun hthrew => absurd hthrew hnot, fun hillegal => (hlegal ▸ hillegal).elim⟩,
      fun hthrew => absurd hthrew hnot⟩
  have hpaused : (∀ b, s'.pc t ≠ .user b) → ¬ ∃ e, Threw s' t e := fun hne ⟨e, b, hb, _⟩ => hne b hb
  have hsame : ∀ {b}, s.pc t = .user b → b = a := fun hb => PC.user.inj (hb.symm.trans hpc)
  cases Machine.step_move hinv hstep with
  | native _ _ hnative => cases hnative
  | @lockThrew _ b m _ hb hcall _ hown =>
    obtain rfl := hsame hb
    refine ⟨?_, fun _ => rfl⟩
    rw [hreturned (by simp [Machine.State.setPc, callers]; rfl)]
    exact ⟨fun _ => .inl ⟨lock_of_call hcall, hown⟩, fun _ => ⟨_, rfl⟩⟩
  | @unlockThrew _ b m _ hb hcall _ hown =>
    obtain rfl := hsame hb
    refine ⟨?_, fun _ => rfl⟩
    rw [hreturned (by simp [Machine.State.setPc, callers]; rfl)]
    exact ⟨fun _ => .inr ⟨unlock_of_call hcall, hown⟩, fun _ => ⟨_, rfl⟩⟩
  | @lockFree _ b m _ hb hcall _ hfree =>
    obtain rfl := hsame hb
    refine hfine (by simp [Illegal, lock_of_call hcall, hfree]) ?_
    rw [hreturned (by simp [Machine.State.setPc, callers]; rfl)]
    simp
  | @lockQueued _ b m u _ hb hcall _ hown hne =>
    obtain rfl := hsame hb
    exact hfine (by simp [Illegal, lock_of_call hcall, hown, hne])
      (hpaused fun c => by simp [Machine.State.setPc])
  | @tryFree _ b m _ hb hcall | @tryOwned _ b m _ hb hcall | @tryBusy _ b m _ _ hb hcall =>
    obtain rfl := hsame hb
    refine hfine (by simp [Illegal, tryLock_of_call hcall]) ?_
    rw [hreturned (by simp [Machine.State.setPc, callers]; rfl)]
    simp
  | @unlockFree _ b m _ hb hcall _ hown | @unlockHanded _ b m _ _ hb hcall _ hown =>
    obtain rfl := hsame hb
    refine hfine (by simp [Illegal, unlock_of_call hcall, hown]) ?_
    rw [hreturned (by simp [Machine.State.setPc, callers]; rfl)]
    simp
  | @unlockYield _ b m _ _ hb hcall _ hown =>
    obtain rfl := hsame hb
    exact hfine (by simp [Illegal, unlock_of_call hcall, hown])
      (hpaused fun c => by simp [Machine.State.yieldTo, Machine.State.setPc])
  | @waitThrew _ _ w | @waitQueued _ _ w => exact w.cond.elim
  | @notifyNobody _ _ c | @notifyOne _ _ c | @notifyAll _ _ c => exact c.elim

/-- The protocol holds in every state of every run without a `try_lock` by the owner, and a call
throws exactly when it is a relock by the owner or an unlock by another thread, and leaves `owner_`
and `suspended_` as they were. -/
theorem mutex_protocol {sh : State τ × Ledger τ} (hreach : system.Reach (noOwnerTry · ·) sh) :
    Protocol sh.1 sh.2 ∧
      ∀ t switch a sh', sh.1.pc t = .user a → system.step sh (.call t switch) = some sh' →
        ((∃ e, Threw sh'.1 t e) ↔ Illegal sh.1 t a) ∧
          ((∃ e, Threw sh'.1 t e) → sh'.1.mutex () = sh.1.mutex ()) := by
  have hinv := Machine.reach_inv hreach.forget
  refine ⟨(reach_books hreach).protocol hinv, fun t switch a sh' hpc hstep => ?_⟩
  obtain ⟨s', hs', rfl⟩ := TransitionSystem.withHistory_step.mp hstep
  exact call_throws hinv hpc hs'

/-- Thread 1 queues behind thread 0, is handed the mutex before it runs again, and then tries to
lock it once more. -/
theorem mutex_protocol_handOver : ∃ sh : State (Fin 2) × Ledger (Fin 2),
    Protocol sh.1 sh.2 ∧ sh.2 = ⟨[1], [1], [1]⟩ ∧ Holds sh.1 1 ∧
      ∃ sh', system.step sh (.call 1 false) = some sh' ∧ sh'.1.mutex () = sh.1.mutex () := by
  let labels : List (Label (Fin 2)) :=
    [.act 0 .lock, .call 0 false, .act 1 .lock, .call 1 false, .act 0 .unlock, .call 0 true,
      .deliver 1, .wake 1, .act 1 .lock]
  have hreach := system.reach_of_run noOwnerTry (Machine.initial (fun _ => start) (), ⟨[], [], []⟩)
    ⟨rfl, rfl⟩ labels rfl
  have hstep := (mutex_protocol hreach).2 1 false ⟨some .lock, 1, some .done⟩ _ rfl rfl
  exact ⟨_, (mutex_protocol hreach).1, rfl, ⟨_, rfl, Nat.one_pos⟩, _, rfl,
    hstep.2 (hstep.1.mpr (.inl ⟨rfl, rfl⟩))⟩

end MutexProtocol

end GreenThread
