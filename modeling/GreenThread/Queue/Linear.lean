import GreenThread.Queue.Atomic

/-!
# Linearizability of the queue

Every concurrent run of the queue is a sequential one. Each operation takes effect at one moment, at
the end of its last critical section, which lies between its begin and its return; in the order of
these moments the operations are what they do when nothing else runs, with the results that the
threads were given.
-/

namespace GreenThread

namespace Queue

variable {V τ : Type} [DecidableEq τ]

/-- An operation of a thread and what it gives back. -/
structure Answer (V τ : Type) where
  thread : τ
  op : Op V
  result : Result V
  deriving DecidableEq, Repr

/-- An operation that has returned. It took effect after the first `since` operations and among the
first `upto`. -/
structure Returned (V τ : Type) extends Answer V τ where
  since : Nat
  upto : Nat
  deriving DecidableEq, Repr

/-- The result that a position before the destructor of `lock` gives back. -/
def Pos.answer (t : τ) : Pos V → Option (Answer V τ)
  | .leave op r => some ⟨t, op, r⟩
  | _ => none

/-- The operations that have taken effect, in the order in which they did. -/
def effects (h : Serial.View.History τ (Pos V) (Data V)) : List (Answer V τ) :=
  h.finished.filterMap fun x => x.exit.answer x.thread

/-- The operation that has taken effect and not returned: its `unlock` has switched to another
thread. -/
def pending (s : State V τ) (t : τ) : Option (Answer V τ) :=
  match s.pc t with
  | .yielding p => p.answer t
  | _ => none

/-- The operations that are not over, each with the number of operations that had taken effect when
it began, and those that have returned. -/
structure Calls (V τ : Type) where
  current : τ → Option (Op V × Nat)
  returned : List (Returned V τ)

def Calls.start : Calls V τ := ⟨fun _ => none, []⟩

abbrev Observed (V τ : Type) := State V τ × Serial.View.History τ (Pos V) (Data V)

def Calls.record (c : Calls V τ) (sh : Observed V τ) (l : Label V τ)
    (sh' : Observed V τ) : Calls V τ :=
  match l with
  | .act t (.begin op) =>
    { c with current := Function.update c.current t (some (op, (effects sh.2).length)) }
  | l =>
    match Machine.place sh.1 l.thread, sh'.1.pc l.thread with
    | some (.leave _ r), .user .idle =>
      { current := Function.update c.current l.thread none
        returned := c.returned ++ (c.current l.thread).toList.map fun b =>
          ⟨⟨l.thread, b.1, r⟩, b.2, (effects sh'.2).length⟩ }
    | _, _ => c

/-- The threads of one queue, their critical sections and their calls. -/
def observed (capacity : Nat) (autoOpen : Bool) :
    TransitionSystem (Observed V τ × Calls V τ) (Label V τ) :=
  ((system capacity autoOpen).withHistory .start (sections capacity).record).withHistory
  .start Calls.record

/-- The answers of one thread, in order. -/
def ofThread (t : τ) (answers : List (Answer V τ)) :
    List (Answer V τ) := answers.filter fun x => x.thread = t

/-- The run so far is the sequential run of `effects`. -/
structure Linearizes (capacity : Nat) (start : Data V) (s : State V τ)
    (h : Serial.View.History τ (Pos V) (Data V)) (c : Calls V τ) : Prop where
  legal : ∃ d, Serial.Path (fun x => x.op.Does capacity x.result) start (effects h) d ∧
    ((∀ t, (sections capacity).inside s t = none) → d = s.shared)
  order : ∀ t, ofThread t (effects h) = ofThread t (c.returned.map (·.toAnswer)) ++
    (pending s t).toList
  inTime : ∀ x ∈ c.returned, ∃ i, x.since ≤ i ∧ i < x.upto ∧ (effects h)[i]? = some x.toAnswer
  running : ∀ t x, pending s t = some x → ∃ n i, c.current t = some (x.op, n) ∧ n ≤ i ∧
    (effects h)[i]? = some x

variable {capacity : Nat} {autoOpen : Bool} {s s' : State V τ} {l : Label V τ}
    {h : Serial.View.History τ (Pos V) (Data V)}

/-! ### The sequential run -/

omit [DecidableEq τ] in
theorem answer_leave {p : Pos V} {t : τ} {x : Answer V τ} (h : p.answer t = some x) :
    p = .leave x.op x.result ∧ x.thread = t := by
  cases p with
  | leave op r =>
    cases h
    exact ⟨rfl, rfl⟩
  | _ => cases h

omit [DecidableEq τ] in
/-- The operations that have taken effect are a run of the sequential queue. -/
theorem effects_legal {start d : Data V}
    (hcompletes : ∀ x ∈ h.finished, (sections capacity).Completes x)
    (hpath : Serial.Path Serial.Section.Leads start h.finished d) :
    Serial.Path (fun x => x.op.Does capacity x.result) start (effects h) d := by
  refine hpath.filterMap _ (fun x hx before after answer hleads hanswer => ?_)
    fun x hx before after hleads hnone => ?_
  · obtain ⟨rfl, rfl⟩ := hleads
    obtain ⟨hexit, -⟩ := answer_leave hanswer
    rcases section_does (hcompletes x hx) with ⟨op, r, heq, hdoes⟩ | ⟨op, heq, -⟩
    · obtain ⟨rfl, rfl⟩ := Pos.leave.inj (heq.symm.trans hexit)
      exact hdoes
    · cases heq.symm.trans hexit
  · obtain ⟨rfl, rfl⟩ := hleads
    rcases section_does (hcompletes x hx) with ⟨op, r, heq, -⟩ | ⟨op, -, hsame⟩
    · rw [heq] at hnone
      cases hnone
    · exact hsame

omit [DecidableEq τ] in
theorem legal {start : Data V} (hserial : (sections capacity).Serializes start s h) :
    ∃ d, Serial.Path (fun x => x.op.Does capacity x.result) start (effects h) d ∧
      ((∀ t, (sections capacity).inside s t = none) → d = s.shared) := by
  by_cases hidle : ∀ t, (sections capacity).inside s t = none
  · exact ⟨s.shared, effects_legal hserial.completes (hserial.idle hidle), fun _ => rfl⟩
  · obtain ⟨t, ht⟩ := not_forall.mp hidle
    obtain ⟨p, hp⟩ := Option.ne_none_iff_exists'.mp ht
    obtain ⟨e, d, -, -, hpath, -⟩ := hserial.busy t p hp
    exact ⟨d, effects_legal hserial.completes hpath, fun hnone => absurd hnone hidle⟩

/-! ### What a step adds -/

omit [DecidableEq τ] in
theorem inside_of_pc {t : τ} {p : PC Unit Cv (Pos V)} (hpc : s.pc t = p) :
    (sections capacity).inside s t = p.working (client (τ := τ) capacity) Pos.holds :=
  congrArg (PC.working (client (τ := τ) capacity) Pos.holds) hpc

/-- What a step of a thread that begins no operation does to its call. -/
inductive Progresses (s s' : State V τ) (h h' : Serial.View.History τ (Pos V) (Data V))
    (t : τ) : Prop
  /-- the call goes on -/
  | stays (heffects : effects h' = effects h) (hpending : pending s' t = pending s t)
      (hop : ∀ q op, Machine.place s' t = some q → q.op = some op →
        ∃ p, Machine.place s t = some p ∧ p.op = some op)
      (hreturns : ¬ ∃ op r, Machine.place s t = some (.leave op r) ∧ s'.pc t = .user .idle)
  /-- it has taken effect -/
  | commits {op r} (hpc : s.pc t = .user (.leave op r))
      (heffects : effects h' = effects h ++ [⟨t, op, r⟩])
      (hpc' : s'.pc t = .yielding (.leave op r))
  /-- it has taken effect and returned -/
  | finishes {op r} (hpc : s.pc t = .user (.leave op r))
      (heffects : effects h' = effects h ++ [⟨t, op, r⟩])
      (hpc' : s'.pc t = .user .idle)
  /-- it returns from the `yield` of its `unlock` -/
  | returns {op r} (hpc : s.pc t = .yielding (.leave op r)) (heffects : effects h' = effects h)
      (hpc' : s'.pc t = .user .idle)

section

omit [DecidableEq τ]

theorem pending_none {t : τ} (hnot : ∀ op r, s.pc t ≠ .yielding (.leave op r)) :
    pending s t = none := by
  unfold pending
  split
  · rename_i p hpc
    cases p with
    | leave op r => exact absurd hpc (hnot op r)
    | _ => rfl
  · rfl

theorem effects_stays
    (hstays : (sections capacity).inside s l.thread = none ∨
      (sections capacity).inside s' l.thread ≠ none) :
    effects ((sections capacity).record h s l s') = effects h := by
  rw [effects, Serial.View.record_stays hstays, effects]

theorem effects_leaves {start : Data V}
    (hserial : (sections capacity).Serializes start s h) {p : Pos V}
    (hin : (sections capacity).inside s l.thread = some p)
    (hout : (sections capacity).inside s' l.thread = none) :
    effects ((sections capacity).record h s l s') = effects h ++ (p.answer l.thread).toList := by
  obtain ⟨e, d, hrecord, -⟩ := hserial.record_leaves hin hout
  rw [hrecord, effects, List.filterMap_append, effects]
  cases hanswer : p.answer l.thread <;> simp [sections, Machine.sections, hanswer]

theorem leave_split {p : PC Unit Cv (Pos V)} {op : Op V} {r : Result V}
    (hcalled : p.Called (client (τ := τ) capacity))
    (hat : p.at = some (.leave op r)) : p = .user (.leave op r) ∨ p = .yielding (.leave op r) := by
  cases p with
  | user b =>
    obtain rfl := Option.some.inj hat
    exact .inl rfl
  | yielding b =>
    obtain rfl := Option.some.inj hat
    exact .inr rfl
  | locking m b =>
    obtain rfl := Option.some.inj hat
    cases hcalled
  | terminated => cases hat
  | unlocking w b | unlockYield w b | pausing w b | relocking w b | relockPause w b =>
    obtain rfl := Option.some.inj hat
    obtain ⟨c, m, timed⟩ := w
    cases timed <;> cases hcalled

theorem leave_progresses (hserial : (sections capacity).Serializes ⟨autoOpen, []⟩ s h)
    (hcalled : (s.pc l.thread).Called (client (τ := τ) capacity))
    (hcalled' : (s'.pc l.thread).Called (client (τ := τ) capacity))
    {op : Op V} {r : Result V} (hat : (s.pc l.thread).at = some (.leave op r))
    (hnext : (s'.pc l.thread).Inside (.leave op r) ∨ s'.pc l.thread = .user .idle) :
    Progresses s s' h ((sections capacity).record h s l s') l.thread := by
  have hnext : s'.pc l.thread = .yielding (.leave op r) ∨ s'.pc l.thread = .user .idle :=
    hnext.imp_left fun ⟨hat', hne⟩ => (leave_split hcalled' hat').resolve_left hne
  have hout : (sections capacity).inside s' l.thread = none := by
    rcases hnext with hpc' | hpc'
    · exact inside_of_pc hpc'
    · exact inside_of_pc hpc'
  rcases leave_split hcalled hat with hpc | hpc
  · have hin : (sections capacity).inside s l.thread = some (.leave op r) := inside_of_pc hpc
    have heffects := effects_leaves hserial hin hout
    rcases hnext with hpc' | hpc'
    · exact .commits hpc heffects hpc'
    · exact .finishes hpc heffects hpc'
  · have hin : (sections capacity).inside s l.thread = none := inside_of_pc hpc
    have heffects : effects ((sections capacity).record h s l s') = effects h :=
      effects_stays (.inl hin)
    rcases hnext with hpc' | hpc'
    · refine .stays heffects ?_ (fun q op' hat' hop => ⟨q, ?_, hop⟩) ?_
      · unfold pending
        rw [hpc, hpc']
      · rwa [Machine.place, hpc, ← hpc']
      · rintro ⟨op', r', -, hidle⟩
        cases hpc'.symm.trans hidle
    · exact .returns hpc heffects hpc'

theorem call_progresses (hserial : (sections capacity).Serializes ⟨autoOpen, []⟩ s h) {a : Pos V}
    {call : Call Unit Cv} (hat : (s.pc l.thread).at = some a) (hcall : a.call = some call)
    (hleave : ∀ op r, a ≠ .leave op r)
    (hnext : (s'.pc l.thread).Inside a ∨ ∃ r, s'.pc l.thread = .user (a.ret r)) :
    Progresses s s' h ((sections capacity).record h s l s') l.thread := by
  have hpending : ∀ {u : State V τ}, (∀ op r, (u.pc l.thread).at = some (.leave op r) →
    ∃ q, u.pc l.thread = .user q) →
      pending u l.thread = none := fun hat => pending_none fun op r hpc => by
    obtain ⟨q, hq⟩ := hat op r (by rw [hpc]; rfl)
    cases hpc.symm.trans hq
  have hat_leave : ∀ {u : State V τ}, (u.pc l.thread).at = some a →
    ∀ op r, (u.pc l.thread).at ≠ some (.leave op r) :=
    fun hu op r heq => hleave op r (Option.some.inj (hu.symm.trans heq))
  refine .stays ?_ ?_ ?_ ?_
  · cases hin : (sections capacity).inside s l.thread with
    | none => exact effects_stays (.inl hin)
    | some b =>
      cases hout : (sections capacity).inside s' l.thread with
      | some c =>
        refine effects_stays (.inr ?_)
        rw [hout]
        exact Option.some_ne_none c
      | none =>
        obtain rfl : b = a := Option.some.inj ((Machine.at_of_working hin).symm.trans hat)
        have hanswer : b.answer l.thread = none := by
          cases b with
          | leave op r => exact absurd rfl (hleave op r)
          | _ => rfl
        rw [effects_leaves hserial hin hout, hanswer, Option.toList_none, List.append_nil]
  · rw [hpending fun op r heq => absurd heq (hat_leave hat op r), hpending fun op r heq => ?_]
    rcases hnext with ⟨hat', -⟩ | ⟨r', hpc'⟩
    · exact absurd heq (hat_leave hat' op r)
    · exact ⟨_, hpc'⟩
  · intro q op hq hop
    refine ⟨a, hat, ?_⟩
    rcases hnext with ⟨hat', -⟩ | ⟨r', hpc'⟩
    · rwa [Option.some.inj (hat'.symm.trans hq)]
    · rw [Machine.place_of_user hpc'] at hq
      obtain rfl := Option.some.inj hq
      exact op_of_ret hop
  · rintro ⟨op, r, hplace, -⟩
    exact hat_leave hat op r hplace

end

theorem reach_progresses {ok : State V τ → Label V τ → Prop}
    (hr : (system capacity autoOpen).Reach ok s)
    (hserial : (sections capacity).Serializes ⟨autoOpen, []⟩ s h)
    (hstep : (system capacity autoOpen).step s l = some s')
    (hbegin : ∀ t op, l ≠ .act t (.begin op)) :
    Progresses s s' h ((sections capacity).record h s l s') l.thread := by
  have hcalled := Machine.reach_called hr l.thread
  have hcalled' := (Machine.step_move (Machine.reach_inv hr) hstep).called
    (Machine.reach_called hr) l.thread
  rcases reach_cases hr hstep with ⟨t, op, rfl, -⟩ | ⟨t, p, q, rfl, hpcu, hgoes, hpc⟩ |
    ⟨-, -, -, hprogress⟩
  · exact absurd rfl (hbegin t op)
  · have hpcu : s.pc t = .user p := hpcu
    have hpc' : s'.pc t = .user q := by rw [hpc, Function.update_self]
    refine .stays (effects_stays (.inr ?_)) ?_ (fun q' op hat hop => ?_) ?_
    · have hin : (sections capacity).inside s' t = some q :=
        (inside_of_pc hpc').trans (Machine.working_user hgoes.holds.2)
      exact fun hnone => by cases hin.symm.trans hnone
    · have hbefore : pending s t = none := pending_none fun op r heq => by cases hpcu.symm.trans heq
      exact (pending_none fun op r heq => by cases hpc'.symm.trans heq).trans hbefore.symm
    · obtain rfl : q = q' := Option.some.inj ((Machine.place_of_user hpc').symm.trans hat)
      exact ⟨p, Machine.place_of_user hpcu, hgoes.op hop⟩
    · rintro ⟨op, r, -, hidle⟩
      obtain rfl := PC.user.inj (hpc'.symm.trans hidle)
      cases hgoes.holds.2
  · rcases Machine.reach_returns safe not_held_idle hr hprogress with hsame |
      ⟨a, call, hat, hcall, hnext⟩
    · refine .stays ?_ ?_ (fun q op hat hop => ⟨q, ?_, hop⟩) ?_
      · cases hin : (sections capacity).inside s l.thread with
        | none => exact effects_stays (.inl hin)
        | some p =>
          have hin' : (sections capacity).inside s' l.thread = some p :=
            (inside_of_pc hsame).trans hin
          refine effects_stays (.inr ?_)
          rw [hin']
          exact Option.some_ne_none p
      · unfold pending
        rw [hsame]
      · rwa [Machine.place, ← hsame]
      · rintro ⟨op, r, hplace, hidle⟩
        rw [Machine.place, ← hsame, hidle] at hplace
        cases hplace
    · by_cases hleave : ∃ op r, a = .leave op r
      · obtain ⟨op, r, rfl⟩ := hleave
        refine leave_progresses hserial hcalled hcalled' hat (hnext.imp_right fun hreturns => ?_)
        obtain ⟨r', -, hthrew, hpc'⟩ := hreturns
        rw [hpc']
        cases r' with
        | threw e => exact absurd rfl (hthrew e)
        | _ => rfl
      · refine call_progresses hserial hat hcall (fun op r heq => hleave ⟨op, r, heq⟩)
          (hnext.imp_right fun hreturns => ?_)
        obtain ⟨r, -, -, hpc'⟩ := hreturns
        exact ⟨r, hpc'⟩

/-! ### Every run -/

/-- What is true of the calls while the threads run. -/
structure Accounts (s : State V τ) (h : Serial.View.History τ (Pos V) (Data V))
    (c : Calls V τ) : Prop where
  order : ∀ t, ofThread t (effects h) = ofThread t (c.returned.map (·.toAnswer)) ++
    (pending s t).toList
  inTime : ∀ x ∈ c.returned, ∃ i, x.since ≤ i ∧ i < x.upto ∧ (effects h)[i]? = some x.toAnswer
  running : ∀ t x, pending s t = some x → ∃ n i, c.current t = some (x.op, n) ∧ n ≤ i ∧
    (effects h)[i]? = some x
  begun : ∀ t p op, Machine.place s t = some p → p.op = some op →
    ∃ n, c.current t = some (op, n) ∧ n ≤ (effects h).length

variable {c : Calls V τ} {h' : Serial.View.History τ (Pos V) (Data V)}

theorem record_keeps (hbegin : ∀ t op, l ≠ .act t (.begin op))
    (hreturns : ¬ ∃ op r, Machine.place s l.thread = some (.leave op r) ∧
      s'.pc l.thread = .user .idle) :
    c.record (s, h) l (s', h') = c := by
  have hmatch : c.record (s, h) l (s', h') = match Machine.place s l.thread, s'.pc l.thread with
      | some (.leave _ r), .user .idle => ⟨Function.update c.current l.thread none, c.returned ++
          (c.current l.thread).toList.map fun b => ⟨⟨l.thread, b.1, r⟩, b.2, (effects h').length⟩⟩
      | _, _ => c := by
    cases l with
    | act t o =>
      cases o with
      | begin op => exact absurd rfl (hbegin t op)
      | go => rfl
    | _ => rfl
  rw [hmatch]
  split
  · exact absurd ⟨_, _, ‹_›, ‹_›⟩ hreturns
  · rfl

theorem record_returns (hbegin : ∀ t op, l ≠ .act t (.begin op)) {op : Op V}
    {r : Result V} {n : Nat}
    (hplace : Machine.place s l.thread = some (.leave op r)) (hpc' : s'.pc l.thread = .user .idle)
    (hcurrent : c.current l.thread = some (op, n)) :
    c.record (s, h) l (s', h') = ⟨Function.update c.current l.thread none,
      c.returned ++ [⟨⟨l.thread, op, r⟩, n, (effects h').length⟩]⟩ := by
  cases l with
  | act t o =>
    cases o with
    | begin op => exact absurd rfl (hbegin t op)
    | go => simp only [Calls.record, hplace, hpc', hcurrent, Option.toList_some,
        List.map_cons, List.map_nil]
  | _ => simp only [Calls.record, hplace, hpc', hcurrent, Option.toList_some,
      List.map_cons, List.map_nil]

theorem ofThread_append (t : τ) (xs ys : List (Answer V τ)) :
    ofThread t (xs ++ ys) = ofThread t xs ++ ofThread t ys :=
  List.filter_append xs ys

theorem ofThread_self (x : Answer V τ) : ofThread x.thread [x] = [x] := by
  simp [ofThread]

theorem ofThread_ne {t : τ} {x : Answer V τ} (ht : t ≠ x.thread) : ofThread t [x] = [] := by
  simp [ofThread, Ne.symm ht]

omit [DecidableEq τ] in
/-- An operation that has taken effect keeps its place in the order. -/
theorem still {xs : List (Answer V τ)} {i : Nat} {x : Answer V τ} (hx : xs[i]? = some x)
    (ys : List (Answer V τ)) :
    (xs ++ ys)[i]? = some x := by
  obtain ⟨hi, -⟩ := List.getElem?_eq_some_iff.mp hx
  rw [List.getElem?_append_left hi, hx]

section Threads

variable {t : τ} {op : Op V} {r : Result V}

omit [DecidableEq τ] in
theorem pending_of_ne {u : τ} (hother : ∀ u, u ≠ t → s'.pc u = s.pc u) (hu : u ≠ t) :
    pending s' u = pending s u := by
  unfold pending
  rw [hother u hu]

omit [DecidableEq τ] in
theorem place_of_ne {u : τ} (hother : ∀ u, u ≠ t → s'.pc u = s.pc u) (hu : u ≠ t) :
    Machine.place s' u = Machine.place s u := by
  rw [Machine.place, Machine.place, hother u hu]

omit [DecidableEq τ] in
theorem pending_yielding (hpc : s.pc t = .yielding (.leave op r)) :
    pending s t = some ⟨t, op, r⟩ := by
  rw [pending, hpc]
  rfl

theorem Accounts.commits (haccounts : Accounts s h c) (hpc : s.pc t = .user (.leave op r))
    (hother : ∀ u, u ≠ t → s'.pc u = s.pc u)
    (heffects : effects h' = effects h ++ [⟨t, op, r⟩]) (hpc' : s'.pc t = .yielding (.leave op r)) :
    Accounts s' h' c := by
  have hbefore : pending s t = none := pending_none fun op r heq => by cases hpc.symm.trans heq
  have hafter := pending_yielding hpc'
  have hbegun := haccounts.begun t _ op (Machine.place_of_user hpc) rfl
  refine ⟨fun u => ?_, fun x hx => ?_, fun u x hx => ?_, fun u p op' hp hop => ?_⟩
  · have horder := haccounts.order u
    rw [heffects, ofThread_append, horder]
    by_cases hu : u = t
    · subst hu
      rw [hbefore, hafter, ofThread_self ⟨u, op, r⟩, Option.toList_none, List.append_nil,
        Option.toList_some]
    · rw [pending_of_ne hother hu, ofThread_ne hu, List.append_nil]
  · obtain ⟨i, hsince, hupto, hi⟩ := haccounts.inTime x hx
    exact ⟨i, hsince, hupto, by rw [heffects]; exact still hi _⟩
  · by_cases hu : u = t
    · subst hu
      obtain rfl := Option.some.inj (hafter.symm.trans hx)
      obtain ⟨n, hcurrent, hn⟩ := hbegun
      exact ⟨n, _, hcurrent, hn, by rw [heffects, List.getElem?_concat_length]⟩
    · obtain ⟨n, i, hcurrent, hn, hi⟩ :=
        haccounts.running u x ((pending_of_ne hother hu).symm.trans hx)
      exact ⟨n, i, hcurrent, hn, by rw [heffects]; exact still hi _⟩
  · have hlength : (effects h').length = (effects h).length + 1 := by
      rw [heffects, List.length_append, List.length_singleton]
    by_cases hu : u = t
    · subst hu
      obtain rfl : Pos.leave op r = p := by
        rw [Machine.place, hpc'] at hp
        exact Option.some.inj hp
      obtain rfl := Option.some.inj hop
      obtain ⟨n, hcurrent, hn⟩ := hbegun
      exact ⟨n, hcurrent, by omega⟩
    · obtain ⟨n, hcurrent, hn⟩ :=
        haccounts.begun u p op' ((place_of_ne hother hu).symm.trans hp) hop
      exact ⟨n, hcurrent, by omega⟩

theorem Accounts.returns (haccounts : Accounts s h c) (hpc : s.pc t = .yielding (.leave op r))
    (hother : ∀ u, u ≠ t → s'.pc u = s.pc u)
    (heffects : effects h' = effects h) (hpc' : s'.pc t = .user .idle) :
    ∃ n, c.current t = some (op, n) ∧
      Accounts s' h' ⟨Function.update c.current t none,
        c.returned ++ [⟨⟨t, op, r⟩, n, (effects h').length⟩]⟩ := by
  have hbefore := pending_yielding hpc
  have hafter : pending s' t = none := pending_none fun op r heq => by cases hpc'.symm.trans heq
  obtain ⟨n, i, hcurrent, hn, hi⟩ := haccounts.running t _ hbefore
  refine ⟨n, hcurrent, fun u => ?_, fun x hx => ?_, fun u x hx => ?_, fun u p op' hp hop => ?_⟩
  · have horder := haccounts.order u
    rw [heffects, horder, List.map_append, ofThread_append]
    by_cases hu : u = t
    · subst hu
      rw [hbefore, hafter, Option.toList_none, List.append_nil]
      exact congrArg _ (ofThread_self ⟨u, op, r⟩).symm
    · rw [pending_of_ne hother hu, List.map_cons, List.map_nil, ofThread_ne hu, List.append_nil]
  · rw [heffects]
    rcases List.mem_append.mp hx with hx | hx
    · exact haccounts.inTime x hx
    · obtain rfl := List.mem_singleton.mp hx
      exact ⟨i, hn, heffects ▸ (List.getElem?_eq_some_iff.mp hi).1, hi⟩
  · by_cases hu : u = t
    · subst hu
      cases hafter.symm.trans hx
    · obtain ⟨m, j, hcurrent', hm, hj⟩ :=
        haccounts.running u x ((pending_of_ne hother hu).symm.trans hx)
      exact ⟨m, j, (Function.update_of_ne hu _ _).trans hcurrent', hm, by rw [heffects, hj]⟩
  · by_cases hu : u = t
    · subst hu
      obtain rfl := Option.some.inj ((Machine.place_of_user hpc').symm.trans hp)
      cases hop
    · obtain ⟨m, hcurrent', hm⟩ :=
        haccounts.begun u p op' ((place_of_ne hother hu).symm.trans hp) hop
      exact ⟨m, (Function.update_of_ne hu _ _).trans hcurrent', by rwa [heffects]⟩

theorem Accounts.begins (haccounts : Accounts s h c) (hpc : s.pc t = .user .idle)
    (hother : ∀ u, u ≠ t → s'.pc u = s.pc u)
    (heffects : effects h' = effects h) (hpc' : s'.pc t = .user (.lock op)) :
    Accounts s'
    h' { c with current := Function.update c.current t (some (op, (effects h).length)) } := by
  have hbefore : pending s t = none := pending_none fun op r heq => by cases hpc.symm.trans heq
  have hafter : pending s' t = none := pending_none fun op r heq => by cases hpc'.symm.trans heq
  have hsame : ∀ u, pending s' u = pending s u := fun u => by
    by_cases hu : u = t
    · rw [hu, hbefore, hafter]
    · exact pending_of_ne hother hu
  refine ⟨fun u => ?_, fun x hx => ?_, fun u x hx => ?_, fun u p op' hp hop => ?_⟩
  · rw [heffects, hsame]
    exact haccounts.order u
  · rw [heffects]
    exact haccounts.inTime x hx
  · rw [hsame] at hx
    have hu : u ≠ t := by
      rintro rfl
      cases hbefore.symm.trans hx
    obtain ⟨n, i, hcurrent, hn, hi⟩ := haccounts.running u x hx
    exact ⟨n, i, (Function.update_of_ne hu _ _).trans hcurrent, hn, by rw [heffects, hi]⟩
  · rw [heffects]
    by_cases hu : u = t
    · subst hu
      obtain rfl := Option.some.inj ((Machine.place_of_user hpc').symm.trans hp)
      obtain rfl := Option.some.inj hop
      exact ⟨_, Function.update_self .., Nat.le_refl _⟩
    · obtain ⟨n, hcurrent, hn⟩ :=
        haccounts.begun u p op' ((place_of_ne hother hu).symm.trans hp) hop
      exact ⟨n, (Function.update_of_ne hu _ _).trans hcurrent, hn⟩

end Threads

theorem Accounts.progresses (haccounts : Accounts s h c)
    (hother : ∀ u, u ≠ l.thread → s'.pc u = s.pc u)
    (hbegin : ∀ t op, l ≠ .act t (.begin op)) (hprogress : Progresses s s' h h' l.thread) :
    Accounts s' h' (c.record (s, h) l (s', h')) := by
  cases hprogress with
  | stays heffects hsame hop hreturns =>
    rw [record_keeps hbegin hreturns]
    have hsame : ∀ u, pending s' u = pending s u := fun u => by
      by_cases hu : u = l.thread
      · rw [hu, hsame]
      · exact pending_of_ne hother hu
    refine ⟨fun t => ?_, fun x hx => ?_, fun t x hx => ?_, fun t p op hp hpop => ?_⟩
    · rw [heffects, hsame]
      exact haccounts.order t
    · rw [heffects]
      exact haccounts.inTime x hx
    · rw [heffects]
      exact haccounts.running t x ((hsame t).symm.trans hx)
    · rw [heffects]
      by_cases ht : t = l.thread
      · subst ht
        obtain ⟨q, hq, hqop⟩ := hop p op hp hpop
        exact haccounts.begun _ q op hq hqop
      · exact haccounts.begun t p op ((place_of_ne hother ht).symm.trans hp) hpop
  | @commits op r hpc heffects hpc' =>
    rw [record_keeps hbegin fun ⟨_, _, _, hidle⟩ => by cases hpc'.symm.trans hidle]
    exact haccounts.commits hpc hother heffects hpc'
  | @finishes op r hpc heffects hpc' =>
    -- the two parts of the step, one after the other
    have hmid : ∀ u, u ≠ l.thread → (s.setPc l.thread (.yielding (.leave op r))).pc u = s.pc u :=
      fun u hu =>
      Function.update_of_ne hu _ _
    have hself : (s.setPc l.thread (.yielding (.leave op r))).pc l.thread =
      .yielding (.leave op r) := Function.update_self ..
    obtain ⟨n, hcurrent, hreturned⟩ := (haccounts.commits hpc hmid heffects hself).returns hself
      (fun u hu => (hother u hu).trans (hmid u hu).symm) rfl hpc'
    rw [record_returns hbegin (Machine.place_of_user hpc) hpc' hcurrent]
    exact hreturned
  | @returns op r hpc heffects hpc' =>
    obtain ⟨n, hcurrent, hreturned⟩ := haccounts.returns hpc hother heffects hpc'
    rw [record_returns hbegin (by rw [Machine.place, hpc]; rfl) hpc' hcurrent]
    exact hreturned

theorem reach_serial {ok : Observed V τ → Label V τ → Prop} {sh : Observed V τ}
    (hr : ((system capacity autoOpen).withHistory .start (sections capacity).record).Reach ok sh) :
    (sections capacity).Serializes ⟨autoOpen, []⟩ sh.1 sh.2 :=
  (Machine.takesTurns sectioned fun _ => rfl).reach_serializes hr

theorem reach_accounts {ok : Observed V τ × Calls V τ → Label V τ → Prop}
    {shc : Observed V τ × Calls V τ}
    (hr : (observed capacity autoOpen).Reach ok shc) : Accounts shc.1.1 shc.1.2 shc.2 := by
  refine hr.invariant (I := fun shc => Accounts shc.1.1 shc.1.2 shc.2) ?_ ?_
  · rintro ⟨⟨s, h⟩, c⟩ ⟨⟨hs, hh⟩, hc⟩
    cases hs
    cases hh
    cases hc
    exact ⟨fun _ => rfl, fun x hx => absurd hx List.not_mem_nil, fun t x hx => (by cases hx),
      fun t p op hp hop => by cases hp; cases hop⟩
  · rintro ⟨⟨s, h⟩, c⟩ l shc' hr haccounts - hstep
    obtain ⟨sh', hsh', rfl⟩ := TransitionSystem.withHistory_step.mp hstep
    obtain ⟨s', hs', rfl⟩ := TransitionSystem.withHistory_step.mp hsh'
    have hreach := hr.forget.forget
    have hother : ∀ u, u ≠ l.thread → s'.pc u = s.pc u := fun u hu =>
      (Machine.step_move (Machine.reach_inv hreach) hs').pc_ne (Machine.reach_called hreach) hu
    by_cases hbegin : ∃ t op, l = .act t (.begin op)
    · obtain ⟨t, op, rfl⟩ := hbegin
      rcases reach_cases hreach hs' with ⟨u, op', hl, hpc, hpc', -⟩ | ⟨u, p, q, hl, -⟩ | ⟨hl, -⟩
      · cases hl
        have hin : (sections capacity).inside s t = none := inside_of_pc hpc
        exact haccounts.begins hpc hother (effects_stays (.inl hin))
          (hpc' ▸ Function.update_self ..)
      · cases hl
      · exact absurd rfl (hl t _)
    · exact haccounts.progresses hother (fun t op heq => hbegin ⟨t, op, heq⟩)
        (reach_progresses hreach (reach_serial hr.forget) hs' fun t op heq => hbegin ⟨t, op, heq⟩)

/-- The queue is linearizable: every run is a sequential run of its operations, in an order in which
each takes effect between its begin and its return. -/
theorem linearizes {shc : Observed V τ × Calls V τ}
    (hr : (observed capacity autoOpen).Reachable shc) :
    Linearizes capacity ⟨autoOpen, []⟩ shc.1.1 shc.1.2 shc.2 where
  legal := legal (reach_serial hr.forget)
  order := (reach_accounts hr).order
  inTime := (reach_accounts hr).inTime
  running := (reach_accounts hr).running

/-- The `pop` of thread 1 begins first and takes effect second: it waits for the `push` of thread
0. -/
theorem linearizes_waited : ∃ shc : Observed Nat (Fin 2) × Calls Nat (Fin 2),
    Linearizes 1 ⟨true, []⟩ shc.1.1 shc.1.2 shc.2 ∧
    effects shc.1.2 = [⟨0, .push 7, .bool true⟩, ⟨1, .pop, .popped 7⟩] ∧
    shc.2.returned = [⟨⟨0, .push 7, .bool true⟩, 0, 1⟩, ⟨⟨1, .pop, .popped 7⟩, 0, 2⟩] := by
  let labels : List (Label Nat (Fin 2)) :=
    [.act 1 (.begin .pop), .call 1 false, .act 1 .go, .act 1 .go, .call 1 false, .proceed 1 false,
      .act 0 (.begin (.push 7)), .call 0 false, .act 0 .go, .act 0 .go, .act 0 .go, .act 0 .go,
      .call 0 false, .deliver 0, .wake 0, .call 0 false, .deliver 1, .wake 1, .proceed 1 false,
      .act 1 .go, .act 1 .go, .act 1 .go, .call 1 false, .call 1 false]
  have hreach := (observed 1 true).reach_of_run (fun _ _ => true)
    ((Machine.initial (fun _ => .idle) ⟨true, []⟩, .start), .start)
    ⟨⟨rfl, rfl⟩, rfl⟩ labels rfl
  exact ⟨_, linearizes hreach.reachable, rfl, rfl⟩

end Queue

end GreenThread
