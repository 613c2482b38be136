import GreenThread.Queue.Statements

/-!
# Conservation of the elements

What is pushed is popped in the same order, or is still in the queue. An operation that fails has
changed nothing, nothing is pushed into a closed queue, and `pop` fails only while the queue is
closed and empty.
-/

namespace GreenThread

namespace Queue

variable {V τ : Type} [DecidableEq τ]

/-- The element that the statement pushes. -/
def Pos.accepts : Pos V → Option V
  | .insert _ v _ => some v
  | _ => none

/-- The element that the statement takes from the queue for the thread. -/
def Pos.hands : Pos V → Pos V → Option V
  | .take _, .taken _ v => some v
  | _, _ => none

def accepts (s : State V τ) : Label V τ → Option V
  | .act t .go =>
    match s.pc t with
    | .user p => p.accepts
    | _ => none
  | _ => none

def hands (s s' : State V τ) : Label V τ → Option V
  | .act t .go =>
    match s.pc t, s'.pc t with
    | .user p, .user q => p.hands q
    | _, _ => none
  | _ => none

/-- The elements pushed and popped so far, those pushed while the queue was closed, and the threads
whose operation has changed the queue or `opened_`. -/
structure Log (V τ : Type) where
  accepted : List V
  handed : List V
  whileClosed : List V
  touched : τ → Prop

def Log.start : Log V τ := ⟨[], [], [], fun _ => False⟩

def record (h : Log V τ) (s : State V τ) (l : Label V τ) (s' : State V τ) : Log V τ where
  accepted := h.accepted ++ (accepts s l).toList
  handed := h.handed ++ (hands s s' l).toList
  whileClosed := h.whileClosed ++ if s.shared.opened then [] else (accepts s l).toList
  touched := fun t => (h.touched t ∧ s.pc t ≠ .user .idle) ∨ (t = l.thread ∧ s'.shared ≠ s.shared)

/-- The threads of one queue and the record of what they did. -/
def logged (capacity : Nat) (autoOpen : Bool) :
    TransitionSystem (State V τ × Log V τ) (Label V τ) :=
  (system capacity autoOpen).withHistory .start record

/-- The elements are conserved, and a failure is what it says. -/
structure Conserves (s : State V τ) (h : Log V τ) : Prop where
  elements : h.accepted = h.handed ++ s.shared.queue
  failed : ∀ t op r, s.pc t = .user (.leave op r) → op.fails r → ¬ h.touched t
  opened : h.whileClosed = []
  popped : ∀ t, s.pc t = .user (.leave .pop (.bool false)) →
    s.shared.queue = [] ∧ s.shared.opened = false

variable {capacity : Nat} {autoOpen : Bool} {s s' : State V τ} {l : Label V τ} {h : Log V τ}

/-! ### The steps of the system -/

omit [DecidableEq τ] in
theorem not_held_idle (t : τ) (m : Unit) : ¬ held ((fun _ => .idle : τ → Pos V) t) m :=
  Bool.false_ne_true

/-- A thread that has found something out about the queue is right as long as it has the mutex. -/
theorem reach_knows {ok : State V τ → Label V τ → Prop} (hr : (system capacity autoOpen).Reach ok s)
    {t : τ} {p : Pos V}
    (hpc : s.pc t = .user p) (hholds : p.holds = true) : p.knows capacity s.shared :=
  Machine.reach_informed guarded not_held_idle hr t p (by
    rw [hpc]
    exact ⟨rfl, hholds, .inl rfl⟩)

theorem knows_inside {ok : State V τ → Label V τ → Prop}
    (hr : (system capacity autoOpen).Reach ok s) {t : τ}
    {op : Op V} {rest : List V} (hat : (s.pc t).at = some (.inserted op rest)) :
    (Pos.inserted op rest).knows capacity s.shared := by
  refine Machine.reach_informed guarded not_held_idle hr t _ ⟨hat, rfl, .inr fun call hcall => ?_⟩
  cases hcall
  exact Option.some_ne_none _ |>.symm

theorem reach_cases {ok : State V τ → Label V τ → Prop} (hr : (system capacity autoOpen).Reach ok s)
    (hstep : (system capacity autoOpen).step s l = some s') :
    (∃ t op, l = .act t (.begin op) ∧ s.pc t = .user .idle ∧
      s'.pc = Function.update s.pc t (.user (.lock op)) ∧
      s'.shared = s.shared) ∨
    (∃ t p q, l = .act t .go ∧ s.pc t = .user p ∧ Goes capacity s.shared p q s'.shared ∧
      s'.pc = Function.update s.pc t (.user q)) ∨
    ((∀ t o, l ≠ .act t o) ∧ s'.shared = s.shared ∧ (∀ u, u ≠ l.thread → s'.pc u = s.pc u) ∧
      (s.pc l.thread).Progress (client capacity) (fun _ => true) s.mutex l.thread
      (s'.pc l.thread)) := by
  rcases Machine.reach_cases hr hstep with ⟨t, o, p, q, hl, hpc, hact, hpc', -⟩ | hinside
  · cases o with
    | begin op =>
      obtain ⟨rfl, rfl, hshared⟩ := act_begin hact
      exact .inl ⟨t, op, hl, hpc, hpc', hshared⟩
    | go => exact .inr (.inl ⟨t, p, q, hl, hpc, act_go hact, hpc'⟩)
  · exact .inr (.inr hinside)

/-! ### What a failing operation has not done -/

/-- Positions of an operation that has changed nothing, if it can still fail. -/
def Pos.clean : Pos V → Prop
  | .lock _ | .enter _ | .loop _ _ | .wait _ | .recheck _ _ | .test _ | .take _ => True
  | .more op rest => ∃ vs, op = .pushSome vs ∧ rest.length = vs.length
  | .leave op r => op.fails r
  | _ => False

theorem Op.not_fails {op : Op V} {r : Result V} (hfalse : r ≠ .bool false)
    (hrest : ∀ vs, r ≠ .rest vs) :
    ¬ op.fails r := by
  rintro (heq | ⟨vs, -, heq⟩)
  · exact hfalse heq
  · exact hrest vs heq

theorem Goes.clean {d d' : Data V} {p q : Pos V} (hgoes : Goes capacity d p q d')
    (hclean : q.clean) :
    p.clean ∧ d' = d := by
  cases hgoes with
  | opens => exact absurd hclean (Op.not_fails nofun fun _ => nofun)
  | closes | pushes | testPushes | continues | inserts | takes | underflows => exact hclean.elim
  | rejects | begins | tests | iterates | blocks | passes | gives | pops | refuses
  | testPops => exact ⟨trivial, rfl⟩
  | ends hr =>
    refine ⟨?_, rfl⟩
    rcases hclean with rfl | ⟨vs, rfl, rfl⟩
    · rcases hr with heq | ⟨vs, -, heq⟩ <;> cases heq
    · rcases hr with heq | ⟨vs', -, heq⟩
      · cases heq
      · obtain rfl := Result.rest.inj heq
        exact ⟨_, rfl, rfl⟩
  | stops =>
    refine ⟨?_, rfl⟩
    rcases hclean with heq | ⟨vs, hop, heq⟩
    · cases heq
    · rw [Result.rest.inj heq]
      exact ⟨vs, hop, rfl⟩

theorem clean_of_ret {a : Pos V} {r : Ret} {call : Call Unit Cv} (hcall : a.call = some call)
    (hclean : (a.ret r).clean)
    (hpushed : ∀ vs rest, a = .inserted (.pushSome vs) rest → rest.length < vs.length) :
    a.clean := by
  cases r with
  | threw e =>
    rw [ret_threw] at hclean
    exact hclean.elim
  | _ =>
    cases a with
    | lock op | wait op => trivial
    | inserted op rest =>
      cases op with
      | pushSome vs =>
        obtain ⟨vs', hop, hlength⟩ := hclean
        cases hop
        exact absurd hlength (Nat.ne_of_lt (hpushed _ _ rfl))
      | pushAll vs =>
        obtain ⟨vs', hop, -⟩ := hclean
        cases hop
      | _ => exact absurd hclean (Op.not_fails nofun fun _ => nofun)
    | taken op v => exact absurd hclean (Op.not_fails nofun fun _ => nofun)
    | closing c =>
      cases c with
      | full => exact hclean.elim
      | empty => exact absurd hclean (Op.not_fails nofun fun _ => nofun)
    | leave op r => exact hclean.elim
    | _ => cases hcall

/-- An operation at a clean position has changed nothing. -/
def Clean (s : State V τ) (h : Log V τ) :
    Prop := ∀ t a, (s.pc t).at = some a → a.clean → ¬ h.touched t

theorem Clean.step (hcleans : Clean s h) {ok : State V τ → Label V τ → Prop}
    (hr : (system capacity autoOpen).Reach ok s)
    (hstep : (system capacity autoOpen).step s l = some s') : Clean s' (record h s l s') := by
  intro t a hat hclean htouched
  rcases reach_cases hr hstep with ⟨u, op, rfl, hpcu, hpc, hshared⟩ |
    ⟨u, p, q, rfl, hpcu, hgoes, hpc⟩ |
      ⟨hl, hshared, hother, hprogress⟩
  · rcases htouched with ⟨htouched, hidle⟩ | ⟨-, hchanged⟩
    · by_cases htu : t = u
      · exact hidle (htu ▸ hpcu)
      · rw [hpc, Function.update_of_ne htu] at hat
        exact hcleans t a hat hclean htouched
    · exact hchanged hshared
  · by_cases htu : t = u
    · subst htu
      rw [hpc, Function.update_self] at hat
      obtain rfl := Option.some.inj hat
      obtain ⟨hbefore, hsame⟩ := hgoes.clean hclean
      rcases htouched with ⟨htouched, -⟩ | ⟨-, hchanged⟩
      · exact hcleans t p (by rw [hpcu]; rfl) hbefore htouched
      · exact hchanged hsame
    · rw [hpc, Function.update_of_ne htu] at hat
      rcases htouched with ⟨htouched, -⟩ | ⟨heq, -⟩
      · exact hcleans t a hat hclean htouched
      · exact htu heq
  · have htouched : h.touched t := by
      rcases htouched with ⟨htouched, -⟩ | ⟨-, hchanged⟩
      · exact htouched
      · exact absurd hshared hchanged
    by_cases htl : t = l.thread
    · subst htl
      rcases hprogress with hsame | ⟨b, call, hatb, hcall, ⟨hin, -⟩ | ⟨r, -, -, hpc'⟩⟩
      · rw [hsame] at hat
        exact hcleans _ a hat hclean htouched
      · obtain rfl := Option.some.inj (hin.symm.trans hat)
        exact hcleans _ b hatb hclean htouched
      · rw [hpc'] at hat
        obtain rfl := Option.some.inj hat
        refine hcleans _ b hatb (clean_of_ret hcall hclean ?_) htouched
        rintro vs rest rfl
        obtain ⟨-, hpushed⟩ := knows_inside hr hatb
        exact hpushed vs rfl
    · rw [hother t htl] at hat
      exact hcleans t a hat hclean htouched

/-! ### The elements -/

theorem Goes.elements {d d' : Data V} {p q : Pos V} (hgoes : Goes capacity d p q d') :
    d.queue ++ p.accepts.toList = (p.hands q).toList ++ d'.queue := by
  cases hgoes with
  | inserts => rfl
  | takes hqueue =>
    rw [hqueue]
    exact List.append_nil _
  | _ => exact List.append_nil _

theorem Pos.opened_of_accepts {d : Data V} {p : Pos V}
    (hknows : p.holds = true → p.knows capacity d)
    (hclosed : d.opened = false) : p.accepts = none := by
  cases p with
  | insert op v rest =>
    obtain ⟨hopened, -⟩ := hknows rfl
    exact Bool.noConfusion (hopened.symm.trans hclosed)
  | _ => rfl

omit [DecidableEq τ] in
theorem record_begin (h : Log V τ) (s s' : State V τ) (t : τ) (op : Op V) :
    (record h s (.act t (.begin op)) s').accepted = h.accepted ∧
    (record h s (.act t (.begin op)) s').handed = h.handed ∧
    (record h s (.act t (.begin op)) s').whileClosed = h.whileClosed := by
  refine ⟨List.append_nil _, List.append_nil _, ?_⟩
  simp [record, accepts]

omit [DecidableEq τ] in
theorem record_go {t : τ} {p q : Pos V} (hpc : s.pc t = .user p) (hpc' : s'.pc t = .user q) :
    (record h s (.act t .go) s').accepted = h.accepted ++ p.accepts.toList ∧
    (record h s (.act t .go) s').handed = h.handed ++ (p.hands q).toList ∧
    (record h s (.act t .go) s').whileClosed = h.whileClosed ++ if s.shared.opened then []
    else p.accepts.toList := by
  simp only [record, accepts, hands, hpc, hpc']
  exact ⟨trivial, trivial, trivial⟩

omit [DecidableEq τ] in
theorem record_quiet (h : Log V τ) (s s' : State V τ) (hl : ∀ t o, l ≠ .act t o) :
    (record h s l s').accepted = h.accepted ∧
    (record h s l s').handed = h.handed ∧ (record h s l s').whileClosed = h.whileClosed := by
  cases l with
  | act t o => exact absurd rfl (hl t o)
  | _ => simp [record, accepts, hands]

/-- The elements are conserved, and none is pushed while the queue is closed. -/
theorem reach_elements {ok : State V τ × Log V τ → Label V τ → Prop} {sh : State V τ × Log V τ}
    (hr : (logged capacity autoOpen).Reach ok sh) :
    sh.2.accepted = sh.2.handed ++ sh.1.shared.queue ∧ sh.2.whileClosed = [] := by
  refine hr.invariant (I := fun sh => sh.2.accepted = sh.2.handed ++ sh.1.shared.queue ∧
    sh.2.whileClosed = []) ?_ ?_
  · rintro ⟨s, h⟩ ⟨hs, hh⟩
    cases hs
    cases hh
    exact ⟨rfl, rfl⟩
  · rintro ⟨s, h⟩ l sh' hr ⟨helements, hclosed⟩ - hstep
    obtain ⟨s', hs', rfl⟩ := TransitionSystem.withHistory_step.mp hstep
    have helements : h.accepted = h.handed ++ s.shared.queue := helements
    have hclosed : h.whileClosed = [] := hclosed
    show (record h s l s').accepted = (record h s l s').handed ++ s'.shared.queue ∧
      (record h s l s').whileClosed = []
    rcases reach_cases hr.forget hs' with ⟨t, op, rfl, -, -, hshared⟩ |
      ⟨t, p, q, rfl, hpcu, hgoes, hpc⟩ |
        ⟨hl, hshared, -⟩
    · obtain ⟨haccepted, hhanded, hwhile⟩ := record_begin h s s' t op
      rw [haccepted, hhanded, hwhile, hshared]
      exact ⟨helements, hclosed⟩
    · obtain ⟨haccepted, hhanded, hwhile⟩ := record_go (h := h) hpcu (hpc ▸ Function.update_self ..)
      rw [haccepted, hhanded, hwhile, helements, List.append_assoc, hgoes.elements,
        List.append_assoc, hclosed]
      refine ⟨rfl, ?_⟩
      cases hopened : s.shared.opened with
      | true => rfl
      | false =>
        have hnone := Pos.opened_of_accepts (p := p)
          (fun hholds => reach_knows hr.forget hpcu hholds) hopened
        rw [hnone]
        rfl
    · obtain ⟨haccepted, hhanded, hwhile⟩ := record_quiet h s s' hl
      rw [haccepted, hhanded, hwhile, hshared]
      exact ⟨helements, hclosed⟩

theorem reach_clean {ok : State V τ × Log V τ → Label V τ → Prop} {sh : State V τ × Log V τ}
    (hr : (logged capacity autoOpen).Reach ok sh) : Clean sh.1 sh.2 := by
  refine hr.invariant (I := fun sh => Clean sh.1 sh.2) ?_ ?_
  · rintro ⟨s, h⟩ ⟨hs, hh⟩
    cases hs
    cases hh
    exact fun t a _ _ htouched => htouched
  · rintro ⟨s, h⟩ l sh' hr hcleans - hstep
    obtain ⟨s', hs', rfl⟩ := TransitionSystem.withHistory_step.mp hstep
    exact Clean.step hcleans hr.forget hs'

/-- `front()` is never called on an empty queue. -/
theorem no_underflow (hr : (system capacity autoOpen).Reachable s) (t : τ) :
    s.pc t ≠ .user .undefined :=
  fun hpc => reach_knows hr hpc rfl

end Queue

end GreenThread
