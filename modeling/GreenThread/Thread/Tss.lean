import GreenThread.Library.System
import Mathlib.Data.List.AList

/-!
# Thread specific pointers

`thread_specific_ptr` keeps one pointer for each green thread in that thread's `fss_` map, and
`set_tss_data` inserts, replaces, removes and releases through its null arguments and a flag. The
run of one thread is followed through any calls on any `thread_specific_ptr` objects and through its
exit, beside a ledger of the pointers it installed: which are still held, which `release` gave back,
and which came to their end and are to be cleaned up once.
-/

namespace GreenThread.Tss

variable {κ γ π : Type*} [DecidableEq κ]

/-- `fss_map_t`: for the address of a `thread_specific_ptr`, its cleanup function and the pointer,
either of which may be null. -/
abbrev FssMap (κ γ π : Type*) := AList fun _ : κ => Option γ × Option π

/-- The call of an entry's cleanup function, if it has one. -/
def cleanupExisting (fss : FssMap κ γ π) (key : κ) : List (γ × Option π) :=
  match fss.lookup key with
  | some (some func, data) => [(func, data)]
  | _ => []

/-- `set_tss_data`, with the calls of cleanup functions it makes. -/
def setTssData (fss : FssMap κ γ π) (key : κ) (func : Option γ) (fssData : Option π)
    (existing : Bool) :
    FssMap κ γ π × List (γ × Option π) :=
  if func.isNone && fssData.isNone then
    -- This branch calls the cleanup function whatever the flag says.
    match fss.lookup key with
    | some _ => (fss.erase key, cleanupExisting fss key)
    | none => (fss, [])
  else (fss.insert key (func, fssData), if existing then cleanupExisting fss key else [])

/-- `get_tss_data`. -/
def getTssData (fss : FssMap κ γ π) (key : κ) : Option π := (fss.lookup key).bind (·.2)

/-- The part of `cleaner::~cleaner` that walks the map when the thread function is over. -/
def exitCalls (fss : FssMap κ γ π) : List (γ × Option π) :=
  fss.entries.filterMap fun v =>
    match v.2.1, v.2.2 with
    | some func, some data => some (func, some data)
    | _, _ => none

/-- A green thread: its map, the `thread_specific_ptr` objects it can use with their cleanup
functions, and whether its function is over. -/
structure Thread (κ γ π : Type*) where
  fss : FssMap κ γ π := ∅
  objects : κ → Option (Option γ) := fun _ => none
  exited : Bool := false

inductive Op (κ γ π : Type*)
  | construct (key : κ) (cleanup : Option γ)
  | get (key : κ)
  | release (key : κ)
  | reset (key : κ) (newValue : Option π)
  | destroy (key : κ)
  | exit

/-- What the thread sees of a call: the cleanup functions called with their arguments, and the
pointer returned. -/
structure Reply (γ π : Type*) where
  calls : List (γ × Option π) := []
  value : Option π := none

namespace Thread

variable (t : Thread κ γ π)

/-- `thread_specific_ptr::release`. -/
def release (key : κ) : Thread κ γ π × Reply γ π :=
  let temp := getTssData t.fss key
  let (fss, calls) := setTssData t.fss key none none false
  ({ t with fss }, { calls, value := temp })

/-- `thread_specific_ptr::reset`, for an object with the given cleanup function. -/
def reset [DecidableEq π] (cleanup : Option γ) (key : κ) (newValue : Option π) :
    Thread κ γ π × Reply γ π :=
  let currentValue := getTssData t.fss key
  if currentValue ≠ newValue then
    let set := setTssData t.fss key cleanup newValue true
    ({ t with fss := set.1 }, { calls := set.2 })
  else (t, {})

/-- `thread_specific_ptr::~thread_specific_ptr`. -/
def destroy (key : κ) : Thread κ γ π × Reply γ π :=
  let (fss, calls) := setTssData t.fss key none none true
  ({ t with fss, objects := Function.update t.objects key none }, { calls })

/-- One call of the thread, if it may make it: on an object that exists, or for the construction of
one where there is none. -/
def call [DecidableEq π] : Op κ γ π → Option (Thread κ γ π × Reply γ π)
  | .construct key cleanup =>
    if t.objects key = none
      then some ({ t with objects := Function.update t.objects key (some cleanup) }, {}) else none
  | .get key => (t.objects key).map fun _ => (t, { value := getTssData t.fss key })
  | .release key => (t.objects key).map fun _ => t.release key
  | .reset key newValue => (t.objects key).map fun cleanup => t.reset cleanup key newValue
  | .destroy key => (t.objects key).map fun _ => t.destroy key
  | .exit => some ({ t with exited := true }, { calls := exitCalls t.fss })

/-- The calls of a thread that has not exited. -/
def next [DecidableEq π] (op : Op κ γ π) :
    Option (Thread κ γ π × Reply γ π) := if t.exited then none else t.call op

end Thread

def system (κ γ π : Type*) [DecidableEq κ] [DecidableEq π] :
    TransitionSystem (Thread κ γ π) (Op κ γ π) where
  init t := t = {}
  step t op := (t.next op).map (·.1)

/-! ### The pointers in the map -/

/-- A pointer installed by `reset`, with the object it was installed in and that object's cleanup
function. -/
structure Installation (κ γ π : Type*) where
  key : κ
  cleanup : Option γ
  pointer : π

/-- The call that is due when the installation ends. -/
def Installation.call (i : Installation κ γ π) : Option (γ × π) := i.cleanup.map (·, i.pointer)

/-- The installation an entry of the map stands for. -/
def ofEntry (v : Sigma fun _ : κ => Option γ × Option π) : Option (Installation κ γ π) :=
  v.2.2.map fun p => ⟨v.1, v.2.1, p⟩

def installations (fss : FssMap κ γ π) : List (Installation κ γ π) := fss.entries.filterMap ofEntry

theorem filterMap_kerase (key : κ) {vs : List (Sigma fun _ : κ => Option γ × Option π)}
    (hvs : vs.NodupKeys) :
    (vs.kerase key).filterMap ofEntry = (vs.filterMap ofEntry).filter (·.key ≠ key) := by
  induction vs with
  | nil => rfl
  | cons v vs ih =>
    obtain ⟨hnot, hvs⟩ := List.nodupKeys_cons.mp hvs
    have htail := ih hvs
    by_cases hkey : key = v.1
    · rw [List.kerase_of_notMem_keys (hkey ▸ hnot)] at htail
      rw [List.kerase_cons_eq hkey, htail]
      cases hv : v.2.2 <;> simp [ofEntry, hv, hkey]
    · rw [List.kerase_cons_ne hkey]
      cases hv : v.2.2 <;> simp [ofEntry, hv, htail, Ne.symm hkey]

omit [DecidableEq κ] in
theorem ofEntry_key {v : Sigma fun _ : κ => Option γ × Option π} {i : Installation κ γ π}
    (h : ofEntry v = some i) :
    i.key = v.1 := by
  obtain ⟨p, _, rfl⟩ := Option.map_eq_some_iff.mp h
  rfl

theorem filterMap_dlookup (key : κ) {vs : List (Sigma fun _ : κ => Option γ × Option π)}
    (hvs : vs.NodupKeys) :
    (vs.filterMap ofEntry).filter (·.key = key) =
    ((vs.dlookup key).bind fun e => ofEntry ⟨key, e⟩).toList := by
  induction vs with
  | nil => rfl
  | cons v vs ih =>
    obtain ⟨hnot, hvs⟩ := List.nodupKeys_cons.mp hvs
    have htail := ih hvs
    by_cases hkey : key = v.1
    · subst hkey
      rw [List.dlookup_eq_none.mpr hnot] at htail
      rw [List.dlookup_cons_eq, Option.bind_some]
      cases he : ofEntry v with
      | none => rw [List.filterMap_cons_none he, htail]; rfl
      | some i => rw [List.filterMap_cons_some he,
          List.filter_cons_of_pos (by simpa using ofEntry_key he), htail]; rfl
    · rw [List.dlookup_cons_ne _ _ hkey, ← htail]
      cases he : ofEntry v with
      | none => rw [List.filterMap_cons_none he]
      | some i =>
        have hne : i.key ≠ key := fun h => hkey (h.symm.trans (ofEntry_key he))
        rw [List.filterMap_cons_some he, List.filter_cons_of_neg (by simpa using hne)]

theorem installations_erase (fss : FssMap κ γ π) (key : κ) :
    installations (fss.erase key) = (installations fss).filter (·.key ≠ key) :=
  filterMap_kerase key fss.nodupKeys

theorem installations_insert (fss : FssMap κ γ π) (key : κ) (e : Option γ × Option π) :
    installations (fss.insert key e) = (ofEntry ⟨key, e⟩).toList ++ (installations fss).filter
    (·.key ≠ key) := by
  rw [← installations_erase, installations, AList.entries_insert, List.filterMap_cons]
  cases ofEntry ⟨key, e⟩ <;> rfl

theorem installations_lookup (fss : FssMap κ γ π) (key : κ) :
    (installations fss).filter (·.key = key) =
    ((fss.lookup key).bind fun e => ofEntry ⟨key, e⟩).toList :=
  filterMap_dlookup key fss.nodupKeys

/-! ### The ledger of installed pointers -/

variable [DecidableEq π]

/-- What a thread's calls should have done: the pointers they installed, the ones that are held,
were released or ended (replaced, destroyed with their object, or left at the exit), the cleanups
observed, and each pointer a call returned beside the one held at that time. -/
structure Ledger (κ γ π : Type*) where
  installed : List (Installation κ γ π) := []
  holding : List (Installation κ γ π) := []
  released : List (Installation κ γ π) := []
  ended : List (Installation κ γ π) := []
  cleaned : List (γ × π) := []
  got : List (Option π × Option π) := []

namespace Ledger

variable (l : Ledger κ γ π)

def current (key : κ) : List (Installation κ γ π) := l.holding.filter (·.key = key)

def others (key : κ) : List (Installation κ γ π) := l.holding.filter (·.key ≠ key)

/-- The pointer last installed in an object and not replaced or released since. -/
def held (key : κ) : Option π := (l.current key).head?.map (·.pointer)

def enter (op : Op κ γ π) (cleanup : Option γ) (value : Option π) : Ledger κ γ π :=
  match op with
  | .construct _ _ => l
  | .get key => { l with got := (value, l.held key) :: l.got }
  | .release key =>
    { l with
      got := (value, l.held key) :: l.got, released := l.current key ++ l.released
      holding := l.others key }
  | .reset key newValue =>
    if l.held key = newValue then l
    else
      let new := (newValue.map fun p => ⟨key, cleanup, p⟩).toList
      { l with
        installed := new ++ l.installed, ended := l.current key ++ l.ended
        holding := new ++ l.others key }
  | .destroy key => { l with ended := l.current key ++ l.ended, holding := l.others key }
  | .exit => { l with ended := l.holding ++ l.ended, holding := [] }

end Ledger

/-- The calls with a pointer that is not null. -/
def cleanups (calls : List (γ × Option π)) :
    List (γ × π) := calls.filterMap fun c => c.2.map (c.1, ·)

/-- The cleanup function of the object a call is made on. -/
def Thread.cleanupOf (t : Thread κ γ π) : Op κ γ π → Option γ
  | .reset key _ => (t.objects key).join
  | _ => none

def record (l : Ledger κ γ π) (t : Thread κ γ π) (op : Op κ γ π) (_ : Thread κ γ π) :
    Ledger κ γ π :=
  match t.call op with
  | some (_, reply) =>
    let l := l.enter op (t.cleanupOf op) reply.value
    { l with cleaned := cleanups reply.calls ++ l.cleaned }
  | none => l

/-- The runs of a thread with their ledger. -/
def audited (κ γ π : Type*) [DecidableEq κ] [DecidableEq π] :
    TransitionSystem (Thread κ γ π × Ledger κ γ π) (Op κ γ π) :=
  (system κ γ π).withHistory {} record

/-- Each pointer that was replaced, destroyed with its object or left at the exit was cleaned up
once, nothing else was, what a call returned is what was held, and no pointer is held after the
exit. -/
structure OwnsExactly (t : Thread κ γ π) (l : Ledger κ γ π) : Prop where
  installed : l.installed.Perm (l.ended ++ l.released ++ l.holding)
  cleaned : l.cleaned.Perm (l.ended.filterMap Installation.call)
  got : ∀ g ∈ l.got, g.1 = g.2
  exited : t.exited → l.holding = []

namespace Ledger

variable (l : Ledger κ γ π)

omit [DecidableEq π]

theorem current_perm_others (key : κ) : (l.current key ++ l.others key).Perm l.holding := by
  have h := List.filter_append_perm (fun i : Installation κ γ π => decide (i.key = key)) l.holding
  rw [current, others]
  simpa only [ne_eq, decide_not] using h

variable {l} {fss : FssMap κ γ π} (hfss : (installations fss).Perm l.holding) (key : κ)

include hfss

theorem others_perm : (installations (fss.erase key)).Perm (l.others key) := by
  rw [installations_erase]
  exact hfss.filter _

theorem insert_perm (e : Option γ × Option π) :
    (installations (fss.insert key e)).Perm ((ofEntry ⟨key, e⟩).toList ++ l.others key) := by
  rw [installations_insert]
  exact (hfss.filter _).append_left _

theorem current_eq : l.current key = ((fss.lookup key).bind fun e => ofEntry ⟨key, e⟩).toList := by
  have h : (((fss.lookup key).bind fun e => ofEntry ⟨key, e⟩).toList).Perm (l.current key) := by
    rw [← installations_lookup]
    exact hfss.filter _
  cases hentry : (fss.lookup key).bind fun e => ofEntry ⟨key, e⟩ with
  | none => rw [hentry] at h; exact h.nil_eq.symm
  | some i => rw [hentry] at h; exact List.perm_singleton.mp h.symm

theorem held_eq : l.held key = getTssData fss key := by
  rw [held, current_eq hfss, getTssData]
  rcases fss.lookup key with _ | ⟨_, _ | _⟩ <;> rfl

theorem cleanups_existing :
    cleanups (cleanupExisting fss key) = (l.current key).filterMap Installation.call := by
  rw [current_eq hfss, cleanupExisting]
  rcases fss.lookup key with _ | ⟨_ | _, _ | _⟩ <;> rfl

omit [DecidableEq κ] in
theorem cleanups_exit :
    (cleanups (exitCalls fss)).Perm (l.holding.filterMap Installation.call) := by
  have h : cleanups (exitCalls fss) = (installations fss).filterMap Installation.call := by
    rw [cleanups, exitCalls, installations, List.filterMap_filterMap, List.filterMap_filterMap]
    congr 1
    funext v
    rcases v with ⟨_, _ | _, _ | _⟩ <;> rfl
  rw [h]
  exact hfss.filterMap _

end Ledger

omit [DecidableEq π] in
theorem setTssData_remove (fss : FssMap κ γ π) (key : κ) (existing : Bool) :
    setTssData fss key none none existing = (fss.erase key, cleanupExisting fss key) := by
  cases hentry : fss.lookup key with
  | some e => simp [setTssData, hentry]
  | none =>
    have herase : fss.erase key = fss :=
      AList.ext (List.kerase_of_notMem_keys (AList.lookup_eq_none.mp hentry))
    simp [setTssData, hentry, cleanupExisting, herase]

/-! ### Every run of a thread -/

/-- Each installed pointer is in one place. -/
def Ledger.Balanced (l : Ledger κ γ π) :
    Prop := l.installed.Perm (l.ended ++ l.released ++ l.holding)

theorem Ledger.Balanced.enter {l : Ledger κ γ π} (h : l.Balanced) (op : Op κ γ π)
    (cleanup : Option γ)
    (value : Option π) : (l.enter op cleanup value).Balanced := by
  classical
  have hsplit (key : κ) (i : Installation κ γ π) := (l.current_perm_others key).count_eq i
  have hcount (i : Installation κ γ π) := h.count_eq i
  simp only [List.count_append] at hsplit hcount
  rw [Balanced, List.perm_iff_count]
  intro i
  cases op with
  | construct _ _ => simpa only [Ledger.enter, List.count_append] using hcount i
  | get _ => simpa only [Ledger.enter, List.count_append] using hcount i
  | release key =>
    have := hsplit key i
    have := hcount i
    simp only [Ledger.enter, List.count_append]
    omega
  | reset key newValue =>
    have := hsplit key i
    have := hcount i
    rw [Ledger.enter]
    split
    · simpa only [List.count_append] using hcount i
    · simp only [List.count_append]
      omega
  | destroy key =>
    have := hsplit key i
    have := hcount i
    simp only [Ledger.enter, List.count_append]
    omega
  | exit =>
    have := hcount i
    simp only [Ledger.enter, List.count_append, List.count_nil]
    omega

/-- What the map, the objects and the ledger have to do with each other in every run. The library
calls the cleanup function for the released pointers as for the ended ones. -/
structure Tracks (t : Thread κ γ π) (l : Ledger κ γ π) : Prop where
  held : t.exited = false → (installations t.fss).Perm l.holding
  owner : ∀ key e, t.fss.lookup key = some e → t.objects key = some e.1
  balanced : l.Balanced
  cleaned : l.cleaned.Perm
    (l.released.filterMap Installation.call ++ l.ended.filterMap Installation.call)
  got : ∀ g ∈ l.got, g.1 = g.2
  exited : t.exited → l.holding = []

theorem audited_step {t : Thread κ γ π} {l : Ledger κ γ π} {op : Op κ γ π}
    {sh' : Thread κ γ π × Ledger κ γ π} (h : (audited κ γ π).step (t, l) op = some sh') :
    t.exited = false ∧ ∃ t' reply, t.call op = some (t', reply) ∧
      sh' = (t', { l.enter op (t.cleanupOf op) reply.value with
        cleaned := cleanups reply.calls ++
          (l.enter op (t.cleanupOf op) reply.value).cleaned }) := by
  obtain ⟨t', ht', rfl⟩ := TransitionSystem.withHistory_step.mp h
  obtain ⟨⟨t', reply⟩, hnext, rfl⟩ := Option.map_eq_some_iff.mp ht'
  rw [Thread.next] at hnext
  split at hnext
  · cases hnext
  · next hexited => exact ⟨by simpa using hexited, t', reply, hnext, by rw [record, hnext]⟩

section Steps

variable {t : Thread κ γ π} {l : Ledger κ γ π} (h : Tracks t l) (hlive : t.exited = false)

include h

omit [DecidableEq π] in
theorem Tracks.owner_erase (key key' : κ) {e : Option γ × Option π}
    (hentry : (t.fss.erase key).lookup key' = some e) : key' ≠ key ∧ t.objects key' = some e.1 := by
  have hne : key' ≠ key := by
    intro heq
    rw [heq, AList.lookup_erase] at hentry
    cases hentry
  rw [AList.lookup_erase_ne hne] at hentry
  exact ⟨hne, h.owner key' e hentry⟩

omit [DecidableEq π] in
theorem Tracks.owner_insert {key : κ} {cleanup : Option γ} (hobject : t.objects key = some cleanup)
    (data : Option π) (key' : κ) (e : Option γ × Option π)
    (hentry : (t.fss.insert key (cleanup, data)).lookup key' = some e) :
    t.objects key' = some e.1 := by
  by_cases heq : key' = key
  · rw [heq, AList.lookup_insert] at hentry
    cases hentry
    rw [heq, hobject]
  · rw [AList.lookup_insert_ne heq] at hentry
    exact h.owner key' e hentry

include hlive

omit [DecidableEq π] in
theorem Tracks.got_held (key : κ) : getTssData t.fss key = l.held key :=
  (Ledger.held_eq (h.held hlive) key).symm

theorem Tracks.release (key : κ) :
    Tracks (t.release key).1 { l.enter (.release key) none (t.release key).2.value with
      cleaned := cleanups (t.release key).2.calls ++ l.cleaned } := by
  rw [Thread.release, setTssData_remove]
  have hheld := h.held hlive
  refine ⟨fun _ => Ledger.others_perm hheld key, fun key' e he => (h.owner_erase key key' he).2,
    h.balanced.enter (.release key) none none, ?_, ?_, fun hexited => ?_⟩
  · simp only [Ledger.enter, Ledger.cleanups_existing hheld, List.filterMap_append,
      List.append_assoc]
    exact h.cleaned.append_left _
  · intro g hg
    obtain rfl | hg := List.mem_cons.mp hg
    · exact h.got_held hlive key
    · exact h.got g hg
  · rw [hlive] at hexited
    cases hexited

theorem Tracks.destroy (key : κ) :
    Tracks (t.destroy key).1 { l.enter (.destroy key) none none with
      cleaned := cleanups (t.destroy key).2.calls ++ l.cleaned } := by
  rw [Thread.destroy, setTssData_remove]
  have hheld := h.held hlive
  refine ⟨fun _ => Ledger.others_perm hheld key, fun key' e he => ?_,
    h.balanced.enter (.destroy key) none none, ?_,
    h.got, fun hexited => ?_⟩
  · obtain ⟨hne, howner⟩ := h.owner_erase key key' he
    rw [← howner]
    exact Function.update_of_ne hne _ _
  · simp only [Ledger.enter, Ledger.cleanups_existing hheld, List.filterMap_append]
    exact (h.cleaned.append_left _).trans (List.perm_append_comm_assoc _ _ _)
  · rw [hlive] at hexited
    cases hexited

theorem Tracks.replace {key : κ} {cleanup : Option γ} (hobject : t.objects key = some cleanup)
    {newValue : Option π} (hnew : l.held key ≠ newValue) :
    Tracks { t with fss := (setTssData t.fss key cleanup newValue true).1 }
      { l.enter (.reset key newValue) cleanup none with
        cleaned := cleanups (setTssData t.fss key cleanup newValue true).2 ++ l.cleaned } := by
  have hheld := h.held hlive
  have hcleaned := (h.cleaned.append_left ((l.current key).filterMap Installation.call)).trans
    (List.perm_append_comm_assoc _ _ _)
  have hbalanced := h.balanced.enter (.reset key newValue) cleanup none
  rw [Ledger.enter, if_neg hnew] at hbalanced ⊢
  rw [setTssData]
  split
  · next hnull =>
    -- Without a cleanup function, `reset()` removes the entry.
    obtain ⟨rfl, rfl⟩ : cleanup = none ∧ newValue = none := by simpa using hnull
    have hremove := setTssData_remove t.fss key true
    rw [setTssData, if_pos (by rfl)] at hremove
    rw [hremove]
    refine ⟨fun _ => Ledger.others_perm hheld key, fun key' e he => (h.owner_erase key key' he).2,
      hbalanced, ?_,
      h.got, fun hexited => ?_⟩
    · simpa only [Ledger.cleanups_existing hheld, List.filterMap_append] using hcleaned
    · rw [hlive] at hexited
      cases hexited
  · refine ⟨fun _ => Ledger.insert_perm hheld key (cleanup, newValue),
      h.owner_insert hobject newValue, hbalanced, ?_,
      h.got, fun hexited => ?_⟩
    · simpa only [if_true, Ledger.cleanups_existing hheld, List.filterMap_append] using hcleaned
    · rw [hlive] at hexited
      cases hexited

theorem Tracks.exit :
    Tracks { t with exited := true } { l.enter .exit none none with
      cleaned := cleanups (exitCalls t.fss) ++ l.cleaned } := by
  refine ⟨fun hexited => ?_, h.owner, h.balanced.enter .exit none none, ?_, h.got, fun _ => rfl⟩
  · cases hexited
  · simp only [Ledger.enter, List.filterMap_append]
    exact ((Ledger.cleanups_exit (h.held hlive)).append h.cleaned).trans
      (List.perm_append_comm_assoc _ _ _)

end Steps

theorem tracks_step {t : Thread κ γ π} {l : Ledger κ γ π} (h : Tracks t l) {op : Op κ γ π}
    {sh' : Thread κ γ π × Ledger κ γ π} (hstep : (audited κ γ π).step (t, l) op = some sh') :
    Tracks sh'.1 sh'.2 := by
  obtain ⟨hlive, t', reply, hcall, rfl⟩ := audited_step hstep
  cases op with
  | construct key cleanup =>
    simp only [Thread.call, Option.ite_none_right_eq_some, Option.some.injEq,
      Prod.mk.injEq] at hcall
    obtain ⟨hnone, rfl, rfl⟩ := hcall
    refine ⟨h.held, fun key' e he => ?_, h.balanced, h.cleaned, h.got, h.exited⟩
    have howner := h.owner key' e he
    have hne : key' ≠ key := by
      intro heq
      rw [heq, hnone] at howner
      cases howner
    rw [← howner]
    exact Function.update_of_ne hne _ _
  | get key =>
    obtain ⟨_, _, hcall⟩ := Option.map_eq_some_iff.mp hcall
    cases hcall
    refine ⟨h.held, h.owner, h.balanced, h.cleaned, fun g hg => ?_, h.exited⟩
    obtain rfl | hg := List.mem_cons.mp hg
    · exact h.got_held hlive key
    · exact h.got g hg
  | release key =>
    obtain ⟨_, _, hcall⟩ := Option.map_eq_some_iff.mp hcall
    have hrelease := h.release hlive key
    rw [hcall] at hrelease
    exact hrelease
  | reset key newValue =>
    obtain ⟨cleanup, hobject, hcall⟩ := Option.map_eq_some_iff.mp hcall
    have hcleanup : t.cleanupOf (.reset key newValue) = cleanup := by
      rw [Thread.cleanupOf, hobject, Option.join_some]
    rw [Thread.reset, h.got_held hlive] at hcall
    split at hcall
    · next hnew =>
      obtain ⟨rfl, rfl⟩ := Prod.mk.inj hcall
      have hreplace := h.replace hlive hobject hnew
      rw [hcleanup]
      simpa only [Ledger.enter, if_neg hnew] using hreplace
    · next hsame =>
      cases hcall
      rw [Ledger.enter, if_pos (not_not.mp hsame)]
      exact h
  | destroy key =>
    obtain ⟨_, _, hcall⟩ := Option.map_eq_some_iff.mp hcall
    have hdestroy := h.destroy hlive key
    rw [hcall] at hdestroy
    exact hdestroy
  | exit =>
    cases hcall
    exact h.exit hlive

theorem tracks {sh : Thread κ γ π × Ledger κ γ π} (h : (audited κ γ π).Reachable sh) :
    Tracks sh.1 sh.2 := by
  refine h.invariant (I := fun sh => Tracks sh.1 sh.2)
    (fun sh hinit => ?_) fun sh op sh' _ ih _ hstep => tracks_step ih hstep
  obtain ⟨ht, hl⟩ := hinit
  rw [ht, hl]
  exact ⟨fun _ => .refl _, fun _ _ he => (nomatch he), .refl _, .refl _,
    fun _ hg => (nomatch hg), fun _ => rfl⟩

/-- In every run the thread owns what it installed exactly if it released nothing from an object
that has a cleanup function. -/
theorem owns_exactly_iff {sh : Thread κ γ π × Ledger κ γ π} (h : (audited κ γ π).Reachable sh) :
    OwnsExactly sh.1 sh.2 ↔ ∀ i ∈ sh.2.released, i.cleanup = none := by
  have htracks := tracks h
  constructor
  · intro howns i hi
    have hlength := (htracks.cleaned.symm.trans howns.cleaned).length_eq
    rw [List.length_append, Nat.add_eq_right, List.length_eq_zero_iff,
      List.filterMap_eq_nil_iff] at hlength
    simpa only [Installation.call, Option.map_eq_none_iff] using hlength i hi
  · intro hreleased
    have hnil : sh.2.released.filterMap Installation.call = [] := by
      rw [List.filterMap_eq_nil_iff]
      intro i hi
      rw [Installation.call, hreleased i hi, Option.map_none]
    have hcleaned := htracks.cleaned
    rw [hnil, List.nil_append] at hcleaned
    exact ⟨htracks.balanced, hcleaned, htracks.got, htracks.exited⟩

/-- A pointer is replaced, the next one is held until the exit, and one in an object without a
cleanup function is released. -/
theorem owns_exactly_exit :
    ∃ sh : Thread Bool Unit Nat × Ledger Bool Unit Nat, OwnsExactly sh.1 sh.2 ∧
    sh.2.cleaned = [((), 8), ((), 7)] ∧ sh.2.got = [(some 9, some 9), (some 8, some 8)] := by
  let ops : List (Op Bool Unit Nat) :=
    [.construct true (some ()), .construct false none, .reset true (some 7), .reset true (some 8),
      .get true, .reset false (some 9), .release false, .exit]
  have hreach := (audited Bool Unit Nat).reach_of_run (fun _ _ => true) ({}, {}) ⟨rfl, rfl⟩ ops rfl
  refine ⟨_, (owns_exactly_iff hreach.reachable).mpr fun i hi => ?_, rfl, rfl⟩
  obtain rfl := List.mem_singleton.mp hi
  rfl

/-- The pointer that `release` returns is passed to the cleanup function of its object. -/
theorem release_cleans_up : ∃ sh : Thread Unit Unit Nat × Ledger Unit Unit Nat,
    (audited Unit Unit Nat).Reachable sh ∧ sh.2.got = [(some 7, some 7)] ∧
    sh.2.cleaned = [((), 7)] ∧
      ¬ OwnsExactly sh.1 sh.2 := by
  let ops : List (Op Unit Unit Nat) := [.construct () (some ()), .reset () (some 7), .release ()]
  have hreach := (audited Unit Unit Nat).reach_of_run (fun _ _ => true) ({}, {}) ⟨rfl, rfl⟩ ops rfl
  refine ⟨_, hreach.reachable, rfl, rfl, fun howns => ?_⟩
  have hlength := howns.cleaned.length_eq
  exact absurd hlength (by decide)

end GreenThread.Tss
