import GreenThread.Thread.Tss

/-!
# Cleanup functions and null pointers

`reset` to null keeps the object's entry, with its cleanup function and a null pointer. The exit of
the thread skips such an entry, while the next `reset` to a pointer, `release` and the destructor
pass the null pointer to the cleanup function. The history of a thread keeps every call of a cleanup
function and the objects that a `reset` to null has emptied.
-/

namespace GreenThread.Tss

variable {κ γ π : Type*} [DecidableEq κ] [DecidableEq π]

/-- Every call of a cleanup function, the objects that were emptied, and whether no call so far has
replaced or removed what an emptied object holds. -/
structure CleanupHistory (κ γ π : Type*) where
  calls : List (γ × Option π) := []
  emptied : κ → Bool := fun _ => false
  regular : Bool := true

namespace CleanupHistory

/-- The object whose entry the call replaces or removes, when it holds a null pointer. -/
def replaces : Op κ γ π → Option κ
  | .release key | .reset key (some _) | .destroy key => some key
  | _ => none

/-- A call is regular unless it is a `reset` to a pointer, a `release` or the destruction of an
object that was emptied. -/
def permits (h : CleanupHistory κ γ π) (op : Op κ γ π) :
    Bool := ((replaces op).map h.emptied).getD false == false

/-- A `reset` to null empties an object with a cleanup function that holds a pointer. -/
def empties (t : Thread κ γ π) (key : κ) :
    Bool := ((t.objects key).join).isSome && (getTssData t.fss key).isSome

/-- The objects that are emptied after the call. -/
def emptiedBy (h : CleanupHistory κ γ π) (t : Thread κ γ π) : Op κ γ π → κ → Bool
  | .reset key none => Function.update h.emptied key (h.emptied key || empties t key)
  | .release key | .reset key (some _) | .destroy key => Function.update h.emptied key false
  | _ => h.emptied

def enter (h : CleanupHistory κ γ π) (t : Thread κ γ π) (op : Op κ γ π) (reply : Reply γ π) :
    CleanupHistory κ γ π where
  calls := reply.calls ++ h.calls
  emptied := h.emptiedBy t op
  regular := h.regular && h.permits op

def record (h : CleanupHistory κ γ π) (t : Thread κ γ π) (op : Op κ γ π) (_ : Thread κ γ π) :
    CleanupHistory κ γ π :=
  match t.call op with
  | some (_, reply) => h.enter t op reply
  | none => h

end CleanupHistory

/-- The runs of a thread with every call of a cleanup function. -/
def watched (κ γ π : Type*) [DecidableEq κ] [DecidableEq π] :
    TransitionSystem (Thread κ γ π × CleanupHistory κ γ π) (Op κ γ π) :=
  (system κ γ π).withHistory {} CleanupHistory.record

/-! ### The entries with a null pointer -/

/-- The map has a cleanup function and a null pointer for the object. -/
def nullEntry (fss : FssMap κ γ π) (key : κ) : Bool :=
  match fss.lookup key with
  | some (some _, none) => true
  | _ => false

section

omit [DecidableEq π]

variable (fss : FssMap κ γ π) (key : κ)

/-- An existing entry's cleanup function gets a null pointer exactly if the entry has one. -/
theorem cleanupExisting_null : (∀ c ∈ cleanupExisting fss key, c.2 ≠ none) ↔
    nullEntry fss key = false := by
  rw [cleanupExisting, nullEntry]
  rcases fss.lookup key with _ | ⟨_ | func, _ | data⟩ <;> simp

theorem nullEntry_of_get {p : π} (hget : getTssData fss key = some p) :
    nullEntry fss key = false := by
  obtain ⟨⟨func, data⟩, hentry, rfl⟩ := Option.bind_eq_some_iff.mp hget
  rw [nullEntry, hentry]
  cases func <;> rfl

omit [DecidableEq κ] in
theorem exitCalls_pointer : ∀ c ∈ exitCalls fss, c.2 ≠ none := by
  intro c hc
  obtain ⟨⟨key, func, data⟩, -, hcall⟩ := List.mem_filterMap.mp hc
  cases func <;> cases data <;> cases hcall
  exact Option.some_ne_none _

theorem nullEntry_erase (key' : κ) :
    nullEntry (fss.erase key) key' = Function.update (nullEntry fss) key false key' := by
  by_cases hkey : key' = key
  · subst hkey
    rw [Function.update_self, nullEntry, AList.lookup_erase]
  · rw [Function.update_of_ne hkey, nullEntry, AList.lookup_erase_ne hkey, nullEntry]

theorem nullEntry_insert (func : Option γ) (data : Option π) (key' : κ) :
    nullEntry (fss.insert key (func, data)) key' =
    Function.update (nullEntry fss) key (func.isSome && data.isNone) key' := by
  by_cases hkey : key' = key
  · subst hkey
    rw [Function.update_self, nullEntry, AList.lookup_insert]
    cases func <;> cases data <;> rfl
  · rw [Function.update_of_ne hkey, nullEntry, AList.lookup_insert_ne hkey, nullEntry]

theorem nullEntry_set (func : Option γ) (data : Option π) (existing : Bool) :
    nullEntry (setTssData fss key func data existing).1 =
    Function.update (nullEntry fss) key (func.isSome && data.isNone) := by
  funext key'
  by_cases hnull : func = none ∧ data = none
  · obtain ⟨rfl, rfl⟩ := hnull
    rw [setTssData_remove]
    exact nullEntry_erase fss key key'
  · have hcond : (func.isNone && data.isNone) = false := by
      cases func <;> cases data <;> first | rfl | exact absurd ⟨rfl, rfl⟩ hnull
    rw [setTssData, if_neg (by simp [hcond])]
    exact nullEntry_insert fss key func data key'

end

/-! ### One call -/

/-- What a call does about null pointers: it passes one exactly if it replaces or removes a null
entry, and it leaves a null entry exactly if it is a `reset` that empties an object. -/
structure Replies (t : Thread κ γ π) (op : Op κ γ π) (t' : Thread κ γ π)
    (reply : Reply γ π) : Prop where
  calls : (∀ c ∈ reply.calls, c.2 ≠ none) ↔
    ((CleanupHistory.replaces op).map (nullEntry t.fss)).getD false = false
  entries : ∀ h : CleanupHistory κ γ π, h.emptied = nullEntry t.fss →
    h.emptiedBy t op = nullEntry t'.fss

omit [DecidableEq π] in
theorem update_nullEntry {fss : FssMap κ γ π} {key : κ} {b : Bool} (h : nullEntry fss key = b) :
    Function.update (nullEntry fss) key b = nullEntry fss := by
  rw [← h]
  exact Function.update_eq_self key _

theorem Thread.reset_replies {t : Thread κ γ π} {key : κ} {cleanup : Option γ}
    (hobject : t.objects key = some cleanup) (newValue : Option π) :
    Replies t (.reset key newValue) (t.reset cleanup key newValue).1
    (t.reset cleanup key newValue).2 := by
  have hempties : CleanupHistory.empties t key =
    (cleanup.isSome && (getTssData t.fss key).isSome) := by
    rw [CleanupHistory.empties, hobject, Option.join_some]
  rw [Thread.reset]
  split
  · next hnew =>
    have hset := nullEntry_set t.fss key cleanup newValue true
    have hcalls : (setTssData t.fss key cleanup newValue true).2 = cleanupExisting t.fss key := by
      rw [setTssData]
      split
      · cases hentry : t.fss.lookup key <;> simp [cleanupExisting, hentry]
      · rfl
    cases newValue with
    | some p =>
      refine ⟨?_, fun h hh => ?_⟩
      · change (∀ c ∈ (setTssData t.fss key cleanup (some p) true).2, c.2 ≠ none) ↔ _
        rw [hcalls]
        exact cleanupExisting_null t.fss key
      · rw [hset, ← hh, Option.isNone_some, Bool.and_false]
        rfl
    | none =>
      -- A pointer is replaced by null: it is the pointer that
      -- is cleaned up, and the entry becomes a null entry.
      obtain ⟨p, hget⟩ := Option.ne_none_iff_exists'.mp hnew
      have hfull := nullEntry_of_get t.fss key hget
      refine ⟨?_, fun h hh => ?_⟩
      · change (∀ c ∈ (setTssData t.fss key cleanup none true).2, c.2 ≠ none) ↔ _
        rw [hcalls, cleanupExisting_null]
        exact iff_of_true hfull rfl
      · rw [hset, CleanupHistory.emptiedBy, hempties, hh, hfull, hget]
        rfl
  · next hsame =>
    rw [not_not] at hsame
    cases newValue with
    | some p =>
      have hfull := nullEntry_of_get t.fss key hsame
      refine ⟨iff_of_true (fun _ hc => absurd hc List.not_mem_nil) hfull, fun h hh => ?_⟩
      rw [CleanupHistory.emptiedBy, hh]
      exact update_nullEntry hfull
    | none =>
      refine ⟨iff_of_true (fun _ hc => absurd hc List.not_mem_nil) rfl, fun h hh => ?_⟩
      rw [CleanupHistory.emptiedBy, hempties, hsame, hh, Option.isSome_none, Bool.and_false,
        Bool.or_false]
      exact Function.update_eq_self key _

omit [DecidableEq π] in
theorem remove_replies {t t' : Thread κ γ π} {op : Op κ γ π} {key : κ} {reply : Reply γ π}
    (existing : Bool) (hop : op = .release key ∨ op = .destroy key)
    (hfss : t'.fss = (setTssData t.fss key none none existing).1)
    (hcalls : reply.calls = (setTssData t.fss key none none existing).2) :
    Replies t op t' reply := by
  have hset := nullEntry_set t.fss key none none existing
  rw [setTssData_remove] at hcalls
  refine ⟨?_, fun h hh => ?_⟩
  · rw [hcalls, cleanupExisting_null]
    rcases hop with rfl | rfl <;> exact Iff.rfl
  · rw [hfss, hset, ← hh]
    rcases hop with rfl | rfl <;> rfl

theorem call_replies {t t' : Thread κ γ π} {op : Op κ γ π} {reply : Reply γ π}
    (hcall : t.call op = some (t', reply)) :
    Replies t op t' reply := by
  have hquiet : ∀ {t'' : Thread κ γ π} {value : Option π}, t''.fss = t.fss →
    CleanupHistory.replaces op = none →
      (∀ h : CleanupHistory κ γ π, h.emptiedBy t op = h.emptied) → Replies t op t'' { value } := by
    intro t'' value hfss hop hemptied
    refine ⟨?_, fun h hh => ?_⟩
    · rw [hop]
      exact iff_of_true (fun _ hc => nomatch hc) rfl
    · rw [hemptied, hh, hfss]
  cases op with
  | construct key cleanup =>
    obtain ⟨-, hcall⟩ := Option.ite_none_right_eq_some.mp hcall
    cases hcall
    exact hquiet rfl rfl fun _ => rfl
  | get key =>
    obtain ⟨_, _, hcall⟩ := Option.map_eq_some_iff.mp hcall
    cases hcall
    exact hquiet rfl rfl fun _ => rfl
  | release key =>
    obtain ⟨_, _, hcall⟩ := Option.map_eq_some_iff.mp hcall
    cases hcall
    exact remove_replies false (.inl rfl) rfl rfl
  | reset key newValue =>
    obtain ⟨cleanup, hobject, hcall⟩ := Option.map_eq_some_iff.mp hcall
    have hreplies := Thread.reset_replies hobject newValue
    rw [hcall] at hreplies
    exact hreplies
  | destroy key =>
    obtain ⟨_, _, hcall⟩ := Option.map_eq_some_iff.mp hcall
    cases hcall
    exact remove_replies true (.inr rfl) rfl rfl
  | exit =>
    cases hcall
    exact ⟨iff_of_true (exitCalls_pointer t.fss) rfl, fun h hh => hh⟩

/-! ### Every run -/

/-- The emptied objects are those with a null entry, and a null pointer was passed exactly if some
call was not regular. -/
structure Follows (t : Thread κ γ π) (h : CleanupHistory κ γ π) : Prop where
  emptied : h.emptied = nullEntry t.fss
  calls : (∀ c ∈ h.calls, c.2 ≠ none) ↔ h.regular = true

theorem watched_step {t : Thread κ γ π} {h : CleanupHistory κ γ π} {op : Op κ γ π}
    {sh' : Thread κ γ π × CleanupHistory κ γ π}
    (hfollows : Follows t h) (hstep : (watched κ γ π).step (t, h) op = some sh') :
    Follows sh'.1 sh'.2 := by
  obtain ⟨t', ht', rfl⟩ := TransitionSystem.withHistory_step.mp hstep
  obtain ⟨⟨t', reply⟩, hnext, rfl⟩ := Option.map_eq_some_iff.mp ht'
  obtain ⟨-, hcall⟩ := Option.ite_none_left_eq_some.mp hnext
  obtain ⟨hcalls, hentries⟩ := call_replies hcall
  have hrecord : CleanupHistory.record h t op t' = h.enter t op reply := by
    rw [CleanupHistory.record, hcall]
  rw [hrecord]
  refine ⟨hentries h hfollows.emptied, ?_⟩
  have hpermits : h.permits op = true ↔ ∀ c ∈ reply.calls, c.2 ≠ none := by
    rw [hcalls, CleanupHistory.permits, hfollows.emptied, beq_iff_eq]
  calc (∀ c ∈ reply.calls ++ h.calls, c.2 ≠ none)
      ↔ (∀ c ∈ reply.calls, c.2 ≠ none) ∧ ∀ c ∈ h.calls, c.2 ≠ none := List.forall_mem_append
    _ ↔ h.permits op = true ∧ h.regular = true := and_congr hpermits.symm hfollows.calls
    _ ↔ (h.regular && h.permits op) = true := by rw [Bool.and_eq_true, and_comm]

/-- In every run the cleanup functions get no null pointer exactly if no emptied object was reset to
a pointer, released or destroyed. -/
theorem cleanup_never_null_iff {sh : Thread κ γ π × CleanupHistory κ γ π}
    (h : (watched κ γ π).Reachable sh) :
    (∀ c ∈ sh.2.calls, c.2 ≠ none) ↔ sh.2.regular = true := by
  have hfollows : Follows sh.1 sh.2 := by
    refine h.invariant (I := fun sh => Follows sh.1 sh.2)
      (fun sh hinit => ?_) fun sh op sh' _ ih _ hstep => watched_step ih hstep
    obtain ⟨ht, hh⟩ := hinit
    rw [ht, hh]
    exact ⟨rfl, iff_of_true (fun _ hc => nomatch hc) rfl⟩
  exact hfollows.calls

/-- A pointer is replaced by another one and then by null, and the thread exits with the null
entry. -/
theorem cleanup_never_null_exit : ∃ sh : Thread Unit Unit Nat × CleanupHistory Unit Unit Nat,
    sh.2.calls = [((), some 8), ((), some 7)] ∧ sh.2.emptied () = true ∧
    ∀ c ∈ sh.2.calls, c.2 ≠ none := by
  let ops : List (Op Unit Unit Nat) :=
    [.construct () (some ()), .reset () (some 7), .reset () (some 8), .reset () none, .get (),
      .exit]
  have hreach := (watched Unit Unit Nat).reach_of_run (fun _ _ => true) ({}, {}) ⟨rfl, rfl⟩ ops rfl
  exact ⟨_, rfl, rfl, (cleanup_never_null_iff hreach.reachable).mpr rfl⟩

/-- After a `reset` to null the next pointer's `reset` calls the cleanup function with null. -/
theorem reset_passes_null : ∃ sh : Thread Unit Unit Nat × CleanupHistory Unit Unit Nat,
    (watched Unit Unit Nat).Reachable sh ∧ sh.2.calls = [((), none), ((), some 7)] ∧
    ¬ ∀ c ∈ sh.2.calls, c.2 ≠ none := by
  let ops : List (Op Unit Unit Nat) :=
    [.construct () (some ()), .reset () (some 7), .reset () none, .reset () (some 8)]
  have hreach := (watched Unit Unit Nat).reach_of_run (fun _ _ => true) ({}, {}) ⟨rfl, rfl⟩ ops rfl
  exact ⟨_, hreach.reachable, rfl, fun h => h ((), none) List.mem_cons_self rfl⟩

end GreenThread.Tss
