import GreenThread.Streambuf.Code
import Mathlib.Data.List.GetD

/-!
# Put-back

`sungetc` moves the read position of a streambuf back by one character, as long as it is behind
`eback()`. `init_buffers` and `underflow` leave `putback_max` bytes before the characters of the
chunk in the get area, and nothing ever stores a character there. The history of a program that only
reads follows its position in the stream by the replies.
-/

namespace GreenThread.Streambuf

variable {α : Type*} [Inhabited α]

/-- `sungetc`; `pbackfail` is not overridden, and fails. -/
def State.sungetc (s : State α) : State α :=
  if 0 < s.get.gptr then
    let get := { s.get with gptr := s.get.gptr - 1 }
    State.reply { s with get } (.char get.current)
  else s.reply .eof

/-- A call of a program that reads and puts back, or the completion of the read it waits for. -/
inductive Access (α : Type*)
  | sgetc
  | sbumpc
  | sungetc
  | delivered (chunk : List α) (ec : Bool)

def State.access (s : State α) : Access α → Option (State α)
  | .sgetc => s.next .sgetc
  | .sbumpc => s.next .sbumpc
  | .delivered chunk ec => s.next (.delivered chunk ec)
  | .sungetc =>
    match s.pos with
    | .idle _ => some s.sungetc
    | _ => none

def accesses (α : Type*) [Inhabited α] : TransitionSystem (State α) (Access α) where
  init s := ∃ duplexMode, s = initial duplexMode
  step := State.access

/-! ### The history -/

/-- A reply of `sgetc` or `sbumpc`, a character or eof, with the position in the stream and the
number of characters the stream had delivered. -/
structure Reading (α : Type*) where
  position : Int
  reply : Option α
  arrived : Nat

/-- A reply of `sungetc`, with the position before the call. -/
structure Retreat (α : Type*) where
  position : Int
  reply : Option α

structure PutBackHistory (α : Type*) where
  position : Int := 0
  furthest : Int := 0
  readings : List (Reading α) := []
  retreats : List (Retreat α) := []
  /-- every `sungetc` so far was called behind the first character of the chunk in the get area -/
  inside : Bool := true

namespace PutBackHistory

def read (h : PutBackHistory α) (r : Reader) (reply : Option α) (arrived : Nat) :
    PutBackHistory α :=
  let position :=
    match r, reply with
    | .sbumpc, some _ => h.position + 1
    | _, _ => h.position
  { h with
    position, furthest := max h.furthest position
    readings := ⟨h.position, reply, arrived⟩ :: h.readings }

def retreat (h : PutBackHistory α) (reply : Option α) (inside : Bool) : PutBackHistory α :=
  { h with
    position := if reply.isSome then h.position - 1 else h.position
    retreats := ⟨h.position, reply⟩ :: h.retreats
    inside := h.inside && inside }

/-- The member that replies, when the access is over. -/
def reader (s : State α) : Access α → Option Reader
  | .sgetc => some .sgetc
  | .sbumpc => some .sbumpc
  | .delivered _ _ =>
    match s.pos with
    | .reading r => some r
    | _ => none
  | .sungetc => none

/-- The character of a reply, and nothing for eof. -/
def charOf : Reply α → Option α
  | .char c => some c
  | _ => none

def record (h : PutBackHistory α) (s : State α) (a : Access α) (s' : State α) : PutBackHistory α :=
  match s'.pos with
  | .idle (some reply) =>
    match reader s a with
    | some r => h.read r (charOf reply) s'.get.received.length
    | none => h.retreat (charOf reply) (putbackMax < s.get.gptr)
  | _ => h

end PutBackHistory

/-- The runs of a program that reads and puts back. -/
def putBackRuns (α : Type*) [Inhabited α] :
    TransitionSystem (State α × PutBackHistory α) (Access α) :=
  (accesses α).withHistory {} PutBackHistory.record

/-- A read of the stream delivers some characters or nothing, and no `sungetc` would leave the
position more than `putback_max` behind the furthest one. -/
def nearby (sh : State α × PutBackHistory α) : Access α → Bool
  | .delivered chunk ec => chunk.isEmpty || !ec
  | .sungetc => sh.2.furthest < sh.2.position + putbackMax
  | _ => true

/-- Every character read is the one at that position of the stream, and eof only comes at the end of
what has arrived. A successful `sungetc` goes back to the character before. -/
structure GivesBack (received : List α) (h : PutBackHistory α) : Prop where
  chars : ∀ r ∈ h.readings, ∀ c, r.reply = some c →
    0 ≤ r.position ∧ received[r.position.toNat]? = some c
  eof : ∀ r ∈ h.readings, r.reply = none → r.position = r.arrived
  retreats : ∀ r ∈ h.retreats, ∀ c, r.reply = some c →
    0 < r.position ∧ received[(r.position - 1).toNat]? = some c

/-! ### The get area -/

/-- The putback area still has the bytes it was made with, and the get area behind it the last
chunk. -/
structure Window (g : Get α) (earlier chunk : List α) : Prop where
  buffer : ∃ rest, g.buffer = List.replicate putbackMax default ++ (chunk ++ rest)
  received : g.received = earlier ++ chunk
  egptr : g.egptr = putbackMax + chunk.length
  order : g.gptr ≤ g.egptr

namespace Window

variable {g : Get α} {earlier chunk : List α} (h : Window g earlier chunk)

include h

/-- Behind the putback area `gptr()` points to a character of the stream. -/
theorem current (hlow : putbackMax ≤ g.gptr) (hhigh : g.gptr < g.egptr) :
    g.received[earlier.length + (g.gptr - putbackMax)]? = some g.current := by
  obtain ⟨rest, hbuffer⟩ := h.buffer
  have hlt : g.gptr - putbackMax < chunk.length := by
    have := h.egptr
    omega
  have hcurrent : g.current = chunk[g.gptr - putbackMax] := by
    rw [Get.current, hbuffer, List.getD_append_right _ _ _ _ (by rwa [List.length_replicate]),
      List.length_replicate,
      List.getD_append _ _ _ _ hlt]
    exact List.getD_eq_getElem _ _ hlt
  rw [h.received, List.getElem?_append_right (Nat.le_add_right _ _),
    Nat.add_sub_cancel_left, hcurrent]
  exact List.getElem?_eq_getElem hlt

/-- In the putback area it points to a byte that was never stored. -/
theorem current_putback (hlow : g.gptr < putbackMax) : g.current = default := by
  obtain ⟨rest, hbuffer⟩ := h.buffer
  rw [Get.current, hbuffer, List.getD_append _ _ _ _ (by rwa [List.length_replicate])]
  exact List.getD_replicate _ hlow

theorem move {g' : Get α} (hbuffer : g'.buffer = g.buffer) (hreceived : g'.received = g.received)
    (hegptr : g'.egptr = g.egptr) (horder : g'.gptr ≤ g.egptr) : Window g' earlier chunk where
  buffer := hbuffer ▸ h.buffer
  received := hreceived.trans h.received
  egptr := hegptr.trans h.egptr
  order := hegptr ▸ horder

theorem fill_buffer (next : List α) :
    ∃ rest, (g.fill next).buffer = List.replicate putbackMax default ++ (next ++ rest) := by
  obtain ⟨rest, hbuffer⟩ := h.buffer
  refine ⟨g.buffer.drop (putbackMax + next.length), ?_⟩
  rw [Get.fill, hbuffer, List.take_left' List.length_replicate, List.append_assoc]

theorem fill (next : List α) :
    Window ((g.fill next).setg putbackMax (putbackMax + next.length)) (earlier ++ chunk) next where
  buffer := h.fill_buffer next
  received := congrArg (· ++ next) h.received
  egptr := rfl
  order := Nat.le_add_right _ _

theorem fill_nil : Window (g.fill []) earlier chunk := by
  obtain ⟨rest, hbuffer⟩ := h.buffer
  refine h.move ?_ (List.append_nil _) rfl h.order
  rw [Get.fill, List.append_nil, List.length_nil, Nat.add_zero, List.take_append_drop]

end Window

/-! ### What an access does -/

/-- The members that read one character. -/
def Reader.single : Reader → Bool
  | .sgetc | .sbumpc => true
  | _ => false

/-- The streambuf of a program that writes nothing: in no call, or in a read of the stream for a
call that found the get area at its end. -/
structure State.Reads (s : State α) : Prop where
  buffered : s.unbuffered = false
  drained : s.put.pptr = s.put.pbase
  pos : (∃ last, s.pos = .idle last) ∨ ∃ r, s.pos = .reading r ∧ r.single = true ∧
    s.get.gptr = s.get.egptr

omit [Inhabited α] in
theorem State.Reads.empty {s : State α} (h : s.Reads) {r : Reader} (hpos : s.pos = .reading r) :
    s.get.gptr = s.get.egptr := by
  rcases h.pos with ⟨last, hidle⟩ | ⟨r', -, -, hempty⟩
  · rw [hpos] at hidle
    cases hidle
  · exact hempty

/-- The character at `gptr()` is shown, or read as well. -/
def Get.shown (g : Get α) : Reader → Get α
  | .sbumpc => g.bump
  | _ => g.peek

namespace State

variable {s : State α} {r : Reader}

theorem underflowChar_single (hr : r.single = true) :
    s.underflowChar r = reply { s with get := s.get.shown r } (.char s.get.current) := by
  cases r with
  | sgetc | sbumpc => rfl
  | _ => cases hr

omit [Inhabited α] in
theorem underflowEof_single (hr : r.single = true) : s.underflowEof r = s.reply .eof := by
  cases r with
  | sgetc | sbumpc => rfl
  | _ => cases hr

omit [Inhabited α] in
theorem Reads.underflow (h : s.Reads) (hempty : s.get.gptr = s.get.egptr) (r : Reader) :
    ∃ put : Put α, put.pptr = put.pbase ∧ s.underflow r = { s with put, pos := .reading r } := by
  have hput : ¬ s.put.pptr - s.put.pbase > 0 := by
    have := h.drained
    omega
  rw [State.underflow]
  split
  · refine ⟨s.put.setp 0 s.put.buffer.length, rfl, ?_⟩
    rw [sync, overflow, if_neg (by simp [h.buffered]), if_neg hput]
    exact if_pos hempty
  · exact ⟨s.put, h.drained, if_pos hempty⟩

end State

/-- What an access does to a streambuf that has reached its state without writes. -/
inductive Accessed (s : State α) : Access α → State α → Prop
  /-- there is a character in the get area -/
  | shows {a r} (hreader : PutBackHistory.reader s a = some r) (hr : r.single = true)
      (hlt : s.get.gptr < s.get.egptr) :
    Accessed s a (State.reply { s with get := s.get.shown r } (.char s.get.current))
  /-- the stream is read -/
  | waits {a r} {put : Put α} (hr : r.single = true) (hempty : s.get.gptr = s.get.egptr)
      (hput : put.pptr = put.pbase) :
    Accessed s a { s with put, pos := .reading r }
  /-- a chunk has arrived -/
  | fills {r chunk} (hpos : s.pos = .reading r) (hr : r.single = true) (hchunk : chunk ≠ []) :
    Accessed s (.delivered chunk false) (State.reply
      { s with get := ((s.get.fill chunk).setg putbackMax (putbackMax + chunk.length)).shown r }
      (.char ((s.get.fill chunk).setg putbackMax (putbackMax + chunk.length)).current))
  /-- nothing has arrived -/
  | ends {r ec} (hpos : s.pos = .reading r) (hr : r.single = true)
      (hempty : s.get.gptr = s.get.egptr) :
    Accessed s (.delivered [] ec) (State.reply { s with get := s.get.fill [] } .eof)
  | backs (hpos : 0 < s.get.gptr) :
    Accessed s .sungetc (State.reply { s with get := { s.get with gptr := s.get.gptr - 1 } }
      (.char { s.get with gptr := s.get.gptr - 1 }.current))
  | fails (hpos : s.get.gptr = 0) : Accessed s .sungetc (s.reply .eof)

theorem State.Reads.read {s : State α} (h : s.Reads) (horder : s.get.gptr ≤ s.get.egptr)
    {a : Access α} {r : Reader}
    (hreader : PutBackHistory.reader s a = some r) (hr : r.single = true) :
    Accessed s a (s.read r) := by
  rw [State.read]
  split
  · next hlt =>
    rw [State.underflowChar_single hr]
    exact .shows hreader hr hlt
  · next hge =>
    have hempty : s.get.gptr = s.get.egptr := Nat.le_antisymm horder (Nat.le_of_not_lt hge)
    obtain ⟨put, hput, hs⟩ := h.underflow hempty r
    rw [hs]
    exact .waits hr hempty hput

theorem State.Reads.accessed {s s' : State α} (h : s.Reads) (horder : s.get.gptr ≤ s.get.egptr)
    {a : Access α} (hstep : s.access a = some s')
    (hnearby : ∀ chunk ec, a = .delivered chunk ec → chunk = [] ∨ ec = false) :
    Accessed s a s' := by
  rcases h.pos with ⟨last, hpos⟩ | ⟨r, hpos, hr, hempty⟩
  · cases a with
    | sgetc =>
      simp only [State.access, State.next, hpos] at hstep
      cases hstep
      exact h.read horder rfl rfl
    | sbumpc =>
      simp only [State.access, State.next, hpos] at hstep
      cases hstep
      exact h.read horder rfl rfl
    | delivered chunk ec => simp [State.access, State.next, hpos, State.call] at hstep
    | sungetc =>
      simp only [State.access, hpos, Option.some.injEq] at hstep
      subst hstep
      rw [State.sungetc]
      split
      · next hlt => exact .backs hlt
      · next hle => exact .fails (Nat.eq_zero_of_not_pos hle)
  · cases a with
    | delivered chunk ec =>
      simp only [State.access, State.next, hpos, Option.ite_none_right_eq_some,
        Option.some.injEq] at hstep
      obtain ⟨-, rfl⟩ := hstep
      rw [State.delivered]
      by_cases hchunk : chunk = []
      · subst hchunk
        rw [if_pos (by simp), State.underflowEof_single hr]
        exact .ends hpos hr hempty
      · obtain rfl := (hnearby chunk ec rfl).resolve_left hchunk
        rw [if_neg (by simpa using hchunk), State.underflowChar_single hr]
        exact .fills hpos hr hchunk
    | _ => simp [State.access, State.next, hpos] at hstep

/-! ### The law of the history -/

omit [Inhabited α] in
theorem GivesBack.mono {received : List α} {h : PutBackHistory α} (hlaw : GivesBack received h)
    (next : List α) :
    GivesBack (received ++ next) h := by
  have hkept : ∀ {i : Nat} {c : α}, received[i]? = some c → (received ++ next)[i]? = some c :=
    fun hi => (List.getElem?_append_left (List.getElem?_eq_some_iff.mp hi).1).trans hi
  exact ⟨fun r hr c hc => (hlaw.chars r hr c hc).imp_right hkept, hlaw.eof,
    fun r hr c hc => (hlaw.retreats r hr c hc).imp_right hkept⟩

omit [Inhabited α] in
theorem GivesBack.read {received : List α} {h : PutBackHistory α} (hlaw : GivesBack received h)
    (r : Reader) {reply : Option α}
    {arrived : Nat}
    (hchar : ∀ c, reply = some c → 0 ≤ h.position ∧ received[h.position.toNat]? = some c)
    (heof : reply = none → h.position = arrived) : GivesBack received (h.read r reply arrived) where
  chars := List.forall_mem_cons.mpr ⟨hchar, hlaw.chars⟩
  eof := List.forall_mem_cons.mpr ⟨heof, hlaw.eof⟩
  retreats := hlaw.retreats

omit [Inhabited α] in
theorem GivesBack.retreat {received : List α} {h : PutBackHistory α} (hlaw : GivesBack received h)
    {reply : Option α} (inside : Bool)
    (hchar : ∀ c, reply = some c → 0 < h.position ∧ received[(h.position - 1).toNat]? = some c) :
    GivesBack received (h.retreat reply inside) where
  chars := hlaw.chars
  eof := hlaw.eof
  retreats := List.forall_mem_cons.mpr ⟨hchar, hlaw.retreats⟩

/-- The position of the history is that of `gptr()`, and the law holds while every `sungetc` was
inside the chunk. -/
structure Traced (g : Get α) (h : PutBackHistory α) : Prop where
  window : ∃ earlier chunk, Window g earlier chunk ∧
    h.position + putbackMax = earlier.length + g.gptr
  inside : h.inside = true → putbackMax ≤ g.gptr ∧ GivesBack g.received h
  outside : h.inside = false → ∃ r ∈ h.retreats, r.reply = some default

namespace Traced

variable {g : Get α} {h : PutBackHistory α} (htraced : Traced g h)

include htraced

theorem shown (hlt : g.gptr < g.egptr) {r : Reader} (hr : r.single = true) (arrived : Nat) :
    Traced (g.shown r) (h.read r (some g.current) arrived) := by
  obtain ⟨earlier, chunk, hwindow, hposition⟩ := htraced.window
  have hreceived : (g.shown r).received = g.received := by cases r <;> rfl
  have hlaw (hinside : h.inside = true) :
    GivesBack (g.shown r).received (h.read r (some g.current) arrived) := by
    obtain ⟨hlow, hlaw⟩ := htraced.inside hinside
    rw [hreceived]
    refine hlaw.read r (fun c hc => ?_) nofun
    have hindex : h.position.toNat = earlier.length + (g.gptr - putbackMax) := by omega
    refine ⟨by omega, ?_⟩
    rw [hindex, hwindow.current hlow hlt, hc]
  cases r with
  | sgetc =>
    refine ⟨⟨earlier, chunk, hwindow.move rfl rfl rfl hwindow.order, hposition⟩, fun hinside => ?_,
      htraced.outside⟩
    exact ⟨(htraced.inside hinside).1, hlaw hinside⟩
  | sbumpc =>
    refine ⟨⟨earlier, chunk, hwindow.move rfl rfl rfl hlt, ?_⟩, fun hinside => ?_, htraced.outside⟩
    · change h.position + 1 + putbackMax = earlier.length + (g.gptr + 1 : Nat)
      omega
    · exact ⟨Nat.le_succ_of_le (htraced.inside hinside).1, hlaw hinside⟩
  | _ => cases hr

theorem fill (hempty : g.gptr = g.egptr) (next : List α) :
    Traced ((g.fill next).setg putbackMax (putbackMax + next.length)) h := by
  obtain ⟨earlier, chunk, hwindow, hposition⟩ := htraced.window
  refine ⟨⟨earlier ++ chunk, next, hwindow.fill next, ?_⟩, fun hinside => ⟨Nat.le_refl _, ?_⟩,
    htraced.outside⟩
  · have hegptr := hwindow.egptr
    change h.position + putbackMax = ((earlier ++ chunk).length : Int) + putbackMax
    rw [List.length_append]
    omega
  · exact (htraced.inside hinside).2.mono next

theorem ends (hempty : g.gptr = g.egptr) (r : Reader) :
    Traced (g.fill []) (h.read r none (g.fill []).received.length) := by
  obtain ⟨earlier, chunk, hwindow, hposition⟩ := htraced.window
  have hfill := hwindow.fill_nil
  have hsame : (h.read r none (g.fill []).received.length).position = h.position := by
    cases r <;> rfl
  refine ⟨⟨earlier, chunk, hfill, ?_⟩, fun hinside => ?_, htraced.outside⟩
  · rw [hsame]
    exact hposition
  · obtain ⟨hlow, hlaw⟩ := htraced.inside hinside
    refine ⟨hlow, (hlaw.mono []).read r nofun fun _ => ?_⟩
    have hegptr := hwindow.egptr
    rw [hfill.received, List.length_append]
    omega

theorem backs (hpos : 0 < g.gptr) :
    Traced { g with gptr := g.gptr - 1 }
    (h.retreat (some { g with gptr := g.gptr - 1 }.current) (putbackMax < g.gptr)) := by
  obtain ⟨earlier, chunk, hwindow, hposition⟩ := htraced.window
  have hback : Window { g with gptr := g.gptr - 1 } earlier chunk :=
    hwindow.move rfl rfl rfl (Nat.le_trans (Nat.sub_le _ _) hwindow.order)
  have horder := hwindow.order
  refine ⟨⟨earlier, chunk, hback, ?_⟩, fun hinside => ?_, fun houtside => ?_⟩
  · change h.position - 1 + putbackMax = earlier.length + (g.gptr - 1 : Nat)
    omega
  · obtain ⟨hinside, hlow⟩ := Bool.and_eq_true_iff.mp hinside
    have hlow := of_decide_eq_true hlow
    refine ⟨Nat.le_sub_one_of_lt hlow, (htraced.inside hinside).2.retreat _ fun c hc => ?_⟩
    have hcurrent := hback.current (Nat.le_sub_one_of_lt hlow)
      (Nat.lt_of_lt_of_le (Nat.sub_one_lt_of_lt hpos) horder)
    have hindex : (h.position - 1).toNat = earlier.length + (g.gptr - 1 - putbackMax) := by omega
    refine ⟨by omega, ?_⟩
    rw [hindex, ← hc]
    exact hcurrent
  · cases hinside : h.inside with
    | false =>
      obtain ⟨r, hr, hreply⟩ := htraced.outside hinside
      exact ⟨r, List.mem_cons_of_mem _ hr, hreply⟩
    | true =>
      -- The first `sungetc` outside the chunk is at its first character.
      have hnot : ¬ putbackMax < g.gptr := by
        intro hlt
        rw [PutBackHistory.retreat, hinside, decide_eq_true hlt] at houtside
        cases houtside
      have hlow := (htraced.inside hinside).1
      refine ⟨_, List.mem_cons_self, congrArg some (hback.current_putback ?_)⟩
      change g.gptr - 1 < putbackMax
      omega

/-- At `eback()` the history is outside already. -/
theorem fails (hpos : g.gptr = 0) : Traced g (h.retreat none (putbackMax < g.gptr)) := by
  have houtside : h.inside = false := by
    cases hinside : h.inside with
    | false => rfl
    | true =>
      have hlow := (htraced.inside hinside).1
      rw [hpos] at hlow
      cases hlow
  obtain ⟨r, hr, hreply⟩ := htraced.outside houtside
  refine ⟨htraced.window, fun hinside => ?_, fun _ => ⟨r, List.mem_cons_of_mem _ hr, hreply⟩⟩
  rw [PutBackHistory.retreat, houtside] at hinside
  cases hinside

end Traced

/-! ### Every run -/

theorem traced_accessed {s s' : State α} {h : PutBackHistory α} {a : Access α} (hreads : s.Reads)
    (htraced : Traced s.get h)
    (haccessed : Accessed s a s') : s'.Reads ∧ Traced s'.get (PutBackHistory.record h s a s') := by
  cases haccessed with
  | @shows a r hreader hr hlt =>
    refine ⟨⟨hreads.buffered, hreads.drained, .inl ⟨_, rfl⟩⟩, ?_⟩
    rw [PutBackHistory.record, hreader]
    exact htraced.shown hlt hr _
  | @waits a r put hr hempty hput =>
    exact ⟨⟨hreads.buffered, hput, .inr ⟨r, rfl, hr, hempty⟩⟩, htraced⟩
  | @fills r chunk hpos hr hchunk =>
    refine ⟨⟨hreads.buffered, hreads.drained, .inl ⟨_, rfl⟩⟩, ?_⟩
    have hempty : s.get.gptr = s.get.egptr := hreads.empty hpos
    have hnext : putbackMax < putbackMax + chunk.length :=
      Nat.lt_add_of_pos_right (List.length_pos_iff.mpr hchunk)
    rw [PutBackHistory.record, PutBackHistory.reader, hpos]
    exact (htraced.fill hempty chunk).shown hnext hr _
  | @ends r ec hpos hr hempty =>
    refine ⟨⟨hreads.buffered, hreads.drained, .inl ⟨_, rfl⟩⟩, ?_⟩
    rw [PutBackHistory.record, PutBackHistory.reader, hpos]
    exact htraced.ends hempty r
  | backs hpos =>
    exact ⟨⟨hreads.buffered, hreads.drained, .inl ⟨_, rfl⟩⟩, htraced.backs hpos⟩
  | fails hpos =>
    exact ⟨⟨hreads.buffered, hreads.drained, .inl ⟨_, rfl⟩⟩, htraced.fails hpos⟩

theorem traced {sh : State α × PutBackHistory α}
    (hreach : (putBackRuns α).Reach (fun sh a => nearby sh a = true) sh) :
    sh.1.Reads ∧ Traced sh.1.get sh.2 := by
  refine hreach.invariant (I := fun sh => sh.1.Reads ∧ Traced sh.1.get sh.2)
    (fun sh hinit => ?_) fun sh a sh' _ ih hok hstep => ?_
  · obtain ⟨⟨duplexMode, hs⟩, hh⟩ := hinit
    rw [hs, hh]
    refine ⟨⟨rfl, rfl, .inl ⟨none, rfl⟩⟩,
      ⟨[], [], ⟨⟨List.replicate bufferSize default, ?_⟩, rfl, rfl, Nat.le_refl _⟩, rfl⟩,
      fun _ => ⟨Nat.le_refl _, ⟨nofun, nofun, nofun⟩⟩, nofun⟩
    rw [List.nil_append, List.replicate_append_replicate, Nat.add_comm]
    rfl
  · obtain ⟨s', hs', rfl⟩ := TransitionSystem.withHistory_step.mp hstep
    obtain ⟨hreads, htraced⟩ := ih
    obtain ⟨earlier, chunk, hwindow, -⟩ := htraced.window
    refine traced_accessed hreads htraced (hreads.accessed hwindow.order hs' ?_)
    rintro chunk ec rfl
    simpa [nearby] using hok

/-- What was read comes back when each `sungetc` is called behind the first character of the chunk
in the get area. For a stream without the byte that the buffer was made with, only then. -/
theorem gives_back_inside {sh : State α × PutBackHistory α}
    (hreach : (putBackRuns α).Reach (fun sh a => nearby sh a = true) sh) :
    (sh.2.inside = true → GivesBack sh.1.get.received sh.2) ∧
      (default ∉ sh.1.get.received → GivesBack sh.1.get.received sh.2 → sh.2.inside = true) := by
  obtain ⟨-, htraced⟩ := traced hreach
  refine ⟨fun hinside => (htraced.inside hinside).2, fun hdefault hlaw => ?_⟩
  cases hinside : sh.2.inside with
  | true => rfl
  | false =>
    obtain ⟨r, hr, hreply⟩ := htraced.outside hinside
    exact absurd (List.mem_of_getElem? (hlaw.retreats r hr _ hreply).2) hdefault

/-- The second of two characters of a chunk is put back and read again, and the next chunk is
read. -/
theorem gives_back_inside_chunk :
    ∃ sh : State Nat × PutBackHistory Nat, GivesBack sh.1.get.received sh.2 ∧
    sh.1.get.received = [1, 2, 3] ∧ sh.2.readings.map Reading.reply =
    [some 3, some 2, some 2, some 1] ∧
    sh.2.retreats.map Retreat.reply = [some 2] := by
  let calls : List (Access Nat) :=
    [.sbumpc, .delivered [1, 2] false, .sbumpc, .sungetc, .sbumpc, .sgetc, .delivered [3] false]
  have hreach := (putBackRuns Nat).reach_of_run nearby (initial .halfDuplex, {})
    ⟨⟨_, rfl⟩, rfl⟩ calls rfl
  exact ⟨_, (gives_back_inside hreach).1 rfl, rfl, rfl, rfl⟩

/-- Two characters are read in chunks of one, and the second `sungetc` puts back a byte that the
stream never delivered. -/
theorem byte_from_nowhere : ∃ sh : State Nat × PutBackHistory Nat,
    (putBackRuns Nat).Reach (fun sh a => nearby sh a = true) sh ∧ sh.1.get.received = [1, 2] ∧
    sh.2.readings.map Reading.reply = [some 0, some 2, some 1] ∧
    ¬ GivesBack sh.1.get.received sh.2 := by
  let calls : List (Access Nat) :=
    [.sbumpc, .delivered [1] false, .sbumpc, .delivered [2] false, .sungetc, .sungetc, .sgetc]
  have hreach := (putBackRuns Nat).reach_of_run nearby (initial .halfDuplex, {})
    ⟨⟨_, rfl⟩, rfl⟩ calls rfl
  refine ⟨_, hreach, rfl, rfl, fun hlaw => ?_⟩
  have hchar := (hlaw.chars _ List.mem_cons_self 0 rfl).2
  exact absurd hchar (by decide)

end GreenThread.Streambuf
