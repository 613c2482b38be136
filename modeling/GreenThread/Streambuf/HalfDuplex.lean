import GreenThread.Streambuf.Output
import Mathlib.Data.List.GetD

/-!
# Half-duplex streaming

While no transfer fails, the characters read from a half-duplex streambuf are those the stream
delivered, in order, and every read of the stream is issued with an empty put area. `underflow`
flushes before it reads, and a read refills the get area only when all of it has been taken.
-/

namespace GreenThread.Streambuf

variable {α : Type*}

/-! ### The get area -/

/-- The delivered characters that have not been read. -/
def Get.unread (g : Get α) : List α := (g.buffer.drop g.gptr).take (g.egptr - g.gptr)

structure Get.Sound (g : Get α) : Prop where
  size : g.buffer.length = bufferSize + putbackMax
  order : g.gptr ≤ g.egptr
  bound : g.egptr ≤ g.buffer.length
  received : g.received = g.taken ++ g.unread
  peeked : ∀ p ∈ g.peeked, g.received[p.1]? = some p.2

theorem Get.unread_eq_nil {g : Get α} (h : g.gptr = g.egptr) : g.unread = [] := by
  rw [unread, h, Nat.sub_self, List.take_zero]

/-- A chunk behind the putback area, which leaves the size of the buffer as it is. -/
theorem fill_length {g : Get α} (hsize : g.buffer.length = bufferSize + putbackMax) {chunk : List α}
    (hchunk : chunk.length ≤ bufferSize - putbackMax) :
    (g.fill chunk).buffer.length = bufferSize + putbackMax := by
  simp only [Get.fill, List.length_append, List.length_take, List.length_drop, hsize]
  simp only [bufferSize, putbackMax] at hchunk ⊢
  omega

theorem Get.Sound.fill {g : Get α} (h : g.Sound) (hempty : g.gptr = g.egptr) {chunk : List α}
    (hchunk : chunk.length ≤ bufferSize - putbackMax) :
    ((g.fill chunk).setg putbackMax (putbackMax + chunk.length)).Sound := by
  have hsize := fill_length h.size hchunk
  have htaken : g.received = g.taken := by rw [h.received, unread_eq_nil hempty, List.append_nil]
  refine ⟨hsize, Nat.le_add_right _ _, ?_, ?_, fun p hp => ?_⟩
  · change putbackMax + chunk.length ≤ (g.fill chunk).buffer.length
    rw [hsize]
    simp only [bufferSize, putbackMax] at hchunk ⊢
    omega
  · have hputback : (g.buffer.take putbackMax).length = putbackMax := by
      rw [List.length_take, h.size]
      rfl
    have hunread : ((g.fill chunk).setg putbackMax (putbackMax + chunk.length)).unread = chunk := by
      rw [unread, setg, Get.fill, List.append_assoc, List.drop_left' hputback,
        Nat.add_sub_cancel_left, List.take_left]
    rw [hunread]
    exact congrArg (· ++ chunk) htaken
  · have hpeeked := h.peeked p hp
    obtain ⟨hlt, -⟩ := List.getElem?_eq_some_iff.mp hpeeked
    change (g.received ++ chunk)[p.1]? = some p.2
    rw [List.getElem?_append_left hlt]
    exact hpeeked

section Current

variable [Inhabited α]

theorem Get.unread_cons {g : Get α} (h : g.Sound) (hlt : g.gptr < g.egptr) :
    g.unread = g.current :: g.bump.unread := by
  have hbound : g.gptr < g.buffer.length := Nat.lt_of_lt_of_le hlt h.bound
  have hcurrent : g.current = g.buffer[g.gptr] := List.getD_eq_getElem _ _ hbound
  have hcount : g.egptr - g.gptr = g.egptr - (g.gptr + 1) + 1 := by omega
  rw [unread, hcount, List.drop_eq_getElem_cons hbound, List.take_succ_cons, hcurrent]
  rfl

theorem Get.Sound.bump {g : Get α} (h : g.Sound) (hlt : g.gptr < g.egptr) : g.bump.Sound := by
  refine ⟨h.size, hlt, h.bound, ?_, h.peeked⟩
  change g.received = (g.taken ++ [g.current]) ++ g.bump.unread
  rw [h.received, unread_cons h hlt, List.append_assoc, List.singleton_append]

theorem Get.Sound.peek {g : Get α} (h : g.Sound) (hlt : g.gptr < g.egptr) : g.peek.Sound := by
  refine ⟨h.size, h.order, h.bound, h.received, fun p hp => ?_⟩
  obtain rfl | hp := List.mem_cons.mp hp
  · change g.received[g.taken.length]? = some g.current
    rw [h.received, Get.unread_cons h hlt, List.getElem?_append_right (Nat.le_refl _), Nat.sub_self,
      List.getElem?_cons_zero]
  · exact h.peeked p hp

end Current

/-! ### Where the thread is -/

/-- What the get area has to be, and that the put area is empty wherever the code is about to
read. -/
structure State.Incoming (s : State α) : Prop where
  halfDuplex : s.duplexMode = .halfDuplex
  sound : s.get.Sound
  drained :
    match s.pos with
    | .reading _ => s.get.gptr = s.get.egptr ∧ s.put.pptr = s.put.pbase
    | .writing _ _ c (.underflow _) => c = none
    | .writingChar _ (.underflow _) => False
    | _ => True

namespace State

variable {s : State α} (hmode : s.duplexMode = .halfDuplex) (h : s.get.Sound)

include hmode h

theorem reply_incoming (r : Reply α) : (s.reply r).Incoming := ⟨hmode, h, trivial⟩

theorem underflowEof_incoming (r : Reader) : (s.underflowEof r).Incoming := by
  cases r <;> exact reply_incoming hmode h _

theorem underflowRead_incoming (hempty : s.put.pptr = s.put.pbase) (r : Reader) :
    (s.underflowRead r).Incoming := by
  rw [underflowRead]
  split
  · next hend => exact ⟨hmode, h, hend, hempty⟩
  · exact underflowEof_incoming hmode h r

theorem overflowReturn_incoming (f : Flusher)
    (hempty : (∃ r, f = .underflow r) → s.put.pptr = s.put.pbase)
    (reply : Reply α) : (s.overflowReturn f reply).Incoming := by
  cases f with
  | call => exact reply_incoming hmode h reply
  | underflow r => exact underflowRead_incoming hmode h (hempty ⟨r, rfl⟩) r
  | destructor => exact ⟨hmode, h, trivial⟩

theorem overflowEnd_incoming (c : Option α) (f : Flusher)
    (hsync : (∃ r, f = .underflow r) → c = none) :
    (s.overflowEnd c f).Incoming := by
  cases c with
  | none =>
    exact overflowReturn_incoming (s := { s with put := s.put.setp 0 s.put.buffer.length }) hmode h
      f (fun _ => rfl) _
  | some c =>
    refine overflowReturn_incoming
      (s := { s with put := (s.put.setp 0 s.put.buffer.length).store c }) hmode h f
      (fun hf => ?_) _
    cases hsync hf

theorem overflow_incoming (hwf : s.put.WellFormed s.unbuffered) (c : Option α) (f : Flusher)
    (hsync : (∃ r, f = .underflow r) → c = none) : (s.overflow c f).Incoming := by
  unfold overflow
  split
  · next hunbuffered =>
    have hnull := hwf.unbuffered hunbuffered
    have hpbase := hwf.pbase
    cases c with
    | none => exact overflowReturn_incoming hmode h f (fun _ => by omega) .notEof
    | some c =>
      refine ⟨hmode, h, ?_⟩
      cases f with
      | underflow r => cases hsync ⟨r, rfl⟩
      | _ => trivial
  · split
    · refine ⟨hmode, h, ?_⟩
      cases f with
      | underflow r => exact hsync ⟨r, rfl⟩
      | _ => trivial
    · exact overflowEnd_incoming hmode h c f hsync

theorem underflow_incoming (hwf : s.put.WellFormed s.unbuffered) (r : Reader) :
    (s.underflow r).Incoming := by
  rw [underflow, if_pos hmode]
  exact overflow_incoming hmode h hwf none (.underflow r) fun _ => rfl

theorem writtenChar_incoming (c : α) (f : Flusher) (hsync : ¬ ∃ r, f = .underflow r)
    (n : Nat) (ec : Bool) :
    (s.writtenChar c f n ec).Incoming := by
  have hreturn (put : Put α) (r : Reply α) : (overflowReturn { s with put } f r).Incoming :=
    overflowReturn_incoming (s := { s with put }) hmode h f (absurd · hsync) r
  unfold writtenChar
  split
  · exact hreturn _ .eof
  · exact hreturn _ (.char c)

theorem written_incoming {ptr size n : Nat} (c : Option α) (f : Flusher)
    (hsync : (∃ r, f = .underflow r) → c = none) :
    (s.written ptr size c f n false).Incoming := by
  unfold written
  rw [if_neg Bool.false_ne_true]
  split
  · refine ⟨hmode, h, ?_⟩
    cases f with
    | underflow r => exact hsync ⟨r, rfl⟩
    | _ => trivial
  · exact overflowEnd_incoming (s := { s with put := s.put.transfer ptr n }) hmode h c f hsync

variable [Inhabited α]

theorem sgetn_incoming (hwf : s.put.WellFormed s.unbuffered) (got left : Nat) :
    (s.sgetn got left).Incoming := by
  induction left generalizing s got with
  | zero => exact reply_incoming hmode h _
  | succ left ih =>
    rw [sgetn]
    split
    · next hlt => exact ih (s := { s with get := s.get.bump }) hmode (h.bump hlt) hwf (got + 1)
    · exact underflow_incoming hmode h hwf _

theorem underflowChar_incoming (hwf : s.put.WellFormed s.unbuffered)
    (hlt : s.get.gptr < s.get.egptr) (r : Reader) :
    (s.underflowChar r).Incoming := by
  cases r with
  | sgetc => exact reply_incoming (s := { s with get := s.get.peek }) hmode (h.peek hlt) _
  | sbumpc => exact reply_incoming (s := { s with get := s.get.bump }) hmode (h.bump hlt) _
  | sgetn got left => exact sgetn_incoming hmode h hwf got left
  | showmanyc => exact reply_incoming hmode h _

theorem read_incoming (hwf : s.put.WellFormed s.unbuffered) (r : Reader) : (s.read r).Incoming := by
  rw [read]
  split
  · next hlt => exact underflowChar_incoming hmode h hwf hlt r
  · exact underflow_incoming hmode h hwf r

theorem call_incoming (hwf : s.put.WellFormed s.unbuffered) {l : Label α} {s' : State α}
    (hcall : s.call l = some s') : s'.Incoming := by
  have hnot : (∃ r, Flusher.call = .underflow r) → ∀ c : Option α, c = none :=
    fun ⟨_, hr⟩ => nomatch hr
  cases l with
  | sputc c =>
    cases hcall
    rw [sputc]
    split
    · exact reply_incoming (s := { s with put := s.put.store c }) hmode h _
    · exact overflow_incoming hmode h hwf _ _ (hnot · _)
  | overflow c => cases hcall; exact overflow_incoming hmode h hwf _ _ (hnot · _)
  | sync => cases hcall; exact overflow_incoming hmode h hwf _ _ (hnot · _)
  | sgetc => cases hcall; exact read_incoming hmode h hwf .sgetc
  | sbumpc => cases hcall; exact read_incoming hmode h hwf .sbumpc
  | sgetn n => cases hcall; exact sgetn_incoming hmode h hwf 0 n
  | inAvail => cases hcall; exact read_incoming hmode h hwf .showmanyc
  | setbuf =>
    cases hcall
    rw [setbuf]
    split
    · exact reply_incoming (s := { s with unbuffered := true, put := s.put.setp 0 0 }) hmode h _
    · exact reply_incoming hmode h _
  | destroy =>
    cases hcall
    rw [destroy]
    split
    · exact overflow_incoming hmode h hwf _ _ fun _ => rfl
    · exact ⟨hmode, h, trivial⟩
  | written _ _ => cases hcall
  | delivered _ _ => cases hcall

theorem delivered_incoming (hwf : s.put.WellFormed s.unbuffered)
    (hempty : s.get.gptr = s.get.egptr) (r : Reader)
    {chunk : List α} (hroom : chunk.length ≤ bufferSize - putbackMax) (hchunk : chunk ≠ []) :
    (s.delivered r chunk false).Incoming := by
  unfold delivered
  have hsome : (false || chunk.isEmpty) = false := by simpa using hchunk
  rw [hsome, if_neg Bool.false_ne_true]
  have hlt : putbackMax < putbackMax + chunk.length :=
    Nat.lt_add_of_pos_right (List.length_pos_iff.mpr hchunk)
  exact underflowChar_incoming
    (s := { s with get := (s.get.fill chunk).setg putbackMax (putbackMax + chunk.length) }) hmode
      (h.fill hempty hroom)
    hwf hlt r

end State

/-! ### What a read replies -/

section Replies

def Flusher.reader : Flusher → Option Reader
  | .underflow r => some r
  | _ => none

/-- How many characters `sgetn` has got, while its call goes on and as it returns. -/
def Pos.got : Pos α → Option Nat
  | .idle (some (.count n)) => some n
  | .writing _ _ _ (.underflow (.sgetn got _)) | .reading (.sgetn got _) => some got
  | _ => none

/-- What a step in the call of `r` records, told by where it leaves the call: `sgetc` shows and
`sbumpc` takes the character it replies, and `sgetn` takes what it counts. -/
def Get.Records (g g' : Get α) (r : Reader) (p : Pos α) : Prop :=
  match r, p with
  | .sgetc, .idle (some (.char c)) =>
    g'.taken = g.taken ∧ g'.peeked = (g.taken.length, c) :: g.peeked
  | .sbumpc, .idle (some (.char c)) => g'.taken = g.taken ++ [c] ∧ g'.peeked = g.peeked
  | .sgetn got _, p =>
    g'.peeked = g.peeked ∧ ∃ cs, g'.taken = g.taken ++ cs ∧ p.got = some (got + cs.length)
  | _, _ => g'.taken = g.taken ∧ g'.peeked = g.peeked

namespace State

variable (s : State α)

theorem underflowEof_records (r : Reader) :
    s.get.Records (s.underflowEof r).get r (s.underflowEof r).pos := by
  cases r with
  | sgetn got left => exact ⟨rfl, [], (List.append_nil _).symm, rfl⟩
  | _ => exact ⟨rfl, rfl⟩

theorem writing_records (ptr size : Nat) (c : Option α) (r : Reader) :
    s.get.Records s.get r (.writing ptr size c (.underflow r)) := by
  cases r with
  | sgetn got left => exact ⟨rfl, [], (List.append_nil _).symm, rfl⟩
  | _ => exact ⟨rfl, rfl⟩

/-- The read whose call the step is part of. -/
def reader (l : Label α) : Option Reader :=
  match s.pos, l with
  | .idle _, .sgetc => some .sgetc
  | .idle _, .sbumpc => some .sbumpc
  | .idle _, .sgetn n => some (.sgetn 0 n)
  | .idle _, .inAvail => some .showmanyc
  | .writing _ _ _ f, .written _ _ | .writingChar _ f, .written _ _ => f.reader
  | .reading r, .delivered _ _ => some r
  | _, _ => none

theorem underflowRead_records (r : Reader) :
    s.get.Records (s.underflowRead r).get r (s.underflowRead r).pos := by
  rw [underflowRead]
  split
  · cases r with
    | sgetn got left => exact ⟨rfl, [], (List.append_nil _).symm, rfl⟩
    | _ => exact ⟨rfl, rfl⟩
  · exact underflowEof_records s r

theorem overflowEnd_records (c : Option α) (r : Reader) :
    s.get.Records (s.overflowEnd c (.underflow r)).get r (s.overflowEnd c (.underflow r)).pos := by
  cases c with
  | none => exact underflowRead_records { s with put := s.put.setp 0 s.put.buffer.length } r
  | some c =>
    exact underflowRead_records { s with put := (s.put.setp 0 s.put.buffer.length).store c } r

theorem underflow_records (r : Reader) :
    s.get.Records (s.underflow r).get r (s.underflow r).pos := by
  rw [underflow]
  split
  · rw [sync, overflow]
    split
    · exact underflowRead_records s r
    · split
      · exact writing_records s _ _ none r
      · exact overflowEnd_records s none r
  · exact underflowRead_records s r

variable [Inhabited α]

theorem sgetn_records (got left left' : Nat) :
    s.get.Records (s.sgetn got left).get (.sgetn got left') (s.sgetn got left).pos := by
  induction left generalizing s got with
  | zero => exact ⟨rfl, [], (List.append_nil _).symm, rfl⟩
  | succ left ih =>
    rw [sgetn]
    split
    · obtain ⟨hpeeked, cs, htaken, hgot⟩ := ih { s with get := s.get.bump } (got + 1)
      refine ⟨hpeeked, s.get.current :: cs, ?_, ?_⟩
      · rw [htaken, Get.bump, List.append_assoc, List.singleton_append]
      · rw [hgot, List.length_cons, Nat.add_right_comm, Nat.add_assoc]
    · exact underflow_records s (.sgetn got (left + 1))

theorem underflowChar_records (r : Reader) :
    s.get.Records (s.underflowChar r).get r (s.underflowChar r).pos := by
  cases r with
  | sgetn got left => exact sgetn_records s got left left
  | _ => exact ⟨rfl, rfl⟩

theorem read_records (r : Reader) : s.get.Records (s.read r).get r (s.read r).pos := by
  rw [read]
  split
  · exact underflowChar_records s r
  · exact underflow_records s r

theorem next_records {s' : State α} {l : Label α} (hnext : s.next l = some s') {r : Reader}
    (hr : s.reader l = some r) : s.get.Records s'.get r s'.pos := by
  cases hpos : s.pos with
  | idle last =>
    have hcall : s.call l = some s' := by simpa only [State.next, hpos] using hnext
    cases l with
    | sgetc | sbumpc | inAvail =>
      cases hcall
      obtain rfl : _ = r := by simpa only [reader, hpos, Option.some.injEq] using hr
      exact read_records s _
    | sgetn n =>
      cases hcall
      obtain rfl : .sgetn 0 n = r := by simpa only [reader, hpos, Option.some.injEq] using hr
      exact sgetn_records s 0 n n
    | _ => simp [reader, hpos] at hr
  | writing ptr size c f =>
    cases l with
    | written n ec =>
      simp only [State.next, hpos, Option.ite_none_right_eq_some, Option.some.injEq] at hnext
      obtain ⟨-, rfl⟩ := hnext
      cases f with
      | underflow r' =>
        obtain rfl : r' = r := by simpa [reader, hpos, Flusher.reader] using hr
        rw [written]
        split
        · exact underflowRead_records { s with put := s.put.transfer ptr n } r'
        · split
          · exact writing_records s _ _ c r'
          · exact overflowEnd_records { s with put := s.put.transfer ptr n } c r'
      | _ => simp [reader, hpos, Flusher.reader] at hr
    | _ => simp [State.next, hpos] at hnext
  | writingChar c f =>
    cases l with
    | written n ec =>
      simp only [State.next, hpos, Option.ite_none_right_eq_some, Option.some.injEq] at hnext
      obtain ⟨-, rfl⟩ := hnext
      cases f with
      | underflow r' =>
        obtain rfl : r' = r := by simpa [reader, hpos, Flusher.reader] using hr
        rw [writtenChar]
        split
        · exact underflowRead_records { s with put := _ } r'
        · exact underflowRead_records { s with put := _ } r'
      | _ => simp [reader, hpos, Flusher.reader] at hr
    | _ => simp [State.next, hpos] at hnext
  | reading r' =>
    cases l with
    | delivered chunk ec =>
      simp only [State.next, hpos, Option.ite_none_right_eq_some, Option.some.injEq] at hnext
      obtain ⟨-, rfl⟩ := hnext
      obtain rfl : r' = r := by simpa [reader, hpos] using hr
      rw [delivered]
      split
      · exact underflowEof_records { s with get := s.get.fill chunk } r'
      · exact underflowChar_records { s with
          get := (s.get.fill chunk).setg putbackMax (putbackMax + chunk.length) } r'
    | _ => simp [State.next, hpos] at hnext
  | destroyed => simp [State.next, hpos] at hnext

end State

end Replies

/-! ### Every run without an error -/

variable [Inhabited α]

/-- A half-duplex streambuf, which is the default. -/
def halfDuplex (α : Type*) [Inhabited α] : TransitionSystem (State α) (Label α) where
  init s := s = initial .halfDuplex
  step := State.next

/-- A transfer completes without an error, and transfers something. -/
def Label.transfers : Label α → Bool
  | .written n ec => !ec && n != 0
  | .delivered chunk ec => !ec && !chunk.isEmpty
  | _ => true

/-- The characters read are the first ones delivered, each that was only looked at is the next one,
the bytes written are the first ones put, and all of them when the stream is read. The characters
counted as read or looked at are those that the calls reply. -/
structure Faithful (s : State α) : Prop where
  read : s.get.taken <+: s.get.received
  peeked : ∀ p ∈ s.get.peeked, s.get.received[p.1]? = some p.2
  replied : ∀ l s' r, s.next l = some s' → s.reader l = some r → s.get.Records s'.get r s'.pos
  written : s.put.sent <+: s.put.accepted
  flushed : ∀ r, s.pos = .reading r → s.put.sent = s.put.accepted

theorem incoming_initial : (initial (α := α) .halfDuplex).Incoming := by
  refine ⟨rfl, ⟨List.length_replicate, Nat.le_refl _, ?_, ?_, nofun⟩, trivial⟩
  · change putbackMax ≤ (List.replicate (bufferSize + putbackMax) (default : α)).length
    rw [List.length_replicate]
    exact Nat.le_add_left _ _
  · change [] = [] ++ (initial .halfDuplex).get.unread
    rw [Get.unread_eq_nil rfl, List.append_nil]

theorem incoming_next {s s' : State α} (hout : s.Outgoing false) (h : s.Incoming) {l : Label α}
    (hnext : s.next l = some s') (hok : l.transfers = true) : s'.Incoming := by
  have hwf := hout.wellFormed
  obtain ⟨hmode, hsound, hdrained⟩ := h
  cases hpos : s.pos with
  | idle last =>
    have hcall : s.call l = some s' := by simpa only [State.next, hpos] using hnext
    exact State.call_incoming hmode hsound hwf hcall
  | writing ptr size c f =>
    cases l with
    | written n ec =>
      simp only [State.next, hpos, Option.ite_none_right_eq_some, Option.some.injEq] at hnext
      obtain ⟨-, rfl⟩ := hnext
      simp only [Label.transfers, Bool.and_eq_true, Bool.not_eq_true'] at hok
      obtain ⟨rfl, -⟩ := hok
      rw [hpos] at hdrained
      refine State.written_incoming hmode hsound c f ?_
      rintro ⟨r, rfl⟩
      exact hdrained
    | _ => simp [State.next, hpos] at hnext
  | writingChar c f =>
    cases l with
    | written n ec =>
      simp only [State.next, hpos, Option.ite_none_right_eq_some, Option.some.injEq] at hnext
      obtain ⟨-, rfl⟩ := hnext
      rw [hpos] at hdrained
      have hnot : ¬ ∃ r, f = .underflow r := by
        rintro ⟨r, rfl⟩
        exact hdrained
      exact State.writtenChar_incoming hmode hsound c f hnot n ec
    | _ => simp [State.next, hpos] at hnext
  | reading r =>
    cases l with
    | delivered chunk ec =>
      simp only [State.next, hpos, Option.ite_none_right_eq_some, Option.some.injEq] at hnext
      obtain ⟨hroom, rfl⟩ := hnext
      simp only [Label.transfers, Bool.and_eq_true, Bool.not_eq_true',
        List.isEmpty_eq_false_iff] at hok
      obtain ⟨rfl, hchunk⟩ := hok
      rw [hpos] at hdrained
      exact State.delivered_incoming hmode hsound hwf hdrained.1 r hroom hchunk
    | _ => simp [State.next, hpos] at hnext
  | destroyed => simp [State.next, hpos] at hnext

/-- No put area becomes stale when no write fails. -/
theorem outgoing_transfers {s s' : State α} (h : s.Outgoing false) {l : Label α}
    (hnext : s.next l = some s') (hok : l.transfers = true) : s'.Outgoing false := by
  have hretry : noRetry (s, false) l = true := by
    unfold noRetry
    split
    · rw [Bool.not_false, Bool.or_true]
    · rfl
  have hstale : stale false s l s' = false := by
    unfold stale
    split
    all_goals simp_all [Label.transfers]
  exact hstale ▸ outgoing_next h hnext hretry

end GreenThread.Streambuf
