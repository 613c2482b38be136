import GreenThread.Streambuf.Code

/-!
# Output of a stream buffer

What the streambuf has accepted is what it has transferred followed by what it still offers, as long
as no `overflow` starts over with a put area of which some bytes are out. An `overflow` that leaves
on an error keeps `pbase()` and `pptr()` as they were, so that the next one offers all of the put
area again.
-/

namespace GreenThread.Streambuf

variable {α : Type*}

/-! ### The put area -/

/-- The pointers stay in the buffer; without a put area they are null. -/
structure Put.WellFormed (p : Put α) (unbuffered : Bool) : Prop where
  size : p.buffer.length = bufferSize
  pbase : p.pbase = 0
  buffered : unbuffered = false → p.epptr = bufferSize ∧ p.pptr ≤ bufferSize
  unbuffered : unbuffered = true → p.epptr = 0 ∧ p.pptr = 0

/-- The characters in the put area. -/
def Put.unsent (p : Put α) : List α := (p.buffer.drop p.pbase).take (p.pptr - p.pbase)

/-- Everything accepted is sent or in the put area. When some of the put area is out already
(`stale`), what is sent is still a prefix of what was accepted. -/
def Put.Accounted (stale : Bool) (p : Put α) (unbuffered : Bool) : Prop :=
  if stale then unbuffered = false → p.sent <+: p.accepted ∧ p.pbase < p.pptr
    else p.accepted = p.sent ++ p.unsent

/-- The put area between the writes. -/
structure Put.Sound (stale : Bool) (p : Put α) (unbuffered : Bool) : Prop where
  wellFormed : p.WellFormed unbuffered
  accounted : p.Accounted stale unbuffered

/-- The put area at a write of `size` bytes from `ptr`. -/
structure Put.Offers (stale : Bool) (p : Put α) (ptr size : Nat) : Prop where
  wellFormed : p.WellFormed false
  pos : 0 < size
  last : ptr + size = p.pptr
  accounted : if stale then p.sent <+: p.accepted
    else p.accepted = p.sent ++ (p.buffer.drop ptr).take size

theorem Put.unsent_eq_nil {p : Put α} (h : p.pptr = p.pbase) : p.unsent = [] := by
  rw [unsent, h, Nat.sub_self, List.take_zero]

theorem Put.setp_sound {p : Put α} (h : p.WellFormed false) (hsent : p.accepted = p.sent) :
    (p.setp 0 p.buffer.length).Sound false false := by
  refine ⟨⟨h.size, rfl, fun _ => ⟨h.size, Nat.zero_le _⟩, nofun⟩, ?_⟩
  change p.accepted = p.sent ++ (p.setp 0 p.buffer.length).unsent
  rw [Put.unsent_eq_nil (p := p.setp 0 p.buffer.length) rfl, hsent, List.append_nil]

theorem Put.store_unsent {p : Put α} (h : p.WellFormed false)
    (hroom : p.pptr < bufferSize) (c : α) :
    (p.store c).unsent = p.unsent ++ [c] := by
  have hlt : p.pptr < p.buffer.length := by rw [h.size]; exact hroom
  simp only [unsent, store, h.pbase, List.drop_zero, Nat.sub_zero]
  rw [List.take_add_one, List.take_set_of_le (Nat.le_refl _), List.getElem?_set_self hlt,
    Option.toList_some]

theorem Put.store_sound {stale : Bool} {p : Put α} (h : p.Sound stale false)
    (hroom : p.pptr < bufferSize) (c : α) :
    (p.store c).Sound stale false := by
  obtain ⟨hwf, haccounted⟩ := h
  refine ⟨⟨?_, hwf.pbase, fun _ => ⟨(hwf.buffered rfl).1, hroom⟩, nofun⟩, ?_⟩
  · rw [← hwf.size]
    exact List.length_set ..
  · cases stale with
    | true => exact fun _ =>
      ⟨(haccounted rfl).1.trans (List.prefix_append _ _), Nat.lt_succ_of_lt (haccounted rfl).2⟩
    | false =>
      change p.accepted ++ [c] = p.sent ++ (p.store c).unsent
      rw [store_unsent hwf hroom, ← List.append_assoc]
      exact congrArg (· ++ [c]) haccounted

/-! ### Where the thread is -/

/-- What the put area has to be at each place in the code. -/
def State.Outgoing (stale : Bool) (s : State α) : Prop :=
  match s.pos with
  | .writing ptr size _ _ => s.unbuffered = false ∧ s.put.Offers stale ptr size
  | .writingChar _ _ => s.unbuffered = true ∧ s.put.Sound stale s.unbuffered
  | .idle _ | .reading _ | .destroyed => s.put.Sound stale s.unbuffered

namespace State

variable {stale : Bool} {s : State α}

theorem underflowEof_outgoing (h : s.put.Sound stale s.unbuffered) (r : Reader) :
    (s.underflowEof r).Outgoing stale := by
  cases r <;> exact h

theorem underflowRead_outgoing (h : s.put.Sound stale s.unbuffered) (r : Reader) :
    (s.underflowRead r).Outgoing stale := by
  rw [underflowRead]
  split
  · exact h
  · exact underflowEof_outgoing h r

theorem overflowReturn_outgoing (h : s.put.Sound stale s.unbuffered) (f : Flusher) (r : Reply α) :
    (s.overflowReturn f r).Outgoing stale := by
  cases f with
  | call => exact h
  | underflow reader => exact underflowRead_outgoing h reader
  | destructor => exact h

theorem overflowEnd_outgoing (hbuffered : s.unbuffered = false) (h : s.put.WellFormed false)
    (hsent : s.put.accepted = s.put.sent) (c : Option α) (f : Flusher) :
    (s.overflowEnd c f).Outgoing false := by
  have hsetp := Put.setp_sound h hsent
  cases c with
  | none =>
    refine overflowReturn_outgoing
      (s := { s with put := s.put.setp 0 s.put.buffer.length }) ?_ f .notEof
    exact hbuffered ▸ hsetp
  | some c =>
    have hstore := Put.store_sound hsetp (Nat.succ_pos _) c
    refine overflowReturn_outgoing
      (s := { s with put := (s.put.setp 0 s.put.buffer.length).store c }) ?_ f (.char c)
    exact hbuffered ▸ hstore

theorem overflow_outgoing (h : s.put.Sound stale s.unbuffered) (c : Option α) (f : Flusher) :
    (s.overflow c f).Outgoing stale := by
  unfold overflow
  split
  · next hunbuffered =>
    cases c with
    | none => exact overflowReturn_outgoing h f .notEof
    | some c => exact ⟨hunbuffered, h⟩
  · next hbuffered =>
    rw [Bool.not_eq_true] at hbuffered
    obtain ⟨hwf, haccounted⟩ := hbuffered ▸ h
    have hpbase := hwf.pbase
    split
    · next hsize =>
      refine ⟨hbuffered, hwf, hsize, ?_, ?_⟩
      · change s.put.pbase + (s.put.pptr - s.put.pbase) = s.put.pptr
        omega
      · cases stale with
        | true => exact (haccounted rfl).1
        | false => exact haccounted
    · next hempty =>
      -- With an empty put area nothing of it can be out.
      cases stale with
      | true =>
        have := (haccounted rfl).2
        omega
      | false =>
        have hunsent := Put.unsent_eq_nil (p := s.put) (by omega)
        refine overflowEnd_outgoing hbuffered hwf ?_ c f
        rw [haccounted, hunsent, List.append_nil]

theorem underflow_outgoing (h : s.put.Sound stale s.unbuffered) (r : Reader) :
    (s.underflow r).Outgoing stale := by
  rw [underflow]
  split
  · exact overflow_outgoing h none (.underflow r)
  · exact underflowRead_outgoing h r

theorem sputc_outgoing (h : s.put.Sound stale s.unbuffered) (c : α) :
    (s.sputc c).Outgoing stale := by
  rw [sputc]
  split
  · next hroom =>
    have hwf := h.wellFormed
    cases hunbuffered : s.unbuffered with
    | true =>
      have := hwf.unbuffered hunbuffered
      omega
    | false =>
      have hbuffered := hwf.buffered hunbuffered
      rw [hunbuffered] at h
      exact Put.store_sound h (hbuffered.1 ▸ hroom) c
  · exact overflow_outgoing h (some c) .call

theorem setbuf_outgoing (h : s.put.Sound stale s.unbuffered) : s.setbuf.Outgoing stale := by
  rw [setbuf]
  split
  · next hempty =>
    obtain ⟨hwf, haccounted⟩ := h
    refine ⟨⟨hwf.size, rfl, nofun, fun _ => ⟨rfl, rfl⟩⟩, ?_⟩
    cases stale with
    | true => exact fun hbuffered => nomatch hbuffered
    | false =>
      have hunsent := Put.unsent_eq_nil hempty
      change s.put.accepted = s.put.sent ++ (s.put.setp 0 0).unsent
      rw [Put.unsent_eq_nil (p := s.put.setp 0 0) rfl, ← hunsent]
      exact haccounted
  · exact h

theorem destroy_outgoing (h : s.put.Sound stale s.unbuffered) : s.destroy.Outgoing stale := by
  rw [destroy]
  split
  · exact overflow_outgoing h none .destructor
  · exact h

theorem written_outgoing {ptr size n : Nat} (hbuffered : s.unbuffered = false)
    (h : s.put.Offers false ptr size) (hn : n ≤ size) (c : Option α) (f : Flusher) :
    (s.written ptr size c f n false).Outgoing false := by
  have hsplit : s.put.accepted = (s.put.transfer ptr n).sent ++ (s.put.buffer.drop (ptr + n)).take
    (size - n) := by
    have htake := List.take_add (l := s.put.buffer.drop ptr) (i := n) (j := size - n)
    rw [Nat.add_sub_cancel' hn, List.drop_drop] at htake
    rw [Put.transfer, List.append_assoc, ← htake]
    exact h.accounted
  have hwf := h.wellFormed
  unfold written
  rw [if_neg Bool.false_ne_true]
  split
  · next hmore =>
    refine ⟨hbuffered, ⟨hwf.size, hwf.pbase, hwf.buffered, hwf.unbuffered⟩, hmore, ?_, hsplit⟩
    have hlast := h.last
    change ptr + n + (size - n) = s.put.pptr
    omega
  · next hdone =>
    rw [Nat.eq_zero_of_not_pos hdone, List.take_zero, List.append_nil] at hsplit
    exact overflowEnd_outgoing (s := { s with put := s.put.transfer ptr n }) hbuffered
      ⟨hwf.size, hwf.pbase, hwf.buffered, hwf.unbuffered⟩ hsplit c f

/-- After a failed write some of the put area is out, unless the write was the first of its
`overflow` and wrote nothing. -/
theorem offers_sound {ptr size n : Nat} (h : s.put.Offers false ptr size) (hn : n ≤ size) :
    (s.put.transfer ptr n).Sound (ptr + n != s.put.pbase) false := by
  have hwf := h.wellFormed
  have hlast := h.last
  have hpos := h.pos
  have haccounted : s.put.accepted = s.put.sent ++ (s.put.buffer.drop ptr).take size := h.accounted
  have hpbase := hwf.pbase
  refine ⟨⟨hwf.size, hwf.pbase, hwf.buffered, hwf.unbuffered⟩, ?_⟩
  cases hout : ptr + n != s.put.pbase with
  | true =>
    refine fun _ => ⟨?_, ?_⟩
    · change s.put.sent ++ (s.put.buffer.drop ptr).take n <+: s.put.accepted
      rw [haccounted]
      exact (List.prefix_append_right_inj _).mpr (List.take_prefix_take_left hn)
    · change s.put.pbase < s.put.pptr
      omega
  | false =>
    have hnone : ptr + n = s.put.pbase := by simpa using hout
    obtain ⟨hptr, hzero⟩ : ptr = 0 ∧ n = 0 := by omega
    have hsize : size = s.put.pptr - s.put.pbase := by omega
    change s.put.accepted = s.put.sent ++ (s.put.buffer.drop ptr).take n ++ s.put.unsent
    rw [haccounted, Put.unsent, hsize, hpbase, hptr, hzero, List.take_zero, List.append_nil]

/-- Once some of the put area is out, a write that transfers nothing changes nothing. -/
theorem written_stale {ptr size : Nat} (hbuffered : s.unbuffered = false)
    (h : s.put.Offers true ptr size)
    (c : Option α) (f : Flusher) (ec : Bool) : (s.written ptr size c f 0 ec).Outgoing true := by
  have hwf := h.wellFormed
  have hlast := h.last
  have hpos := h.pos
  have hpbase := hwf.pbase
  have hsent : (s.put.transfer ptr 0).sent = s.put.sent := List.append_nil _
  have hfirst : (s.put.transfer ptr 0).sent <+: s.put.accepted := hsent ▸ h.accounted
  unfold written
  cases ec with
  | true =>
    have hsound : (s.put.transfer ptr 0).Sound true false := by
      refine ⟨⟨hwf.size, hwf.pbase, hwf.buffered, hwf.unbuffered⟩, fun _ => ⟨hfirst, ?_⟩⟩
      change s.put.pbase < s.put.pptr
      omega
    exact overflowReturn_outgoing (s := { s with put := s.put.transfer ptr 0 })
      (hbuffered ▸ hsound) f .eof
  | false =>
    rw [if_neg Bool.false_ne_true, if_pos (by omega)]
    exact ⟨hbuffered, ⟨hwf.size, hwf.pbase, hwf.buffered, hwf.unbuffered⟩, by omega, hlast, hfirst⟩

theorem writtenChar_outgoing (h : s.put.Sound false true) (hunbuffered : s.unbuffered = true)
    (c : α) (f : Flusher) :
    (s.writtenChar c f 1 false).Outgoing false := by
  have hwf := h.wellFormed
  have hnull := hwf.unbuffered rfl
  have hpbase := hwf.pbase
  have hunsent := Put.unsent_eq_nil (p := s.put) (by omega)
  have haccounted : s.put.accepted = s.put.sent ++ s.put.unsent := h.accounted
  have hsound : Put.Sound false { s.put with
    sent := s.put.sent ++ [c], accepted := s.put.accepted ++ [c] } true := by
    refine ⟨⟨hwf.size, hwf.pbase, hwf.buffered, hwf.unbuffered⟩, ?_⟩
    change s.put.accepted ++ [c] = s.put.sent ++ [c] ++ s.put.unsent
    rw [haccounted, hunsent, List.append_nil, List.append_nil]
  exact overflowReturn_outgoing
    (s := { s with
      put := { s.put with sent := s.put.sent ++ [c], accepted := s.put.accepted ++ [c] } })
    (hunbuffered ▸ hsound) f (.char c)

variable [Inhabited α]

theorem sgetn_outgoing (h : s.put.Sound stale s.unbuffered) (got left : Nat) :
    (s.sgetn got left).Outgoing stale := by
  induction left generalizing s got with
  | zero => exact h
  | succ left ih =>
    rw [sgetn]
    split
    · exact ih (s := { s with get := s.get.bump }) h (got + 1)
    · exact underflow_outgoing h _

theorem underflowChar_outgoing (h : s.put.Sound stale s.unbuffered) (r : Reader) :
    (s.underflowChar r).Outgoing stale := by
  cases r with
  | sgetc => exact h
  | sbumpc => exact h
  | sgetn got left => exact sgetn_outgoing h got left
  | showmanyc => exact h

theorem read_outgoing (h : s.put.Sound stale s.unbuffered) (r : Reader) :
    (s.read r).Outgoing stale := by
  rw [read]
  split
  · exact underflowChar_outgoing h r
  · exact underflow_outgoing h r

theorem call_outgoing (h : s.put.Sound stale s.unbuffered) {l : Label α} {s' : State α}
    (hcall : s.call l = some s') :
    s'.Outgoing stale := by
  cases l with
  | sputc c => cases hcall; exact sputc_outgoing h c
  | overflow c => cases hcall; exact overflow_outgoing h c .call
  | sync => cases hcall; exact overflow_outgoing h none .call
  | sgetc => cases hcall; exact read_outgoing h .sgetc
  | sbumpc => cases hcall; exact read_outgoing h .sbumpc
  | sgetn n => cases hcall; exact sgetn_outgoing h 0 n
  | inAvail => cases hcall; exact read_outgoing h .showmanyc
  | setbuf => cases hcall; exact setbuf_outgoing h
  | destroy => cases hcall; exact destroy_outgoing h
  | written _ _ => cases hcall
  | delivered _ _ => cases hcall

theorem delivered_outgoing (h : s.put.Sound stale s.unbuffered) (r : Reader)
    (chunk : List α) (ec : Bool) :
    (s.delivered r chunk ec).Outgoing stale := by
  rw [delivered]
  split
  · exact underflowEof_outgoing (s := { s with get := s.get.fill chunk }) h r
  · exact underflowChar_outgoing
      (s := { s with get := (s.get.fill chunk).setg putbackMax (putbackMax + chunk.length) }) h r

end State

/-! ### Every run -/

/-- Whether an `overflow` has left on an error after bytes of the put area were out, and the put
area has not been written out since, or a write of a single character has failed. -/
def stale (b : Bool) (s : State α) (l : Label α) (_ : State α) : Bool :=
  match s.pos, l with
  | .writing ptr size _ _, .written n ec =>
    if ec then b || ptr + n != s.put.pbase else if size - n > 0 then b else false
  | .writingChar _ _, .written n ec => b || ec || n == 0
  | _, _ => b

/-- The runs of a streambuf with this history. -/
def tracked (α : Type*) [Inhabited α] : TransitionSystem (State α × Bool) (Label α) :=
  (system α).withHistory false stale

/-- No write transfers a byte of a put area after an `overflow` has left on an error with bytes of
it out. -/
def noRetry (sb : State α × Bool) (l : Label α) : Bool :=
  match sb.1.pos, l with
  | .writing _ _ _ _, .written n _ => n == 0 || !sb.2
  | _, _ => true

theorem outgoing_written {s : State α} {b : Bool} {ptr size n : Nat} {c : Option α} {f : Flusher}
    (hpos : s.pos = .writing ptr size c f) (h : s.Outgoing b) (hn : n ≤ size) (ec : Bool)
    (hok : noRetry (s, b) (.written n ec) = true) :
    (s.written ptr size c f n ec).Outgoing
    (stale b s (.written n ec) (s.written ptr size c f n ec)) := by
  rw [State.Outgoing, hpos] at h
  obtain ⟨hbuffered, hoffers⟩ := h
  simp only [noRetry, hpos, Bool.or_eq_true, beq_iff_eq, Bool.not_eq_true'] at hok
  simp only [stale, hpos]
  cases b with
  | true =>
    obtain rfl : n = 0 := hok.resolve_right (by decide)
    have hstale := State.written_stale hbuffered hoffers c f ec
    have hsize := hoffers.pos
    rw [Bool.true_or, Nat.sub_zero, if_pos hsize, ite_self]
    exact hstale
  | false =>
    cases ec with
    | true =>
      rw [if_pos rfl, Bool.false_or]
      have hsound := State.offers_sound hoffers hn
      exact State.overflowReturn_outgoing (s := { s with put := s.put.transfer ptr n })
        (hbuffered ▸ hsound) f .eof
    | false =>
      rw [if_neg Bool.false_ne_true, ite_self]
      exact State.written_outgoing hbuffered hoffers hn c f

theorem outgoing_writtenChar {s : State α} {b : Bool} {n : Nat} {c : α} {f : Flusher}
    (hpos : s.pos = .writingChar c f) (h : s.Outgoing b) (hn : n ≤ 1) (ec : Bool) :
    (s.writtenChar c f n ec).Outgoing (stale b s (.written n ec) (s.writtenChar c f n ec)) := by
  rw [State.Outgoing, hpos] at h
  obtain ⟨hunbuffered, hsound⟩ := h
  rw [hunbuffered] at hsound
  have hwf := hsound.wellFormed
  simp only [stale, hpos]
  by_cases hgood : b = false ∧ ec = false ∧ n ≠ 0
  · obtain ⟨rfl, rfl, hone⟩ := hgood
    obtain rfl : n = 1 := by omega
    exact State.writtenChar_outgoing hsound hunbuffered c f
  · have hstale : (b || ec || n == 0) = true := by
      cases b <;> cases ec <;> simp_all
    rw [hstale]
    -- Nothing is said of an unbuffered streambuf after such a write.
    have hlenient (accepted sent : List α) (r : Reply α) :
        (State.overflowReturn { s with put := { s.put with accepted, sent } } f r).Outgoing
        true := by
      refine State.overflowReturn_outgoing
        (s := { s with put := { s.put with accepted, sent } }) ?_ f r
      change Put.Sound true _ s.unbuffered
      rw [hunbuffered]
      exact ⟨⟨hwf.size, hwf.pbase, hwf.buffered, hwf.unbuffered⟩, nofun⟩
    unfold State.writtenChar
    split
    · exact hlenient s.put.accepted (s.put.sent ++ [c].take n) .eof
    · exact hlenient (s.put.accepted ++ [c]) (s.put.sent ++ [c].take n) (.char c)

theorem Put.Sound.sent_accepted {b unbuffered : Bool} {p : Put α} (h : p.Sound b unbuffered)
    (hknown : b = false ∨ unbuffered = false) : p.sent <+: p.accepted := by
  have haccounted := h.accounted
  cases b with
  | true => exact (haccounted (hknown.resolve_left (by decide))).1
  | false => exact haccounted ▸ List.prefix_append _ _

/-- At every place in the code what is sent is a prefix of what was accepted. -/
theorem State.Outgoing.sent_accepted {s : State α} {b : Bool} (h : s.Outgoing b)
    (hknown : b = false ∨ s.unbuffered = false) :
    s.put.sent <+: s.put.accepted := by
  rw [State.Outgoing] at h
  split at h
  · have haccounted := h.2.accounted
    split at haccounted
    · exact haccounted
    · exact haccounted ▸ List.prefix_append _ _
  · exact h.2.sent_accepted hknown
  all_goals exact h.sent_accepted hknown

theorem State.Outgoing.wellFormed {s : State α} {b : Bool} (h : s.Outgoing b) :
    s.put.WellFormed s.unbuffered := by
  rw [State.Outgoing] at h
  split at h
  · exact h.1 ▸ h.2.wellFormed
  · exact h.2.wellFormed
  all_goals exact h.wellFormed

variable [Inhabited α]

theorem outgoing_initial (duplexMode : DuplexMode) :
    (initial (α := α) duplexMode).Outgoing false := by
  refine ⟨⟨List.length_replicate, rfl, fun _ => ⟨rfl, Nat.zero_le _⟩, nofun⟩, ?_⟩
  change [] = [] ++ (initial duplexMode).put.unsent
  rw [Put.unsent_eq_nil rfl, List.append_nil]

theorem outgoing_next {s s' : State α} {b : Bool} (h : s.Outgoing b) {l : Label α}
    (hnext : s.next l = some s')
    (hok : noRetry (s, b) l = true) : s'.Outgoing (stale b s l s') := by
  cases hpos : s.pos with
  | idle last =>
    rw [State.Outgoing, hpos] at h
    have hcall : s.call l = some s' := by simpa only [State.next, hpos] using hnext
    have hstale : stale b s l s' = b := by simp only [stale, hpos]
    rw [hstale]
    exact State.call_outgoing h hcall
  | writing ptr size c f =>
    cases l with
    | written n ec =>
      simp only [State.next, hpos, Option.ite_none_right_eq_some, Option.some.injEq] at hnext
      obtain ⟨hn, rfl⟩ := hnext
      exact outgoing_written hpos h hn ec hok
    | _ => simp [State.next, hpos] at hnext
  | writingChar c f =>
    cases l with
    | written n ec =>
      simp only [State.next, hpos, Option.ite_none_right_eq_some, Option.some.injEq] at hnext
      obtain ⟨hn, rfl⟩ := hnext
      exact outgoing_writtenChar hpos h hn ec
    | _ => simp [State.next, hpos] at hnext
  | reading r =>
    rw [State.Outgoing, hpos] at h
    cases l with
    | delivered chunk ec =>
      simp only [State.next, hpos, Option.ite_none_right_eq_some, Option.some.injEq] at hnext
      obtain ⟨-, rfl⟩ := hnext
      have hstale : stale b s (.delivered chunk ec) (s.delivered r chunk ec) = b := by
        simp only [stale, hpos]
      rw [hstale]
      exact State.delivered_outgoing h r chunk ec
    | _ => simp [State.next, hpos] at hnext
  | destroyed => simp [State.next, hpos] at hnext

theorem outgoing {sb : State α × Bool}
    (hreach : (tracked α).Reach (fun sb l => noRetry sb l = true) sb) :
    sb.1.Outgoing sb.2 := by
  refine hreach.invariant (I := fun sb => sb.1.Outgoing sb.2)
    (fun sb hinit => ?_) fun sb l sb' _ ih hok hstep => ?_
  · obtain ⟨⟨duplexMode, hs⟩, hb⟩ := hinit
    rw [hs, hb]
    exact outgoing_initial duplexMode
  · obtain ⟨s', hnext, rfl⟩ := TransitionSystem.withHistory_step.mp hstep
    exact outgoing_next ih hnext hok

/-- What is sent is at any time a prefix of what was accepted. -/
theorem output_in_order {sb : State α × Bool}
    (hreach : (tracked α).Reach (fun sb l => noRetry sb l = true) sb)
    (hbuffered : sb.1.unbuffered = false) : sb.1.put.sent <+: sb.1.put.accepted :=
  (outgoing hreach).sent_accepted (.inr hbuffered)

/-- A write fails before anything is out, and `sync` is called again. -/
theorem output_in_order_retried :
    ∃ sb : State Nat × Bool, sb.1.put.sent <+: sb.1.put.accepted ∧ sb.1.put.sent = [1] ∧
    sb.1.put.accepted = [1, 2] := by
  let labels : List (Label Nat) :=
    [.sputc 1, .sputc 2, .sync, .written 0 true, .sync, .written 1 false]
  have hreach := (tracked Nat).reach_of_run noRetry (initial .halfDuplex, false)
    ⟨⟨_, rfl⟩, rfl⟩ labels rfl
  exact ⟨_, output_in_order hreach rfl, rfl, rfl⟩

/-- A write fails after one of two bytes, and the next `sync` sends that byte again. -/
theorem byte_sent_twice :
    ∃ sb : State Nat × Bool, (tracked Nat).Reachable sb ∧ sb.1.unbuffered = false ∧
    sb.1.put.accepted = [1, 2] ∧ sb.1.put.sent = [1, 1] ∧
    ¬ sb.1.put.sent <+: sb.1.put.accepted := by
  let labels : List (Label Nat) :=
    [.sputc 1, .sputc 2, .sync, .written 1 true, .sync, .written 1 false]
  have hreach := (tracked Nat).reach_of_run (fun _ _ => true) (initial .halfDuplex, false)
    ⟨⟨_, rfl⟩, rfl⟩ labels rfl
  exact ⟨_, hreach.reachable, rfl, rfl, rfl, by decide⟩

end GreenThread.Streambuf
