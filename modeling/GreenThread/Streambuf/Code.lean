import GreenThread.Library.System
import Mathlib.Data.List.Basic

/-!
# The stream buffer

`streambuf_base` of `streambuf.hpp` over an asynchronous stream, with the members of
`std::streambuf` that call it. A call runs up to its next `async_write_some` or `async_read_some`,
where its thread waits; the stream then transfers some of the bytes offered, or fails, and the call
goes on. Pointers into a buffer are positions in it, and the null pointers that `setp(0, 0)` sets
are position 0.

The characters are of any type: what is proved of them is proved of characters that carry the number
of the byte, so that no two bytes are confused.
-/

namespace GreenThread.Streambuf

variable {α : Type*} [Inhabited α]

def putbackMax : Nat := 8

def bufferSize : Nat := 1500

inductive DuplexMode
  | fullDuplex
  | halfDuplex
  deriving DecidableEq

/-- `put_buffer_` and the put area, with the characters the streambuf accepted and the bytes
transferred to the stream. -/
structure Put (α : Type*) where
  buffer : List α
  pbase : Nat
  pptr : Nat
  epptr : Nat
  accepted : List α := []
  sent : List α := []

/-- `get_buffer_` and the get area, whose `eback` is the start of the buffer, with the bytes the
stream delivered, the characters read, and each character that `sgetc` showed with the number of
characters read before. -/
structure Get (α : Type*) where
  buffer : List α
  gptr : Nat
  egptr : Nat
  received : List α := []
  taken : List α := []
  peeked : List (Nat × α) := []

/-- The call of `underflow`: the member that calls it, for `sgetn` with the characters it got and
the ones it still wants. -/
inductive Reader
  | sgetc
  | sbumpc
  | sgetn (got left : Nat)
  | showmanyc

/-- The caller of `overflow`. -/
inductive Flusher
  | call
  | underflow (r : Reader)
  | destructor

inductive Reply (α : Type*)
  | eof
  | notEof
  | char (c : α)
  | count (n : Nat)

/-- Where the thread that uses the streambuf is. -/
inductive Pos (α : Type*)
  /-- in no call, after one with the given reply -/
  | idle (last : Option (Reply α))
  /-- in the loop of `overflow(c)`, where `c` may be eof: at the write of `size` bytes from `ptr` -/
  | writing (ptr size : Nat) (c : Option α) (f : Flusher)
  /-- in `overflow` of an unbuffered streambuf: at the write of `c` -/
  | writingChar (c : α) (f : Flusher)
  /-- in `underflow`: at the read -/
  | reading (r : Reader)
  | destroyed

structure State (α : Type*) where
  get : Get α
  put : Put α
  unbuffered : Bool := false
  duplexMode : DuplexMode := .halfDuplex
  pos : Pos α := .idle none

/-! ### The two areas -/

namespace Put

variable (p : Put α)

def setp (first last : Nat) : Put α := { p with pbase := first, pptr := first, epptr := last }

/-- The character `c` goes to `*pptr()` and the pointer is advanced. -/
def store (c : α) : Put α :=
  { p with buffer := p.buffer.set p.pptr c, pptr := p.pptr + 1, accepted := p.accepted ++ [c] }

/-- The stream takes `n` bytes from `ptr`. -/
def transfer (ptr n : Nat) : Put α := { p with sent := p.sent ++ (p.buffer.drop ptr).take n }

end Put

namespace Get

variable (g : Get α)

/-- `*gptr()`. -/
def current : α := g.buffer.getD g.gptr default

/-- The character at `gptr()` is read and the pointer is advanced. -/
def bump : Get α := { g with gptr := g.gptr + 1, taken := g.taken ++ [g.current] }

def peek : Get α := { g with peeked := (g.taken.length, g.current) :: g.peeked }

/-- The stream fills the buffer behind the putback area. -/
def fill (chunk : List α) : Get α :=
  { g with
    buffer := g.buffer.take putbackMax ++ chunk ++ g.buffer.drop (putbackMax + chunk.length)
    received := g.received ++ chunk }

def setg (next last : Nat) : Get α := { g with gptr := next, egptr := last }

end Get

/-! ### The members -/

namespace State

variable (s : State α)

def reply (r : Reply α) : State α := { s with pos := .idle (some r) }

/-- `underflow` returns eof to the member that called it. -/
def underflowEof : Reader → State α
  | .sgetc => s.reply .eof
  | .sbumpc => s.reply .eof
  | .sgetn got _ => s.reply (.count got)
  | .showmanyc => s.reply (.count (s.get.egptr - s.get.gptr))

/-- `underflow` after its `sync`, whose result it does not look at. -/
def underflowRead (r : Reader) : State α :=
  if s.get.gptr = s.get.egptr then { s with pos := .reading r } else s.underflowEof r

/-- `overflow` returns to its caller. -/
def overflowReturn (f : Flusher) (r : Reply α) : State α :=
  match f with
  | .call => s.reply r
  | .underflow reader => s.underflowRead reader
  | .destructor => { s with pos := .destroyed }

/-- The end of `overflow` of a buffered streambuf, when everything has been written. -/
def overflowEnd (c : Option α) (f : Flusher) : State α :=
  let put := s.put.setp 0 s.put.buffer.length
  match c with
  | none => overflowReturn { s with put } f .notEof
  | some c => overflowReturn { s with put := put.store c } f (.char c)

/-- `overflow`, up to its first write. -/
def overflow (c : Option α) (f : Flusher) : State α :=
  if s.unbuffered then
    match c with
    | none => s.overflowReturn f .notEof
    | some c => { s with pos := .writingChar c f }
  else if s.put.pptr - s.put.pbase > 0 then
    { s with pos := .writing s.put.pbase (s.put.pptr - s.put.pbase) c f }
  else s.overflowEnd c f

def sync (f : Flusher) : State α := s.overflow none f

def underflow (r : Reader) : State α :=
  if s.duplexMode = .halfDuplex then s.sync (.underflow r) else s.underflowRead r

/-- `sgetn` takes what there is, and calls `underflow` for more. -/
def sgetn (s : State α) (got : Nat) : Nat → State α
  | 0 => s.reply (.count got)
  | left + 1 =>
    if s.get.gptr < s.get.egptr then sgetn { s with get := s.get.bump } (got + 1) left
    else s.underflow (.sgetn got (left + 1))

/-- `underflow` returns the character at `gptr()` to the member that called it. -/
def underflowChar : Reader → State α
  | .sgetc => reply { s with get := s.get.peek } (.char s.get.current)
  | .sbumpc => reply { s with get := s.get.bump } (.char s.get.current)
  | .sgetn got left => s.sgetn got left
  | .showmanyc => s.reply (.count (s.get.egptr - s.get.gptr))

def sputc (c : α) : State α :=
  if s.put.pptr < s.put.epptr then reply { s with put := s.put.store c } (.char c)
    else s.overflow (some c) .call

/-- `sgetc`, `sbumpc` and `in_avail`, which look at the get area first. -/
def read (r : Reader) : State α :=
  if s.get.gptr < s.get.egptr then s.underflowChar r else s.underflow r

/-- `setbuf(0, 0)`. -/
def setbuf : State α :=
  if s.put.pptr = s.put.pbase then reply { s with
    unbuffered := true, put := s.put.setp 0 0 } .notEof
  else s.reply .eof

/-- The destructor. -/
def destroy : State α :=
  if s.put.pptr ≠ s.put.pbase then s.overflow none .destructor else { s with pos := .destroyed }

/-- The stream has written `n` of the bytes offered, with or without an error. -/
def written (ptr size : Nat) (c : Option α) (f : Flusher) (n : Nat) (ec : Bool) : State α :=
  let s := { s with put := s.put.transfer ptr n }
  if ec then s.overflowReturn f .eof
  else if size - n > 0 then { s with pos := .writing (ptr + n) (size - n) c f }
  else s.overflowEnd c f

/-- The stream has written the one character, or failed. A character is accepted when `overflow`
returns it. -/
def writtenChar (c : α) (f : Flusher) (n : Nat) (ec : Bool) : State α :=
  let put := { s.put with sent := s.put.sent ++ [c].take n }
  if ec then overflowReturn { s with put } f .eof
  else overflowReturn { s with put := { put with accepted := put.accepted ++ [c] } } f (.char c)

/-- The stream has delivered a chunk, or failed. -/
def delivered (r : Reader) (chunk : List α) (ec : Bool) : State α :=
  let s := { s with get := s.get.fill chunk }
  if ec || chunk.isEmpty then s.underflowEof r
  else underflowChar { s with get := s.get.setg putbackMax (putbackMax + chunk.length) } r

end State

/-- A call of the program, or the completion of the asynchronous operation the streambuf waits
for. -/
inductive Label (α : Type*)
  | sputc (c : α)
  | overflow (c : Option α)
  | sync
  | sgetc
  | sbumpc
  | sgetn (n : Nat)
  | inAvail
  | setbuf
  | destroy
  | written (n : Nat) (ec : Bool)
  | delivered (chunk : List α) (ec : Bool)

def State.call (s : State α) : Label α → Option (State α)
  | .sputc c => some (s.sputc c)
  | .overflow c => some (s.overflow c .call)
  | .sync => some (s.sync .call)
  | .sgetc => some (s.read .sgetc)
  | .sbumpc => some (s.read .sbumpc)
  | .sgetn n => some (s.sgetn 0 n)
  | .inAvail => some (s.read .showmanyc)
  | .setbuf => some s.setbuf
  | .destroy => some s.destroy
  | .written _ _ => none
  | .delivered _ _ => none

/-- At most the bytes offered are written, and at most the room offered is filled. -/
def State.next (s : State α) (l : Label α) : Option (State α) :=
  match s.pos, l with
  | .idle _, l => s.call l
  | .writing ptr size c f, .written n ec =>
    if n ≤ size then some (s.written ptr size c f n ec) else none
  | .writingChar c f, .written n ec => if n ≤ 1 then some (s.writtenChar c f n ec) else none
  | .reading r, .delivered chunk ec =>
    if chunk.length ≤ bufferSize - putbackMax then some (s.delivered r chunk ec) else none
  | _, _ => none

/-- A new streambuf, after `init_buffers`. -/
def initial (duplexMode : DuplexMode) : State α where
  get :=
    { buffer := List.replicate (bufferSize + putbackMax) default, gptr := putbackMax,
      egptr := putbackMax }
  put := { buffer := List.replicate bufferSize default, pbase := 0, pptr := 0, epptr := bufferSize }
  duplexMode

def system (α : Type*) [Inhabited α] : TransitionSystem (State α) (Label α) where
  init s := ∃ duplexMode, s = initial duplexMode
  step := State.next

end GreenThread.Streambuf
