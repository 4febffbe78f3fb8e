import Nubernel.Framework.System
import Nubernel.Lib.Arena
import Nubernel.Lib.RingBuffer
import Nubernel.Lib.Word

/-! # logger: the ring buffer of log entries

Model of `drivers/staging/android/logger.c`. A log is a ring buffer of
entries, each a header with the length of its payload followed by the
payload. A writer appends an entry at `w_off`, after pulling forward
the readers (and `head`, where new readers start) that it would
overwrite. A reader takes one entry at a time from its `r_off`.

Offsets are below `size`, a power of two that fits in a `size_t`, so
the sums passed to `logger_offset` are written without wrapping: the
mask drops the bits a wrap would drop.
-/

namespace Nubernel.Logger

open LTS RingBuffer

/-! ## Data -/

/-- A byte string: an entry, or a part of one. -/
abbrev Bytes := List UInt8

/-- `struct logger_reader`. -/
structure LoggerReader where
  addr : Nat
  r_off : Nat
  /-- Ghost: what the reads through this reader have returned. -/
  got : List Bytes

/-- `struct logger_log`, less the device and the wait queue. -/
structure LoggerLog where
  buffer : Nat → UInt8
  readers : List LoggerReader
  w_off : Nat
  head : Nat
  size : Nat

/-- The fields of `struct logger_entry` that `logger_aio_write` does not
compute from the request, with the uninitialised padding. -/
structure LoggerEntry where
  pad : UInt16
  pid : UInt32
  tid : UInt32
  sec : UInt32
  nsec : UInt32

/-- `sizeof(struct logger_entry)`. -/
def LOGGER_ENTRY_SIZE : Nat := 20

def LOGGER_ENTRY_MAX_LEN : Nat := 4 * 1024

def LOGGER_ENTRY_MAX_PAYLOAD : Nat := LOGGER_ENTRY_MAX_LEN - LOGGER_ENTRY_SIZE

/-- A segment of the vector to write. `fault₁` and `fault₂` are set when
the copy of its part before, or after, the end of the buffer fails, and
are what `copy_from_user` then leaves in the destination. -/
structure Iovec where
  iov_base : Bytes
  fault₁ : Option Bytes
  fault₂ : Option Bytes

/-- A little-endian 16-bit word. -/
def le16 (x : Nat) : Bytes := [UInt8.ofNat x, UInt8.ofNat (x / 2 ^ 8)]

/-- A little-endian 32-bit word. -/
def le32 (x : Nat) : Bytes := le16 x ++ le16 (x / 2 ^ 16)

/-- The header in memory, for a payload of `len` bytes. -/
def LoggerEntry.bytes (header : LoggerEntry) (len : Nat) : Bytes :=
  le16 len ++ le16 header.pad.toNat ++ le32 header.pid.toNat ++ le32 header.tid.toNat ++
    le32 header.sec.toNat ++ le32 header.nsec.toNat

/-! ## Reading -/

/-- `logger_offset(n)`. -/
def logger_offset (log : LoggerLog) (n : Nat) : Nat := n &&& (log.size - 1)

/-- The length word may be split at the end of the buffer. -/
def get_entry_len (log : LoggerLog) (off : Nat) : Nat :=
  -- The two bytes of `len` are at the end and at the start of the buffer.
  let val := if log.size - off = 1 then (log.buffer off).toNat + 2 ^ 8 * (log.buffer 0).toNat
    else (log.buffer off).toNat + 2 ^ 8 * (log.buffer (off + 1)).toNat
  LOGGER_ENTRY_SIZE + val

/-- `do_read_log_to_user`; `fault₁` and `fault₂` are whether the copies to
user space fail. The result is what has been copied, and the new
`r_off`. -/
def do_read_log_to_user (log : LoggerLog) (r_off count : Nat) (fault₁ fault₂ : Bool) :
    Except Errno (Bytes × Nat) :=
  let len := min count (log.size - r_off)
  -- A copy that fails leaves the reader where it was, so the entry can be read
  -- again.
  if fault₁ then .error .EFAULT
  else if count ≠ len ∧ fault₂ then .error .EFAULT
  else .ok (slice log.buffer r_off len ++ slice log.buffer 0 (count - len),
    logger_offset log (r_off + count))

/-- `logger_read` through one reader. When there is nothing to read, the
call returns with an error if it may not block or a signal is pending,
and otherwise does not return. -/
def logger_read (log : LoggerLog) (reader : LoggerReader) (count : Nat) (nonblock signal : Bool)
    (fault₁ fault₂ : Bool) : Option (LoggerReader × Except Errno Int) :=
  if log.w_off = reader.r_off then
    if nonblock then some (reader, .error .EAGAIN)
    else if signal then some (reader, .error .EINTR)
    else none
  else
    let ret := get_entry_len log reader.r_off
    -- An entry is read as a whole or not at all.
    if count < ret then some (reader, .error .EINVAL)
    else match do_read_log_to_user log reader.r_off ret fault₁ fault₂ with
    | .error e => some (reader, .error e)
    | .ok (bytes, r_off) =>
      some ({ reader with r_off := r_off, got := reader.got ++ [bytes] }, .ok ret)

/-! ## Writing -/

/-- The loop of `get_next_entry`. Each round adds at least the size of a
header to `count`, so `fuel = len` rounds are enough. -/
def get_next_entry_loop (log : LoggerLog) (len : Nat) : Nat → Nat → Nat → Nat
  | fuel, off, count =>
    let nr := get_entry_len log off
    let off := logger_offset log (off + nr)
    let count := count + nr
    if count < len then
      match fuel with
      | 0 => off
      | fuel + 1 => get_next_entry_loop log len fuel off count
    else off

def get_next_entry (log : LoggerLog) (off len : Nat) : Nat :=
  get_next_entry_loop log len len off 0

/-- Is a < c <= b in mod-space? -/
def clock_interval (a b c : Nat) : Bool :=
  -- The interval wraps.
  if b < a then decide (a < c ∨ b ≥ c) else decide (a < c ∧ b ≥ c)

/-- What `fix_up_readers` does with one offset. -/
def fix_up (log : LoggerLog) (len off : Nat) : Nat :=
  -- The write is going to run over this offset.
  if clock_interval log.w_off (logger_offset log (log.w_off + len)) off then
    get_next_entry log off len
  else off

def fix_up_readers (log : LoggerLog) (len : Nat) : LoggerLog :=
  { log with
    head := fix_up log len log.head
    readers := log.readers.map fun reader => { reader with r_off := fix_up log len reader.r_off } }

def do_write_log (log : LoggerLog) (buf : Bytes) : LoggerLog :=
  let len := min buf.length (log.size - log.w_off)
  let buffer := memcpy log.buffer log.w_off (buf.take len)
  let buffer := if buf.length ≠ len then memcpy buffer 0 (buf.drop len) else buffer
  { log with buffer := buffer, w_off := logger_offset log (log.w_off + buf.length) }

/-- `copy_from_user` to the cells from `dst` on: the buffer after it, as an
error when it failed. -/
def copy_from_user (buffer : Nat → UInt8) (dst : Nat) (src : Bytes) (fault : Option Bytes) :
    Except (Nat → UInt8) (Nat → UInt8) :=
  match fault with
  | none => .ok (memcpy buffer dst src)
  | some junk => .error (memcpy buffer dst (junk.take src.length))

/-- `do_write_log_from_user`, for the first `count` bytes of a segment.
The copy to the kernel log is left out. -/
def do_write_log_from_user (log : LoggerLog) (seg : Iovec) (count : Nat) :
    LoggerLog × Except Errno Nat :=
  let buf := seg.iov_base.take count
  let len := min count (log.size - log.w_off)
  match if len ≠ 0 then copy_from_user log.buffer log.w_off (buf.take len) seg.fault₁
    else .ok log.buffer with
  | .error buffer => ({ log with buffer := buffer }, .error .EFAULT)
  | .ok buffer =>
    match if count ≠ len then copy_from_user buffer 0 (buf.drop len) seg.fault₂
      else .ok buffer with
    | .error buffer => ({ log with buffer := buffer }, .error .EFAULT)
    | .ok buffer =>
      ({ log with buffer := buffer, w_off := logger_offset log (log.w_off + count) }, .ok count)

/-- The loop of `logger_aio_write` over the segments; `len` is `header.len`
and `ret` the number of bytes written so far. -/
def write_segments (len orig : Nat) : LoggerLog → Nat → List Iovec → LoggerLog × Except Errno Int
  | log, ret, [] => (log, .ok ret)
  | log, ret, seg :: iov =>
    match do_write_log_from_user log seg (min seg.iov_base.length (len - ret)) with
    -- The header that was written before it is taken back.
    | (log, .error e) => ({ log with w_off := orig }, .error e)
    | (log, .ok nr) => write_segments len orig log (ret + nr) iov

/-- `iocb->ki_left`, the length of the vector. -/
def ki_left (iov : List Iovec) : Nat := (iov.map fun seg => seg.iov_base.length).sum

/-- `header.len`. -/
def header_len (iov : List Iovec) : Nat := min (ki_left iov) LOGGER_ENTRY_MAX_PAYLOAD

/-- The locked section of `logger_aio_write`; `orig` is the value of `w_off`
read before the lock was taken. -/
def logger_aio_write_locked (log : LoggerLog) (orig : Nat) (header : LoggerEntry)
    (iov : List Iovec) : LoggerLog × Except Errno Int :=
  let len := header_len iov
  -- Readers are moved out of the way before anything is written.
  let log := fix_up_readers log (LOGGER_ENTRY_SIZE + len)
  let log := do_write_log log (header.bytes len)
  write_segments len orig log 0 iov

/-- `logger_aio_write`, run without interruption. -/
def logger_aio_write (log : LoggerLog) (header : LoggerEntry) (iov : List Iovec) :
    LoggerLog × Except Errno Int :=
  let orig := log.w_off
  -- null writes succeed, return zero
  if header_len iov = 0 then (log, .ok 0) else logger_aio_write_locked log orig header iov

/-- The entry that the write is meant to append. -/
def entry_of (header : LoggerEntry) (iov : List Iovec) : Bytes :=
  header.bytes (header_len iov) ++ ((iov.map Iovec.iov_base).flatten).take (header_len iov)

/-! ## The system -/

/-- The commands of `logger_ioctl`. -/
inductive IoctlCmd where
  | LOGGER_GET_LOG_BUF_SIZE | LOGGER_GET_LOG_LEN | LOGGER_GET_NEXT_ENTRY_LEN | LOGGER_FLUSH_LOG
  | other
  deriving DecidableEq, Repr

/-- `logger_ioctl` on a file: `reader` is its reader when it is open for
reading, `fmode_write` whether it is open for writing. -/
def logger_ioctl (log : LoggerLog) (reader : Option LoggerReader) (fmode_write : Bool) :
    IoctlCmd → LoggerLog × Except Errno Int
  | .LOGGER_GET_LOG_BUF_SIZE => (log, .ok log.size)
  | .LOGGER_GET_LOG_LEN =>
    match reader with
    | none => (log, .error .EBADF)
    | some reader =>
      if log.w_off ≥ reader.r_off then (log, .ok (log.w_off - reader.r_off : Nat))
      else (log, .ok ((log.size - reader.r_off) + log.w_off : Nat))
  | .LOGGER_GET_NEXT_ENTRY_LEN =>
    match reader with
    | none => (log, .error .EBADF)
    | some reader =>
      -- Without an entry the length is 0.
      if log.w_off ≠ reader.r_off then (log, .ok (get_entry_len log reader.r_off))
      else (log, .ok 0)
  | .LOGGER_FLUSH_LOG =>
    if fmode_write = false then (log, .error .EBADF)
    else
      ({ log with
        readers := log.readers.map fun reader => { reader with r_off := log.w_off }
        head := log.w_off }, .ok 0)
  | .other => (log, .error .ENOTTY)

/-- The operations on a log. Files open for reading are named by the
address of their reader. -/
inductive Label where
  | logger_open (kmalloc : Bool)
  | logger_release (reader : Nat)
  | logger_aio_write (header : LoggerEntry) (iov : List Iovec)
  | logger_read (reader count : Nat) (nonblock signal fault₁ fault₂ : Bool)
  | logger_ioctl (reader : Option Nat) (fmode_write : Bool) (cmd : IoctlCmd)

structure State where
  log : LoggerLog
  next_addr : Nat
  /-- Ghost: the entries of all writes that succeeded. -/
  written : List Bytes

/-- The ghost of a write: a successful one has appended its entry. -/
def written_after (written : List Bytes) (header : LoggerEntry) (iov : List Iovec)
    (ret : Except Errno Int) : List Bytes :=
  match ret with
  | .ok _ => if header_len iov = 0 then written else written ++ [entry_of header iov]
  | .error _ => written

/-- One operation and its return value; `none` when the reader named is not
open, or when the call blocks. -/
def run_op (s : State) : Label → Option (State × Except Errno Int)
  | .logger_open kmalloc =>
    if kmalloc = false then some (s, .error .ENOMEM)
    else
      let reader : LoggerReader := ⟨s.next_addr, s.log.head, []⟩
      some ({ s with
        log := { s.log with readers := s.log.readers ++ [reader] }
        next_addr := s.next_addr + 1 }, .ok 0)
  | .logger_release reader =>
    some ({ s with
      log := { s.log with readers := Arena.free LoggerReader.addr reader s.log.readers } }, .ok 0)
  | .logger_aio_write header iov =>
    let (log, ret) := Logger.logger_aio_write s.log header iov
    some ({ s with log := log, written := written_after s.written header iov ret }, ret)
  | .logger_read reader count nonblock signal fault₁ fault₂ =>
    (Arena.at? LoggerReader.addr s.log.readers reader).bind fun r =>
      (Logger.logger_read s.log r count nonblock signal fault₁ fault₂).map fun (r', ret) =>
        ({ s with
          log := { s.log with
            readers := Arena.modify LoggerReader.addr reader (fun _ => r') s.log.readers } }, ret)
  | .logger_ioctl none fmode_write cmd =>
    let (log, ret) := Logger.logger_ioctl s.log none fmode_write cmd
    some ({ s with log := log }, ret)
  | .logger_ioctl (some reader) fmode_write cmd =>
    (Arena.at? LoggerReader.addr s.log.readers reader).map fun r =>
      let (log, ret) := Logger.logger_ioctl s.log (some r) fmode_write cmd
      ({ s with log := log }, ret)

/-- A log of `2 ^ order` bytes. -/
def initialState (order : Nat) : State := ⟨⟨fun _ => 0, [], 0, 0, 2 ^ order⟩, 0, []⟩

/-- A log whose operations do not overlap. -/
def logger (order : Nat) : System State Label :=
  .ofFun (· = initialState order) fun s l => (run_op s l).map Prod.fst

/-! ## What can be read -/

/-- The entries from `off` up to the write head, or `none` when they do not
end there. Every entry has at least one byte, so `fuel = size` is
enough. -/
def entries_from (log : LoggerLog) : Nat → Nat → Option (List Bytes)
  | fuel, off =>
    if off = log.w_off then some []
    else match fuel with
    | 0 => none
    | fuel + 1 =>
      let nr := get_entry_len log off
      if (log.w_off + log.size - off) % log.size < nr then none
      else (entries_from log fuel (logger_offset log (off + nr))).map fun es =>
        get log.size log.buffer off nr :: es

end Nubernel.Logger
