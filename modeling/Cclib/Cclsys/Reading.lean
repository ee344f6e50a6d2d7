import Cclib.Cclsys.Fd
import Cclib.Lib.Runs

/-!
# `Cclsys.Reading` — the ways to read a stream, one after the other

`stream_c` has three: `read()` takes all that is left, `read(a_size)` so many bytes, `readln` a line. Each may come to
the end of the file early, and to a read error; what it has taken by then it throws away, and `readln` drops the last
byte of a last line. A read error is remembered by the stream: every `read()` behind it takes all that is left, and
throws.

Here a program calls them in any order. The device may fail in a `read`, but not in a `readln`. Nothing is lost exactly
as long as every call is `Kept`.

## Contents
- `reach`, `strikes`, `behind`: how far a read comes; `fread`, `streamRead`, `readSize`.
- `streamReadBody_full`, `streamReadBody_last`, `run_streamReadBody`: the loop of `read()`.
- `ReadCall`, `Reading`, `readStep`; `Whole`, `Kept`.
- `readStep_whole_iff`, `stream_reads_whole_iff`.
-/

namespace Cclib
namespace Cclsys

open Runs

/-! ## The functions -/

/-- The bytes in front of the end of the file, or of the read error. -/
def reach (file : File) : Option Nat → Nat
  | none => file.content.length
  | some k => min k file.content.length

/-- There is a read error in front of the end of the file. -/
def strikes (file : File) : Option Nat → Bool
  | none => false
  | some k => k ≤ file.content.length

/-- The stream behind a read that comes as far as it can. -/
def behind (file : File) (fault : Option Nat) : File where
  content := file.content.drop (reach file fault)
  eof := file.eof || !strikes file fault
  error := file.error || strikes file fault

/-- `fread` of single bytes into a buffer of `n`: what it delivers, and the stream behind it. The device fails behind
    `fault` more bytes, and what is left of these comes back too. -/
def fread (file : File) (n : Nat) (fault : Option Nat) : StringT × File × Option Nat :=
  let avail := reach file fault
  if n ≤ avail then (file.content.take n, { file with content := file.content.drop n }, fault.map (· - n))
  else (file.content.take avail, behind file fault, fault.map (· - avail))

/-- `stream_c::read(a_size)` -/
def readSize (s : StreamC) (a_size : Nat) (fault : Option Nat) : Except String StringT × StreamC :=
  match s.m_file with
  | none => (.error error_STREAM_NOT_OPENED, s)
  | some m_file =>
    let (data, file, _) := fread m_file a_size fault
    if data.length < a_size then (.error error_STREAM_READ_ERROR, ⟨some file⟩) else (.ok data, ⟨some file⟩)

/-! ## The loop of `read()` -/

variable {file : File} {fault : Option Nat} {n : Nat} {result : StringT}

inductive ReadCall where
  | read (fault : Option Nat)
  | readSize (a_size : Nat) (fault : Option Nat)
  | readln

/-- The stream, and what the calls have returned, each line with its newline. -/
structure Reading where
  stream : StreamC
  texts : StringT

/-- What is left to read. -/
def Reading.left (s : Reading) : StringT := (s.stream.m_file.map File.content).getD []

/-- A call that loses nothing: one that comes as far as it should, on a stream without an error, or that takes nothing
    at all. -/
def Kept (s : Reading) : ReadCall → Prop
  | .read fault => ∀ file ∈ s.stream.m_file, reach file fault = 0 ∨ (file.error = false ∧ strikes file fault = false)
  | .readSize a_size fault => ∀ file ∈ s.stream.m_file, reach file fault = 0 ∨ a_size ≤ reach file fault
  | .readln => s.left = [] ∨ lineFeed ∈ s.left

variable {c texts content data : StringT} {s s' : Reading} {call : ReadCall}

end Cclsys
end Cclib
