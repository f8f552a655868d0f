/-
Files: the calls that read, write and seek by descriptor, and the streams over them.
-/
import Playground.Hosted.Printf
import Playground.Library.Splice
import Playground.Library.Tables
import Playground.Machine.Session

namespace Playground

namespace Stub

/-- Change the side state, and answer. -/
def update {α : Type} (f : HostSide → HostSide × α) : Stub α := fun side _ _ =>
  .done ((f side).1, .ok (f side).2)

@[simp]
theorem run_update {α : Type} (f : HostSide → HostSide × α) (side : HostSide) (closed : Bool)
    (m : Machine) : (update f).run side closed m = (m, (f side).1, .ok (f side).2) := rfl

end Stub

namespace Hosted

open Exec

/-- Linux error numbers, negated. -/
def eBadf : Int := -9

def eAgain : Int := -11

def eInval : Int := -22

def eFbig : Int := -27

def eNospc : Int := -28

def descriptor (fd : Word) : Nat := (fd.setWidth 32).toNat

def openFile (side : HostSide) (fd : Nat) : Option OpenFile := side.openFiles.lookup fd

def fileData (side : HostSide) (path : String) : List Byte := (side.vfs.lookup path).getD []

def totalBytes (side : HostSide) : Nat := (side.vfs.map fun file => file.2.length).sum

/-- Bytes to a descriptor: how many were written, or the error number. -/
def writeToFd (fd : Word) (bytes : List Byte) (side : HostSide) : HostSide × Int :=
  if fd = 1 then ({ side with stdout := side.stdout ++ bytes }, bytes.length)
  else if fd = 2 then ({ side with stderr := side.stderr ++ bytes }, bytes.length)
  else
    match openFile side (descriptor fd) with
    | none => (side, eBadf)
    | some file =>
        if ¬ file.writable then (side, eBadf)
        else if maxVfsFileBytes < file.offset + bytes.length then (side, eFbig)
        else
          let data := fileData side file.path
          let growth := file.offset + bytes.length - data.length
          if maxVfsTotalBytes < totalBytes side + growth then (side, eNospc)
          else
            ({ side with
              vfs := Tables.set file.path (Splice.splice 0 data file.offset bytes) side.vfs
              openFiles := Tables.set (descriptor fd)
                { file with offset := file.offset + bytes.length } side.openFiles },
              bytes.length)

/-- write(fd, buf, count). -/
def sysWrite : Stub HostOutcome := do
  let fd ← readGpr 0 true
  let buf ← readGpr 1 true
  let count ← readGpr 2 true
  let bytes ← attempt fun m => m.mem.readEach buf count.toNat
  let n ← Stub.update (writeToFd fd bytes)
  answer (BitVec.ofInt 64 n)

/-- read(fd, buf, count). -/
def sysRead : Stub HostOutcome := do
  let fd ← readGpr 0 true
  let buf ← readGpr 1 true
  let count ← readGpr 2 true
  if fd = 0 then do
    let stdin ← Stub.look HostSide.stdin
    if stdin = [] then do
      let closed ← Stub.stdinClosed
      let term ← Stub.look HostSide.term
      if closed then answer 0
      else if term.stdinNonblock then answer (BitVec.ofInt 64 eAgain)
      else return .needInput
    else do
      let taken := stdin.take count.toNat
      writeBytesAt buf taken
      Stub.modify fun side => { side with stdin := side.stdin.drop count.toNat }
      answer (BitVec.ofNat 64 taken.length)
  else do
    let opened ← Stub.look fun side => openFile side (descriptor fd)
    match opened with
    | none => answer (BitVec.ofInt 64 eBadf)
    | some file => do
        let data ← Stub.look fun side => fileData side file.path
        let bytes := (data.drop file.offset).take count.toNat
        writeBytesAt buf bytes
        Stub.modify fun side => { side with
          openFiles := Tables.set (descriptor fd) { file with offset := file.offset + bytes.length }
            side.openFiles }
        answer (BitVec.ofNat 64 bytes.length)

/-- Where a seek goes, for a whence that is one. -/
def seekTarget (file : OpenFile) (size : Nat) (offset : Word) (whence : Nat) : Option Int :=
  match whence with
  | 0 => some offset.toInt
  | 1 => some (BitVec.ofNat 64 file.offset + offset).toInt
  | 2 => some (BitVec.ofNat 64 size + offset).toInt
  | _ => none

/-- lseek(fd, offset, whence). -/
def seekTo (fd : Nat) (offset : Word) (whence : Nat) (side : HostSide) : HostSide × Int :=
  match openFile side fd with
  | none => (side, eBadf)
  | some file =>
      match seekTarget file (fileData side file.path).length offset whence with
      | none => (side, eInval)
      | some target =>
          if target < 0 ∨ maxVfsFileBytes < target.toNat then (side, eInval)
          else ({ side with
            openFiles := Tables.set fd { file with offset := target.toNat } side.openFiles },
            target)

def sysLseek : Stub HostOutcome := do
  let fd ← readGpr 0 true
  let offset ← readGpr 1 true
  let whence ← readGpr 2 true
  let n ← Stub.update (seekTo (descriptor fd) offset (whence.setWidth 32).toNat)
  answer (BitVec.ofInt 64 n)

/-- A stream is its descriptor, moved into a range of its own. -/
def fileHandleBase : Nat := 0xFFFF2000

def fileHandleStride : Nat := 16

def handleOf (fd : Nat) : Word := BitVec.ofNat 64 (fileHandleBase + fd * fileHandleStride)

/-- The descriptor of a stream: a standard one, or one that is open. -/
def fdOf (handle : Word) (side : HostSide) : Option Nat :=
  if handle.toNat < fileHandleBase then none
  else
    let rel := handle.toNat - fileHandleBase
    if rel % fileHandleStride ≠ 0 then none
    else
      let fd := rel / fileHandleStride
      if 2 ^ 32 ≤ fd then none
      else if fd ≤ 2 then some fd
      else if (openFile side fd).isSome then some fd
      else none

/-- The halt for a value that never came from `fopen`. -/
def notAStream (call : String) (handle : Word) : EmuError :=
  .runtimeError (call ++ " was given 0x" ++ hexText handle.toNat ++
    ", which is not a stream fopen returned. Check the fopen return value for NULL (x0 == 0) " ++
    "before using it, and keep the FILE* in a callee-saved register")

/-- The stream a call was given. -/
def stream (call : String) (handle : Word) : Stub Word := do
  let fd ← Stub.look (fdOf handle)
  match fd with
  | some fd => return BitVec.ofNat 64 fd
  | none => Stub.fail (notAStream call handle)

/-- fprintf(stream, format, ...). -/
def fprintf : Stub HostOutcome := do
  let handle ← readGpr 0 true
  let fd ← stream "fprintf" handle
  let fmtPtr ← readGpr 1 true
  let out ← formatInto fmtPtr 2 "fprintf's format string"
  let n ← Stub.update (writeToFd fd out)
  answer (BitVec.ofInt 64 (max n (-1)))

/-- fputs(s, stream). -/
def fputs : Stub HostOutcome := do
  let strPtr ← readGpr 0 true
  let handle ← readGpr 1 true
  let fd ← stream "fputs" handle
  let bytes ← attempt fun m => readCString m.mem strPtr "fputs's string"
  let n ← Stub.update (writeToFd fd bytes)
  answer (BitVec.ofInt 64 (max n (-1)))

/-- C's EOF in a register. -/
def eof : Word := BitVec.allOnes 64

/-- putc(c, stream): one byte, answered unsigned. -/
def putc : Stub HostOutcome := do
  let value ← readGpr 0 true
  let byte : Byte := value.setWidth 8
  let handle ← readGpr 1 true
  let fd ← stream "putc" handle
  let n ← Stub.update (writeToFd fd [byte])
  answer (if n = 1 then byte.setWidth 64 else eof)

/-- fwrite(ptr, size, n, stream): how many whole items went out. -/
def fwrite : Stub HostOutcome := do
  let ptr ← readGpr 0 true
  let size ← readGpr 1 true
  let count ← readGpr 2 true
  let handle ← readGpr 3 true
  let fd ← stream "fwrite" handle
  let bytes ← attempt fun m => m.mem.readEach ptr (min (size.toNat * count.toNat) (2 ^ 64 - 1))
  let written ← Stub.update (writeToFd fd bytes)
  let items := if written ≤ 0 ∨ size = 0 then 0 else written.toNat / size.toNat
  answer (BitVec.ofNat 64 items)

end Hosted

end Playground
