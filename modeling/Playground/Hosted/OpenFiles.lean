/-
Opening, closing and reading files: the calls by descriptor, and the streams over them.
-/
import Playground.Hosted.FileOffsets
import Playground.Hosted.Utf8

namespace Playground

namespace Hosted

open Exec

def eNoent : Int := -2

def eMfile : Int := -24

/-- Most descriptors open at once. -/
def maxOpenFiles : Nat := 16

/-- Take the next descriptor for a file that is there. -/
def addOpen (path : String) (writable append : Bool) (side : HostSide) :
    HostSide × Except Int Nat :=
  let offset := if append then (fileData side path).length else 0
  ({ side with
    openFiles := Tables.set side.nextFd ⟨path, offset, writable⟩ side.openFiles
    nextFd := side.nextFd + 1 }, .ok side.nextFd)

/-- The checked half of an open: every wall refuses before anything is created. -/
def openVfs (path : String) (writable create truncate append : Bool) (side : HostSide) :
    HostSide × Except Int Nat :=
  if path = "" then (side, .error eNoent)
  else if maxOpenFiles ≤ side.openFiles.length then (side, .error eMfile)
  else
    match side.vfs.lookup path with
    | none =>
        if ¬ create then (side, .error eNoent)
        else if maxVfsFiles ≤ side.vfs.length then (side, .error eNospc)
        else addOpen path writable append { side with vfs := Tables.set path [] side.vfs }
    | some _ =>
        if truncate then
          addOpen path writable append { side with vfs := Tables.set path [] side.vfs }
        else addOpen path writable append side

def textArgument (ptr : Word) (what : String) : Exec String := do
  let bytes ← attempt fun m => readCString m.mem ptr what
  return String.ofList (fromUtf8Lossy bytes)

/-- openat(dirfd, pathname, flags, mode): the directory and the mode count for nothing. -/
def sysOpenat : Stub HostOutcome := do
  let pathPtr ← readGpr 1 true
  let flags ← readGpr 2 true
  let path ← textArgument pathPtr "the openat path"
  let writable := decide (flags &&& 1 ≠ 0) || decide (flags &&& 2 ≠ 0)
  let opened ← Stub.update
    (openVfs path writable (decide (flags &&& 0x40 ≠ 0)) (decide (flags &&& 0x200 ≠ 0)) false)
  match opened with
  | .ok fd => answer (BitVec.ofNat 64 fd)
  | .error errno => answer (BitVec.ofInt 64 errno)

/-- Give a descriptor back; whether it was open. -/
def closeFd (fd : Nat) (side : HostSide) : HostSide × Bool :=
  ({ side with openFiles := side.openFiles.filter fun file => file.1 != fd },
    (openFile side fd).isSome)

/-- close(fd). -/
def sysClose : Stub HostOutcome := do
  let fd ← readGpr 0 true
  let closed ← Stub.update (closeFd (descriptor fd))
  answer (if closed then 0 else BitVec.ofInt 64 eBadf)

def openMode (path mode : String) (side : HostSide) : HostSide × Except Int Nat :=
  let plus := mode.toList.contains '+'
  match mode.toList.head? with
  | some 'r' => openVfs path plus false false false side
  | some 'w' => openVfs path true true true false side
  | some 'a' => openVfs path true true false true side
  | _ => (side, .error eInval)

/-- fopen(path, mode): the stream, or null. -/
def fopen : Stub HostOutcome := do
  let pathPtr ← readGpr 0 true
  let modePtr ← readGpr 1 true
  let path ← textArgument pathPtr "fopen's filename"
  let mode ← textArgument modePtr "fopen's mode"
  let opened ← Stub.update (openMode path mode)
  match opened with
  | .ok fd => answer (handleOf fd)
  | .error _ => answer 0

/-- fclose(stream): a standard stream stays open. -/
def fclose : Stub HostOutcome := do
  let handle ← readGpr 0 true
  let fd ← Stub.look (fdOf handle)
  match fd with
  | some fd => do
      Stub.modify fun side => if 2 < fd then (closeFd fd side).1 else side
      answer 0
  | none => answer eof

/-- getchar(). -/
def getchar : Stub HostOutcome := do
  let stdin ← Stub.look HostSide.stdin
  match stdin with
  | [] => do
      let closed ← Stub.stdinClosed
      if closed then answer eof else return .needInput
  | byte :: rest => do
      Stub.modify fun side => { side with stdin := rest }
      answer (byte.setWidth 64)

/-- How much of some bytes a line takes: through its newline, if one stands in the first
`limit` of them. -/
def lineLength (bytes : List Byte) (limit : Nat) : Option Nat :=
  ((bytes.take limit).findIdx? (· == 0x0A)).map (· + 1)

/-- The line the input has now, none when it is still being typed. -/
def stdinLine (limit : Nat) (stdin : List Byte) (closed : Bool) : Option Nat :=
  match lineLength stdin limit with
  | some taken => some taken
  | none =>
      if limit ≤ stdin.length then some limit
      else if closed then some stdin.length
      else none

def takeLineFromFile (fd limit : Nat) (side : HostSide) : HostSide × List Byte :=
  match openFile side fd with
  | none => (side, [])
  | some file =>
      let available := (fileData side file.path).drop file.offset
      let taken := (lineLength available limit).getD (min limit available.length)
      let line := available.take taken
      ({ side with
        openFiles := Tables.set fd { file with offset := file.offset + line.length }
          side.openFiles }, line)

/-- getc(stream): the next byte, or the end of the file. -/
def getc : Stub HostOutcome := do
  let handle ← readGpr 0 true
  let fd ← stream "getc" handle
  if fd = 0 then getchar
  else do
    let line ← Stub.update (takeLineFromFile fd.toNat 1)
    match line.head? with
    | some byte => answer (byte.setWidth 64)
    | none => answer eof

def storeLine (buf : Word) (line : List Byte) : Exec HostOutcome :=
  if line = [] then answer 0
  else do
    writeCString buf line
    answer buf

/-- fgets(buf, n, stream). -/
def fgets : Stub HostOutcome := do
  let buf ← readGpr 0 true
  let n ← readGpr 1 false
  let handle ← readGpr 2 true
  let fd ← stream "fgets" handle
  if asI32 n ≤ 0 then answer 0
  else if asI32 n = 1 then do
    writeU8 buf 0
    answer buf
  else
    let limit := (asI32 n - 1).toNat
    if fd = 0 then do
      let stdin ← Stub.look HostSide.stdin
      let closed ← Stub.stdinClosed
      match stdinLine limit stdin closed with
      | none => return .needInput
      | some taken => do
          Stub.modify fun side => { side with stdin := stdin.drop taken }
          storeLine buf (stdin.take taken)
    else if fd = 1 ∨ fd = 2 then answer 0
    else do
      let line ← Stub.update (takeLineFromFile fd.toNat limit)
      storeLine buf line

/-- The calls that open, close, read, write and seek files. -/
inductive FileCall
  | openat | close | lseek | read | write
  | fopen | fclose | fprintf | fputs | putc | fwrite | getc | fgets
deriving DecidableEq, Repr

def FileCall.stub : FileCall → Stub HostOutcome
  | .openat => sysOpenat
  | .close => sysClose
  | .lseek => sysLseek
  | .read => sysRead
  | .write => sysWrite
  | .fopen => Hosted.fopen
  | .fclose => Hosted.fclose
  | .fprintf => Hosted.fprintf
  | .fputs => Hosted.fputs
  | .putc => Hosted.putc
  | .fwrite => Hosted.fwrite
  | .getc => Hosted.getc
  | .fgets => Hosted.fgets

end Hosted

end Playground
