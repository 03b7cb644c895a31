import EfficiencyLedger.Lib.Interrupt
import EfficiencyLedger.Model.Persistence

/-!
# Saving to a file

`EfficiencyLedger::save` as the calls it makes to the streams and the file system. How each call turns
out is up to the disk. Removing and renaming a file take full effect or none; what the calls on an
open stream leave in its file is anything, whether they report a failure or not, since the bytes are
buffered.
-/

namespace El

open Interrupt

/-- The files by their names. -/
abbrev FileSystem := String → Option Bytes

inductive FileOp where
  /-- `std::ofstream`, with truncation. -/
  | openTrunc (file : String)
  | write (file : String) (bytes : Bytes)
  /-- What is still buffered is written, and a failure of that is not seen. -/
  | close (file : String)
  | remove (file : String)
  | rename (source target : String)
  deriving DecidableEq

/-- How the calls turn out: whether one fails, the text of its error, and what a call on a stream
leaves in the file. -/
structure Disk where
  fails : FileOp → Bool
  message : FileOp → String
  leaves : FileOp → Option Bytes

/-- The error of a call, if it failed, and the files after it. -/
def Disk.exec (d : Disk) (op : FileOp) (fs : FileSystem) : Option String × FileSystem :=
  let report := if d.fails op then some (d.message op) else none
  match op with
  | .openTrunc file => (report, Function.update fs file (d.leaves op))
  | .write file _ => (report, Function.update fs file (d.leaves op))
  | .close file => (report, Function.update fs file (d.leaves op))
  | .remove file => (report, if d.fails op then fs else Function.update fs file none)
  | .rename source target =>
    match fs source with
    | none => (some (d.message op), fs)
    | some bytes =>
      (report, if d.fails op then fs
        else Function.update (Function.update fs target (some bytes)) source none)

abbrev FileProgram := Program FileOp (Option String)

/-- The file next to the record. -/
def tmpPath (path : String) : String := path ++ ".tmp"

/-- The temporary file is written; its stream is closed on both ways out. -/
def writeFile (tmp : String) (bytes : Bytes) : FileProgram (Option Status) :=
  .call (.openTrunc tmp) fun
  | some _ => .done (some ⟨ErrorCode.kPersistenceCorrupt, "cannot open file for write"⟩)
  | none =>
    .call (.write tmp bytes) fun
    | some _ =>
      .call (.close tmp) fun _ =>
      .done (some ⟨ErrorCode.kPersistenceCorrupt, "write failed"⟩)
    | none =>
      .call (.close tmp) fun _ =>
      .done none

/-- The temporary file takes the name of the record, or is removed. -/
def renameFile (tmp path : String) : FileProgram Status :=
  .call (.rename tmp path) fun
  | some message =>
    .call (.remove tmp) fun _ =>
    .done ⟨ErrorCode.kPersistenceCorrupt, "atomic replace failed: " ++ message⟩
  | none => .done .success

/-- The record is removed first; an error of that is overwritten by the outcome of the renaming. -/
def replaceFile (tmp path : String) : FileProgram Status :=
  .call (.remove path) fun _ => renameFile tmp path

def EfficiencyLedger.save (s : EfficiencyLedger) (path : String) : FileProgram Status :=
  (writeFile (tmpPath path) s.saveToString).bind fun
  | some st => .done st
  | none => replaceFile (tmpPath path) path

end El
