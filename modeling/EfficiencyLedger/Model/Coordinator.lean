import EfficiencyLedger.Lib.Machine
import EfficiencyLedger.Model.Protocol

/-!
# The coordinator

The main loop of `el_coordinator.cpp`. It serves one connection at a time, and it only waits in two
places: in `accept`, and in `read_frame` on the open connection. What comes back there is an event;
an event that the loop does not wait for does not happen. File operations succeed.
-/

namespace El

open Wire

/-! ### Messages -/

/-- A frame that `read_frame` lets through. -/
structure Frame where
  kind : UInt32
  request : UInt64
  body : Bytes
  fits : 16 + body.length ≤ kMaxFramePayload

namespace Frame

/-- `u64_from` of the first eight bytes, where the frame registers a worker. -/
def registration (f : Frame) : Option WorkerBootId :=
  if f.kind = MessageKind.kRegister.toBits ∧ 8 ≤ f.body.length then
    some ⟨UInt64.ofNat (getLE (f.body.take 8))⟩
  else none

/-- The entry of an append or a revision: it has to fill the body. -/
def entry (f : Frame) : Option LedgerEntry :=
  match decodeEntryBytes f.body 0 {} with
  | none => none
  | some (e, off) => if off = f.body.length then some e else none

end Frame

structure Reply where
  status : Status
  payload : Bytes := []

/-! ### The process -/

/-- The command line, without the port. -/
structure Arguments where
  hasPath : Bool := false
  epoch : CoordinatorEpoch := {}
  load : Bool := false

/-- What the loop remembers of the open connection. -/
structure Connection where
  connBoot : WorkerBootId := {}
  registered : Bool := false
  deriving DecidableEq

structure Coordinator where
  ledger : EfficiencyLedger := .fresh kDefaultLedgerId
  hasPath : Bool := false
  /-- The file at the path, if there is one. -/
  file : Option Bytes := none
  running : Bool := true
  conn : Option Connection := none

inductive Event where
  | accept
  | acceptFailed
  | frame (f : Frame)
  /-- `read_frame` fails. -/
  | closed

namespace Coordinator

/-- `led.save(path)`, where there is a path. -/
def save (c : Coordinator) : Coordinator :=
  if c.hasPath then { c with file := some c.ledger.saveToString } else c

/-- The save after the loop. -/
def stop (c : Coordinator) : Coordinator := { c.save with running := false, conn := none }

section Step

variable (ord : IterationOrder)

/-- The process before its first `accept`; a load that fails is only reported. -/
def start (args : Arguments) (file : Option Bytes) : Coordinator :=
  let led := EfficiencyLedger.fresh kDefaultLedgerId
  let led := if args.load ∧ args.hasPath then (load ord file led).state else led
  let led := if args.epoch.valid then led.setEpoch args.epoch else led
  { ledger := led, hasPath := args.hasPath, file }

def badRequest (message : String) : Reply := ⟨⟨ErrorCode.kProtocolError, message⟩, []⟩

def register (c : Coordinator) (f : Frame) : Coordinator × Reply :=
  match f.registration with
  | some boot =>
    ({ c with
        ledger := c.ledger.registerWorker boot
        conn := some { connBoot := boot, registered := true } },
      ⟨.success, []⟩)
  | none => (c, badRequest "bad register")

/-- `append`, and a save after every committed entry. -/
def append (c : Coordinator) (f : Frame) : Coordinator × Reply :=
  match f.entry with
  | some e =>
    match appendLocked ord e c.ledger with
    | .ok _ led => ({ c with ledger := led }.save, ⟨.success, []⟩)
    | .error st led => ({ c with ledger := led }, ⟨st, []⟩)
  | none => (c, badRequest "bad entry")

def queryDigest (c : Coordinator) : Coordinator × Reply :=
  (c, ⟨.success, putU64 c.ledger.digest ++ putU64 (UInt64.ofNat c.ledger.history.length)⟩)

def handle (c : Coordinator) (f : Frame) : Coordinator × Reply :=
  if f.kind = MessageKind.kRegister.toBits then c.register f
  else if f.kind = MessageKind.kAppend.toBits ∨ f.kind = MessageKind.kReclassify.toBits then
    c.append ord f
  else if f.kind = MessageKind.kQueryDigest.toBits then c.queryDigest
  else if f.kind = MessageKind.kShutdown.toBits then (c.save.stop, ⟨.success, []⟩)
  else (c, badRequest "unknown message")

/-- The peer has closed: the boot id the connection remembers is unregistered. -/
def disconnect (c : Coordinator) (conn : Connection) : Coordinator :=
  { c with
    ledger :=
      if conn.registered ∧ conn.connBoot.valid then c.ledger.unregisterWorker conn.connBoot
      else c.ledger
    conn := none }

/-- One event, with the reply to it. -/
def step (c : Coordinator) (ev : Event) : Coordinator × Option Reply :=
  match c.conn with
  | none =>
    if c.running then
      match ev with
      | .accept => ({ c with conn := some {} }, none)
      | .acceptFailed => (c.stop, none)
      | _ => (c, none)
    else (c, none)
  | some conn =>
    match ev with
    | .frame f => ((c.handle ord f).1, some (c.handle ord f).2)
    | .closed => (c.disconnect conn, none)
    | _ => (c, none)

/-- The process after a list of events. -/
def run (c : Coordinator) (evs : List Event) : Coordinator :=
  Machine.run (fun c ev => (c.step ord ev).1) c evs

/-- The entry that the reply to the event acknowledges. -/
def acknowledged (c : Coordinator) : Event → List LedgerEntry
  | .frame f =>
    match (c.step ord (.frame f)).2 with
    | none => []
    | some reply =>
      if (f.kind = MessageKind.kAppend.toBits ∨ f.kind = MessageKind.kReclassify.toBits) ∧
          reply.status.ok then f.entry.toList
      else []
  | _ => []

/-- The entries acknowledged over a list of events. -/
def acknowledgedAll (c : Coordinator) : List Event → List LedgerEntry
  | [] => []
  | ev :: evs => c.acknowledged ord ev ++ (c.step ord ev).1.acknowledgedAll evs

end Step

end Coordinator

/-! ### One process after the other -/

/-- A process over the path, up to its end or to the moment it is killed. -/
structure Incarnation where
  load : Bool := true
  epoch : CoordinatorEpoch
  events : List Event

/-- The file at the path, and all entries that were ever acknowledged over it. -/
structure Path where
  file : Option Bytes := none
  acknowledged : List LedgerEntry := []

namespace Path

variable (ord : IterationOrder)

/-- The process of an incarnation, before its first `accept`. -/
def start (p : Path) (i : Incarnation) : Coordinator :=
  Coordinator.start ord { hasPath := true, epoch := i.epoch, load := i.load } p.file

/-- What an incarnation leaves. -/
def live (p : Path) (i : Incarnation) : Path :=
  { file := ((p.start ord i).run ord i.events).file
    acknowledged := p.acknowledged ++ (p.start ord i).acknowledgedAll ord i.events }

end Path

/-- The path after some incarnations; at first there is no file. -/
def lives (ord : IterationOrder) (is : List Incarnation) : Path :=
  Machine.run (Path.live ord) {} is

end El
