import Mathlib.Algebra.Group.Int.Defs
import Mathlib.Algebra.Group.Nat.Defs
import Mathlib.Algebra.GroupWithZero.Nat
import Mathlib.Logic.Function.Basic
import RucDDBS.Library.Run

/-!
The timestamp oracle of the meta server. A timestamp is a physical part, the
clock in milliseconds, above eighteen bits of a logical counter. The physical
part is moved by a background thread; callers of `getTimeStamp` draw logical
numbers under the same mutex and check afterwards, outside of it, what they have
drawn.

The file `last_timestamp` is what survives a restart. `Server` is the process
around the oracle: it can stop at any point, also in the middle of a save, and be
started again on the same file.
-/

namespace RucDDBS

/-- The errors the oracle raises. Nothing catches them: the thread of the oracle
ends, and the process with it. -/
inductive MetaServerError where
  | noMetaDir
  | unixError
  deriving DecidableEq, Repr

/-- The data directory. `lastTimestamp` is what `ifs >> lastTS` reads from the
file; a missing file, and one that holds no number, give nothing. -/
structure DataDir where
  isDir : Bool
  canEnter : Bool
  lastTimestamp : Option UInt64
  deriving DecidableEq, Repr

structure Oracle where
  lastTS : UInt64
  physiacl : UInt64
  logical : UInt64
  deriving DecidableEq, Repr

namespace Oracle

def physicalShiftBits : UInt64 := 18

def maxRetryCount : Nat := 100

def saveTimestampInterval : UInt64 := 1

def updateTimestampGuard : UInt64 := 1

def maxLogical : UInt64 := 1 <<< physicalShiftBits

def enterDataDir (dir : DataDir) : Except MetaServerError Unit :=
  if dir.isDir = false then .error .noMetaDir
  else if dir.canEnter = false then .error .unixError
  else .ok ()

/-- A failed extraction leaves the zero of the constructor. -/
def getTimestampFromPath (dir : DataDir) : Except MetaServerError UInt64 := do
  enterDataDir dir
  pure (dir.lastTimestamp.getD 0)

def saveTimeStampToPath (dir : DataDir) (ts : UInt64) : Except MetaServerError DataDir := do
  enterDataDir dir
  pure { dir with lastTimestamp := some ts }

/-- The physical part a session starts on. The difference is unsigned. -/
def firstPhysical (lastTS now : UInt64) : UInt64 :=
  if now - lastTS < updateTimestampGuard then lastTS + updateTimestampGuard else now

def syncTimestamp (dir : DataDir) (now : UInt64) :
    Except MetaServerError (Oracle × DataDir) := do
  let lastTS ← getTimestampFromPath dir
  let next := firstPhysical lastTS now
  let dir ← saveTimeStampToPath dir (next + saveTimestampInterval)
  pure (⟨lastTS, next, 0⟩, dir)

/-- Where `updateTimestamp` moves the physical part, if it moves it. `jetLag` is
a signed 64-bit number. -/
def nextPhysical (o : Oracle) (now : UInt64) : Option UInt64 :=
  if (now - o.physiacl).toInt64 > updateTimestampGuard.toInt64 then some now
  else if o.logical > maxLogical / 2 then some (o.physiacl + 1)
  else none

/-- The guard of the save: `signed(...)` is `int`, so it looks at the low 32 bits
of the difference. -/
def saves (o : Oracle) (next : UInt64) : Bool :=
  (o.lastTS - next).toUInt32.toInt32 ≤ updateTimestampGuard.toUInt32.toInt32

def updateTimestamp (o : Oracle) (dir : DataDir) (now : UInt64) :
    Except MetaServerError (Oracle × DataDir) :=
  match o.nextPhysical now with
  | none => pure (o, dir)
  | some next => do
      let dir ←
        if o.saves next = true then saveTimeStampToPath dir (next + saveTimestampInterval)
        else pure dir
      pure ({ o with physiacl := next, logical := 0 }, dir)

def composeTS (physical logical : UInt64) : UInt64 :=
  (physical <<< physicalShiftBits) + logical

end Oracle

abbrev CallerId := Nat

/-- Where a caller of `getTimeStamp` stands: before the critical section of its
attempt `i`, or behind it with what it has drawn. `draw` numbers the critical
sections of the session. -/
inductive Caller where
  | idle
  | attempt (i : Nat)
  | drawn (i : Nat) (physical logic : UInt64) (draw : Nat)
  deriving DecidableEq, Repr

/-- A value that `getTimeStamp` returned, the session it did so in and the
critical section it was drawn in. -/
structure Issued where
  session : Nat
  draw : Nat
  value : UInt64
  deriving DecidableEq, Repr

/-- The process. `session`, `draws` and `issued` are a history that no step
reads. -/
structure Server where
  dir : DataDir
  running : Bool
  oracle : Oracle
  callers : CallerId → Caller
  session : Nat
  draws : List (UInt64 × UInt64)
  issued : List Issued

inductive OracleAction where
  /-- the process starts and runs `syncTimestamp` -/
  | start (now : UInt64)
  /-- a round of the background thread -/
  | update (now : UInt64)
  | call (c : CallerId)
  /-- the critical section of an attempt -/
  | draw (c : CallerId)
  /-- the checks behind it, and the return -/
  | check (c : CallerId)
  | stop
  /-- the process stops inside of `saveTimeStampToPath`, when the file is
  truncated and not written -/
  | stopSaving (now : UInt64)
  deriving DecidableEq, Repr

namespace Server

open Oracle

/-- Before the first session. -/
def boot (dir : DataDir) : Server :=
  ⟨dir, false, ⟨0, 0, 0⟩, fun _ => .idle, 0, [], []⟩

def halt (s : Server) : Server :=
  { s with running := false, callers := fun _ => .idle }

def setCaller (s : Server) (c : CallerId) (pc : Caller) : Server :=
  { s with callers := Function.update s.callers c pc }

def issue (s : Server) (draw : Nat) (value : UInt64) : Server :=
  { s with issued := s.issued ++ [⟨s.session, draw, value⟩] }

def start (s : Server) (now : UInt64) : Server :=
  match syncTimestamp s.dir now with
  | .error _ => s
  | .ok (oracle, dir) =>
      { s with
        dir := dir
        running := true
        oracle := oracle
        session := s.session + 1
        draws := [] }

def update (s : Server) (now : UInt64) : Server :=
  match s.oracle.updateTimestamp s.dir now with
  | .error _ => s.halt
  | .ok (oracle, dir) => { s with oracle := oracle, dir := dir }

def drawBy (s : Server) (c : CallerId) (i : Nat) : Server :=
  { s with
    oracle := { s.oracle with logical := s.oracle.logical + 1 }
    callers := Function.update s.callers c
      (.drawn i s.oracle.physiacl (s.oracle.logical + 1) s.draws.length)
    draws := s.draws ++ [(s.oracle.physiacl, s.oracle.logical + 1)] }

/-- The physical part is read again here, without the mutex. -/
def rejects (s : Server) (logic : UInt64) : Bool :=
  s.oracle.physiacl = 0 || logic > maxLogical

def checkBy (s : Server) (c : CallerId) (i : Nat) (physical logic : UInt64)
    (draw : Nat) : Server :=
  if s.rejects logic = true then
    if i + 1 < maxRetryCount then s.setCaller c (.attempt (i + 1))
    else (s.setCaller c .idle).issue draw 0
  else (s.setCaller c .idle).issue draw (composeTS physical logic)

/-- Does the next round of the background thread open the file for a save?
`syncTimestamp`, the first round, always does. -/
def savesNext (s : Server) (now : UInt64) : Bool :=
  s.dir.isDir && s.dir.canEnter &&
    match s.running, s.oracle.nextPhysical now with
    | false, _ => true
    | true, none => false
    | true, some next => s.oracle.saves next

def step (s : Server) : OracleAction → Option Server
  | .start now => if s.running = true then none else some (s.start now)
  | .update now => if s.running = true then some (s.update now) else none
  | .call c =>
      match s.running, s.callers c with
      | true, .idle => some (s.setCaller c (.attempt 0))
      | _, _ => none
  | .draw c =>
      match s.callers c with
      | .attempt i => some (s.drawBy c i)
      | _ => none
  | .check c =>
      match s.callers c with
      | .drawn i physical logic draw => some (s.checkBy c i physical logic draw)
      | _ => none
  | .stop => if s.running = true then some s.halt else none
  | .stopSaving now =>
      if s.savesNext now = true then
        some { s.halt with dir := { s.dir with lastTimestamp := none } }
      else none

def Step (s : Server) (a : OracleAction) (t : Server) : Prop := s.step a = some t

/-- What a step can do. -/
inductive Effect (s : Server) : OracleAction → Server → Prop
  | start (now : UInt64) (hoff : s.running = false) : Effect s (.start now) (s.start now)
  | update (now : UInt64) (hon : s.running = true) : Effect s (.update now) (s.update now)
  | call (c : CallerId) (hon : s.running = true) (hc : s.callers c = .idle) :
      Effect s (.call c) (s.setCaller c (.attempt 0))
  | draw (c : CallerId) (i : Nat) (hc : s.callers c = .attempt i) :
      Effect s (.draw c) (s.drawBy c i)
  | check (c : CallerId) (i : Nat) (physical logic : UInt64) (draw : Nat)
      (hc : s.callers c = .drawn i physical logic draw) :
      Effect s (.check c) (s.checkBy c i physical logic draw)
  | stop (hon : s.running = true) : Effect s .stop s.halt
  | stopSaving (now : UInt64) (hsaves : s.savesNext now = true) :
      Effect s (.stopSaving now) { s.halt with dir := { s.dir with lastTimestamp := none } }

theorem Step.effect {s t : Server} {a : OracleAction} (h : Step s a t) : Effect s a t := by
  cases a with
  | start now =>
      simp only [Step, step, Option.ite_none_left_eq_some, Bool.not_eq_true,
        Option.some.injEq] at h
      obtain ⟨hoff, rfl⟩ := h
      exact .start now hoff
  | update now =>
      simp only [Step, step, Option.ite_none_right_eq_some, Option.some.injEq] at h
      obtain ⟨hon, rfl⟩ := h
      exact .update now hon
  | call c =>
      simp only [Step, step] at h
      split at h
      next hon hc =>
        obtain rfl := Option.some.inj h
        exact .call c hon hc
      next => cases h
  | draw c =>
      simp only [Step, step] at h
      split at h
      next i hc =>
        obtain rfl := Option.some.inj h
        exact .draw c i hc
      next => cases h
  | check c =>
      simp only [Step, step] at h
      split at h
      next i physical logic draw hc =>
        obtain rfl := Option.some.inj h
        exact .check c i physical logic draw hc
      next => cases h
  | stop =>
      simp only [Step, step, Option.ite_none_right_eq_some, Option.some.injEq] at h
      obtain ⟨hon, rfl⟩ := h
      exact .stop hon
  | stopSaving now =>
      simp only [Step, step, Option.ite_none_right_eq_some, Option.some.injEq] at h
      obtain ⟨hsaves, rfl⟩ := h
      exact .stopSaving now hsaves

end Server

end RucDDBS
