import Mathlib.Data.List.AList
import LedgerApp.Bytes
import LedgerApp.Transition

/-!
The execution context of the iOS interface: a dictionary from delays to Runnables, a lock, and the
methods that use them, which other threads call at any time. Every method is cut at its lock and
unlock calls and at each access to what the lock protects. A change of an array while
`waitUntilStopped` goes through it raises no exception here.
-/

namespace LedgerApp
namespace LGExecutionContextObjc

open Bytes

abbrev NSString := Str

-- an `LGRunnable` is known by its address
abbrev LGRunnable := Nat

-- `[[NSNumber numberWithLong:millis] stringValue]`, where a `long` has 64 bits
def stringValue (millis : Int64) : NSString :=
  decimal millis.toInt

-- a number that does not fit becomes the nearest one that does
def longLongValue (key : NSString) : Int64 :=
  Int64.ofInt (max Int64.minValue.toInt (min Int64.maxValue.toInt (atoi key)))

def msecPerSec : Int64 := 1000

-- the `delta` given to `dispatch_time`, in nanoseconds
def offset (key : NSString) : Int64 :=
  longLongValue key / msecPerSec

abbrev Queue := AList fun _ : NSString => List LGRunnable

-- `objectForKey`, where no array counts as an array without elements
def runnables (queue : Queue) (key : NSString) : List LGRunnable :=
  match queue.lookup key with
  | some runnables => runnables
  | none => []

def appendRunnable (queue : Queue) (runnable : LGRunnable) (key : NSString) : Queue :=
  if (runnables queue key).length ≠ 0 then
    queue.insert key (runnables queue key ++ [runnable])
  else
    queue.insert key [runnable]

inductive Method where
  | delay (runnable : LGRunnable) (millis : Int64)
  | isContextRunning
deriving DecidableEq, Repr

/-- What a call does next; its work is what stands between `lock` and `unlock`. -/
inductive Phase where
  | lock
  | work
  | unlock
  | done
deriving DecidableEq, Repr

structure Call where
  method : Method
  phase : Phase
  localRunning : Bool
deriving DecidableEq, Repr

inductive BlockPhase where
  | pending
  | ran
  | unlocked
deriving DecidableEq, Repr

/-- A block given to `dispatch_after`, with the pass and the key it comes from. -/
structure Block where
  runnable : LGRunnable
  key : NSString
  offset : Int64
  pass : Nat
  phase : BlockPhase
deriving DecidableEq, Repr

/-- What `waitUntilStopped` does next. -/
inductive Loop where
  | idle
  | lockStart
  | start
  | unlockStart
  | lockTest
  | test
  | unlockTest (localRunning : Bool)
  | tested (localRunning : Bool)
  | count
  | lockPass
  | allKeys
  | keys (keys : List NSString)
  | runnables (key : NSString) (index : Nat) (keys : List NSString)
  | unlockPass
  | lockStop
  | stop
  | unlockStop
  | returned
deriving DecidableEq, Repr

inductive Activity where
  | waitUntilStopped
  | call (index : Nat)
  | block (index : Nat)
deriving DecidableEq, Repr

/--
`unlocks` lists who called `unlock`, with the holder of the lock at that time; `accepted` lists what
`delay` has added, and `counted` is its length when `waitUntilStopped` last read the count.
-/
structure State where
  queue : Queue
  isRunning : Bool
  holder : Option Activity
  loop : Loop
  calls : List Call
  blocks : List Block
  pass : Nat
  unlocks : List (Activity × Option Activity)
  accepted : List (Int64 × LGRunnable)
  counted : Nat

inductive Action where
  | enter (method : Method)
  | waitUntilStopped
  | call (index : Nat)
  | loop
  | enumerate (keys : List NSString)
  | block (index : Nat)
deriving DecidableEq, Repr

namespace State

def init : State where
  queue := ∅
  isRunning := false
  holder := none
  loop := .idle
  calls := []
  blocks := []
  pass := 0
  unlocks := []
  accepted := []
  counted := 0

-- the caller waits until nobody holds the lock
def lock (s : State) (activity : Activity) : Option State :=
  match s.holder with
  | none => some { s with holder := some activity }
  | some _ => none

-- the lock is released whoever calls
def unlock (s : State) (activity : Activity) : State :=
  { s with holder := none, unlocks := s.unlocks ++ [(activity, s.holder)] }

def work (s : State) (index : Nat) (call : Call) : State :=
  match call.method with
  | .delay runnable millis =>
    { s with
      queue := appendRunnable s.queue runnable (stringValue millis)
      accepted := s.accepted ++ [(millis, runnable)]
      calls := s.calls.set index { call with phase := .unlock } }
  | .isContextRunning =>
    { s with
      calls := s.calls.set index { call with phase := .unlock, localRunning := s.isRunning } }

def stepCall (s : State) (index : Nat) (call : Call) : Option State :=
  match call.phase with
  | .lock =>
    match s.lock (.call index) with
    | some s => some { s with calls := s.calls.set index { call with phase := .work } }
    | none => none
  | .work => some (s.work index call)
  | .unlock =>
    let s := s.unlock (.call index)
    some { s with calls := s.calls.set index { call with phase := .done } }
  | .done => none

-- `lock` or `unlock` by `waitUntilStopped`, which then goes on at `loop`
def lockThen (s : State) (loop : Loop) : Option State :=
  match s.lock .waitUntilStopped with
  | some s => some { s with loop := loop }
  | none => none

def unlockThen (s : State) (loop : Loop) : State :=
  { s.unlock .waitUntilStopped with loop := loop }

def stepLoop (s : State) : Option State :=
  match s.loop with
  | .idle => none
  | .lockStart => s.lockThen .start
  | .start => some { s with isRunning := true, loop := .unlockStart }
  | .unlockStart => some (s.unlockThen .lockTest)
  | .lockTest => s.lockThen .test
  | .test => some { s with loop := .unlockTest s.isRunning }
  | .unlockTest localRunning => some (s.unlockThen (.tested localRunning))
  | .tested true => some { s with loop := .count }
  | .tested false => some { s with loop := .returned }
  | .count =>
    let loop := if s.queue.keys.length ≠ 0 then .lockPass else .lockStop
    some { s with counted := s.accepted.length, loop := loop }
  | .lockPass => s.lockThen .allKeys
  | .allKeys => none
  | .keys [] => some { s with loop := .unlockPass }
  | .keys (key :: keys) => some { s with loop := .runnables key 0 keys }
  | .runnables key index keys =>
    match (LGExecutionContextObjc.runnables s.queue key)[index]? with
    | some runnable =>
      let block : Block :=
        { runnable, key, offset := offset key, pass := s.pass, phase := .pending }
      some { s with blocks := s.blocks ++ [block], loop := .runnables key (index + 1) keys }
    | none => some { s with queue := s.queue.erase key, loop := .keys keys }
  | .unlockPass => some (s.unlockThen .lockTest)
  | .lockStop => s.lockThen .stop
  | .stop => some { s with isRunning := false, loop := .unlockStop }
  | .unlockStop => some (s.unlockThen .lockTest)
  | .returned => none

def stepBlock (s : State) (index : Nat) (block : Block) : Option State :=
  match block.phase with
  | .pending => some { s with blocks := s.blocks.set index { block with phase := .ran } }
  | .ran =>
    let s := s.unlock (.block index)
    some { s with blocks := s.blocks.set index { block with phase := .unlocked } }
  | .unlocked => none

end State

-- `allKeys` lists the keys in any order
def step (s : State) (action : Action) : Option State :=
  match action with
  | .enter method => some { s with calls := s.calls ++ [⟨method, .lock, false⟩] }
  | .waitUntilStopped =>
    match s.loop with
    | .idle => some { s with loop := .lockStart }
    | _ => none
  | .call index =>
    match s.calls[index]? with
    | some call => s.stepCall index call
    | none => none
  | .loop => s.stepLoop
  | .enumerate keys =>
    match s.loop with
    | .allKeys =>
      if keys.Perm s.queue.keys then
        some { s with pass := s.pass + 1, loop := .keys keys }
      else
        none
    | _ => none
  | .block index =>
    match s.blocks[index]? with
    | some block => s.stepBlock index block
    | none => none

def machine : System State Action where
  init := State.init
  step := step

end LGExecutionContextObjc
end LedgerApp
