import KoblitzCurve.Precomputation

/-! A precomputation that several threads use at the same time. A lock guards all of it but the
flag, which is also read without it. A step of a thread is one access to the lock or to the flag, or
the work on the slots while the lock is held. -/
namespace KoblitzCurve

namespace Precomputation

/-- What the flag is to be when the request is done, for those that change it. -/
def Request.goal : Request → Option Bool
  | .init _ => some true
  | .deinit => some false
  | _ => none

/-- What a request does while the lock is held, the flag apart. -/
def work (s : Precomputation) : Request → Reply × Precomputation
  | .init detected => (.done, s.prepare detected)
  | .deinit => (.done, s.discard)
  | request => s.answer request

end Precomputation

open Precomputation

inductive Stage
  | look
  | acquire
  | lookAgain
  | work
  | store (flag : Bool)
  | release (reply : Reply)
  deriving Repr

/-- Requests that change the flag look at it first, as their work may not be needed. -/
def Stage.first : Request → Stage
  | .init _ => look
  | .deinit => look
  | .isInitialized => look
  | _ => acquire

structure Call where
  thread : Nat
  number : Nat
  request : Request
  deriving DecidableEq, Repr

inductive CallEvent
  | began (call : Call)
  | ended (call : Call) (reply : Reply)
  deriving Repr

/-- The number of calls that a thread has begun, the requests that it has still to make, and the
call that it is in. -/
structure Thread where
  made : Nat
  pending : List Request
  current : Option (Call × Stage)
  deriving Repr

structure SharedPrecomputation where
  memory : Precomputation
  holder : Option Nat
  threads : List Thread
  /-- The latest event first. -/
  log : List CallEvent
  deriving Repr

namespace SharedPrecomputation

def start (memory : Precomputation) (programs : List (List Request)) : SharedPrecomputation :=
  ⟨memory, none, programs.map (⟨0, ·, none⟩), []⟩

def proceed (s : SharedPrecomputation) (thread : Thread) (call : Call) (stage : Stage) :
    SharedPrecomputation :=
  { s with threads := s.threads.set call.thread { thread with current := some (call, stage) } }

def finish (s : SharedPrecomputation) (thread : Thread) (call : Call) (reply : Reply) :
    SharedPrecomputation :=
  { s with
    threads := s.threads.set call.thread { thread with current := none }
    log := .ended call reply :: s.log }

/-- A step at the given stage of a call. At a lock that another thread has, nothing happens. -/
def stepAt (s : SharedPrecomputation) (thread : Thread) (call : Call) :
    Stage → SharedPrecomputation
  | .look =>
    match call.request.goal with
    | none => s.finish thread call (.isInitialized s.memory.initialized)
    | some flag =>
      if s.memory.initialized = flag then s.finish thread call .done
      else s.proceed thread call .acquire
  | .acquire =>
    match s.holder with
    | some _ => s
    | none =>
      let stage := if call.request.goal.isSome then Stage.lookAgain else Stage.work
      { s with holder := some call.thread }.proceed thread call stage
  | .lookAgain =>
    if call.request.goal = some s.memory.initialized then s.proceed thread call (.release .done)
    else s.proceed thread call .work
  | .work =>
    let done := s.memory.work call.request
    let stage :=
      match call.request.goal with
      | some flag => Stage.store flag
      | none => Stage.release done.1
    { s with memory := done.2 }.proceed thread call stage
  | .store flag =>
    { s with memory := { s.memory with initialized := flag } }.proceed thread call
      (.release .done)
  | .release reply => { s with holder := none }.finish thread call reply

def step (s : SharedPrecomputation) (t : Nat) : SharedPrecomputation :=
  match s.threads[t]? with
  | none => s
  | some ⟨_, [], none⟩ => s
  | some ⟨made, request :: rest, none⟩ =>
    let call : Call := ⟨t, made, request⟩
    { s with log := .began call :: s.log }.proceed ⟨made + 1, rest, none⟩ call (.first request)
  | some ⟨made, rest, some (call, stage)⟩ => s.stepAt ⟨made, rest, none⟩ call stage

def run (s : SharedPrecomputation) (schedule : List Nat) : SharedPrecomputation :=
  schedule.foldl step s

def replies (s : SharedPrecomputation) (t : Nat) : List Reply :=
  s.log.reverse.filterMap fun event =>
    match event with
    | .began _ => none
    | .ended call reply => if call.thread = t then some reply else none

/-- The schedule that runs the threads one after the other, each to its end. No call needs more
than seven steps. -/
def inTurn (programs : List (List Request)) : List Nat :=
  programs.zipIdx.flatMap fun (program, t) => List.replicate (7 * program.length) t

end SharedPrecomputation

end KoblitzCurve
