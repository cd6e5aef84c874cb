import Mathlib.Tactic
import XviOs.Library.Queue
import XviOs.Library.Runs

namespace XviOs.Concurrency.Spinlock

open Library.Queue Library.Runs

def queuedSpinlockFlags : BitVec 64 := 3
def queuedSpinlockPointer : BitVec 64 := ~~~queuedSpinlockFlags
def queuedSpinlockLocked : BitVec 64 := 1

def isLocked (spinlock : BitVec 64) : Bool := spinlock &&& queuedSpinlockLocked ≠ 0

def getNext (spinlock : BitVec 64) : BitVec 64 := spinlock &&& queuedSpinlockPointer

def lockedVal (token : BitVec 64) : BitVec 64 := token ||| queuedSpinlockLocked

/-- Every thread has a token of its own. -/
structure Tokens (Thread : Type) where
  address : Thread → BitVec 64
  injective : Function.Injective address
  aligned : ∀ t, address t &&& queuedSpinlockFlags = 0
  ne_zero : ∀ t, address t ≠ 0

/-- The next operation of a thread: of `QueuedSpinlockAcquire` up to `spinning`, and of `QueuedSpinlockRelease` from
`fastRelease` on. -/
inductive Pc
  | idle
  | fastAcquire
  | clearToken
  | exchangeLock
  | linkLoad (waiter : BitVec 64)
  | linkStore (waiter flags : BitVec 64)
  | spinning
  | critical
  | fastRelease
  | mediumRelease (current : BitVec 64)
  | awaitNext
  | unlockNext (next current desired : BitVec 64)
  deriving DecidableEq

/-- The last two fields are not the program's: the threads that have exchanged the lock and not yet released it, the
first one in front, and the thread that holds the lock without having been queued. -/
structure State (Thread : Type) where
  lock : BitVec 64
  mem : BitVec 64 → BitVec 64
  pc : Thread → Pc
  queue : List Thread
  fast : Option Thread

/-- A thread begins to acquire, or to release what it holds, or it executes its next operation. A weak
compare-exchange may fail although it finds what it expects. -/
inductive Act
  | acquire
  | release
  | proceed (spurious : Bool)

variable {Thread : Type} [DecidableEq Thread] (k : Tokens Thread)

namespace State

def goto (s : State Thread) (t : Thread) (pc : Pc) : State Thread := { s with pc := Function.update s.pc t pc }

def store (s : State Thread) (a value : BitVec 64) : State Thread := { s with mem := Function.update s.mem a value }

/-- The word of a thread's token. -/
def word (s : State Thread) (t : Thread) : BitVec 64 := s.mem (k.address t)

/-- The next operation of the thread `t`. -/
def proceed (s : State Thread) (t : Thread) (spurious : Bool) : State Thread :=
  match s.pc t with
  | .idle | .critical => s
  | .fastAcquire =>
    if s.lock = 0 ∧ spurious = false then
      { s.goto t .critical with lock := queuedSpinlockLocked, fast := some t }
    else s.goto t .clearToken
  | .clearToken => (s.store (k.address t) queuedSpinlockLocked).goto t .exchangeLock
  | .exchangeLock =>
    { s.goto t (if isLocked s.lock then .linkLoad (getNext s.lock) else .critical) with
      lock := lockedVal (k.address t)
      queue := s.queue ++ [t] }
  | .linkLoad waiter => s.goto t (.linkStore waiter (s.mem waiter &&& queuedSpinlockFlags))
  | .linkStore waiter flags => (s.store waiter (k.address t ||| flags)).goto t .spinning
  | .spinning => if isLocked (s.word k t) then s else s.goto t .critical
  | .fastRelease =>
    if s.lock = queuedSpinlockLocked ∧ spurious = false then { s.goto t .idle with lock := 0, fast := none }
    else s.goto t (.mediumRelease s.lock)
  | .mediumRelease current =>
    if getNext current = k.address t then
      if s.lock = current ∧ spurious = false then { s.goto t .idle with lock := 0, queue := s.queue.erase t }
      else s.goto t (.mediumRelease s.lock)
    else s.goto t .awaitNext
  | .awaitNext =>
    if getNext (s.word k t) = 0 then s
    else s.goto t (.unlockNext (getNext (s.word k t)) queuedSpinlockLocked 0)
  | .unlockNext next current desired =>
    if s.mem next = current ∧ spurious = false then
      { (s.store next desired).goto t .idle with queue := s.queue.erase t }
    else s.goto t (.unlockNext next (s.mem next) (s.mem next &&& ~~~queuedSpinlockLocked))

end State

def step (s : State Thread) : Thread × Act → Option (State Thread)
  | (t, .acquire) => if s.pc t = .idle then some (s.goto t .fastAcquire) else none
  | (t, .release) => if s.pc t = .critical then some (s.goto t .fastRelease) else none
  | (t, .proceed spurious) => if s.pc t = .idle ∨ s.pc t = .critical then none else some (s.proceed k t spurious)

/-- The tokens may hold anything. -/
def initial (mem : BitVec 64 → BitVec 64) : State Thread where
  lock := 0
  mem := mem
  pc _ := .idle
  queue := []
  fast := none

/-- The address that the next operation of a thread reads or writes through a pointer. -/
def Pc.pointer : Pc → Option (BitVec 64)
  | linkLoad waiter => some waiter
  | linkStore waiter _ => some waiter
  | unlockNext next _ _ => some next
  | _ => none

/-- The thread has joined the queue and does not hold the lock yet. -/
def Pc.Waiting : Pc → Prop
  | linkLoad _ | linkStore _ _ | spinning => True
  | _ => False

section Words

theorem isLocked_eq (x : BitVec 64) : isLocked x = x.getLsbD 0 := by
  have hbit : x &&& queuedSpinlockLocked = BitVec.setWidth 64 (BitVec.ofBool (x.getLsbD 0)) :=
    BitVec.and_one_eq_setWidth_ofBool_getLsbD
  rw [isLocked, hbit]
  cases x.getLsbD 0 <;> decide

theorem getNext_or (x y : BitVec 64) : getNext (x ||| y) = getNext x ||| getNext y := by
  ext i hi
  simp [getNext, Bool.and_or_distrib_right]

theorem isLocked_or (x y : BitVec 64) : isLocked (x ||| y) = (isLocked x || isLocked y) := by
  rw [isLocked_eq, isLocked_eq, isLocked_eq, BitVec.getLsbD_or]

theorem getNext_flags (x : BitVec 64) : getNext (x &&& queuedSpinlockFlags) = 0 := by
  rw [getNext, queuedSpinlockPointer, BitVec.and_assoc, BitVec.and_not_self]
  exact BitVec.and_zero

theorem isLocked_flags (x : BitVec 64) : isLocked (x &&& queuedSpinlockFlags) = isLocked x := by
  rw [isLocked_eq, isLocked_eq, BitVec.getLsbD_and]
  change (x.getLsbD 0 && true) = x.getLsbD 0
  rw [Bool.and_true]

theorem getNext_unlock (x : BitVec 64) : getNext (x &&& ~~~queuedSpinlockLocked) = getNext x := by
  rw [getNext, getNext, BitVec.and_assoc]
  rfl

theorem isLocked_unlock (x : BitVec 64) : isLocked (x &&& ~~~queuedSpinlockLocked) = false := by
  rw [isLocked_eq, BitVec.getLsbD_and]
  change (x.getLsbD 0 && false) = false
  rw [Bool.and_false]

theorem isLocked_locked : isLocked queuedSpinlockLocked = true := by decide

theorem getNext_locked : getNext queuedSpinlockLocked = 0 := by decide

omit [DecidableEq Thread]

variable (t : Thread)

theorem getNext_address : getNext (k.address t) = k.address t := by
  have haligned := k.aligned t
  have hsplit : k.address t &&& (queuedSpinlockFlags ||| queuedSpinlockPointer) = k.address t := by
    rw [queuedSpinlockPointer, BitVec.or_not_self, BitVec.and_allOnes]
  rw [BitVec.and_or_distrib_left, haligned] at hsplit
  exact BitVec.zero_or.symm.trans hsplit

theorem isLocked_address : isLocked (k.address t) = false := by
  have hbit := congrArg (fun x => BitVec.getLsbD x 0) (k.aligned t)
  rw [isLocked_eq]
  simpa [queuedSpinlockFlags] using hbit

theorem getNext_lockedVal : getNext (lockedVal (k.address t)) = k.address t := by
  rw [lockedVal, getNext_or, getNext_address, getNext_locked]
  exact BitVec.or_zero

theorem isLocked_lockedVal : isLocked (lockedVal (k.address t)) = true := by
  rw [lockedVal, isLocked_or, isLocked_locked, Bool.or_true]

theorem lockedVal_ne_zero : lockedVal (k.address t) ≠ 0 := by
  intro h
  have hlocked := isLocked_lockedVal k t
  rw [h] at hlocked
  cases hlocked

theorem lockedVal_ne_locked : lockedVal (k.address t) ≠ queuedSpinlockLocked := by
  intro h
  have hnext := getNext_lockedVal k t
  rw [h, getNext_locked] at hnext
  exact k.ne_zero t hnext.symm

theorem getNext_link {flags : BitVec 64} (h : getNext flags = 0) : getNext (k.address t ||| flags) = k.address t := by
  rw [getNext_or, getNext_address, h]
  exact BitVec.or_zero

theorem isLocked_link (flags : BitVec 64) : isLocked (k.address t ||| flags) = isLocked flags := by
  rw [isLocked_or, isLocked_address, Bool.false_or]

end Words

end XviOs.Concurrency.Spinlock
