import Chunix.Linked.Chain
import Chunix.Mm.Basic

/-!
# The task table

Tasks are the `NPROC` slots of one array, each with a state, and are linked
through `next` from `rootp`. The kernel runs with interrupts off, so every
function below is one action on the kernel state; only `sched_yield` passes
control to another task, and it is modelled in `Chunix.Task.Sched`.
-/

namespace Chunix

open Machine Linked

/-- An index of the array `tasks[NPROC]`. -/
abbrev Slot := Fin 64

/-- The states `enum ts_state` of a task. -/
inductive TsState
  | unused
  | running
  | runnable
  | stopped
  | zombie
deriving DecidableEq, Repr

/-- A sleeping channel: the null pointer, a task, or another kernel object. -/
inductive Chan
  | null
  | task (t : Slot)
  | obj (addr : Nat)
deriving DecidableEq, Repr

/-- The channel a task pointer stands for. -/
def Chan.ofPtr : Option Slot → Chan
  | none => .null
  | some t => .task t

/-- One slot of the task table, `struct task`. -/
structure Task where
  tf : Nat
  context : Nat
  pid : Nat
  ppid : Nat
  name : Fin 24 → UInt8
  state : TsState
  sz : Nat
  priority : Int
  pgdir : Nat
  kstack : Nat
  chan : Chan
  heapTop : Nat
  heapStart : Nat
  ofile : Fin 16 → Option Nat
  parent : Option Slot
  next : Option Slot

/-- A slot of the static array `tasks`, which starts as zeros. -/
def Task.zero : Task where
  tf := 0
  context := 0
  pid := 0
  ppid := 0
  name := fun _ => 0
  state := .unused
  sz := 0
  priority := 0
  pgdir := 0
  kstack := 0
  chan := .null
  heapTop := 0
  heapStart := 0
  ofile := fun _ => none
  parent := none
  next := none

/-- The state of the kernel. `kpgdir` is the directory of the kernel itself,
`esp0` the field of the task state segment that `task_run` sets; `trapRet` and
`doNothing` are the addresses of two routines. -/
structure Kernel where
  mm : Mm
  tasks : Slot → Task
  rootp : Option Slot
  current : Option Slot
  inittask : Option Slot
  nextpid : Nat
  kpgdir : Nat
  esp0 : Nat
  trapRet : Nat
  doNothing : Nat

namespace Kernel

/-- The links of the task list. -/
def next (k : Kernel) (t : Slot) : Option Slot := (k.tasks t).next

/-- The state of a slot. -/
def state (k : Kernel) (t : Slot) : TsState := (k.tasks t).state

/-- The kernel with one slot changed. -/
def setTask (k : Kernel) (t : Slot) (f : Task → Task) : Kernel :=
  { k with tasks := Function.update k.tasks t (f (k.tasks t)) }

/-- A memory manager action, run by the kernel. -/
def onMm {α : Type} (x : Act Mm α) : Act Kernel α :=
  Act.zoom (fun k => k.mm) (fun m k => { k with mm := m }) x

/-- The change of one slot. -/
def updTask (t : Slot) (f : Task → Task) : Act Kernel Unit :=
  Act.modify fun k => k.setTask t f

/-- The slot `current` points to; a null `current` is dereferenced at the
address zero. -/
def getCurrent : Act Kernel Slot := do
  match (← Act.get).current with
  | some t => return t
  | none => Act.halt (.fault 0)

end Kernel

namespace Task

open Kernel

/-- The priority `INIT_PRIO` of a new task. -/
def initPrio : Int := 20

/-- The size `KSTACKSIZE` of a kernel stack. -/
def kstacksize : Nat := 4096

/-- The size of `struct stack_frame`. -/
def stackFrameSize : Nat := 80

/-- The size of `struct context`. -/
def contextSize : Nat := 20

/-- The start `HEAP_START` of the kernel heap of a task. -/
def heapStartAddr : Nat := 0xD0000000

/-- The first slot that is not used, as the scan of `task_alloc` finds it. -/
def firstUnused (k : Kernel) : Option Slot :=
  (List.finRange 64).find? fun t => k.state t = .unused

/-- `task_alloc`: the first unused slot with a kernel stack and an initial
context on it, or the null pointer. -/
def taskAlloc : Act Kernel (Option Slot) := do
  match firstUnused (← Act.get) with
  | none => return none
  | some t =>
      let kstack ← onMm Mm.kallocPage
      updTask t fun tp => { tp with kstack := kstack }
      if kstack = 0 then
        return none
      let k ← Act.get
      let ppid := match k.current with
        | none => 0
        | some c => (k.tasks c).pid
      let tf := kstack + kstacksize - stackFrameSize
      let context := tf - 4 - contextSize
      updTask t fun tp => { tp with
        pid := k.nextpid, ppid := ppid, state := .stopped, priority := initPrio,
        heapTop := heapStartAddr, heapStart := 0, tf := tf, context := context }
      Act.modify fun k => { k with nextpid := u32 (k.nextpid + 1) }
      onMm (Mm.kstore (tf - 4) k.trapRet)
      onMm (Mm.kmemset context 0 contextSize)
      onMm (Mm.kstore (context + 16) k.doNothing)
      return some t

/-- The path of `fork` after the label `fork_fail`. When `task_alloc` gave no
slot the fields `kstack` and `state` are accessed through the null pointer, at
the user addresses 56 and 40. -/
def forkFail : Option Slot → Act Kernel Int
  | some t => do
      let kstack ← Act.gets fun k => (k.tasks t).kstack
      onMm (Mm.kfreePage kstack)
      updTask t fun tp => { tp with kstack := 0, state := .unused }
      return -1
  | none => do
      let kstack ← onMm (Mm.vload32 56)
      onMm (Mm.kfreePage kstack)
      onMm (Mm.vstore32 56 0)
      onMm (Mm.vstore32 40 0)
      return -1

/-- `fork`: the pid of the new child, or `-1`. -/
def fork : Act Kernel Int := do
  match ← taskAlloc with
  | none => forkFail none
  | some t =>
      let c ← getCurrent
      let cur ← Act.gets fun k => k.tasks c
      let pgdir ← onMm (Mm.copyUvm cur.pgdir cur.sz)
      updTask t fun tp => { tp with pgdir := pgdir }
      if pgdir = 0 then
        forkFail (some t)
      else
        updTask t fun tp => { tp with sz := cur.sz, parent := some c }
        let tf ← Act.gets fun k => (k.tasks t).tf
        onMm (Mm.kmemmove tf cur.tf stackFrameSize)
        if (← onMm (Mm.copyPage cur.pgdir pgdir (Mm.ustacktop - 4096))) = 0 then
          forkFail (some t)
        else
          onMm (Mm.kstore (tf + 44) 0)
          let pid ← Act.gets fun k => (k.tasks t).pid
          let rootp ← Act.gets fun k => k.rootp
          updTask t fun tp => { tp with state := .runnable, next := rootp }
          Act.modify fun k => { k with rootp := some t }
          return pid

/-- The slots on the list from `rootp`; the loop over a cyclic list does not
end. -/
def taskList : Act Kernel (List Slot) := do
  let k ← Act.get
  match follow k.next 64 k.rootp with
  | some l => return l
  | none => Act.halt .hang

/-- A task stopped on `chan` made runnable. -/
def wake (chan : Chan) (tp : Task) : Task :=
  if tp.state = .stopped ∧ tp.chan = chan then { tp with state := .runnable } else tp

/-- `wakeup`: every listed task stopped on `chan` becomes runnable. -/
def wakeup (chan : Chan) : Act Kernel Unit := do
  let l ← taskList
  Act.modify fun k =>
    { k with tasks := fun t => if t ∈ l then wake chan (k.tasks t) else k.tasks t }

/-- `sleep_on` up to its call of `sched_yield`. -/
def sleepOn (chan : Chan) : Act Kernel Unit := do
  match (← Act.get).current with
  | none => Act.halt (.panic "sleep: current == 0")
  | some c => updTask c fun tp => { tp with chan := chan, state := .stopped }

/-- What one pass of `wait` over the list finds: the pid of a zombie child that
it frees, or no zombie child and whether a child was met. -/
inductive Reap
  | pid (n : Nat)
  | none (child : Bool)
deriving DecidableEq, Repr

/-- The loop of `wait` over the list from `p` on. It leaves the list at the
first zombie child, so it may end on a cyclic list too. -/
def waitLoop (c : Slot) : Nat → Option Slot → Bool → Act Kernel Reap
  | _, none, child => return .none child
  | 0, some _, _ => Act.halt .hang
  | n + 1, some t, child => do
      let tp ← Act.gets fun k => k.tasks t
      if tp.parent ≠ some c then
        waitLoop c n tp.next child
      else if tp.state = .zombie then
        updTask t fun tp => { tp with
          pid := 0, parent := none, name := Function.update tp.name 0 0, state := .unused }
        onMm (Mm.kfreePage tp.kstack)
        updTask t fun tp => { tp with kstack := 0 }
        return .pid tp.pid
      else
        waitLoop c n tp.next true

/-- One pass of `wait` over the list. `child` is the flag `get_child`, which is
set for good by the first pass that meets a child. -/
def waitPass (child : Bool) : Act Kernel Reap := do
  let c ← getCurrent
  let rootp ← Act.gets fun k => k.rootp
  waitLoop c 64 rootp child

/-- The loop of `exit` over the list: children are handed to `inittask`, which
is woken up for every zombie met. The result says whether it was. -/
def exitLoop (c : Slot) : List Slot → Act Kernel Bool
  | [] => return false
  | t :: l => do
      let init ← Act.gets fun k => k.inittask
      let tp ← Act.gets fun k => k.tasks t
      if tp.parent = some c then
        updTask t fun tp => { tp with parent := init }
      if tp.state = .zombie then
        wakeup (.ofPtr init)
        let _ ← exitLoop c l
        return true
      else
        exitLoop c l

/-- `exit` up to its call of `sched_yield`. The test against `inittask` reads an
uninitialised pointer, `stale`. The result lists the channels woken up. -/
def exit (stale : Option Slot) : Act Kernel (List Chan) := do
  let init ← Act.gets fun k => k.inittask
  if stale = init then
    Act.halt (.panic "Error! inittask exit")
  let c ← getCurrent
  let l ← taskList
  let woken ← exitLoop c l
  updTask c fun tp => { tp with state := .zombie }
  let parent ← Act.gets fun k => (k.tasks c).parent
  wakeup (.ofPtr parent)
  return if woken then [.ofPtr init, .ofPtr parent] else [.ofPtr parent]

/-- `task_run` up to its call of `swtch`. -/
def taskRun (tp : Slot) : Act Kernel Unit := do
  let k ← Act.get
  if k.current ≠ some tp then
    match k.current with
    | some c =>
        if k.state c = .running then
          updTask c fun t => { t with state := .runnable }
    | none => pure ()
    Act.modify fun k => { k with current := some tp }
    updTask tp fun t => { t with state := .running, priority := t.priority - 1 }
    let tp ← Act.gets fun k => k.tasks tp
    Act.modify fun k => { k with esp0 := u32 (tp.kstack + kstacksize) }
    onMm (Mm.lcr3 (Mm.p2v tp.pgdir))

end Task

end Chunix
