import Chunix.Mm.User
import Chunix.Task.Spec

/-!
# Creation of the first tasks

`task_create` takes a slot with `task_alloc`, gives it an address space and
loads an ELF binary from the kernel image into it. The kernel image is a fixed
byte source `img`; `binary` is the address of the binary in it.
-/

namespace Chunix

namespace Task

open Machine Kernel

/-- The loop of `load_icode` over the program headers from `ph` up to `eph`,
with the number of headers as fuel. -/
def loadIcodeLoop (pgdir : Nat) (img : Memory) (binary eph : Nat) :
    Nat → Nat → Nat → Act Mm Nat
  | 0, _, range => return range
  | n + 1, ph, range => do
      if ph < eph then
        let p := Elf.progHeader img ph
        if p.type = Elf.progLoad then
          Mm.regionAlloc pgdir p.va p.memsize (Mm.pteW ||| Mm.pteU)
          Mm.vwrite p.va (fun i => img (u32 (binary + p.offset + i))) p.filesize 0
          Mm.vmemset (p.va + p.filesize) 0 (u32 (p.memsize + 4294967296 - p.filesize))
          loadIcodeLoop pgdir img binary eph n (ph + Elf.progHeaderSize)
            (max range (u32 (p.va + p.memsize)))
        else
          loadIcodeLoop pgdir img binary eph n (ph + Elf.progHeaderSize) range
      else
        return range

/-- `load_icode`: the segments of the binary and a stack page in the directory
`pgdir`, which CR3 holds. The result is the end of the highest segment. -/
def loadIcode (tf pgdir : Nat) (img : Memory) (binary : Nat) : Act Mm Nat := do
  let h := Elf.header img binary
  if h.magic ≠ Elf.magic then
    Act.halt (.panic "load_icode failed: not a elf file.")
  let ph := u32 (binary + h.phoff)
  let eph := u32 (ph + h.phnum * Elf.progHeaderSize)
  let range ← loadIcodeLoop pgdir img binary eph h.phnum ph 0
  Mm.kstore (tf + 60) h.entry
  Mm.regionAlloc pgdir (Mm.ustacktop - 4096) 4096 (Mm.pteW ||| Mm.pteU)
  return range

/-- The trap frame `task_create` sets up: user segments, interrupts on and an
empty stack. -/
def initTf (tf : Nat) : Act Mm Unit := do
  Mm.kmemset tf 0 stackFrameSize
  Mm.kstore (tf + 64) 0x1b
  Mm.kstore (tf + 12) 0x23
  Mm.kstore (tf + 8) 0x23
  Mm.kstore (tf + 4) 0x23
  Mm.kstore tf 0x23
  Mm.kstore (tf + 76) 0x23
  Mm.kstore (tf + 68) 0x200
  Mm.kstore (tf + 72) Mm.ustacktop

/-- `task_create`: the slot of the new task, or the null pointer. -/
def taskCreate (img : Memory) (binary : Nat) : Act Kernel (Option Slot) := do
  match ← taskAlloc with
  | none => return none
  | some t =>
      let pgdir ← onMm Mm.mapkvm
      updTask t fun tp => { tp with pgdir := pgdir }
      if pgdir = 0 then
        let kstack ← Act.gets fun k => (k.tasks t).kstack
        onMm (Mm.kfreePage kstack)
        return none
      let k ← Act.get
      let tf := (k.tasks t).tf
      onMm (initTf tf)
      onMm (Mm.lcr3 (Mm.p2v pgdir))
      let range ← onMm (loadIcode tf pgdir img binary)
      onMm (Mm.lcr3 (Mm.p2v k.kpgdir))
      let rootp ← Act.gets fun k => k.rootp
      updTask t fun tp => { tp with sz := range, state := .runnable, next := rootp }
      Act.modify fun k => { k with rootp := some t }
      return some t

/-- The table after a `task_create` that made the task `t`. -/
structure Created (t : Slot) (k k' : Kernel) : Prop extends Pushed t k k' where
  parent : (k'.tasks t).parent = (k.tasks t).parent

theorem taskCreate_some {img : Memory} {binary : Nat} {k k' : Kernel} {t : Slot}
    (h : taskCreate img binary k = .ok (some t, k')) : Created t k k' := by
  obtain ⟨r, k₁, hr, h⟩ := Act.bind_eq_ok.1 h
  rcases taskAlloc_cases hr with ⟨rfl, -⟩ | ⟨u, rfl, hu, hs, -, hp⟩
  · exact absurd (Act.pure_eq_ok.1 h).1 (by simp)
  · simp only [Act.bind_eq_ok, onMm_eq_ok, updTask_eq_ok] at h
    obtain ⟨pgdir, _, ⟨m, -, rfl⟩, _, _, rfl, h⟩ := h
    rcases Act.ite_eq_ok.1 h with ⟨-, h⟩ | ⟨-, h⟩
    · simp [Act.bind_eq_ok] at h
    · simp only [Act.bind_eq_ok, onMm_eq_ok, updTask_eq_ok, Act.get_eq_ok, Act.gets_eq_ok,
        Act.modify_eq_ok, Act.pure_eq_ok] at h
      obtain ⟨_, _, ⟨rfl, rfl⟩, _, _, ⟨_, -, rfl⟩, _, _, ⟨_, -, rfl⟩, _, _, ⟨_, -, rfl⟩,
        _, _, ⟨_, -, rfl⟩, rootp, _, ⟨hroot, rfl⟩, _, _, rfl, _, _, rfl, ht, rfl⟩ := h
      cases ht
      refine ⟨⟨hu, rfl, ?_, hs.current, hs.inittask, ?_, by simp [Kernel.state]⟩,
        by simpa using hp⟩
      · funext v
        by_cases hv : v = t
        · subst hv
          rw [Function.update_self, ← hs.rootp, ← show k₁.rootp = rootp from hroot]
          simp [Kernel.next]
        · rw [Function.update_of_ne hv]
          simp only [Kernel.next, setTask_tasks_of_ne _ _ hv, hs.tasks v hv]
      · intro v hv
        simp only [setTask_tasks_of_ne _ _ hv, hs.tasks v hv]

end Task

end Chunix
