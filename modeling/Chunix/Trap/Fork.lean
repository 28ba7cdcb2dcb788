import Chunix.Task.Recycle
import Chunix.Trap.Preempt
import Chunix.Trap.Syscall

/-!
# A system call that returns twice

`fork` copies the frame of its caller to the kernel stack of the child and clears `eax` there.
`task_alloc` has put the address of `trap_ret` below the frame and `do_nothing` into the context.
So when the child is switched to for the first time it goes on in user mode where its parent does,
with the same registers but for the result of the call.
-/

namespace Chunix

namespace Preempt

open Machine Chunix.Task Kernel Descr Isr
open Switch (InStack StacksOk)

/-- What a trap needs of the kernel besides its memory and its tasks. -/
def code (k : Kernel) : Nat × Nat × Nat := (k.esp0, k.trapRet, k.doNothing)

theorem readOnly_getCurrent : Act.ReadOnly getCurrent := by
  refine Act.readOnly_get.bind fun k => ?_
  cases k.current with
  | none => exact Act.readOnly_halt _
  | some c => exact Act.readOnly_pure _

section

variable {k k' : Kernel} {c t : Slot} {sp : Mm.Space} {l : List Nat}

/-- What a `fork` that makes a child leaves on the kernel stack of the child. -/
structure Laid (k k' : Kernel) (c : Slot) (v : Nat) : Prop where
  page : Mm.IsPage v
  code : load32 k'.mm.mem (Mm.v2p v + 4008) = k.doNothing
  ret : load32 k'.mm.mem (Mm.v2p v + 4012) = k.trapRet
  eax : load32 k'.mm.mem (Mm.v2p v + 4060) = 0
  frame : ∀ x, x < 80 → x < 44 ∨ 48 ≤ x →
    k'.mm.mem (Mm.v2p v + 4016 + x) = k.mm.mem (Mm.v2p (k.tasks c).tf + x)

/-- The result of a system call in a frame. -/
theorem frameRegs_store_eax {m : Memory} {tf w : Nat} (hlo : 0x80000000 ≤ tf)
    (hhi : tf + 80 ≤ 0x100000000) (hw : w < 4294967296) :
    frameRegs (store32 m (Mm.v2p (tf + Syscall.eaxAt)) w) tf =
      Function.update (frameRegs m tf) .eax w := by
  funext g
  by_cases hg : g = .eax
  · rw [hg, Function.update_self]
    exact (load32_store32_self _ _ _).trans (u32_eq_self hw)
  · have hslot : slot g < 20 ∧ slot g ≠ 11 := by revert hg; cases g <;> decide
    rw [Function.update_of_ne hg, frameRegs, frameRegs, Syscall.eaxAt,
      direct_v2p.load_store (by omega) (by omega) (by omega) (by omega) (by omega)]

/-- The registers in the frame of the child. -/
theorem Laid.regs {v : Nat} (h : Laid k k' c v) (hlo : 0x80000000 ≤ (k.tasks c).tf)
    (hhi : (k.tasks c).tf + 80 ≤ 0x100000000) :
    frameRegs k'.mm.mem (v + 4016) = Function.update (saved k c) .eax 0 := by
  funext g
  have hv := h.page.isFrame.le
  by_cases hg : g = .eax
  · rw [hg, Function.update_self, frameRegs, Nat.add_assoc, v2p_add h.page (by decide),
      show 4016 + 4 * slot .eax = 4060 from rfl, h.eax]
    rfl
  · have hslot : slot g < 20 ∧ slot g ≠ 11 := by revert hg; cases g <;> decide
    have htf := direct_v2p.eq (k.tasks c).tf (by omega) (by omega)
    have htf' := direct_v2p.eq ((k.tasks c).tf + 4 * slot g) (by omega) (by omega)
    rw [Function.update_of_ne hg, frameRegs, saved, frameRegs, Nat.add_assoc,
      v2p_add h.page (by omega)]
    refine congrArg (narrow g) (load32_shift (by omega) (by omega) fun i hi => ?_)
    have hbyte := h.frame (4 * slot g + i) (by omega) (by omega)
    rw [show Mm.v2p (k.tasks c).tf + (4 * slot g + i) = Mm.v2p ((k.tasks c).tf + 4 * slot g) + i by
      omega] at hbyte
    rw [← hbyte, show Mm.v2p v + (4016 + 4 * slot g) + i = Mm.v2p v + 4016 + (4 * slot g + i) by
      omega]

/-- Where `fork` may put a kernel stack: the free pages are in the part of the memory that the
kernel maps, and below its last page. -/
structure Mapped (k : Kernel) : Prop where
  start : Mm.kernbase ≤ k.mm.memStart
  size : k.mm.memsz * 1024 < 2147479552

/-- The kernel stacks of the tasks `live` are pages of their own. -/
structure Reserved (live : Finset Slot) (k : Kernel) (sp : Mm.Space) (l : List Nat) : Prop where
  used : ∀ u ∈ live, k.state u ≠ .unused
  spare : ∀ u ∈ live, Spare sp k.mm (k.tasks u).kstack
  free : ∀ u ∈ live, (k.tasks u).kstack ∉ l

theorem Reserved.off {live : Finset Slot} {u : Slot} (h : Reserved live k sp l)
    (hpool : Mm.Pool k.mm l) (hu : u ∈ live) : ¬ Mm.framesOf l (Mm.v2p (k.tasks u).kstack) := by
  rintro ⟨v, hv, he⟩
  exact h.free u hu (Mm.v2p_inj (h.spare u hu).page.2.2 (hpool.page v hv).2.2 he ▸ hv)

/-- The state that the system call leaves when `fork` has left `k'` and returns `n`. -/
def returned (k' : Kernel) (c : Slot) (n : Int) : Kernel :=
  withMem k' (store32 k'.mm.mem (Mm.v2p ((k'.tasks c).tf + Syscall.eaxAt)) (n % 4294967296).toNat)

variable {L : Labels} {live : Finset Slot} {n : Int}

/-- The kernel stack of a task that was there before. -/
theorem Reserved.kept {u : Slot} {a : Nat} (hres : Reserved live k sp l) (hpool : Mm.Pool k.mm l)
    (hu : u ∈ live) (hagree : Mm.AgreeOff (Mm.framesOf l) k.mm.mem k'.mm.mem)
    (ha : (k.tasks u).kstack ≤ a) (ha' : a < (k.tasks u).kstack + 4096) :
    k'.mm.mem (Mm.v2p a) = k.mm.mem (Mm.v2p a) := by
  have hpage := (hres.spare u hu).page
  obtain ⟨x, rfl⟩ := Nat.exists_eq_add_of_le ha
  rw [v2p_add hpage (by omega)]
  exact hagree.aligned (fun _ => hpool.isFrame) hpage.isFrame.aligned (hres.off hpool hu) (by omega)

/-- The result goes to one word of the frame. -/
theorem returned_mem {a : Nat} (hlo : 0x80000000 ≤ (k'.tasks c).tf)
    (hhi : (k'.tasks c).tf + 80 ≤ 0x100000000) (ha : 0x80000000 ≤ a) (ha' : a < 0x100000000)
    (hout : a < (k'.tasks c).tf + 44 ∨ (k'.tasks c).tf + 48 ≤ a) :
    (returned k' c n).mm.mem (Mm.v2p a) = k'.mm.mem (Mm.v2p a) := by
  simp only [returned, withMem, Syscall.eaxAt]
  exact direct_v2p.store (by omega) (by omega) ha ha' (by omega)

/-- A new task with a kernel stack of its own. -/
theorem Placed.grow {v : Nat} (hp : Placed live k) (htask : ∀ u ∈ live, k'.tasks u = k.tasks u)
    (hv : v % 4096 = 0) (hlo : 0x80000000 ≤ v) (hhi : v + 4096 < 4294967296)
    (hne : ∀ u ∈ live, (k.tasks u).kstack ≠ v) (hkt : (k'.tasks t).kstack = v)
    (htf : (k'.tasks t).tf = v + 4016) (hctx : (k'.tasks t).context = v + 3992) :
    Placed (insert t live) k' := by
  have hcases : ∀ u ∈ insert t live, u = t ∨ (u ∈ live ∧ k'.tasks u = k.tasks u) := by
    intro u hu
    rcases Finset.mem_insert.1 hu with hu | hu
    · exact Or.inl hu
    · exact Or.inr ⟨hu, htask u hu⟩
  refine ⟨⟨fun u hu => ?_, fun u hu => ?_, fun u hu => ?_, fun u hu w hw huw => ?_⟩,
    fun u hu => ?_, fun u hu => ?_⟩
  · rcases hcases u hu with rfl | ⟨hl, he⟩
    · rwa [hkt]
    · rw [he]
      exact hp.aligned u hl
  · rcases hcases u hu with rfl | ⟨hl, he⟩
    · rw [hkt]
      exact ⟨hlo, hhi.le⟩
    · rw [he]
      exact hp.direct u hl
  · rcases hcases u hu with rfl | ⟨hl, he⟩
    · rw [hkt, hctx]
      rfl
    · rw [he]
      exact hp.context u hl
  · rcases hcases u hu with rfl | ⟨hl, he⟩ <;> rcases hcases w hw with rfl | ⟨hl', he'⟩
    · exact absurd rfl huw
    · rw [he', hkt]
      exact (hne w hl').symm
    · rw [he, hkt]
      exact hne u hl
    · rw [he, he']
      exact hp.apart u hl w hl' huw
  · rcases hcases u hu with rfl | ⟨hl, he⟩
    · rw [hkt, htf]
    · rw [he]
      exact hp.tf u hl
  · rcases hcases u hu with rfl | ⟨hl, he⟩
    · rwa [hkt]
    · rw [he]
      exact hp.below u hl

/-- An interrupt writes to the kernel stack of its own task, which is a page of its own. -/
theorem Reserved.enter {s : Cpu} {m : Memory} (h : Inv L s) (him : Imaged s.k c sp l)
    (hres : Reserved s.live s.k sp l) (hc : c ∈ s.live)
    (hm : ∀ p, p + 0x80000000 < (s.k.tasks c).tf - 8 ∨ (s.k.tasks c).tf + 80 ≤ p + 0x80000000 →
      m p = s.k.mm.mem p) :
    Imaged (withMem s.k m) c sp l ∧ Reserved s.live (withMem s.k m) sp l ∧
      ∀ j, sp.entry m j = sp.entry s.k.mm.mem j := by
  obtain ⟨hlo, hhi, -⟩ := h.places.bounds hc
  have htf := h.places.tf c hc
  have hdirect := direct_v2p.eq (s.k.tasks c).kstack (by omega) (by omega)
  have hspare := hres.spare c hc
  have hagree : Mm.AgreeOff (fun p => p = Mm.v2p (s.k.tasks c).kstack) s.k.mm.mem m := by
    intro a ha
    have hout := ha _ rfl
    unfold Mm.InPage at hout
    exact hm a (by omega)
  have hframe : ∀ p, p = Mm.v2p (s.k.tasks c).kstack → Mm.IsFrame p :=
    fun p hp => hp ▸ hspare.page.isFrame
  obtain ⟨-, hentry⟩ := him.space.agree hagree hframe fun p hp hs => hspare.off (hp ▸ hs)
  have hpool : Mm.Pool (withMem s.k m).mm l :=
    him.pool.agree rfl hagree hframe fun v hv he => hres.off him.pool hc ⟨v, hv, he.symm⟩
  refine ⟨?_, ⟨hres.used, fun u hu => ?_, hres.free⟩, hentry⟩
  · exact him.agree him.current (hres.used c hc) rfl rfl ⟨rfl, rfl, rfl⟩ hagree
      (fun p hp => ⟨_, hspare, hp⟩) hpool fun v hv => him.spare hv
  · have hu' := hres.spare u hu
    refine ⟨hu'.page, hu'.range, hu'.off, fun j hj hp => ?_⟩
    rw [show (withMem s.k m).mm.mem = m from rfl, hentry] at hp ⊢
    exact hu'.free j hj hp

end

/-- One task in user mode, with a page of program and a page of stack, and eight free pages. -/
def single : Cpu where
  k :=
    { smallKernel 0 with
      tasks := fun t => if t = 0 then
          { (smallKernel 0).tasks 0 with context := 0x80155000 + 3992 }
        else Task.zero
      esp0 := 0x80156000, trapRet := 0x80101300, doNothing := 0x80101400 }
  file := startFile
  live := {0}

end Preempt

end Chunix
