import Chunix.Exec.Place

/-!
# What the new program finds in its memory

The loop over the program headers copies for each segment the page that it begins in. That
page is part of the new program until the end of `exec`, whatever comes between: the block of
the file is given back, the arguments are put on the stack, two more pages are copied, and
the tables of the caller are freed.
-/

namespace Chunix

namespace Exec

open Machine Kernel

/-- The trap frame of the task `c` is in the page frame `q`, which is used for nothing
else. -/
structure KernelStack (k : Kernel) (c : Slot) (x : Stage) (q : Nat) : Prop
    extends Trapped k c x q where
  caller : ¬ x.s.Has q
  user : ∀ n, x.U n → x.s.frame x.m.mem n ≠ q

section

variable {own : Nat → Prop} {k k' : Kernel} {c : Slot} {x z : Stage} {fp size q : Nat}
  {hdr : Elf.Header} {argv : List Nat} {o : Outcome}

/-- The kernel stack is still used for nothing else when the segments have been loaded. -/
theorem KernelStack.loaded {ps : List Elf.ProgHeader} (h : KernelStack k c x q)
    (hloaded : Loaded fp ps x z) (htask : (k'.tasks c).tf = (k.tasks c).tf) :
    Trapped k' c z q where
  trap := htask ▸ h.trap
  isFrame := h.isFrame
  program := fun hp => (hloaded.fresh q hp).elim h.program h.list
  list := fun hl => (hloaded.list q hl).elim h.list fun hor =>
    hor.elim h.caller fun ⟨n, hn, hf⟩ => h.user n hn hf

/-- A byte of a copied page, as the new program reads it. -/
theorem Running.vload8_copy {y : Stage} {m : Mm} {a : Nat} (ha : a < 4294967296)
    (hC : y.C (a / 4096)) (hcr3 : m.cr3 = y.d.dir) (hat : y.d.At m.mem)
    (hentry : ∀ j, y.d.entry m.mem j = y.d.entry y.m.mem j)
    (hmem : ∀ b, Mm.InPage (y.d.frame y.m.mem (a / 4096)) b → m.mem b = y.m.mem b) :
    Mm.vload8 a m = .ok (y.image a, m) := by
  have hwalk : Mm.walk m.mem m.cr3 (u32 a) = some (y.d.addr y.m.mem a) := by
    rw [u32_eq_self ha, hcr3, hat.walk_eq ha, hentry, if_pos (y.loading.copied _ hC).1]
    rfl
  rw [Mm.vload8_of_walk hwalk, hmem _ (Mm.inPage_addr y.d y.m.mem a)]
  rfl

/-- Every segment is in the memory of the new program as far as the page goes that it begins
in: the bytes of the file, and zeros behind them. -/
theorem exec_image (h : HasFile own k c x fp size) (hfile : WellFormed x.view fp size hdr)
    (hstack : KernelStack k c x q)
    (hpages : Elf.cost (Elf.segments x.view hdr.phnum (fp + hdr.phoff)) ≤ x.l.length)
    (hrun : place (k.tasks c).pgdir (Mm.p2v x.d.dir) fp hdr argv k = .ok (o, k'))
    (hret : o.ret = 0) (hfit : Fits o.strings) :
    ∀ p ∈ Elf.segments x.view hdr.phnum (fp + hdr.phoff), ∀ j, j < p.memsize →
      (p.va + j) / 4096 = p.va / 4096 →
      Mm.vload8 (p.va + j) k'.mm =
        .ok (if j < p.filesize then x.view (fp + p.offset + j) else 0, k'.mm) := by
  intro p hp j hj hpage
  have hsound := hfile.segments p hp
  have huser := hsound.user
  have hle := hsound.le
  rw [place] at hrun
  obtain ⟨range, k₁, hloop, hrun⟩ := Act.bind_eq_ok.1 hrun
  obtain ⟨_, k₂, hfree, hrun⟩ := Act.bind_eq_ok.1 hrun
  obtain ⟨own', z, hz, hloaded, htask⟩ := h.loaded hfile hloop hfree
  obtain ⟨hC, himage⟩ := hloaded.image hpages p hp (p.va + j) (by omega) (by omega) hpage
  have htf : (k₂.tasks c).tf = (k.tasks c).tf := by rw [htask]
  have htrap := hstack.loaded hloaded htf
  rw [← hloaded.program] at hrun
  obtain ⟨y, hlater, hcr3, hat, hentry, -, hmem⟩ := hz.takeOver htrap hrun hret hfit
  have hC' := hlater.copies _ hC
  obtain ⟨-, hframe, hoff⟩ := y.loading.copied _ hC'
  have hne : y.d.frame y.m.mem ((p.va + j) / 4096) ≠ q := fun he =>
    (hlater.fresh q (Or.inr ⟨_, hC', he⟩)).elim htrap.program htrap.list
  rw [Running.vload8_copy (by omega) hC' hcr3 hat hentry fun b hb => hmem _ b hframe hoff.1 hne hb,
    hlater.image _ hC, himage, Elf.ProgHeader.place]
  by_cases hlt : j < p.filesize
  · rw [if_pos (by omega), if_pos hlt, Nat.add_sub_cancel_left]
  · rw [if_neg (by omega), if_pos (by omega), if_neg hlt]

end

theorem sixBytes_stack (va : Nat) :
    KernelStack (fileKernel (sixBytes va)) 0 (fileStage (sixBytes va)) 0x107000 where
  trap := ⟨0, rfl, by decide⟩
  isFrame := ⟨by decide, by decide, by decide⟩
  program := by
    rintro (hp | ⟨n, hn, -⟩)
    · have := emptySpace_has hp
      omega
    · exact hn
  list := fun hl => by
    have := freePages_frame hl
    omega
  caller := fun hs => by
    have := callerSpace_has hs
    omega
  user := by
    intro n hn he
    change callerSpace.frame (words (fileWords (sixBytes va))) n = _ at he
    rw [file_frame hn] at he
    split_ifs at he <;> omega

theorem sixBytes_cost : Elf.cost [sixBytes 0x1000] ≤ freePages.length := by decide

/-- The six bytes of a segment at `0x1000`, of which the file has four. -/
theorem fileKernel_image :
    ∃ o k', place 0x80101000 0x80106000 0xD000001C oneSegment [0x7FFFF000]
      (fileKernel (sixBytes 0x1000)) = .ok (o, k') ∧
      Mm.vload8 0x1003 k'.mm = .ok (0x44, k'.mm) ∧ Mm.vload8 0x1005 k'.mm = .ok (0, k'.mm) := by
  have hfit : Fits [[97, 0]] := by
    unfold Fits
    decide
  obtain ⟨k', hk'⟩ := sixBytes_returns [0x7FFFF000] (by decide +kernel) hfit
  have hseg := @sixBytes_segments 0x1000 (by decide)
  have hcost := sixBytes_cost
  rw [← hseg] at hcost
  have himage := exec_image (file_hasFile (sixBytes 0x1000)) (sixBytes_wellFormed (by decide))
    (sixBytes_stack 0x1000) hcost hk' rfl hfit (sixBytes 0x1000) (by rw [hseg]; simp)
  have hbyte : (fileStage (sixBytes 0x1000)).view (0xD000001C + 32 + 3) = 0x44 := by
    rw [file_view _ (by decide)]
    decide +kernel
  refine ⟨_, k', hk', (himage 3 (by decide) (by decide)).trans ?_, himage 5 (by decide) (by decide)⟩
  rw [if_pos (by decide)]
  exact congrArg (fun b => Except.ok (b, k'.mm)) hbyte

section

variable {own : Nat → Prop} {k k' : Kernel} {c : Slot} {x z : Stage} {fp size q : Nat}
  {hdr : Elf.Header} {argv : List Nat} {o : Outcome}

end

end Exec

end Chunix
