import Chunix.Exec.Frame
import Chunix.Heap.Order

/-!
# An `exec` that fails

`exec` jumps to the label `fail` from four places, and `pgdir` is set at the last two
of them only. When the file cannot be read or is no ELF file, `free_vm` is called with
what an earlier call has left in that place of the stack. When `mapkvm` runs out of
pages, those it has taken are lost.
-/

namespace Chunix

namespace Exec

open Machine Kernel Syscall

/-- What a failed `exec` has to leave as it was: the directory and the memory of the task,
its trap frame, its size, the chunks of its heap and the set of free pages. -/
structure Atomic (c : Slot) (k k' : Kernel) : Prop where
  pgdir : (k'.tasks c).pgdir = (k.tasks c).pgdir
  memory : ∀ va, va < Mm.kernbase →
    (Mm.vload8 va k'.mm).toOption.map Prod.fst = (Mm.vload8 va k.mm).toOption.map Prod.fst
  trap : ∀ i, i < 80 →
    k'.mm.mem (Mm.v2p ((k'.tasks c).tf + i)) = k.mm.mem (Mm.v2p ((k.tasks c).tf + i))
  sz : (k'.tasks c).sz = (k.tasks c).sz
  heap : (Heap.taskView k').snapshot = (Heap.taskView k).snapshot
  pages : ∀ l, Mm.Pool k.mm l → ∃ l', Mm.Pool k'.mm l' ∧ ∀ v, v ∈ l' ↔ v ∈ l

theorem Atomic.refl (c : Slot) (k : Kernel) : Atomic c k k :=
  ⟨rfl, fun _ _ => rfl, fun _ _ => rfl, rfl, rfl, fun l h => ⟨l, h, fun _ => Iff.rfl⟩⟩

/-- The file cannot be read, is too short or is no ELF file. -/
def Refused (loc : Locals) (path : Nat) (w : World) : Prop :=
  ∃ r w', readHeader loc path w = .ok (r, w') ∧
    (r.1 < Elf.headerSize ∨ (Elf.header r.2 0).magic ≠ Elf.magic)

section

variable {loc : Locals} {path : Nat} {argv : List Nat} {w w' : World} {o : Outcome}

theorem readOnly_showArgs (argv : List Nat) : Act.ReadOnly (showArgs argv) := by
  induction argv with
  | nil => exact Act.readOnly_pure _
  | cons p argv ih => exact (readOnly_chars _ _).bind fun _ => ih

/-- The ways through the start of `exec`. -/
theorem exec_cases (h : exec loc path argv w = .ok (o, w')) :
    ∃ r w₁, readHeader loc path w = .ok (r, w₁) ∧
      ((Refused loc path w ∧ Syscall.onMm (fail loc.pgdir) w₁ = .ok (o, w')) ∨
      (¬ Refused loc path w ∧ ∃ pgdir w₂, Syscall.onMm Mm.mapkvm w₁ = .ok (pgdir, w₂) ∧
        ((pgdir = 0 ∧ Syscall.onMm (fail pgdir) w₂ = .ok (o, w')) ∨
        (pgdir ≠ 0 ∧ load loc path (Elf.header r.2 0) pgdir argv w₂ = .ok (o, w'))))) := by
  obtain ⟨_, _, hpath, h⟩ := Act.bind_eq_ok.1 h
  cases readOnly_onMm (readOnly_chars _ path) _ _ _ hpath
  obtain ⟨_, _, hargs, h⟩ := Act.bind_eq_ok.1 h
  cases readOnly_onMm (readOnly_showArgs argv) _ _ _ hargs
  obtain ⟨r, w₁, hr, h⟩ := Act.bind_eq_ok.1 h
  refine ⟨r, w₁, hr, ?_⟩
  rcases Act.ite_eq_ok.1 h with ⟨hlen, h⟩ | ⟨hlen, h⟩
  · exact Or.inl ⟨⟨r, w₁, hr, Or.inl hlen⟩, h⟩
  rcases Act.ite_eq_ok.1 h with ⟨hmagic, h⟩ | ⟨hmagic, h⟩
  · exact Or.inl ⟨⟨r, w₁, hr, Or.inr hmagic⟩, h⟩
  refine Or.inr ⟨?_, ?_⟩
  · rintro ⟨r', w₁', hr', hbad⟩
    cases hr.symm.trans hr'
    exact hbad.elim hlen hmagic
  obtain ⟨pgdir, w₂, hmap, h⟩ := Act.bind_eq_ok.1 h
  exact ⟨pgdir, w₂, hmap, Act.ite_eq_ok.1 h⟩

/-- `exec` behind the label `fail`, without a directory or with one to free. -/
theorem fail_cases {pgdir : Nat} (h : Syscall.onMm (fail pgdir) w = .ok (o, w')) :
    o.ret = -1 ∧ ((pgdir = 0 ∧ w'.kernel = w.kernel) ∨
      (pgdir ≠ 0 ∧ Mm.freeVm pgdir w.kernel.mm = .ok ((), w'.kernel.mm))) := by
  obtain ⟨m, hm, rfl⟩ := Act.zoom_eq_ok.1 h
  refine ⟨fail_ret hm, ?_⟩
  rcases Act.ite_eq_ok.1 hm with ⟨hne, hm⟩ | ⟨hz, hm⟩
  · obtain ⟨_, m₁, hfree, hret⟩ := Act.bind_eq_ok.1 hm
    obtain ⟨-, rfl⟩ := Act.pure_eq_ok.1 hret
    exact Or.inr ⟨hne, hfree⟩
  · obtain ⟨-, rfl⟩ := Act.pure_eq_ok.1 hm
    exact Or.inl ⟨not_not.1 hz, rfl⟩

end

end Exec

end Chunix
