import Chunix.Fs.Sequential
import Chunix.Mm.View
import Chunix.Trap.Boundary

/-!
# An open file as a stream of bytes

`sfs_read` cuts a request into a part of a first block, whole blocks and a part of a
last block. Over a task, an open descriptor of a file and a disk that stay as they
are, all that a call changes is the memory of the task and the position in the file:
the bytes of the file from the position on come to the buffer, as many as are asked
for or as are left.
-/

namespace Chunix

namespace Syscall

open Machine Act Fs Sfs

/-- The `n` bytes from the address `a` on. -/
def bytesAt (v : Memory) (a n : Nat) : List UInt8 := (List.range n).map fun i => v (a + i)

section

variable {v : Memory} {a n k : Nat}

theorem bytesAt_add : bytesAt v a (n + k) = bytesAt v a n ++ bytesAt v (a + n) k := by
  simp only [bytesAt, List.range_add, List.map_append, List.map_map]
  congr 1
  refine List.map_congr_left fun i _ => ?_
  simp only [Function.comp_apply, Nat.add_assoc]

end

/-- What stays as it is while a file is read: the task and its address space, the pages of
it that matter, the descriptor with its file, and the disk. -/
structure Job where
  slot : Slot
  space : Mm.Space
  pages : Nat → Prop
  fd : Fin 16
  desc : Fin 64
  inode : Fin 32
  super : Super
  disk : Disk
  len : Nat
  start : Nat

namespace Job

/-- The block of the disk with the piece `k` of the file. -/
def block (j : Job) (k : Nat) : Nat := u32 (u32 (j.start + k) + j.super.reservedBlk)

/-- The byte `i` of the file. -/
def byte (j : Job) (i : Nat) : UInt8 := extend (j.disk.sector (j.block (i / 512))) zeros (i % 512)

/-- The contents of the file. -/
def contents (j : Job) : List UInt8 := bytesAt j.byte 0 j.len

/-- The states in which the file is read. -/
structure Ok (j : Job) (w : World) : Prop where
  current : w.kernel.current = some j.slot
  sees : Mm.Sees j.space j.pages w.kernel.mm
  cache : (confined sfsDev).ok w.files.cache
  disk : (confined sfsDev).view w.files.cache = j.disk
  super : w.files.super = j.super
  ofile : w.files.ofile j.slot j.fd = some j.desc
  desc : (w.files.fdtable j.desc).inode = some j.inode
  len : Sfs.len (w.files.ibuf j.inode).sindex = j.len
  start : blkStart (w.files.ibuf j.inode).sindex = j.start

/-- The memory of the task and the position in the file. -/
noncomputable def world (j : Job) : Abstraction World (Memory × Nat) where
  ok := j.Ok
  view w := ((Mm.seen j.space j.pages).view w.kernel.mm, (w.files.fdtable j.desc).pos)

variable {j : Job} {α : Type} {v v' : Memory} {p : Nat}

theorem total_onMm {x : Act Mm α} {a : α} (h : Gives (Mm.seen j.space j.pages) v x a v') :
    Gives j.world (v, p) (onMm x) a (v', p) := by
  rintro w (hw : j.Ok w) hview
  obtain ⟨hv, hp⟩ := Prod.mk.inj hview
  obtain ⟨b, m, hx, hok, rfl, hv'⟩ := h w.kernel.mm hw.sees hv
  exact ⟨b, _, onMm_of_ok hx, { hw with sees := hok }, rfl, Prod.ext hv' hp⟩

theorem gives_onCache {x : Act Cache α} {a : α} (h : Gives (confined sfsDev) j.disk x a j.disk) :
    Gives j.world (v, p) (onFiles (onCache x)) a (v, p) := by
  rintro w (hw : j.Ok w) hview
  obtain ⟨b, c, hx, hok, rfl, hd⟩ := h w.files.cache hw.cache hw.disk
  refine ⟨b, _, zoom_eq_ok.2 ⟨_, zoom_eq_ok.2 ⟨c, hx, rfl⟩, rfl⟩, ?_, rfl, hview⟩
  exact { hw with cache := hok, disk := hd }

theorem gives_gets {g : World → α} {a : α} (h : ∀ w, j.Ok w → (w.files.fdtable j.desc).pos = p →
    g w = a) : Gives j.world (v, p) (Act.gets g) a (v, p) := by
  rintro w (hw : j.Ok w) hview
  obtain ⟨-, hp⟩ := Prod.mk.inj hview
  exact ⟨a, w, gets_eq_ok.2 ⟨h w hw hp, rfl⟩, hw, rfl, hview⟩

theorem gives_getCurrent : Gives j.world (v, p) getCurrent j.slot (v, p) := by
  rintro w (hw : j.Ok w) hview
  exact ⟨j.slot, w, getCurrent_of_eq hw.current, hw, rfl, hview⟩

/-- The descriptor is found. -/
theorem desc_eq {w : World} (hw : j.Ok w) :
    w.desc j.slot j.fd = some ⟨j.len, j.start, (w.files.fdtable j.desc).pos⟩ := by
  have hfd : (⟨((j.fd : Nat) : Int).toNat, by omega⟩ : Fin 16) = j.fd := Fin.ext (by simp)
  have hlt : 0 ≤ ((j.fd : Nat) : Int) ∧ ((j.fd : Nat) : Int) < 16 := by omega
  simp only [World.desc, dif_pos hlt, hfd, hw.ofile, hw.desc, hw.len, hw.start]

/-- The step of the position. -/
theorem gives_addPos (l : Int) :
    Gives j.world (v, p) (addPos j.slot j.fd l) () (v, u32 (p + word l)) := by
  rintro w (hw : j.Ok w) hview
  obtain ⟨hv, hp⟩ := Prod.mk.inj hview
  have hfd : (⟨((j.fd : Nat) : Int).toNat, by omega⟩ : Fin 16) = j.fd := Fin.ext (by simp)
  have hlt : 0 ≤ ((j.fd : Nat) : Int) ∧ ((j.fd : Nat) : Int) < 16 := by omega
  refine ⟨(), _, modify_eq_ok.2 rfl, ?_, rfl, ?_⟩
  · simp only [dif_pos hlt, hfd, hw.ofile]
    exact { hw with desc := by simp [hw.desc] }
  · simp only [dif_pos hlt, hfd, hw.ofile]
    refine Prod.ext hv ?_
    simp only [world] at hp ⊢
    simp [hp]

end Job

/-- The memory with `n` bytes of `g` at the address `a`. -/
def putBytes (v : Memory) (a n : Nat) (g : Nat → UInt8) : Memory := fun x =>
  if a ≤ x ∧ x < a + n then g (x - a) else v x

section

variable {v : Memory} {a n k : Nat} {g g' : Nat → UInt8}

theorem putBytes_zero : putBytes v a 0 g = v := by
  funext x
  exact if_neg (by omega)

theorem putBytes_congr (h : ∀ i, i < n → g i = g' i) : putBytes v a n g = putBytes v a n g' := by
  funext x
  unfold putBytes
  split_ifs with hx
  · exact h _ (by omega)
  · rfl

theorem putBytes_add (h : ∀ i, i < k → g' i = g (n + i)) :
    putBytes (putBytes v a n g) (a + n) k g' = putBytes v a (n + k) g := by
  funext x
  unfold putBytes
  by_cases hx : a + n ≤ x ∧ x < a + n + k
  · rw [if_pos hx, if_pos (by omega), h _ (by omega)]
    congr 1
    omega
  · rw [if_neg hx]
    by_cases hx' : a ≤ x ∧ x < a + n
    · rw [if_pos hx', if_pos (by omega)]
    · rw [if_neg hx', if_neg (by omega)]

theorem putBytes_succ (v : Memory) (a n : Nat) (g : Nat → UInt8) :
    putBytes (Function.update v a (g 0)) (a + 1) n (fun i => g (i + 1)) = putBytes v a (n + 1) g := by
  have hone : Function.update v a (g 0) = putBytes v a 1 g := by
    funext x
    unfold putBytes
    by_cases hx : x = a
    · subst hx
      rw [Function.update_self, if_pos (by omega), Nat.sub_self]
    · rw [Function.update_of_ne hx, if_neg (by omega)]
  rw [hone, Nat.add_comm n 1]
  exact putBytes_add fun i _ => by rw [Nat.add_comm]

end

namespace Job

variable {j : Job} {v : Memory} {p : Nat}

/-- Bytes that are copied to the user. -/
theorem gives_copy {va n i : Nat} {f : Nat → UInt8}
    (hU : ∀ x, va + i ≤ x → x < va + i + n → j.pages (x / 4096)) (hlt : va + i + n ≤ 4294967296) :
    Gives j.world (v, p) (copy Mm.vstore8 va f n i) ()
      (putBytes v (va + i) n (fun x => f (i + x)), p) := by
  induction n generalizing i v with
  | zero =>
      rw [putBytes_zero]
      exact gives_pure _
  | succ n ih =>
      rw [copy, ← putBytes_succ]
      refine (total_onMm (Mm.gives_vstore8 (by omega) (hU _ le_rfl (by omega)) _)).bind ?_
      have hrest := @ih (Function.update v (va + i) (f i)) (i + 1)
        (fun x h₁ h₂ => hU x (by omega) (by omega)) (by omega)
      simp only [Nat.add_zero]
      refine hrest.mono ?_
      rintro u w ⟨-, rfl⟩
      refine ⟨trivial, ?_⟩
      rw [Nat.add_assoc va]
      congr 2
      funext x
      congr 1
      omega

/-- The part of a block that is copied, as bytes of the file. -/
theorem byte_of_block {k i : Nat} (hi : i < 512) :
    extend (j.disk.sector (j.block k)) zeros i = j.byte (512 * k + i) := by
  rw [byte, show (512 * k + i) / 512 = k by omega, show (512 * k + i) % 512 = i by omega]

/-- A block of the file. -/
theorem gives_block {k : Nat} (hk : j.block k < j.disk.size) :
    Gives j.world (v, p) (onFiles (onCache (readDataBlock j.super (j.start + k))))
      (j.disk.sector (j.block k)) (v, p) :=
  gives_onCache (gives_readSector_confined (by decide) rfl hk)

/-- The loop of `sfs_read` behind the first block: `n` more bytes from a multiple of 512
on. -/
theorem gives_readLoop {k buf n : Nat} {count : Int} (hp : 0 < n → p = 512 * k)
    (hblk : ∀ i, 512 * i < p + n → j.block i < j.disk.size)
    (hU : ∀ x, buf ≤ x → x < buf + n → j.pages (x / 4096)) (hlt : buf + n ≤ 4294967296)
    (hpos : p + n < 4294967296) :
    Gives j.world (v, p) (readLoop Mm.vstore8 j.slot j.fd (j.start + k) n buf count)
      (count + n) (putBytes v buf n (fun i => j.byte (p + i)), p + n) := by
  induction n using Nat.strong_induction_on generalizing v p k buf count with
  | h n ih =>
      rw [readLoop]
      by_cases hn : 0 < n
      · obtain ⟨l, hl⟩ : ∃ l : Nat, l = min 512 n := ⟨_, rfl⟩
        have hmin : min 512 (n : Int) = (l : Int) := by omega
        have hsub : (n : Int) - l = ((n - l : Nat) : Int) := by omega
        have hword : u32 (p + word (l : Int)) = p + l := by
          unfold word
          rw [u32_eq_self (by omega)]
          omega
        have hfirst : putBytes v (buf + 0) l (fun x =>
            extend (j.disk.sector (j.block k)) zeros (0 + x)) =
            putBytes v buf l (fun i => j.byte (p + i)) :=
          putBytes_congr fun i hi => by rw [Nat.zero_add, byte_of_block (by omega), hp hn]
        have hrest := @ih (n - l) (by omega) (putBytes v buf l fun i => j.byte (p + i)) (p + l)
          (k + 1) (buf + l) (count + l) (fun _ => by have := hp hn; omega)
          (fun i hi => hblk i (by omega)) (fun x h₁ h₂ => hU x (by omega) (by omega)) (by omega)
          (by omega)
        rw [if_pos (by omega)]
        refine (gives_gets fun w hw _ => hw.super).bind
          ((gives_block (hblk k (by have := hp hn; omega))).bind ?_)
        rw [hmin]
        dsimp only
        rw [Int.toNat_natCast, hsub]
        refine (gives_copy (fun x h₁ h₂ => hU x (by omega) (by omega)) (by omega)).bind ?_
        rw [hfirst]
        refine (gives_addPos _).bind ?_
        rw [hword]
        refine hrest.mono ?_
        rintro r w ⟨rfl, rfl⟩
        refine ⟨by omega, Prod.ext ?_ (by dsimp only; omega)⟩
        rw [putBytes_add (g := fun i => j.byte (p + i)) fun i _ => by rw [Nat.add_assoc],
          show l + (n - l) = n by omega]
      · have hzero : n = 0 := by omega
        subst hzero
        rw [if_neg (by simp), putBytes_zero]
        exact (gives_pure _).mono fun a w h => ⟨by rw [h.1]; simp, by rw [h.2]; simp⟩

/-- The number of bytes that a request for `n` gets. -/
def served (j : Job) (p n : Nat) : Nat := min n (j.len - p)

theorem left_eq {n : Nat} (hp : p ≤ j.len) (hlen : j.len < 4294967296) (hn : n < 2147483648) :
    (Desc.mk j.len j.start p).left n = j.served p n := by
  unfold Desc.left served word64
  dsimp only
  rw [u32_eq_self (by omega)]
  omega

/-- `sfs_read` from any position that is not behind the end. -/
theorem gives_sfsRead {buf n : Nat} (hp : p ≤ j.len) (hlen : j.len < 4294967296)
    (hn : n < 2147483648) (hblk : ∀ i, 512 * i ≤ j.len → j.block i < j.disk.size)
    (hU : ∀ x, buf ≤ x → x < buf + j.served p n → j.pages (x / 4096))
    (hlt : buf + j.served p n ≤ 4294967296) :
    Gives j.world (v, p) (sfsRead Mm.vstore8 j.fd buf n) (j.served p n)
      (putBytes v buf (j.served p n) (fun i => j.byte (p + i)), p + j.served p n) := by
  have hserved : j.served p n ≤ j.len - p := Nat.min_le_right _ _
  have hasked : j.served p n ≤ n := Nat.min_le_left _ _
  have hleft := left_eq (j := j) hp hlen hn
  generalize j.served p n = cnt at *
  have hint : int32 cnt = (cnt : Int) := if_pos (by omega)
  have hfd : ¬ (16 : Int) ≤ (j.fd : Nat) := by
    have := j.fd.isLt
    omega
  obtain ⟨l, hl⟩ : ∃ l : Nat, l = min cnt (512 - p % 512) := ⟨_, rfl⟩
  have hmin : min (cnt : Int) (512 - ((p % 512 : Nat) : Int)) = (l : Int) := by omega
  have hsub : (cnt : Int) - l = ((cnt - l : Nat) : Int) := by omega
  have hword : word (l : Int) = l := by
    unfold word
    omega
  have hfirst : putBytes v (buf + 0) l (fun x =>
      extend (j.disk.sector (j.block (p / 512))) zeros (p % 512 + (0 + x))) =
      putBytes v buf l (fun i => j.byte (p + i)) := by
    refine putBytes_congr fun i hi => ?_
    rw [Nat.zero_add, byte_of_block (by omega)]
    congr 1
    omega
  have hrest := @gives_readLoop j (putBytes v buf l fun i => j.byte (p + i)) (p + l) (p / 512 + 1)
    (buf + l) (cnt - l) l (fun _ => by omega) (fun i hi => hblk i (by omega))
    (fun x h₁ h₂ => hU x (by omega) (by omega)) (by omega) (by omega)
  rw [sfsRead, if_neg hfd]
  refine gives_getCurrent.bind ((gives_gets fun w hw hpos => (desc_eq hw).trans (by rw [hpos])).bind ?_)
  rw [readDesc]
  dsimp only
  refine (gives_gets fun w hw _ => hw.super).bind ((gives_block (hblk _ (by omega))).bind ?_)
  rw [hleft, hint, hmin, hword]
  refine (gives_copy (fun x h₁ h₂ => hU x (by omega) (by omega)) (by omega)).bind ?_
  rw [hfirst]
  refine (gives_addPos _).bind ?_
  rw [hword, u32_eq_self (by omega), hsub]
  refine hrest.mono ?_
  rintro r w ⟨rfl, rfl⟩
  refine ⟨by omega, Prod.ext ?_ (by dsimp only; omega)⟩
  rw [putBytes_add (g := fun i => j.byte (p + i)) fun i _ => by rw [Nat.add_assoc],
    show l + (cnt - l) = cnt by omega]

end Job

end Syscall

end Chunix
