import Chunix.Exec.Copyout
import Chunix.Sfs.Lookup
import Chunix.Trap.Stream

/-!
# Reads one after the other

A file of an image that `sfs_open` has opened is a stream. A sequence of reads takes
from it one piece behind the other: what the calls return, the bytes that they put
into the buffer and the position behind each of them are those of `stream`, which
knows nothing of blocks.
-/

namespace Chunix

namespace Sfs

open Machine Act Fs

section

variable {τ : Type} [DecidableEq τ] {t : τ} {fr : Frame} {name pathname : CString} {flags : Nat}
  {f f' : Files τ}

/-- A descriptor at the beginning of the file of an entry. -/
structure Opened (t : τ) (f : Files τ) (idx : Index) (fd : Fin 16) (fdp : Fin 64) (inp : Fin 32) :
    Prop where
  ofile : f.ofile t fd = some fdp
  pos : (f.fdtable fdp).pos = 0
  inode : (f.fdtable fdp).inode = some inp
  sindex : (f.ibuf inp).sindex = idx

omit [DecidableEq τ] in
/-- What `sfs_namei` has done when it finds the name. -/
theorem sfsNamei_some {inp : Fin 32} (h : sfsNamei fr name f = .ok (some inp, f')) :
    ∃ x c, sfsFindIndex f.super fr.after name fr.idx f.cache = .ok (x, c) ∧ x.ret ≠ 0 ∧
      f' = { f with
        cache := c
        ibuf := Function.update f.ibuf inp ⟨sfsInodeInuse, some name, x.idx⟩ } := by
  rw [sfsNamei, searchIndex] at h
  obtain ⟨s, f₀, hs, h⟩ := bind_eq_ok.1 h
  obtain ⟨rfl, rfl⟩ := gets_eq_ok.1 hs
  obtain ⟨x, f₁, hx, h⟩ := bind_eq_ok.1 h
  obtain ⟨c, hc, rfl⟩ := zoom_eq_ok.1 hx
  by_cases hret : x.ret ≠ 0
  · rw [if_pos hret] at h
    obtain ⟨o, f₂, ho, h⟩ := bind_eq_ok.1 h
    obtain ⟨-, rfl⟩ := gets_eq_ok.1 ho
    cases o with
    | none => cases (pure_eq_ok.1 h).1
    | some i =>
        obtain ⟨_, f₃, hm, h⟩ := bind_eq_ok.1 h
        obtain rfl := modify_eq_ok.1 hm
        obtain ⟨hi, rfl⟩ := pure_eq_ok.1 h
        cases hi
        exact ⟨x, c, hc, hret, rfl⟩
  · rw [if_neg hret] at h
    cases (pure_eq_ok.1 h).1

omit [DecidableEq τ] in
theorem fdAlloc_some {fdp : Fin 64} (h : fdAlloc f = .ok (some fdp, f')) :
    f' = { f with fdtable := Function.update f.fdtable fdp { f.fdtable fdp with count := 1 } } := by
  rw [fdAlloc] at h
  obtain ⟨o, f₁, ho, h⟩ := bind_eq_ok.1 h
  obtain ⟨-, rfl⟩ := gets_eq_ok.1 ho
  cases o with
  | none => cases (pure_eq_ok.1 h).1
  | some i =>
      obtain ⟨_, f₂, hm, h⟩ := bind_eq_ok.1 h
      obtain rfl := modify_eq_ok.1 hm
      obtain ⟨hi, rfl⟩ := pure_eq_ok.1 h
      cases hi
      rfl

/-- A call of `sfs_open` that does not fail. -/
theorem sfsOpen_opened {r : Int} (h : sfsOpen t fr pathname flags f = .ok (r, f')) (hr : r ≠ -1) :
    ∃ x c fd fdp inp, sfsFindIndex f.super fr.after pathname fr.idx f.cache = .ok (x, c) ∧
      x.ret ≠ 0 ∧ r = ((fd : Fin 16) : Nat) ∧ f'.super = f.super ∧ f'.cache = c ∧
      Opened t f' x.idx fd fdp inp := by
  rw [sfsOpen] at h
  obtain ⟨o, f₁, ho, h⟩ := bind_eq_ok.1 h
  cases o with
  | none =>
      simp only [sfsCreate, ite_self, Option.orElse] at h
      exact absurd (pure_eq_ok.1 h).1.symm hr
  | some inp =>
      obtain ⟨x, c, hx, hret, rfl⟩ := sfsNamei_some ho
      obtain ⟨o, f₁, ho, h⟩ := bind_eq_ok.1 h
      obtain ⟨-, rfl⟩ := gets_eq_ok.1 ho
      cases o with
      | none => exact absurd (pure_eq_ok.1 h).1.symm hr
      | some fd =>
          obtain ⟨o, f₂, ho, h⟩ := bind_eq_ok.1 h
          cases o with
          | none => exact absurd (pure_eq_ok.1 h).1.symm hr
          | some fdp =>
              obtain rfl := fdAlloc_some ho
              obtain ⟨_, f₃, hm, h⟩ := bind_eq_ok.1 h
              obtain rfl := modify_eq_ok.1 hm
              obtain ⟨rfl, rfl⟩ := pure_eq_ok.1 h
              refine ⟨x, c, fd, fdp, inp, hx, hret, rfl, rfl, rfl, ?_⟩
              constructor <;> simp

end

/-- The entry of a regular file. -/
theorem Made.regular_entry {nblk : Nat} {args : List Arg} {mk : Mk} (hm : Made nblk args mk)
    {k : Nat} {a : Arg} {e : Nat × Index} {content : List UInt8} (ha : args[k]? = some a)
    (hreg : a.stat = some (.regular content)) (he : mk.initial[k + 1]? = some e) :
    etype e.2 = iatFileEnt ∧ len e.2 = content.length ∧
      Data mk.img mk.daBlocks (blkStart e.2) content := by
  obtain ⟨x, hx, hdesc⟩ := hm.entry he
  cases ha.symm.trans (starts_getElem? hx)
  rcases hdesc.kind with ⟨hdir, -⟩ | ⟨content', hs, ht, hl, hb, -, hd⟩
  · rw [hreg] at hdir
    cases hdir
  · cases hreg.symm.trans hs
    exact ⟨ht, hl, hb ▸ hd⟩

end Sfs

namespace Syscall

open Machine Act Fs Sfs

/-- A read as the user sees it: what the call returns, the bytes that it has put into
the buffer, and `f_pos` behind it. -/
structure Reading where
  ret : Int
  bytes : List UInt8
  pos : Nat

/-- The `n` bytes at an address. -/
def loadBytes (va : Nat) : Nat → Act Mm (List UInt8)
  | 0 => return []
  | n + 1 => do
      let b ← Mm.vload8 va
      let bs ← loadBytes (va + 1) n
      return b :: bs

/-- The call `sfs_read(fd, buf, n)` and a look at what it has done. -/
def readOnce (fd : Int) (buf n : Nat) : Act World Reading := do
  let r ← sfsRead Mm.vstore8 fd buf n
  let bs ← onMm (loadBytes buf r.toNat)
  let c ← getCurrent
  let p ← Act.gets fun w => ((w.desc c fd).map Desc.pos).getD 0
  return ⟨r, bs, p⟩

/-- Reads of given sizes, one after the other. -/
def reads (fd : Int) (buf : Nat) : List Nat → Act World (List Reading)
  | [] => return []
  | n :: ns => do
      let r ← readOnce fd buf n
      let rs ← reads fd buf ns
      return r :: rs

/-- The reads of given sizes from the position `p` of a stream. -/
def stream (content : List UInt8) : Nat → List Nat → List Reading
  | _, [] => []
  | p, n :: ns =>
      let k := min n (content.length - p)
      ⟨k, (content.drop p).take k, p + k⟩ :: stream content (p + k) ns

/-- The number of bytes that the reads have returned. -/
def bytesRead (rs : List Reading) : Nat := (rs.map fun r => r.ret.toNat).sum

/-- Reads of given sizes, from the position `p` on, compose: each returns what it is
asked for or what is left, `f_pos` is what has been returned up to there, and the
pieces put together are the contents. -/
structure Composes (content : List UInt8) (p : Nat) (sizes : List Nat) (rs : List Reading) :
    Prop where
  length : rs.length = sizes.length
  ret : ∀ (i n : Nat) (r : Reading), sizes[i]? = some n → rs[i]? = some r →
    r.ret = (min n (content.length - (p + bytesRead (rs.take i))) : Nat)
  pos : ∀ (i : Nat) (r : Reading), rs[i]? = some r → r.pos = p + bytesRead (rs.take (i + 1))
  bytes : (rs.map Reading.bytes).flatten = (content.drop p).take (bytesRead rs)

section

variable {content : List UInt8} {p : Nat}

@[simp] theorem bytesRead_nil : bytesRead [] = 0 := rfl

@[simp] theorem bytesRead_cons (r : Reading) (rs : List Reading) :
    bytesRead (r :: rs) = r.ret.toNat + bytesRead rs := by
  simp [bytesRead]

/-- One read in front of the others. -/
theorem Composes.cons {n k : Nat} {ns : List Nat} {rs : List Reading}
    (h : Composes content (p + k) ns rs) (hk : k = min n (content.length - p)) :
    Composes content p (n :: ns) (⟨k, (content.drop p).take k, p + k⟩ :: rs) := by
  refine ⟨by simp [h.length], ?_, ?_, ?_⟩
  · rintro (_ | i) m r hm hr
    · simp only [List.getElem?_cons_zero, Option.some.injEq] at hm hr
      simp [← hm, ← hr, hk]
    · rw [h.ret i m r (by simpa using hm) (by simpa using hr)]
      simp [Nat.add_assoc]
  · rintro (_ | i) r hr
    · simp only [List.getElem?_cons_zero, Option.some.injEq] at hr
      simp [← hr]
    · rw [h.pos i r (by simpa using hr)]
      simp [Nat.add_assoc]
  · rw [List.map_cons, List.flatten_cons, h.bytes, bytesRead_cons, Int.toNat_natCast,
      ← List.drop_drop, List.take_add]

theorem composes_stream (content : List UInt8) (p : Nat) (sizes : List Nat) :
    Composes content p sizes (stream content p sizes) := by
  induction sizes generalizing p with
  | nil => exact ⟨rfl, by simp, by simp [stream], by simp [stream]⟩
  | cons n ns ih => exact (ih _).cons rfl

end

theorem gives_loadBytes {s : Mm.Space} {U : Nat → Prop} {v : Memory} {va n : Nat}
    (hU : ∀ x, va ≤ x → x < va + n → U (x / 4096)) (hlt : va + n ≤ 4294967296) :
    Gives (Mm.seen s U) v (loadBytes va n) (bytesAt v va n) v := by
  induction n generalizing va with
  | zero => exact gives_pure _
  | succ n ih =>
      have hcons : bytesAt v va (n + 1) = v va :: bytesAt v (va + 1) n := by
        rw [Nat.add_comm n 1, bytesAt_add]
        rfl
      rw [loadBytes, hcons]
      refine (Mm.gives_vload8 (by omega) (hU va le_rfl (by omega))).bind ?_
      exact (ih (fun x h₁ h₂ => hU x (by omega) (by omega)) (by omega)).bind (gives_pure _)

/-- What is read back from where bytes have been put. -/
theorem bytesAt_putBytes {v : Memory} {a n : Nat} {g : Nat → UInt8} :
    bytesAt (putBytes v a n g) a n = (List.range n).map g := by
  refine List.map_congr_left fun i hi => ?_
  have hi' := List.mem_range.1 hi
  rw [putBytes, if_pos (by omega), Nat.add_sub_cancel_left]

namespace Job

variable {j : Job} {v : Memory} {p : Nat}

@[simp] theorem length_contents : j.contents.length = j.len := by simp [contents, bytesAt]

/-- A piece of the contents. -/
theorem take_drop_contents {k : Nat} (h : p + k ≤ j.len) :
    (j.contents.drop p).take k = (List.range k).map fun i => j.byte (p + i) := by
  refine List.ext_getElem ?_ fun i h₁ h₂ => ?_
  · simp
    omega
  · simp [contents, bytesAt]

/-- The buffer is there for requests up to `n`. -/
structure Buffer (j : Job) (buf n : Nat) : Prop where
  int : n < 2147483648
  pages : ∀ x, buf ≤ x → x < buf + min n j.len → j.pages (x / 4096)
  lt : buf + min n j.len ≤ 4294967296

theorem gives_pos : Gives j.world (v, p)
    (Act.gets fun w => ((w.desc j.slot j.fd).map Desc.pos).getD 0) p (v, p) := by
  refine gives_gets fun w hw hpos => ?_
  rw [desc_eq hw, hpos]
  rfl

theorem gives_readOnce {buf n : Nat} (hp : p ≤ j.len) (hlen : j.len < 4294967296)
    (hblk : ∀ i, 512 * i ≤ j.len → j.block i < j.disk.size) (hbuf : j.Buffer buf n) :
    Gives j.world (v, p) (readOnce j.fd buf n)
      ⟨j.served p n, (j.contents.drop p).take (j.served p n), p + j.served p n⟩
      (putBytes v buf (j.served p n) (fun i => j.byte (p + i)), p + j.served p n) := by
  have hserved : j.served p n ≤ min n j.len ∧ p + j.served p n ≤ j.len := by
    unfold served
    omega
  have hpages : ∀ x, buf ≤ x → x < buf + j.served p n → j.pages (x / 4096) :=
    fun x h₁ h₂ => hbuf.pages x h₁ (by omega)
  have hlt := hbuf.lt
  rw [take_drop_contents hserved.2, readOnce]
  refine (gives_sfsRead hp hlen hbuf.int hblk hpages (by omega)).bind ?_
  refine (total_onMm (gives_loadBytes hpages (by omega))).bind (gives_getCurrent.bind ?_)
  refine gives_pos.bind ?_
  rw [bytesAt_putBytes]
  exact gives_pure _

/-- The reads of an open file are those of the stream of its contents. -/
theorem total_reads {buf : Nat} {ns : List Nat} (hp : p ≤ j.len) (hlen : j.len < 4294967296)
    (hblk : ∀ i, 512 * i ≤ j.len → j.block i < j.disk.size) (hbuf : ∀ n ∈ ns, j.Buffer buf n) :
    Total j.world (v, p) (reads j.fd buf ns) fun rs s =>
      rs = stream j.contents p ns ∧ s.2 = p + bytesRead rs := by
  induction ns generalizing v p with
  | nil =>
      refine (gives_pure _).mono ?_
      rintro _ _ ⟨rfl, rfl⟩
      exact ⟨rfl, rfl⟩
  | cons n ns ih =>
      rw [reads]
      refine (gives_readOnce hp hlen hblk (hbuf n (by simp))).bind ?_
      have hp' : p + j.served p n ≤ j.len := by
        unfold served
        omega
      refine (ih hp' fun m hm => hbuf m (by simp [hm])).bind fun rs s hrs => ?_
      obtain ⟨rfl, hs⟩ := hrs
      refine (gives_pure _).mono ?_
      rintro _ _ ⟨rfl, rfl⟩
      refine ⟨?_, by rw [hs, bytesRead_cons, Int.toNat_natCast, Nat.add_assoc]⟩
      rw [stream, length_contents]
      rfl

end Job

/-- A task of a kernel whose disk is an image. `U` are pages of its address space, mapped to
page frames of their own. -/
structure OnImage (nblk : Nat) (mk : Mk) (c : Slot) (s : Mm.Space) (U : Nat → Prop) (w : World) :
    Prop where
  current : w.kernel.current = some c
  sees : Mm.Sees s U w.kernel.mm
  cache : (confined sfsDev).ok w.files.cache
  disk : (confined sfsDev).view w.files.cache = imageDisk nblk mk.img
  super : w.files.super = superOf nblk mk

section

variable {nblk : Nat} {args : List Arg} {mk : Mk} {c : Slot} {s : Mm.Space} {U : Nat → Prop}
  {w w₀ : World} {fr : Frame} {path : CString} {flags : Nat} {fd : Int}

/-- The file that `sfs_open` has opened, as it is read. -/
theorem OnImage.job (h : OnImage nblk mk c s U w) (hn : 512 * nblk < 4294967296)
    (hm : Made nblk args mk) (hopen : onFiles (sfsOpen c fr path flags) w = .ok (fd, w₀))
    (hfd : fd ≠ -1) :
    ∃ j : Job, fd = (j.fd : Nat) ∧ j.space = s ∧ j.pages = U ∧ j.super = superOf nblk mk ∧
      j.disk = imageDisk nblk mk.img ∧
      j.len = len (found fr.after path fr.idx [] mk.initial.reverse).idx ∧
      j.start = blkStart (found fr.after path fr.idx [] mk.initial.reverse).idx ∧
      (found fr.after path fr.idx [] mk.initial.reverse).ret ≠ 0 ∧
      j.Ok w₀ ∧ (w₀.files.fdtable j.desc).pos = 0 := by
  obtain ⟨f', hf, rfl⟩ := zoom_eq_ok.1 hopen
  obtain ⟨x, cache, fd, fdp, inp, hx, hret, rfl, hsuper, hcache, ho⟩ := sfsOpen_opened hf hfd
  have hquiet : (quietly sfsDev).ok w.files.cache := h.cache.1
  rw [h.super] at hx
  obtain ⟨-, rfl, -⟩ := (gives_sfsFindIndex hn hm fr.after path fr.idx).of_eq_ok hquiet h.disk hx
  have hsteady := @steady_sfsFindIndex (imageDisk nblk mk.img) (superOf nblk mk) fr.after path
    fr.idx
  obtain ⟨hok, hview⟩ := hsteady.of_eq_ok h.cache h.disk hx
  generalize found fr.after path fr.idx [] mk.initial.reverse = x at *
  refine ⟨⟨c, s, U, fd, fdp, inp, superOf nblk mk, imageDisk nblk mk.img, len x.idx,
    blkStart x.idx⟩, rfl, rfl, rfl, rfl, rfl, rfl, rfl, hret, ?_, ho.pos⟩
  exact {
    current := h.current
    sees := h.sees
    cache := hcache ▸ hok
    disk := hcache ▸ hview
    super := hsuper.trans h.super
    ofile := ho.ofile
    desc := ho.inode
    len := congrArg len ho.sindex
    start := congrArg blkStart ho.sindex }

/-- A file of an image, block by block and byte by byte. -/
theorem Job.of_data {j : Job} {content : List UInt8} (hn : 512 * nblk < 4294967296)
    (hm : Made nblk args mk) (hsuper : j.super = superOf nblk mk)
    (hdisk : j.disk = imageDisk nblk mk.img) (hlen : j.len = content.length)
    (hd : Data mk.img mk.daBlocks j.start content) :
    (∀ i, 512 * i ≤ j.len → j.block i < j.disk.size) ∧ j.contents = content := by
  have hf := hm.fits
  unfold Fits at hf
  have hroom := hd.room
  have hblock : ∀ i, 512 * i ≤ j.len → j.block i = j.start + i + 1 := by
    intro i hi
    rw [Job.block, hsuper, u32_eq_self (n := j.start + i) (by omega)]
    exact u32_eq_self (by simp only [superOf]; omega)
  refine ⟨fun i hi => ?_, ?_⟩
  · rw [hblock i hi, hdisk]
    simp only [imageDisk]
    omega
  · refine List.ext_getElem (by simp [hlen]) fun i h₁ h₂ => ?_
    have hi : i % 512 < 512 := Nat.mod_lt _ (by decide)
    simp only [Job.contents, bytesAt, List.getElem_map, List.getElem_range, Nat.zero_add, Job.byte]
    rw [hblock _ (by omega), hdisk, extend, dif_pos hi, ← hd.bytes i h₂]
    simp only [imageDisk]
    congr 1
    omega

/-- Reads of any sizes from a regular file that `sfs_open` has opened return what they are
asked for or what is left of the file, and the pieces put together are its contents from
the beginning on, as `sfs_read_file` returns them. `f_pos` is the number of bytes returned
up to there. The disk is the image, and a sector outside of it, which `memhd_rw` refuses,
is neither read nor in the cache. -/
theorem reads_compose (hn : 512 * nblk < 4294967296) (hmk : mkSfs nblk args = some mk)
    (hw : OnImage nblk mk c s U w)
    (hopen : onFiles (sfsOpen c fr path flags) w = .ok (fd, w₀)) (hfd : fd ≠ -1) {k : Nat} {a : Arg}
    {e : Nat × Index} {content : List UInt8} (ha : args[k]? = some a)
    (hreg : a.stat = some (.regular content)) (hlen : content.length < 2147483648)
    (he : mk.initial[k + 1]? = some e)
    (hfound : (found fr.after path fr.idx [] mk.initial.reverse).idx = e.2) {buf : Nat}
    {sizes : List Nat} (hsizes : ∀ n ∈ sizes, n < 2147483648 ∧
      buf + min n content.length ≤ 4294967296 ∧
      ∀ x, buf ≤ x → x < buf + min n content.length → U (x / 4096)) :
    (∃ rs w', reads fd buf sizes w₀ = .ok (rs, w') ∧ Composes content 0 sizes rs ∧
      ∀ b, (w'.files.cache.buf b).flags.valid = true → (w'.files.cache.buf b).num < nblk) ∧
    ∀ m nb, ∃ r cache, sfsReadFile w₀.files.super fr.after path fr.idx m nb w₀.files.cache =
        .ok (r, cache) ∧ r.1 = min content.length nb ∧
      ∀ i, i < min content.length nb → r.2 i = content.getD i 0 := by
  have hm := mkSfs_made hn hmk
  obtain ⟨j, rfl, -, hpages, hsuper, hdisk, hjlen, hjstart, hret, hok, hpos⟩ :=
    hw.job hn hm hopen hfd
  obtain ⟨ht, hl, hd⟩ := hm.regular_entry ha hreg he
  rw [hfound] at hjlen hjstart
  obtain ⟨hblk, hcont⟩ := Job.of_data hn hm hsuper hdisk (hjlen.trans hl) (hjstart ▸ hd)
  refine ⟨?_, fun m nb => ?_⟩
  · have hbuf : ∀ n ∈ sizes, j.Buffer buf n := by
      intro n hmem
      obtain ⟨h₁, h₂, h₃⟩ := hsizes n hmem
      rw [← hl, ← hjlen] at h₂ h₃
      exact ⟨h₁, hpages ▸ h₃, h₂⟩
    obtain ⟨rs, w', hrs, hok', hstream, -⟩ := Job.total_reads (Nat.zero_le _)
      (by omega) hblk hbuf w₀ hok (Prod.ext rfl hpos)
    refine ⟨rs, w', hrs, ?_, fun b hv => ?_⟩
    · rw [hstream, hcont]
      exact composes_stream content 0 sizes
    · have hsize : w'.files.cache.disksize = nblk :=
        congrArg Disk.size (hok'.disk.trans hdisk)
      exact hsize ▸ hok'.cache.2 b hv
  · have htotal : Total (quietly sfsDev) (imageDisk nblk mk.img)
        (sfsReadFile (superOf nblk mk) fr.after path fr.idx m nb) fun r v =>
          v = imageDisk nblk mk.img ∧ r.1 = min content.length nb ∧
            ∀ i, i < min content.length nb → r.2 i = content.getD i 0 := by
      rw [sfsReadFile]
      refine (gives_sfsFindIndex hn hm fr.after path fr.idx).bind ?_
      rw [if_neg hret, hfound]
      exact total_readEntry hn hm ht hl rfl hd hlen m nb
    obtain ⟨r, cache, hr, -, -, hr₁, hr₂⟩ := htotal w₀.files.cache hok.cache.1 (hok.disk.trans hdisk)
    exact ⟨r, cache, by rw [hok.super, hsuper, hr], hr₁, hr₂⟩

end

/-- A task that has opened nothing, on the image with the file `ab`. -/
def session (mk : Mk) : World where
  kernel := { (demo 3).kernel with mm := Exec.pairMm }
  files :=
    { super := superOf 4 mk
      cache := bootCache (imageDisk 4 mk.img)
      ibuf := fun _ => ⟨0, none, fun _ => 0⟩
      fdtable := fun _ => ⟨0, 0, 0, 0, 0, none⟩
      ofile := fun _ _ => none }
  cons := ⟨zeros, 0, 0⟩
  syscalls := 0
  entry := fun _ => 0
  wild := fun _ => none

theorem session_onImage (mk : Mk) :
    OnImage 4 mk 0 Exec.pairSpace (fun n => n = 5) (session mk) where
  current := rfl
  sees := by
    have hframe : Exec.pairSpace.frame Exec.pairMm.mem 5 = 0x103000 := by decide +kernel
    refine ⟨rfl, Exec.pairSpace_at, ?_, ?_, ?_, fun n k hn hk _ => hn.trans hk.symm⟩
    · rintro _ rfl
      rw [show (session mk).kernel.mm = Exec.pairMm from rfl]
      decide +kernel
    · rintro _ rfl
      rw [show (session mk).kernel.mm = Exec.pairMm from rfl, hframe]
      exact ⟨by decide, by decide, by decide⟩
    · rintro _ rfl hhas
      rw [show (session mk).kernel.mm = Exec.pairMm from rfl, hframe] at hhas
      have := Exec.pairSpace_has hhas
      omega
  cache := (confined_bootCache sfsDev _).1
  disk := (confined_bootCache sfsDev _).2
  super := rfl

/-- The same task with open descriptors. -/
def busy (mk : Mk) (o : Fin 16 → Option (Fin 64)) : World :=
  { session mk with files := { (session mk).files with ofile := fun _ => o } }

theorem busy_onImage (mk : Mk) (o : Fin 16 → Option (Fin 64)) :
    OnImage 4 mk 0 Exec.pairSpace (fun n => n = 5) (busy mk o) :=
  { session_onImage mk with }

/-- The file is opened as the first descriptor that is free. -/
theorem busy_open {mk : Mk} (hm : Made 4 [tiny] mk)
    (hret : (found zeros nameAb (fun _ => 0) [] mk.initial.reverse).ret = 1)
    {o : Fin 16 → Option (Fin 64)} {fd : Fin 16}
    (hfd : (List.finRange 16).find? (fun i => (o i).isNone) = some fd) :
    ∃ w₀, onFiles (sfsOpen 0 blank nameAb 0) (busy mk o) = .ok (((fd : Nat) : Int), w₀) := by
  obtain ⟨hok, hview⟩ := quiet_bootCache sfsDev (imageDisk 4 mk.img)
  obtain ⟨x, c, hx, -, hxf, -⟩ :=
    gives_sfsFindIndex (by decide) hm zeros nameAb (fun _ => 0) _ hok hview
  have hret' : x.ret ≠ 0 := by
    rw [hxf, hret]
    decide
  have hread : onCache (sfsFindIndex (busy mk o).files.super blank.after nameAb blank.idx)
      (busy mk o).files = .ok (x, { (busy mk o).files with cache := c }) :=
    zoom_eq_ok.2 ⟨c, hx, rfl⟩
  have hnamei : ∃ f, sfsNamei blank nameAb (busy mk o).files = .ok (some 0, f) ∧
      f.fdtable = (busy mk o).files.fdtable ∧ f.ofile = (busy mk o).files.ofile := by
    rw [sfsNamei, searchIndex, bind_of_ok (gets_eq_ok.2 ⟨rfl, rfl⟩), bind_of_ok hread,
      if_pos hret']
    exact ⟨_, rfl, rfl, rfl⟩
  obtain ⟨f, hf, htable, ho⟩ := hnamei
  have hslot : Act.gets (fun f : Files Slot =>
      (List.finRange 16).find? fun i => (f.ofile 0 i).isNone) f = .ok (some fd, f) := by
    refine gets_eq_ok.2 ⟨?_, rfl⟩
    rw [ho]
    exact hfd
  have hfree : Act.gets (fun f : Files Slot =>
      (List.finRange 64).find? fun i => (f.fdtable i).count = 0) f = .ok (some 0, f) := by
    refine gets_eq_ok.2 ⟨?_, rfl⟩
    rw [htable]
    rfl
  have halloc : ∃ f₁, fdAlloc f = .ok (some 0, f₁) := by
    rw [fdAlloc, bind_of_ok hfree]
    exact ⟨_, rfl⟩
  obtain ⟨f₁, hf₁⟩ := halloc
  obtain ⟨f', hf'⟩ : ∃ f', sfsOpen 0 blank nameAb 0 (busy mk o).files = .ok (((fd : Nat) : Int), f') := by
    rw [sfsOpen, bind_of_ok hf]
    simp only [Option.orElse]
    rw [bind_of_ok hslot]
    dsimp only
    rw [bind_of_ok hf₁]
    exact ⟨_, rfl⟩
  exact ⟨_, zoom_eq_ok.2 ⟨f', hf', rfl⟩⟩

theorem session_open {mk : Mk} (hm : Made 4 [tiny] mk)
    (hret : (found zeros nameAb (fun _ => 0) [] mk.initial.reverse).ret = 1) :
    ∃ w₀, onFiles (sfsOpen 0 blank nameAb 0) (session mk) = .ok (0, w₀) :=
  @busy_open mk hm hret (fun _ => none) 0 (by decide)

/-- Three reads of the file `ab`, which has two bytes. -/
theorem session_reads :
    ∃ mk w₀ rs w', mkSfs 4 [tiny] = some mk ∧
      onFiles (sfsOpen 0 blank nameAb 0) (session mk) = .ok (0, w₀) ∧
      reads 0 0x5000 [1, 5, 3] w₀ = .ok (rs, w') ∧ Composes [0x68, 0x69] 0 [1, 5, 3] rs := by
  obtain ⟨mk, hmk⟩ := mkSfs_tiny
  have hm := mkSfs_made (by decide) hmk
  obtain ⟨hret, hlast⟩ := @Made.lookup _ _ _ nameAb hm zeros (fun _ => 0)
    tiny_regular (by decide)
  have hone := hret.2 ⟨tiny, by simp, accepted_self rfl (clear_tiny.2.2 ⟨tiny, by simp, rfl⟩)⟩
  obtain ⟨k, a, e, ha, he, -, -, hidx, -⟩ := hlast hone
  obtain ⟨w₀, hopen⟩ := session_open hm hone
  have hsizes : ∀ n ∈ [1, 5, 3], n < 2147483648 ∧
      0x5000 + min n [(0x68 : UInt8), 0x69].length ≤ 4294967296 ∧
      ∀ x, 0x5000 ≤ x → x < 0x5000 + min n [(0x68 : UInt8), 0x69].length → x / 4096 = 5 := by
    intro n hn
    have hle : n ≤ 5 := by
      revert n
      decide
    refine ⟨by omega, by simp only [List.length]; omega, fun x h₁ h₂ => ?_⟩
    simp only [List.length] at h₂
    omega
  have hreg : a.stat = some (.regular [0x68, 0x69]) := by
    rw [List.mem_singleton.1 (List.mem_of_getElem? ha)]
    rfl
  obtain ⟨⟨rs, w', hrs, hcomp, -⟩, -⟩ := reads_compose (by decide) hmk (session_onImage mk) hopen
    (by decide) ha hreg (by decide) he hidx hsizes
  exact ⟨mk, w₀, rs, w', hmk, hopen, hrs, hcomp⟩

end Syscall

end Chunix
