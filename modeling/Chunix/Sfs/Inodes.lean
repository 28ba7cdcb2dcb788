import Chunix.Sfs.Lookup

/-!
# The table of inodes

`sfs_namei` looks a name up in the index of the image and keeps the entry that it
finds in a slot of `ibuf`, a table of `NIBUF` slots. `sfs_stat`, `sfs_open` and
`exec` all go through it. No function gives a slot back, so a lookup that finds
its name still fails once the table is full.
-/

namespace Chunix

namespace Sfs

open Machine Act Fs

/-- What a lookup reads of the stack of its caller: the bytes that are in `idx`
before the call and those that lie behind it. -/
structure Frame where
  idx : Index
  after : Memory

/-- A slot of `ibuf`, `struct sfs_inode`. -/
structure Inode where
  flags : Nat
  name : Option CString
  sindex : Index

/-- A slot of `fdtable`, `struct sfs_file_desc`. -/
structure FileDesc where
  type : Nat
  mode : Nat
  flags : Nat
  count : Nat
  pos : Nat
  inode : Option (Fin 32)

/-- The file system of the running kernel: what `check_sfs` has read from the
superblock, the buffer cache, the two tables, and the open files of the tasks. -/
structure Files (τ : Type) where
  super : Super
  cache : Cache
  ibuf : Fin 32 → Inode
  fdtable : Fin 64 → FileDesc
  ofile : τ → Fin 16 → Option (Fin 64)

/-- The flag `SFS_INODE_INUSE`. -/
def sfsInodeInuse : Nat := 1

/-- The flag `O_CREAT`. -/
def oCreat : Nat := 1

/-- The value `ELF_MAGIC` of `e_magic`. -/
def elfMagic : Nat := 0x464C457F

/-- The fields `st_dev`, `st_mode` and `st_size` of `struct sfs_stat`. -/
structure Stat where
  dev : Nat
  mode : Nat
  size : Int
deriving DecidableEq, Repr

variable {τ : Type}

/-- An action on the buffer cache, run by the file system. -/
def onCache {α : Type} (x : Act Cache α) : Act (Files τ) α :=
  Act.zoom (fun f => f.cache) (fun c f => { f with cache := c }) x

def ibufAlloc : Act (Files τ) (Option (Fin 32)) :=
  Act.gets fun f => (List.finRange 32).find? fun i => (f.ibuf i).flags = 0

def searchIndex (fr : Frame) (name : CString) : Act (Files τ) (Option (Fin 32)) := do
  let s ← Act.gets fun f => f.super
  let found ← onCache (sfsFindIndex s fr.after name fr.idx)
  if found.ret ≠ 0 then
    match ← ibufAlloc with
    | none => return none
    | some i =>
        Act.modify fun f =>
          { f with ibuf := Function.update f.ibuf i ⟨sfsInodeInuse, some name, found.idx⟩ }
        return some i
  else return none

/-- `sfs_namei`. The search of the table for the name is commented out. -/
def sfsNamei (fr : Frame) (name : CString) : Act (Files τ) (Option (Fin 32)) := searchIndex fr name

/-- What `sfs_stat` says of an entry. -/
def statOf (idx : Index) : Stat :=
  if etype idx = iatDirEnt then ⟨sfsDev, 2, 0⟩
  else if etype idx = iatFileEnt then ⟨sfsDev, 1, int32 (u32 (len idx))⟩
  else ⟨sfsDev, 0, 0⟩

/-- `sfs_stat` behind the call of `sfs_namei`. -/
def statInode : Option (Fin 32) → Act (Files τ) (Int × Stat)
  | none => return (-1, ⟨0, 0, 0⟩)
  | some i => do
      let idx ← Act.gets fun f => (f.ibuf i).sindex
      return (0, statOf idx)

/-- `sfs_stat`: the result and the contents of `*buf`. -/
def sfsStat (fr : Frame) (path : CString) : Act (Files τ) (Int × Stat) := do
  let indp ← sfsNamei fr path
  statInode indp

def fdAlloc : Act (Files τ) (Option (Fin 64)) := do
  match ← Act.gets fun f => (List.finRange 64).find? fun i => (f.fdtable i).count = 0 with
  | none => return none
  | some i =>
      Act.modify fun f => { f with
        fdtable := Function.update f.fdtable i { f.fdtable i with count := 1 } }
      return some i

/-- `sfs_create`, whose body is compiled out. -/
def sfsCreate (_path : CString) (_type : Nat) : Option (Fin 32) := none

/-- `sfs_open` by the task `t`. -/
def sfsOpen [DecidableEq τ] (t : τ) (fr : Frame) (pathname : CString) (flags : Nat) :
    Act (Files τ) Int := do
  let inp ← sfsNamei fr pathname
  let inp := inp.orElse fun _ => if flags &&& oCreat ≠ 0 then sfsCreate pathname flags else none
  match inp with
  | none => return -1
  | some inp =>
      match ← Act.gets fun f => (List.finRange 16).find? fun i => (f.ofile t i).isNone with
      | none => return -1
      | some fd =>
          match ← fdAlloc with
          | none => return -1
          | some fdp =>
              Act.modify fun f => { f with
                fdtable := Function.update f.fdtable fdp
                  ⟨0, 0, flags, (f.fdtable fdp).count, 0, some inp⟩
                ofile := Function.update f.ofile t (Function.update (f.ofile t) fd (some fdp)) }
              return fd

/-- A call of `exec`: the path, the frames of its three lookups, the contents of
`elfhdr` and of the new block `fp` before they are read into, and whether
`mapkvm` finds the pages for a directory. -/
structure Exec where
  path : CString
  header : Frame
  stat : Frame
  file : Frame
  elfhdr : Memory
  fp : Memory
  mapped : Bool

/-- The header that `exec` reads first, unless it gives up. -/
def readHeader (s : Super) (x : Exec) : Act Cache (Option Memory) := do
  let (ret, elfhdr) ← sfsReadFile s x.header.after x.path x.header.idx x.elfhdr 52
  if ret < 52 then return none
  else if getLe elfhdr 0 4 ≠ elfMagic then return none
  else if x.mapped = false then return none
  else return some elfhdr

/-- The contents of the file, which `exec` reads into a block of the size that
`sfs_stat` says. A negative size is that of a block with more than half of all
addresses, and `memset` does not come back from clearing it. -/
def readImage (s : Super) (x : Exec) (state : Stat) : Act Cache Memory :=
  if state.size < 0 then Act.halt .hang
  else do
    let r ← sfsReadFile s x.file.after x.path x.file.idx x.fp state.size.toNat
    if r.1 < state.size then Act.halt (.panic "sfs_read_file") else return r.2

/-- `exec` behind the checks of the header, unless it has given up. -/
def execFile (s : Super) (x : Exec) : Option Memory → Act (Files τ) (Option (Memory × Memory))
  | none => return none
  | some elfhdr => do
      let r ← sfsStat x.stat x.path
      let fp ← onCache (readImage s x r.2)
      return some (elfhdr, fp)

/-- What `exec` does with the file system: its result is the header and the
contents of the file, or nothing if it gives up before. -/
def execRead (x : Exec) : Act (Files τ) (Option (Memory × Memory)) := do
  let s ← Act.gets fun f => f.super
  let elfhdr ← onCache (readHeader s x)
  execFile s x elfhdr

/-- A call that looks a path up. -/
inductive Call (τ : Type)
  | stat (fr : Frame) (path : CString)
  | opens (t : τ) (fr : Frame) (pathname : CString) (flags : Nat)
  | exec (x : Exec)

section

variable (v : Disk) (s : Super)

/-- The entry that `sfs_find_index` finds on the image, none if it finds none. -/
@[irreducible] def onImage (fr : Frame) (path : CString) : Except Stop (Option Index) :=
  (outcome (sfsFindIndex s fr.after path fr.idx) (bootCache v)).map fun r =>
    if r.ret ≠ 0 then some r.idx else none

/-- The lookup of the path finds it on the image. -/
def finds (fr : Frame) (path : CString) : Bool := (onImage v s fr path).toOption.join.isSome

/-- The call makes a lookup that finds its path on the image. The one of `exec`
comes after the header has been read and accepted. -/
def Call.finds : Call τ → Bool
  | .stat fr path => Sfs.finds v s fr path
  | .opens _ fr pathname _ => Sfs.finds v s fr pathname
  | .exec x =>
      (outcome (readHeader s x) (bootCache v)).toOption.join.isSome && Sfs.finds v s x.stat x.path

/-- The length of the file of an entry. A directory has none. -/
def lengthOf (idx : Index) : Nat := if etype idx = iatFileEnt then len idx else 0

end

/-- The file system after `init_sfs`: the variables are those of the superblock,
nothing is open and `ibuf` is all zeros. -/
structure Mounted (v : Disk) (f : Files τ) : Prop where
  ok : (confined sfsDev).ok f.cache
  view : (confined sfsDev).view f.cache = v
  super : outcome mount (bootCache v) = .ok f.super
  ibuf : ∀ i, (f.ibuf i).flags = 0

/-- The invariant: after `n` lookups that found their paths the first `n` slots
of `ibuf` are in use. -/
structure Worn (v : Disk) (s : Super) (n : Nat) (f : Files τ) : Prop where
  ok : (confined sfsDev).ok f.cache
  view : (confined sfsDev).view f.cache = v
  super : f.super = s
  ibuf : ∀ i : Fin 32, (f.ibuf i).flags = if i.1 < n then sfsInodeInuse else 0

section

variable {v : Disk} {s : Super}

theorem steady_readIndex (sec : Nat) : Steady (confined sfsDev) v (readIndex s sec) :=
  (steady_readSector (by decide) rfl v _).bind fun _ => steady_pure _

theorem steady_readConts (nindex : Int) (ne : Nat) :
    Steady (confined sfsDev) v (readConts s nindex ne) := by
  induction ne with
  | zero => exact steady_pure ()
  | succ ne ih => exact (steady_readIndex _).bind fun _ => ih

theorem steady_examine (after : Memory) (file : CString) (nameAt space : Nat) (nindex : Int)
    (idx : Index) : Steady (confined sfsDev) v (examine s after file nameAt space nindex idx) := by
  rw [examine]
  split
  · exact steady_pure _
  · exact (steady_readConts nindex _).bind fun _ => steady_pure _

theorem steady_findLoop (after : Memory) (file : CString) (nindex : Int) (idx : Index)
    (seen : List (Nat × Index)) :
    Steady (confined sfsDev) v (findLoop s after file nindex idx seen) := by
  -- every turn of the loop passes at least one entry
  induction hn : nindex.toNat using Nat.strong_induction_on generalizing nindex idx seen with
  | _ n ih =>
      rw [findLoop]
      split
      case isFalse => exact steady_pure _
      case isTrue hpos =>
        refine (steady_readIndex _).bind fun idx => ?_
        have hnext : ∀ seen, Steady (confined sfsDev) v
            (findLoop s after file (nindex - (ne idx + 1)) idx seen) :=
          fun seen => ih _ (by omega) _ _ _ rfl
        simp only
        split
        · refine (steady_examine ..).bind fun ret => ?_
          split
          · exact steady_pure _
          · exact hnext _
        · split
          · refine (steady_examine ..).bind fun ret => ?_
            split
            · exact steady_pure _
            · exact hnext _
          · exact steady_pure _

theorem steady_sfsFindIndex (after : Memory) (file : CString) (idx : Index) :
    Steady (confined sfsDev) v (sfsFindIndex s after file idx) :=
  steady_findLoop ..

theorem steady_blockLoop (m : Nat) (len : Int) (buf : Memory) (dst : Nat) :
    Steady (confined sfsDev) v (blockLoop s m len buf dst) := by
  induction hn : len.toNat using Nat.strong_induction_on generalizing m len buf dst with
  | _ n ih =>
      rw [blockLoop]
      split
      · refine (steady_readSector (by decide) rfl v _).bind fun buffer => ?_
        exact ih _ (by split <;> omega) _ _ _ _ rfl
      · exact steady_pure _

theorem steady_sfsReadFile (after : Memory) (file : CString) (idx : Index) (buf : Memory)
    (nb : Nat) : Steady (confined sfsDev) v (sfsReadFile s after file idx buf nb) := by
  refine (steady_sfsFindIndex ..).bind fun f => ?_
  split
  · exact steady_pure _
  · rw [readEntry]
    split
    · exact steady_pure _
    · exact steady_blockLoop ..

theorem steady_readHeader (x : Exec) : Steady (confined sfsDev) v (readHeader s x) := by
  refine (steady_sfsReadFile ..).bind fun ⟨ret, elfhdr⟩ => ?_
  simp only
  split
  · exact steady_pure _
  · split
    · exact steady_pure _
    · split
      · exact steady_pure _
      · exact steady_pure _

theorem steady_readImage (x : Exec) (state : Stat) :
    Steady (confined sfsDev) v (readImage s x state) := by
  rw [readImage]
  split
  · exact steady_halt _
  · refine (steady_sfsReadFile ..).bind fun r => ?_
    split
    · exact steady_halt _
    · exact steady_pure _

variable {n : Nat} {f f' : Files τ}

/-- The invariant is about the lookups and the cache only. -/
theorem Worn.congr (h : Worn v s n f) (hs : f'.super = f.super) (hc : f'.cache = f.cache)
    (hi : f'.ibuf = f.ibuf) : Worn v s n f' :=
  ⟨hc ▸ h.ok, hc ▸ h.view, hs.trans h.super, hi ▸ h.ibuf⟩

/-- A reading action comes to the same as on the image. -/
theorem onCache_reads {α : Type} {x : Act Cache α} (hok : (confined sfsDev).ok f.cache)
    (hview : (confined sfsDev).view f.cache = v) (hx : Steady (confined sfsDev) v x) :
    match outcome x (bootCache v) with
    | .ok a => ∃ c, Sfs.onCache x f = .ok (a, { f with cache := c }) ∧
        (confined sfsDev).ok c ∧ (confined sfsDev).view c = v
    | .error e => Sfs.onCache x f = .error e := by
  obtain ⟨hboot, hbview⟩ := confined_bootCache sfsDev v
  have hr := hx.reads hboot hbview f.cache hok hview
  cases ho : outcome x (bootCache v) with
  | error e =>
      rw [ho] at hr
      simp only at hr
      simp only [Sfs.onCache, Act.zoom, hr]
  | ok a =>
      rw [ho] at hr
      obtain ⟨c, hc, hok', hview'⟩ := hr
      exact ⟨c, zoom_eq_ok.2 ⟨c, hc, rfl⟩, hok', hview'⟩

theorem Worn.onCache {α : Type} {x : Act Cache α} (h : Worn v s n f)
    (hx : Steady (confined sfsDev) v x) :
    match outcome x (bootCache v) with
    | .ok a => ∃ f', Sfs.onCache x f = .ok (a, f') ∧ Worn v s n f' ∧ f'.ibuf = f.ibuf
    | .error e => Sfs.onCache x f = .error e := by
  have hr := onCache_reads h.ok h.view hx
  cases ho : outcome x (bootCache v) with
  | error e =>
      rw [ho] at hr
      exact hr
  | ok a =>
      rw [ho] at hr
      obtain ⟨c, hc, hok', hview'⟩ := hr
      exact ⟨{ f with cache := c }, hc, ⟨hok', hview', h.super, h.ibuf⟩, rfl⟩

/-- The first free slot is the one behind those in use. -/
theorem Worn.ibufAlloc (h : Worn v s n f) :
    Sfs.ibufAlloc f = .ok (if hn : n < 32 then some ⟨n, hn⟩ else none, f) := by
  have hfind : (List.finRange 32).find? (fun i => decide ((f.ibuf i).flags = 0)) =
      if hn : n < 32 then some ⟨n, hn⟩ else none := by
    split
    case isTrue hn =>
      refine List.find?_eq_some_iff_getElem.2 ⟨by simp [h.ibuf], n, by simpa using hn, ?_, ?_⟩
      · simp
      · intro j hj
        simp [h.ibuf, hj, sfsInodeInuse]
    case isFalse hn =>
      refine List.find?_eq_none.2 fun i _ => ?_
      simp [h.ibuf, show i.1 < n by omega, sfsInodeInuse]
  rw [Sfs.ibufAlloc, Act.gets, hfind]

/-- What `sfs_namei` comes to after `n` lookups that found their paths. -/
inductive Lookup (v : Disk) (s : Super) (n : Nat) (fr : Frame) (path : CString) (f : Files τ) :
    Prop
  | stops {e : Stop} (h : onImage v s fr path = .error e) (hx : sfsNamei fr path f = .error e)
  | absent {f' : Files τ} (h : onImage v s fr path = .ok none)
      (hx : sfsNamei fr path f = .ok (none, f')) (hw : Worn v s n f')
  | kept {idx : Index} {f' : Files τ} (h : onImage v s fr path = .ok (some idx)) (hn : n < 32)
      (hx : sfsNamei fr path f = .ok (some ⟨n, hn⟩, f')) (hi : (f'.ibuf ⟨n, hn⟩).sindex = idx)
      (hw : Worn v s (n + 1) f')
  | full {idx : Index} {f' : Files τ} (h : onImage v s fr path = .ok (some idx)) (hn : 32 ≤ n)
      (hx : sfsNamei fr path f = .ok (none, f')) (hw : Worn v s (n + 1) f')

theorem Worn.lookup (h : Worn v s n f) (fr : Frame) (path : CString) :
    Lookup v s n fr path f := by
  have hsuper : Act.gets (fun f : Files τ => f.super) f = .ok (s, f) := by
    rw [Act.gets, h.super]
  have hread := h.onCache (steady_sfsFindIndex (s := s) fr.after path fr.idx)
  cases ho : outcome (sfsFindIndex s fr.after path fr.idx) (bootCache v) with
  | error e =>
      rw [ho] at hread
      refine .stops (e := e) (by rw [onImage, ho]; rfl) ?_
      rw [sfsNamei, searchIndex, bind_of_ok hsuper]
      exact bind_of_error hread
  | ok r =>
      rw [ho] at hread
      obtain ⟨f₁, hf₁, hw, -⟩ := hread
      have hnamei : sfsNamei fr path f = (if r.ret ≠ 0 then do
          match ← Sfs.ibufAlloc with
          | none => return none
          | some i =>
              Act.modify fun f =>
                { f with ibuf := Function.update f.ibuf i ⟨sfsInodeInuse, some path, r.idx⟩ }
              return some i
        else return none : Act (Files τ) _) f₁ := by
        rw [sfsNamei, searchIndex, bind_of_ok hsuper, bind_of_ok hf₁]
      by_cases hret : r.ret ≠ 0
      · have him : onImage v s fr path = .ok (some r.idx) := by
          rw [onImage, ho]
          simp [Except.map, hret]
        rw [if_pos hret, bind_of_ok hw.ibufAlloc] at hnamei
        by_cases hn : n < 32
        · rw [dif_pos hn] at hnamei
          refine .kept him hn hnamei (by simp) ⟨hw.ok, hw.view, hw.super, fun i => ?_⟩
          by_cases hi : i = ⟨n, hn⟩
          · subst hi
            simp
          · have hne : i.1 ≠ n := fun h => hi (Fin.ext h)
            simp only [Function.update_of_ne hi, hw.ibuf]
            exact if_congr (by omega) rfl rfl
        · rw [dif_neg hn] at hnamei
          refine .full him (Nat.le_of_not_lt hn) hnamei ⟨hw.ok, hw.view, hw.super, fun i => ?_⟩
          rw [hw.ibuf, if_pos (by omega), if_pos (by omega)]
      · have him : onImage v s fr path = .ok none := by
          rw [onImage, ho]
          simp only [Except.map, if_neg hret]
        rw [if_neg hret] at hnamei
        exact .absent him hnamei hw

/-- A lookup that returns wears one slot out if it has found its path. -/
theorem Worn.namei {fr : Frame} {path : CString} {o : Option (Fin 32)} (h : Worn v s n f)
    (hx : sfsNamei fr path f = .ok (o, f')) :
    Worn v s (n + (Sfs.finds v s fr path).toNat) f' := by
  cases h.lookup fr path with
  | stops _ hx' =>
      rw [hx'] at hx
      cases hx
  | absent him hx' hw =>
      rw [hx'] at hx
      cases hx
      rw [Sfs.finds, him]
      exact hw
  | kept him hn hx' _ hw =>
      rw [hx'] at hx
      cases hx
      rw [Sfs.finds, him]
      exact hw
  | full him hn hx' hw =>
      rw [hx'] at hx
      cases hx
      rw [Sfs.finds, him]
      exact hw

theorem Worn.stat {fr : Frame} {path : CString} {r : Int × Stat} (h : Worn v s n f)
    (hx : sfsStat fr path f = .ok (r, f')) :
    Worn v s (n + (Sfs.finds v s fr path).toNat) f' := by
  rw [sfsStat] at hx
  obtain ⟨o, f₁, hn, hx⟩ := bind_eq_ok.1 hx
  have hw := h.namei hn
  cases o with
  | none =>
      rw [statInode] at hx
      obtain ⟨-, rfl⟩ := pure_eq_ok.1 hx
      exact hw
  | some i =>
      rw [statInode] at hx
      obtain ⟨_, _, hg, hx⟩ := bind_eq_ok.1 hx
      obtain ⟨-, rfl⟩ := pure_eq_ok.1 hx
      obtain ⟨-, rfl⟩ := gets_eq_ok.1 hg
      exact hw

/-- The descriptor table is no part of the invariant. -/
theorem Worn.fdAlloc {o : Option (Fin 64)} (h : Worn v s n f)
    (hx : Sfs.fdAlloc f = .ok (o, f')) : Worn v s n f' := by
  rw [Sfs.fdAlloc] at hx
  obtain ⟨fd, _, hg, hx⟩ := bind_eq_ok.1 hx
  obtain ⟨-, rfl⟩ := gets_eq_ok.1 hg
  cases fd with
  | none =>
      obtain ⟨-, rfl⟩ := pure_eq_ok.1 hx
      exact h
  | some i =>
      obtain ⟨_, _, hmod, hx⟩ := bind_eq_ok.1 hx
      obtain ⟨-, rfl⟩ := pure_eq_ok.1 hx
      exact modify_eq_ok.1 hmod ▸ h.congr rfl rfl rfl

theorem Worn.opens [DecidableEq τ] {t : τ} {fr : Frame} {pathname : CString} {flags : Nat}
    {r : Int} (h : Worn v s n f) (hx : sfsOpen t fr pathname flags f = .ok (r, f')) :
    Worn v s (n + (Sfs.finds v s fr pathname).toNat) f' := by
  rw [sfsOpen] at hx
  obtain ⟨o, f₁, hn, hx⟩ := bind_eq_ok.1 hx
  have hw := h.namei hn
  generalize (o.orElse fun _ => if flags &&& oCreat ≠ 0 then sfsCreate pathname flags else none)
    = inp at hx
  cases inp with
  | none =>
      obtain ⟨-, rfl⟩ := pure_eq_ok.1 hx
      exact hw
  | some inp =>
      obtain ⟨fd, _, hg, hx⟩ := bind_eq_ok.1 hx
      obtain ⟨-, rfl⟩ := gets_eq_ok.1 hg
      cases fd with
      | none =>
          obtain ⟨-, rfl⟩ := pure_eq_ok.1 hx
          exact hw
      | some fd =>
          obtain ⟨fdp, f₂, hfd, hx⟩ := bind_eq_ok.1 hx
          have hw' := hw.fdAlloc hfd
          cases fdp with
          | none =>
              obtain ⟨-, rfl⟩ := pure_eq_ok.1 hx
              exact hw'
          | some fdp =>
              obtain ⟨_, _, hmod, hx⟩ := bind_eq_ok.1 hx
              obtain ⟨-, rfl⟩ := pure_eq_ok.1 hx
              exact modify_eq_ok.1 hmod ▸ hw'.congr rfl rfl rfl

/-- A reading action that returns has come to what it comes to on the image. -/
theorem Worn.of_onCache {α : Type} {x : Act Cache α} {a : α} (h : Worn v s n f)
    (hx : Steady (confined sfsDev) v x) (ha : Sfs.onCache x f = .ok (a, f')) :
    outcome x (bootCache v) = .ok a ∧ Worn v s n f' := by
  have hread := h.onCache hx
  cases ho : outcome x (bootCache v) with
  | error e =>
      rw [ho] at hread
      simp only [hread, reduceCtorEq] at ha
  | ok b =>
      rw [ho] at hread
      obtain ⟨f₁, hf₁, hw, -⟩ := hread
      cases hf₁.symm.trans ha
      exact ⟨rfl, hw⟩

theorem Call.finds_exec {x : Exec} {o : Option Memory}
    (ho : outcome (readHeader s x) (bootCache v) = .ok o) :
    (Call.exec x : Call τ).finds v s = (o.isSome && Sfs.finds v s x.stat x.path) := by
  rw [Call.finds, ho]
  simp only [Except.toOption, Option.join_some]

theorem Worn.exec {x : Exec} {r : Option (Memory × Memory)} (h : Worn v s n f)
    (hx : execRead x f = .ok (r, f')) :
    Worn v s (n + ((Call.exec x : Call τ).finds v s).toNat) f' := by
  rw [execRead] at hx
  obtain ⟨_, _, hg, hx⟩ := bind_eq_ok.1 hx
  obtain ⟨rfl, rfl⟩ := gets_eq_ok.1 hg
  obtain ⟨o, f₁, hhdr, hx⟩ := bind_eq_ok.1 hx
  obtain ⟨ho, hw⟩ := h.of_onCache (h.super ▸ steady_readHeader x) hhdr
  rw [Call.finds_exec (h.super ▸ ho)]
  cases o with
  | none =>
      rw [execFile] at hx
      obtain ⟨-, rfl⟩ := pure_eq_ok.1 hx
      exact hw
  | some hdr =>
      rw [execFile] at hx
      obtain ⟨st, f₂, hst, hx⟩ := bind_eq_ok.1 hx
      obtain ⟨fp, f₃, hfile, hx⟩ := bind_eq_ok.1 hx
      obtain ⟨-, rfl⟩ := pure_eq_ok.1 hx
      rw [Option.isSome_some, Bool.true_and]
      exact ((hw.stat hst).of_onCache (steady_readImage ..) hfile).2

variable [DecidableEq τ]

end

/-- The kernel with a new image, and the frame of a call whose stack is blank. -/
def tinyFiles (mk : Mk) : Files Unit where
  super := superOf 4 mk
  cache := bootCache (imageDisk 4 mk.img)
  ibuf := fun _ => ⟨0, none, fun _ => 0⟩
  fdtable := fun _ => ⟨0, 0, 0, 0, 0, none⟩
  ofile := fun _ _ => none

def blank : Frame := ⟨fun _ => 0, zeros⟩

/-- The image with the file `ab`, which has two bytes. -/
theorem tiny_onImage :
    ∃ mk idx, mkSfs 4 [tiny] = some mk ∧ Mounted (imageDisk 4 mk.img) (tinyFiles mk) ∧
      onImage (imageDisk 4 mk.img) (superOf 4 mk) blank nameAb = .ok (some idx) ∧
      lengthOf idx = 2 := by
  obtain ⟨mk, hmk⟩ := mkSfs_tiny
  have hm := mkSfs_made (by decide) hmk
  obtain ⟨hok, hview⟩ := quiet_bootCache sfsDev (imageDisk 4 mk.img)
  obtain ⟨hok', hview'⟩ := confined_bootCache sfsDev (imageDisk 4 mk.img)
  obtain ⟨hret, hlast⟩ := @Made.lookup _ _ _ nameAb hm zeros (fun _ => 0)
    tiny_regular (by decide)
  have hone := hret.2 ⟨tiny, by simp, accepted_self rfl (clear_tiny.2.2 ⟨tiny, by simp, rfl⟩)⟩
  obtain ⟨k, a, e, ha, he, -, -, hidx, -⟩ := hlast hone
  refine ⟨mk, e.2, hmk, ⟨hok', hview', (gives_mount (by decide) hm).outcome hok hview,
    fun _ => rfl⟩, ?_, ?_⟩
  · rw [onImage, blank,
      (gives_sfsFindIndex (by decide) hm zeros nameAb fun _ => 0).outcome hok hview]
    simp only [Except.map, hone, hidx]
    rfl
  · obtain ⟨x, hx, hd⟩ := hm.entry he
    have hxa := starts_getElem? hx
    rw [List.mem_singleton.1 (List.mem_of_getElem? hxa)] at hd
    rcases hd.kind with ⟨hdir, -⟩ | ⟨content, hs, ht, hl, -⟩
    · simp [tiny] at hdir
    · cases hs
      rw [lengthOf, if_pos ht, hl]
      rfl

end Sfs

end Chunix
