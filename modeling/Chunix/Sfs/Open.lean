import Chunix.Sfs.Inodes
import Chunix.Heap.Borrow

/-!
# Opening a file that cannot be opened

`sfs_open` takes a slot of `ibuf` and a block of the heap of the task for the name, both
in `search_index`, then an entry of `ofile` and then one of `fdtable`. If one of the last
two is missing it returns `-1` and keeps what it has taken. On the way `sfs_find_index`
borrows a block of the heap for every long name it passes, and gives it back.
-/

namespace Chunix

namespace Sfs

namespace OnHeap

open Machine Act Fs

/-- The file system and the heap of the current task. `names` are the pointers `name` of
the slots of `ibuf`. -/
structure Host (σ τ : Type) where
  files : Files τ
  names : Fin 32 → Nat
  heap : σ

variable {σ τ α β : Type}

def onFiles (x : Act (Files τ) α) : Act (Host σ τ) α :=
  Act.zoom (fun k => k.files) (fun f k => { k with files := f }) x

def onHeap (x : Act σ α) : Act (Host σ τ) α :=
  Act.zoom (fun k => k.heap) (fun s k => { k with heap := s }) x

section

variable (W : Heap.Window σ)

/-- The loop that reads the continuation entries of a long name to the address `p`. -/
def readConts (s : Super) (nindex : Int) : Nat → Nat → Act (Host σ τ) Unit
  | 0, _ => pure ()
  | ne + 1, p => do
      let idx ← onFiles (onCache (readIndex s (word (nindex + (ne + 1)))))
      onHeap (Heap.storeBytes W p (List.ofFn idx))
      readConts s nindex ne (u32 (p + 64))

/-- What `strncpy` writes: the bytes of the name in the entry, and a zero. -/
def nameBytes (idx : Index) (nameAt space : Nat) : List UInt8 :=
  (List.range space).map (fun i => extend idx zeros (nameAt + i)) ++ [0]

/-- The name of an entry with continuation entries, put together in a new block. -/
def longName (s : Super) (nameAt space : Nat) (nindex : Int) (idx : Index) :
    Act (Host σ τ) Unit := do
  let str ← onHeap (Heap.kmalloc W ((ne idx + 1) * 64))
  if str = 0 then Act.halt (.panic "kmalloc")
  else do
    onHeap (Heap.storeBytes W str (nameBytes idx nameAt space))
    readConts W s nindex (ne idx) (u32 (str + space))
    onHeap (Heap.kfree W str)

/-- The branch of `sfs_find_index` for a directory and the one for a file. The comparison
does not look at the block. -/
def examine (s : Super) (after : Memory) (file : CString) (nameAt space : Nat) (nindex : Int)
    (idx : Index) : Act (Host σ τ) Bool :=
  if ne idx = 0 ∧ file.len ≤ space then return accepts after file nameAt idx
  else do
    longName W s nameAt space nindex idx
    return accepts after file nameAt idx

def findLoop (s : Super) (after : Memory) (file : CString) (nindex : Int) (idx : Index)
    (seen : List (Nat × Index)) : Act (Host σ τ) Found :=
  if 0 < nindex then do
    let idx ← onFiles (onCache (readIndex s (word nindex)))
    let seen := seen ++ [(word nindex, idx)]
    if etype idx = iatDirEnt then do
      let ret ← examine W s after file 10 54 (nindex - (ne idx + 1)) idx
      if ret then return ⟨1, idx, seen⟩
      else findLoop s after file (nindex - (ne idx + 1)) idx seen
    else if etype idx = iatFileEnt then do
      let ret ← examine W s after file 34 30 (nindex - (ne idx + 1)) idx
      if ret then return ⟨1, idx, seen⟩
      else findLoop s after file (nindex - (ne idx + 1)) idx seen
    else return ⟨0, idx, seen⟩
  else return ⟨0, idx, seen⟩
termination_by nindex.toNat

def sfsFindIndex (s : Super) (after : Memory) (file : CString) (idx : Index) :
    Act (Host σ τ) Found :=
  findLoop W s after file (int32 (u32 (s.iaNum + 4294967295))) idx []

/-- The name that a slot still has is given back. -/
def freeName (name : Nat) : Act (Host σ τ) Unit :=
  if name ≠ 0 then onHeap (Heap.kfree W name) else pure ()

/-- `search_index` with the slot `i`. -/
def keep (i : Fin 32) (name : CString) (idx : Index) : Act (Host σ τ) (Option (Fin 32)) := do
  let old ← Act.gets fun k => k.names i
  freeName W old
  let p ← onHeap (Heap.kmalloc W (name.len + 1))
  Act.modify fun k => { k with names := Function.update k.names i p }
  if p = 0 then return none
  else do
    onHeap (Heap.storeBytes W p (name.chars ++ [0]))
    onFiles (Act.modify fun f =>
      { f with ibuf := Function.update f.ibuf i ⟨sfsInodeInuse, some name, idx⟩ })
    return some i

def searchIndex (fr : Frame) (name : CString) : Act (Host σ τ) (Option (Fin 32)) := do
  let s ← onFiles (Act.gets fun f => f.super)
  let found ← sfsFindIndex W s fr.after name fr.idx
  if found.ret ≠ 0 then
    match ← onFiles ibufAlloc with
    | none => return none
    | some i => keep W i name found.idx
  else return none

def sfsNamei (fr : Frame) (name : CString) : Act (Host σ τ) (Option (Fin 32)) :=
  searchIndex W fr name

/-- `sfs_open` behind the call of `sfs_namei`. -/
def openInode [DecidableEq τ] (t : τ) (pathname : CString) (flags : Nat)
    (inp : Option (Fin 32)) : Act (Files τ) Int := do
  let inp := inp.orElse fun _ => if flags &&& oCreat ≠ 0 then sfsCreate pathname flags else none
  match inp with
  | none => return -1
  | some inp =>
      match ← Act.gets fun f => (List.finRange 16).find? fun i => (f.ofile t i).isNone with
      | none => return -1
      | some fd =>
          match ← fdAlloc with
          | none => return -1
          | some fdp =>
              Act.modify fun f => { f with
                fdtable := Function.update f.fdtable fdp
                  ⟨0, 0, flags, (f.fdtable fdp).count, 0, some inp⟩
                ofile := Function.update f.ofile t (Function.update (f.ofile t) fd (some fdp)) }
              return fd

/-- `sfs_open` by the task `t`. -/
def sfsOpen [DecidableEq τ] (t : τ) (fr : Frame) (pathname : CString) (flags : Nat) :
    Act (Host σ τ) Int := do
  let inp ← sfsNamei W fr pathname
  onFiles (openInode t pathname flags inp)

end

theorem onHeap_of_ok {x : Act σ α} {k : Host σ τ} {a : α} {s : σ} (h : x k.heap = .ok (a, s)) :
    onHeap x k = .ok (a, { k with heap := s }) := zoom_eq_ok.2 ⟨s, h, rfl⟩

/-- Without the heap this is the `sfs_open` of the model of the tables. -/
theorem sfsOpen_eq_openInode [DecidableEq τ] (t : τ) (fr : Frame) (pathname : CString)
    (flags : Nat) : Sfs.sfsOpen t fr pathname flags =
      (Sfs.sfsNamei fr pathname >>= openInode t pathname flags) := by
  unfold Sfs.sfsOpen
  congr 1

/-! ### Following the model without the heap -/

/-- From every heap in `I` the action comes to the same as the one without the heap, and
the heap stays in `I`. -/
def Follows (I : σ → Prop) (x : Act (Host σ τ) α) (y : Act (Files τ) α) : Prop :=
  ∀ k, I k.heap →
    match y k.files with
    | .ok (a, f) => ∃ s, x k = .ok (a, { k with files := f, heap := s }) ∧ I s
    | .error e => x k = .error e

section

variable {I : σ → Prop}

theorem follows_pure (a : α) : Follows I (pure a : Act (Host σ τ) α) (pure a) :=
  fun k hk => ⟨k.heap, rfl, hk⟩

theorem follows_onFiles (y : Act (Files τ) α) : Follows I (onFiles y) y := by
  intro k hk
  cases hy : y k.files with
  | error e => simp only [onFiles, Act.zoom, hy]
  | ok r => exact ⟨k.heap, by simp only [onFiles, Act.zoom, hy], hk⟩

theorem Follows.bind {x : Act (Host σ τ) α} {y : Act (Files τ) α} {f : α → Act (Host σ τ) β}
    {g : α → Act (Files τ) β} (hx : Follows I x y) (hf : ∀ a, Follows I (f a) (g a)) :
    Follows I (x >>= f) (y >>= g) := by
  intro k hk
  have h := hx k hk
  cases hy : y k.files with
  | error e =>
      rw [hy] at h
      rw [bind_of_error hy]
      exact bind_of_error h
  | ok r =>
      rw [hy] at h
      obtain ⟨s, hs, hI⟩ := h
      have h' := hf r.1 { k with files := r.2, heap := s } hI
      rw [bind_of_ok hy, bind_of_ok hs]
      exact h'

/-- A step of the heap that stays in `I`. -/
theorem Follows.heap {x : Act σ α} {f : α → Act (Host σ τ) β} {y : Act (Files τ) β}
    (hx : ∀ s, I s → ∃ a s', x s = .ok (a, s') ∧ I s' ∧ Follows I (f a) y) :
    Follows I (onHeap x >>= f) y := by
  intro k hk
  obtain ⟨a, s', hs, hI, hf⟩ := hx k.heap hk
  rw [bind_of_ok (onHeap_of_ok hs)]
  exact hf { k with heap := s' } hI

end

theorem onCache_pure (a : α) : (onCache (pure a) : Act (Files τ) α) = pure a := rfl

theorem onCache_bind (x : Act Cache α) (f : α → Act Cache β) :
    (onCache (x >>= f) : Act (Files τ) β) = onCache x >>= fun a => onCache (f a) := by
  funext k
  cases hx : x k.cache with
  | error e =>
      have hl : onCache x k = .error e := by simp only [onCache, Act.zoom, hx]
      rw [bind_of_error hl]
      simp only [onCache, Act.zoom, bind_of_error hx]
  | ok r =>
      have hl : onCache x k = .ok (r.1, { k with cache := r.2 }) :=
        zoom_eq_ok.2 ⟨r.2, hx, rfl⟩
      rw [bind_of_ok hl]
      simp only [onCache, Act.zoom, bind_of_ok hx]

section

variable {W : Heap.Window σ} {A : Abstraction σ Heap.View} {cs : List Heap.Chunk} {u : Heap.View}

/-- The heap is as it was in the view `u`. -/
def Kept (A : Abstraction σ Heap.View) (cs : List Heap.Chunk) (u : Heap.View) (s : σ) : Prop :=
  A.ok s ∧ Heap.Unchanged cs u (A.view s)

/-- The heap has one more block of `n` bytes than in the view `u`. -/
def Lends (A : Abstraction σ Heap.View) (cs : List Heap.Chunk) (u : Heap.View) (n : Nat)
    (s : σ) : Prop :=
  A.ok s ∧ Heap.Lent cs n u (A.view s)

variable (hW : Heap.Lawful W A) (hu : Heap.Holds u cs)

include hW hu

/-- Bytes that are written to the block. -/
theorem lends_storeBytes {n a : Nat} {s : σ} (h : Lends A cs u n s) (bs : List UInt8)
    (ha : Heap.blockOf n cs ≤ a) (ha' : a + bs.length ≤ Heap.blockOf n cs + n) :
    ∃ x s', Heap.storeBytes W a bs s = .ok (x, s') ∧ Lends A cs u n s' := by
  obtain ⟨x, s', hs, hok, hlent⟩ := h.2.total_storeBytes hW hu bs ha ha' s h.1 rfl
  exact ⟨x, s', hs, hok, hlent⟩

theorem follows_readConts (s : Super) (nindex : Int) (ne : Nat) {n p : Nat}
    (hp : Heap.blockOf n cs ≤ p) (hp' : p + 64 * ne ≤ Heap.blockOf n cs + n)
    (hlt : Heap.blockOf n cs + n < 4294967296) :
    Follows (Lends A cs u n) (readConts W s nindex ne p : Act (Host σ τ) Unit)
      (onCache (Sfs.readConts s nindex ne)) := by
  induction ne generalizing p with
  | zero => exact follows_pure ()
  | succ ne ih =>
      rw [readConts, Sfs.readConts, onCache_bind]
      refine (follows_onFiles _).bind fun idx => Follows.heap fun t ht => ?_
      obtain ⟨x, t', ht', hl⟩ := lends_storeBytes hW hu ht (List.ofFn idx) hp
        (by rw [List.length_ofFn]; omega)
      refine ⟨x, t', ht', hl, ?_⟩
      rw [u32_eq_self (by omega)]
      exact ih (by omega) (by omega)

theorem lends_kmalloc {n : Nat} {s : σ} (h : Kept A cs u s) (hroom : Heap.Room u n)
    (hn : n + 12 < 4294967296) :
    ∃ s', Heap.kmalloc W n s = .ok (Heap.blockOf n cs, s') ∧ Lends A cs u n s' := by
  obtain ⟨p, s', hs, hok, rfl, hlent⟩ := Heap.total_kmalloc_lent hW h.2 hu hroom hn s h.1 rfl
  exact ⟨s', hs, hok, hlent⟩

variable (hR : Heap.Refunds W A) (hroom : ∀ n, n ≤ 16384 → Heap.Room u n)

include hR hroom

/-- The block for a long name is given back. -/
theorem follows_longName (s : Super) (nindex : Int) (idx : Index) {nameAt space : Nat}
    (hspace : space < 64) :
    Follows (Kept A cs u) (longName W s nameAt space nindex idx : Act (Host σ τ) Unit)
      (onCache (Sfs.readConts s nindex (ne idx))) := by
  have hne : ne idx < 256 := (idx 1).toNat_lt
  intro k hk
  obtain ⟨s₁, hmalloc, hlent⟩ := lends_kmalloc hW hu hk
    (hroom ((ne idx + 1) * 64) (by omega)) (by omega)
  obtain ⟨hpos, hend⟩ := hlent.2.bounds
  have hen : Heap.heapEnd = 0xFFBFF000 := rfl
  have hlen : (nameBytes idx nameAt space).length = space + 1 := by simp [nameBytes]
  obtain ⟨x, s₂, hstore, hlent₂⟩ := lends_storeBytes hW hu hlent (nameBytes idx nameAt space)
    (Nat.le_refl _) (by rw [hlen]; omega)
  have hconts := follows_readConts hW hu s nindex (ne idx) (n := (ne idx + 1) * 64)
    (p := Heap.blockOf ((ne idx + 1) * 64) cs + space) (by omega) (by omega) (by omega)
    { k with heap := s₂ } hlent₂
  have hrun : longName W s nameAt space nindex idx k =
      (readConts W s nindex (ne idx) (Heap.blockOf ((ne idx + 1) * 64) cs + space) >>= fun _ =>
        onHeap (Heap.kfree W (Heap.blockOf ((ne idx + 1) * 64) cs))) { k with heap := s₂ } := by
    rw [longName, bind_of_ok (onHeap_of_ok hmalloc), if_neg (by omega),
      bind_of_ok (onHeap_of_ok (k := { k with heap := s₁ }) hstore), u32_eq_self (by omega)]
  rw [hrun]
  cases hy : onCache (Sfs.readConts s nindex (ne idx)) k.files with
  | error e =>
      rw [hy] at hconts
      exact bind_of_error hconts
  | ok r =>
      rw [hy] at hconts
      obtain ⟨s₃, h₃, hlent₃⟩ := hconts
      obtain ⟨y, s₄, hfree, hok, hkept⟩ := hlent₃.2.total_kfree hW hR hu s₃ hlent₃.1 rfl
      refine ⟨s₄, ?_, hok, hkept⟩
      rw [bind_of_ok h₃]
      exact onHeap_of_ok hfree

theorem follows_examine (s : Super) (after : Memory) (file : CString) (nindex : Int)
    (idx : Index) {nameAt space : Nat} (hspace : space < 64) :
    Follows (Kept A cs u) (examine W s after file nameAt space nindex idx : Act (Host σ τ) Bool)
      (onCache (Sfs.examine s after file nameAt space nindex idx)) := by
  rw [examine, Sfs.examine]
  by_cases h : ne idx = 0 ∧ file.len ≤ space
  · rw [if_pos h, if_pos h]
    exact follows_pure _
  · rw [if_neg h, if_neg h, onCache_bind]
    exact (follows_longName hW hu hR hroom s nindex idx hspace).bind fun _ => follows_pure _

theorem follows_findLoop (s : Super) (after : Memory) (file : CString) (nindex : Int)
    (idx : Index) (seen : List (Nat × Index)) :
    Follows (Kept A cs u) (findLoop W s after file nindex idx seen : Act (Host σ τ) Found)
      (onCache (Sfs.findLoop s after file nindex idx seen)) := by
  -- every turn of the loop passes at least one entry
  induction hn : nindex.toNat using Nat.strong_induction_on generalizing nindex idx seen with
  | _ n ih =>
      rw [findLoop, Sfs.findLoop]
      split
      case isFalse => exact follows_pure _
      case isTrue hpos =>
        rw [onCache_bind]
        refine (follows_onFiles _).bind fun idx => ?_
        have hnext : ∀ seen, Follows (Kept A cs u)
            (findLoop W s after file (nindex - (ne idx + 1)) idx seen : Act (Host σ τ) Found)
            (onCache (Sfs.findLoop s after file (nindex - (ne idx + 1)) idx seen)) :=
          fun seen => ih _ (by omega) _ _ _ rfl
        simp only
        split
        · rw [onCache_bind]
          refine (follows_examine hW hu hR hroom s after file _ idx (by decide)).bind fun ret => ?_
          split
          · exact follows_pure _
          · exact hnext _
        · split
          · rw [onCache_bind]
            refine (follows_examine hW hu hR hroom s after file _ idx (by decide)).bind
              fun ret => ?_
            split
            · exact follows_pure _
            · exact hnext _
          · exact follows_pure _

end

/-! ### The lookup -/

section

variable {W : Heap.Window σ} {A : Abstraction σ Heap.View} {cs : List Heap.Chunk}
  {k : Host σ τ} {v : Disk} {fr : Frame} {path : CString}

/-- What a lookup needs: a heap and a cache that are in order, pages for the names, and
no name in a free slot of the table. -/
structure Ready (A : Abstraction σ Heap.View) (cs : List Heap.Chunk) (v : Disk) (path : CString)
    (k : Host σ τ) : Prop where
  heap : A.ok k.heap
  holds : Heap.Holds (A.view k.heap) cs
  room : ∀ n, n ≤ 16384 ∨ n = path.len + 1 → Heap.Room (A.view k.heap) n
  cache : (confined sfsDev).ok k.files.cache
  view : (confined sfsDev).view k.files.cache = v
  names : ∀ i, (k.files.ibuf i).flags = 0 → k.names i = 0

/-- The host after a lookup that has changed the cache and what is free of the heap. -/
def Looked (A : Abstraction σ Heap.View) (cs : List Heap.Chunk) (k k' : Host σ τ) : Prop :=
  ∃ c s, k' = { k with files := { k.files with cache := c }, heap := s } ∧
    Kept A cs (A.view k.heap) s

/-- What `search_index` does after the search of the index. -/
theorem sfsNamei_found {k₁ : Host σ τ} {r : Found}
    (hf : sfsFindIndex W k.files.super fr.after path fr.idx k = .ok (r, k₁)) :
    sfsNamei W fr path k = (if r.ret ≠ 0 then do
        match ← onFiles ibufAlloc with
        | none => return none
        | some i => keep W i path r.idx
      else return none : Act (Host σ τ) _) k₁ := by
  have hsuper : onFiles (Act.gets fun f : Files τ => f.super) k = .ok (k.files.super, k) := rfl
  rw [sfsNamei, searchIndex, bind_of_ok hsuper, bind_of_ok hf]

/-- Taking a slot without a name. -/
theorem keep_eq {i : Fin 32} (idx : Index) {p : Nat} {s₁ s₂ : σ} (hname : k.names i = 0)
    (hmalloc : Heap.kmalloc W (path.len + 1) k.heap = .ok (p, s₁)) (hp : p ≠ 0)
    (hstore : Heap.storeBytes W p (path.chars ++ [0]) s₁ = .ok ((), s₂)) :
    keep W i path idx k = .ok (some i, {
      files := { k.files with
        ibuf := Function.update k.files.ibuf i ⟨sfsInodeInuse, some path, idx⟩ }
      names := Function.update k.names i p
      heap := s₂ }) := by
  have hold : Act.gets (fun k : Host σ τ => k.names i) k = .ok (0, k) :=
    gets_eq_ok.2 ⟨hname, rfl⟩
  rw [keep, bind_of_ok hold, freeName, if_neg (not_not.2 rfl)]
  refine (bind_of_ok (pure_eq_ok.2 ⟨rfl, rfl⟩)).trans ?_
  rw [bind_of_ok (onHeap_of_ok hmalloc)]
  refine (bind_of_ok (modify_eq_ok (u := ()) |>.2 rfl)).trans ?_
  rw [if_neg hp]
  refine (bind_of_ok (onHeap_of_ok hstore)).trans ?_
  rfl

variable (hW : Heap.Lawful W A) (hR : Heap.Refunds W A) (h : Ready A cs v path k)

include hW hR h

theorem sfsFindIndex_reads (after : Memory) (idx : Index) :
    match outcome (Sfs.sfsFindIndex k.files.super after path idx) (bootCache v) with
    | .ok r => ∃ k', sfsFindIndex W k.files.super after path idx k = .ok (r, k') ∧ Looked A cs k k'
    | .error e => sfsFindIndex W k.files.super after path idx k = .error e := by
  have hfollow := follows_findLoop hW h.holds hR (fun n hn => h.room n (Or.inl hn)) k.files.super
    after path (int32 (u32 (k.files.super.iaNum + 4294967295))) idx [] k
    ⟨h.heap, Heap.Unchanged.refl h.holds⟩
  have hread := onCache_reads h.cache h.view
    (steady_sfsFindIndex (s := k.files.super) after path idx)
  cases ho : outcome (Sfs.sfsFindIndex k.files.super after path idx) (bootCache v) with
  | error e =>
      rw [ho] at hread
      rw [← Sfs.sfsFindIndex, hread] at hfollow
      exact hfollow
  | ok r =>
      rw [ho] at hread
      obtain ⟨c, hc, -, -⟩ := hread
      rw [← Sfs.sfsFindIndex, hc] at hfollow
      obtain ⟨s, hs, hkept⟩ := hfollow
      exact ⟨_, hs, c, s, rfl, hkept⟩

theorem sfsNamei_stops {e : Stop} (him : onImage v k.files.super fr path = .error e) :
    sfsNamei W fr path k = .error e := by
  have hsuper : onFiles (Act.gets fun f : Files τ => f.super) k = .ok (k.files.super, k) := rfl
  have hread := sfsFindIndex_reads hW hR h fr.after fr.idx
  cases ho : outcome (Sfs.sfsFindIndex k.files.super fr.after path fr.idx) (bootCache v) with
  | error e' =>
      rw [ho] at hread
      rw [onImage, ho] at him
      cases him
      rw [sfsNamei, searchIndex, bind_of_ok hsuper]
      exact bind_of_error hread
  | ok r =>
      rw [onImage, ho] at him
      cases him

/-- A lookup that finds nothing changes nothing but the cache. -/
theorem sfsNamei_absent (him : onImage v k.files.super fr path = .ok none) :
    ∃ k', sfsNamei W fr path k = .ok (none, k') ∧ Looked A cs k k' := by
  have hread := sfsFindIndex_reads hW hR h fr.after fr.idx
  cases ho : outcome (Sfs.sfsFindIndex k.files.super fr.after path fr.idx) (bootCache v) with
  | error e =>
      rw [onImage, ho] at him
      cases him
  | ok r =>
      rw [ho] at hread
      obtain ⟨k₁, hk₁, hlook⟩ := hread
      have hret : ¬ r.ret ≠ 0 := by
        intro hne
        rw [onImage, ho] at him
        simp only [Except.map, if_pos hne] at him
        cases him
      refine ⟨k₁, ?_, hlook⟩
      rw [sfsNamei_found hk₁, if_neg hret]
      rfl

/-- A lookup that finds its path goes on with the table. -/
theorem sfsNamei_hit {idx : Index} (him : onImage v k.files.super fr path = .ok (some idx)) :
    ∃ k₁, Looked A cs k k₁ ∧ sfsNamei W fr path k =
      match (List.finRange 32).find? fun i => (k.files.ibuf i).flags = 0 with
      | none => .ok (none, k₁)
      | some i => keep W i path idx k₁ := by
  have hread := sfsFindIndex_reads hW hR h fr.after fr.idx
  cases ho : outcome (Sfs.sfsFindIndex k.files.super fr.after path fr.idx) (bootCache v) with
  | error e =>
      rw [onImage, ho] at him
      cases him
  | ok r =>
      rw [ho] at hread
      obtain ⟨k₁, hk₁, hlook⟩ := hread
      have hret : r.ret ≠ 0 ∧ r.idx = idx := by
        rw [onImage, ho] at him
        by_cases hne : r.ret ≠ 0
        · simp only [Except.map, if_pos hne, Except.ok.injEq, Option.some.injEq] at him
          exact ⟨hne, him⟩
        · simp only [Except.map, if_neg hne] at him
          cases him
      refine ⟨k₁, hlook, ?_⟩
      have halloc : onFiles ibufAlloc k₁ =
          .ok ((List.finRange 32).find? fun i => (k.files.ibuf i).flags = 0, k₁) := by
        obtain ⟨c, s, rfl, -⟩ := hlook
        exact zoom_eq_ok.2 ⟨_, rfl, rfl⟩
      rw [sfsNamei_found hk₁, if_pos hret.1, bind_of_ok halloc, hret.2]
      cases (List.finRange 32).find? fun i => (k.files.ibuf i).flags = 0 with
      | none => rfl
      | some i => rfl

theorem sfsNamei_full {idx : Index} (him : onImage v k.files.super fr path = .ok (some idx))
    (hfull : ∀ i, (k.files.ibuf i).flags ≠ 0) :
    ∃ k', sfsNamei W fr path k = .ok (none, k') ∧ Looked A cs k k' := by
  obtain ⟨k₁, hlook, hrun⟩ := sfsNamei_hit hW hR h him
  have hnone : ((List.finRange 32).find? fun i => (k.files.ibuf i).flags = 0) = none :=
    List.find?_eq_none.2 fun i _ => by simpa using hfull i
  rw [hnone] at hrun
  exact ⟨k₁, hrun, hlook⟩

/-- A lookup that finds its path and a free slot takes the slot, and a block for the
name. -/
theorem sfsNamei_takes {idx : Index} (him : onImage v k.files.super fr path = .ok (some idx))
    (hfree : ∃ i, (k.files.ibuf i).flags = 0) :
    ∃ i k', (k.files.ibuf i).flags = 0 ∧ sfsNamei W fr path k = .ok (some i, k') ∧
      (k'.files.ibuf i).flags = sfsInodeInuse ∧ k'.files.ofile = k.files.ofile ∧
      k'.files.fdtable = k.files.fdtable ∧
      Lends A cs (A.view k.heap) (path.len + 1) k'.heap := by
  obtain ⟨k₁, ⟨c, s, rfl, hkept⟩, hrun⟩ := sfsNamei_hit hW hR h him
  obtain ⟨j, hj⟩ := hfree
  obtain ⟨i, hi⟩ := Option.isSome_iff_exists.1
    (List.find?_isSome.2 ⟨j, List.mem_finRange j, decide_eq_true hj⟩ :
      ((List.finRange 32).find? fun i => (k.files.ibuf i).flags = 0).isSome = true)
  have hflag : (k.files.ibuf i).flags = 0 := by simpa using List.find?_some hi
  rw [hi] at hrun
  simp only at hrun
  have hlen := path.len_lt
  obtain ⟨s₁, hmalloc, hlent⟩ := lends_kmalloc hW h.holds hkept
    (h.room (path.len + 1) (Or.inr rfl)) (by omega)
  have hpos := hlent.2.bounds.1
  obtain ⟨x, s₂, hstore, hlent₂⟩ := lends_storeBytes hW h.holds hlent (path.chars ++ [0])
    (Nat.le_refl _) (by simp)
  have hkeep := keep_eq idx
    (k := { k with files := { k.files with cache := c }, heap := s }) (h.names i hflag) hmalloc
    (by omega) hstore
  refine ⟨i, _, hflag, hrun.trans hkeep, ?_, rfl, rfl, hlent₂⟩
  simp

end

/-! ### The rest of the call -/

section

variable [DecidableEq τ] {t : τ} {f : Files τ} (pathname : CString) (flags : Nat) (inp : Fin 32)

/-- There is a free entry in `ofile` and one in `fdtable`. -/
def Vacant (t : τ) (f : Files τ) : Prop :=
  (∃ i, f.ofile t i = none) ∧ ∃ i, (f.fdtable i).count = 0

theorem openInode_none : openInode t pathname flags none f = .ok (-1, f) := by
  have hcreate : (Option.orElse (none : Option (Fin 32)) fun _ =>
      if flags &&& oCreat ≠ 0 then sfsCreate pathname flags else none) = none := by
    rw [sfsCreate, ite_self]
    rfl
  rw [openInode, hcreate]
  rfl

/-- The search of `sfs_open` in `ofile`. -/
def freeFd (t : τ) (f : Files τ) : Option (Fin 16) :=
  (List.finRange 16).find? fun i => (f.ofile t i).isNone

/-- The search of `fd_alloc`. -/
def freeDesc (f : Files τ) : Option (Fin 64) :=
  (List.finRange 64).find? fun i => (f.fdtable i).count = 0

omit [DecidableEq τ] in
theorem vacant_iff : Vacant t f ↔ (∃ fd, freeFd t f = some fd) ∧ ∃ fdp, freeDesc f = some fdp := by
  rw [← Option.isSome_iff_exists, ← Option.isSome_iff_exists, freeFd, freeDesc, List.find?_isSome,
    List.find?_isSome]
  simp [Vacant]

theorem openInode_of_fd {fd : Fin 16} (hfd : freeFd t f = some fd) :
    openInode t pathname flags (some inp) f = (fdAlloc >>= fun
      | none => return -1
      | some fdp => do
          Act.modify fun f => { f with
            fdtable := Function.update f.fdtable fdp
              ⟨0, 0, flags, (f.fdtable fdp).count, 0, some inp⟩
            ofile := Function.update f.ofile t (Function.update (f.ofile t) fd (some fdp)) }
          return (fd : Int)) f := by
  rw [openInode]
  refine (bind_of_ok (gets_eq_ok.2 ⟨hfd, rfl⟩)).trans ?_
  rfl

/-- Without a free entry in both tables an inode is not opened, and nothing changes. -/
theorem openInode_fails (h : ¬ Vacant t f) :
    openInode t pathname flags (some inp) f = .ok (-1, f) := by
  rw [vacant_iff] at h
  cases hfd : freeFd t f with
  | none =>
      rw [openInode]
      refine (bind_of_ok (gets_eq_ok.2 ⟨hfd, rfl⟩)).trans ?_
      rfl
  | some fd =>
      have hdesc : freeDesc f = none := by
        refine Option.eq_none_iff_forall_ne_some.2 fun fdp hfdp => h ⟨⟨fd, hfd⟩, fdp, hfdp⟩
      have halloc : fdAlloc f = .ok (none, f) := by
        rw [fdAlloc]
        exact bind_of_ok (gets_eq_ok.2 ⟨hdesc, rfl⟩)
      rw [openInode_of_fd pathname flags inp hfd]
      exact bind_of_ok halloc

/-- With a free entry in both tables it is opened. -/
theorem openInode_opens (h : Vacant t f) :
    ∃ fd f', openInode t pathname flags (some inp) f = .ok (fd, f') ∧ 0 ≤ fd := by
  obtain ⟨⟨fd, hfd⟩, fdp, hfdp⟩ := vacant_iff.1 h
  obtain ⟨f₁, halloc⟩ : ∃ f₁, fdAlloc f = .ok (some fdp, f₁) := by
    rw [fdAlloc]
    exact ⟨_, bind_of_ok (gets_eq_ok.2 ⟨hfdp, rfl⟩)⟩
  have hrun := openInode_of_fd pathname flags inp hfd
  rw [bind_of_ok halloc] at hrun
  exact ⟨fd, _, hrun, Int.natCast_nonneg fd.1⟩

end

/-- The inode table, the descriptor table, the open files and the heap are as they
were. -/
structure Same (A : Abstraction σ Heap.View) (cs : List Heap.Chunk) (k k' : Host σ τ) : Prop where
  ibuf : k'.files.ibuf = k.files.ibuf
  names : k'.names = k.names
  fdtable : k'.files.fdtable = k.files.fdtable
  ofile : k'.files.ofile = k.files.ofile
  heap : Heap.Unchanged cs (A.view k.heap) (A.view k'.heap)

theorem Looked.same {A : Abstraction σ Heap.View} {cs : List Heap.Chunk} {k k' : Host σ τ}
    (h : Looked A cs k k') : Same A cs k k' := by
  obtain ⟨c, s, rfl, -, hheap⟩ := h
  exact ⟨rfl, rfl, rfl, rfl, hheap⟩

section

variable [DecidableEq τ] {W : Heap.Window σ} {A : Abstraction σ Heap.View} {cs : List Heap.Chunk}
  {k : Host σ τ} {v : Disk} {fr : Frame} {pathname : CString} (t : τ) (flags : Nat)

/-- A call whose lookup gives no inode. -/
theorem sfsOpen_of_none {k₁ : Host σ τ} (h : sfsNamei W fr pathname k = .ok (none, k₁)) :
    sfsOpen W t fr pathname flags k = .ok (-1, k₁) := by
  rw [sfsOpen, bind_of_ok h]
  exact zoom_eq_ok.2 ⟨k₁.files, openInode_none pathname flags, rfl⟩

/-- A call whose lookup gives an inode that there is no entry for. -/
theorem sfsOpen_of_some {k₁ : Host σ τ} {i : Fin 32}
    (h : sfsNamei W fr pathname k = .ok (some i, k₁)) (hv : ¬ Vacant t k₁.files) :
    sfsOpen W t fr pathname flags k = .ok (-1, k₁) := by
  rw [sfsOpen, bind_of_ok h]
  exact zoom_eq_ok.2 ⟨k₁.files, openInode_fails pathname flags i hv, rfl⟩

/-- A call that fails leaves everything as it was if and only if it does not come to an
inode, or there is a free entry for it in both tables, so that it does not fail. -/
theorem sfsOpen_atomic_iff (hW : Heap.Lawful W A) (hR : Heap.Refunds W A)
    (h : Ready A cs v pathname k) :
    (∀ k', sfsOpen W t fr pathname flags k = .ok (-1, k') → Same A cs k k') ↔
      (finds v k.files.super fr pathname = true → (∃ i, (k.files.ibuf i).flags = 0) →
        Vacant t k.files) := by
  cases him : onImage v k.files.super fr pathname with
  | error e =>
      have hfinds : finds v k.files.super fr pathname = false := by
        rw [finds, him]
        rfl
      have hstop : sfsOpen W t fr pathname flags k = .error e := by
        rw [sfsOpen]
        exact bind_of_error (sfsNamei_stops hW hR h him)
      simp [hfinds, hstop]
  | ok o =>
      cases o with
      | none =>
          have hfinds : finds v k.files.super fr pathname = false := by
            rw [finds, him]
            rfl
          obtain ⟨k₁, hnamei, hlook⟩ := sfsNamei_absent hW hR h him
          rw [sfsOpen_of_none _ _ hnamei]
          simp only [hfinds, Bool.false_eq_true, false_imp_iff, iff_true]
          rintro k' ⟨⟩
          exact hlook.same
      | some idx =>
          have hfinds : finds v k.files.super fr pathname = true := by
            rw [finds, him]
            rfl
          by_cases hfree : ∃ i, (k.files.ibuf i).flags = 0
          · obtain ⟨i, k₁, hflag, hnamei, hinuse, hofile, hfdtable, -⟩ :=
              sfsNamei_takes hW hR h him hfree
            have hvacant : Vacant t k₁.files ↔ Vacant t k.files := by
              rw [Vacant, Vacant, hofile, hfdtable]
            simp only [hfinds, hfree, true_imp_iff]
            by_cases hv : Vacant t k.files
            · -- the call does not fail
              obtain ⟨fd, f', hopen, hpos⟩ :=
                openInode_opens pathname flags i (hvacant.2 hv)
              simp only [hv, iff_true]
              intro k' hk'
              rw [sfsOpen, bind_of_ok hnamei,
                show onFiles _ k₁ = .ok (fd, { k₁ with files := f' }) from
                  zoom_eq_ok.2 ⟨f', hopen, rfl⟩] at hk'
              cases hk'
              omega
            · -- the slot stays taken
              have hopen : sfsOpen W t fr pathname flags k = .ok (-1, k₁) :=
                sfsOpen_of_some t flags hnamei fun h => hv (hvacant.1 h)
              simp only [hv, iff_false]
              intro hall
              have hsame := (hall k₁ hopen).ibuf
              rw [hsame, hflag] at hinuse
              cases hinuse
          · obtain ⟨k₁, hnamei, hlook⟩ := sfsNamei_full hW hR h him fun i hi => hfree ⟨i, hi⟩
            rw [sfsOpen_of_none _ _ hnamei]
            simp only [hfree, false_imp_iff, implies_true, iff_true]
            rintro k' ⟨⟩
            exact hlook.same

end

/-- A task with an empty heap. -/
def freshHeap : Heap.Flat := ⟨fun _ => 0, Heap.heapStart, 0⟩

theorem freshHeap_empty : Heap.Empty (Heap.flatPages.view freshHeap) := ⟨rfl, rfl⟩

theorem freshHeap_room {n : Nat} (hn : n ≤ 16384) :
    Heap.Room (Heap.flatPages.view freshHeap) n := by
  intro cs hcs
  have hst : Heap.heapStart = 0xD0000000 := rfl
  have hen : Heap.heapEnd = 0xFFBFF000 := rfl
  have htop : (Heap.flatPages.view freshHeap).top = Heap.heapStart := rfl
  have havail : (Heap.flatPages.view freshHeap).avail = 391166 := by decide
  rw [hcs.eq_nil freshHeap_empty, u32_eq_self (by omega), htop, havail]
  refine ⟨Or.inr (by simp only [Heap.total_nil]; omega), ?_⟩
  simp only [Heap.malloc, Heap.total_cons, Heap.total_nil, Heap.pageUp]
  omega

theorem freshHeap_ready {v : Disk} {f : Files Unit} (path : CString) (hm : Mounted v f)
    (hlen : path.len < 16384) (ibuf : Fin 32 → Inode) (ofile : Unit → Fin 16 → Option (Fin 64)) :
    Ready Heap.flatPages [] v path
      ⟨{ f with ibuf := ibuf, ofile := ofile }, fun _ => 0, freshHeap⟩ where
  heap := show Heap.heapStart ≤ Heap.heapEnd by decide
  holds := freshHeap_empty.holds
  room n hn := freshHeap_room (by omega)
  cache := hm.ok
  view := hm.view
  names _ _ := rfl

/-- A table of inodes that are all in use. -/
def fullIbuf : Fin 32 → Inode := fun _ => ⟨sfsInodeInuse, none, fun _ => 0⟩

/-- The image with the file `ab`, as the host sees it. -/
theorem tiny_mounted :
    ∃ mk v idx, mkSfs 4 [tiny] = some mk ∧ Mounted v (tinyFiles mk) ∧
      onImage v (tinyFiles mk).super blank nameAb = .ok (some idx) := by
  obtain ⟨mk, idx, hmk, hmount, him, -⟩ := tiny_onImage
  refine ⟨mk, imageDisk 4 mk.img, idx, hmk, hmount, ?_⟩
  rw [tinyFiles]
  exact him

/-- With a full table of inodes the call fails and nothing has changed. -/
theorem fullIbuf_atomic :
    ∃ mk k', mkSfs 4 [tiny] = some mk ∧
      sfsOpen Heap.flat () blank nameAb 0
        ⟨{ tinyFiles mk with ibuf := fullIbuf }, fun _ => 0, freshHeap⟩ = .ok (-1, k') ∧
      Same Heap.flatPages [] ⟨{ tinyFiles mk with ibuf := fullIbuf }, fun _ => 0, freshHeap⟩ k' := by
  obtain ⟨mk, v, idx, hmk, hmount, him⟩ := tiny_mounted
  refine ⟨mk, ?_⟩
  generalize tinyFiles mk = f at hmount him ⊢
  have hready := freshHeap_ready nameAb hmount (by decide) fullIbuf f.ofile
  obtain ⟨k₁, hnamei, -⟩ := sfsNamei_full Heap.flatPages_lawful Heap.flatPages_refunds hready him
    fun i => show sfsInodeInuse ≠ 0 by decide
  refine ⟨k₁, hmk, sfsOpen_of_none _ _ hnamei, ?_⟩
  exact (sfsOpen_atomic_iff () 0 Heap.flatPages_lawful Heap.flatPages_refunds hready).2
    (fun _ ⟨i, hi⟩ => absurd hi (show sfsInodeInuse ≠ 0 by decide)) k₁ (sfsOpen_of_none _ _ hnamei)

/-- When all entries of `ofile` are in use the call fails, and has taken a slot of the
table of inodes and a block of the heap. -/
theorem fullOfile_leaks :
    ∃ mk k', mkSfs 4 [tiny] = some mk ∧
      sfsOpen Heap.flat () blank nameAb 0
        ⟨{ tinyFiles mk with ofile := fun _ _ => some 0 }, fun _ => 0, freshHeap⟩ = .ok (-1, k') ∧
      (∃ i, ((tinyFiles mk).ibuf i).flags = 0 ∧ (k'.files.ibuf i).flags = sfsInodeInuse) ∧
      Heap.Holds (Heap.flatPages.view k'.heap) [⟨15, false⟩] := by
  obtain ⟨mk, v, idx, hmk, hmount, him⟩ := tiny_mounted
  have hempty : ∃ i, ((tinyFiles mk).ibuf i).flags = 0 := ⟨0, hmount.ibuf 0⟩
  refine ⟨mk, ?_⟩
  generalize tinyFiles mk = f at hmount him hempty ⊢
  have hready := freshHeap_ready nameAb hmount (by decide) f.ibuf fun _ _ => some 0
  obtain ⟨i, k₁, hflag, hnamei, hinuse, hofile, -, hlent⟩ :=
    sfsNamei_takes Heap.flatPages_lawful Heap.flatPages_refunds hready him hempty
  have hfull : ¬ Vacant () k₁.files := by
    rintro ⟨⟨j, hj⟩, -⟩
    rw [hofile] at hj
    cases hj
  have hlayout : Heap.malloc (nameAb.len + 1 + 12) [] = [⟨15, false⟩] := rfl
  have hholds := hlent.2.holds
  rw [hlayout] at hholds
  exact ⟨k₁, hmk, sfsOpen_of_some _ _ hnamei hfull, ⟨i, hflag, hinuse⟩, hholds⟩

end OnHeap

end Sfs

end Chunix
