import Chunix.Sfs.RoundTrip

/-!
# Records that both sides describe

The tool and the kernel have their own declarations of the superblock and of the
entries of the index. Those of the superblock agree, so that the kernel finds in it
what the tool has put there. Those of a directory do not: the tool gives it the layout
of a file, with the name at the offset `34`, and the kernel looks for the name at the
offset `10`.
-/

namespace Chunix

namespace Sfs

open Machine Act Fs

section

variable {nblk : Nat}

/-- The superblock that `init_sb` and `update_sb` leave is accepted by `check_sfs`, with a
checksum of zero, and `obtain_sb_info` recovers the numbers from it. What the tool does
between the two may change everything behind the first block. -/
theorem superblock_roundTrip (hn : nblk < 4294967296) {mk mk' : Mk}
    (hkept : ∀ x, x < 512 → mk'.img x = (initSb nblk mk).img x) (hda : mk'.daBlocks < 4294967296)
    (hia : mk'.iaNum * 64 < 4294967296) {d : Disk} (hd : 0 < d.size)
    (hblk : d.sector 0 = slice 512 (updateSb mk').img 0) :
    calcChecksum (extend (d.sector 0) zeros) = 0 ∧
      obtainSbInfo (extend (d.sector 0) zeros) = ⟨nblk, 1, mk'.daBlocks, mk'.iaNum, 2⟩ ∧
      Gives (quietly sfsDev) d checkSfs
        ⟨0, some ⟨nblk, 1, mk'.daBlocks, mk'.iaNum, 2⟩⟩ d := by
  have hin : ∀ x, x < 512 → extend (d.sector 0) zeros x =
      setAreas mk'.img mk'.daBlocks (mk'.iaNum * 64) x := by
    intro x hx
    rw [hblk, extend_slice hx, updateSb, u32_eq_self hia]
    exact paste_apply_add hx
  have hsuper : ∀ x, 428 ≤ x → x < 512 → extend (d.sector 0) zeros x = superblock nblk x := by
    intro x hx hx'
    rw [hin x hx', setAreas_apply _ _ _ hx, hkept x hx', initSb]
    exact paste_apply_of_mem ⟨Nat.zero_le _, by simpa [u32] using hx'⟩
  have hdaBlk : getLe (extend (d.sector 0) zeros) 412 8 = mk'.daBlocks := by
    have hread := getLe_setAreas_daBlk mk'.img mk'.daBlocks (mk'.iaNum * 64)
    rw [Nat.mod_eq_of_lt (by omega)] at hread
    exact (getLe_congr fun i hi => hin _ (by omega)).trans hread
  have hiaSize : getLe (extend (d.sector 0) zeros) 420 8 = mk'.iaNum * 64 := by
    have hread := getLe_setAreas_iaSize mk'.img mk'.daBlocks (mk'.iaNum * 64)
    rw [Nat.mod_eq_of_lt (by omega)] at hread
    exact (getLe_congr fun i hi => hin _ (by omega)).trans hread
  obtain ⟨hsum, -, -, hinfo⟩ := checks_of_superblock hn hsuper hdaBlk hiaSize hda hia
  refine ⟨hsum, hinfo, gives_checkSfs_of_superblock hn hd (fun x hx hx' => ?_) hdaBlk hiaSize hda hia⟩
  rw [← hsuper x hx' hx, extend, dif_pos hx]

/-- The tool right after `init_sb`, with the counters of a larger image. -/
def counted (nblk daBlocks iaNum : Nat) : Mk :=
  { initSb nblk ⟨zeros, 0, 0, []⟩ with daBlocks := daBlocks, iaNum := iaNum }

/-- The superblock of a disk with 2880 blocks. -/
theorem superblock_roundTrip_floppy :
    calcChecksum (extend (slice 512 (updateSb (counted 2880 1234 77)).img 0) zeros) = 0 ∧
      obtainSbInfo (extend (slice 512 (updateSb (counted 2880 1234 77)).img 0) zeros) =
        ⟨2880, 1, 1234, 77, 2⟩ := by
  have h := @superblock_roundTrip 2880 (by decide) ⟨zeros, 0, 0, []⟩ (counted 2880 1234 77)
    (fun _ _ => rfl) (by decide) (by decide)
    ⟨fun _ => slice 512 (updateSb (counted 2880 1234 77)).img 0, 2880⟩ (by decide) rfl
  exact ⟨h.1, h.2.1⟩

end

/-- The kernel's `strncpy`: exactly `n` bytes, and a zero byte behind them. -/
def kstrncpy (d s : Memory) (n : Nat) : Memory := Function.update (paste d 0 n s) n 0

/-- The loop of `sfs_find_index` that puts a long name together: the continuation
entries are read to the address `p` of the string and on. -/
def readNameLoop (s : Super) (nindex : Int) : Nat → Nat → Memory → Act Cache Memory
  | 0, _, str => pure str
  | ne + 1, p, str => do
      let idx ← readIndex s (word (nindex + (ne + 1)))
      readNameLoop s nindex ne (p + 64) (paste str p 64 (extend idx zeros))

/-- The string `str` of `sfs_find_index` for an entry with the name at the offset
`nameAt`. The memory that `kmalloc` gives for it holds `heap`. -/
def longName (s : Super) (heap : Memory) (nameAt space : Nat) (nindex : Int) (idx : Index) :
    Act Cache Memory :=
  readNameLoop s nindex (ne idx) space
    (kstrncpy heap (fun i => extend idx zeros (nameAt + i)) space)

/-- The name of the directory with its initial entry at `nindex`. -/
def dirName (s : Super) (heap : Memory) (nindex : Int) : Act Cache Memory := do
  let idx ← readIndex s (word nindex)
  longName s heap 10 54 (nindex - (ne idx + 1)) idx

/-- The model of the search leaves the string out and keeps the reads. -/
theorem readConts_eq (s : Super) (nindex : Int) (k p : Nat) (str : Memory) :
    readConts s nindex k = (do let _ ← readNameLoop s nindex k p str; pure ()) := by
  induction k generalizing p str with
  | zero => rfl
  | succ k ih =>
      funext c
      rw [readConts, readNameLoop]
      cases h : readIndex s (word (nindex + (k + 1))) c with
      | error e => rw [bind_of_error h, bind_of_error (bind_of_error h)]
      | ok r =>
          rw [bind_of_ok h, ih (p + 64) (paste str p 64 (extend r.1 zeros))]
          cases h' : readNameLoop s nindex k (p + 64) (paste str p 64 (extend r.1 zeros)) r.2 with
          | error e => rw [bind_of_error h', bind_of_error ((bind_of_ok h).trans h')]
          | ok r' => rw [bind_of_ok h', bind_of_ok ((bind_of_ok h).trans h')]

/-- The part of `write_file` for a directory. -/
def writeDir (nblk : Nat) (name : CString) (mk : Mk) : Option Mk := do
  let nie := nieFile name.len
  let mk ← incAndVerify nblk .iaNum (nie + 1) mk
  let mk := writeIndex nblk mk.iaNum mark mk
  let mk := writeInitial nblk (mk.iaNum - 1) (entry 0x11 nie 0 0 0 name.text) mk
  return writeConts nblk name nie mk

theorem writeFile_directory {nblk : Nat} {a : Arg} {mk : Mk} (h : a.stat = some .directory) :
    writeFile nblk a mk = writeDir nblk a.name mk := by
  rw [writeFile, h]
  rfl

section

variable {nblk : Nat} {img : Memory} {s : Super} (hn : 512 * nblk < 4294967296)

include hn

theorem writeDir_spec {name : CString} {mk mk' : Mk} (hf : Fits nblk mk.daBlocks mk.iaNum)
    (hlen : name.len ≤ 4095) (h : writeDir nblk name mk = some mk') :
    Fits nblk mk'.daBlocks mk'.iaNum ∧ mk'.iaNum = mk.iaNum + (nieFile name.len + 1) ∧
      Holds nblk mk'.img (mk'.iaNum - 1)
        (slice 64 (entry 0x11 (nieFile name.len) 0 0 0 name.text) 0) := by
  obtain ⟨mk₁, h₁, h⟩ := Option.bind_eq_some_iff.1 h
  obtain ⟨hg, -, hda, hia⟩ := @grown_mark nblk hn ⟨name, none, nofun⟩ mk mk₁ hf hlen h₁
  have hf₁ := hg.fits
  rw [← Option.some_inj.1 h]
  have hia₂ : (writeIndex nblk mk₁.iaNum mark mk₁).iaNum = mk₁.iaNum := iaNum_writeIndex ..
  generalize writeIndex nblk mk₁.iaNum mark mk₁ = mk₂ at *
  have hroom := hf₁
  unfold Fits at hroom
  rw [hia₂, hia] at hroom
  dsimp only at hroom hia
  obtain ⟨-, hda₃, hia₃, -⟩ := @writeInitial_fields nblk (mk₂.iaNum - 1)
    (entry 0x11 (nieFile name.len) 0 0 0 name.text) mk₂ hn (by omega)
  obtain ⟨hda₄, hia₄, -, -⟩ := @writeConts_spec nblk hn name (nieFile name.len)
    (writeInitial nblk (mk₂.iaNum - 1) (entry 0x11 (nieFile name.len) 0 0 0 name.text) mk₂)
    (by omega) (by omega)
  refine ⟨?_, ?_, ?_⟩
  · rw [hda₄, hia₄, hda₃, hia₃]
    exact hf₁
  · rw [hia₄, hia₃, hia₂, hia]
  · rw [hia₄, hia₃]
    exact holds_initial hn name (by omega) (by omega)

/-- The first byte of a name that is read to the string. -/
theorem total_readNameLoop {p k : Nat} {str : Memory} (hs : s.nblk = nblk) {n : Nat}
    (h : n + k < 8 * nblk) (hp : 0 < p) :
    Total (quietly sfsDev) (imageDisk nblk img) (readNameLoop s n k p str) fun r v =>
      v = imageDisk nblk img ∧ r 0 = str 0 := by
  induction k generalizing p str with
  | zero =>
      refine (gives_pure _).mono ?_
      rintro r v ⟨rfl, rfl⟩
      exact ⟨rfl, rfl⟩
  | succ k ih =>
      have hw : word ((n : Int) + (k + 1)) = n + k + 1 := by
        unfold word
        omega
      rw [readNameLoop, hw]
      refine (gives_readIndex hn hs (by omega)).bind ?_
      refine (ih (by omega) (by omega)).mono ?_
      rintro r v ⟨rfl, hr⟩
      exact ⟨rfl, by rw [hr, paste_apply_of_notMem (by omega)]⟩

/-- The first byte of the name that the kernel reads is the one at the offset `10`. -/
theorem total_dirName {n : Nat} {idx : Index} (hholds : Holds nblk img n idx)
    (hne : ne idx + 1 ≤ n) (hlt : n < 8 * nblk) (hs : s.nblk = nblk) (heap : Memory) :
    Total (quietly sfsDev) (imageDisk nblk img) (dirName s heap n) fun str v =>
      v = imageDisk nblk img ∧ str 0 = extend idx zeros 10 := by
  have hword : word (n : Int) = n := by
    unfold word
    omega
  have hnext : (n : Int) - ((ne idx : Int) + 1) = ((n - (ne idx + 1) : Nat) : Int) := by
    omega
  have hread := @gives_readIndex nblk img s n hn hs hlt
  rw [hholds] at hread
  rw [dirName, hword]
  refine hread.bind ?_
  rw [longName, hnext]
  refine (total_readNameLoop hn hs (by omega) (by omega)).mono ?_
  rintro str v ⟨rfl, hstr⟩
  rw [hstr, kstrncpy, Function.update_of_ne (by omega), paste_apply_of_mem (by omega)]
  exact ⟨rfl, rfl⟩

/-- The kernel looks for the name of a directory where the tool has zero bytes, so that only
an empty name comes back. -/
theorem dirName_survives_iff {name : CString} (hlen : name.len ≤ 4095) {mk mk' : Mk}
    (hf : Fits nblk mk.daBlocks mk.iaNum) (hpos : 0 < mk.iaNum)
    (h : writeDir nblk name mk = some mk') (hs : s.nblk = nblk) (heap : Memory) :
    Total (quietly sfsDev) (imageDisk nblk mk'.img) (dirName s heap (mk'.iaNum - 1 : Nat))
      fun str v => v = imageDisk nblk mk'.img ∧
        ((∀ i, i ≤ name.len → str i = name.text i) ↔ name.len = 0) := by
  obtain ⟨hf', hia, hholds⟩ := writeDir_spec hn hf hlen h
  unfold Fits at hf'
  have hnie : nieFile name.len ≤ 64 := by
    unfold nieFile
    omega
  generalize hidx : slice 64 (entry 0x11 (nieFile name.len) 0 0 0 name.text) 0 = idx at hholds
  have hne : ne idx = nieFile name.len := by
    rw [← hidx, ne_entry, Nat.mod_eq_of_lt (by omega)]
  -- The first byte of the name is a byte of `blk_start`.
  have hfirst : extend idx zeros 10 = 0 := by
    rw [← hidx, extend_slice (by omega)]
    simp [entry, strncpy, putLe, paste]
  refine (total_dirName hn hholds (by omega) (by omega) hs heap).mono ?_
  rintro str v ⟨rfl, hstr⟩
  rw [hfirst] at hstr
  refine ⟨rfl, fun hsame => ?_, fun hempty i hi => ?_⟩
  · by_contra hlen
    exact name.nonzero 0 (by omega) (by rw [← hsame 0 (Nat.zero_le _), hstr])
  · obtain rfl : i = 0 := by omega
    rw [hstr, ← hempty, name.terminated]

end

/-- The empty name survives. -/
theorem dirName_survives_empty :
    ∃ mk' str c, writeDir 4 (.ofList [] (by decide) (by simp)) ⟨zeros, 0, 1, []⟩ = some mk' ∧
      dirName ⟨4, 1, 0, 2, 2⟩ zeros (mk'.iaNum - 1 : Nat) (bootCache (imageDisk 4 mk'.img)) =
        .ok (str, c) ∧ str 0 = 0 := by
  obtain ⟨mk', h⟩ : ∃ mk', writeDir 4 (.ofList [] (by decide) (by simp)) ⟨zeros, 0, 1, []⟩ =
      some mk' := ⟨_, rfl⟩
  obtain ⟨hok, hview⟩ := quiet_bootCache sfsDev (imageDisk 4 mk'.img)
  obtain ⟨str, c, hrun, -, -, hiff⟩ := @dirName_survives_iff 4 ⟨4, 1, 0, 2, 2⟩ (by decide)
    (.ofList [] (by decide) (by simp)) (by decide) ⟨zeros, 0, 1, []⟩ mk'
    (by unfold Fits; decide) (by decide) h rfl zeros _ hok hview
  exact ⟨mk', str, c, h, hrun, hiff.2 rfl 0 le_rfl⟩

/-- A directory `doc`. -/
def docs : Arg where
  name := .ofList [0x64, 0x6f, 0x63] (by decide) (by simp)
  stat := some .directory
  accepted := fun _ => by decide

/-- The name of the directory `doc` comes back empty. -/
theorem docs_name_lost :
    ∃ mk str c, mkSfs 4 [docs] = some mk ∧
      dirName (superOf 4 mk) zeros (mk.iaNum - 1 : Nat) (bootCache (imageDisk 4 mk.img)) =
        .ok (str, c) ∧ str 0 = 0 ∧ docs.name.text 0 = 0x64 := by
  have hrun : (mkSfs 4 [docs]).map (fun mk => (mk.iaNum, mk.img (place 4 2 + 1),
      mk.img (place 4 2 + 10))) = some (3, 0, 0) := by
    decide +kernel
  obtain ⟨mk, hmk, hfields⟩ := Option.map_eq_some_iff.1 hrun
  simp only [Prod.mk.injEq] at hfields
  obtain ⟨hia, hne, hname⟩ := hfields
  obtain ⟨hok, hview⟩ := quiet_bootCache sfsDev (imageDisk 4 mk.img)
  have hne' : ne (slice 64 mk.img (place 4 2)) = 0 := by
    rw [ne, slice]
    exact congrArg UInt8.toNat hne
  obtain ⟨str, c, hread, -, -, hstr⟩ := @total_dirName 4 mk.img (superOf 4 mk) (by decide) 2
    (slice 64 mk.img (place 4 2)) rfl (by rw [hne']; decide) (by decide) rfl zeros _ hok hview
  refine ⟨mk, str, c, hmk, by rw [hia]; exact hread, ?_, rfl⟩
  rw [hstr, extend_slice (by decide), hname]

end Sfs

end Chunix
