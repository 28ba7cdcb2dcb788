import Chunix.Sfs.Layout

/-!
# Images that the kernel reads back

The kernel's functions on the image of a finished run of `mk_sfs`. `check_sfs`
accepts the superblock, the loop of `sfs_find_index` comes past the initial entries
in the order opposite to that of their creation, and the loop of `sfs_read_file`
returns the bytes of the host's file.
-/

namespace Chunix

namespace Sfs

open Machine Act Fs

/-- The memory disk with an image of `nblk` blocks. -/
def imageDisk (nblk : Nat) (img : Memory) : Disk := ⟨fun n i => img (512 * n + i), nblk⟩

theorem char_injective {a b : UInt8} (h : char a = char b) : a = b := by
  have ha := a.toNat_lt
  have hb := b.toNat_lt
  unfold char at h
  refine UInt8.toNat_inj.1 ?_
  split at h <;> split at h <;> omega

/-- The kernel's `strncmp` compares all `n` characters. -/
theorem strncmp_eq_zero {s t : Memory} {n : Nat} :
    strncmp s t n = 0 ↔ ∀ i, i < n → s i = t i := by
  induction n generalizing s t with
  | zero => simp [strncmp]
  | succ n ih =>
      rw [strncmp]
      by_cases h : s 0 = t 0
      · rw [if_pos h, ih]
        constructor
        · intro h' i hi
          cases i with
          | zero => exact h
          | succ i => exact h' i (by omega)
        · intro h' i hi
          exact h' (i + 1) (by omega)
      · rw [if_neg h]
        constructor
        · intro h'
          exact absurd (char_injective (by omega)) h
        · intro h'
          exact absurd (h' 0 (by omega)) h

section

variable {nblk : Nat} {img : Memory} {s : Super}

theorem gives_readBlock {n : Nat} (h : n < nblk) :
    Gives (quietly sfsDev) (imageDisk nblk img) (readBlock n) (fun i => img (512 * n + i))
      (imageDisk nblk img) :=
  gives_readSector (by decide) rfl h

theorem gives_readIndex {sec : Nat} (hn : 512 * nblk < 4294967296) (hs : s.nblk = nblk)
    (h : sec < 8 * nblk) :
    Gives (quietly sfsDev) (imageDisk nblk img) (readIndex s sec)
      (slice 64 img (place nblk sec)) (imageDisk nblk img) := by
  have hb : u32 (s.nblk + 4294967296 - sec / 8 - 1) = nblk - sec / 8 - 1 := by
    rw [hs]
    unfold u32
    omega
  have hread := @gives_readSector sfsDev (by decide) rfl (imageDisk nblk img)
    (nblk - sec / 8 - 1) (by simp only [imageDisk]; omega)
  rw [readIndex, hb]
  refine hread.bind ?_
  refine (gives_pure _).mono ?_
  rintro a w ⟨rfl, rfl⟩
  refine ⟨slice_congr fun i hi => ?_, rfl⟩
  rw [extend, dif_pos (by omega)]
  simp only [imageDisk]
  congr 1
  unfold place
  omega

/-- The continuation entries of a walk can be read. -/
theorem gives_readConts (hn : 512 * nblk < 4294967296) (hs : s.nblk = nblk) {p ne : Nat}
    (h : p + ne < 8 * nblk) :
    Gives (quietly sfsDev) (imageDisk nblk img) (readConts s p ne) () (imageDisk nblk img) := by
  induction ne with
  | zero => exact gives_pure ()
  | succ ne ih =>
      have hw : word ((p : Int) + (ne + 1)) = p + ne + 1 := by
        unfold word
        omega
      rw [readConts, hw]
      exact (gives_readIndex hn hs (by omega)).bind (ih (by omega))

theorem gives_examine (hn : 512 * nblk < 4294967296) (hs : s.nblk = nblk) {after : Memory}
    {file : CString} {nameAt space p : Nat} {idx : Index} (h : p + ne idx < 8 * nblk) :
    Gives (quietly sfsDev) (imageDisk nblk img) (examine s after file nameAt space p idx)
      (accepts after file nameAt idx) (imageDisk nblk img) := by
  rw [examine]
  split
  · exact gives_pure _
  · exact (gives_readConts hn hs h).bind (gives_pure _)

/-- The comparison that `sfs_find_index` makes for an entry. -/
def hits (after : Memory) (file : CString) (idx : Index) : Bool :=
  if etype idx = iatDirEnt then accepts after file 10 idx else accepts after file 34 idx

/-- The entries up to the first one that the comparison accepts. -/
def examined (after : Memory) (file : CString) : List (Nat × Index) → List (Nat × Index)
  | [] => []
  | e :: es => if hits after file e.2 then [e] else e :: examined after file es

/-- What the loop of `sfs_find_index` comes to on a walk past the entries `es`. -/
def found (after : Memory) (file : CString) (idx : Index) (seen es : List (Nat × Index)) : Found :=
  ⟨if es.any fun e => hits after file e.2 then 1 else 0,
    ((examined after file es).getLast?.map Prod.snd).getD idx, seen ++ examined after file es⟩

theorem found_cons_of_hits {after : Memory} {file : CString} {idx : Index}
    {seen es : List (Nat × Index)} {e : Nat × Index} (h : hits after file e.2 = true) :
    found after file idx seen (e :: es) = ⟨1, e.2, seen ++ [e]⟩ := by
  simp [found, examined, h]

theorem found_cons_of_not_hits {after : Memory} {file : CString} {idx : Index}
    {seen es : List (Nat × Index)} {e : Nat × Index} (h : hits after file e.2 = false) :
    found after file idx seen (e :: es) = found after file e.2 (seen ++ [e]) es := by
  simp only [found, examined, h, List.any_cons, Bool.false_or, Bool.false_eq_true, if_false,
    List.append_assoc, List.singleton_append, Found.mk.injEq, true_and, and_true]
  cases hl : examined after file es with
  | nil => rfl
  | cons e' es' =>
      rw [List.getLast?_cons_cons]
      simp [List.getLast?_eq_getLast_of_ne_nil]

/-- The loop of `sfs_find_index` on a walk. -/
theorem gives_findLoop (hn : 512 * nblk < 4294967296) (hs : s.nblk = nblk) {after : Memory}
    {file : CString} {p : Nat} {es : List (Nat × Index)} (hw : Walk nblk img p es)
    (hp : p < 8 * nblk) (hsmall : p < 2147483648) (idx : Index) (seen : List (Nat × Index)) :
    Gives (quietly sfsDev) (imageDisk nblk img) (findLoop s after file p idx seen)
      (found after file idx seen es) (imageDisk nblk img) := by
  induction hw generalizing idx seen with
  | nil =>
      rw [findLoop, if_neg (by simp)]
      simpa [found, examined] using gives_pure (A := quietly sfsDev) (⟨0, idx, seen⟩ : Found)
  | @cons q es idx' rest holds het ih =>
      have hword : word ((q + (ne idx' + 1) : Nat) : Int) = q + (ne idx' + 1) := by
        unfold word
        omega
      have hnext : ((q + (ne idx' + 1) : Nat) : Int) - ((ne idx' : Int) + 1) = (q : Int) := by
        omega
      rw [findLoop, if_pos (by omega), hword]
      have hread := @gives_readIndex _ img _ _ hn hs hp
      rw [holds] at hread
      refine hread.bind ?_
      -- After the comparison the two kinds of entry go on in the same way.
      have hgo : ∀ {nameAt space : Nat}, accepts after file nameAt idx' = hits after file idx' →
          Gives (quietly sfsDev) (imageDisk nblk img)
            (examine s after file nameAt space
              (((q + (ne idx' + 1) : Nat) : Int) - ((ne idx' : Int) + 1)) idx' >>= fun ret =>
              if ret then pure ⟨1, idx', seen ++ [(q + (ne idx' + 1), idx')]⟩
              else findLoop s after file
                (((q + (ne idx' + 1) : Nat) : Int) - ((ne idx' : Int) + 1)) idx'
                (seen ++ [(q + (ne idx' + 1), idx')]))
            (found after file idx seen ((q + (ne idx' + 1), idx') :: es))
            (imageDisk nblk img) := by
        intro nameAt space hacc
        rw [hnext]
        refine (gives_examine hn hs (by omega)).bind ?_
        rw [hacc]
        cases hh : hits after file idx' with
        | true =>
            rw [found_cons_of_hits (e := (q + (ne idx' + 1), idx')) hh]
            exact gives_pure _
        | false =>
            rw [found_cons_of_not_hits (e := (q + (ne idx' + 1), idx')) hh]
            exact ih (by omega) (by omega) idx' _
      rcases het with hd | hf
      · rw [if_pos hd]
        exact hgo (by rw [hits, if_pos hd])
      · have hnd : etype idx' ≠ iatDirEnt := by rw [hf]; decide
        rw [if_neg hnd, if_pos hf]
        exact hgo (by rw [hits, if_neg hnd])

end

theorem calcChecksum_eq (sb : Memory) :
    calcChecksum sb = ((List.range 17).map fun i => sb (0x1ac + i)).sum + sb 0x1bd := by
  rw [calcChecksum, List.range_succ, List.map_append, List.sum_append]
  simp

theorem superblock_apply {nblk x : Nat} (h : x ≠ 445) : superblock nblk x = blankSb nblk x := by
  rw [superblock, putLe, paste_apply_of_notMem (by omega)]

/-- The superblock of `init_sb` has a checksum of zero. -/
theorem calcChecksum_superblock (nblk : Nat) : calcChecksum (superblock nblk) = 0 := by
  have hsame : ∀ i ∈ List.range 17, superblock nblk (0x1ac + i) = blankSb nblk (0x1ac + i) := by
    intro i hi
    have := List.mem_range.1 hi
    exact superblock_apply (by omega)
  have hblank : blankSb nblk 0x1bd = 0 := by
    simp [blankSb, putLe, paste]
  have hlast : superblock nblk 0x1bd = 0 - calcChecksum (blankSb nblk) := by
    rw [superblock, putLe, paste_apply_of_mem (by omega), Nat.sub_self, pow_zero, Nat.div_one,
      UInt8.ofNat_toNat]
  rw [calcChecksum_eq, hlast, calcChecksum_eq (blankSb nblk), hblank, List.map_congr_left hsame]
  grind

theorem getLe_superblock_total {nblk : Nat} (hn : nblk < 4294967296) :
    getLe (superblock nblk) 432 8 = nblk := by
  rw [getLe_of_digits (v := nblk), Nat.mod_eq_of_lt (by omega)]
  intro i hi
  rw [superblock_apply (by omega)]
  simp only [blankSb]
  rw [putLe, paste_apply_of_notMem (by omega), putLe, paste_apply_of_notMem (by omega), putLe,
    paste_apply_of_notMem (by omega), putLe, paste_apply_add hi]

/-- The kernel's reading of a superblock that still has what `init_sb` wrote behind the
field `ia_size`. -/
theorem checks_of_superblock {nblk da ia : Nat} {sb : Memory} (hn : nblk < 4294967296)
    (hsuper : ∀ x, 428 ≤ x → x < 512 → sb x = superblock nblk x) (hda : getLe sb 412 8 = da)
    (hia : getLe sb 420 8 = ia * 64) (hda' : da < 4294967296) (hia' : ia * 64 < 4294967296) :
    calcChecksum sb = 0 ∧
      strncmp (fun i => sb (428 + i)) (literal [0x53, 0x46, 0x53]) 3 = 0 ∧ sb 431 = 0x10 ∧
      obtainSbInfo sb = ⟨nblk, 1, da, ia, 2⟩ := by
  have hsum : calcChecksum sb = 0 := by
    rw [← calcChecksum_superblock nblk, calcChecksum, calcChecksum]
    congr 1
    refine List.map_congr_left fun i hi => ?_
    have := List.mem_range.1 hi
    exact hsuper _ (by omega) (by omega)
  have hmagic : strncmp (fun i => sb (428 + i)) (literal [0x53, 0x46, 0x53]) 3 = 0 := by
    rw [strncmp_eq_zero]
    intro i hi
    rw [hsuper _ (by omega) (by omega), superblock_apply (by omega)]
    have : i = 0 ∨ i = 1 ∨ i = 2 := by omega
    rcases this with rfl | rfl | rfl <;> simp [blankSb, putLe, paste, literal]
  have hversion : sb 431 = 0x10 := by
    rw [hsuper _ (by omega) (by omega), superblock_apply (by omega)]
    simp [blankSb, putLe, paste]
  have htotal : getLe sb 432 8 = nblk := by
    rw [← getLe_superblock_total hn]
    exact getLe_congr fun i hi => hsuper _ (by omega) (by omega)
  have hresv : getLe sb 440 4 = 1 := by
    refine getLe_of_digits (v := 1) fun i hi => ?_
    rw [hsuper _ (by omega) (by omega), superblock_apply (by omega)]
    simp only [blankSb]
    rw [putLe, paste_apply_of_notMem (by omega), putLe, paste_apply_of_notMem (by omega), putLe,
      paste_apply_add hi, reservedBlk]
  have hsize : getLe sb 444 1 = 2 := by
    rw [getLe_one, hsuper _ (by omega) (by omega), superblock_apply (by omega)]
    simp [blankSb, putLe, paste]
  refine ⟨hsum, hmagic, hversion, ?_⟩
  rw [obtainSbInfo, htotal, hresv, hsize, hda, hia, u32_eq_self hn, u32_eq_self hda',
    Nat.mul_div_cancel _ (by omega), u32_eq_self (by omega)]

/-- `check_sfs` on a disk with such a superblock in its first block. -/
theorem gives_checkSfs_of_superblock {nblk da ia : Nat} {d : Disk} (hn : nblk < 4294967296)
    (hd : 0 < d.size)
    (hsuper : ∀ x (hx : x < 512), 428 ≤ x → d.sector 0 ⟨x, hx⟩ = superblock nblk x)
    (hda : getLe (extend (d.sector 0) zeros) 412 8 = da)
    (hia : getLe (extend (d.sector 0) zeros) 420 8 = ia * 64) (hda' : da < 4294967296)
    (hia' : ia * 64 < 4294967296) :
    Gives (quietly sfsDev) d checkSfs ⟨0, some ⟨nblk, 1, da, ia, 2⟩⟩ d := by
  obtain ⟨hsum, hmagic, hversion, hinfo⟩ := checks_of_superblock hn
    (fun x hx hx' => by rw [extend, dif_pos hx']; exact hsuper x hx' hx) hda hia hda' hia'
  have hread : Gives (quietly sfsDev) d (readBlock 0) (d.sector 0) d :=
    gives_readSector (by decide) rfl hd
  rw [checkSfs]
  refine hread.bind ?_
  rw [if_neg (by rw [hmagic, hversion]; simp), hsum, hinfo]
  exact gives_pure _

/-- What `check_sfs` finds on a finished image. -/
def superOf (nblk : Nat) (mk : Mk) : Super := ⟨nblk, 1, mk.daBlocks, mk.iaNum, 2⟩

theorem gives_checkSfs {nblk : Nat} (hn : 512 * nblk < 4294967296) {args : List Arg} {mk : Mk}
    (h : Made nblk args mk) :
    Gives (quietly sfsDev) (imageDisk nblk mk.img) checkSfs ⟨0, some (superOf nblk mk)⟩
      (imageDisk nblk mk.img) := by
  have hf := h.fits
  unfold Fits at hf
  have hsb : ∀ x, x < 512 → extend ((imageDisk nblk mk.img).sector 0) zeros x = mk.img x := by
    intro x hx
    rw [extend, dif_pos hx]
    simp [imageDisk]
  refine gives_checkSfs_of_superblock (by omega) (by simp only [imageDisk]; omega) ?_ ?_ ?_
    (by omega) (by omega)
  · intro x hx hx'
    rw [← h.super x hx' hx]
    simp [imageDisk]
  · rw [← h.daBlk]
    exact getLe_congr fun i hi => hsb _ (by omega)
  · rw [← h.iaSize]
    exact getLe_congr fun i hi => hsb _ (by omega)

theorem gives_mount {nblk : Nat} (hn : 512 * nblk < 4294967296) {args : List Arg} {mk : Mk}
    (h : Made nblk args mk) :
    Gives (quietly sfsDev) (imageDisk nblk mk.img) mount (superOf nblk mk)
      (imageDisk nblk mk.img) :=
  (gives_checkSfs hn h).bind (gives_pure _)

/-- `sfs_find_index` on a finished image. -/
theorem gives_sfsFindIndex {nblk : Nat} (hn : 512 * nblk < 4294967296) {args : List Arg} {mk : Mk}
    (h : Made nblk args mk) (after : Memory) (file : CString) (idx : Index) :
    Gives (quietly sfsDev) (imageDisk nblk mk.img)
      (sfsFindIndex (superOf nblk mk) after file idx)
      (found after file idx [] mk.initial.reverse) (imageDisk nblk mk.img) := by
  have hf := h.fits
  unfold Fits at hf
  obtain ⟨p, hp, hw⟩ := h.walk
  have hstart : int32 (u32 ((superOf nblk mk).iaNum + 4294967295)) = p := by
    have : u32 ((superOf nblk mk).iaNum + 4294967295) = p := by
      simp only [superOf, hp]
      unfold u32
      omega
    rw [this, int32, if_pos (by omega)]
  rw [sfsFindIndex, hstart]
  exact gives_findLoop hn rfl hw (by omega) (by omega) idx []

/-- The loop of `sfs_read_file` over blocks with known contents. -/
theorem gives_blockLoop {nblk : Nat} {img : Memory} {s : Super} (hn : 512 * nblk < 4294967296)
    (hs : s.reservedBlk = 1) {content : List UInt8} {da : Nat} (hda : da + 1 < nblk) (l : Nat) :
    ∀ {m dst : Nat} {buf : Memory}, 512 * m + l ≤ 512 * da →
      (∀ i, i < l → img (512 * (m + 1) + i) = content.getD (dst + i) 0) →
      (∀ i, i < dst → buf i = content.getD i 0) →
      Total (quietly sfsDev) (imageDisk nblk img) (blockLoop s m l buf dst) fun r v =>
        v = imageDisk nblk img ∧ r.1 = dst + l ∧
          (∀ i, i < dst + l → r.2 i = content.getD i 0) ∧ ∀ i, dst + l ≤ i → r.2 i = buf i := by
  induction l using Nat.strong_induction_on with
  | _ l ih =>
      intro m dst buf hm hbytes hbuf
      rw [blockLoop]
      by_cases hl : l = 0
      · subst hl
        rw [if_neg (by simp)]
        refine (gives_pure _).mono ?_
        rintro r v ⟨rfl, rfl⟩
        exact ⟨rfl, by simp, by simpa using hbuf, fun _ _ => rfl⟩
      rw [if_pos (by omega)]
      have hsz : (if (512 : Int) < l then 512 else (l : Int).toNat) = min 512 l := by
        split <;> omega
      simp only [hsz]
      have hb : u32 (u32 m + s.reservedBlk) = m + 1 := by
        rw [hs, u32_eq_self (n := m) (by omega), u32_eq_self (by omega)]
      have hread := @gives_readBlock nblk img (m + 1) (by omega)
      rw [← hb] at hread
      refine hread.bind ?_
      rw [hb, show (l : Int) - (min 512 l : Nat) = ((l - min 512 l : Nat) : Int) by omega]
      refine (ih (l - min 512 l) (by omega) (by omega) ?_ ?_).mono ?_
      · intro i hi
        rw [show 512 * (m + 1 + 1) + i = 512 * (m + 1) + (512 + i) by omega,
          hbytes _ (by omega), show dst + min 512 l + i = dst + (512 + i) by omega]
      · intro i hi
        by_cases hi' : i < dst
        · rw [paste_apply_of_notMem (by omega), hbuf i hi']
        · rw [paste_apply_of_mem (by omega), extend, dif_pos (by omega)]
          simp only
          rw [hbytes _ (by omega), show dst + (i - dst) = i by omega]
      · rintro r v ⟨rfl, hr, hfront, hback⟩
        refine ⟨rfl, by rw [hr]; omega, fun i hi => hfront i (by omega), fun i hi => ?_⟩
        rw [hback i (by omega), paste_apply_of_notMem (by omega)]

/-- `sfs_read_file` returns the beginning of the file that an entry describes. -/
theorem total_readEntry {nblk : Nat} (hn : 512 * nblk < 4294967296) {args : List Arg} {mk : Mk}
    (h : Made nblk args mk) {start : Nat} {idx : Index} {content : List UInt8}
    (ht : etype idx = iatFileEnt) (hl : len idx = content.length) (hb : blkStart idx = start)
    (hd : Data mk.img mk.daBlocks start content) (hlen : content.length < 2147483648)
    (buf : Memory) (nb : Nat) :
    Total (quietly sfsDev) (imageDisk nblk mk.img) (readEntry (superOf nblk mk) idx buf nb)
      fun r v => v = imageDisk nblk mk.img ∧ r.1 = min content.length nb ∧
        ∀ i, i < min content.length nb → r.2 i = content.getD i 0 := by
  have hf := h.fits
  unfold Fits at hf
  have hroom := hd.room
  have hint : int32 (u32 (len idx)) = content.length := by
    rw [hl, u32_eq_self (by omega), int32, if_pos hlen]
  have hmin : (if (content.length : Int) < nb then (content.length : Int) else nb) =
      (min content.length nb : Nat) := by
    split <;> omega
  rw [readEntry, if_neg (by simp [ht])]
  simp only [hint, hmin, hb]
  refine (@gives_blockLoop _ mk.img _ hn rfl content mk.daBlocks
    (by omega) (min content.length nb) _ _ _ (by omega) ?_ (by simp)).mono ?_
  · intro i hi
    rw [hd.bytes i (by omega), Nat.zero_add, List.getD_eq_getElem _ _ (by omega)]
  · rintro r v ⟨rfl, hr, hfront, -⟩
    exact ⟨rfl, by simpa using hr, fun i hi => hfront i (by omega)⟩

theorem Walk.pairwise {nblk p : Nat} {img : Memory} {es : List (Nat × Index)}
    (h : Walk nblk img p es) : (∀ e ∈ es, e.1 ≤ p) ∧ es.Pairwise fun e e' => e'.1 < e.1 := by
  induction h with
  | nil => simp
  | @cons q es idx rest holds het ih =>
      refine ⟨?_, List.pairwise_cons.2 ⟨fun e he => ?_, ih.2⟩⟩
      · intro e he
        rcases List.mem_cons.1 he with rfl | he
        · exact le_rfl
        · exact (ih.1 e he).trans (by omega)
      · have := ih.1 e he
        simp only
        omega

theorem examined_eq_self {after : Memory} {file : CString} {es : List (Nat × Index)}
    (h : ∀ e ∈ es, hits after file e.2 = false) : examined after file es = es := by
  induction es with
  | nil => rfl
  | cons e es ih =>
      rw [examined, if_neg (by simp [h e (by simp)]), ih fun e' he => h e' (by simp [he])]

theorem length_starts (s : Nat) (args : List Arg) : (starts s args).length = args.length := by
  induction args generalizing s with
  | nil => rfl
  | cons a args ih => simp [starts, ih]

theorem starts_getElem? {s k : Nat} {args : List Arg} {x : Nat × Arg}
    (h : (starts s args)[k]? = some x) : args[k]? = some x.2 := by
  induction args generalizing s k with
  | nil => simp [starts] at h
  | cons a args ih =>
      cases k with
      | zero =>
          simp only [starts, List.getElem?_cons_zero, Option.some.injEq] at h
          simp [← h]
      | succ k =>
          rw [starts, List.getElem?_cons_succ] at h
          rw [List.getElem?_cons_succ]
          exact ih h

theorem forall₂_getElem? {α β : Type} {R : α → β → Prop} {l : List α} {l' : List β}
    (h : List.Forall₂ R l l') {k : Nat} {b : β} (hk : l'[k]? = some b) :
    ∃ a, l[k]? = some a ∧ R a b := by
  induction h generalizing k with
  | nil => simp at hk
  | @cons a b' l l' hab _ ih =>
      cases k with
      | zero =>
          simp only [List.getElem?_cons_zero, Option.some.injEq] at hk
          exact ⟨a, rfl, hk ▸ hab⟩
      | succ k => exact ih (by simpa using hk)

/-- The entry of an argument in a finished image. -/
theorem Made.entry {nblk : Nat} {args : List Arg} {mk : Mk} (h : Made nblk args mk) {k : Nat}
    {e : Nat × Index} (hk : mk.initial[k + 1]? = some e) :
    ∃ x, (starts 1 args)[k]? = some x ∧ Describes mk.img mk.daBlocks x.1 x.2 e.2 := by
  obtain ⟨root, es, hes, -, hall⟩ := h.entries
  rw [hes, List.getElem?_cons_succ] at hk
  exact forall₂_getElem? hall hk

theorem Made.initial_getElem? {nblk : Nat} {args : List Arg} {mk : Mk}
    (h : Made nblk args mk) {k : Nat} {a : Arg}
    (hk : args[k]? = some a) : ∃ e, mk.initial[k + 1]? = some e := by
  obtain ⟨root, es, hes, -, hall⟩ := h.entries
  have hlen := hall.length_eq
  rw [length_starts] at hlen
  obtain ⟨hlt, -⟩ := List.getElem?_eq_some_iff.1 hk
  rw [hes]
  exact ⟨es[k], by rw [List.getElem?_cons_succ, List.getElem?_eq_getElem]⟩

/-- On the image of a finished run of `mk_sfs` the walk of `sfs_find_index`, for a
name that no comparison accepts, examines the initial entries, each once, in the
order opposite to that of their creation, down to the entry of the root directory.
The block loop of `sfs_read_file` on the entry of a regular file returns the
beginning of the file. -/
theorem image_roundTrip {nblk : Nat} (hn : 512 * nblk < 4294967296) {args : List Arg} {mk : Mk}
    (h : mkSfs nblk args = some mk) :
    (∀ after file idx, (∀ e ∈ mk.initial, hits after file e.2 = false) →
      Total (quietly sfsDev) (imageDisk nblk mk.img)
        (mount >>= fun s => sfsFindIndex s after file idx) fun r v =>
          v = imageDisk nblk mk.img ∧ r.ret = 0 ∧ r.seen = mk.initial.reverse) ∧
    mk.initial.Pairwise (fun e e' => e.1 < e'.1) ∧
    mk.initial.length = args.length + 1 ∧
    (∃ root, IsRoot root ∧ mk.initial[0]? = some (1, root)) ∧
    ∀ k e, mk.initial[k + 1]? = some e → ∃ a, args[k]? = some a ∧
      ((a.stat = some .directory ∧ etype e.2 = iatDirEnt) ∨
        ∃ content, a.stat = some (.regular content) ∧ etype e.2 = iatFileEnt ∧
          (content.length < 2147483648 → ∀ buf nb, nb < 2147483648 →
            Total (quietly sfsDev) (imageDisk nblk mk.img)
              (mount >>= fun s => readEntry s e.2 buf nb) fun r v =>
                v = imageDisk nblk mk.img ∧ r.1 = min content.length nb ∧
                  ∀ i, i < min content.length nb → r.2 i = content.getD i 0)) := by
  have hm := mkSfs_made hn h
  refine ⟨?_, ?_, ?_, ?_, ?_⟩
  · intro after file idx hno
    refine (gives_mount hn hm).bind ((gives_sfsFindIndex hn hm after file idx).mono ?_)
    rintro r v ⟨rfl, rfl⟩
    have hno' : ∀ e ∈ mk.initial.reverse, hits after file e.2 = false :=
      fun e he => hno e (List.mem_reverse.1 he)
    refine ⟨rfl, ?_, ?_⟩
    · rw [found, if_neg]
      simpa using fun a b hab => hno (a, b) hab
    · rw [found, examined_eq_self hno', List.nil_append]
  · obtain ⟨p, -, hw⟩ := hm.walk
    exact List.pairwise_reverse.1 hw.pairwise.2
  · obtain ⟨root, es, hes, -, hall⟩ := hm.entries
    rw [hes, List.length_cons, ← hall.length_eq, length_starts]
  · obtain ⟨root, es, hes, hroot, -⟩ := hm.entries
    exact ⟨root, hroot, by rw [hes]; rfl⟩
  · intro k e hk
    obtain ⟨x, hx, hd⟩ := hm.entry hk
    refine ⟨x.2, starts_getElem? hx, ?_⟩
    rcases hd.kind with hdir | ⟨content, hs, ht, hl, hb, -, hdata⟩
    · exact Or.inl hdir
    · refine Or.inr ⟨content, hs, ht, fun hlen buf nb _ => ?_⟩
      exact (gives_mount hn hm).bind (total_readEntry hn hm ht hl hb hdata hlen buf nb)

/-- A file `ab` with two bytes. -/
def tiny : Arg where
  name := .ofList [0x61, 0x62] (by decide) (by simp)
  stat := some (.regular [0x68, 0x69])
  accepted := fun _ => by decide

theorem mkSfs_tiny : ∃ mk, mkSfs 4 [tiny] = some mk := by
  refine Option.isSome_iff_exists.1 ?_
  simp [mkSfs, initSb, initIndex, initRoot, incAndVerify, Mk.add, writeFiles, writeFile, tiny,
    writeData, writeInitial, u32, nieFile, CString.ofList]

/-- The kernel reads both bytes of the file from the image. -/
theorem tiny_roundTrip :
    ∃ mk e r c, mkSfs 4 [tiny] = some mk ∧ mk.initial[1]? = some e ∧
      (mount >>= fun s => readEntry s e.2 zeros 100) (bootCache (imageDisk 4 mk.img)) =
        .ok (r, c) ∧ r.1 = 2 ∧ r.2 0 = 0x68 ∧ r.2 1 = 0x69 := by
  obtain ⟨mk, hmk⟩ := mkSfs_tiny
  obtain ⟨-, -, hlen, -, hfile⟩ := image_roundTrip (by decide) hmk
  obtain ⟨e, he⟩ : ∃ e, mk.initial[0 + 1]? = some e :=
    ⟨_, List.getElem?_eq_getElem (by rw [hlen]; decide)⟩
  obtain ⟨a, ha, hkind⟩ := hfile 0 e he
  cases ha
  rcases hkind with ⟨hd, -⟩ | ⟨content, hs, -, hread⟩
  · simp [tiny] at hd
  · cases hs
    obtain ⟨hok, hview⟩ := quiet_bootCache sfsDev (imageDisk 4 mk.img)
    obtain ⟨r, c, hr, -, -, hret, hbytes⟩ := hread (by decide) zeros 100 (by decide) _ hok hview
    exact ⟨mk, e, r, c, hmk, he, hr, hret, hbytes 0 (by decide), hbytes 1 (by decide)⟩

end Sfs

end Chunix
