import Chunix.Sfs.Reader

/-!
# The layout of an image

What `mk_sfs` has written stays where it is: the data area and the index area grow
towards each other, and the test of `inc_and_verify` keeps them apart. `Grown`
says what every part of the tool leaves alone, `Describes` what an initial entry
says about its file, and `Layout` is the invariant of the whole run.
-/

namespace Chunix

namespace Sfs

open Machine

/-- Where the element `sec` of the index lies in an image of `nblk` blocks. -/
def place (nblk sec : Nat) : Nat := 512 * nblk - 64 * (sec + 1)

/-- The test of `inc_and_verify`, for counters that do not overflow. -/
def Fits (nblk da ia : Nat) : Prop := da + ((ia + 1) / 8 + 1) < nblk

/-- The bytes of the data blocks below `da` and of the index elements below `ia`
are the same in both images. -/
def Kept (nblk da ia : Nat) (img img' : Memory) : Prop :=
  ∀ x, x < 512 * nblk → x < 512 * (da + 1) ∨ 512 * nblk ≤ x + 64 * ia → img' x = img x

theorem Kept.trans {nblk da ia da' ia' : Nat} {img₁ img₂ img₃ : Memory}
    (h : Kept nblk da ia img₁ img₂) (h' : Kept nblk da' ia' img₂ img₃) (hda : da ≤ da')
    (hia : ia ≤ ia') : Kept nblk da ia img₁ img₃ := by
  intro x hx hr
  rw [h' x hx (by omega), h x hx hr]

section

variable {nblk sec da ia n : Nat} {buf : Memory} {mk mk' : Mk} (hn : 512 * nblk < 4294967296)

include hn

theorem writeIndex_img (hs : sec < 8 * nblk) :
    (writeIndex nblk sec buf mk).img = paste mk.img (place nblk sec) 64 buf := by
  have h : u32 (u32 (nindex nblk + 4294967296 - sec - 1) * 64) = place nblk sec := by
    unfold nindex place u32
    omega
  rw [writeIndex, writeElem, h, Mk.img_setImg]

theorem writeInitial_fields (hs : sec < 8 * nblk) :
    (writeInitial nblk sec buf mk).img = paste mk.img (place nblk sec) 64 buf ∧
      (writeInitial nblk sec buf mk).daBlocks = mk.daBlocks ∧
      (writeInitial nblk sec buf mk).iaNum = mk.iaNum ∧
      (writeInitial nblk sec buf mk).initial = mk.initial ++ [(sec, slice 64 buf 0)] := by
  rw [writeInitial, Mk.img_note, Mk.daBlocks_note, Mk.iaNum_note, Mk.initial_note,
    writeIndex_img hn hs, daBlocks_writeIndex, iaNum_writeIndex, initial_writeIndex]
  exact ⟨rfl, rfl, rfl, rfl⟩

theorem writeBlock_img (hs : sec < nblk) :
    (writeBlock sec buf mk).img = paste mk.img (512 * sec) 512 buf := by
  have h : u32 (sec * 512) = 512 * sec := by
    unfold u32
    omega
  rw [writeBlock, writeElem, h, Mk.img_setImg]

theorem kept_writeIndex (hf : Fits nblk da sec) (hia : ia ≤ sec) :
    Kept nblk da ia mk.img (writeIndex nblk sec buf mk).img := by
  unfold Fits at hf
  intro x _ hr
  rw [writeIndex_img hn (by omega), place]
  exact paste_apply_of_notMem (by omega)

theorem incAndVerify_daBlocks (hda : mk.daBlocks ≤ nblk) (hia : mk.iaNum ≤ 8 * nblk)
    (h : incAndVerify nblk .daBlocks 1 mk = some mk') :
    mk' = { mk with daBlocks := mk.daBlocks + 1 } ∧ Fits nblk (mk.daBlocks + 1) mk.iaNum := by
  have hu : u32 (mk.daBlocks + 1) = mk.daBlocks + 1 := u32_eq_self (by omega)
  simp only [incAndVerify, Mk.add, hu, Option.ite_none_left_eq_some, Option.some.injEq] at h
  rw [u32_eq_self (n := mk.iaNum + 1) (by omega), u32_eq_self (by omega)] at h
  exact ⟨h.2.symm, by unfold Fits; omega⟩

theorem incAndVerify_iaNum (hda : mk.daBlocks ≤ nblk) (hia : mk.iaNum ≤ 8 * nblk) (hk : n ≤ 65)
    (h : incAndVerify nblk .iaNum n mk = some mk') :
    mk' = { mk with iaNum := mk.iaNum + n } ∧ Fits nblk mk.daBlocks (mk.iaNum + n) := by
  have hu : u32 (mk.iaNum + n) = mk.iaNum + n := u32_eq_self (by omega)
  simp only [incAndVerify, Mk.add, hu, Option.ite_none_left_eq_some, Option.some.injEq] at h
  rw [u32_eq_self (n := mk.iaNum + n + 1) (by omega), u32_eq_self (by omega)] at h
  exact ⟨h.2.symm, by unfold Fits; omega⟩

end

/-- What a part of the tool leaves alone: the areas as they were before. -/
structure Grown (nblk : Nat) (mk mk' : Mk) : Prop where
  fits : Fits nblk mk'.daBlocks mk'.iaNum
  daBlocks : mk.daBlocks ≤ mk'.daBlocks
  iaNum : mk.iaNum ≤ mk'.iaNum
  kept : Kept nblk mk.daBlocks mk.iaNum mk.img mk'.img

theorem Grown.refl {nblk : Nat} {mk : Mk} (h : Fits nblk mk.daBlocks mk.iaNum) :
    Grown nblk mk mk :=
  ⟨h, le_rfl, le_rfl, fun _ _ _ => rfl⟩

theorem Grown.trans {nblk : Nat} {mk₁ mk₂ mk₃ : Mk} (h : Grown nblk mk₁ mk₂)
    (h' : Grown nblk mk₂ mk₃) : Grown nblk mk₁ mk₃ :=
  ⟨h'.fits, h.daBlocks.trans h'.daBlocks, h.iaNum.trans h'.iaNum,
    h.kept.trans h'.kept h.daBlocks h.iaNum⟩

/-- The blocks from `start` on, below `da`, hold the bytes of a file. -/
structure Data (img : Memory) (da start : Nat) (content : List UInt8) : Prop where
  room : 512 * start + content.length ≤ 512 * da
  bytes : ∀ i (h : i < content.length), img (512 * (start + 1) + i) = content[i]

theorem Data.kept {nblk da ia da' start : Nat} {img img' : Memory} {content : List UInt8}
    (h : Data img da start content) (hk : Kept nblk da ia img img') (hda : da ≤ da')
    (hnblk : da < nblk) : Data img' da' start content := by
  have hroom := h.room
  refine ⟨by omega, fun i hi => ?_⟩
  rw [hk _ (by omega) (Or.inl (by omega)), h.bytes i hi]

/-- The element `sec` of the index is `idx`. -/
def Holds (nblk : Nat) (img : Memory) (sec : Nat) (idx : Index) : Prop :=
  slice 64 img (place nblk sec) = idx

theorem Holds.kept {nblk da ia sec : Nat} {img img' : Memory} {idx : Index}
    (h : Holds nblk img sec idx) (hk : Kept nblk da ia img img') (hs : sec < ia)
    (hia : ia ≤ 8 * nblk) : Holds nblk img' sec idx := by
  rw [Holds, ← h]
  refine slice_congr fun i hi => hk _ ?_ (Or.inr ?_) <;> unfold place <;> omega

/-- The number of blocks for `n` bytes. -/
def ceilBlocks (n : Nat) : Nat := (n + 511) / 512

/-- `write_data` puts the file into the next blocks. -/
theorem writeData_spec {nblk : Nat} (hn : 512 * nblk < 4294967296) (content : List UInt8) :
    ∀ {mk mk' : Mk}, Fits nblk mk.daBlocks mk.iaNum → writeData nblk content mk = some mk' →
      Grown nblk mk mk' ∧ mk'.iaNum = mk.iaNum ∧ mk'.initial = mk.initial ∧
        mk'.daBlocks = mk.daBlocks + ceilBlocks content.length ∧
        Data mk'.img mk'.daBlocks mk.daBlocks content := by
  induction hlen : content.length using Nat.strong_induction_on generalizing content with
  | _ l ih =>
      intro mk mk' hf h
      subst hlen
      rw [writeData] at h
      by_cases hc : content = []
      · subst hc
        rw [if_pos rfl] at h
        cases h
        exact ⟨Grown.refl hf, rfl, rfl, rfl, ⟨by simp, fun i hi => absurd hi (by simp)⟩⟩
      rw [if_neg hc] at h
      obtain ⟨mk₁, h₁, h₂⟩ := Option.bind_eq_some_iff.1 h
      have hpos := List.length_pos_iff.2 hc
      have hf' := hf
      unfold Fits at hf'
      have hb : blockIndex mk.daBlocks = mk.daBlocks + 1 := by
        unfold blockIndex reservedBlk
        exact u32_eq_self (by omega)
      rw [hb] at h₁
      generalize hbuf : (fun i => (content.take 512).getD i 0) = buf at h₁
      have himg : (writeBlock (mk.daBlocks + 1) buf mk).img =
          paste mk.img (512 * (mk.daBlocks + 1)) 512 buf := writeBlock_img hn (by omega)
      obtain ⟨hmk₁, hf₁⟩ := incAndVerify_daBlocks hn (by rw [daBlocks_writeBlock]; omega)
        (by rw [iaNum_writeBlock]; omega) h₁
      rw [daBlocks_writeBlock, iaNum_writeBlock] at hf₁
      have hda₁ : mk₁.daBlocks = mk.daBlocks + 1 := by rw [hmk₁, daBlocks_writeBlock]
      have hia₁ : mk₁.iaNum = mk.iaNum := by rw [hmk₁, iaNum_writeBlock]
      have hini₁ : mk₁.initial = mk.initial := by rw [hmk₁, initial_writeBlock]
      have himg₁ : mk₁.img = paste mk.img (512 * (mk.daBlocks + 1)) 512 buf := by rw [hmk₁, himg]
      clear hmk₁ himg h₁
      unfold Fits at hf₁
      obtain ⟨hg, hia, hini, hda, hd⟩ := ih _ (by simp only [List.length_drop]; omega)
        (content.drop 512) rfl (by unfold Fits; omega) h₂
      have hroom := hd.room
      have hkept := hg.kept
      have hfits := hg.fits
      unfold Fits at hfits
      simp only [List.length_drop, hda₁, hia₁, himg₁, ceilBlocks] at hkept hroom hda
      refine ⟨⟨hg.fits, by omega, by omega, ?_⟩, hia.trans hia₁, hini.trans hini₁, ?_, ?_, ?_⟩
      · intro x hx hr
        rw [hkept x hx (by omega)]
        exact paste_apply_of_notMem (by omega)
      · unfold ceilBlocks
        omega
      · omega
      · intro i hi
        by_cases hi' : i < 512
        · rw [hkept _ (by omega) (Or.inl (by omega)), paste_apply_add hi', ← hbuf]
          simp only
          rw [List.getD_eq_getElem _ _ (by simp only [List.length_take]; omega)]
          simp
        · have hbyte := hd.bytes (i - 512) (by simp only [List.length_drop]; omega)
          simp only [List.getElem_drop, hda₁] at hbyte
          rw [show 512 * (mk.daBlocks + 1 + 1) + (i - 512) = 512 * (mk.daBlocks + 1) + i by omega]
            at hbyte
          rw [hbyte]
          exact getElem_congr_idx (by omega)

theorem strncpy_text (name : CString) (i : Nat) :
    (if ∀ j, j ≤ i → name.text j ≠ 0 then name.text i else 0) =
      if i < name.len then name.text i else 0 := by
  by_cases hi : i < name.len
  · rw [if_pos hi, if_pos fun j hj => name.nonzero j (by omega)]
  · rw [if_neg hi, if_neg fun h => h name.len (by omega) name.terminated]

section

variable (t k bs be l : Nat) (name : Memory)

theorem etype_entry : etype (slice 64 (entry t k bs be l name) 0) = t % 256 := by
  simp [etype, slice, entry, strncpy, putLe, paste]

theorem ne_entry : ne (slice 64 (entry t k bs be l name) 0) = k % 256 := by
  simp [ne, slice, entry, strncpy, putLe, paste]

theorem entry_name (after : Memory) {i : Nat} (hi : i < 30) :
    extend (slice 64 (entry t k bs be l name) 0) after (34 + i) =
      if ∀ j, j ≤ i → name j ≠ 0 then name i else 0 := by
  rw [extend_slice (by omega), Nat.zero_add, entry]
  exact paste_apply_add hi

/-- The numbers in an entry below the name. -/
theorem getLe_entry {m : Memory} {a w v : Nat} (ha : a + w ≤ 34)
    (h : ∀ i, i < w → putLe (putLe (putLe (putLe (putLe zeros 0 1 t) 1 1 k) 10 8 bs) 18 8 be) 26 8 l
      (a + i) = UInt8.ofNat (v / 256 ^ i)) :
    getLe (extend (slice 64 (entry t k bs be l name) 0) m) a w = v % 256 ^ w := by
  refine getLe_of_digits fun i hi => ?_
  rw [extend_slice (by omega), Nat.zero_add, ← h i hi, entry]
  exact paste_apply_of_notMem (by omega)

theorem blkStart_entry : blkStart (slice 64 (entry t k bs be l name) 0) = bs % 256 ^ 8 := by
  refine getLe_entry t k bs be l name (by omega) fun i hi => ?_
  rw [putLe, paste_apply_of_notMem (by omega), putLe, paste_apply_of_notMem (by omega), putLe]
  exact paste_apply_add hi

theorem blkEnd_entry : blkEnd (slice 64 (entry t k bs be l name) 0) = be % 256 ^ 8 := by
  refine getLe_entry t k bs be l name (by omega) fun i hi => ?_
  rw [putLe, paste_apply_of_notMem (by omega), putLe]
  exact paste_apply_add hi

theorem len_entry : len (slice 64 (entry t k bs be l name) 0) = l % 256 ^ 8 := by
  refine getLe_entry t k bs be l name (by omega) fun i hi => ?_
  rw [putLe]
  exact paste_apply_add hi

end

/-- The number of data blocks of an argument. -/
def Arg.blocks (a : Arg) : Nat :=
  match a.stat with
  | some (.regular content) => ceilBlocks content.length
  | _ => 0

/-- The initial entry of an argument whose data begins with the block `start`, in
an image with `da` data blocks. -/
structure Describes (img : Memory) (da start : Nat) (a : Arg) (idx : Index) : Prop where
  ne : ne idx = nieFile a.name.len
  name : ∀ after i, i < 30 →
    extend idx after (34 + i) = if i < a.name.len then a.name.text i else 0
  kind : (a.stat = some .directory ∧ etype idx = iatDirEnt) ∨
    ∃ content, a.stat = some (.regular content) ∧ etype idx = iatFileEnt ∧
      len idx = content.length ∧ blkStart idx = start ∧ blkEnd idx + 1 = start + a.blocks ∧
      Data img da start content

theorem Describes.kept {nblk da ia da' start : Nat} {img img' : Memory} {a : Arg} {idx : Index}
    (h : Describes img da start a idx) (hk : Kept nblk da ia img img') (hda : da ≤ da')
    (hnblk : da < nblk) : Describes img' da' start a idx := by
  refine ⟨h.ne, h.name, ?_⟩
  rcases h.kind with h' | ⟨content, hs, ht, hl, hb, he, hd⟩
  · exact Or.inl h'
  · exact Or.inr ⟨content, hs, ht, hl, hb, he, hd.kept hk hda hnblk⟩

theorem describes_entry {img : Memory} {da start be l t : Nat} {a : Arg}
    (ha : a.name.len ≤ 4095) (hda : da < 8388608)
    (hk : (a.stat = some .directory ∧ t = iatDirEnt) ∨
      ∃ content, a.stat = some (.regular content) ∧ t = iatFileEnt ∧ l = content.length ∧
        be + 1 = start + a.blocks ∧ be < 4294967296 ∧ Data img da start content) :
    Describes img da start a
      (slice 64 (entry t (nieFile a.name.len) start be l a.name.text) 0) := by
  refine ⟨?_, ?_, ?_⟩
  · rw [ne_entry]
    exact Nat.mod_eq_of_lt (by unfold nieFile; omega)
  · intro after i hi
    rw [entry_name _ _ _ _ _ _ _ hi, strncpy_text]
  · rw [etype_entry, len_entry, blkStart_entry, blkEnd_entry]
    rcases hk with ⟨hs, rfl⟩ | ⟨content, hs, rfl, rfl, he, hbe, hd⟩
    · exact Or.inl ⟨hs, rfl⟩
    · have hroom := hd.room
      refine Or.inr ⟨content, hs, rfl, Nat.mod_eq_of_lt (by omega), Nat.mod_eq_of_lt (by omega),
        ?_, hd⟩
      rwa [Nat.mod_eq_of_lt (by omega)]

/-- The continuation entries fill the elements from `ia_num - 1 - nie` up to the
initial entry, and nothing else changes. -/
theorem writeConts_spec {nblk : Nat} (hn : 512 * nblk < 4294967296) (name : CString) {nie : Nat}
    {mk : Mk} (hnie : nie + 1 ≤ mk.iaNum) (hia : mk.iaNum ≤ 8 * nblk) :
    (writeConts nblk name nie mk).daBlocks = mk.daBlocks ∧
      (writeConts nblk name nie mk).iaNum = mk.iaNum ∧
      (writeConts nblk name nie mk).initial = mk.initial ∧
      ∀ x, x < 512 * nblk →
        x + 64 * (mk.iaNum - 1) < 512 * nblk ∨ 512 * nblk ≤ x + 64 * (mk.iaNum - 1 - nie) →
        (writeConts nblk name nie mk).img x = mk.img x := by
  induction nie with
  | zero => exact ⟨rfl, rfl, rfl, fun _ _ _ => rfl⟩
  | succ i ih =>
      obtain ⟨hda', hia', hini', himg'⟩ := ih (by omega)
      rw [writeConts]
      refine ⟨by simpa using hda', by simpa using hia', by simpa using hini', fun x hx hr => ?_⟩
      simp only [hia']
      rw [writeIndex_img hn (by omega), place, paste_apply_of_notMem (by omega)]
      exact himg' x hx (by omega)

/-- The continuation entries leave the initial entry as it is. -/
theorem holds_initial {nblk : Nat} (hn : 512 * nblk < 4294967296) (name : CString) {nie : Nat}
    {buf : Memory} {mk : Mk} (hnie : nie + 1 ≤ mk.iaNum) (hia : mk.iaNum ≤ 8 * nblk) :
    Holds nblk (writeConts nblk name nie (writeInitial nblk (mk.iaNum - 1) buf mk)).img
      (mk.iaNum - 1) (slice 64 buf 0) := by
  obtain ⟨himg₁, -, hia₁, -⟩ := @writeInitial_fields nblk (mk.iaNum - 1) buf mk hn (by omega)
  obtain ⟨-, -, -, himg⟩ := @writeConts_spec nblk hn name nie
    (writeInitial nblk (mk.iaNum - 1) buf mk) (by omega) (by omega)
  refine slice_congr fun i hi => ?_
  rw [himg _ (by unfold place; omega) (Or.inl (by rw [hia₁]; unfold place; omega)), himg₁,
    paste_apply_add hi, Nat.zero_add]

/-- What `write_file` does for an argument. -/
structure Added (nblk : Nat) (a : Arg) (mk mk' : Mk) : Prop where
  grown : Grown nblk mk mk'
  daBlocks : mk'.daBlocks = mk.daBlocks + a.blocks
  iaNum : mk'.iaNum = mk.iaNum + (nieFile a.name.len + 1)
  entry : ∃ idx, mk'.initial = mk.initial ++ [(mk'.iaNum - 1, idx)] ∧
    Holds nblk mk'.img (mk'.iaNum - 1) idx ∧
    Describes mk'.img mk'.daBlocks mk.daBlocks a idx

/-- The end of `write_file`, once the marker and the data are written: the initial
entry and its continuations. -/
theorem added_entries {nblk : Nat} (hn : 512 * nblk < 4294967296) {a : Arg} {mk₀ mk : Mk}
    {buf : Memory} (hg : Grown nblk mk₀ mk) (hini : mk.initial = mk₀.initial)
    (hda : mk.daBlocks = mk₀.daBlocks + a.blocks)
    (hia : mk.iaNum = mk₀.iaNum + (nieFile a.name.len + 1))
    (hd : Describes mk.img mk.daBlocks mk₀.daBlocks a (slice 64 buf 0)) :
    Added nblk a mk₀ (writeConts nblk a.name (nieFile a.name.len)
      (writeInitial nblk (mk.iaNum - 1) buf mk)) := by
  have hf := hg.fits
  unfold Fits at hf
  obtain ⟨himg₁, hda₁, hia₁, hini₁⟩ := @writeInitial_fields nblk (mk.iaNum - 1) buf mk hn
    (by omega)
  rw [hini] at hini₁
  obtain ⟨hda', hia', hini', himg'⟩ := @writeConts_spec nblk hn a.name (nieFile a.name.len)
    (writeInitial nblk (mk.iaNum - 1) buf mk) (by omega) (by omega)
  rw [hda₁] at hda'
  rw [hia₁] at hia' himg'
  rw [hini₁] at hini'
  rw [himg₁] at himg'
  have hinitial := @holds_initial nblk hn a.name (nieFile a.name.len) buf mk (by omega) (by omega)
  generalize writeConts nblk a.name (nieFile a.name.len)
    (writeInitial nblk (mk.iaNum - 1) buf mk) = mk' at *
  -- The new elements lie between the data area and the old index area.
  have hkept : Kept nblk mk.daBlocks mk₀.iaNum mk.img mk'.img := by
    intro x hx hr
    rw [himg' x hx (by omega), place]
    exact paste_apply_of_notMem (by omega)
  refine ⟨⟨by rw [hda', hia']; exact hg.fits, hda' ▸ hg.daBlocks, hia' ▸ hg.iaNum,
    hg.kept.trans hkept hg.daBlocks le_rfl⟩, hda'.trans hda, hia'.trans hia,
    slice 64 buf 0, ?_, ?_, ?_⟩
  · rw [hini', hia']
  · rw [hia']
    exact hinitial
  · rw [hda']
    exact hd.kept hkept le_rfl (by omega)

/-- The first step of `write_file`: the marker moves. -/
theorem grown_mark {nblk : Nat} (hn : 512 * nblk < 4294967296) {a : Arg} {mk mk₁ : Mk}
    (hf : Fits nblk mk.daBlocks mk.iaNum) (hlen : a.name.len ≤ 4095)
    (h : incAndVerify nblk .iaNum (nieFile a.name.len + 1) mk = some mk₁) :
    Grown nblk mk (writeIndex nblk mk₁.iaNum mark mk₁) ∧ mk₁.initial = mk.initial ∧
      mk₁.daBlocks = mk.daBlocks ∧ mk₁.iaNum = mk.iaNum + (nieFile a.name.len + 1) := by
  unfold Fits at hf
  obtain ⟨rfl, hf₁⟩ := incAndVerify_iaNum hn (by omega) (by omega) (by unfold nieFile; omega) h
  refine ⟨⟨?_, ?_, ?_, kept_writeIndex hn hf₁ (Nat.le_add_right _ _)⟩, rfl, rfl, rfl⟩
  · rwa [daBlocks_writeIndex, iaNum_writeIndex]
  · rw [daBlocks_writeIndex]
  · rw [iaNum_writeIndex]
    exact Nat.le_add_right _ _

theorem writeFile_spec {nblk : Nat} (hn : 512 * nblk < 4294967296) {a : Arg} {mk mk' : Mk}
    (hf : Fits nblk mk.daBlocks mk.iaNum) (hpos : 0 < mk.daBlocks)
    (h : writeFile nblk a mk = some mk') : Added nblk a mk mk' := by
  cases hs : a.stat with
  | none => simp [writeFile, hs] at h
  | some kind =>
      have hlen := (a.accepted (by simp [hs])).2
      cases kind with
      | other => simp [writeFile, hs] at h
      | directory =>
          simp only [writeFile, hs] at h
          obtain ⟨mk₁, h₁, h⟩ := Option.bind_eq_some_iff.1 h
          rw [← Option.some_inj.1 h]
          obtain ⟨hg, hini, hda, hia⟩ := grown_mark hn hf hlen h₁
          have hfits := hg.fits
          unfold Fits at hfits
          refine added_entries hn hg (by rw [initial_writeIndex, hini])
            (by rw [daBlocks_writeIndex, hda]; simp [Arg.blocks, hs])
            (by rw [iaNum_writeIndex, hia]) ?_
          have := @describes_entry (writeIndex nblk mk₁.iaNum mark mk₁).img
            (writeIndex nblk mk₁.iaNum mark mk₁).daBlocks 0 0 0 0x11 _ hlen (by omega) (Or.inl ⟨hs, rfl⟩)
          exact ⟨this.ne, this.name, Or.inl ⟨hs, by rw [etype_entry]; rfl⟩⟩
      | regular content =>
          simp only [writeFile, hs] at h
          obtain ⟨mk₁, h₁, h⟩ := Option.bind_eq_some_iff.1 h
          obtain ⟨mk₂, h₂, h⟩ := Option.bind_eq_some_iff.1 h
          rw [← Option.some_inj.1 h]
          obtain ⟨hg, hini, hda, hia⟩ := grown_mark hn hf hlen h₁
          obtain ⟨hg', hia', hini', hda', hd⟩ := writeData_spec hn content hg.fits h₂
          rw [initial_writeIndex] at hini'
          rw [daBlocks_writeIndex] at hda' hd h ⊢
          rw [iaNum_writeIndex] at hia'
          rw [hda] at hda' hd h ⊢
          have hblocks : a.blocks = ceilBlocks content.length := by simp [Arg.blocks, hs]
          have hfits := hg'.fits
          unfold Fits at hfits
          refine added_entries hn (hg.trans hg') (hini'.trans hini) (by omega) (hia'.trans hia) ?_
          have hbe : u32 (mk₂.daBlocks + 4294967295) = mk₂.daBlocks - 1 := by
            unfold u32
            omega
          exact describes_entry hlen (by omega)
            (Or.inr ⟨content, hs, rfl, rfl, by rw [hbe]; omega, u32_lt _, hd⟩)

/-- The walk through the index from the element `p` down to the volume identifier
comes past exactly the given entries. -/
inductive Walk (nblk : Nat) (img : Memory) : Nat → List (Nat × Index) → Prop
  | nil : Walk nblk img 0 []
  | cons {p : Nat} {es : List (Nat × Index)} {idx : Index} (rest : Walk nblk img p es)
      (holds : Holds nblk img (p + (ne idx + 1)) idx)
      (etype : etype idx = iatDirEnt ∨ etype idx = iatFileEnt) :
      Walk nblk img (p + (ne idx + 1)) ((p + (ne idx + 1), idx) :: es)

theorem Walk.kept {nblk da ia p : Nat} {img img' : Memory} {es : List (Nat × Index)}
    (h : Walk nblk img p es) (hk : Kept nblk da ia img img') (hp : p < ia) (hia : ia ≤ 8 * nblk) :
    Walk nblk img' p es := by
  induction h with
  | nil => exact .nil
  | cons rest holds etype ih => exact .cons (ih (by omega)) (holds.kept hk hp hia) etype

/-- The entry of the root directory. The kernel's `struct sfs_dir` has its name at
another offset, where this entry has zero bytes. -/
structure IsRoot (idx : Index) : Prop where
  etype : etype idx = iatDirEnt
  ne : ne idx = 0
  name : idx 10 = 0
  blkStart : blkStart idx = 0
  blkEnd : blkEnd idx = 0

theorem IsRoot.walk {nblk : Nat} {img : Memory} {root : Index} (h : IsRoot root)
    (hholds : Holds nblk img 1 root) : Walk nblk img 1 [(1, root)] := by
  have hholds' : Holds nblk img (0 + (Sfs.ne root + 1)) root := by
    rw [h.ne]
    exact hholds
  have hw := Walk.cons .nil hholds' (Or.inl h.etype)
  rwa [h.ne] at hw

/-- The arguments with the first of the blocks that each of them is given, when
the first argument is given the block `s`. -/
def starts : Nat → List Arg → List (Nat × Arg)
  | _, [] => []
  | s, a :: args => (s, a) :: starts (s + a.blocks) args

/-- The number of data blocks of all arguments. -/
def totalBlocks (args : List Arg) : Nat := (args.map Arg.blocks).sum

theorem starts_append (s : Nat) (args : List Arg) (a : Arg) :
    starts s (args ++ [a]) = starts s args ++ [(s + totalBlocks args, a)] := by
  induction args generalizing s with
  | nil => rfl
  | cons b args ih => simp [starts, ih, totalBlocks, Nat.add_assoc]

/-- The invariant of a run of `mk_sfs` over the arguments `args`. -/
structure Layout (nblk : Nat) (args : List Arg) (mk : Mk) : Prop where
  fits : Fits nblk mk.daBlocks mk.iaNum
  super : ∀ x, x < 512 → mk.img x = superblock nblk x
  walk : ∃ p, mk.iaNum = p + 1 ∧ Walk nblk mk.img p mk.initial.reverse
  daBlocks : mk.daBlocks = 1 + totalBlocks args
  entries : ∃ root es, mk.initial = (1, root) :: es ∧ IsRoot root ∧
    List.Forall₂ (fun a e => Describes mk.img mk.daBlocks a.1 a.2 e.2) (starts 1 args) es

theorem Layout.added {nblk : Nat} {args : List Arg} {a : Arg} {mk mk' : Mk}
    (h : Layout nblk args mk) (ha : Added nblk a mk mk') : Layout nblk (args ++ [a]) mk' := by
  have hf := h.fits
  unfold Fits at hf
  obtain ⟨idx, hini, hholds, hd⟩ := ha.entry
  have hia := ha.iaNum
  obtain ⟨p, hp, hw⟩ := h.walk
  have hk := ha.grown.kept
  refine ⟨ha.grown.fits, ?_, ⟨p + (nieFile a.name.len + 1), by omega, ?_⟩, ?_, ?_⟩
  · intro x hx
    rw [hk x (by omega) (Or.inl (by omega)), h.super x hx]
  · have hw' := hw.kept hk (by omega) (by omega)
    have hlast : mk'.iaNum - 1 = p + (ne idx + 1) := by
      rw [hd.ne]
      omega
    rw [hini, List.reverse_append, hlast, ← hd.ne]
    refine .cons hw' (hlast ▸ hholds) ?_
    rcases hd.kind with ⟨-, ht⟩ | ⟨_, -, ht, -⟩
    · exact Or.inl ht
    · exact Or.inr ht
  · rw [ha.daBlocks, h.daBlocks]
    simp [totalBlocks, Nat.add_assoc]
  · obtain ⟨root, es, hes, hroot, hall⟩ := h.entries
    refine ⟨root, es ++ [(mk'.iaNum - 1, idx)], by rw [hini, hes, List.cons_append], hroot, ?_⟩
    rw [starts_append, ← h.daBlocks]
    refine List.rel_append ?_ (List.Forall₂.cons hd List.Forall₂.nil)
    exact hall.imp fun _ _ h' => h'.kept hk ha.grown.daBlocks (by omega)

theorem writeFiles_layout {nblk : Nat} (hn : 512 * nblk < 4294967296) {args done : List Arg}
    {mk mk' : Mk} (h : Layout nblk done mk) (hw : writeFiles nblk args mk = some mk') :
    Layout nblk (done ++ args) mk' := by
  induction args generalizing done mk with
  | nil =>
      cases hw
      simpa using h
  | cons a args ih =>
      obtain ⟨mk₁, h₁, h₂⟩ := Option.bind_eq_some_iff.1 hw
      have hpos : 0 < mk.daBlocks := by rw [h.daBlocks]; omega
      have := ih (h.added (writeFile_spec hn h.fits hpos h₁)) h₂
      simpa using this

/-- `init_sb` and `init_index` write the superblock and an index without entries. -/
theorem initIndex_spec {nblk : Nat} (hn : 512 * nblk < 4294967296) {mk : Mk}
    (h : initIndex nblk (initSb nblk ⟨zeros, 0, 0, []⟩) = some mk) :
    Fits nblk 0 1 ∧ mk.daBlocks = 0 ∧ mk.iaNum = 1 ∧ mk.initial = [] ∧
      ∀ x, x < 512 → mk.img x = superblock nblk x := by
  obtain ⟨mka, ha, h⟩ := Option.bind_eq_some_iff.1 h
  rw [← Option.some_inj.1 h]
  obtain ⟨rfl, hfa⟩ := incAndVerify_iaNum hn (by simp [initSb]) (by simp) (by omega) ha
  simp only [daBlocks_writeIndex, iaNum_writeIndex, initSb, daBlocks_writeBlock] at hfa ⊢
  have hfa' := hfa
  unfold Fits at hfa'
  refine ⟨hfa, trivial, trivial, by simp, fun x hx => ?_⟩
  rw [writeIndex_img hn (by omega), place, paste_apply_of_notMem (by omega)]
  simp only
  rw [writeIndex_img hn (by omega), place, paste_apply_of_notMem (by omega),
    writeBlock_img hn (by omega), paste_apply_of_mem (by omega)]
  simp

theorem isRoot_rootEntry (da : Nat) (hda : da = 0) : IsRoot (slice 64 (rootEntry da) 0) := by
  subst hda
  refine ⟨by rw [rootEntry, etype_entry]; rfl, by rw [rootEntry, ne_entry], ?_,
    by rw [rootEntry, blkStart_entry]; rfl, by rw [rootEntry, blkEnd_entry]; rfl⟩
  simp [slice, rootEntry, entry, strncpy, putLe, paste]

/-- `init_root` adds the root entry, which is given the first data block. -/
theorem initRoot_layout {nblk : Nat} (hn : 512 * nblk < 4294967296) {mk mk' : Mk}
    (hf : Fits nblk 0 1) (hda : mk.daBlocks = 0) (hia : mk.iaNum = 1) (hini : mk.initial = [])
    (hsuper : ∀ x, x < 512 → mk.img x = superblock nblk x)
    (h : initRoot nblk mk = some mk') : Layout nblk [] mk' := by
  unfold Fits at hf
  obtain ⟨mkb, hb, h⟩ := Option.bind_eq_some_iff.1 h
  obtain ⟨mkc, hc, h⟩ := Option.bind_eq_some_iff.1 h
  obtain ⟨himg₁, hda₁, hia₁, hini₁⟩ := @writeInitial_fields nblk 1 (rootEntry mk.daBlocks)
    mk hn (by omega)
  have hidx := isRoot_rootEntry mk.daBlocks hda
  rw [hini, List.nil_append] at hini₁
  rw [hia] at hb
  generalize rootEntry mk.daBlocks = root at *
  obtain ⟨rfl, hfb⟩ := incAndVerify_daBlocks hn (by rw [hda₁]; omega) (by rw [hia₁]; omega) hb
  rw [hda₁, hia₁, hda, hia] at hfb
  have hfb' := hfb
  unfold Fits at hfb'
  obtain ⟨rfl, hfc⟩ := incAndVerify_iaNum hn (by simp only [hda₁]; omega)
    (by simp only [hia₁]; omega) (by omega) hc
  simp only [hda₁, hia₁, hda, hia] at hfc
  have hfc' := hfc
  unfold Fits at hfc'
  rw [← Option.some_inj.1 h]
  simp only [hia₁, hda₁, hini₁, himg₁, hia, hda]
  have himg : ∀ mk : Mk, (writeIndex nblk 2 mark mk).img = paste mk.img (place nblk 2) 64 mark :=
    fun mk => writeIndex_img hn (by omega)
  refine ⟨?_, ?_, ⟨1, by rw [iaNum_writeIndex], ?_⟩, ?_, ?_⟩
  · rw [daBlocks_writeIndex, iaNum_writeIndex]
    exact hfc
  · intro x hx
    rw [himg, paste_apply_of_notMem (by unfold place; omega)]
    simp only
    rw [paste_apply_of_notMem (by unfold place; omega), hsuper x hx]
  · rw [initial_writeIndex, himg]
    have hholds : Holds nblk (paste (paste mk.img (place nblk 1) 64 root) (place nblk 2) 64 mark) 1
        (slice 64 root 0) := by
      refine slice_congr fun i hi => ?_
      rw [paste_apply_of_notMem (by unfold place; omega), paste_apply_add hi, Nat.zero_add]
    rw [List.reverse_singleton]
    simp only
    exact hidx.walk hholds
  · rw [daBlocks_writeIndex]
    rfl
  · exact ⟨slice 64 root 0, [], by rw [initial_writeIndex], hidx, List.Forall₂.nil⟩

section

variable (sb : Memory) (daBlk iaSize : Nat)

theorem setAreas_apply {x : Nat} (h : 428 ≤ x) : setAreas sb daBlk iaSize x = sb x := by
  rw [setAreas, putLe, paste_apply_of_notMem (by omega), putLe, paste_apply_of_notMem (by omega),
    putLe, paste_apply_of_notMem (by omega)]

theorem getLe_setAreas_daBlk : getLe (setAreas sb daBlk iaSize) 412 8 = daBlk % 256 ^ 8 := by
  refine getLe_of_digits fun i hi => ?_
  rw [setAreas, putLe, paste_apply_of_notMem (by omega), putLe, paste_apply_add hi]

theorem getLe_setAreas_iaSize : getLe (setAreas sb daBlk iaSize) 420 8 = iaSize % 256 ^ 8 :=
  getLe_putLe _ _ _ _

end

/-- What a finished image holds: the invariant, up to the fields of the superblock
that `update_sb` sets. -/
structure Made (nblk : Nat) (args : List Arg) (mk : Mk) : Prop where
  fits : Fits nblk mk.daBlocks mk.iaNum
  super : ∀ x, 428 ≤ x → x < 512 → mk.img x = superblock nblk x
  daBlk : getLe mk.img 412 8 = mk.daBlocks
  iaSize : getLe mk.img 420 8 = mk.iaNum * 64
  walk : ∃ p, mk.iaNum = p + 1 ∧ Walk nblk mk.img p mk.initial.reverse
  daBlocks : mk.daBlocks = 1 + totalBlocks args
  entries : ∃ root es, mk.initial = (1, root) :: es ∧ IsRoot root ∧
    List.Forall₂ (fun a e => Describes mk.img mk.daBlocks a.1 a.2 e.2) (starts 1 args) es

theorem mkSfs_made {nblk : Nat} (hn : 512 * nblk < 4294967296) {args : List Arg} {mk : Mk}
    (h : mkSfs nblk args = some mk) : Made nblk args mk := by
  obtain ⟨mk₁, h₁, h⟩ := Option.bind_eq_some_iff.1 h
  obtain ⟨mk₂, h₂, h⟩ := Option.bind_eq_some_iff.1 h
  obtain ⟨mk₃, h₃, h⟩ := Option.bind_eq_some_iff.1 h
  obtain ⟨hf₁, hda₁, hia₁, hini₁, hsuper⟩ := initIndex_spec hn h₁
  have hl := writeFiles_layout hn (initRoot_layout hn hf₁ hda₁ hia₁ hini₁ hsuper h₂) h₃
  rw [List.nil_append] at hl
  have hf := hl.fits
  unfold Fits at hf
  generalize hsb : setAreas mk₃.img mk₃.daBlocks (u32 (mk₃.iaNum * 64)) = sb
  have hmk : mk = writeBlock 0 sb mk₃ := by rw [← hsb]; exact (Option.some_inj.1 h).symm
  have himg : mk.img = paste mk₃.img 0 512 sb := by
    rw [hmk, writeBlock_img hn (by omega)]
  have hda : mk.daBlocks = mk₃.daBlocks := by rw [hmk, daBlocks_writeBlock]
  have hia : mk.iaNum = mk₃.iaNum := by rw [hmk, iaNum_writeBlock]
  have hini : mk.initial = mk₃.initial := by rw [hmk, initial_writeBlock]
  -- Everything behind the superblock stays as it is.
  have hout : ∀ x, 512 ≤ x → mk.img x = mk₃.img x := fun x hx => by
    rw [himg, paste_apply_of_notMem (by omega)]
  have hin : ∀ x, x < 512 → mk.img x = sb x := fun x hx => by
    rw [himg, paste_apply_of_mem (by omega)]
    simp
  have hsize : u32 (mk₃.iaNum * 64) = mk₃.iaNum * 64 := u32_eq_self (by omega)
  rw [hsize] at hsb
  refine ⟨by rw [hda, hia]; exact hl.fits, ?_, ?_, ?_, ?_, hda.trans hl.daBlocks, ?_⟩
  · intro x hx hx'
    rw [hin x hx', ← hsb, setAreas_apply _ _ _ hx, hl.super x hx']
  · have hread := getLe_setAreas_daBlk mk₃.img mk₃.daBlocks (mk₃.iaNum * 64)
    rw [hsb, Nat.mod_eq_of_lt (by omega)] at hread
    rw [hda, ← hread]
    exact getLe_congr fun i hi => hin _ (by omega)
  · have hread := getLe_setAreas_iaSize mk₃.img mk₃.daBlocks (mk₃.iaNum * 64)
    rw [hsb, Nat.mod_eq_of_lt (by omega)] at hread
    rw [hia, ← hread]
    exact getLe_congr fun i hi => hin _ (by omega)
  · obtain ⟨p, hp, hw⟩ := hl.walk
    rw [hia, hini]
    refine ⟨p, hp, ?_⟩
    clear hini
    generalize mk₃.initial.reverse = es at hw
    have hp' : p < mk₃.iaNum := by omega
    clear hp
    induction hw with
    | nil => exact .nil
    | @cons q es idx rest holds het ih =>
        refine .cons (ih (by omega)) (Eq.trans ?_ holds) het
        exact slice_congr fun i hi => hout _ (by unfold place; omega)
  · obtain ⟨root, es, hes, hroot, hall⟩ := hl.entries
    refine ⟨root, es, hini.trans hes, hroot, hall.imp fun a e h' => ⟨h'.ne, h'.name, ?_⟩⟩
    rw [hda]
    rcases h'.kind with hd | ⟨content, hs, ht, hlen, hb, he, hd⟩
    · exact Or.inl hd
    · refine Or.inr ⟨content, hs, ht, hlen, hb, he, hd.room, fun i hi => ?_⟩
      rw [hout _ (by omega), hd.bytes i hi]

end Sfs

end Chunix
