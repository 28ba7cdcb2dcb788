import Chunix.Drv.Console
import Chunix.Mm.View
import Chunix.Task.Clone

/-!
# Reading typed characters

`stdin_read` takes the characters it was asked for one after the other. When there
is none left in the middle of it, it returns `-1`, and what it has taken so far is
lost. The same happens at the character `0xff`, which looks like `-1`.
-/

namespace Chunix

namespace Syscall

open Machine Act Sfs

/-- The positions are places of the buffer. -/
structure Console.Valid (c : Console) : Prop where
  rpos_lt : c.rpos < 2000
  wpos_lt : c.wpos < 2000

/-- The characters that are waiting in the buffer, in order. -/
def Console.waiting (c : Console) : List UInt8 :=
  (List.range ((c.wpos + 2000 - c.rpos) % 2000)).map fun i => c.buf ((c.rpos + i) % 2000)

section

variable {c : Console}

theorem Console.Valid.next (h : c.Valid) : c.next.Valid := by
  obtain ⟨hr, hw⟩ := h
  refine ⟨?_, hw⟩
  show (if c.rpos + 1 = 2000 then 0 else c.rpos + 1) < 2000
  split_ifs <;> omega

theorem Console.waiting_of_eq (h : c.rpos = c.wpos) : c.waiting = [] := by
  rw [Console.waiting, h, Nat.add_sub_cancel_left]
  rfl

/-- The first character that is waiting, and the others. -/
theorem Console.Valid.waiting_eq (h : c.Valid) (hne : c.rpos ≠ c.wpos) :
    c.waiting = c.buf c.rpos :: c.next.waiting := by
  obtain ⟨hr, hw⟩ := h
  have hnext : c.next.rpos = (c.rpos + 1) % 2000 := by
    show (if c.rpos + 1 = 2000 then 0 else c.rpos + 1) = (c.rpos + 1) % 2000
    split_ifs <;> omega
  have hcount : (c.wpos + 2000 - c.rpos) % 2000 = (c.wpos + 2000 - c.next.rpos) % 2000 + 1 := by
    omega
  have hwpos : c.next.wpos = c.wpos := rfl
  rw [Console.waiting, hcount, List.range_succ_eq_map, List.map_cons, List.map_map, Console.waiting,
    Nat.add_zero, Nat.mod_eq_of_lt hr, hwpos]
  refine congrArg _ (List.map_congr_left fun i _ => ?_)
  show c.buf ((c.rpos + (i + 1)) % 2000) = c.buf ((c.next.rpos + i) % 2000)
  rw [hnext, Nat.mod_add_mod, Nat.add_assoc, Nat.add_comm 1 i]

/-- A character is stored as it was typed. -/
theorem ofNat_word_char (b : UInt8) : UInt8.ofNat (word (char b)) = b := by
  have hb := b.toNat_lt
  refine UInt8.toNat_inj.1 ?_
  rw [UInt8.toNat_ofNat']
  unfold word char
  split_ifs <;> omega

end

/-- The stores to the `n` bytes at `buf` succeed, and each of them changes its own
byte. -/
def Writes (A : Abstraction Mm Memory) (put : Nat → UInt8 → Act Mm Unit) (buf n : Nat) : Prop :=
  ∀ v i b, i < n → Gives A v (put (buf + i) b) () (Function.update v (buf + i) b)

/-- A buffer in pages of the user that are mapped. -/
theorem writes_vstore8 {s : Mm.Space} {U : Nat → Prop} {buf n : Nat} (hbuf : buf + n ≤ 4294967296)
    (hU : ∀ i, i < n → U ((buf + i) / 4096)) : Writes (Mm.seen s U) Mm.vstore8 buf n :=
  fun _ i b hi => Mm.gives_vstore8 (by omega) (hU i hi) b

/-- No input is lost: the call says that there is nothing and has taken nothing, or
it has taken as many characters as it says and put them into the buffer in order. -/
def Lossless (A : Abstraction Mm Memory) (buf : Nat) (w : World) (r : Int) (w' : World) : Prop :=
  (r = -1 ∧ w'.cons.waiting = w.cons.waiting) ∨
    ∃ k : Nat, 1 ≤ k ∧ r = k ∧ k ≤ w.cons.waiting.length ∧
      w'.cons.waiting = w.cons.waiting.drop k ∧
      ∀ i (hi : i < w.cons.waiting.length), i < k →
        A.view w'.kernel.mm (buf + i) = w.cons.waiting[i]

section

variable {A : Abstraction Mm Memory} {put : Nat → UInt8 → Act Mm Unit} {buf n i : Nat} {w : World}

/-- A turn of the loop with a character that is waiting. -/
theorem stdinLoop_turn (hw : Writes A put buf (i + (n + 1))) (hok : A.ok w.kernel.mm) (hne : w.cons.rpos ≠ w.cons.wpos)
    (hff : w.cons.buf w.cons.rpos ≠ 0xff) : ∃ w₁,
      stdinLoop put buf (n + 1) i w = stdinLoop put buf n (i + 1) w₁ ∧ w₁.cons = w.cons.next ∧
      A.ok w₁.kernel.mm ∧ A.view w₁.kernel.mm =
        Function.update (A.view w.kernel.mm) (buf + i) (w.cons.buf w.cons.rpos) := by
  have hget : getC w = .ok (char (w.cons.buf w.cons.rpos), { w with cons := w.cons.next }) := by
    rw [getC_eq, Console.get, if_neg hne]
  obtain ⟨_, m, hm, hok', -, hview⟩ := hw (A.view w.kernel.mm) i (w.cons.buf w.cons.rpos) (by omega)
    w.kernel.mm hok rfl
  rw [stdinLoop, bind_of_ok hget, if_neg (fun he => hff (char_eq_neg_one.1 he)), ofNat_word_char]
  refine ⟨_, bind_of_ok (zoom_eq_ok.2 ⟨m, hm, rfl⟩), rfl, hok', hview⟩

/-- With enough characters the loop takes them all. -/
theorem stdinLoop_full (hw : Writes A put buf (i + n)) (hv : w.cons.Valid) (hok : A.ok w.kernel.mm)
    (hn : n ≤ w.cons.waiting.length) (hff : 0xff ∉ w.cons.waiting.take n) :
    ∃ w', stdinLoop put buf n i w = .ok (((i + n : Nat) : Int), w') ∧ A.ok w'.kernel.mm ∧
      w'.cons.waiting = w.cons.waiting.drop n ∧
      (∀ a, a < buf + i ∨ buf + (i + n) ≤ a → A.view w'.kernel.mm a = A.view w.kernel.mm a) ∧
      ∀ j (hj : j < w.cons.waiting.length), j < n →
        A.view w'.kernel.mm (buf + (i + j)) = w.cons.waiting[j] := by
  induction n generalizing i w with
  | zero => exact ⟨w, rfl, hok, rfl, fun _ _ => rfl, fun j _ hj => absurd hj (Nat.not_lt_zero j)⟩
  | succ n ih =>
      have hne : w.cons.rpos ≠ w.cons.wpos := by
        intro he
        rw [Console.waiting_of_eq he] at hn
        exact absurd hn (Nat.not_succ_le_zero n)
      have hwait := hv.waiting_eq hne
      rw [hwait, List.take_succ_cons, List.mem_cons, not_or] at hff
      obtain ⟨w₁, hturn, hcons, hok₁, hview₁⟩ := stdinLoop_turn hw hok hne (Ne.symm hff.1)
      have hn₁ : n ≤ w₁.cons.waiting.length := by
        rw [hcons]
        rw [hwait, List.length_cons] at hn
        omega
      obtain ⟨w', hw', hok', hrest, hbelow, hbytes⟩ := @ih (i + 1) w₁
        (by rwa [Nat.add_assoc, Nat.add_comm 1 n]) (by rw [hcons]; exact hv.next) hok₁ hn₁
        (by rw [hcons]; exact hff.2)
      refine ⟨w', ?_, hok', ?_, ?_, ?_⟩
      · rw [hturn, hw', Nat.add_assoc, Nat.add_comm 1 n]
      · rw [hrest, hcons, hwait, List.drop_succ_cons]
      · intro a ha
        rw [hbelow a (by omega), hview₁, Function.update_of_ne (by omega)]
      · intro j hj hjn
        cases j with
        | zero =>
            rw [Nat.add_zero, hbelow _ (Or.inl (by omega)), hview₁, Function.update_self]
            simp only [hwait, List.getElem_cons_zero]
        | succ j =>
            have hj₁ : j < w₁.cons.waiting.length := by
              rw [hcons]
              rw [hwait, List.length_cons] at hj
              omega
            have := hbytes j hj₁ (by omega)
            rw [show i + (j + 1) = i + 1 + j by omega, this]
            simp only [hcons, hwait, List.getElem_cons_succ]

/-- Without enough characters the loop says that there is nothing, and has taken
what there was. -/
theorem stdinLoop_short (hw : Writes A put buf (i + n)) (hv : w.cons.Valid) (hok : A.ok w.kernel.mm)
    (hn : w.cons.waiting.length < n ∨ 0xff ∈ w.cons.waiting.take n) :
    ∃ w', stdinLoop put buf n i w = .ok (-1, w') ∧
      w'.cons.waiting.length ≤ w.cons.waiting.length - 1 := by
  induction n generalizing i w with
  | zero =>
      rcases hn with hn | hn
      · omega
      · cases hn
  | succ n ih =>
      by_cases hne : w.cons.rpos = w.cons.wpos
      · have hget : getC w = .ok (-1, w) := by rw [getC_eq, Console.get, if_pos hne]
        refine ⟨w, ?_, ?_⟩
        · rw [stdinLoop, bind_of_ok hget, if_pos rfl]
          rfl
        · rw [Console.waiting_of_eq hne]
          exact Nat.zero_le _
      · have hwait := hv.waiting_eq hne
        have hlen := congrArg List.length hwait
        rw [List.length_cons] at hlen
        by_cases hff : w.cons.buf w.cons.rpos = 0xff
        · have hget : getC w = .ok (char (w.cons.buf w.cons.rpos), { w with cons := w.cons.next }) := by
            rw [getC_eq, Console.get, if_neg hne]
          refine ⟨{ w with cons := w.cons.next }, ?_, ?_⟩
          · rw [stdinLoop, bind_of_ok hget, if_pos (char_eq_neg_one.2 hff)]
            rfl
          · show w.cons.next.waiting.length ≤ _
            omega
        · obtain ⟨w₁, hturn, hcons, hok₁, -⟩ := stdinLoop_turn hw hok hne hff
          have hn₁ : w₁.cons.waiting.length < n ∨ 0xff ∈ w₁.cons.waiting.take n := by
            rw [hcons]
            rcases hn with hn | hn
            · exact Or.inl (by omega)
            · rw [hwait, List.take_succ_cons, List.mem_cons] at hn
              exact Or.inr (hn.resolve_left (Ne.symm hff))
          obtain ⟨w', hw', hless⟩ := @ih (i + 1) w₁ (by rwa [Nat.add_assoc, Nat.add_comm 1 n])
            (by rw [hcons]; exact hv.next) hok₁ hn₁
          rw [hcons] at hless
          exact ⟨w', hturn.trans hw', by omega⟩

/-- `stdin_read` loses no input if and only if nothing is waiting, or all the
characters that it was asked for are waiting and none of them is `0xff`. -/
theorem stdinRead_lossless_iff {n : Int} (hn : 1 ≤ n) (hw : Writes A put buf n.toNat)
    (hv : w.cons.Valid) (hok : A.ok w.kernel.mm) :
    (∃ r w', stdinRead put buf n w = .ok (r, w') ∧ Lossless A buf w r w') ↔
      (w.cons.waiting = [] ∨
        n.toNat ≤ w.cons.waiting.length ∧ 0xff ∉ w.cons.waiting.take n.toNat) := by
  have hw₀ : Writes A put buf (0 + n.toNat) := by rwa [Nat.zero_add]
  by_cases hfull : n.toNat ≤ w.cons.waiting.length ∧ 0xff ∉ w.cons.waiting.take n.toNat
  · refine iff_of_true ?_ (Or.inr hfull)
    obtain ⟨w', hw', -, hrest, -, hbytes⟩ := stdinLoop_full hw₀ hv hok hfull.1 hfull.2
    refine ⟨_, w', hw', Or.inr ⟨n.toNat, by omega, by rw [Nat.zero_add], hfull.1, hrest, ?_⟩⟩
    intro i hi hin
    have := hbytes i hi hin
    rwa [Nat.zero_add] at this
  · have hshort : w.cons.waiting.length < n.toNat ∨ 0xff ∈ w.cons.waiting.take n.toNat := by
      by_contra hno
      rw [not_or] at hno
      exact hfull ⟨Nat.not_lt.1 hno.1, hno.2⟩
    obtain ⟨w', hw', hless⟩ := stdinLoop_short hw₀ hv hok hshort
    rw [or_iff_left hfull]
    constructor
    · rintro ⟨r, w'', hw'', hlossless⟩
      cases hw'.symm.trans hw''
      rcases hlossless with ⟨-, hsame⟩ | ⟨k, -, hr, -⟩
      · rw [hsame] at hless
        exact List.length_eq_zero_iff.1 (by omega)
      · omega
    · intro hnil
      refine ⟨-1, w', hw', Or.inl ⟨rfl, ?_⟩⟩
      rw [hnil, List.length_nil] at hless
      rw [hnil]
      exact List.length_eq_zero_iff.1 (by omega)

end

/-- A task with one page of memory and `n` characters in the console. -/
def typist (n : Nat) : World where
  kernel := Chunix.Task.smallKernel 0
  files := ⟨⟨0, 0, 0, 0, 0⟩, Fs.bootCache ⟨fun _ _ => 0, 0⟩, fun _ => ⟨0, none, fun _ => 0⟩,
    fun _ => ⟨0, 0, 0, 0, 0, none⟩, fun _ _ => none⟩
  cons := ⟨fun _ => 0x61, 0, n⟩
  syscalls := 0
  entry := fun _ => 0
  wild := fun _ => none

theorem typist_sees (n : Nat) :
    Mm.Sees (Chunix.Task.smallSpace 0) (fun n => n = 0) (typist n).kernel.mm := by
  refine (Chunix.Task.smallKernel_imaged (by decide)).sees rfl ?_
  rw [Chunix.Task.smallKernel_entry (by decide), if_pos rfl]
  decide

/-- Two characters are asked for and two are waiting. -/
theorem typist_reads : ∃ r w', stdinRead Mm.vstore8 0x100 2 (typist 2) = .ok (r, w') ∧
    Lossless (Mm.seen (Chunix.Task.smallSpace 0) fun n => n = 0) 0x100 (typist 2) r w' :=
  (stdinRead_lossless_iff (by decide) (writes_vstore8 (by decide) (by decide)) ⟨by decide, by decide⟩
    (typist_sees 2)).2 (Or.inr (by decide))

/-- Two characters are asked for and one is waiting: it is lost. -/
theorem typist_loses : ∃ w', stdinRead Mm.vstore8 0x100 2 (typist 1) = .ok (-1, w') ∧
    (typist 1).cons.waiting = [0x61] ∧ w'.cons.waiting = [] ∧
    ¬ Lossless (Mm.seen (Chunix.Task.smallSpace 0) fun n => n = 0) 0x100 (typist 1) (-1) w' := by
  have hone : (typist 1).cons.waiting = [0x61] := by decide
  have hwrites : Writes (Mm.seen (Chunix.Task.smallSpace 0) fun n => n = 0) Mm.vstore8 0x100 (0 + 2) :=
    writes_vstore8 (by decide) (by decide)
  obtain ⟨w', hw', hless⟩ := stdinLoop_short hwrites ⟨by decide, by decide⟩ (typist_sees 1)
    (Or.inl (by decide))
  rw [hone, List.length_singleton] at hless
  have hnil : w'.cons.waiting = [] := List.length_eq_zero_iff.1 (by omega)
  refine ⟨w', hw', hone, hnil, ?_⟩
  rintro (⟨-, hsame⟩ | ⟨k, -, hr, -⟩)
  · rw [hnil, hone] at hsame
    cases hsame
  · omega

end Syscall

end Chunix
