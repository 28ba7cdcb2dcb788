import Chunix.Machine.Act
import Chunix.Machine.Bytes
import Mathlib.Data.List.Sort

/-!
# The arguments of a command

The shell `hsh` cuts a command line at its blanks in place and collects pointers to the
words in an array. The array gets one entry for every word and a null pointer behind
them, whatever its size is: a line with too many words is complained about and written
behind the end of the array.
-/

namespace Chunix

namespace Hsh

open Machine

/-- The shell: its memory, the entries that have been written to the array `buf`, in
order, and its output. -/
structure Shell where
  mem : Memory
  argv : List Nat
  output : List UInt8

/-- A space or a tab. -/
def Blank (c : UInt8) : Prop := c = 0x20 ∨ c = 0x09

instance (c : UInt8) : Decidable (Blank c) := inferInstanceAs (Decidable (_ ∨ _))

/-- The loop of `strlen`. Addresses are numbers of 32 bits. -/
def strlenLoop : Nat → Nat → Nat → Act Shell Nat
  | 0, _, _ => Act.halt .hang
  | fuel + 1, s, len => do
      let c ← Act.gets fun sh => sh.mem s
      if c ≠ 0 then strlenLoop fuel (u32 (s + 1)) (len + 1) else return len

def strlen (s : Nat) : Act Shell Nat := strlenLoop 4294967296 s 0

/-- The first loop of `str_forward`, with `n` bytes up to `end`. -/
def skipBlanks (m : Memory) : Nat → Nat → Nat
  | 0, p => p
  | n + 1, p => if Blank (m p) then skipBlanks m n (p + 1) else p

/-- The second loop of `str_forward`, with `n` bytes up to `end`. -/
def skipWord (m : Memory) : Nat → Nat → Nat
  | 0, p => p
  | n + 1, p => if Blank (m p) then p else skipWord m n (p + 1)

/-- `str_forward`: its result and the new value of `*start`. -/
def strForward (m : Memory) (start stop : Nat) : Nat × Nat :=
  let s := skipBlanks m (stop - start) start
  (s, skipWord m (stop - s) s)

/-- The line that `split_args` prints when there are too many words. -/
def tooMany : List UInt8 := "Too many arguments!\n".toList.map fun c => UInt8.ofNat c.toNat

/-- The check of the number of words. The call of `exit` behind the message is commented
out. -/
def complain (maxn i : Nat) : Act Shell Unit :=
  if maxn ≤ i then Act.modify fun sh => { sh with output := sh.output ++ tooMany } else pure ()

/-- The loop of `split_args`. -/
def splitLoop (q maxn : Nat) : Nat → Nat → Nat → Nat → Act Shell Unit
  | 0, _, _, _ => Act.halt .hang
  | fuel + 1, p, str, i =>
      if p < q then do
        complain maxn (i + 1)
        Act.modify fun sh => { sh with argv := sh.argv ++ [p], mem := Function.update sh.mem str 0 }
        let str := u32 (str + 1)
        let len ← strlen str
        let m ← Act.gets fun sh => sh.mem
        let (p, str) := strForward m str (u32 (str + len))
        splitLoop q maxn fuel p str (i + 1)
      else Act.modify fun sh => { sh with argv := sh.argv ++ [0] }

def splitArgs (str maxn : Nat) : Act Shell Unit := do
  let q := u32 (str + (← strlen str))
  let stop := u32 (str + (← strlen str))
  let m ← Act.gets fun sh => sh.mem
  let (p, str) := strForward m str stop
  splitLoop q maxn 4294967296 p str 0

/-- A word of the string begins at the offset `i`. -/
def IsStart (s : CString) (i : Nat) : Prop :=
  i < s.len ∧ ¬ Blank (s.text i) ∧ (i = 0 ∨ Blank (s.text (i - 1)))

instance (s : CString) (i : Nat) : Decidable (IsStart s i) := inferInstanceAs (Decidable (_ ∧ _))

/-- The offsets where the words of the string begin. -/
def starts (s : CString) : List Nat := (List.range s.len).filter fun i => IsStart s i

/-- The bytes from `i` up to `j` are a maximal run of bytes that are not blank. -/
structure MaxRun (s : CString) (i j : Nat) : Prop where
  lt : i < j
  le : j ≤ s.len
  word : ∀ k, i ≤ k → k < j → ¬ Blank (s.text k)
  left : i = 0 ∨ Blank (s.text (i - 1))
  right : j = s.len ∨ Blank (s.text j)

/-- The string lies at the address `a`, not at the very end of the address space. -/
structure Holds (m : Memory) (a : Nat) (s : CString) : Prop where
  text : ∀ i, i ≤ s.len → m (a + i) = s.text i
  bound : a + s.len + 1 < 4294967296

/-- The maximal run from `i` on lies in the memory as a string of its own. -/
def Lifted (s : CString) (a : Nat) (m : Memory) (i : Nat) : Prop :=
  ∃ j, MaxRun s i j ∧ m (a + j) = 0 ∧ ∀ k, i ≤ k → k < j → m (a + k) = s.text k

/-- The entries are pointers to the maximal runs, in order, each of them a string of
its own, and a null pointer behind them. -/
structure Split (s : CString) (a : Nat) (sh : Shell) : Prop where
  argv : sh.argv = (starts s).map (a + ·) ++ [0]
  runs : ∀ i j, MaxRun s i j → i ∈ starts s
  lifted : ∀ i ∈ starts s, Lifted s a sh.mem i


/-! ### The length of a string -/

/-- From an address below the end of the address space `strlen` counts the bytes up to
the first zero, around the end of the address space where it has to. -/
theorem strlenLoop_eq {sh : Shell} {fuel p n len : Nat} (hp : p < 4294967296) (hn : n < fuel)
    (hz : sh.mem (u32 (p + n)) = 0) (hnz : ∀ t, t < n → sh.mem (u32 (p + t)) ≠ 0) :
    strlenLoop fuel p len sh = .ok (len + n, sh) := by
  induction fuel generalizing p n len with
  | zero => omega
  | succ fuel ih =>
      have hu : u32 p = p := Nat.mod_eq_of_lt hp
      unfold strlenLoop
      rw [Act.bind_of_ok (Act.gets_eq_ok.2 ⟨rfl, rfl⟩)]
      cases n with
      | zero =>
          rw [Nat.add_zero, hu] at hz
          rw [if_neg (not_not.2 hz)]
          rfl
      | succ n =>
          have h0 := hnz 0 (Nat.succ_pos n)
          rw [Nat.add_zero, hu] at h0
          have hstep : ∀ t, u32 (u32 (p + 1) + t) = u32 (p + (t + 1)) := by
            intro t
            unfold u32
            omega
          rw [if_pos h0, ih (p := u32 (p + 1)) (n := n) (Nat.mod_lt _ (by decide)) (by omega)
            (by rw [hstep]; exact hz) fun t ht => by rw [hstep]; exact hnz (t + 1) (by omega),
            Nat.add_assoc, Nat.add_comm 1 n]

/-- The length of the rest of a string. -/
theorem strlen_rest {sh : Shell} {a k : Nat} {s : CString} (hb : a + s.len + 1 < 4294967296)
    (hk : k ≤ s.len) (htext : ∀ i, k ≤ i → i ≤ s.len → sh.mem (a + i) = s.text i) :
    strlen (a + k) sh = .ok (s.len - k, sh) := by
  have haddr : ∀ t, t ≤ s.len - k → u32 (a + k + t) = a + (k + t) := by
    intro t ht
    rw [u32, Nat.mod_eq_of_lt (by omega), Nat.add_assoc]
  have hzero : sh.mem (u32 (a + k + (s.len - k))) = 0 := by
    rw [haddr _ le_rfl, htext _ (by omega) (by omega), Nat.add_sub_cancel' hk, s.terminated]
  rw [strlen, strlenLoop_eq (n := s.len - k) (by omega) (by omega) hzero, Nat.zero_add]
  intro t ht
  rw [haddr t (Nat.le_of_lt ht), htext _ (by omega) (by omega)]
  exact s.nonzero _ (by omega)

/-- Behind a zero byte `strlen` returns too: it meets that byte again at the latest. -/
theorem strlen_behind {sh : Shell} {b : Nat} (hb : b + 1 < 4294967296) (hz : sh.mem b = 0) :
    ∃ n, strlen (b + 1) sh = .ok (n, sh) := by
  have hlast : sh.mem (u32 (b + 1 + 4294967295)) = 0 := by
    have haddr : u32 (b + 1 + 4294967295) = b := by
      unfold u32
      omega
    rw [haddr, hz]
  have hex : ∃ n, sh.mem (u32 (b + 1 + n)) = 0 := ⟨4294967295, hlast⟩
  have hle := Nat.find_min' hex hlast
  exact ⟨_, strlenLoop_eq hb (by omega) (Nat.find_spec hex) fun t ht => Nat.find_min hex ht⟩

/-! ### The next word -/

theorem le_skipBlanks (m : Memory) (n p : Nat) : p ≤ skipBlanks m n p := by
  induction n generalizing p with
  | zero => exact le_rfl
  | succ n ih =>
      unfold skipBlanks
      split
      · exact Nat.le_trans (Nat.le_succ p) (ih (p + 1))
      · exact le_rfl

/-- From the offset `k` on the next word of the string is the one from `i` up to `j`;
at the end of the string there is none and both are its length. -/
structure Forward (s : CString) (k i j : Nat) : Prop where
  le_start : k ≤ i
  start_le : i ≤ j
  stop_le : j ≤ s.len
  blank : ∀ x, k ≤ x → x < i → Blank (s.text x)
  word : ∀ x, i ≤ x → x < j → ¬ Blank (s.text x)
  start : i < s.len → ¬ Blank (s.text i)
  stop : j = s.len ∨ Blank (s.text j)

theorem skipBlanks_eq {m : Memory} {a : Nat} {s : CString} {n k : Nat} (hn : k + n = s.len)
    (htext : ∀ i, k ≤ i → i ≤ s.len → m (a + i) = s.text i) :
    ∃ i, skipBlanks m n (a + k) = a + i ∧ k ≤ i ∧ i ≤ s.len ∧
      (∀ x, k ≤ x → x < i → Blank (s.text x)) ∧ (i < s.len → ¬ Blank (s.text i)) := by
  induction n generalizing k with
  | zero => exact ⟨k, rfl, le_rfl, by omega, by omega, by omega⟩
  | succ n ih =>
      unfold skipBlanks
      rw [htext k le_rfl (by omega)]
      by_cases hb : Blank (s.text k)
      · rw [if_pos hb]
        obtain ⟨i, hi, hki, hile, hblank, hstart⟩ :=
          ih (k := k + 1) (by omega) fun i hi => htext i (by omega)
        refine ⟨i, hi, by omega, hile, fun x hx hxi => ?_, hstart⟩
        obtain rfl | hlt := Nat.eq_or_lt_of_le hx
        · exact hb
        · exact hblank x hlt hxi
      · rw [if_neg hb]
        exact ⟨k, rfl, le_rfl, by omega, by omega, fun _ => hb⟩

theorem skipWord_eq {m : Memory} {a : Nat} {s : CString} {n k : Nat} (hn : k + n = s.len)
    (htext : ∀ i, k ≤ i → i ≤ s.len → m (a + i) = s.text i) :
    ∃ j, skipWord m n (a + k) = a + j ∧ k ≤ j ∧ j ≤ s.len ∧
      (∀ x, k ≤ x → x < j → ¬ Blank (s.text x)) ∧ (j = s.len ∨ Blank (s.text j)) := by
  induction n generalizing k with
  | zero => exact ⟨k, rfl, le_rfl, by omega, by omega, Or.inl (by omega)⟩
  | succ n ih =>
      unfold skipWord
      rw [htext k le_rfl (by omega)]
      by_cases hb : Blank (s.text k)
      · rw [if_pos hb]
        exact ⟨k, rfl, le_rfl, by omega, by omega, Or.inr hb⟩
      · rw [if_neg hb]
        obtain ⟨j, hj, hkj, hjle, hword, hstop⟩ :=
          ih (k := k + 1) (by omega) fun i hi => htext i (by omega)
        refine ⟨j, hj, by omega, hjle, fun x hx hxj => ?_, hstop⟩
        obtain rfl | hlt := Nat.eq_or_lt_of_le hx
        · exact hb
        · exact hword x hlt hxj

theorem strForward_eq {m : Memory} {a k : Nat} {s : CString} (hk : k ≤ s.len)
    (htext : ∀ i, k ≤ i → i ≤ s.len → m (a + i) = s.text i) :
    ∃ i j, strForward m (a + k) (a + s.len) = (a + i, a + j) ∧ Forward s k i j := by
  obtain ⟨i, hi, hki, hile, hblank, hstart⟩ :=
    skipBlanks_eq (a := a) (n := a + s.len - (a + k)) (by omega) htext
  obtain ⟨j, hj, hij, hjle, hword, hstop⟩ :=
    skipWord_eq (a := a) (n := a + s.len - (a + i)) (k := i) (by omega)
      fun x hx => htext x (by omega)
  refine ⟨i, j, ?_, hki, hij, hjle, hblank, hword, hstart, hstop⟩
  simp only [strForward, hi, hj]

/-! ### The loop -/

/-- What the loop has done when it looks for the next word at the offset `k`: the words
that begin before `k` are cut out and have an entry each, and the rest of the line is as
it was. -/
structure Cut (s : CString) (a k : Nat) (sh : Shell) (is : List Nat) : Prop where
  argv : sh.argv = is.map (a + ·)
  sorted : is.Pairwise (· < ·)
  mem_iff : ∀ x, x ∈ is ↔ x < k ∧ IsStart s x
  lifted : ∀ x ∈ is, ∃ y, y < k ∧ MaxRun s x y ∧ sh.mem (a + y) = 0 ∧
    ∀ z, x ≤ z → z < y → sh.mem (a + z) = s.text z
  rest : ∀ x, k ≤ x → x ≤ s.len → sh.mem (a + x) = s.text x
  edge : k = 0 ∨ k = s.len + 1 ∨ Blank (s.text (k - 1))

namespace Cut

variable {s : CString} {a k i j : Nat} {sh : Shell} {is : List Nat}

/-- The next word is a maximal run: what stands before it is blank or nothing. -/
theorem maxRun (h : Cut s a k sh is) (hf : Forward s k i j) (hi : i < s.len) : MaxRun s i j := by
  have hij : i < j := by
    refine Nat.lt_of_le_of_ne hf.start_le fun he => ?_
    subst he
    exact hf.stop.elim (fun hl => by omega) (hf.start hi)
  refine ⟨hij, hf.stop_le, hf.word, ?_, hf.stop⟩
  obtain rfl | hlt := Nat.eq_or_lt_of_le hf.le_start
  · obtain h0 | hlen | hb := h.edge
    · exact Or.inl h0
    · omega
    · exact Or.inr hb
  · exact Or.inr (hf.blank (i - 1) (by omega) (by omega))

/-- Cutting the next word out. -/
theorem next (h : Cut s a k sh is) (hf : Forward s k i j) (hi : i < s.len) (out : List UInt8) :
    Cut s a (j + 1)
      { mem := Function.update sh.mem (a + j) 0, argv := sh.argv ++ [a + i], output := out }
      (is ++ [i]) := by
  have hrun := h.maxRun hf hi
  have hki := hf.le_start
  have hlt := hrun.lt
  have hlts : ∀ x ∈ is, x < i := fun x hx => Nat.lt_of_lt_of_le ((h.mem_iff x).1 hx).1 hki
  have hupd : ∀ x, x ≠ j → Function.update sh.mem (a + j) 0 (a + x) = sh.mem (a + x) :=
    fun x hx => Function.update_of_ne (by omega) _ _
  refine ⟨?_, ?_, ?_, ?_, ?_, ?_⟩
  · simp [h.argv]
  · refine List.pairwise_append.2 ⟨h.sorted, List.pairwise_singleton _ _, fun x hx y hy => ?_⟩
    rw [List.mem_singleton.1 hy]
    exact hlts x hx
  · intro x
    rw [List.mem_append, List.mem_singleton, h.mem_iff]
    constructor
    · rintro (⟨hx, hs⟩ | rfl)
      · exact ⟨by omega, hs⟩
      · exact ⟨by omega, hi, hrun.word x le_rfl hlt, hrun.left⟩
    · rintro ⟨hx, hlen, hnb, hleft⟩
      -- between `k` and `i` all is blank, and behind `i` a word would have to follow a blank
      by_contra hnot
      rw [not_or] at hnot
      have hkx : k ≤ x := by
        by_contra hxk
        exact hnot.1 ⟨by omega, hlen, hnb, hleft⟩
      have hix : i ≤ x := by
        by_contra hxi
        exact hnb (hf.blank x hkx (by omega))
      have hne := hnot.2
      have hxj : x ≠ j := by
        rintro rfl
        exact hf.stop.elim (fun he => by omega) hnb
      obtain h0 | hb := hleft
      · omega
      · exact hrun.word (x - 1) (by omega) (by omega) hb
  · intro x hx
    rw [List.mem_append, List.mem_singleton] at hx
    obtain hx | rfl := hx
    · obtain ⟨y, hy, hxy, hz, hbytes⟩ := h.lifted x hx
      refine ⟨y, by omega, hxy, ?_, fun z hxz hzy => ?_⟩
      · exact (hupd y (by omega)).trans hz
      · exact (hupd z (by omega)).trans (hbytes z hxz hzy)
    · refine ⟨j, Nat.lt_succ_self j, hrun, Function.update_self _ _ _, fun z hxz hzj => ?_⟩
      exact (hupd z (by omega)).trans (h.rest z (by omega) (by have := hf.stop_le; omega))
  · intro x hx hxl
    exact (hupd x (by omega)).trans (h.rest x (by omega) hxl)
  · rw [Nat.add_sub_cancel]
    exact Or.inr (hf.stop.imp (congrArg (· + 1)) id)

/-- No word is left. -/
theorem finished (h : Cut s a k sh is) (hf : Forward s k i j) (hi : ¬ i < s.len) :
    Cut s a (s.len + 1) sh is := by
  have hij := hf.start_le
  have hjl := hf.stop_le
  have hki := hf.le_start
  refine ⟨h.argv, h.sorted, fun x => (h.mem_iff x).trans ⟨?_, ?_⟩, fun x hx => ?_,
    fun x hx hxl => by omega, Or.inr (Or.inl rfl)⟩
  · rintro ⟨hx, hs⟩
    exact ⟨by omega, hs⟩
  · rintro ⟨hx, hs⟩
    refine ⟨?_, hs⟩
    by_contra hxk
    exact hs.2.1 (hf.blank x (by omega) (by have := hs.1; omega))
  · obtain ⟨y, hy, hrest⟩ := h.lifted x hx
    exact ⟨y, by omega, hrest⟩

/-- At the end the list is that of all words. -/
theorem eq_starts (h : Cut s a (s.len + 1) sh is) : is = starts s := by
  have hsorted : (starts s).Pairwise (· < ·) := List.pairwise_lt_range.filter _
  refine h.sorted.eq_of_mem_iff hsorted fun x => ?_
  rw [h.mem_iff, starts, List.mem_filter, List.mem_range, decide_eq_true_iff]
  exact ⟨fun hx => ⟨hx.2.1, hx.2⟩, fun hx => ⟨by omega, hx.2⟩⟩

end Cut

/-- The loop is about to look at `p`: it found a word or the end of the line there, or it
stands behind the end. -/
def AtHead (s : CString) (a k p str : Nat) : Prop :=
  (∃ i j, p = a + i ∧ str = a + j ∧ Forward s k i j) ∨ (k = s.len + 1 ∧ a + s.len ≤ p)

/-- Looking for the next word behind the one that was cut out. Behind the last word of
the line the bytes are not part of it; whatever they are, the result lies behind the
line. -/
theorem Cut.forward {s : CString} {a k : Nat} {sh : Shell} {is : List Nat}
    (h : Cut s a (k + 1) sh is) (hk : k ≤ s.len) (hb : a + s.len + 1 < 4294967296)
    (hz : sh.mem (a + k) = 0) :
    ∃ len, strlen (u32 (a + k + 1)) sh = .ok (len, sh) ∧
      ∃ p str, strForward sh.mem (u32 (a + k + 1)) (u32 (u32 (a + k + 1) + len)) = (p, str) ∧
        AtHead s a (k + 1) p str := by
  have haddr : u32 (a + k + 1) = a + (k + 1) := by
    rw [u32, Nat.mod_eq_of_lt (by omega), Nat.add_assoc]
  rw [haddr]
  obtain rfl | hlt := Nat.eq_or_lt_of_le hk
  · obtain ⟨len, hlen⟩ := strlen_behind (by omega) hz
    exact ⟨len, hlen, _, _, rfl, Or.inr ⟨rfl, Nat.le_trans (by omega) (le_skipBlanks _ _ _)⟩⟩
  · refine ⟨_, strlen_rest hb hlt h.rest, ?_⟩
    have hstop : u32 (a + (k + 1) + (s.len - (k + 1))) = a + s.len := by
      rw [u32, Nat.mod_eq_of_lt (by omega)]
      omega
    rw [hstop]
    obtain ⟨i, j, he, hf⟩ := strForward_eq hlt h.rest
    exact ⟨_, _, he, Or.inl ⟨i, j, rfl, rfl, hf⟩⟩

/-- The complaint about too many words changes the output only. -/
theorem complain_eq (maxn i : Nat) (sh : Shell) :
    ∃ out, complain maxn i sh = .ok ((), { sh with output := out }) := by
  unfold complain
  by_cases hi : maxn ≤ i
  · rw [if_pos hi]
    exact ⟨_, rfl⟩
  · rw [if_neg hi]
    exact ⟨sh.output, rfl⟩

/-- The loop runs to the end of the line. -/
theorem splitLoop_eq {s : CString} {a fuel k p str : Nat} {sh : Shell} {is : List Nat}
    (maxn : Nat) (hb : a + s.len + 1 < 4294967296) (h : Cut s a k sh is) (hp : AtHead s a k p str)
    (hfuel : s.len + 1 < k + fuel) :
    ∃ sh₁, Cut s a (s.len + 1) sh₁ (starts s) ∧
      splitLoop (a + s.len) maxn fuel p str is.length sh =
        .ok ((), { sh₁ with argv := sh₁.argv ++ [0] }) := by
  induction fuel generalizing k p str sh is with
  | zero =>
      obtain ⟨i, j, -, -, hf⟩ | ⟨rfl, -⟩ := hp
      · have := hf.le_start
        have := hf.start_le
        have := hf.stop_le
        omega
      · omega
  | succ fuel ih =>
      unfold splitLoop
      by_cases hlt : p < a + s.len
      · obtain ⟨i, j, rfl, rfl, hf⟩ | ⟨-, hle⟩ := hp
        · have hjl := hf.stop_le
          have hki := hf.le_start
          have hij := hf.start_le
          rw [if_pos hlt]
          obtain ⟨out, hout⟩ := complain_eq maxn (is.length + 1) sh
          have hnext := h.next hf (by omega) out
          obtain ⟨len, hlen, p', str', hfwd, hhead⟩ :=
            hnext.forward hjl hb (Function.update_self _ _ _)
          obtain ⟨sh₁, hcut, hrun⟩ := ih hnext hhead (by omega)
          refine ⟨sh₁, hcut, ?_⟩
          rw [Act.bind_of_ok hout, Act.bind_of_ok (Act.modify_eq_ok (u := ()) |>.2 rfl)]
          dsimp only
          rw [Act.bind_of_ok hlen, Act.bind_of_ok (Act.gets_eq_ok.2 ⟨rfl, rfl⟩), hfwd]
          rw [List.length_append, List.length_singleton] at hrun
          exact hrun
        · omega
      · rw [if_neg hlt]
        have hcut : Cut s a (s.len + 1) sh is := by
          obtain ⟨i, j, rfl, -, hf⟩ | ⟨rfl, -⟩ := hp
          · exact h.finished hf (by omega)
          · exact h
        refine ⟨sh, hcut.eq_starts ▸ hcut, rfl⟩

/-- Nothing is cut out at first. -/
theorem Holds.cut {m : Memory} {a : Nat} {s : CString} (h : Holds m a s) (out : List UInt8) :
    Cut s a 0 ⟨m, [], out⟩ [] := by
  refine ⟨rfl, List.Pairwise.nil, fun x => ?_, fun x hx => ?_, fun x _ hx => h.text x hx, Or.inl rfl⟩
  · simp
  · simp at hx

theorem MaxRun.mem_starts {s : CString} {i j : Nat} (h : MaxRun s i j) : i ∈ starts s := by
  have hlt := h.lt
  have hle := h.le
  rw [starts, List.mem_filter, List.mem_range, decide_eq_true_iff]
  exact ⟨by omega, by omega, h.word i le_rfl hlt, h.left⟩

/-- Every line is cut into its words, whatever the size of the array is. -/
theorem splitArgs_eq {m : Memory} {a : Nat} {s : CString} (h : Holds m a s) (maxn : Nat)
    (out : List UInt8) :
    ∃ sh, splitArgs a maxn ⟨m, [], out⟩ = .ok ((), sh) ∧ Split s a sh := by
  have hcut := h.cut out
  have hlen : strlen a ⟨m, [], out⟩ = .ok (s.len, ⟨m, [], out⟩) :=
    strlen_rest h.bound (Nat.zero_le s.len) hcut.rest
  have hq : u32 (a + s.len) = a + s.len := Nat.mod_eq_of_lt (by have := h.bound; omega)
  obtain ⟨i, j, he, hf⟩ := strForward_eq (Nat.zero_le s.len) hcut.rest
  have hfuel : s.len + 1 < 0 + 4294967296 := by
    have := h.bound
    omega
  obtain ⟨sh, hend, hrun⟩ := splitLoop_eq maxn h.bound hcut (Or.inl ⟨i, j, rfl, rfl, hf⟩) hfuel
  refine ⟨{ sh with argv := sh.argv ++ [0] }, ?_, ?_, fun i j hij => hij.mem_starts,
    fun i hi => ?_⟩
  · unfold splitArgs
    rw [Act.bind_of_ok hlen, hq, Act.bind_of_ok hlen, hq,
      Act.bind_of_ok (Act.gets_eq_ok.2 ⟨rfl, rfl⟩)]
    rw [Nat.add_zero] at he
    rw [he]
    exact hrun
  · change sh.argv ++ [0] = _
    rw [hend.argv]
  · obtain ⟨y, -, hy⟩ := hend.lifted i hi
    exact ⟨y, hy⟩

/-- Cutting a line leaves the array alone behind its `maxn` entries exactly when the line
has fewer than `maxn` words. -/
theorem splitArgs_bounded_iff {m : Memory} {a : Nat} {s : CString} (h : Holds m a s)
    (maxn : Nat) (out : List UInt8) :
    (∃ sh, splitArgs a maxn ⟨m, [], out⟩ = .ok ((), sh) ∧ sh.argv.length ≤ maxn ∧
      ((starts s).length ≤ maxn - 1 → Split s a sh)) ↔ (starts s).length < maxn := by
  obtain ⟨sh, hrun, hsplit⟩ := splitArgs_eq h maxn out
  have hlen : sh.argv.length = (starts s).length + 1 := by simp [hsplit.argv]
  constructor
  · rintro ⟨sh', hrun', hle, -⟩
    rw [hrun] at hrun'
    cases hrun'
    omega
  · intro hlt
    exact ⟨sh, hrun, by omega, fun _ => hsplit⟩

/-- The command line `echo a … a` with `n` words behind the first one. -/
def echoLine (n : Nat) : List UInt8 :=
  [0x65, 0x63, 0x68, 0x6f] ++ (List.replicate n [0x20, 0x61]).flatten

theorem echoLine_ne_zero (n : Nat) : ∀ c ∈ echoLine n, c ≠ 0 := by
  intro c hc
  simp only [echoLine, List.mem_append, List.mem_flatten, List.mem_replicate] at hc
  obtain hc | ⟨l, ⟨-, rfl⟩, hc⟩ := hc
  · simp only [List.mem_cons, List.not_mem_nil, or_false] at hc
    obtain rfl | rfl | rfl | rfl := hc <;> decide
  · simp only [List.mem_cons, List.not_mem_nil, or_false] at hc
    obtain rfl | rfl := hc <;> decide

def echo (n : Nat) (hlen : (echoLine n).length < 2147483648) : CString :=
  CString.ofList (echoLine n) hlen (echoLine_ne_zero n)

/-- A memory with nothing but the line, at `0x1000`. -/
def echoMemory (n : Nat) : Memory := fun x => (echoLine n).getD (x - 4096) 0

theorem echo_holds {n : Nat} (hlen : (echoLine n).length < 2147483648) :
    Holds (echoMemory n) 4096 (echo n hlen) := by
  refine ⟨fun i _ => ?_, ?_⟩
  · change (echoLine n).getD (4096 + i - 4096) 0 = (echoLine n).getD i 0
    rw [Nat.add_sub_cancel_left]
  · change 4096 + (echoLine n).length + 1 < 4294967296
    omega

/-- Fifteen words and the null pointer fit into the array of the shell. -/
theorem echo_fits :
    ∃ sh, splitArgs 4096 16 ⟨echoMemory 14, [], []⟩ = .ok ((), sh) ∧ sh.argv.length ≤ 16 ∧
      ((starts (echo 14 (by decide))).length ≤ 16 - 1 → Split (echo 14 (by decide)) 4096 sh) :=
  (splitArgs_bounded_iff (echo_holds (by decide)) 16 []).2 (by decide +kernel)

/-- With sixteen words the shell writes an entry behind its array. -/
theorem echo_overflows :
    ∃ sh, splitArgs 4096 16 ⟨echoMemory 15, [], []⟩ = .ok ((), sh) ∧ sh.argv.length = 17 := by
  obtain ⟨sh, hrun, hsplit⟩ :=
    splitArgs_eq (echo_holds (n := 15) (by decide)) 16 []
  have hstarts : (starts (echo 15 (by decide))).length = 16 := by decide +kernel
  exact ⟨sh, hrun, by simp [hsplit.argv, hstarts]⟩

end Hsh

end Chunix
