import Chunix.Drv.Stdin
import Chunix.Kern.Printf
import Chunix.Trap.Reads
import Mathlib.Data.List.TakeWhile

/-!
# What `cat` prints

Every piece of a file is read into the same array of 512 bytes and printed as a string.
A piece comes out right if it is one byte long, or if it has no zero byte and a zero byte
follows it in the memory. Behind a full piece that is the byte behind the array, and
behind a shorter last piece it is what the piece before has left there. A file that
`sfs_open` opens as descriptor zero is not read at all, since `sys_read` takes that
descriptor for the console.
-/

namespace Chunix

namespace Syscall

open Machine Act Fs Sfs

/-- The characters in front of the first zero byte. -/
def upToZero (bs : List UInt8) : List UInt8 := bs.takeWhile fun b => b ≠ 0

section

variable {v : Memory} {a n k : Nat} {l l' : List UInt8}

theorem bytesAt_succ : bytesAt v a (n + 1) = v a :: bytesAt v (a + 1) n := by
  rw [Nat.add_comm n 1, bytesAt_add]
  rfl

theorem zero_notMem_upToZero (l : List UInt8) : 0 ∉ upToZero l := by
  intro h
  simpa using List.mem_takeWhile_imp h

/-- A text without a zero byte is printed with what follows it. -/
theorem upToZero_append (h : 0 ∉ l) : upToZero (l ++ l') = l ++ upToZero l' := by
  refine List.takeWhile_append_of_pos fun b hb => ?_
  have hne : b ≠ 0 := fun he => h (he ▸ hb)
  simpa using hne

/-- Nothing is printed where a zero byte comes first. -/
theorem upToZero_bytesAt_eq_nil (hz : v (a + n) = 0) : upToZero (bytesAt v a n) = [] ↔ v a = 0 := by
  cases n with
  | zero => exact iff_of_true rfl hz
  | succ n =>
      rw [bytesAt_succ, upToZero]
      by_cases hc : v a = 0
      · rw [List.takeWhile_cons_of_neg (by simpa using hc)]
        exact iff_of_true rfl hc
      · rw [List.takeWhile_cons_of_pos (by simpa using hc)]
        exact iff_of_false (List.cons_ne_nil _ _) hc

/-- The string at `a`, the end of which is at or in front of `a + k`. -/
theorem gives_chars {s : Mm.Space} {U : Nat → Prop} (hU : ∀ i, i ≤ k → U ((a + i) / 4096))
    (hlt : a + k < 4294967296) (hz : v (a + k) = 0) (hn : k < n) :
    Gives (Mm.seen s U) v (chars n a) (upToZero (bytesAt v a k)) v := by
  induction k generalizing a n with
  | zero =>
      obtain ⟨n, rfl⟩ : ∃ n', n = n' + 1 := ⟨n - 1, by omega⟩
      rw [chars]
      refine (Mm.gives_vload8 (by omega) (hU 0 le_rfl)).bind ?_
      rw [if_pos hz]
      exact gives_pure _
  | succ k ih =>
      obtain ⟨n, rfl⟩ : ∃ n', n = n' + 1 := ⟨n - 1, by omega⟩
      have hload : Gives (Mm.seen s U) v (Mm.vload8 a) (v a) v :=
        Mm.gives_vload8 (by omega) (hU 0 (Nat.zero_le _))
      rw [chars, bytesAt_succ, upToZero]
      refine hload.bind ?_
      by_cases hc : v a = 0
      · rw [if_pos hc, List.takeWhile_cons_of_neg (by simpa using hc)]
        exact gives_pure _
      · rw [if_neg hc, List.takeWhile_cons_of_pos (by simpa using hc), u32_eq_self (by omega)]
        have hnext : a + 1 + k = a + (k + 1) := by omega
        refine (ih (fun i hi => ?_) (by omega) (by rw [hnext]; exact hz) (by omega)).bind
          (gives_pure _)
        have := hU (i + 1) (by omega)
        rwa [show a + (i + 1) = a + 1 + i by omega] at this

end

/-! ### The text that comes out -/

/-- What `write(1, buf, n)` prints, when there is a zero byte at `z`. -/
def printed (buf z : Nat) (v : Memory) (n : Nat) : List UInt8 :=
  if n = 1 then [v buf] else upToZero (bytesAt v buf (z - buf))

/-- The memory with the next piece of a text in the array. -/
def filled (buf : Nat) (v : Memory) (rest : List UInt8) : Memory :=
  putBytes v buf (min 512 rest.length) fun i => rest.getD i 0

/-- What `cat` prints of a text, piece by piece. -/
def catText (buf z : Nat) (v : Memory) (rest : List UInt8) : List UInt8 :=
  if _h : rest.length = 0 then []
  else printed buf z (filled buf v rest) (min 512 rest.length) ++
    catText buf z (filled buf v rest) (rest.drop 512)
termination_by rest.length
decreasing_by
  rw [List.length_drop]
  omega

/-- The text is printed as it is: no piece of two bytes or more has a zero byte, and a zero
byte follows each of them. -/
def Printable (buf : Nat) (v : Memory) (text : List UInt8) : Prop :=
  text.length ≤ 1 ∨
  (text.length < 512 ∧ 0 ∉ text ∧ v (buf + text.length) = 0) ∨
  (512 ≤ text.length ∧ text.length % 512 ≤ 1 ∧ 0 ∉ text.take (text.length / 512 * 512) ∧
    v (buf + 512) = 0)

section

variable {buf z : Nat} {v : Memory} {rest : List UInt8}

theorem catText_nil : catText buf z v [] = [] := by
  rw [catText]
  exact dif_pos rfl

theorem catText_of_pos (h : 0 < rest.length) : catText buf z v rest =
    printed buf z (filled buf v rest) (min 512 rest.length) ++
      catText buf z (filled buf v rest) (rest.drop 512) := by
  rw [catText, dif_neg (by omega)]

theorem filled_of_le {x : Nat} (h : buf + min 512 rest.length ≤ x) : filled buf v rest x = v x :=
  if_neg (by omega)

theorem filled_piece {i : Nat} (hi : i < 512) (h : i < rest.length) :
    filled buf v rest (buf + i) = rest[i] := by
  rw [filled, putBytes, if_pos (by omega), Nat.add_sub_cancel_left, List.getD_eq_getElem?_getD,
    List.getElem?_eq_getElem h]
  rfl

/-- The bytes from the array on begin with the piece. -/
theorem bytesAt_filled (hz : buf + 512 ≤ z) : bytesAt (filled buf v rest) buf (z - buf) =
    rest.take 512 ++
      bytesAt (filled buf v rest) (buf + min 512 rest.length) (z - (buf + min 512 rest.length)) := by
  have hcut : z - buf = min 512 rest.length + (z - (buf + min 512 rest.length)) := by omega
  have hpiece : bytesAt (filled buf v rest) buf (min 512 rest.length) = rest.take 512 := by
    refine List.ext_getElem (by simp [bytesAt]) fun i h₁ h₂ => ?_
    have hi : i < min 512 rest.length := by simpa [bytesAt] using h₁
    simp only [bytesAt, List.getElem_map, List.getElem_range, List.getElem_take]
    exact filled_piece (by omega) (by omega)
  rw [hcut, bytesAt_add, hpiece]

/-- A piece of two bytes or more without a zero byte is printed with what follows it. -/
theorem printed_piece (hz : buf + 512 ≤ z) (h : 2 ≤ rest.length) (hnz : 0 ∉ rest.take 512) :
    printed buf z (filled buf v rest) (min 512 rest.length) =
      rest.take 512 ++ upToZero (bytesAt (filled buf v rest) (buf + min 512 rest.length)
        (z - (buf + min 512 rest.length))) := by
  rw [printed, if_neg (by omega), bytesAt_filled hz, upToZero_append hnz]

theorem printed_single {b : UInt8} : printed buf z (filled buf v [b]) 1 = [b] := by
  rw [printed, if_pos rfl]
  congr 1
  exact filled_piece (by decide) (show 0 < [b].length from Nat.one_pos)

theorem catText_single {b : UInt8} : catText buf z v [b] = [b] := by
  rw [catText_of_pos (show 0 < [b].length from Nat.one_pos)]
  show printed buf z (filled buf v [b]) 1 ++ catText buf z (filled buf v [b]) [] = [b]
  rw [printed_single, catText_nil, List.append_nil]

/-- The last piece, if it is one byte long. -/
def lone (rest : List UInt8) : List UInt8 :=
  if rest.length % 512 = 1 then rest.drop (rest.length - 1) else []

/-- The text without such a piece. -/
def body (rest : List UInt8) : List UInt8 :=
  if rest.length % 512 = 1 then rest.take (rest.length - 1) else rest

theorem body_append_lone (rest : List UInt8) : body rest ++ lone rest = rest := by
  unfold body lone
  split_ifs
  · exact List.take_append_drop _ _
  · exact List.append_nil _

theorem lone_drop (h : 2 ≤ rest.length) : lone (rest.drop 512) = lone rest := by
  unfold lone
  rw [List.length_drop]
  by_cases hlong : 512 ≤ rest.length
  · rw [show (rest.length - 512) % 512 = rest.length % 512 by omega]
    split_ifs with hone
    · rw [List.drop_drop, show 512 + (rest.length - 512 - 1) = rest.length - 1 by omega]
    · rfl
  · rw [if_neg (by omega), if_neg (by omega)]

theorem body_eq (h : 2 ≤ rest.length) : body rest = rest.take 512 ++ body (rest.drop 512) := by
  have hwhole : body rest ++ lone rest = rest.take 512 ++ body (rest.drop 512) ++ lone rest := by
    rw [body_append_lone, List.append_assoc, ← lone_drop h, body_append_lone, List.take_append_drop]
  exact List.append_cancel_right hwhole

/-- Zero bytes come out of a last piece of one byte only. -/
theorem exists_catText_eq (rest : List UInt8) (v : Memory) :
    ∃ o, 0 ∉ o ∧ catText buf z v rest = o ++ lone rest := by
  induction hn : rest.length using Nat.strong_induction_on generalizing rest v with
  | h n ih =>
      subst hn
      by_cases hshort : rest.length ≤ 1
      · obtain rfl | ⟨b, rfl⟩ : rest = [] ∨ ∃ b, rest = [b] := by
          match rest, hshort with
          | [], _ => exact Or.inl rfl
          | [b], _ => exact Or.inr ⟨b, rfl⟩
        · exact ⟨[], by simp, by rw [catText_nil]; rfl⟩
        · exact ⟨[], by simp, by rw [catText_single]; rfl⟩
      · obtain ⟨o, ho, htext⟩ := ih (rest.drop 512).length (by rw [List.length_drop]; omega)
          (rest.drop 512) (filled buf v rest) rfl
        rw [catText_of_pos (by omega), htext, lone_drop (by omega), ← List.append_assoc]
        refine ⟨_, ?_, rfl⟩
        rw [List.mem_append, not_or]
        refine ⟨?_, ho⟩
        rw [printed, if_neg (by omega)]
        exact zero_notMem_upToZero _

theorem zero_notMem_body (h : catText buf z v rest = rest) : 0 ∉ body rest := by
  obtain ⟨o, ho, htext⟩ := @exists_catText_eq buf z rest v
  have heq : o ++ lone rest = body rest ++ lone rest := by
    rw [← htext, h, body_append_lone]
  rw [← List.append_cancel_right heq]
  exact ho

/-- Piece by piece. -/
theorem printable_iff (h : 2 ≤ rest.length) : Printable buf v rest ↔
    0 ∉ rest.take 512 ∧ v (buf + min 512 rest.length) = 0 ∧
      Printable buf (filled buf v rest) (rest.drop 512) := by
  by_cases hlong : 512 ≤ rest.length
  · have hbehind : filled buf v rest (buf + 512) = v (buf + 512) := filled_of_le (by omega)
    have htake : ∀ q, rest.take (512 + q) = rest.take 512 ++ (rest.drop 512).take q :=
      fun q => List.take_add
    have hcut : rest.length / 512 * 512 = 512 + (rest.length - 512) / 512 * 512 := by omega
    rw [Nat.min_eq_left hlong]
    unfold Printable
    rw [List.length_drop, hbehind, hcut, htake, List.mem_append, not_or]
    constructor
    · rintro (hno | ⟨hno, -⟩ | ⟨-, hmod, ⟨hnz, hrest⟩, hzero⟩)
      · omega
      · omega
      · refine ⟨hnz, hzero, ?_⟩
        by_cases hmore : 512 ≤ rest.length - 512
        · exact Or.inr (Or.inr ⟨hmore, by omega, hrest, hzero⟩)
        · exact Or.inl (by omega)
    · rintro ⟨hnz, hzero, hrest⟩
      refine Or.inr (Or.inr ⟨hlong, ?_⟩)
      rcases hrest with hone | ⟨hlt, -, hstale⟩ | ⟨hmore, hmod, hrest, -⟩
      · refine ⟨by omega, ⟨hnz, ?_⟩, hzero⟩
        rw [Nat.div_eq_of_lt (show rest.length - 512 < 512 by omega), Nat.zero_mul, List.take_zero]
        exact List.not_mem_nil
      · -- the array still has the bytes of the piece before
        rw [filled_piece hlt (by omega)] at hstale
        refine absurd ?_ hnz
        rw [← hstale]
        exact List.mem_take_iff_getElem.2 ⟨_, by omega, rfl⟩
      · exact ⟨by omega, ⟨hnz, hrest⟩, hzero⟩
  · have hnil : rest.drop 512 = [] := List.drop_eq_nil_of_le (by omega)
    have hall : rest.take 512 = rest := List.take_of_length_le (by omega)
    rw [hnil, hall, Nat.min_eq_right (by omega)]
    constructor
    · rintro (hno | ⟨-, hnz, hzero⟩ | ⟨hno, -⟩)
      · omega
      · exact ⟨hnz, hzero, Or.inl (Nat.zero_le _)⟩
      · omega
    · rintro ⟨hnz, hzero, -⟩
      exact Or.inr (Or.inl ⟨by omega, hnz, hzero⟩)

theorem filled_end (hz : buf + 512 ≤ z) : filled buf v rest z = v z := filled_of_le (by omega)

/-- What `cat` prints is not shorter than a text without zero bytes, and longer unless the
text is printed as it is. -/
theorem length_le_catText (hz : buf + 512 ≤ z) (rest : List UInt8) (v : Memory) (hv : v z = 0)
    (hnz : 0 ∉ body rest) : rest.length ≤ (catText buf z v rest).length ∧
      ((catText buf z v rest).length ≤ rest.length → Printable buf v rest) := by
  induction hn : rest.length using Nat.strong_induction_on generalizing rest v with
  | h n ih =>
      subst hn
      by_cases hshort : rest.length ≤ 1
      · refine ⟨?_, fun _ => Or.inl hshort⟩
        match rest, hshort with
        | [], _ => exact Nat.zero_le _
        | [b], _ => rw [catText_single]
      · have htwo : 2 ≤ rest.length := by omega
        rw [body_eq htwo, List.mem_append, not_or] at hnz
        obtain ⟨hle, hprint⟩ := ih (rest.drop 512).length (by rw [List.length_drop]; omega)
          (rest.drop 512) (filled buf v rest) ((filled_end hz).trans hv) hnz.2 rfl
        have hcut : (rest.take 512).length + (rest.drop 512).length = rest.length := by
          rw [← List.length_append, List.take_append_drop]
        rw [catText_of_pos (by omega), printed_piece hz htwo hnz.1, List.length_append,
          List.length_append]
        refine ⟨by omega, fun hlen => (printable_iff htwo).2 ⟨hnz.1, ?_, hprint (by omega)⟩⟩
        have hnil : upToZero (bytesAt (filled buf v rest) (buf + min 512 rest.length)
            (z - (buf + min 512 rest.length))) = [] := List.length_eq_zero_iff.1 (by omega)
        rw [upToZero_bytesAt_eq_nil (by rw [Nat.add_sub_cancel' (by omega), filled_end hz, hv]),
          filled_of_le le_rfl] at hnil
        exact hnil

theorem catText_of_printable (hz : buf + 512 ≤ z) (rest : List UInt8) (v : Memory) (hv : v z = 0)
    (h : Printable buf v rest) : catText buf z v rest = rest := by
  induction hn : rest.length using Nat.strong_induction_on generalizing rest v with
  | h n ih =>
      subst hn
      by_cases hshort : rest.length ≤ 1
      · match rest, hshort with
        | [], _ => exact catText_nil
        | [b], _ => exact catText_single
      · have htwo : 2 ≤ rest.length := by omega
        obtain ⟨hnz, hzero, hrest⟩ := (printable_iff htwo).1 h
        have hnil : upToZero (bytesAt (filled buf v rest) (buf + min 512 rest.length)
            (z - (buf + min 512 rest.length))) = [] := by
          rw [upToZero_bytesAt_eq_nil (by rw [Nat.add_sub_cancel' (by omega), filled_end hz, hv]),
            filled_of_le le_rfl]
          exact hzero
        rw [catText_of_pos (by omega), printed_piece hz htwo hnz, hnil, List.append_nil,
          ih (rest.drop 512).length (by rw [List.length_drop]; omega) (rest.drop 512)
            (filled buf v rest) ((filled_end hz).trans hv) hrest rfl, List.take_append_drop]

/-- A text is printed as it is exactly if it is printable. -/
theorem catText_eq_iff (hz : buf + 512 ≤ z) (hv : v z = 0) :
    catText buf z v rest = rest ↔ Printable buf v rest := by
  constructor
  · intro h
    refine (length_le_catText hz rest v hv (zero_notMem_body h)).2 ?_
    rw [h]
  · exact catText_of_printable hz rest v hv

end

/-! ### The loop -/

/-- The array of `cat` and the memory behind it up to the address `z`, where a zero byte
ends every string, are on the pages `U`. -/
structure Terminated (U : Nat → Prop) (buf z : Nat) : Prop where
  le : buf + 512 ≤ z
  lt : z < 4294967296
  pages : ∀ x, buf ≤ x → x ≤ z → U (x / 4096)

theorem printk_string (p : Nat) : printk (text "%s") [p] =
    (do return (← chars 4294967296 p) ++ (← printk [] [])) := by
  have htext : text "%s" = [0x25, 0x73] := by decide
  have hconvert : convert 0x73 p = some (chars 4294967296 p) := by
    rw [convert, if_neg (by decide), if_neg (by decide), if_neg (by decide), if_neg (by decide),
      if_neg (by decide), if_pos (by decide)]
  rw [htext]
  conv_lhs => rw [printk, if_neg (by decide), List.headD_cons, hconvert]
  rfl

section

variable {s : Mm.Space} {U : Nat → Prop} {v : Memory} {buf z : Nat}

theorem Terminated.gives_chars (h : Terminated U buf z) (hv : v z = 0) :
    Gives (Mm.seen s U) v (chars 4294967296 buf) (upToZero (bytesAt v buf (z - buf))) v := by
  have hle := h.le
  have hlt := h.lt
  have hend : buf + (z - buf) = z := by omega
  refine Syscall.gives_chars (fun i hi => h.pages _ (by omega) (by omega)) (by omega) ?_ (by omega)
  rw [hend, hv]

theorem Terminated.gives_printk (h : Terminated U buf z) (hv : v z = 0) :
    Gives (Mm.seen s U) v (printk (text "%s") [buf]) (upToZero (bytesAt v buf (z - buf))) v := by
  rw [printk_string]
  refine (h.gives_chars hv).bind ?_
  refine Gives.bind (gives_pure []) ?_
  rw [List.append_nil]
  exact gives_pure _

end

namespace Job

variable {j : Job} {v : Memory} {p buf z : Nat}

theorem gives_getstr (hb : Terminated j.pages buf z) (hv : v z = 0) :
    Gives j.world (v, p) (getstr buf) (upToZero (bytesAt v buf (z - buf))).length (v, p) := by
  rw [getstr]
  exact (total_onMm (hb.gives_chars hv)).bind (gives_pure _)

theorem gives_write (hb : Terminated j.pages buf z) (hv : v z = 0) (n : Nat) :
    Gives j.world (v, p) (write 1 buf n) (0, printed buf z v n) (v, p) := by
  have hle := hb.le
  have hlt := hb.lt
  rw [write]
  refine (gives_getstr hb hv).bind ?_
  rw [writeFile, if_pos (Or.inl rfl), printed]
  by_cases hone : n = 1
  · rw [if_pos hone, if_pos hone]
    exact (total_onMm (Mm.gives_vload8 (by omega) (hb.pages _ le_rfl (by omega)))).bind
      (gives_pure _)
  · rw [if_neg hone, if_neg hone]
    exact (total_onMm (hb.gives_printk hv)).bind (gives_pure _)

/-- The next piece of the file comes to the array. -/
theorem gives_read (hfd : (j.fd : Nat) ≠ 0) (hlen : j.len < 4294967296)
    (hblk : ∀ i, 512 * i ≤ j.len → j.block i < j.disk.size) (hb : Terminated j.pages buf z)
    (hv : v z = 0) (hp : p ≤ j.len) :
    Gives j.world (v, p) (read j.fd buf 512) (min 512 (j.contents.drop p).length : Nat)
      (filled buf v (j.contents.drop p), p + min 512 (j.contents.drop p).length) := by
  have hle := hb.le
  have hlt := hb.lt
  have hrest : (j.contents.drop p).length = j.len - p := by simp
  have hserved : j.served p 512 = min 512 (j.contents.drop p).length := by rw [hrest, served]
  have hfd' : int32 (j.fd : Nat) = ((j.fd : Nat) : Int) := by
    have := j.fd.isLt
    exact if_pos (by omega)
  have hbytes : putBytes v buf (min 512 (j.contents.drop p).length) (fun i => j.byte (p + i)) =
      filled buf v (j.contents.drop p) := by
    refine putBytes_congr fun i hi => ?_
    rw [hrest] at hi
    simp [contents, bytesAt, List.getD_eq_getElem?_getD, show i < j.len - p by omega]
  have hread := @gives_sfsRead j v p buf 512 hp hlen (by decide) hblk
    (fun x h₁ h₂ => hb.pages x h₁ (by rw [hserved] at h₂; omega)) (by rw [hserved]; omega)
  rw [hserved, hbytes] at hread
  rw [read]
  refine (gives_getstr hb hv).bind ?_
  rw [readFile, if_neg hfd, hfd']
  exact hread

/-- Enough turns of the loop print the rest of the file. -/
theorem total_cat (hfd : (j.fd : Nat) ≠ 0) (hlen : j.len < 4294967296)
    (hblk : ∀ i, 512 * i ≤ j.len → j.block i < j.disk.size) (hb : Terminated j.pages buf z)
    {f : Nat} (hv : v z = 0) (hp : p ≤ j.len) (hf : j.len - p ≤ 512 * f) :
    Total j.world (v, p) (cat j.fd buf (f + 1)) fun out _ =>
      out = catText buf z v (j.contents.drop p) := by
  have hrest : ∀ p, (j.contents.drop p).length = j.len - p := by simp
  induction f generalizing v p with
  | zero =>
      have hnil : j.contents.drop p = [] := List.length_eq_zero_iff.1 (by rw [hrest]; omega)
      have hread := gives_read hfd hlen hblk hb hv hp
      rw [hnil] at hread
      rw [cat, hnil, catText_nil]
      refine hread.bind ?_
      rw [if_neg (by simp)]
      refine (gives_pure _).mono ?_
      rintro _ _ ⟨rfl, -⟩
      rfl
  | succ f ih =>
      have hread := gives_read hfd hlen hblk hb hv hp
      rw [cat]
      by_cases hmore : p < j.len
      · have hpos : 0 < (j.contents.drop p).length := by
          rw [hrest]
          omega
        have hend : filled buf v (j.contents.drop p) z = 0 := (filled_end hb.le).trans hv
        have hdrop : j.contents.drop (p + min 512 (j.contents.drop p).length) =
            (j.contents.drop p).drop 512 := by
          rw [← List.drop_drop]
          rcases Nat.le_total 512 (j.contents.drop p).length with h | h
          · rw [Nat.min_eq_left h]
          · rw [Nat.min_eq_right h, List.drop_length, List.drop_eq_nil_of_le h]
        have hturn := @ih (filled buf v (j.contents.drop p))
          (p + min 512 (j.contents.drop p).length) hend (by rw [hrest]; omega)
          (by rw [hrest]; omega)
        have hword : word ((min 512 (j.contents.drop p).length : Nat) : Int) =
            min 512 (j.contents.drop p).length := by
          unfold word
          omega
        refine hread.bind ?_
        rw [if_pos (by omega), hword]
        refine (gives_write hb hend _).bind (hturn.bind ?_)
        rintro out u rfl
        refine (gives_pure _).mono ?_
        rintro _ _ ⟨rfl, -⟩
        rw [catText_of_pos hpos, hdrop]
      · have hnil : j.contents.drop p = [] := List.length_eq_zero_iff.1 (by rw [hrest]; omega)
        rw [hnil] at hread
        rw [hnil, catText_nil]
        refine hread.bind ?_
        rw [if_neg (by simp)]
        refine (gives_pure _).mono ?_
        rintro _ _ ⟨rfl, -⟩
        rfl

end Job

/-- More turns than are needed make no difference. -/
theorem cat_succ {fd buf fuel : Nat} {w w' : World} {out : List UInt8}
    (h : cat fd buf fuel w = .ok (out, w')) : cat fd buf (fuel + 1) w = .ok (out, w') := by
  induction fuel generalizing w w' out with
  | zero => cases h
  | succ fuel ih =>
      rw [cat] at h ⊢
      obtain ⟨n, w₁, hn, h⟩ := bind_eq_ok.1 h
      rw [bind_of_ok hn]
      by_cases hpos : 0 < n
      · rw [if_pos hpos] at h ⊢
        obtain ⟨r, w₂, hr, h⟩ := bind_eq_ok.1 h
        obtain ⟨o, w₃, ho, h⟩ := bind_eq_ok.1 h
        rw [bind_of_ok hr, bind_of_ok (ih ho)]
        exact h
      · rw [if_neg hpos] at h ⊢
        exact h

theorem cat_le {fd buf fuel fuel' : Nat} {w w' : World} {out : List UInt8} (hle : fuel ≤ fuel')
    (h : cat fd buf fuel w = .ok (out, w')) : cat fd buf fuel' w = .ok (out, w') := by
  induction fuel', hle using Nat.le_induction with
  | base => exact h
  | succ m _ ih => exact cat_succ ih

/-- What `cat` prints is determined. -/
theorem cat_unique {fd buf fuel fuel' : Nat} {w w₁ w₂ : World} {out out' : List UInt8}
    (h₁ : cat fd buf fuel w = .ok (out, w₁)) (h₂ : cat fd buf fuel' w = .ok (out', w₂)) :
    out = out' := by
  cases (cat_le (Nat.le_max_left fuel fuel') h₁).symm.trans (cat_le (Nat.le_max_right fuel fuel') h₂)
  rfl

/-! ### Descriptor zero -/

/-- A console at which nothing has been typed. -/
def silence : Console := ⟨zeros, 0, 0⟩

theorem silence_valid : silence.Valid := ⟨by decide, by decide⟩

theorem silence_waiting : silence.waiting = [] := rfl

/-- A console at which 512 letters have been typed. -/
def letters : Console := ⟨fun _ => 0x61, 0, 512⟩

theorem letters_valid : letters.Valid := ⟨by decide, by decide⟩

theorem letters_waiting : letters.waiting = List.replicate 512 0x61 := by
  simp [Console.waiting, letters]

section

variable {s : Mm.Space} {U : Nat → Prop} {w w' : World} {buf z fuel : Nat} {out : List UInt8}

/-- `read` with descriptor zero takes characters from the console. -/
theorem read_zero (hs : Mm.Sees s U w.kernel.mm) (hb : Terminated U buf z)
    (hz : (Mm.seen s U).view w.kernel.mm z = 0) :
    ∃ m, Mm.Sees s U m ∧ (Mm.seen s U).view m = (Mm.seen s U).view w.kernel.mm ∧
      read 0 buf 512 w =
        stdinLoop Mm.vstore8 buf 512 0 { w with kernel := { w.kernel with mm := m } } := by
  obtain ⟨cs, m, hchars, hok, -, hview⟩ := hb.gives_chars hz w.kernel.mm hs rfl
  refine ⟨m, hok, hview, ?_⟩
  have hstr : getstr buf w = .ok (cs.length, { w with kernel := { w.kernel with mm := m } }) := by
    rw [getstr, bind_of_ok (onMm_of_ok hchars)]
    rfl
  rw [read, bind_of_ok hstr, readFile, if_pos rfl]
  rfl

theorem Terminated.writes (hb : Terminated U buf z) :
    Writes (Mm.seen s U) Mm.vstore8 buf (0 + 512) := by
  have hle := hb.le
  have hlt := hb.lt
  exact writes_vstore8 (by omega) fun i hi => hb.pages _ (by omega) (by omega)

/-- When nothing has been typed, nothing is printed. -/
theorem cat_zero_silent (hs : Mm.Sees s U w.kernel.mm) (hb : Terminated U buf z)
    (hz : (Mm.seen s U).view w.kernel.mm z = 0) (hv : w.cons.Valid)
    (hnone : w.cons.waiting = []) : ∃ w', cat 0 buf 1 w = .ok ([], w') := by
  obtain ⟨m, hm, -, hread⟩ := read_zero hs hb hz
  obtain ⟨w₁, hloop, -⟩ := @stdinLoop_short _ _ _ _ _
    { w with kernel := { w.kernel with mm := m } } hb.writes hv hm (Or.inl (by rw [hnone]; decide))
  refine ⟨w₁, ?_⟩
  rw [cat, bind_of_ok (hread.trans hloop), if_neg (by decide)]
  rfl

/-- When enough has been typed, it is printed. -/
theorem cat_zero_ne_nil (hs : Mm.Sees s U w.kernel.mm) (hb : Terminated U buf z)
    (hz : (Mm.seen s U).view w.kernel.mm z = 0) (hv : w.cons.Valid)
    (htyped : 512 ≤ w.cons.waiting.length) (hff : 0xff ∉ w.cons.waiting.take 512)
    (hfirst : w.cons.waiting.head? ≠ some 0) (h : cat 0 buf fuel w = .ok (out, w')) : out ≠ [] := by
  have hle := hb.le
  cases fuel with
  | zero => cases h
  | succ fuel =>
      obtain ⟨m, hm, hview, hread⟩ := read_zero hs hb hz
      obtain ⟨w₁, hloop, hok₁, -, hsame, hbytes⟩ := @stdinLoop_full _ _ _ _ _
        { w with kernel := { w.kernel with mm := m } } hb.writes hv hm htyped hff
      have hz₁ : (Mm.seen s U).view w₁.kernel.mm z = 0 := by
        rw [hsame z (Or.inr (by omega)), hview]
        exact hz
      have hfirst₁ : (Mm.seen s U).view w₁.kernel.mm buf ≠ 0 := by
        have := hbytes 0 (Nat.lt_of_lt_of_le (by decide) htyped) (by decide)
        rw [Nat.add_zero] at this
        rw [this]
        intro he
        refine hfirst ?_
        rw [List.head?_eq_getElem?, List.getElem?_eq_getElem (by omega)]
        exact congrArg some he
      have hend : buf + (z - buf) = z := by omega
      rw [cat, bind_of_ok (hread.trans hloop), if_pos (by decide)] at h
      obtain ⟨r, w₂, hr, h⟩ := bind_eq_ok.1 h
      obtain ⟨o, w₃, -, h⟩ := bind_eq_ok.1 h
      obtain ⟨rfl, -⟩ := pure_eq_ok.1 h
      have hne : r.2 ≠ [] := by
        obtain ⟨cs, m₁, hchars, hok₂, -, hview₂⟩ := hb.gives_chars hz₁ w₁.kernel.mm hok₁ rfl
        obtain ⟨o₂, m₂, hprint, -, rfl, -⟩ := hb.gives_printk (hview₂ ▸ hz₁) m₁ hok₂ rfl
        have hstr : getstr buf w₁ =
            .ok (cs.length, { w₁ with kernel := { w₁.kernel with mm := m₁ } }) := by
          rw [getstr, bind_of_ok (onMm_of_ok hchars)]
          rfl
        rw [write, bind_of_ok hstr, writeFile, if_pos (Or.inl rfl), if_neg (by decide),
          bind_of_ok (onMm_of_ok hprint)] at hr
        obtain ⟨rfl, -⟩ := pure_eq_ok.1 hr
        rw [hview₂]
        exact fun he => hfirst₁ ((upToZero_bytesAt_eq_nil (by rw [hend]; exact hz₁)).1 he)
      exact fun he => hne (List.append_eq_nil_iff.1 he).1

end

section

variable {nblk : Nat} {args : List Arg} {mk : Mk} {c : Slot} {s : Mm.Space} {U : Nat → Prop}
  {w w₀ : World} {fr : Frame} {path : CString} {flags : Nat} {fd : Int}

/-- `cat` prints a regular file that `sfs_open` has opened, whatever has been typed, if and
only if the descriptor is not zero and the file is printable. The file and the memory of
the task in front of the call decide that. -/
theorem cat_prints_iff (hn : 512 * nblk < 4294967296) (hmk : mkSfs nblk args = some mk)
    (hw : OnImage nblk mk c s U w)
    (hopen : onFiles (sfsOpen c fr path flags) w = .ok (fd, w₀)) (hfd : fd ≠ -1) {k : Nat} {a : Arg}
    {e : Nat × Index} {content : List UInt8} (ha : args[k]? = some a)
    (hreg : a.stat = some (.regular content)) (he : mk.initial[k + 1]? = some e)
    (hfound : (found fr.after path fr.idx [] mk.initial.reverse).idx = e.2) {buf z : Nat}
    (hb : Terminated U buf z) (hz : (Mm.seen s U).view w.kernel.mm z = 0) :
    (∀ cons, ∃ fuel w', cat fd.toNat buf fuel { w₀ with cons := cons } = .ok (content, w')) ↔
      fd ≠ 0 ∧ Printable buf ((Mm.seen s U).view w.kernel.mm) content := by
  have hm := mkSfs_made hn hmk
  have hkernel : w₀.kernel = w.kernel := by
    obtain ⟨f', -, rfl⟩ := zoom_eq_ok.1 hopen
    rfl
  obtain ⟨j, rfl, rfl, rfl, hsuper, hdisk, hjlen, hjstart, -, hok, hpos⟩ :=
    hw.job hn hm hopen hfd
  obtain ⟨-, hl, hd⟩ := hm.regular_entry ha hreg he
  rw [hfound] at hjlen hjstart
  obtain ⟨hblk, hcont⟩ := Job.of_data hn hm hsuper hdisk (hjlen.trans hl) (hjstart ▸ hd)
  have hlen : j.len < 4294967296 := by
    have hroom := hd.room
    have hfits := hm.fits
    unfold Fits at hfits
    omega
  rw [← hkernel] at hz ⊢
  rw [Int.toNat_natCast]
  by_cases hzero : (j.fd : Nat) = 0
  · -- what is typed decides what is printed
    refine iff_of_false (fun h => ?_) fun h => h.1 (by rw [hzero]; rfl)
    rw [hzero] at h
    obtain ⟨fuel, w', hsilent⟩ := h silence
    obtain ⟨fuel', w'', hloud⟩ := h letters
    obtain ⟨w₁, hnil⟩ := cat_zero_silent (w := { w₀ with cons := silence }) hok.sees hb hz
      silence_valid silence_waiting
    refine cat_zero_ne_nil (w := { w₀ with cons := letters }) hok.sees hb hz letters_valid ?_ ?_ ?_
      hloud (cat_unique hsilent hnil)
    · exact letters_waiting ▸ List.length_replicate.ge
    · exact letters_waiting ▸ fun h => absurd (List.eq_of_mem_replicate (List.mem_of_mem_take h))
        (by decide)
    · rw [show ({ w₀ with cons := letters } : World).cons.waiting = _ from letters_waiting]
      decide
  · have hrun : ∀ cons, ∃ w', cat j.fd buf (j.len + 1) { w₀ with cons := cons } =
        .ok (catText buf z ((Mm.seen j.space j.pages).view w₀.kernel.mm) content, w') := by
      intro cons
      have hok' : j.Ok { w₀ with cons := cons } := { hok with }
      obtain ⟨out, w', hrun, -, rfl⟩ := Job.total_cat hzero hlen hblk hb hz (Nat.zero_le _)
        (show j.len - 0 ≤ 512 * j.len by omega) { w₀ with cons := cons } hok' (Prod.ext rfl hpos)
      rw [List.drop_zero, hcont] at hrun
      exact ⟨w', hrun⟩
    rw [← catText_eq_iff hb.le hz]
    constructor
    · intro h
      obtain ⟨fuel, w', hprint⟩ := h w₀.cons
      obtain ⟨w'', hrun⟩ := hrun w₀.cons
      exact ⟨fun he => hzero (by omega), cat_unique hrun hprint⟩
    · rintro ⟨-, htext⟩ cons
      obtain ⟨w', hrun⟩ := hrun cons
      exact ⟨_, w', htext ▸ hrun⟩

end

/-- The page of the task has a zero byte behind an array at its beginning. -/
theorem session_terminated (mk : Mk) : Terminated (fun n => n = 5) 0x5000 0x5200 ∧
    (Mm.seen Exec.pairSpace fun n => n = 5).view (session mk).kernel.mm 0x5200 = 0 := by
  refine ⟨⟨by decide, by decide, fun x h₁ h₂ => by omega⟩, ?_⟩
  rw [Mm.seen_view (by decide), show (session mk).kernel.mm = Exec.pairMm from rfl]
  decide +kernel

/-- The entry of the file `ab`, by its name. -/
theorem tiny_entry {mk : Mk} (hmk : mkSfs 4 [tiny] = some mk) : ∃ k a e, [tiny][k]? = some a ∧
    a.stat = some (.regular [0x68, 0x69]) ∧ mk.initial[k + 1]? = some e ∧
    (found zeros nameAb (fun _ => 0) [] mk.initial.reverse).idx = e.2 ∧
    (found zeros nameAb (fun _ => 0) [] mk.initial.reverse).ret = 1 := by
  have hm := mkSfs_made (by decide) hmk
  obtain ⟨hret, hlast⟩ := @Made.lookup _ _ _ nameAb hm zeros (fun _ => 0)
    tiny_regular (by decide)
  have hone := hret.2 ⟨tiny, by simp, accepted_self rfl (clear_tiny.2.2 ⟨tiny, by simp, rfl⟩)⟩
  obtain ⟨k, a, e, ha, he, -, -, hidx, -⟩ := hlast hone
  refine ⟨k, a, e, ha, ?_, he, hidx, hone⟩
  rw [List.mem_singleton.1 (List.mem_of_getElem? ha)]
  rfl

/-- A task with one open descriptor opens the file `ab`, and `cat` prints it. -/
theorem busy_cat_prints : ∃ mk w₀, mkSfs 4 [tiny] = some mk ∧
    onFiles (sfsOpen 0 blank nameAb 0) (busy mk fun i => if i = 0 then some 0 else none) =
      .ok (1, w₀) ∧
    ∀ cons, ∃ fuel w', cat 1 0x5000 fuel { w₀ with cons := cons } = .ok ([0x68, 0x69], w') := by
  obtain ⟨mk, hmk⟩ := mkSfs_tiny
  obtain ⟨k, a, e, ha, hreg, he, hidx, hret⟩ := tiny_entry hmk
  obtain ⟨w₀, hopen⟩ := busy_open (mkSfs_made (by decide) hmk) hret
    (show (List.finRange 16).find? (fun i => (if i = 0 then some 0 else none : Option (Fin 64)).isNone) =
      some 1 by decide)
  obtain ⟨hb, hz⟩ := session_terminated mk
  refine ⟨mk, w₀, hmk, hopen, ?_⟩
  refine (cat_prints_iff (by decide) hmk (busy_onImage mk _) hopen (by decide) ha hreg he hidx hb
    hz).2 ⟨by decide, Or.inr (Or.inl ⟨by decide, by decide, ?_⟩)⟩
  rw [Mm.seen_view (by decide), show (busy mk _).kernel.mm = Exec.pairMm from rfl]
  decide +kernel

/-- A task without open descriptors opens the file `ab`, which is not empty, and `cat` prints
nothing. -/
theorem session_cat_silent : ∃ mk w₀ w', mkSfs 4 [tiny] = some mk ∧
    tiny.stat = some (.regular [0x68, 0x69]) ∧
    onFiles (sfsOpen 0 blank nameAb 0) (session mk) = .ok (0, w₀) ∧
    cat 0 0x5000 1 w₀ = .ok ([], w') := by
  obtain ⟨mk, hmk⟩ := mkSfs_tiny
  have hm := mkSfs_made (by decide) hmk
  obtain ⟨k, a, e, ha, hreg, he, hidx, hret⟩ := tiny_entry hmk
  obtain ⟨w₀, hopen⟩ := session_open hm hret
  obtain ⟨hb, hz⟩ := session_terminated mk
  obtain ⟨f, -, rfl⟩ := zoom_eq_ok.1 hopen
  obtain ⟨w', hw'⟩ := cat_zero_silent (w := { session mk with files := f }) (session_onImage mk).sees
    hb hz silence_valid silence_waiting
  exact ⟨mk, _, w', hmk, rfl, hopen, hw'⟩

end Syscall

end Chunix
