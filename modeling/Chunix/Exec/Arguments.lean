import Chunix.Exec.Load

/-!
# The strings that become the arguments

`exec` copies the strings of `argv` to the stack of the caller, one after the other, when
the segments of the program have been loaded into the same address space. The copy of a
string is the string that `argv` meant at the call if nothing has been written to it up to
there, neither a segment nor the copy of another string nor the beginning of its own copy.
-/

namespace Chunix

namespace Exec

open Machine Kernel

/-- The string with the characters `cs` at the address `p` of the memory `v` can be copied to
`dst`: it has the right length, and every byte is the right one when it is its turn. -/
structure Copyable (v : Memory) (p dst : Nat) (cs : List UInt8) : Prop where
  inside : ∀ j, j < cs.length → v (p + j) ≠ 0
  terminator : v (p + cs.length) = 0
  bytes : ∀ j, j ≤ cs.length →
    putList v dst ((cs ++ [0]).take j) (p + j) = (cs ++ [0]).getD j 0

/-- The strings can be copied to the stack from `sp` downwards. Each argument is a pointer
and the characters of its string. -/
def Kept (v : Memory) (sp : Nat) : List (Nat × List UInt8) → Prop
  | [] => True
  | (p, cs) :: args =>
      Copyable v p (sp - roundUp4 (cs.length + 1)) cs ∧
      Kept (putList v (sp - roundUp4 (cs.length + 1)) (cs ++ [0])) (sp - roundUp4 (cs.length + 1))
        args

/-- The arguments with their terminators. -/
def terminated (args : List (Nat × List UInt8)) : List (List UInt8) :=
  args.map fun a => a.2 ++ [0]

/-- The string of an argument lies in pages of the user. -/
structure InUser (x : Stage) (a : Nat × List UInt8) : Prop where
  user : a.1 + a.2.length < 2147483648
  pages : ∀ j, j ≤ a.2.length → x.U ((a.1 + j) / 4096)

section

variable {m m' : Mm} {p n f dst : Nat} {cs bs : List UInt8}

/-- A string that has been read is a sequence of bytes other than zero and a zero. -/
theorem chars_bytes {fuel : Nat} (h : Syscall.chars fuel p m = .ok (cs, m')) :
    (∀ j, j < cs.length → ∃ b, b ≠ 0 ∧ Mm.vload8 (p + j) m = .ok (b, m)) ∧
      Mm.vload8 (p + cs.length) m = .ok (0, m) := by
  have hwrap : ∀ a j, Mm.vload8 (u32 a + j) m = Mm.vload8 (a + j) m := by
    intro a j
    have hmod : u32 (u32 a + j) = u32 (a + j) := Nat.mod_add_mod a 4294967296 j
    rw [Mm.vload8, Mm.vload8, hmod]
  induction fuel generalizing p cs m' with
  | zero => cases h
  | succ fuel ih =>
      rw [Syscall.chars] at h
      obtain ⟨c, m₁, hc, h⟩ := Act.bind_eq_ok.1 h
      cases Mm.readOnly_vload8 _ _ _ _ hc
      rcases Act.ite_eq_ok.1 h with ⟨hz, h⟩ | ⟨hz, h⟩
      · obtain ⟨rfl, -⟩ := Act.pure_eq_ok.1 h
        subst hz
        exact ⟨fun j hj => absurd hj (Nat.not_lt_zero j), hc⟩
      · obtain ⟨cs', m₂, hcs', h⟩ := Act.bind_eq_ok.1 h
        cases Syscall.readOnly_chars _ _ _ _ _ hcs'
        obtain ⟨rfl, -⟩ := Act.pure_eq_ok.1 h
        obtain ⟨hbytes, hend⟩ := ih hcs'
        rw [hwrap] at hend
        refine ⟨fun j hj => ?_, ?_⟩
        · cases j with
          | zero => exact ⟨c, hz, hc⟩
          | succ j =>
              have := hbytes j (Nat.lt_of_succ_lt_succ hj)
              rw [hwrap] at this
              rwa [show p + (j + 1) = p + 1 + j by omega]
        · rw [List.length_cons]
          rwa [show p + (cs'.length + 1) = p + 1 + cs'.length by omega]

/-- The bytes that are moved up are those that are there when it is their turn. -/
theorem putUp_bytes {src : Nat → Act Mm UInt8} {q i : Nat} (hsrc : ∀ j, Act.ReadOnly (src j))
    (hdst : ∀ j, j < i + n → Mm.v2p (dst + j) = q + j)
    (h : putUp dst src n i m = .ok (bs, m')) {j : Nat} (hj : j < n) :
    ∃ m₁, m₁ = { m with mem := putList m.mem (q + i) (bs.take j) } ∧
      src (i + j) m₁ = .ok (bs.getD j 0, m₁) := by
  induction n generalizing i bs m j with
  | zero => omega
  | succ n ih =>
      simp only [putUp, Act.bind_eq_ok, Act.pure_eq_ok] at h
      obtain ⟨b, m₁, hb, _, m₂, hput, bs', m₃, hbs, rfl, rfl⟩ := h
      cases hsrc i _ _ _ hb
      have hm₂ := Act.modify_eq_ok.1 hput
      rw [hdst i (by omega)] at hm₂
      cases j with
      | zero =>
          refine ⟨m, by rw [List.take_zero, putList_nil], ?_⟩
          rw [Nat.add_zero]
          exact hb
      | succ j =>
          obtain ⟨m₄, hm₄, hread⟩ := ih (fun j hj => hdst j (by omega)) hbs (Nat.lt_of_succ_lt_succ hj)
          refine ⟨m₄, ?_, ?_⟩
          · rw [hm₄, ← hm₂, List.take_succ_cons, ← putList_cons, Nat.add_assoc]
          · rw [show i + (j + 1) = i + 1 + j by omega, hread]
            rfl

/-- A `memmove` of a user's string to the page frame `f` goes up. -/
theorem memmoveOut_up {x : Nat} (hf : Mm.IsFrame f) (hlow : f < 2147483648) (hx : x < 4096)
    (hp : p + n ≤ 2147483648) :
    memmoveOut p (Mm.p2v f + x) 0 n = putUp (Mm.p2v f + x) (fun i => Mm.vload8 (p + i)) n 0 := by
  have hle := hf.le
  have hptr : Mm.p2v f = f + 2147483648 := by
    unfold Mm.p2v
    exact u32_eq_self (by omega)
  rw [memmoveOut, if_neg]
  · rfl
  · rw [Nat.add_zero, u32_eq_self (by omega), hptr]
    omega

end

section

variable {x : Stage} {m' : Mm} {p n dst : Nat} {cs bs : List UInt8}

/-- What is written in one page is seen in it alone, the page frames are different. -/
theorem Stage.putList_addr (x : Stage) {l : List UInt8} {a : Nat} (hU : x.U (dst / 4096))
    (hin : dst % 4096 + l.length ≤ 4096) (ha : x.U (a / 4096)) :
    Exec.putList x.m.mem (x.s.addr x.m.mem dst) l (x.s.addr x.m.mem a) =
      Exec.putList x.view dst l a := by
  by_cases hpage : a / 4096 = dst / 4096
  · have heq : x.s.addr x.m.mem a + dst % 4096 = x.s.addr x.m.mem dst + a % 4096 := by
      unfold Mm.Space.addr
      rw [hpage]
      omega
    by_cases hmem : dst ≤ a ∧ a < dst + l.length
    · rw [putList_of_mem (by omega) (by omega), putList_of_mem hmem.1 hmem.2]
      congr 1
      omega
    · rw [putList_of_notMem (by omega), putList_of_notMem (by omega)]
      rfl
  · have hne : x.s.frame x.m.mem (a / 4096) ≠ x.s.frame x.m.mem (dst / 4096) :=
      fun he => hpage (x.loading.inj _ _ ha hU he)
    have h₁ := (x.loading.frame _ ha).1.aligned
    have h₂ := (x.loading.frame _ hU).1.aligned
    rw [putList_of_notMem, putList_of_notMem (by omega)]
    · rfl
    · unfold Mm.Space.addr
      omega

/-- What is written to a page of the caller is written to its memory. -/
theorem Stage.putList (x : Stage) (m' : Mm) (l : List UInt8) (hU : x.U (dst / 4096))
    (hin : dst % 4096 + l.length ≤ 4096)
    (hm : m' = { x.m with mem := Exec.putList x.m.mem (x.s.addr x.m.mem dst) l }) :
    ∃ y : Stage, y.m = m' ∧ y.s = x.s ∧ y.U = x.U ∧
      (∀ j, y.s.entry y.m.mem j = x.s.entry x.m.mem j) ∧
      ∀ a, x.U (a / 4096) → y.view a = Exec.putList x.view dst l a := by
  subst hm
  have hagree : Mm.AgreeOff (fun p => p = x.s.frame x.m.mem (dst / 4096)) x.m.mem
      (Exec.putList x.m.mem (x.s.addr x.m.mem dst) l) := agreeOff_putList hin
  obtain ⟨h, hs, -, -⟩ := x.loading.write
    { x.m with mem := Exec.putList x.m.mem (x.s.addr x.m.mem dst) l }
    (fun p hp => ⟨_, hU, hp⟩) hagree rfl
  refine ⟨x.put _ h, rfl, rfl, rfl, hs, fun a ha => ?_⟩
  have haddr : x.s.addr (Exec.putList x.m.mem (x.s.addr x.m.mem dst) l) a = x.s.addr x.m.mem a := by
    rw [Mm.Space.addr, frame_congr (hs _), Mm.Space.addr]
  exact (congrArg _ haddr).trans (x.putList_addr hU hin ha)

/-- A byte of the copy. -/
theorem Stage.copied_byte (x : Stage) (hstack : x.U (dst / 4096))
    (hlow : x.s.frame x.m.mem (dst / 4096) < 2147483648) (hu : InUser x (p, cs))
    (hin : dst % 4096 + (cs.length + 1) ≤ 4096)
    (hmove : memmoveOut p (Mm.p2v (x.s.frame x.m.mem (dst / 4096)) + dst % 4096) 0 (cs.length + 1) x.m =
      .ok (bs, m')) {j : Nat} (hj : j ≤ cs.length) :
    bs.getD j 0 = Exec.putList x.view dst (bs.take j) (p + j) := by
  have hf := (x.loading.frame _ hstack).1
  have huser : p + cs.length < 2147483648 := hu.user
  have hle := hf.le
  generalize hq : x.s.frame x.m.mem (dst / 4096) = f at hlow hmove hf hle
  have hptr : ∀ i, i < 0 + (cs.length + 1) → Mm.v2p (Mm.p2v f + dst % 4096 + i) = f + dst % 4096 + i := by
    intro i hi
    rw [Nat.add_assoc, Mm.v2p_p2v_add (by omega), Nat.add_assoc]
  rw [memmoveOut_up hf hlow (by omega) (by omega)] at hmove
  obtain ⟨m₁, hm₁, hread⟩ := putUp_bytes (fun i => Mm.readOnly_vload8 _) hptr hmove
    (Nat.lt_succ_of_le hj)
  have hlen : (bs.take j).length ≤ j := List.length_take_le j bs
  obtain ⟨y, rfl, -, hU, -, hview⟩ := x.putList m₁ (bs.take j) hstack (by omega) (by
    rw [hm₁, Nat.add_zero, ← hq, Mm.Space.addr])
  have hpage := hu.pages j hj
  rw [Nat.zero_add, y.vload8 (by omega) (by rw [hU]; exact hpage), hview _ hpage] at hread
  exact (Prod.mk.inj (Except.ok.inj hread)).1.symm

/-- The copy is the string if every byte is the right one when it is its turn. -/
theorem Stage.copied_iff (x : Stage) (hstack : x.U (dst / 4096))
    (hlow : x.s.frame x.m.mem (dst / 4096) < 2147483648) (hu : InUser x (p, cs))
    (hin : dst % 4096 + (cs.length + 1) ≤ 4096)
    (hmove : memmoveOut p (Mm.p2v (x.s.frame x.m.mem (dst / 4096)) + dst % 4096) 0 (cs.length + 1) x.m =
      .ok (bs, m')) :
    bs = cs ++ [0] ↔ ∀ j, j ≤ cs.length →
      Exec.putList x.view dst ((cs ++ [0]).take j) (p + j) = (cs ++ [0]).getD j 0 := by
  have hbyte := fun {j} => x.copied_byte (j := j) hstack hlow hu hin hmove
  constructor
  · rintro rfl j hj
    exact (hbyte hj).symm
  · intro h
    have hlen : bs.length = cs.length + 1 := counts_memmoveOut p _ _ _ _ _ _ hmove
    -- the copy agrees with the string up to every length
    have htake : ∀ j, j ≤ cs.length + 1 → bs.take j = (cs ++ [0]).take j := by
      intro j
      induction j with
      | zero => exact fun _ => rfl
      | succ j ih =>
          intro hj
          have hget : bs.getD j 0 = (cs ++ [0]).getD j 0 := by
            rw [hbyte (by omega), ih (by omega)]
            exact h j (by omega)
          have hlong : j < (cs ++ [0]).length := by rw [List.length_append]; exact hj
          rw [List.take_succ_eq_append_getElem (by omega), List.take_succ_eq_append_getElem hlong,
            ih (by omega)]
          congr 2
          rwa [List.getD_eq_getElem _ _ (by omega), List.getD_eq_getElem _ _ hlong] at hget
    have hall := htake (cs.length + 1) le_rfl
    rwa [List.take_of_length_le (by omega), List.take_of_length_le (by simp)] at hall

/-- The length that `strlen` finds is that of the string if its bytes are not zero and its
terminator is there. -/
theorem Stage.strlen_iff (x : Stage) (hu : InUser x (p, cs)) (h : strlen p x.m = .ok (n, m')) :
    n = cs.length ↔ (∀ j, j < cs.length → x.view (p + j) ≠ 0) ∧ x.view (p + cs.length) = 0 := by
  obtain ⟨cs', m₁, hcs', h⟩ := Act.bind_eq_ok.1 h
  obtain ⟨rfl, -⟩ := Act.pure_eq_ok.1 h
  obtain ⟨hinside, hend⟩ := chars_bytes hcs'
  have huser : p + cs.length < 2147483648 := hu.user
  have hload : ∀ j, j ≤ cs.length → Mm.vload8 (p + j) x.m = .ok (x.view (p + j), x.m) :=
    fun j hj => x.vload8 (by omega) (hu.pages j hj)
  have hne : ∀ j, j < cs'.length → j ≤ cs.length → x.view (p + j) ≠ 0 := by
    intro j hj hj'
    obtain ⟨b, hb, hread⟩ := hinside j hj
    rwa [(Prod.mk.inj (Except.ok.inj ((hload j hj').symm.trans hread))).1]
  have hzero : cs'.length ≤ cs.length → x.view (p + cs'.length) = 0 :=
    fun hj => (Prod.mk.inj (Except.ok.inj ((hload _ hj).symm.trans hend))).1
  constructor
  · intro hn
    exact ⟨fun j hj => hne j (by omega) (by omega), hn ▸ hzero hn.le⟩
  · rintro ⟨hin, hterm⟩
    rcases Nat.lt_trichotomy cs'.length cs.length with hlt | heq | hgt
    · exact absurd (hzero hlt.le) (hin _ hlt)
    · exact heq
    · exact absurd hterm (hne _ hgt le_rfl)

/-- Only the bytes of the strings count. -/
theorem kept_congr {v w : Memory} {sp : Nat} {args : List (Nat × List UInt8)}
    (h : ∀ a ∈ args, ∀ j, j ≤ a.2.length → w (a.1 + j) = v (a.1 + j)) :
    Kept w sp args ↔ Kept v sp args := by
  induction args generalizing v w sp with
  | nil => exact Iff.rfl
  | cons arg args ih =>
      obtain ⟨p, cs⟩ := arg
      obtain ⟨hp, hargs⟩ := List.forall_mem_cons.1 h
      have hput : ∀ (l : List UInt8) (dst a : Nat), w a = v a →
          Exec.putList w dst l a = Exec.putList v dst l a := by
        intro l dst a ha
        unfold Exec.putList
        rw [ha]
      refine and_congr ⟨fun hc => ⟨fun j hj => ?_, ?_, fun j hj => ?_⟩,
        fun hc => ⟨fun j hj => ?_, ?_, fun j hj => ?_⟩⟩
        (ih fun a ha j hj => hput _ _ _ (hargs a ha j hj))
      · rw [← hp j (Nat.le_of_lt hj)]
        exact hc.inside j hj
      · rw [← hp _ le_rfl]
        exact hc.terminator
      · rw [← hput _ _ _ (hp j hj)]
        exact hc.bytes j hj
      · rw [hp j (Nat.le_of_lt hj)]
        exact hc.inside j hj
      · rw [hp _ le_rfl]
        exact hc.terminator
      · rw [hput _ _ _ (hp j hj)]
        exact hc.bytes j hj

/-- The strings that are put on the stack are the arguments if they can be copied. -/
theorem Stage.pushArgs_iff {args : List (Nat × List UInt8)} {argc sp : Nat} {a : Pushed}
    (x : Stage) (hstack : x.U 524287) (hlow : x.s.frame x.m.mem 524287 < 2147483648)
    (hsp : sp ≤ 2147483648) (hal : sp % 4 = 0) (hargs : ∀ a ∈ args, InUser x a)
    (hfit : 2147479552 + argBytes (terminated args) ≤ sp)
    (h : pushArgs (Mm.p2v x.s.dir) (args.map Prod.fst) argc sp x.m = .ok (some a, m')) :
    a.strings = terminated args ↔ Kept x.view sp args := by
  induction args generalizing x argc sp a with
  | nil =>
      obtain ⟨ha, -⟩ := Act.pure_eq_ok.1 h
      cases ha
      exact iff_of_true rfl trivial
  | cons arg args ih =>
      obtain ⟨p, cs⟩ := arg
      obtain ⟨hu, hargs⟩ := List.forall_mem_cons.1 hargs
      rw [List.map_cons, pushArgs] at h
      rcases Act.ite_eq_ok.1 h with ⟨-, h⟩ | ⟨-, h⟩
      · cases (Act.pure_eq_ok.1 h).1
      simp only [Act.bind_eq_ok] at h
      obtain ⟨n, m₁, hn, n', m₂, hn', r, m₃, hr, h⟩ := h
      cases readOnly_strlen p _ _ _ hn
      cases readOnly_strlen p _ _ _ hn'
      cases hn.symm.trans hn'
      rcases Act.ite_eq_ok.1 h with ⟨-, h⟩ | ⟨hr0, h⟩
      · cases (Act.pure_eq_ok.1 h).1
      obtain ⟨o, m₄, ho, h⟩ := Act.bind_eq_ok.1 h
      cases o with
      | none => cases (Act.pure_eq_ok.1 h).1
      | some b =>
          obtain ⟨ha, rfl⟩ := Act.pure_eq_ok.1 h
          cases ha
          have hiff := x.strlen_iff hu hn
          have hlen : r.2.length = n + 1 := by
            rcases copyoutLoop_length (counts_memmoveOut p) hr with ⟨-, hlen⟩ | hneg
            · exact hlen
            · omega
          show r.2 :: b.strings = (cs ++ [0]) :: terminated args ↔ _
          by_cases hcs : n = cs.length
          · subst hcs
            have hcons : argBytes (terminated ((p, cs) :: args)) =
                roundUp4 (cs.length + 1) + argBytes (terminated args) := by
              rw [terminated, List.map_cons, argBytes_cons, List.length_append]
              rfl
            rw [hcons] at hfit
            obtain ⟨hle, hmod⟩ := le_roundUp4 (cs.length + 1)
            have hsp' : u32 (sp + 4294967296 - (cs.length + 1)) / 4 * 4 =
                sp - roundUp4 (cs.length + 1) := by
              unfold roundUp4 at hfit ⊢
              unfold u32
              omega
            rw [hsp'] at hr ho
            rw [List.cons_eq_cons, Kept]
            generalize hdst : sp - roundUp4 (cs.length + 1) = dst at hr ho ⊢
            have hdiv : dst / 4096 = 524287 := by omega
            have hin : dst % 4096 + (cs.length + 1) ≤ 4096 := by omega
            rw [← hdiv] at hstack hlow
            obtain ⟨t, ht⟩ := Mm.Space.tab_of_present (x.loading.present _ hstack)
            obtain ⟨-, hm₃, hmove⟩ := copyout_page (f := x.s.frame x.m.mem (dst / 4096))
              x.loading.caller.space (by omega) ht rfl hin (counts_memmoveOut p)
              (writes_memmoveOut p) hr hr0
            have hcopy : r.2 = cs ++ [0] ↔ Copyable x.view p dst cs :=
              (x.copied_iff hstack hlow hu hin (hmove (Nat.succ_pos _))).trans
                ⟨fun hb => ⟨(hiff.1 rfl).1, (hiff.1 rfl).2, hb⟩, fun hb => hb.bytes⟩
            rw [hcopy]
            refine and_congr_right fun hc => ?_
            obtain ⟨y, rfl, hs, hU, hentry, hview⟩ := x.putList m₃ r.2 hstack (by omega) hm₃
            have hlow' : y.s.frame y.m.mem 524287 < 2147483648 := by
              rw [frame_congr (hentry _), ← hdiv]
              exact hlow
            rw [← hs] at ho
            refine (ih y (by rw [hU, ← hdiv]; exact hstack) hlow' (by omega) (by omega)
              (fun a ha => ⟨(hargs a ha).user, by rw [hU]; exact (hargs a ha).pages⟩) (by omega)
              ho).trans (kept_congr fun a ha j hj => ?_)
            rw [hview _ ((hargs a ha).pages j hj), hcopy.2 hc]
          · refine iff_of_false (fun he => hcs ?_) fun hk => hcs ?_
            · have hlen' := congrArg List.length (List.cons.inj he).1
              rw [hlen, List.length_append] at hlen'
              exact Nat.succ.inj hlen'
            · exact hiff.2 ⟨hk.1.inside, hk.1.terminator⟩

end

end Exec

end Chunix
