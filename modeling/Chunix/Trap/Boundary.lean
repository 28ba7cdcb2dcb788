import Chunix.Mm.User
import Chunix.Trap.Syscall

/-!
# What a system call lets the user do

`syscall` calls the right function, or refuses the number, exactly when the word
that it takes for the entry of the table is the entry of the table or zero. The
stores of `sys_read` and `sys_stat` stay in the user's pages exactly when the
buffer that the user names lies there, byte by byte. That a call makes no store
outside a set of addresses is stated by exchanging the store: a call that stores
only inside comes to the same with every store that is right there.
-/

namespace Chunix

namespace Syscall

open Machine Act Sfs

/-- The address is in a page that the directory maps for user mode. -/
def userMapped (mem : Memory) (dir va : Nat) : Prop :=
  Mm.present (load32 mem (dir + 4 * Mm.pdx va)) ∧ Mm.userBit (load32 mem (dir + 4 * Mm.pdx va)) ∧
    Mm.present (load32 mem (Mm.pteAddr (load32 mem (dir + 4 * Mm.pdx va)) + 4 * Mm.ptx va)) ∧
    Mm.userBit (load32 mem (Mm.pteAddr (load32 mem (dir + 4 * Mm.pdx va)) + 4 * Mm.ptx va))

/-- The address is in a user page of the calling task. -/
def World.user (w : World) (va : Nat) : Prop :=
  ∃ c, w.kernel.current = some c ∧
    userMapped w.kernel.mm.mem (Mm.v2p (w.kernel.tasks c).pgdir) va

/-- The call stores inside `U` only: every store that is right there will do. -/
def Within {α : Type} (U : Nat → Prop) (x : (Nat → UInt8 → Act Mm Unit) → Act World α)
    (w : World) : Prop :=
  ∀ put, (∀ va b, U (u32 va) → put va b = Mm.vstore8 va b) → x put w = x Mm.vstore8 w

/-- The number of characters that `stdin_read` takes from the buffer for a
request of `n`. A character of value 255 looks like the end. -/
def ready : Console → Nat → Nat
  | _, 0 => 0
  | c, n + 1 =>
      if c.rpos = c.wpos then 0 else if char (c.buf c.rpos) = -1 then 0 else ready c.next n + 1

/-- The number of bytes that `sys_read` stores for its arguments. -/
def World.count (w : World) (fd len : Nat) : Nat :=
  if fd = 0 then ready w.cons (int32 len).toNat
  else if 16 ≤ int32 fd then 0
  else
    match w.kernel.current.bind fun c => w.desc c (int32 fd) with
    | none => 0
    | some d => d.left (int32 len)

/-- The bytes that `sys_read` is asked to store are in `U`. -/
def ReadTargets (U : Nat → Prop) (w : World) : Prop :=
  ∀ fd p len, argint 0 w = .ok (fd, w) → argint 1 w = .ok (p, w) → argint 2 w = .ok (len, w) →
    ∀ i, i < w.count fd len → U (u32 (p + i))

/-- The twelve bytes of the buffer of `sys_stat` are in `U`. -/
def StatTargets (U : Nat → Prop) (w : World) : Prop :=
  ∀ buf, argint 1 w = .ok (buf, w) → ∀ i, i < 12 → U (u32 (buf + i))

theorem readOnly_onMm {α : Type} {x : Act Mm α} (h : ReadOnly x) : ReadOnly (onMm x) :=
  h.zoom fun _ => rfl

theorem readOnly_getCurrent : ReadOnly getCurrent := by
  refine readOnly_get.bind fun w => ?_
  cases w.kernel.current with
  | none => exact readOnly_halt _
  | some c => exact readOnly_pure c

theorem readOnly_getTask : ReadOnly getTask := readOnly_getCurrent.bind fun _ => readOnly_gets _

theorem readOnly_kload (p : Nat) : ReadOnly (Mm.kload p) := readOnly_gets _

theorem readOnly_argint (n : Nat) : ReadOnly (argint n) := by
  refine readOnly_getTask.bind fun tp => (readOnly_onMm (readOnly_kload _)).bind fun esp => ?_
  exact readOnly_onMm (Mm.readOnly_vload32 _)

theorem readOnly_chars (n va : Nat) : ReadOnly (chars n va) := by
  induction n generalizing va with
  | zero => exact readOnly_halt _
  | succ n ih =>
      rw [chars]
      refine (Mm.readOnly_vload8 va).bind fun c => ?_
      split
      · exact readOnly_pure _
      · exact (ih _).bind fun cs => readOnly_pure _

theorem readOnly_argstr (n : Nat) : ReadOnly (argstr n) := by
  refine (readOnly_argint n).bind fun addr => ?_
  exact ((readOnly_onMm (readOnly_chars _ _)).bind fun _ => readOnly_pure _).bind
    fun _ => readOnly_pure _

/-- The pointer that `argstr` returns is the argument. -/
theorem argstr_eq_ok {n p : Nat} {w w' : World} (h : argstr n w = .ok (p, w')) :
    argint n w = .ok (p, w) ∧ w' = w := by
  have hw := readOnly_argstr n _ _ _ h
  subst hw
  rw [argstr] at h
  obtain ⟨addr, w₁, ha, h⟩ := bind_eq_ok.1 h
  have hw₁ := readOnly_argint n _ _ _ ha
  subst hw₁
  obtain ⟨_, _, -, h⟩ := bind_eq_ok.1 h
  obtain ⟨rfl, -⟩ := pure_eq_ok.1 h
  exact ⟨ha, rfl⟩

/-- What `get_c(0)` does. -/
theorem getC_cases (w : World) :
    (w.cons.rpos = w.cons.wpos ∧ getC w = .ok (-1, w)) ∨
      (w.cons.rpos ≠ w.cons.wpos ∧
        getC w = .ok (char (w.cons.buf w.cons.rpos), { w with cons := w.cons.next })) := by
  rw [getC, bind_of_ok (gets_eq_ok.2 ⟨rfl, rfl⟩)]
  by_cases h : w.cons.rpos = w.cons.wpos
  · exact Or.inl ⟨h, by rw [if_pos h]; rfl⟩
  · exact Or.inr ⟨h, by rw [if_neg h]; rfl⟩

theorem ready_succ_of_ne {c : Console} {n : Nat} (h : c.rpos ≠ c.wpos)
    (hc : char (c.buf c.rpos) ≠ -1) : ready c (n + 1) = ready c.next n + 1 := by
  rw [ready, if_neg h, if_neg hc]

theorem onMm_of_ok {α : Type} {x : Act Mm α} {a : α} {w : World} {m : Mm}
    (h : x w.kernel.mm = .ok (a, m)) :
    onMm x w = .ok (a, { w with kernel := { w.kernel with mm := m } }) :=
  zoom_eq_ok.2 ⟨m, h, rfl⟩

theorem onMm_cons {α : Type} {x : Act Mm α} {a : α} {w w' : World} (h : onMm x w = .ok (a, w')) :
    w'.cons = w.cons := by
  obtain ⟨_, -, rfl⟩ := zoom_eq_ok.1 h
  rfl

section

variable {U : Nat → Prop} {put : Nat → UInt8 → Act Mm Unit}
  (hput : ∀ va b, U (u32 va) → put va b = Mm.vstore8 va b)

include hput

theorem copy_congr {va n i : Nat} {f : Nat → UInt8}
    (h : ∀ j, j < n → U (u32 (va + i + j))) : copy put va f n i = copy Mm.vstore8 va f n i := by
  induction n generalizing i with
  | zero => rfl
  | succ n ih =>
      have hnext : ∀ j, j < n → U (u32 (va + (i + 1) + j)) := by
        intro j hj
        have := h (j + 1) (by omega)
        rwa [show va + i + (j + 1) = va + (i + 1) + j by omega] at this
      have hfirst : put (va + i) (f i) = Mm.vstore8 (va + i) (f i) := hput _ _ (h 0 (by omega))
      rw [copy, copy, hfirst, ih hnext]

theorem stdinLoop_congr {buf n i : Nat} {w : World}
    (h : ∀ j, j < ready w.cons n → U (u32 (buf + i + j))) :
    stdinLoop put buf n i w = stdinLoop Mm.vstore8 buf n i w := by
  induction n generalizing i w with
  | zero => rfl
  | succ n ih =>
      rw [stdinLoop, stdinLoop]
      rcases getC_cases w with ⟨-, hg⟩ | ⟨hne, hg⟩
      · rw [bind_of_ok hg, bind_of_ok hg, if_pos rfl, if_pos rfl]
      rw [bind_of_ok hg, bind_of_ok hg]
      by_cases hc : char (w.cons.buf w.cons.rpos) = -1
      · rw [if_pos hc, if_pos hc]
      rw [ready_succ_of_ne hne hc] at h
      have hfirst : ∀ b, put (buf + i) b = Mm.vstore8 (buf + i) b :=
        fun b => hput _ _ (h 0 (by omega))
      rw [if_neg hc, if_neg hc, hfirst]
      refine bind_congr_of_ok fun _ w₁ hw₁ => ih fun j hj => ?_
      have hj' : j < ready w.cons.next n := by
        rw [onMm_cons hw₁] at hj
        exact hj
      have := h (j + 1) (by omega)
      rwa [show buf + i + (j + 1) = buf + (i + 1) + j by omega] at this

theorem readLoop_congr {c : Slot} {fd : Int} {nb buf : Nat} {n count : Int}
    (h : ∀ j, j < n.toNat → U (u32 (buf + j))) :
    readLoop put c fd nb n buf count = readLoop Mm.vstore8 c fd nb n buf count := by
  induction hn : n.toNat using Nat.strong_induction_on generalizing nb buf n count with
  | _ k ih =>
      rw [readLoop, readLoop]
      split
      case isFalse => rfl
      case isTrue hpos =>
        have hcopy : ∀ f, copy put buf f (min 512 n).toNat 0 =
            copy Mm.vstore8 buf f (min 512 n).toNat 0 :=
          fun f => copy_congr hput fun j hj => h j (by omega)
        have hnext : ∀ count, readLoop put c fd (nb + 1) (n - min 512 n) (buf + (min 512 n).toNat)
            count = readLoop Mm.vstore8 c fd (nb + 1) (n - min 512 n) (buf + (min 512 n).toNat)
            count := by
          intro count
          refine ih (n - min 512 n).toNat (by omega) (fun j hj => ?_) rfl
          rw [Nat.add_assoc]
          exact h _ (by omega)
        simp only [hcopy, hnext]

omit hput in
/-- The first copy of `sfs_read` and its loop together are as long as `left`
says. A length with the highest bit set is copied at once. -/
theorem left_split (d : Desc) (n : Int) :
    let l := min (int32 (d.left n)) (512 - (d.pos % 512 : Nat))
    word l + (int32 (d.left n) - l).toNat = d.left n := by
  have hlt : d.left n < 4294967296 := u32_lt _
  generalize d.left n = k at hlt ⊢
  have hpos : d.pos % 512 < 512 := Nat.mod_lt _ (by decide)
  generalize d.pos % 512 = r at hpos ⊢
  unfold int32 word
  dsimp only
  split <;> omega

theorem readDesc_congr {c : Slot} {fd : Int} {buf : Nat} {n : Int} {o : Option Desc}
    (h : ∀ d, o = some d → ∀ j, j < d.left n → U (u32 (buf + j))) :
    readDesc put c fd buf n o = readDesc Mm.vstore8 c fd buf n o := by
  cases o with
  | none => rfl
  | some d =>
      have hU := h d rfl
      have hsplit := left_split d n
      simp only at hsplit
      have hcopy : ∀ k f, k ≤ d.left n → copy put buf f k 0 = copy Mm.vstore8 buf f k 0 :=
        fun k f hk => copy_congr hput fun j hj => hU j (by omega)
      have hloop : ∀ k m nb count, k + m.toNat = d.left n →
          readLoop put c fd nb m (buf + k) count =
            readLoop Mm.vstore8 c fd nb m (buf + k) count := by
        intro k m nb count hkm
        refine readLoop_congr hput fun j hj => ?_
        rw [Nat.add_assoc]
        exact hU _ (by omega)
      rw [readDesc, readDesc]
      simp only [hcopy _ _ (Nat.le.intro hsplit), hloop _ _ _ _ hsplit]

end

theorem current_of_argint {n a : Nat} {w w' : World} (h : argint n w = .ok (a, w')) :
    ∃ c, w.kernel.current = some c := by
  rw [argint] at h
  obtain ⟨tp, w₁, ht, -⟩ := bind_eq_ok.1 h
  rw [getTask] at ht
  obtain ⟨c, _, hc, -⟩ := bind_eq_ok.1 ht
  rw [getCurrent] at hc
  obtain ⟨_, _, hg, hc⟩ := bind_eq_ok.1 hc
  obtain ⟨rfl, rfl⟩ := get_eq_ok.1 hg
  cases hcur : w.kernel.current with
  | none =>
      rw [hcur] at hc
      exact (halt_eq_ok.1 hc).elim
  | some c => exact ⟨c, rfl⟩

theorem getCurrent_of_eq {c : Slot} {w : World} (h : w.kernel.current = some c) :
    getCurrent w = .ok (c, w) := by
  rw [getCurrent, bind_of_ok (get_eq_ok.2 ⟨rfl, rfl⟩), h]
  rfl

/-- Where the bytes that it is asked to store are inside, `sys_read` stores
inside. -/
theorem sysRead_within {U : Nat → Prop} {w : World} (h : ReadTargets U w) : Within U sysRead w := by
  intro put hput
  rw [sysRead, sysRead]
  refine bind_congr_of_ok fun fd w₁ hfd => ?_
  cases readOnly_argint _ _ _ _ hfd
  refine bind_congr_of_ok fun p w₂ hp => ?_
  obtain ⟨hp, rfl⟩ := argstr_eq_ok hp
  refine bind_congr_of_ok fun len w₃ hlen => ?_
  cases readOnly_argint _ _ _ _ hlen
  have hU := h fd p len hfd hp hlen
  rw [World.count] at hU
  by_cases h0 : fd = 0
  · rw [if_pos h0] at hU
    rw [if_pos h0, if_pos h0]
    exact stdinLoop_congr hput hU
  · rw [if_neg h0] at hU
    rw [if_neg h0, if_neg h0, sfsRead, sfsRead]
    by_cases h16 : 16 ≤ int32 fd
    · rw [if_pos h16, if_pos h16]
    · obtain ⟨c, hc⟩ := current_of_argint hfd
      rw [if_neg h16, hc] at hU
      rw [if_neg h16, if_neg h16, bind_of_ok (getCurrent_of_eq hc),
        bind_of_ok (getCurrent_of_eq hc), bind_of_ok (gets_eq_ok.2 ⟨rfl, rfl⟩),
        bind_of_ok (gets_eq_ok.2 ⟨rfl, rfl⟩)]
      rw [readDesc_congr hput]
      intro d hd
      rw [Option.bind_some, hd] at hU
      exact hU

/-- Where its buffer is inside, `sys_stat` stores inside. -/
theorem sysStat_within {U : Nat → Prop} {w : World} {fr : Frame} (h : StatTargets U w) :
    Within U (fun put => sysStat put fr) w := by
  intro put hput
  simp only
  rw [sysStat, sysStat]
  refine bind_congr_of_ok fun path w₁ hpath => ?_
  cases readOnly_argstr _ _ _ _ hpath
  refine bind_congr_of_ok fun buf w₂ hbuf => ?_
  obtain ⟨hbuf, rfl⟩ := argstr_eq_ok hbuf
  have hU := h buf hbuf
  have hcopy : ∀ a k f, a + k ≤ 12 →
      copy put (buf + a) f k 0 = copy Mm.vstore8 (buf + a) f k 0 := by
    intro a k f hak
    refine copy_congr hput fun j hj => ?_
    rw [Nat.add_zero, Nat.add_assoc]
    exact hU _ (by omega)
  have hcopy₀ : ∀ k f, k ≤ 12 → copy put buf f k 0 = copy Mm.vstore8 buf f k 0 :=
    fun k f hk => hcopy 0 k f (by omega)
  have hstat : putStat put buf = putStat Mm.vstore8 buf := by
    funext st
    rw [putStat, putStat, hcopy 4 4 _ (by omega), hcopy 8 4 _ (by omega), hcopy₀ 2 _ (by omega)]
  rw [hstat, hcopy₀ 12 _ (by omega)]

open Classical in
/-- The store that stops outside `U`. -/
noncomputable def guard (U : Nat → Prop) (va : Nat) (b : UInt8) : Act Mm Unit :=
  if U (u32 va) then Mm.vstore8 va b else Act.halt .hang

section

variable {U : Nat → Prop} {w w' : World}

theorem guard_of_mem {va : Nat} (b : UInt8) (h : U (u32 va)) : guard U va b = Mm.vstore8 va b :=
  if_pos h

theorem mem_of_guard {va : Nat} {b : UInt8} {u : Unit} (h : onMm (guard U va b) w = .ok (u, w')) :
    U (u32 va) := by
  by_contra hU
  obtain ⟨m, hm, -⟩ := zoom_eq_ok.1 h
  rw [guard, if_neg hU] at hm
  exact (halt_eq_ok.1 hm).elim

theorem mem_of_copy {va n i : Nat} {f : Nat → UInt8} {u : Unit}
    (h : copy (guard U) va f n i w = .ok (u, w')) : ∀ j, j < n → U (u32 (va + i + j)) := by
  induction n generalizing i w with
  | zero => simp
  | succ n ih =>
      rw [copy] at h
      obtain ⟨_, w₁, hput, h⟩ := bind_eq_ok.1 h
      intro j hj
      cases j with
      | zero => exact mem_of_guard hput
      | succ j =>
          have := ih h j (by omega)
          rwa [show va + (i + 1) + j = va + i + (j + 1) by omega] at this

theorem mem_of_stdinLoop {buf n i : Nat} {r : Int}
    (h : stdinLoop (guard U) buf n i w = .ok (r, w')) :
    ∀ j, j < ready w.cons n → U (u32 (buf + i + j)) := by
  induction n generalizing i w with
  | zero => simp [ready]
  | succ n ih =>
      rw [stdinLoop] at h
      rcases getC_cases w with ⟨heq, -⟩ | ⟨hne, hg⟩
      · simp [ready, heq]
      by_cases hc : char (w.cons.buf w.cons.rpos) = -1
      · simp [ready, hc]
      rw [ready_succ_of_ne hne hc]
      rw [bind_of_ok hg, if_neg hc] at h
      obtain ⟨_, w₁, hput, h⟩ := bind_eq_ok.1 h
      intro j hj
      cases j with
      | zero => exact mem_of_guard hput
      | succ j =>
          have hj' : j < ready w₁.cons n := by
            rw [onMm_cons hput]
            exact Nat.lt_of_succ_lt_succ hj
          have := ih h j hj'
          rwa [show buf + (i + 1) + j = buf + i + (j + 1) by omega] at this

theorem mem_of_readLoop {c : Slot} {fd : Int} {nb buf : Nat} {n count r : Int}
    (h : readLoop (guard U) c fd nb n buf count w = .ok (r, w')) :
    ∀ j, j < n.toNat → U (u32 (buf + j)) := by
  induction hn : n.toNat using Nat.strong_induction_on generalizing nb buf n count w with
  | _ k ih =>
      rw [readLoop] at h
      by_cases hpos : 0 < n
      · rw [if_pos hpos] at h
        obtain ⟨_, _, -, h⟩ := bind_eq_ok.1 h
        obtain ⟨xbuf, w₁, -, h⟩ := bind_eq_ok.1 h
        obtain ⟨_, w₂, hcopy, h⟩ := bind_eq_ok.1 h
        obtain ⟨_, w₃, -, h⟩ := bind_eq_ok.1 h
        have hfirst := mem_of_copy hcopy
        have hrest := ih (n - min 512 n).toNat (by omega) h rfl
        intro j hj
        by_cases hlt : j < (min 512 n).toNat
        · exact hfirst j hlt
        · have := hrest (j - (min 512 n).toNat) (by omega)
          rwa [show buf + (min 512 n).toNat + (j - (min 512 n).toNat) = buf + j by omega] at this
      · intro j hj
        omega

theorem mem_of_readDesc {c : Slot} {fd : Int} {buf : Nat} {n r : Int} {d : Desc}
    (h : readDesc (guard U) c fd buf n (some d) w = .ok (r, w')) :
    ∀ j, j < d.left n → U (u32 (buf + j)) := by
  have hsplit := left_split d n
  simp only at hsplit
  rw [readDesc] at h
  simp only at h
  obtain ⟨_, _, -, h⟩ := bind_eq_ok.1 h
  obtain ⟨xbuf, w₁, -, h⟩ := bind_eq_ok.1 h
  obtain ⟨_, w₂, hcopy, h⟩ := bind_eq_ok.1 h
  obtain ⟨_, w₃, -, h⟩ := bind_eq_ok.1 h
  have hfirst := mem_of_copy hcopy
  have hrest := mem_of_readLoop h
  intro j hj
  generalize word (min (int32 (d.left n)) (512 - ↑(d.pos % 512))) = a at *
  by_cases hlt : j < a
  · exact hfirst j hlt
  · have := hrest (j - a) (by omega)
    rwa [show buf + a + (j - a) = buf + j by omega] at this

/-- A call of `sys_read` that returns and stores inside has been asked to. -/
theorem readTargets_of_within {r : Int} (hr : sysRead Mm.vstore8 w = .ok (r, w'))
    (h : Within U sysRead w) : ReadTargets U w := by
  have hg := (h (guard U) fun va b hU => guard_of_mem b hU).trans hr
  intro fd p len hfd hp hlen
  rw [sysRead, bind_of_ok hfd] at hg
  obtain ⟨p', w₁, hp', hg⟩ := bind_eq_ok.1 hg
  obtain ⟨hp', rfl⟩ := argstr_eq_ok hp'
  cases hp.symm.trans hp'
  rw [bind_of_ok hlen] at hg
  rw [World.count]
  by_cases h0 : fd = 0
  · rw [if_pos h0] at hg ⊢
    exact mem_of_stdinLoop hg
  · rw [if_neg h0] at hg ⊢
    rw [sfsRead] at hg
    by_cases h16 : 16 ≤ int32 fd
    · rw [if_pos h16]
      intro j hj
      omega
    · obtain ⟨c, hc⟩ := current_of_argint hfd
      rw [if_neg h16, bind_of_ok (getCurrent_of_eq hc),
        bind_of_ok (gets_eq_ok.2 ⟨rfl, rfl⟩)] at hg
      rw [if_neg h16, hc, Option.bind_some]
      cases hd : w₁.desc c (int32 fd) with
      | none => exact fun j hj => absurd hj (Nat.not_lt_zero j)
      | some d =>
          rw [hd] at hg
          exact mem_of_readDesc hg

/-- A call of `sys_stat` that returns and stores inside has been asked to. -/
theorem statTargets_of_within {fr : Frame} {r : Int} (hr : sysStat Mm.vstore8 fr w = .ok (r, w'))
    (h : Within U (fun put => sysStat put fr) w) : StatTargets U w := by
  have hg := (h (guard U) fun va b hU => guard_of_mem b hU).trans hr
  simp only at hg
  intro buf hbuf
  rw [sysStat] at hg
  obtain ⟨path, w₁, hpath, hg⟩ := bind_eq_ok.1 hg
  cases readOnly_argstr _ _ _ _ hpath
  obtain ⟨buf', w₂, hbuf', hg⟩ := bind_eq_ok.1 hg
  obtain ⟨hbuf', rfl⟩ := argstr_eq_ok hbuf'
  cases hbuf.symm.trans hbuf'
  obtain ⟨_, w₃, hcopy, -⟩ := bind_eq_ok.1 hg
  exact mem_of_copy hcopy

end

/-- The user's `eax`. -/
def World.eax (w : World) (c : Slot) : Nat :=
  load32 w.kernel.mm.mem (Mm.v2p ((w.kernel.tasks c).tf + eaxAt))

/-- The world with another value in the user's `eax`. -/
def World.setEax (w : World) (c : Slot) (v : Nat) : World :=
  { w with kernel := { w.kernel with mm := { w.kernel.mm with
      mem := store32 w.kernel.mm.mem (Mm.v2p ((w.kernel.tasks c).tf + eaxAt)) v } } }

/-- The kernel as it is linked, in a system call of the task `c`: the table has the
addresses of the functions, which differ, and zero for the number zero. -/
structure Linked (w : World) (c : Slot) : Prop where
  current : w.kernel.current = some c
  table : ∀ h : Handler, Mm.vload32 (u32 (w.syscalls + 4 * h.number)) w.kernel.mm =
    .ok (w.entry h, w.kernel.mm)
  nonzero : ∀ h, w.entry h ≠ 0
  inj : ∀ h h', w.entry h = w.entry h' → h = h'

/-- `syscall` calls the function of the number in `eax`, or sets `eax` to `-1` and
nothing else if the number is that of no function. -/
def Dispatched (w : World) (c : Slot) : Prop :=
  (∃ h : Handler, h.number = w.eax c ∧ syscall w = .ok (.called h, w)) ∨
    ((∀ h : Handler, h.number ≠ w.eax c) ∧
      syscall w = .ok (.unknown, w.setEax c 4294967295))

theorem exists_number_iff {n : Nat} : (∃ h : Handler, h.number = n) ↔ 1 ≤ n ∧ n ≤ 11 := by
  constructor
  · rintro ⟨h, rfl⟩
    cases h <;> decide
  · rintro ⟨h₁, h₂⟩
    have : ∀ n, n < 12 → 1 ≤ n → ∃ h ∈ Handler.all, h.number = n := by decide
    obtain ⟨h, -, hn⟩ := this n (by omega) h₁
    exact ⟨h, hn⟩

theorem mem_all (h : Handler) : h ∈ Handler.all := by cases h <;> decide

section

variable {w : World} {c : Slot}

/-- `syscall` where the word at the entry can be read. -/
theorem syscall_of_vload32 {p : Nat} (hc : w.kernel.current = some c)
    (hp : Mm.vload32 (u32 (w.syscalls + 4 * w.eax c)) w.kernel.mm = .ok (p, w.kernel.mm)) :
    syscall w = if p ≠ 0 then
        match Handler.all.find? fun h => w.entry h = p with
        | some h => .ok (.called h, w)
        | none => .ok (.wild p, w)
      else .ok (.unknown, w.setEax c 4294967295) := by
  have htask : getTask w = .ok (w.kernel.tasks c, w) :=
    bind_eq_ok.2 ⟨c, w, getCurrent_of_eq hc, gets_eq_ok.2 ⟨rfl, rfl⟩⟩
  have hnum : onMm (Mm.kload ((w.kernel.tasks c).tf + eaxAt)) w = .ok (w.eax c, w) :=
    zoom_eq_ok.2 ⟨_, gets_eq_ok.2 ⟨rfl, rfl⟩, rfl⟩
  have hword : onMm (Mm.vload32 (u32 (w.syscalls + 4 * w.eax c))) w = .ok (p, w) :=
    zoom_eq_ok.2 ⟨_, hp, rfl⟩
  rw [syscall, bind_of_ok htask, bind_of_ok hnum, bind_of_ok (get_eq_ok.2 ⟨rfl, rfl⟩),
    bind_of_ok hword]
  by_cases h0 : p ≠ 0
  · rw [if_pos h0, if_pos h0]
    cases Handler.all.find? fun h => w.entry h = p <;> rfl
  · rw [if_neg h0, if_neg h0]
    exact bind_eq_ok.2 ⟨(), w.setEax c 4294967295,
      zoom_eq_ok.2 ⟨_, modify_eq_ok.2 rfl, rfl⟩, pure_eq_ok.2 ⟨rfl, rfl⟩⟩

theorem syscall_of_error {e : Stop} (hc : w.kernel.current = some c)
    (hp : Mm.vload32 (u32 (w.syscalls + 4 * w.eax c)) w.kernel.mm = .error e) :
    syscall w = .error e := by
  have htask : getTask w = .ok (w.kernel.tasks c, w) :=
    bind_eq_ok.2 ⟨c, w, getCurrent_of_eq hc, gets_eq_ok.2 ⟨rfl, rfl⟩⟩
  have hnum : onMm (Mm.kload ((w.kernel.tasks c).tf + eaxAt)) w = .ok (w.eax c, w) :=
    zoom_eq_ok.2 ⟨_, gets_eq_ok.2 ⟨rfl, rfl⟩, rfl⟩
  have hword : onMm (Mm.vload32 (u32 (w.syscalls + 4 * w.eax c))) w = .error e := by
    simp only [onMm, Act.zoom, hp]
  rw [syscall, bind_of_ok htask, bind_of_ok hnum, bind_of_ok (get_eq_ok.2 ⟨rfl, rfl⟩),
    bind_of_error hword]

theorem dispatched_iff (h : Linked w c) :
    Dispatched w c ↔ (1 ≤ w.eax c ∧ w.eax c ≤ 11) ∨
      Mm.vload32 (u32 (w.syscalls + 4 * w.eax c)) w.kernel.mm = .ok (0, w.kernel.mm) := by
  rw [← exists_number_iff]
  by_cases hnum : ∃ h : Handler, h.number = w.eax c
  · obtain ⟨f, hf⟩ := hnum
    have hcall : syscall w = .ok (.called f, w) := by
      rw [syscall_of_vload32 h.current (hf ▸ h.table f), if_pos (h.nonzero f)]
      have hfind : Handler.all.find? (fun g => decide (w.entry g = w.entry f)) = some f := by
        have hex : ∃ g, Handler.all.find? (fun g => decide (w.entry g = w.entry f)) = some g := by
          rw [← Option.isSome_iff_exists, List.find?_isSome]
          exact ⟨f, mem_all f, by simp⟩
        obtain ⟨g, hg⟩ := hex
        have := List.find?_some hg
        rw [hg, h.inj g f (by simpa using this)]
      rw [hfind]
    exact ⟨fun _ => Or.inl ⟨f, hf⟩, fun _ => Or.inl ⟨f, hf, hcall⟩⟩
  · have hne : ∀ g : Handler, g.number ≠ w.eax c := fun g hg => hnum ⟨g, hg⟩
    cases hp : Mm.vload32 (u32 (w.syscalls + 4 * w.eax c)) w.kernel.mm with
    | error e =>
        have hsys := syscall_of_error h.current hp
        simp [Dispatched, hsys, hnum]
    | ok r =>
        obtain ⟨p, m⟩ := r
        cases Mm.readOnly_vload32 _ _ _ _ hp
        have hsys := syscall_of_vload32 h.current hp
        by_cases h0 : p = 0
        · subst h0
          refine ⟨fun _ => Or.inr rfl, fun _ => Or.inr ⟨hne, ?_⟩⟩
          rw [hsys, if_neg (by simp)]
        · rw [if_pos h0] at hsys
          constructor
          · rintro (⟨g, hg, -⟩ | ⟨-, hu⟩)
            · exact absurd hg (hne g)
            · rw [hu] at hsys
              split at hsys <;> simp at hsys
          · rintro (hex | hz)
            · exact absurd hex hnum
            · simp only [Except.ok.injEq, Prod.mk.injEq, and_true] at hz
              exact absurd hz h0

/-- The boundary in a linked kernel. `syscall` treats the number as it should if
and only if it is the number of a function or the word read for its entry is zero.
The stores of `sys_read` and of `sys_stat` are in user pages of the calling task
if the bytes that they are asked to store are, and, if the call returns, only
then. -/
theorem syscall_boundary (h : Linked w c) (fr : Frame) :
    (Dispatched w c ↔ (1 ≤ w.eax c ∧ w.eax c ≤ 11) ∨
      Mm.vload32 (u32 (w.syscalls + 4 * w.eax c)) w.kernel.mm = .ok (0, w.kernel.mm)) ∧
    (ReadTargets w.user w → Within w.user sysRead w) ∧
    (StatTargets w.user w → Within w.user (fun put => sysStat put fr) w) ∧
    (∀ r w', sysRead Mm.vstore8 w = .ok (r, w') →
      (Within w.user sysRead w ↔ ReadTargets w.user w)) ∧
    ∀ r w', sysStat Mm.vstore8 fr w = .ok (r, w') →
      (Within w.user (fun put => sysStat put fr) w ↔ StatTargets w.user w) :=
  ⟨dispatched_iff h, sysRead_within, sysStat_within,
    fun _ _ hr => ⟨readTargets_of_within hr, sysRead_within⟩,
    fun _ _ hr => ⟨statTargets_of_within hr, sysStat_within⟩⟩

end

/-- The words of a small memory. The directory at `0x1000` has a table for the user
page at address zero and one for the kernel page of `syscalls`, whose twelve words
another pointer follows. Then come the frame of the task and its stack, with the
arguments of a read of one character from the console into `syscalls`. -/
def demoWords (eax : Nat) : List (Nat × Nat) :=
  [(0x1000, 0x5007), (0x1800, 0x2007), (0x200C, 0x3003), (0x5000, 0x6007),
    (0x3004, 0x80100100), (0x3008, 0x80100200), (0x300C, 0x80100300), (0x3010, 0x80100400),
    (0x3014, 0x80100500), (0x3018, 0x80100600), (0x301C, 0x80100700), (0x3020, 0x80100800),
    (0x3024, 0x80100900), (0x3028, 0x80100A00), (0x302C, 0x80100B00), (0x3030, 0x80103000),
    (0x402C, eax), (0x4048, 0x10), (0x6014, 0), (0x6018, 0x80003000), (0x601C, 1)]

def demoMem (eax : Nat) : Memory :=
  (demoWords eax).foldl (fun m p => store32 m p.1 p.2) zeros

/-- A task with that memory and a character in the console. -/
def demo (eax : Nat) : World where
  kernel :=
    { mm := ⟨demoMem eax, 0, 0x1000, 0, 0, 0⟩
      tasks := fun _ => { Task.zero with tf := 0x80004000, pgdir := 0x80001000 }
      rootp := none
      current := some 0
      inittask := none
      nextpid := 0
      kpgdir := 0
      esp0 := 0
      trapRet := 0
      doNothing := 0 }
  files := ⟨⟨0, 0, 0, 0, 0⟩, Fs.bootCache ⟨fun _ _ => 0, 0⟩, fun _ => ⟨0, none, fun _ => 0⟩,
    fun _ => ⟨0, 0, 0, 0, 0, none⟩, fun _ _ => none⟩
  cons := ⟨fun _ => 0x61, 0, 1⟩
  syscalls := 0x80003000
  entry := fun h => 0x80100000 + 0x100 * h.number
  wild := fun _ => none

theorem demo_vload32 {eax va v : Nat} (pa : Nat) (hva : va < 4294967296 ∧ va % 4096 ≤ 4092)
    (hw : Mm.walk (demoMem eax) 0x1000 va = some pa) (hv : load32 (demoMem eax) pa = v) :
    Mm.vload32 va (demo eax).kernel.mm = .ok (v, (demo eax).kernel.mm) := by
  rw [← hv]
  exact Mm.vload32_of_walk hva.1 hva.2 hw

theorem demo_linked {eax : Nat} (heax : eax ∈ [11, 12]) : Linked (demo eax) 0 where
  current := rfl
  table := by
    have htable : ∀ eax ∈ [11, 12], ∀ h ∈ Handler.all,
        (u32 (0x80003000 + 4 * h.number) < 4294967296 ∧
          u32 (0x80003000 + 4 * h.number) % 4096 ≤ 4092) ∧
        Mm.walk (demoMem eax) 0x1000 (u32 (0x80003000 + 4 * h.number)) =
          some (0x3000 + 4 * h.number) ∧
        load32 (demoMem eax) (0x3000 + 4 * h.number) = 0x80100000 + 0x100 * h.number := by
      decide +kernel
    intro h
    obtain ⟨hva, hw, hv⟩ := htable eax heax h (mem_all h)
    exact demo_vload32 _ hva hw hv
  nonzero := fun h => Nat.ne_of_gt (Nat.lt_of_lt_of_le (by decide) (Nat.le_add_right _ _))
  inj := by
    intro h h' he
    have : h.number = h'.number := by
      simp only [demo] at he
      omega
    cases h <;> cases h' <;> first | rfl | cases this

/-- The number 11 is that of `sys_stat`, which is called. -/
theorem demo_dispatched : Linked (demo 11) 0 ∧ Dispatched (demo 11) 0 := by
  have hlinked : Linked (demo 11) 0 := demo_linked (by decide)
  have heax : (demo 11).eax 0 = 11 := by decide +kernel
  refine ⟨hlinked, ((syscall_boundary hlinked blank).1).2 (Or.inl ?_)⟩
  rw [heax]
  decide

theorem demo_argint {n v : Nat} (pa : Nat)
    (hva : u32 (0x10 + 4 + 4 * n) < 4294967296 ∧ u32 (0x10 + 4 + 4 * n) % 4096 ≤ 4092)
    (hw : Mm.walk (demoMem 12) 0x1000 (u32 (0x10 + 4 + 4 * n)) = some pa)
    (hv : load32 (demoMem 12) pa = v) : argint n (demo 12) = .ok (v, demo 12) := by
  have htask : getTask (demo 12) = .ok ((demo 12).kernel.tasks 0, demo 12) :=
    bind_eq_ok.2 ⟨0, demo 12, getCurrent_of_eq rfl, gets_eq_ok.2 ⟨rfl, rfl⟩⟩
  have hesp : load32 (demoMem 12) (Mm.v2p (0x80004000 + espAt)) = 0x10 := by decide +kernel
  have hload : onMm (Mm.kload (((demo 12).kernel.tasks 0).tf + espAt)) (demo 12) =
      .ok (0x10, demo 12) := onMm_of_ok (gets_eq_ok.2 ⟨hesp, rfl⟩)
  rw [argint, bind_of_ok htask, bind_of_ok hload]
  exact onMm_of_ok (demo_vload32 pa hva hw hv)

/-- The read of one character into the table returns. -/
theorem demo_sysRead : ∃ r w', sysRead Mm.vstore8 (demo 12) = .ok (r, w') := by
  have hfd : argint 0 (demo 12) = .ok (0, demo 12) :=
    demo_argint 0x6014 (by decide) (by decide +kernel) (by decide +kernel)
  have hp : argint 1 (demo 12) = .ok (0x80003000, demo 12) :=
    demo_argint 0x6018 (by decide) (by decide +kernel) (by decide +kernel)
  have hlen : argint 2 (demo 12) = .ok (1, demo 12) :=
    demo_argint 0x601C (by decide) (by decide +kernel) (by decide +kernel)
  have hwalk : Mm.walk (demoMem 12) 0x1000 (u32 0x80003000) = some 0x3000 := by decide +kernel
  have hzero : demoMem 12 0x3000 = 0 := by decide +kernel
  have hbyte : Mm.vload8 0x80003000 (demo 12).kernel.mm =
      .ok (demoMem 12 0x3000, (demo 12).kernel.mm) :=
    @Mm.vload8_of_walk (demo 12).kernel.mm 0x80003000 0x3000 hwalk
  have hstr : chars 4294967296 0x80003000 (demo 12).kernel.mm = .ok ([], (demo 12).kernel.mm) := by
    rw [chars, bind_of_ok hbyte, if_pos hzero]
    rfl
  have hargstr : argstr 1 (demo 12) = .ok (0x80003000, demo 12) := by
    rw [argstr, bind_of_ok hp]
    refine bind_eq_ok.2 ⟨0, demo 12, ?_, pure_eq_ok.2 ⟨rfl, rfl⟩⟩
    exact bind_eq_ok.2 ⟨[], demo 12, onMm_of_ok hstr, pure_eq_ok.2 ⟨rfl, rfl⟩⟩
  rw [sysRead, bind_of_ok hfd, bind_of_ok hargstr, bind_of_ok hlen, if_pos rfl, stdinRead,
    show (int32 1).toNat = 0 + 1 from rfl, stdinLoop]
  rcases getC_cases (demo 12) with ⟨heq, -⟩ | ⟨-, hg⟩
  · exact absurd heq (by decide)
  have hstore : ∀ b, ∃ w', onMm (Mm.vstore8 0x80003000 b)
      { demo 12 with cons := (demo 12).cons.next } = .ok ((), w') :=
    fun b => ⟨_, onMm_of_ok (@Mm.vstore8_of_walk (demo 12).kernel.mm 0x80003000 0x3000 hwalk b)⟩
  obtain ⟨w', hw'⟩ := hstore (UInt8.ofNat (word (char ((demo 12).cons.buf (demo 12).cons.rpos))))
  rw [bind_of_ok hg, if_neg (by decide)]
  exact ⟨1, w', bind_eq_ok.2 ⟨(), w', hw', pure_eq_ok.2 ⟨rfl, rfl⟩⟩⟩

/-- The number 12 is one beyond the table, and the word behind the table is called.
In the same task a read from the console stores a character into the table, which
is in no user page. -/
theorem demo_unchecked :
    Linked (demo 12) 0 ∧ (demo 12).eax 0 = 12 ∧ ¬ Dispatched (demo 12) 0 ∧
      (∃ r w', sysRead Mm.vstore8 (demo 12) = .ok (r, w')) ∧
      ¬ Within (demo 12).user sysRead (demo 12) := by
  have hlinked : Linked (demo 12) 0 := demo_linked (by decide)
  have heax : (demo 12).eax 0 = 12 := by decide +kernel
  refine ⟨hlinked, heax, fun hd => ?_, demo_sysRead, fun hwithin => ?_⟩
  · have hword : Mm.vload32 (u32 (0x80003000 + 4 * 12)) (demo 12).kernel.mm =
        .ok (0x80103000, (demo 12).kernel.mm) :=
      demo_vload32 0x3030 (by decide) (by decide +kernel) (by decide +kernel)
    rcases (dispatched_iff hlinked).1 hd with ⟨-, hle⟩ | hz
    · rw [heax] at hle
      exact absurd hle (by decide)
    · rw [heax] at hz
      cases hword.symm.trans hz
  · obtain ⟨r, w', hr⟩ := demo_sysRead
    have hU := readTargets_of_within hr hwithin 0 0x80003000 1
      (demo_argint 0x6014 (by decide) (by decide +kernel) (by decide +kernel))
      (demo_argint 0x6018 (by decide) (by decide +kernel) (by decide +kernel))
      (demo_argint 0x601C (by decide) (by decide +kernel) (by decide +kernel)) 0
      (by decide)
    obtain ⟨c, -, -, -, -, huser⟩ := hU
    have hno : ¬ Mm.userBit (load32 (demoMem 12)
        (Mm.pteAddr (load32 (demoMem 12) (Mm.v2p 0x80001000 + 4 * Mm.pdx (u32 0x80003000))) +
          4 * Mm.ptx (u32 0x80003000))) := by decide +kernel
    exact hno huser

end Syscall

end Chunix
