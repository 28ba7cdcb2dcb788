import Chunix.Exec.Basic
import Chunix.Mm.Uvm
import Chunix.Trap.Boundary

/-!
# The arguments on the new stack

The strings of `argv` are copied to the top of the stack page from high to low
addresses, each at a multiple of four, and below them lies the frame that `_start`
hands to `libmain`: the number of arguments, a pointer to the vector, the vector and
a null pointer. All of this is written to the stack of the caller.
-/

namespace Chunix

namespace Exec

open Machine Kernel Syscall

/-- The memory with the bytes `bs` at the address `a`. -/
def putList (mem : Memory) (a : Nat) (bs : List UInt8) : Memory := fun x =>
  if a ≤ x ∧ x < a + bs.length then bs.getD (x - a) 0 else mem x

section

variable {mem : Memory} {a x : Nat} {b : UInt8} {bs : List UInt8}

theorem putList_of_mem (h : a ≤ x) (h' : x < a + bs.length) :
    putList mem a bs x = bs.getD (x - a) 0 := if_pos ⟨h, h'⟩

theorem putList_of_notMem (h : x < a ∨ a + bs.length ≤ x) : putList mem a bs x = mem x :=
  if_neg (by omega)

theorem putList_nil (mem : Memory) (a : Nat) : putList mem a [] = mem := by
  funext x
  exact putList_of_notMem (by simp; omega)

theorem putList_cons (mem : Memory) (a : Nat) (b : UInt8) (bs : List UInt8) :
    putList (Function.update mem a b) (a + 1) bs = putList mem a (b :: bs) := by
  funext x
  by_cases hx : x < a ∨ a + (bs.length + 1) ≤ x
  · rw [putList_of_notMem (by omega), putList_of_notMem (by simpa using hx),
      Function.update_of_ne (by omega)]
  by_cases hxa : x = a
  · subst hxa
    rw [putList_of_notMem (by omega), Function.update_self,
      putList_of_mem (Nat.le_refl _) (by simp)]
    simp
  · rw [putList_of_mem (by omega) (by omega), putList_of_mem (by omega) (by simp; omega)]
    obtain ⟨i, hi⟩ : ∃ i, x - a = i + 1 := ⟨x - a - 1, by omega⟩
    rw [hi, List.getD_cons_succ]
    congr 1
    omega

theorem putList_snoc (mem : Memory) (a : Nat) (b : UInt8) (bs : List UInt8) :
    putList (Function.update mem (a + bs.length) b) a bs = putList mem a (bs ++ [b]) := by
  funext x
  by_cases hx : a ≤ x ∧ x < a + bs.length
  · rw [putList_of_mem hx.1 hx.2, putList_of_mem hx.1 (by simp; omega),
      List.getD_append _ _ _ _ (by omega)]
  by_cases hxa : x = a + bs.length
  · subst hxa
    rw [putList_of_notMem (by omega), Function.update_self, putList_of_mem (by omega) (by simp),
      List.getD_append_right _ _ _ _ (by omega)]
    simp
  · rw [putList_of_notMem (by omega), putList_of_notMem (by simp; omega),
      Function.update_of_ne hxa]

end

section

variable {m m' : Mm} {dst q n i : Nat} {src : Nat → Act Mm UInt8} {bs bs' : List UInt8}

theorem putUp_spec (hsrc : ∀ j, Act.ReadOnly (src j))
    (hdst : ∀ j, j < i + n → Mm.v2p (dst + j) = q + j)
    (h : putUp dst src n i m = .ok (bs, m')) :
    bs.length = n ∧ m' = { m with mem := putList m.mem (q + i) bs } := by
  induction n generalizing i bs m with
  | zero =>
      obtain ⟨rfl, rfl⟩ := Act.pure_eq_ok.1 h
      exact ⟨rfl, by rw [putList_nil]⟩
  | succ n ih =>
      simp only [putUp, Act.bind_eq_ok, Act.pure_eq_ok] at h
      obtain ⟨b, m₁, hb, _, m₂, hput, bs', m₃, hbs, rfl, rfl⟩ := h
      cases hsrc i _ _ _ hb
      have hm₂ := Act.modify_eq_ok.1 hput
      rw [hdst i (by omega)] at hm₂
      obtain ⟨hlen, hm₃⟩ := ih (fun j hj => hdst j (by omega)) hbs
      refine ⟨by rw [List.length_cons, hlen], ?_⟩
      rw [hm₃, ← hm₂, Nat.add_assoc q i 1 |>.symm, putList_cons]

theorem putDown_spec (hsrc : ∀ j, Act.ReadOnly (src j)) (hdst : ∀ j, j < n → Mm.v2p (dst + j) = q + j)
    (h : putDown dst src n bs m = .ok (bs', m')) :
    ∃ new, bs' = new ++ bs ∧ new.length = n ∧ m' = { m with mem := putList m.mem q new } := by
  induction n generalizing bs m with
  | zero =>
      obtain ⟨rfl, rfl⟩ := Act.pure_eq_ok.1 h
      exact ⟨[], rfl, rfl, by rw [putList_nil]⟩
  | succ n ih =>
      simp only [putDown, Act.bind_eq_ok] at h
      obtain ⟨b, m₁, hb, _, m₂, hput, hbs⟩ := h
      cases hsrc n _ _ _ hb
      have hm₂ := Act.modify_eq_ok.1 hput
      rw [hdst n (by omega)] at hm₂
      obtain ⟨new, rfl, hlen, hm₃⟩ := ih (fun j hj => hdst j (by omega)) hbs
      refine ⟨new ++ [b], by simp, by simp [hlen], ?_⟩
      rw [hm₃, ← hm₂, ← hlen, putList_snoc]

/-- What `memmove` to a kernel pointer does. -/
theorem memmoveOut_spec {p off : Nat} (hdst : ∀ j, j < n → Mm.v2p (dst + j) = q + j)
    (h : memmoveOut p dst off n m = .ok (bs, m')) :
    bs.length = n ∧ m' = { m with mem := putList m.mem q bs } := by
  rw [memmoveOut] at h
  split at h
  · obtain ⟨new, rfl, hlen, hm⟩ := putDown_spec (fun j => Mm.readOnly_vload8 _) hdst h
    rw [List.append_nil]
    exact ⟨hlen, hm⟩
  · exact putUp_spec (i := 0) (fun j => Mm.readOnly_vload8 _) (by simpa using hdst) h

end

/-- A way to move bytes that returns as many as it was asked for. -/
def Counts (move : Nat → Nat → Nat → Act Mm (List UInt8)) : Prop :=
  ∀ dst off n m bs m', move dst off n m = .ok (bs, m') → bs.length = n

theorem putUp_length {m m' : Mm} {dst n i : Nat} {src : Nat → Act Mm UInt8} {bs : List UInt8}
    (h : putUp dst src n i m = .ok (bs, m')) : bs.length = n := by
  induction n generalizing i bs m m' with
  | zero =>
      obtain ⟨rfl, -⟩ := Act.pure_eq_ok.1 h
      rfl
  | succ n ih =>
      simp only [putUp, Act.bind_eq_ok, Act.pure_eq_ok] at h
      obtain ⟨b, _, -, _, _, -, bs', _, hbs, rfl, -⟩ := h
      rw [List.length_cons, ih hbs]

theorem putDown_length {m m' : Mm} {dst n : Nat} {src : Nat → Act Mm UInt8} {bs bs' : List UInt8}
    (h : putDown dst src n bs m = .ok (bs', m')) : bs'.length = n + bs.length := by
  induction n generalizing bs m with
  | zero =>
      obtain ⟨rfl, -⟩ := Act.pure_eq_ok.1 h
      rw [Nat.zero_add]
  | succ n ih =>
      simp only [putDown, Act.bind_eq_ok] at h
      obtain ⟨b, _, -, _, _, -, hbs⟩ := h
      rw [ih hbs, List.length_cons]
      omega

theorem counts_memmoveOut (p : Nat) : Counts (memmoveOut p) := by
  intro dst off n m bs m' h
  rw [memmoveOut] at h
  split at h
  · exact putDown_length h
  · exact putUp_length h

theorem counts_putWords (ws : List Nat) : Counts (putWords ws) :=
  fun _ _ _ _ _ _ h => putUp_length h

section

variable {s : Mm.Space} {m m' : Mm} {va len : Nat} {move : Nat → Nat → Nat → Act Mm (List UInt8)}
  {r : Int × List UInt8}

/-- A `copyout` that does not fail moves all bytes. -/
theorem copyoutLoop_length {pgdir fuel off : Nat} (hmove : Counts move)
    (h : copyoutLoop pgdir move fuel va off len m = .ok (r, m')) :
    (r.1 = 0 ∧ r.2.length = len) ∨ r.1 = -1 := by
  induction fuel generalizing va off len m m' r with
  | zero => cases h
  | succ fuel ih =>
      rw [copyoutLoop] at h
      split at h
      · simp only [Act.bind_eq_ok] at h
        obtain ⟨pa, m₁, -, h⟩ := h
        rcases Act.ite_eq_ok.1 h with ⟨-, h⟩ | ⟨-, h⟩
        · obtain ⟨rfl, -⟩ := Act.pure_eq_ok.1 h
          exact Or.inr rfl
        · simp only [Act.bind_eq_ok, Act.pure_eq_ok] at h
          obtain ⟨bs, m₂, hbs, r', m₃, hr, rfl, -⟩ := h
          rcases ih hr with ⟨h0, hlen⟩ | hneg
          · refine Or.inl ⟨h0, ?_⟩
            have := hmove _ _ _ _ _ _ hbs
            rw [List.length_append, hlen, this]
            omega
          · exact Or.inr hneg
      · obtain ⟨rfl, -⟩ := Act.pure_eq_ok.1 h
        exact Or.inl ⟨rfl, by simp; omega⟩

/-- `uva2ka` where there is a page table. -/
theorem uva2ka_eq {t : Nat} (va : Nat) (hs : s.At m.mem) (hva : va < 4294967296)
    (ht : s.tab (va / 4096 / 1024) = some t) :
    Mm.uva2ka (Mm.p2v s.dir) va m = .ok (if Mm.present (s.entry m.mem (va / 4096)) ∧
      Mm.userBit (s.entry m.mem (va / 4096)) then
        Mm.p2v (Mm.pteAddr (s.entry m.mem (va / 4096))) else 0, m) := by
  obtain ⟨-, hframe, -⟩ := hs.tab _ t ht
  obtain ⟨hne, hptr⟩ := Mm.entry_pointer (n := va / 4096) hframe
  have hw := @Mm.pgdirWalk_of_some s m _ t false hs (by omega) ht
  rw [← Mm.pgdirWalk_page] at hw
  have hload : Mm.kload (u32 (Mm.p2v t + 4 * (va / 4096 % 1024))) m =
      .ok (s.entry m.mem (va / 4096), m) :=
    Act.gets_eq_ok.2 ⟨by rw [hptr, Mm.Space.entry_of_some ht], rfl⟩
  rw [Mm.uva2ka, Act.bind_of_ok hw, if_neg hne, Act.bind_of_ok hload]
  beta_reduce
  by_cases hp : Mm.present (s.entry m.mem (va / 4096))
  · by_cases hu : Mm.userBit (s.entry m.mem (va / 4096))
    · rw [if_neg (not_not.2 hp), if_neg (not_not.2 hu), if_pos ⟨hp, hu⟩]
      rfl
    · rw [if_neg (not_not.2 hp), if_pos hu, if_neg fun hh => hu hh.2]
      rfl
  · rw [if_pos hp, if_neg fun hh => hp hh.1]
    rfl

/-- A way to move bytes that writes what it returns to the destination. -/
def Writes (move : Nat → Nat → Nat → Act Mm (List UInt8)) : Prop :=
  ∀ dst off n q m bs m', move dst off n m = .ok (bs, m') →
    (∀ j, j < n → Mm.v2p (dst + j) = q + j) → m' = { m with mem := putList m.mem q bs }

theorem writes_memmoveOut (p : Nat) : Writes (memmoveOut p) :=
  fun _ _ _ _ _ _ _ h hdst => (memmoveOut_spec hdst h).2

theorem writes_putWords (ws : List Nat) : Writes (putWords ws) :=
  fun _ _ _ _ _ _ _ h hdst =>
    (putUp_spec (i := 0) (fun _ => Act.readOnly_pure _) (by simpa using hdst) h).2

/-- A `copyout` to one page writes to the page frame `f`. -/
theorem copyout_page {t f : Nat} (hs : s.At m.mem) (hva : va < 4294967296)
    (ht : s.tab (va / 4096 / 1024) = some t) (hf : Mm.pteAddr (s.entry m.mem (va / 4096)) = f)
    (hin : va % 4096 + len ≤ 4096) (hcount : Counts move) (hmove : Writes move)
    (h : copyout (Mm.p2v s.dir) va move len m = .ok (r, m')) (h0 : ¬ r.1 < 0) :
    r.2.length = len ∧ m' = { m with mem := putList m.mem (f + va % 4096) r.2 } ∧
      (0 < len → move (Mm.p2v f + va % 4096) 0 len m = .ok (r.2, m')) := by
  have hlength : r.2.length = len := by
    rcases copyoutLoop_length hcount h with ⟨-, hlen⟩ | hneg
    · exact hlen
    · omega
  refine ⟨hlength, ?_⟩
  have hflt : f + 4096 ≤ 4294967296 := by
    have := s.entry_lt m.mem (va / 4096)
    rw [← hf]
    unfold Mm.pteAddr
    omega
  have hva0 : Mm.pgRoundDown va = 4096 * (va / 4096) := by
    unfold Mm.pgRoundDown
    omega
  have hdiv : Mm.pgRoundDown va / 4096 = va / 4096 := by omega
  have hka := uva2ka_eq (Mm.pgRoundDown va) hs (by omega) (by rw [hdiv]; exact ht)
  rw [hdiv] at hka
  rw [copyout, copyoutLoop] at h
  rcases Act.ite_eq_ok.1 h with ⟨hpos, h⟩ | ⟨hpos, h⟩
  · have hfail : ∀ m₁, (pure (-1, []) : Act Mm (Int × List UInt8)) m₁ = .ok (r, m') → False := by
      intro m₁ hret
      rw [← (Act.pure_eq_ok.1 hret).1] at h0
      exact h0 (by decide)
    by_cases hpu : Mm.present (s.entry m.mem (va / 4096)) ∧ Mm.userBit (s.entry m.mem (va / 4096))
    · rw [if_pos hpu, hf] at hka
      rw [Act.bind_of_ok hka] at h
      rcases Act.ite_eq_ok.1 h with ⟨-, h⟩ | ⟨-, h⟩
      · exact (hfail _ h).elim
      rw [show va - Mm.pgRoundDown va = va % 4096 by omega,
        show min (4096 - va % 4096) len = len by omega, Nat.sub_self] at h
      simp only [Act.bind_eq_ok] at h
      obtain ⟨bs, m₁, hbs, r', m₂, hr', hret⟩ := h
      rw [copyoutLoop, if_neg (by omega)] at hr'
      obtain ⟨rfl, rfl⟩ := Act.pure_eq_ok.1 hr'
      obtain ⟨rfl, rfl⟩ := Act.pure_eq_ok.1 hret
      rw [List.append_nil]
      refine ⟨hmove _ _ _ _ _ _ _ hbs fun j hj => ?_, fun _ => hbs⟩
      rw [Nat.add_assoc, Mm.v2p_p2v_add (by omega), Nat.add_assoc]
    · rw [if_neg hpu] at hka
      rw [Act.bind_of_ok hka, if_pos rfl] at h
      exact (hfail _ h).elim
  · obtain ⟨rfl, rfl⟩ := Act.pure_eq_ok.1 h
    rw [putList_nil]
    exact ⟨rfl, fun hlen => absurd hlen hpos⟩

theorem readOnly_strlen (p : Nat) : Act.ReadOnly (strlen p) :=
  (readOnly_chars _ _).bind fun _ => Act.readOnly_pure _

end

/-- The size of a string on the stack. -/
def roundUp4 (n : Nat) : Nat := (n + 3) / 4 * 4

/-- The size of all strings on the stack. -/
def argBytes (strings : List (List UInt8)) : Nat :=
  (strings.map fun bs => roundUp4 bs.length).sum

/-- The addresses of the strings that are put on the stack from `sp` downwards. -/
def places (sp : Nat) : List (List UInt8) → List Nat
  | [] => []
  | bs :: strings => (sp - roundUp4 bs.length) :: places (sp - roundUp4 bs.length) strings

/-- The memory when the strings have been put on the stack, whose page frame is `f`. -/
def pushMem (f : Nat) (mem : Memory) (sp : Nat) : List (List UInt8) → Memory
  | [] => mem
  | bs :: strings =>
      pushMem f (putList mem (f + (sp - roundUp4 bs.length) % 4096) bs) (sp - roundUp4 bs.length)
        strings

/-- The strings and the frame below them fit into the page of the stack. -/
def Fits (strings : List (List UInt8)) : Prop :=
  argBytes strings + 4 * (strings.length + 3) ≤ 4096

section

variable {s : Mm.Space} {m m' : Mm} {f t sp : Nat} {bs : List UInt8}
  {strings : List (List UInt8)}

theorem argBytes_cons : argBytes (bs :: strings) = roundUp4 bs.length + argBytes strings := by
  simp [argBytes]

theorem le_roundUp4 (n : Nat) : n ≤ roundUp4 n ∧ roundUp4 n % 4 = 0 := by
  unfold roundUp4
  omega

theorem argBytes_mod (strings : List (List UInt8)) : argBytes strings % 4 = 0 := by
  induction strings with
  | nil => rfl
  | cons bs strings ih =>
      have := (le_roundUp4 bs.length).2
      rw [argBytes_cons]
      omega

/-- A write into the page frame `f`. -/
theorem agreeOff_putList {mem : Memory} {x : Nat} (hx : x + bs.length ≤ 4096) :
    Mm.AgreeOff (fun p => p = f) mem (putList mem (f + x) bs) := by
  intro a ha
  have := ha f rfl
  unfold Mm.InPage at this
  exact putList_of_notMem (by omega)

/-- The loop over `argv`, when the strings fit into the page. -/
theorem pushArgs_spec {argv : List Nat} {argc : Nat} {a : Pushed} (hs : s.At m.mem)
    (ht : s.tab 511 = some t) (hf : Mm.pteAddr (s.entry m.mem 524287) = f) (hframe : Mm.IsFrame f)
    (hoff : ¬ s.Has f) (hsp : sp ≤ 2147483648) (hal : sp % 4 = 0)
    (h : pushArgs (Mm.p2v s.dir) argv argc sp m = .ok (some a, m'))
    (hfit : 2147479552 + argBytes a.strings ≤ sp) :
    a.sp = sp - argBytes a.strings ∧ a.ptrs = places sp a.strings ∧
      a.strings.length = argv.length ∧ (∀ bs ∈ a.strings, 0 < bs.length) ∧
      m' = { m with mem := pushMem f m.mem sp a.strings } := by
  induction argv generalizing m argc sp a with
  | nil =>
      obtain ⟨ha, rfl⟩ := Act.pure_eq_ok.1 h
      cases ha
      exact ⟨rfl, rfl, rfl, by simp, rfl⟩
  | cons p argv ih =>
      rw [pushArgs] at h
      rcases Act.ite_eq_ok.1 h with ⟨-, h⟩ | ⟨-, h⟩
      · cases (Act.pure_eq_ok.1 h).1
      simp only [Act.bind_eq_ok] at h
      obtain ⟨n, m₁, hn, n', m₂, hn', r, m₃, hr, h⟩ := h
      cases readOnly_strlen p _ _ _ hn
      cases readOnly_strlen p _ _ _ hn'
      cases hn.symm.trans hn'
      rcases Act.ite_eq_ok.1 h with ⟨-, h⟩ | ⟨hr0, h⟩
      · cases (Act.pure_eq_ok.1 h).1
      obtain ⟨o, m₄, ho, h⟩ := Act.bind_eq_ok.1 h
      cases o with
      | none => cases (Act.pure_eq_ok.1 h).1
      | some b =>
          obtain ⟨ha, rfl⟩ := Act.pure_eq_ok.1 h
          cases ha
          have hlen : r.2.length = n + 1 := by
            rcases copyoutLoop_length (counts_memmoveOut p) hr with ⟨-, hlen⟩ | hneg
            · exact hlen
            · omega
          rw [argBytes_cons] at hfit
          obtain ⟨hle, hmod⟩ := le_roundUp4 r.2.length
          have hsp' : u32 (sp + 4294967296 - (n + 1)) / 4 * 4 = sp - roundUp4 r.2.length := by
            rw [← hlen]
            unfold roundUp4 at hfit ⊢
            unfold u32
            omega
          rw [hsp'] at hr ho
          have hdiv : (sp - roundUp4 r.2.length) / 4096 = 524287 := by omega
          obtain ⟨-, hm₃, -⟩ := copyout_page (f := f) hs (by omega) (by rw [hdiv]; exact ht)
            (by rw [hdiv]; exact hf) (by omega) (counts_memmoveOut p) (writes_memmoveOut p) hr hr0
          have hagree : Mm.AgreeOff (fun q => q = f) m.mem m₃.mem := by
            rw [hm₃]
            exact agreeOff_putList (by omega)
          obtain ⟨hs₃, hentry⟩ := hs.agree hagree (fun q hq => hq ▸ hframe) fun q hq => hq ▸ hoff
          obtain ⟨h₁, h₂, h₃, h₄, h₅⟩ := ih hs₃ (by rw [hentry]; exact hf) (by omega) (by omega) ho
            (by omega)
          refine ⟨by rw [h₁, argBytes_cons]; omega, ?_, by simp [h₃], ?_, ?_⟩
          · rw [h₂, hsp']
            rfl
          · intro bs hbs
            rcases List.mem_cons.1 hbs with rfl | hbs
            · omega
            · exact h₄ bs hbs
          · rw [h₅, hm₃]
            rfl

theorem length_places (sp : Nat) (strings : List (List UInt8)) :
    (places sp strings).length = strings.length := by
  induction strings generalizing sp with
  | nil => rfl
  | cons bs strings ih => rw [places, List.length_cons, ih, List.length_cons]

/-- Every string lies between the last one and the start. -/
theorem places_bounds {q : Nat × List UInt8} (hsp : argBytes strings ≤ sp) (hal : sp % 4 = 0)
    (hq : q ∈ (places sp strings).zip strings) :
    sp - argBytes strings ≤ q.1 ∧ q.1 + q.2.length ≤ sp ∧ q.1 % 4 = 0 := by
  induction strings generalizing sp with
  | nil => cases hq
  | cons bs strings ih =>
      rw [argBytes_cons] at hsp ⊢
      obtain ⟨hle, hmod⟩ := le_roundUp4 bs.length
      rw [places, List.zip_cons_cons] at hq
      rcases List.mem_cons.1 hq with rfl | hq
      · dsimp only
        omega
      · obtain ⟨h₁, h₂, h₃⟩ := ih (by omega) (by omega) hq
        omega

/-- The strings do not overlap. -/
theorem places_pairwise (hsp : argBytes strings ≤ sp) (hal : sp % 4 = 0) :
    ((places sp strings).zip strings).Pairwise fun q q' => q'.1 + q'.2.length ≤ q.1 := by
  induction strings generalizing sp with
  | nil => exact List.Pairwise.nil
  | cons bs strings ih =>
      rw [argBytes_cons] at hsp
      obtain ⟨hle, hmod⟩ := le_roundUp4 bs.length
      rw [places, List.zip_cons_cons]
      refine List.Pairwise.cons (fun q hq => ?_) (ih (by omega) (by omega))
      exact (places_bounds (by omega) (by omega) hq).2.1

/-- Nothing is written at or above `sp`. -/
theorem pushMem_above {mem : Memory} {x : Nat} (hsp : sp ≤ 2147483648)
    (hfit : 2147479552 + argBytes strings ≤ sp) (hpos : ∀ bs ∈ strings, 0 < bs.length)
    (hx : f + (sp - 2147479552) ≤ x) : pushMem f mem sp strings x = mem x := by
  induction strings generalizing sp mem with
  | nil => rfl
  | cons bs strings ih =>
      rw [argBytes_cons] at hfit
      obtain ⟨hle, -⟩ := le_roundUp4 bs.length
      have hbs := hpos bs List.mem_cons_self
      have hpos' : ∀ b ∈ strings, 0 < b.length := fun b hb => hpos b (List.mem_cons_of_mem _ hb)
      have hx' : f + (sp - roundUp4 bs.length - 2147479552) ≤ x :=
        Nat.le_trans (Nat.add_le_add_left (Nat.sub_le_sub_right (Nat.sub_le _ _) _) _) hx
      rw [pushMem, ih (by omega) (by omega) hpos' hx']
      exact putList_of_notMem (by omega)

theorem agreeOff_pushMem {mem : Memory} (hsp : sp ≤ 2147483648)
    (hfit : 2147479552 + argBytes strings ≤ sp) (hpos : ∀ bs ∈ strings, 0 < bs.length) :
    Mm.AgreeOff (fun p => p = f) mem (pushMem f mem sp strings) := by
  induction strings generalizing sp mem with
  | nil => exact fun _ _ => rfl
  | cons bs strings ih =>
      rw [argBytes_cons] at hfit
      obtain ⟨hle, -⟩ := le_roundUp4 bs.length
      have hbs := hpos bs List.mem_cons_self
      have hpos' : ∀ b ∈ strings, 0 < b.length := fun b hb => hpos b (List.mem_cons_of_mem _ hb)
      have hput : Mm.AgreeOff (fun p => p = f) mem
          (putList mem (f + (sp - roundUp4 bs.length) % 4096) bs) := agreeOff_putList (by omega)
      exact hput.trans (ih (by omega) (by omega) hpos') (fun _ hp => hp) fun _ hp => hp

/-- Every string is on the stack when all of them have been put there. -/
theorem pushMem_read {mem : Memory} {q : Nat × List UInt8} {j : Nat} (hsp : sp ≤ 2147483648)
    (hfit : 2147479552 + argBytes strings ≤ sp) (hpos : ∀ bs ∈ strings, 0 < bs.length)
    (hq : q ∈ (places sp strings).zip strings) (hj : j < q.2.length) :
    pushMem f mem sp strings (f + q.1 % 4096 + j) = q.2.getD j 0 := by
  induction strings generalizing sp mem with
  | nil => cases hq
  | cons bs strings ih =>
      rw [argBytes_cons] at hfit
      obtain ⟨hle, -⟩ := le_roundUp4 bs.length
      have hbs := hpos bs List.mem_cons_self
      have hpos' : ∀ b ∈ strings, 0 < b.length := fun b hb => hpos b (List.mem_cons_of_mem _ hb)
      rw [places, List.zip_cons_cons] at hq
      rw [pushMem]
      rcases List.mem_cons.1 hq with rfl | hq
      · -- the strings that follow are put below this one
        dsimp only at hj ⊢
        rw [pushMem_above (by omega) (by omega) hpos' (by omega),
          putList_of_mem (Nat.le_add_right _ _) (by omega), Nat.add_sub_cancel_left]
      · exact ih (by omega) (by omega) hpos' hq

/-- The bytes of an array of words. -/
theorem putUp_pure {dst n i j : Nat} {g : Nat → UInt8}
    (h : putUp dst (fun i => pure (g i)) n i m = .ok (bs, m')) (hj : j < n) :
    bs.getD j 0 = g (i + j) := by
  induction n generalizing i j bs m m' with
  | zero => omega
  | succ n ih =>
      simp only [putUp, Act.bind_eq_ok, Act.pure_eq_ok] at h
      obtain ⟨b, m₁, ⟨rfl, rfl⟩, _, m₂, -, bs', m₃, hbs, rfl, -⟩ := h
      cases j with
      | zero => rfl
      | succ j =>
          rw [List.getD_cons_succ, ih hbs (by omega)]
          congr 1
          omega

/-- A word of which the memory has the bytes. -/
theorem load32_of_bytes {mem : Memory} {x w : Nat} (hx : x + 4 ≤ 4294967296) (hw : w < 4294967296)
    (h : ∀ j, j < 4 → mem (x + j) = UInt8.ofNat (w / 256 ^ j)) : load32 mem x = w := by
  have h0 := h 0 (by decide)
  have h1 := h 1 (by decide)
  have h2 := h 2 (by decide)
  have h3 := h 3 (by decide)
  rw [load32, u32_eq_self (by omega), u32_eq_self (by omega), u32_eq_self (by omega),
    u32_eq_self (by omega), h1, h2, h3, ← Nat.add_zero x, h0]
  simp only [UInt8.toNat_ofNat']
  omega

/-- The page frame `f` holds the frame of the program at `esp` and the strings. -/
structure Image (f : Nat) (mem : Memory) (esp : Nat) (strings : List (List UInt8)) : Prop where
  words : ∀ i w, (strings.length :: (esp + 8) :: places 2147483648 strings ++ [0])[i]? = some w →
    load32 mem (f + esp % 4096 + 4 * i) = w
  bytes : ∀ q ∈ (places 2147483648 strings).zip strings, ∀ j, j < q.2.length →
    mem (f + q.1 % 4096 + j) = q.2.getD j 0

theorem lt_of_ustack {i w a b sp : Nat}
    (h : (a :: b :: places sp strings ++ [0])[i]? = some w) : i < strings.length + 3 := by
  obtain ⟨hlt, -⟩ := List.getElem?_eq_some_iff.1 h
  rw [List.length_append, List.length_cons, List.length_cons, length_places,
    List.length_singleton] at hlt
  omega

/-- The words of the frame. -/
theorem ustack_lt {i w esp : Nat} (hfit : argBytes strings ≤ 4096) (hesp : esp + 8 < 4294967296)
    (hlen : strings.length < 4294967296)
    (h : (strings.length :: (esp + 8) :: places 2147483648 strings ++ [0])[i]? = some w) :
    w < 4294967296 := by
  have hw := List.mem_of_getElem? h
  simp only [List.cons_append, List.mem_cons, List.mem_append, List.not_mem_nil, or_false] at hw
  rcases hw with rfl | rfl | hw | rfl
  · exact hlen
  · exact hesp
  · obtain ⟨j, hj⟩ := List.mem_iff_getElem?.1 hw
    obtain ⟨hj', -⟩ := List.getElem?_eq_some_iff.1 hj
    rw [length_places] at hj'
    have hq : (w, strings[j]) ∈ (places 2147483648 strings).zip strings :=
      List.mem_of_getElem? (i := j) (by simp [List.getElem?_zip_eq_some, hj, hj'])
    have := (places_bounds (by omega) (by decide) hq).2.1
    omega
  · decide

/-- The stack pointer of the new program. -/
def espOf (strings : List (List UInt8)) : Nat :=
  2147483648 - argBytes strings - 4 * (strings.length + 3)

/-- The arguments on the stack, when they fit into the page. -/
theorem setupStack_spec {argv : List Nat} {esp : Nat} (hs : s.At m.mem) (ht : s.tab 511 = some t)
    (hf : Mm.pteAddr (s.entry m.mem 524287) = f) (hframe : Mm.IsFrame f) (hoff : ¬ s.Has f)
    (h : setupStack (Mm.p2v s.dir) argv m = .ok (some (esp, strings), m')) (hfit : Fits strings) :
    esp = espOf strings ∧ strings.length = argv.length ∧ Image f m'.mem esp strings ∧
      Mm.AgreeOff (fun p => p = f) m.mem m'.mem ∧ m' = { m with mem := m'.mem } := by
  unfold Fits at hfit
  rw [setupStack] at h
  obtain ⟨o, m₁, ho, h⟩ := Act.bind_eq_ok.1 h
  cases o with
  | none => cases (Act.pure_eq_ok.1 h).1
  | some a =>
      obtain ⟨r, m₂, hr, h⟩ := Act.bind_eq_ok.1 h
      rcases Act.ite_eq_ok.1 h with ⟨-, h⟩ | ⟨hr0, h⟩
      · cases (Act.pure_eq_ok.1 h).1
      obtain ⟨hret, rfl⟩ := Act.pure_eq_ok.1 h
      cases hret
      have hle : argBytes a.strings ≤ 4096 := by omega
      have htop : Mm.ustacktop = 2147483648 := rfl
      rw [htop] at ho
      obtain ⟨h₁, h₂, h₃, h₄, h₅⟩ := pushArgs_spec hs ht hf hframe hoff (by omega) (by omega) ho
        (by omega)
      have hmod : argBytes a.strings % 4 = 0 := argBytes_mod a.strings
      have hesp : u32 (a.sp + 4294967296 - (2 + argv.length + 1) * 4) = espOf a.strings := by
        rw [h₁, espOf, h₃]
        unfold u32
        omega
      have hvec : u32 (a.sp + 4294967296 - (argv.length + 1) * 4) = espOf a.strings + 8 := by
        rw [h₁, espOf, h₃]
        unfold u32
        omega
      rw [hesp, hvec] at hr
      rw [hesp]
      have hbound : espOf a.strings + 4 * (a.strings.length + 3) + argBytes a.strings = 2147483648 ∧
          2147479552 ≤ espOf a.strings := by
        unfold espOf
        omega
      have hagree₁ : Mm.AgreeOff (fun p => p = f) m.mem m₁.mem := by
        rw [h₅]
        exact agreeOff_pushMem (by omega) (by omega) h₄
      obtain ⟨hs₁, hentry⟩ := hs.agree hagree₁ (fun q hq => hq ▸ hframe) fun q hq => hq ▸ hoff
      have hdiv : espOf a.strings / 4096 = 524287 := by omega
      obtain ⟨hlen, hm₂, hmove⟩ := copyout_page (f := f) hs₁ (by omega) (by rw [hdiv]; exact ht)
        (by rw [hdiv, hentry]; exact hf) (by omega) (counts_putWords _) (writes_putWords _) hr hr0
      have hdst := hmove (by omega)
      have hagree₂ : Mm.AgreeOff (fun p => p = f) m₁.mem m₂.mem := by
        rw [hm₂]
        exact agreeOff_putList (by omega)
      have hfle := hframe.le
      have hmem₁ : m₁.mem = pushMem f m.mem 2147483648 a.strings := by rw [h₅]
      have hmem₂ : m₂.mem = putList m₁.mem (f + espOf a.strings % 4096) r.2 := by rw [hm₂]
      refine ⟨rfl, h₃, ⟨fun i w hi => ?_, fun q hq j hj => ?_⟩,
        hagree₁.trans hagree₂ (fun _ hp => hp) fun _ hp => hp, by rw [hm₂, h₅]⟩
      · have hi' : i < a.strings.length + 3 := lt_of_ustack hi
        refine load32_of_bytes (by omega) (ustack_lt (by omega) (by omega) (by omega) hi) fun j hj => ?_
        rw [hmem₂, putList_of_mem (by omega) (by omega), Nat.add_assoc (f + _), Nat.add_sub_cancel_left,
          putUp_pure hdst (by omega)]
        rw [byteOf, h₂, ← h₃, Nat.zero_add, Nat.zero_add, show (4 * i + j) / 4 = i by omega,
          show (4 * i + j) % 4 = j by omega, List.getD_eq_getElem?_getD, hi, Option.getD_some]
      · obtain ⟨hq₁, hq₂, -⟩ := places_bounds (by omega) (by omega) hq
        rw [hmem₂, putList_of_notMem (by omega), hmem₁]
        exact pushMem_read (by omega) (by omega) h₄ hq hj

end

end Exec

end Chunix
