import Chunix.Exec.Stack

/-!
# Copies into another address space

`copyout` cuts its source at the page boundaries of the target and writes every piece
through the kernel's pointer to the page frame. When the frames are different for
different pages, hold neither page tables nor the source, every byte of the target
becomes the byte of the source and no other byte of the memory changes.
-/

namespace Chunix

namespace Exec

open Machine Mm

section

variable {P : Mm → Prop} {b : Nat → UInt8} {m : Mm} {dst n i N : Nat} {src : Nat → Act Mm UInt8}
  {bs : List UInt8} (hsrc : ∀ m, P m → ∀ j, j < N → src j m = .ok (b j, m))
  (hput : ∀ m, P m → ∀ j, j < N → ∀ x,
    P { m with mem := Function.update m.mem (v2p (dst + j)) x })

include hsrc hput

/-- The bytes of a move that its own writes do not disturb. -/
theorem putUp_ok (hin : i + n ≤ N) (hm : P m) :
    ∃ m', putUp dst src n i m = .ok ((List.range n).map fun j => b (i + j), m') := by
  induction n generalizing i m with
  | zero => exact ⟨m, rfl⟩
  | succ n ih =>
      obtain ⟨m', hm'⟩ := ih (i := i + 1) (by omega) (hput m hm i (by omega) (b i))
      refine ⟨m', ?_⟩
      rw [putUp, Act.bind_of_ok (hsrc m hm i (by omega))]
      refine Act.bind_eq_ok.2 ⟨(), _, rfl, Act.bind_eq_ok.2 ⟨_, m', hm', ?_⟩⟩
      refine Act.pure_eq_ok.2 ⟨?_, rfl⟩
      rw [List.range_succ_eq_map, List.map_cons, List.map_map, Nat.add_zero]
      congr 1
      refine List.map_congr_left fun j _ => ?_
      simp only [Function.comp_apply]
      congr 1
      omega

theorem putDown_ok (hin : n ≤ N) (hm : P m) :
    ∃ m', putDown dst src n bs m = .ok ((List.range n).map b ++ bs, m') := by
  induction n generalizing m bs with
  | zero => exact ⟨m, rfl⟩
  | succ n ih =>
      have hrest : ∃ m', putDown dst src n (b n :: bs)
          { m with mem := Function.update m.mem (v2p (dst + n)) (b n) } =
            .ok ((List.range n).map b ++ b n :: bs, m') :=
        ih (by omega) (hput m hm n (by omega) (b n))
      obtain ⟨m', hm'⟩ := hrest
      refine ⟨m', ?_⟩
      rw [putDown, Act.bind_of_ok (hsrc m hm n (by omega))]
      refine Act.bind_eq_ok.2 ⟨(), _, rfl, ?_⟩
      rw [hm', List.range_succ, List.map_append, List.append_assoc]
      rfl

end

/-- The page frame of the byte `k` of a range, and its physical address. -/
def frameOf (s : Space) (mem : Memory) (va k : Nat) : Nat := pteAddr (s.entry mem ((va + k) / 4096))

def physOf (s : Space) (mem : Memory) (va k : Nat) : Nat :=
  frameOf s mem va k + (va + k) % 4096

/-- The range to which `copyout` writes. -/
structure Target (s : Space) (m : Mm) (va len : Nat) : Prop where
  space : s.At m.mem
  fits : va + len ≤ 4294967296
  mapped : ∀ k, k < len → present (s.entry m.mem ((va + k) / 4096)) ∧
    userBit (s.entry m.mem ((va + k) / 4096))
  low : ∀ k, k < len → frameOf s m.mem va k < 2147483648
  distinct : ∀ j k, j < len → k < len → frameOf s m.mem va j = frameOf s m.mem va k →
    (va + j) / 4096 = (va + k) / 4096
  tables : ∀ k, k < len → ¬ s.Has (frameOf s m.mem va k)

/-- The source, in the current address space `c`, apart from the frames of the target. -/
structure Source (c : Space) (m : Mm) (p len : Nat) (T : Nat → Prop) : Prop where
  space : c.At m.mem
  cr3 : m.cr3 = c.dir
  fits : p + len ≤ 4294967296
  mapped : ∀ k, k < len → present (c.entry m.mem ((p + k) / 4096))
  apart : ∀ k, k < len → ¬ T (frameOf c m.mem p k)
  tables : ∀ q, T q → ¬ c.Has q

/-- The frames of a range. -/
def Frames (s : Space) (m : Mm) (va len q : Nat) : Prop := ∃ k, k < len ∧ q = frameOf s m.mem va k

section

variable {s c : Space} {m m₁ : Mm} {va p len : Nat}

theorem frameOf_mod (s : Space) (mem : Memory) (va k : Nat) : frameOf s mem va k % 4096 = 0 := by
  unfold frameOf pteAddr
  omega

theorem Target.isFrame (h : Target s m va len) {q : Nat} (hq : Frames s m va len q) :
    IsFrame q := by
  obtain ⟨k, hk, rfl⟩ := hq
  have := h.low k hk
  have := frameOf_mod s m.mem va k
  exact ⟨by omega, by omega, by omega⟩

theorem Target.not_has (h : Target s m va len) {q : Nat} (hq : Frames s m va len q) :
    ¬ s.Has q := by
  obtain ⟨k, hk, rfl⟩ := hq
  exact h.tables k hk

theorem Target.physOf_inj (h : Target s m va len) {j k : Nat} (hj : j < len) (hk : k < len)
    (he : physOf s m.mem va j = physOf s m.mem va k) : j = k := by
  have h₁ := frameOf_mod s m.mem va j
  have h₂ := frameOf_mod s m.mem va k
  unfold physOf at he
  have := h.distinct j k hj hk (by omega)
  omega

/-- The memory while the target is written. -/
structure During (T : Nat → Prop) (m m₁ : Mm) : Prop where
  agree : AgreeOff T m.mem m₁.mem
  regs : m₁ = { m with mem := m₁.mem }

theorem Source.read {T : Nat → Prop} (h : Source c m p len T) (hT : ∀ q, T q → IsFrame q)
    (hd : During T m m₁) {k : Nat} (hk : k < len) :
    vload8 (p + k) m₁ = .ok (m.mem (physOf c m.mem p k), m₁) := by
  obtain ⟨hat, hentry⟩ := h.space.agree hd.agree hT h.tables
  have hfits := h.fits
  have hcr3 : m₁.cr3 = c.dir := by rw [hd.regs, h.cr3]
  have hwalk : walk m₁.mem m₁.cr3 (u32 (p + k)) = some (physOf c m.mem p k) := by
    rw [u32_eq_self (by omega), hcr3, hat.walk_eq (by omega), hentry, if_pos (h.mapped k hk)]
    rfl
  have hbyte : m₁.mem (physOf c m.mem p k) = m.mem (physOf c m.mem p k) := by
    have hmod := frameOf_mod c m.mem p k
    refine hd.agree _ fun q hq hin => h.apart k hk ?_
    have := (hT q hq).aligned
    unfold InPage physOf at hin
    rwa [show frameOf c m.mem p k = q by omega]
  rw [vload8_of_walk hwalk, hbyte]

theorem During.update {T : Nat → Prop} (h : During T m m₁) {q a : Nat} (hq : T q)
    (ha : InPage q a) (x : UInt8) :
    During T m { m₁ with mem := Function.update m₁.mem a x } := by
  refine ⟨fun y hy => ?_, by rw [h.regs]⟩
  have hne : y ≠ a := fun he => hy q hq (he ▸ ha)
  simp only [Function.update_of_ne hne]
  exact h.agree y hy

/-- The bytes of the source from `off` on. -/
def piece (c : Space) (m : Mm) (p off n : Nat) : List UInt8 :=
  (List.range n).map fun j => m.mem (physOf c m.mem p (off + j))

/-- A piece of the source that goes to one page of the target. -/
theorem Source.move {T : Nat → Prop} (h : Source c m p len T) (hT : ∀ q, T q → IsFrame q)
    (hd : During T m m₁) {dst q a off n : Nat} (hq : T q)
    (hdst : ∀ j, j < n → v2p (dst + j) = a + j) (ha : q ≤ a) (hin : a + n ≤ q + 4096)
    (hlen : off + n ≤ len) :
    memmoveOut p dst off n m₁ = .ok (piece c m p off n,
      { m₁ with mem := putList m₁.mem a (piece c m p off n) }) := by
  have hsrc : ∀ m₂, During T m m₂ → ∀ j, j < n →
      vload8 (p + off + j) m₂ = .ok (m.mem (physOf c m.mem p (off + j)), m₂) := by
    intro m₂ hd₂ j hj
    rw [Nat.add_assoc]
    exact h.read hT hd₂ (by omega)
  have hput : ∀ m₂, During T m m₂ → ∀ j, j < n → ∀ x,
      During T m { m₂ with mem := Function.update m₂.mem (v2p (dst + j)) x } := by
    intro m₂ hd₂ j hj x
    rw [hdst j hj]
    exact hd₂.update hq ⟨by omega, by omega⟩ x
  have hrun : ∃ m', memmoveOut p dst off n m₁ = .ok (piece c m p off n, m') := by
    rw [memmoveOut]
    split
    · obtain ⟨m', hm'⟩ := putDown_ok hsrc hput le_rfl hd
      exact ⟨m', hm'.trans (by rw [List.append_nil]; rfl)⟩
    · obtain ⟨m', hm'⟩ := putUp_ok (n := n) (i := 0) hsrc hput (by omega) hd
      exact ⟨m', by rw [piece]; simpa only [Nat.zero_add] using hm'⟩
  obtain ⟨m', hm'⟩ := hrun
  rw [hm', (memmoveOut_spec hdst hm').2]

/-- The bytes from `off` on are copied, and nothing else has changed. -/
structure Copied (s c : Space) (m : Mm) (va p len off : Nat) (m₁ m' : Mm) : Prop where
  regs : m' = { m₁ with mem := m'.mem }
  bytes : ∀ k, off ≤ k → k < len → m'.mem (physOf s m.mem va k) = m.mem (physOf c m.mem p k)
  others : ∀ x, (∀ k, off ≤ k → k < len → x ≠ physOf s m.mem va k) → m'.mem x = m₁.mem x

/-- One more piece in front. -/
theorem Copied.cons (ht : Target s m va len) {off n : Nat} {m' : Mm}
    (hpage : (va + off) % 4096 + n ≤ 4096) (hlen : off + n ≤ len)
    (h : Copied s c m va p len (off + n)
      { m₁ with mem := putList m₁.mem (physOf s m.mem va off) (piece c m p off n) } m') :
    Copied s c m va p len off m₁ m' := by
  have hphys : ∀ j, j < n → physOf s m.mem va (off + j) = physOf s m.mem va off + j := by
    intro j hj
    unfold physOf frameOf
    rw [show (va + (off + j)) / 4096 = (va + off) / 4096 by omega]
    omega
  have hlength : (piece c m p off n).length = n := by simp [piece]
  refine ⟨by rw [h.regs], fun k hk hk' => ?_, fun x hx => ?_⟩
  · by_cases hin : off + n ≤ k
    · exact h.bytes k hin hk'
    · obtain ⟨j, rfl⟩ : ∃ j, k = off + j := ⟨k - off, by omega⟩
      rw [h.others _ fun k hk₁ hk₂ he => by
        have := ht.physOf_inj hk' hk₂ he
        omega]
      simp only
      rw [hphys j (by omega), putList_of_mem (by omega) (by omega), Nat.add_sub_cancel_left,
        List.getD_eq_getElem _ _ (by omega)]
      simp [piece]
  · rw [h.others x fun k hk hk' => hx k (by omega) hk']
    refine putList_of_notMem ?_
    by_contra hin
    rw [hlength] at hin
    have hne := hx (off + (x - physOf s m.mem va off)) (by omega) (by omega)
    rw [hphys _ (by omega)] at hne
    omega

/-- The loop of `copyout` from the byte `off` on. -/
theorem copyoutLoop_copied (ht : Target s m va len) (hs : Source c m p len (Frames s m va len))
    {fuel off va' : Nat} (hoff : off ≤ len) (hva : off < len → va' = va + off) (hfuel : 0 < fuel)
    (hpages : off < len → (va + len + 4095) / 4096 < (va + off) / 4096 + fuel)
    (hd : During (Frames s m va len) m m₁) :
    ∃ bs m', copyoutLoop (p2v s.dir) (memmoveOut p) fuel va' off (len - off) m₁ =
      .ok ((0, bs), m') ∧ Copied s c m va p len off m₁ m' := by
  induction fuel generalizing off va' m₁ with
  | zero => omega
  | succ fuel ih =>
      have hfits := ht.fits
      rw [copyoutLoop]
      by_cases hpos : len - off > 0
      · have hk : off < len := by omega
        have hbase : pgRoundDown (va + off) = 4096 * ((va + off) / 4096) := by
          unfold pgRoundDown
          omega
        have hoffset : va + off - pgRoundDown (va + off) = (va + off) % 4096 := by omega
        have hlow := ht.low off hk
        have hframe : Frames s m va len (frameOf s m.mem va off) := ⟨off, hk, rfl⟩
        obtain ⟨hat, hentry⟩ := ht.space.agree hd.agree (fun q hq => ht.isFrame hq)
          fun q hq => ht.not_has hq
        obtain ⟨hp, hu⟩ := ht.mapped off hk
        have htab : ∃ t, s.tab ((va + off) / 4096 / 1024) = some t := by
          cases hcase : s.tab ((va + off) / 4096 / 1024) with
          | none =>
              rw [Space.entry_of_none hcase] at hp
              exact absurd hp not_present_zero
          | some t => exact ⟨t, rfl⟩
        obtain ⟨t, htab⟩ := htab
        have hdiv : pgRoundDown (va + off) / 4096 = (va + off) / 4096 := by omega
        have hka := uva2ka_eq (pgRoundDown (va + off)) hat (by omega) (by rw [hdiv]; exact htab)
        rw [hdiv, hentry, if_pos ⟨hp, hu⟩, ← frameOf] at hka
        have hptr : p2v (frameOf s m.mem va off) ≠ 0 := by
          unfold p2v u32
          omega
        obtain ⟨n, hn⟩ : ∃ n, n = min (4096 - (va + off) % 4096) (len - off) := ⟨_, rfl⟩
        have hmove : memmoveOut p (p2v (frameOf s m.mem va off) + (va + off) % 4096) off n m₁ =
            .ok (piece c m p off n,
              { m₁ with mem := putList m₁.mem (physOf s m.mem va off) (piece c m p off n) }) := by
          refine hs.move (fun q hq => ht.isFrame hq) hd hframe (fun j hj => ?_) ?_ ?_ (by omega)
          · rw [Nat.add_assoc, v2p_p2v_add (by omega), physOf, Nat.add_assoc]
          · exact Nat.le_add_right _ _
          · unfold physOf
            omega
        have hd₂ : During (Frames s m va len) m
            { m₁ with mem := putList m₁.mem (physOf s m.mem va off) (piece c m p off n) } := by
          refine ⟨fun x hx => ?_, by rw [hd.regs]⟩
          have hout := hx _ hframe
          have hlength : (piece c m p off n).length = n := by simp [piece]
          unfold InPage at hout
          refine Eq.trans (putList_of_notMem ?_) (hd.agree x hx)
          rw [hlength]
          unfold physOf
          omega
        have hnext : off + n < len → u32 (pgRoundDown (va + off) + 4096) = va + (off + n) := by
          intro hlt
          rw [u32_eq_self (by omega)]
          omega
        have hrest : ∃ bs m', copyoutLoop (p2v s.dir) (memmoveOut p) fuel
            (u32 (pgRoundDown (va + off) + 4096)) (off + n) (len - (off + n))
            { m₁ with mem := putList m₁.mem (physOf s m.mem va off) (piece c m p off n) } =
              .ok ((0, bs), m') ∧ Copied s c m va p len (off + n) _ m' :=
          ih (by omega) hnext (by omega) (by omega) hd₂
        obtain ⟨bs, m', hrun, hcopied⟩ := hrest
        refine ⟨piece c m p off n ++ bs, m', ?_, hcopied.cons ht (by omega) (by omega)⟩
        rw [if_pos hpos, hva hk, Act.bind_of_ok hka]
        dsimp only
        rw [if_neg hptr, hoffset, ← hn, Act.bind_of_ok hmove, ← Nat.sub_add_eq,
          Act.bind_of_ok hrun]
        rfl
      · rw [if_neg hpos]
        refine ⟨[], m₁, rfl, rfl, fun k hk hk' => by omega, fun x _ => rfl⟩

/-- `copyout` returns zero, every byte of the target is then the byte of the source, and every
other byte of the memory is what it was. -/
theorem copyout_exact (ht : Target s m va len) (hs : Source c m p len (Frames s m va len)) :
    ∃ bs m', copyout (p2v s.dir) va (memmoveOut p) len m = .ok ((0, bs), m') ∧
      (∀ k, k < len → walk m'.mem s.dir (va + k) = some (physOf s m.mem va k) ∧
        m'.mem (physOf s m.mem va k) = m.mem (physOf c m.mem p k)) ∧
      (∀ x, (∀ k, k < len → x ≠ physOf s m.mem va k) → m'.mem x = m.mem x) ∧
      m' = { m with mem := m'.mem } := by
  have hfits := ht.fits
  obtain ⟨bs, m', hrun, hcopied⟩ := @copyoutLoop_copied s c m m va p len ht hs 1048578 0 va
    (Nat.zero_le _) (fun _ => rfl) (by omega) (by omega) ⟨fun _ _ => rfl, rfl⟩
  refine ⟨bs, m', hrun, fun k hk => ⟨?_, hcopied.bytes k (Nat.zero_le _) hk⟩,
    fun x hx => hcopied.others x fun k _ hk => hx k hk, hcopied.regs⟩
  have hagree : AgreeOff (Frames s m va len) m.mem m'.mem := by
    intro x hx
    refine hcopied.others x fun k _ hk he => hx _ ⟨k, hk, rfl⟩ ?_
    unfold physOf at he
    unfold InPage
    omega
  obtain ⟨hat, hentry⟩ := ht.space.agree hagree (fun q hq => ht.isFrame hq)
    fun q hq => ht.not_has hq
  rw [hat.walk_eq (by omega), hentry, if_pos (ht.mapped k hk).1]
  rfl

end

/-- An address space with one table. -/
def pairSpace : Space := ⟨0x101000, fun i => if i = 0 then some 0x102000 else none⟩

/-- The pages 5, 6 and 7 are mapped, and the string `abcd` lies on the page 7. -/
def pairMm : Mm where
  mem := store32 (store32 (store32 (store32 (store32 (fun _ => 0) 0x101000 0x102007)
    0x102014 0x103007) 0x102018 0x104007) 0x10201C 0x105007) 0x105000 0x64636261
  freeList := 0
  cr3 := 0x101000
  memsz := 2048
  memStart := 0x80101000
  data := 0x80101000

theorem pairSpace_at : pairSpace.At pairMm.mem where
  dir := ⟨by decide, by decide, by decide⟩
  tab := by
    intro i t hi
    simp only [pairSpace, Option.ite_none_right_eq_some, Option.some.injEq] at hi
    obtain ⟨rfl, rfl⟩ := hi
    exact ⟨by decide, ⟨by decide, by decide, by decide⟩, by decide⟩
  inj := by
    intro i j t hi hj
    simp only [pairSpace, Option.ite_none_right_eq_some] at hi hj
    rw [hi.1, hj.1]
  pde := by
    intro i t hi
    simp only [pairSpace, Option.ite_none_right_eq_some, Option.some.injEq] at hi
    obtain ⟨rfl, rfl⟩ := hi
    decide +kernel
  absent := by decide +kernel

theorem pairSpace_has {q : Nat} (h : pairSpace.Has q) : q = 0x101000 ∨ q = 0x102000 := by
  rcases h with h | ⟨i, hi⟩
  · exact Or.inl h
  · simp only [pairSpace, Option.ite_none_right_eq_some, Option.some.injEq] at hi
    exact Or.inr hi.2.symm

/-- Four bytes that lie on two pages. -/
theorem copyout_exact_pair :
    ∃ bs m', copyout 0x80101000 0x5FFE (memmoveOut 0x7000) 4 pairMm = .ok ((0, bs), m') ∧
      m'.mem 0x103FFE = 0x61 ∧ m'.mem 0x104001 = 0x64 := by
  have hframes : ∀ q, Frames pairSpace pairMm 0x5FFE 4 q → q = 0x103000 ∨ q = 0x104000 := by
    rintro q ⟨k, hk, rfl⟩
    revert k
    decide +kernel
  have hdistinct : ∀ j, j < 4 → ∀ k, k < 4 →
      frameOf pairSpace pairMm.mem 0x5FFE j = frameOf pairSpace pairMm.mem 0x5FFE k →
        (0x5FFE + j) / 4096 = (0x5FFE + k) / 4096 := by decide +kernel
  have hsource : ∀ k, k < 4 → frameOf pairSpace pairMm.mem 0x7000 k = 0x105000 := by
    decide +kernel
  have ht : Target pairSpace pairMm 0x5FFE 4 := {
    space := pairSpace_at
    fits := by decide
    mapped := by decide +kernel
    low := by decide +kernel
    distinct := fun j k hj hk => hdistinct j hj k hk
    tables := fun k hk hhas => by
      have h₁ := hframes _ ⟨k, hk, rfl⟩
      have h₂ := pairSpace_has hhas
      omega }
  have hs : Source pairSpace pairMm 0x7000 4 (Frames pairSpace pairMm 0x5FFE 4) := {
    space := pairSpace_at
    cr3 := rfl
    fits := by decide
    mapped := by decide +kernel
    apart := fun k hk hT => by
      have h₁ := hframes _ hT
      have h₂ := hsource k hk
      omega
    tables := fun q hT hhas => by
      have h₁ := hframes _ hT
      have h₂ := pairSpace_has hhas
      omega }
  obtain ⟨bs, m', hrun, hbytes, -⟩ := copyout_exact ht hs
  exact ⟨bs, m', hrun, (hbytes 0 (by decide)).2.trans (by decide +kernel),
    (hbytes 3 (by decide)).2.trans (by decide +kernel)⟩

end Exec

end Chunix
