import Chunix.Exec.Frame
import Chunix.Mm.Region
import Chunix.Mm.View

/-!
# The segments of a program

`exec` loads each segment into the address space of the caller and copies a page of it
into the directory of the new program. `Loading` is what holds of the two address spaces
between the steps: the pages of the caller are page frames of their own, and so are the
copies.
-/

namespace Chunix

namespace Mm

open Machine Linked

/-- The page is neither part of one of the address spaces nor free. -/
def Off (s d : Space) (l : List Nat) (p : Nat) : Prop :=
  ¬ s.Has p ∧ ¬ d.Has p ∧ ¬ framesOf l p

/-- The byte at the virtual address `a`. -/
def Space.byte (s : Space) (mem : Memory) (a : Nat) : UInt8 := mem (s.addr mem a)

theorem inPage_addr (s : Space) (mem : Memory) (va : Nat) :
    InPage (s.frame mem (va / 4096)) (s.addr mem va) := by
  have := Nat.mod_lt va (show 0 < 4096 by decide)
  unfold InPage Space.addr
  omega

section

variable {s c c' : Space} {m m' m₁ m₂ : Mm} {l l₁ l' : List Nat}

/-- The tables for two pages are two at most. -/
theorem missing_two (s : Space) (n : Nat) {a : Nat} (ha : n ≤ a) (ha' : a ≤ n + 1) :
    s.missing (n / 1024) (a / 1024 + 1) ≤ 2 :=
  (s.missing_le _ _).trans (by omega)

/-- What `copy_page` comes to, aligned or not. -/
theorem copyPage_grown {addr r : Nat} (hc : Held c m l) (hs : s.At m.mem)
    (haddr : addr + 4096 ≤ 4294963200)
    (h : copyPage (p2v s.dir) (p2v c.dir) addr m = .ok (r, m')) :
    ∃ c' l', Grown c c' l l' m m' ∧ l.length ≤ l'.length + 3 ∧
      (∀ j, present (c.entry m.mem j) → c'.entry m'.mem j = c.entry m.mem j) ∧
      (∀ j, j < addr / 4096 ∨ (addr + 4095) / 4096 < j → c'.entry m'.mem j = c.entry m.mem j) ∧
      (l.length ≤ 2 ∨ ∃ v ∈ l, ¬ c'.Has (v2p v) ∧ v ∉ l' ∧
        (∀ x, x < 4096 → m'.mem (v2p v + x) = m.mem (pteAddr (s.entry m.mem (addr / 4096)) + x)) ∧
        c'.entry m'.mem (addr / 4096) =
          mkPte (v2p v) (pteFlags (s.entry m.mem (addr / 4096)))) := by
  have hp := copyPage_present hs (by omega) h
  have hlast : addr / 4096 ≤ (addr + 4095) / 4096 ∧ (addr + 4095) / 4096 ≤ addr / 4096 + 1 := by
    omega
  rcases copyPage_spec hc hs haddr hp with ⟨rfl, he⟩ | ⟨v, l₁, m₂, rfl, hext, hentry, hmem, hcase⟩
  · obtain ⟨-, rfl⟩ := Prod.mk.inj (Except.ok.inj (he.symm.trans h))
    exact ⟨c, [], (Extends.refl hc).grown, by simp, fun _ _ => rfl, fun _ _ => rfl,
      Or.inl (by simp)⟩
  obtain ⟨hoff, hrest⟩ := hc.head
  have hv : IsPage v := hc.pool.page v List.mem_cons_self
  have htwo := missing_two c (addr / 4096) hlast.1 hlast.2
  rcases hcase with ⟨c', l', m₁, he, hmap⟩ | ⟨c', m₁, k, he, hmap, hk, hnone⟩ | ⟨he, -⟩
  · obtain ⟨-, rfl⟩ := Prod.mk.inj (Except.ok.inj (he.symm.trans h))
    have hfew := hmap.few (addr / 4096 / 1024) ((addr + 4095) / 4096 / 1024 + 1)
      fun j hj hj' => ⟨by omega, by omega⟩
    have hpa : u32 (v2p v) = v2p v := u32_eq_self (u32_lt _)
    refine ⟨c', l', (hext.trans hmap.toExtends).grown, by rw [List.length_cons]; omega, ?_, ?_,
      Or.inr ⟨v, List.mem_cons_self, fun hh => (hmap.origin hh).elim hoff hrest,
        fun hh => hrest ⟨v, hmap.off v hh, rfl⟩, ?_, ?_⟩⟩
    · intro j hj
      rw [← hentry j] at hj ⊢
      rw [hmap.entry, if_neg fun hin => hmap.absent j hin.1 hin.2 hj]
    · intro j hj
      rw [hmap.entry, if_neg (by omega), hentry]
    · intro x hx
      rw [hmap.agree.page (fun p => hext.held.frame) hv.isFrame (fun hh => hh.elim hoff hrest)
        ⟨Nat.le_add_right _ _, Nat.add_lt_add_left hx _⟩, hmem,
        blit_apply_of_mem ⟨Nat.le_add_right _ _, Nat.add_lt_add_left hx _⟩,
        Nat.add_sub_cancel_left]
    · rw [hmap.entry, if_pos (by omega), Nat.sub_self, Nat.mul_zero, Nat.add_zero, hpa]
  · obtain ⟨_, _, hfree, hret⟩ := Act.bind_eq_ok.1 (he.symm.trans h)
    obtain ⟨-, rfl⟩ := Act.pure_eq_ok.1 hret
    obtain ⟨-, rfl⟩ := kfreePage_eq_ok.1 hfree
    have hoff' : ¬ c'.Has (v2p v) := fun hh => (hmap.origin hh).elim hoff hrest
    have hfreed := agreeOff_freed (m := m₁) hv
    obtain ⟨hat, hentry'⟩ := hmap.held.space.agree hfreed (fun p hp => hp ▸ hv.isFrame)
      fun p hp => hp ▸ hoff'
    have hgrown := (hext.trans hmap.toExtends).grown
    have hshort : l₁.length ≤ 1 := by
      have hfew := hmap.few (addr / 4096 / 1024) ((addr + 4095) / 4096 / 1024 + 1)
        fun j hj hj' => ⟨by omega, by omega⟩
      have hpos := Space.missing_pos (a := addr / 4096 / 1024)
        (b := (addr + 4095) / 4096 / 1024 + 1) hnone (by omega) (by omega)
      rw [List.length_nil] at hfew
      omega
    refine ⟨c', [v], ⟨hmap.dir, ⟨hat, hmap.held.pool.free hv (by simp), ?_⟩, ?_, hgrown.origin,
      ?_, ?_⟩, by rw [List.length_cons]; omega, ?_, ?_, Or.inl (by rw [List.length_cons]; omega)⟩
    · intro u hu
      rwa [List.mem_singleton.1 hu]
    · exact fun u hu => List.mem_singleton.1 hu ▸ List.mem_cons_self
    · exact hgrown.agree.trans hfreed (fun _ hp => hp)
        fun p hp => Or.inr ⟨v, List.mem_cons_self, hp⟩
    · rw [freed, hgrown.regs]
    · intro j hj
      rw [← hentry j] at hj
      rw [hentry', hmap.entry, if_neg fun hin => hmap.absent j hin.1 hin.2 hj, hentry]
    · intro j hj
      rw [hentry', hmap.entry, if_neg (by omega), hentry]
  · rw [he] at h
    cases h

end

end Mm

namespace Exec

open Machine Kernel

/-- The address spaces of the caller and of the new program. The pages of `U`, among them
all pages of the user, are page frames of the caller of their own, and the pages of `C` are
copies for the new program. -/
structure Loading (m : Mm) (s d : Mm.Space) (l : List Nat) (U C : Nat → Prop) : Prop where
  cr3 : m.cr3 = s.dir
  caller : Mm.Held s m l
  program : Mm.Held d m l
  apart : Mm.Apart s d l
  user : ∀ n, n < 524288 → Mm.present (s.entry m.mem n) → U n
  present : ∀ n, U n → Mm.present (s.entry m.mem n)
  frame : ∀ n, U n → Mm.IsFrame (s.frame m.mem n) ∧ Mm.Off s d l (s.frame m.mem n)
  inj : ∀ n k, U n → U k → s.frame m.mem n = s.frame m.mem k → n = k
  copied : ∀ n, C n → Mm.present (d.entry m.mem n) ∧ Mm.IsFrame (d.frame m.mem n) ∧
    Mm.Off s d l (d.frame m.mem n)
  own : ∀ n k, U n → C k → s.frame m.mem n ≠ d.frame m.mem k

section

variable {m m' : Mm} {s s' d d' : Mm.Space} {l l' : List Nat} {U C : Nat → Prop} {n k va : Nat}

theorem Loading.sees (h : Loading m s d l U C) : Mm.Sees s U m where
  cr3 := h.cr3
  space := h.caller.space
  present := h.present
  isFrame := fun n hn => (h.frame n hn).1
  off := fun n hn => (h.frame n hn).2.1
  inj := h.inj

theorem frame_congr {mem mem' : Memory} (h : s'.entry mem' n = s.entry mem n) :
    s'.frame mem' n = s.frame mem n := by
  rw [Mm.Space.frame, h, Mm.Space.frame]

theorem byte_congr {mem mem' : Memory} {a : Nat}
    (h : s'.entry mem' (a / 4096) = s.entry mem (a / 4096))
    (hmem : mem' (s.addr mem a) = mem (s.addr mem a)) : s'.byte mem' a = s.byte mem a := by
  rw [Mm.Space.byte, Mm.Space.addr, frame_congr h]
  exact hmem

/-- A byte of a page that is not written. -/
theorem byte_agree {P : Nat → Prop} {mem mem' : Memory} {a : Nat} (hagree : Mm.AgreeOff P mem mem')
    (hP : ∀ p, P p → Mm.IsFrame p) (hf : Mm.IsFrame (s.frame mem (a / 4096)))
    (hnot : ¬ P (s.frame mem (a / 4096)))
    (h : s'.entry mem' (a / 4096) = s.entry mem (a / 4096)) : s'.byte mem' a = s.byte mem a :=
  byte_congr h (hagree.page hP hf hnot (Mm.inPage_addr s mem a))

/-- What is written to pages of `U` changes neither the tables nor the copies. -/
theorem Loading.write (h : Loading m s d l U C) (m' : Mm) {P : Nat → Prop}
    (hP : ∀ p, P p → ∃ n, U n ∧ p = s.frame m.mem n) (hagree : Mm.AgreeOff P m.mem m'.mem)
    (hregs : m' = { m with mem := m'.mem }) :
    Loading m' s d l U C ∧ (∀ n, s.entry m'.mem n = s.entry m.mem n) ∧
      (∀ n, d.entry m'.mem n = d.entry m.mem n) ∧
      ∀ a, C (a / 4096) → d.byte m'.mem a = d.byte m.mem a := by
  have hframe : ∀ p, P p → Mm.IsFrame p := by
    intro p hp
    obtain ⟨n, hn, rfl⟩ := hP p hp
    exact (h.frame n hn).1
  have hoff : ∀ p, P p → Mm.Off s d l p := by
    intro p hp
    obtain ⟨n, hn, rfl⟩ := hP p hp
    exact (h.frame n hn).2
  have hl : m'.freeList = m.freeList := by rw [hregs]
  obtain ⟨-, hs⟩ := h.caller.space.agree hagree hframe fun p hp => (hoff p hp).1
  obtain ⟨-, hd⟩ := h.program.space.agree hagree hframe fun p hp => (hoff p hp).2.1
  have hsf : ∀ n, s.frame m'.mem n = s.frame m.mem n := fun n => frame_congr (hs n)
  have hdf : ∀ n, d.frame m'.mem n = d.frame m.mem n := fun n => frame_congr (hd n)
  refine ⟨⟨by rw [hregs]; exact h.cr3,
    h.caller.agree hl hagree hframe fun p hp => ⟨(hoff p hp).1, (hoff p hp).2.2⟩,
    h.program.agree hl hagree hframe fun p hp => (hoff p hp).2, h.apart, ?_, ?_, ?_, ?_, ?_, ?_⟩,
    hs, hd, ?_⟩
  · intro n hn hp
    rw [hs] at hp
    exact h.user n hn hp
  · intro n hn
    rw [hs]
    exact h.present n hn
  · intro n hn
    rw [hsf]
    exact h.frame n hn
  · intro n k hn hk
    rw [hsf, hsf]
    exact h.inj n k hn hk
  · intro n hn
    rw [hdf, hd]
    exact h.copied n hn
  · intro n k hn hk
    rw [hsf, hdf]
    exact h.own n k hn hk
  · intro a ha
    obtain ⟨-, hf, -⟩ := h.copied _ ha
    refine byte_agree hagree hframe hf (fun hp => ?_) (hd _)
    obtain ⟨n, hn, he⟩ := hP _ hp
    exact h.own n _ hn ha he.symm

/-- A page frame that is off stays so when an address space has taken pages from the list. -/
theorem off_caller {p : Nat} (h : Mm.Off s d l p) (hext : Mm.Extends s s' l l' m m') :
    Mm.Off s' d l' p :=
  ⟨fun hp => (hext.origin hp).elim h.1 h.2.2, h.2.1, fun hp => h.2.2 (hext.framesOf hp)⟩

/-- Space for a segment. -/
theorem Loading.regionAlloc {len perm : Nat} (h : Loading m s d l U C)
    (hva : va + len ≤ 2147483648) (hperm : perm < 4096) (hn : va / 4096 = n)
    (hk : (va + len + 4095) / 4096 = n + k)
    (hrun : Mm.regionAlloc (Mm.p2v s.dir) va len perm m = .ok ((), m')) :
    ∃ s' l', s'.dir = s.dir ∧ Loading m' s' d l' (fun j => U j ∨ n ≤ j ∧ j < n + k) C ∧
      l.length ≤ l'.length + 2 * k ∧ (∀ u ∈ l', u ∈ l) ∧
      (∀ p, s'.Has p → s.Has p ∨ Mm.framesOf l p) ∧
      (∀ j, 524288 ≤ j ∨ U j → s'.entry m'.mem j = s.entry m.mem j) ∧
      (∀ j, d.entry m'.mem j = d.entry m.mem j) ∧
      (∀ a, U (a / 4096) → s'.byte m'.mem a = s.byte m.mem a) ∧
      (∀ a, C (a / 4096) → d.byte m'.mem a = d.byte m.mem a) ∧
      m' = { m with mem := m'.mem, freeList := m'.freeList } := by
  rcases Mm.regionAlloc_cases h.caller hperm (by omega) hn hk with
    ⟨-, he⟩ | ⟨s', l', m₁, hreg, he⟩
  · rw [he] at hrun
    cases hrun
  obtain ⟨-, rfl⟩ := Prod.mk.inj (Except.ok.inj (he.symm.trans hrun))
  have hP : ∀ p, s.Has p ∨ Mm.framesOf l p → Mm.IsFrame p := fun p => h.caller.frame
  have hagree := hreg.agree
  have hkept : ∀ j, 524288 ≤ j ∨ U j → s'.entry m₁.mem j = s.entry m.mem j := by
    rintro j (hj | hj)
    · exact hreg.kept j (Or.inr (Or.inl (by omega)))
    · exact hreg.kept j (Or.inr (Or.inr (h.present j hj)))
  have hsf : ∀ j, U j → s'.frame m₁.mem j = s.frame m.mem j :=
    fun j hj => frame_congr (hkept j (Or.inr hj))
  -- the tables of the new program and the copies are neither tables of the caller nor free
  obtain ⟨hdat, hd⟩ := h.program.space.agree hagree hP fun p hp hdp =>
    hp.elim (fun hsp => h.apart.space p hsp hdp) fun ⟨v, hv, he⟩ => h.program.off v hv (he ▸ hdp)
  have hdf : ∀ j, d.frame m₁.mem j = d.frame m.mem j := fun j => frame_congr (hd j)
  have hnew : ∀ j, n ≤ j → j < n + k → ¬ Mm.present (s.entry m.mem j) →
      ∃ v ∈ l, v ∉ l' ∧ ¬ s'.Has (Mm.v2p v) ∧ Mm.present (s'.entry m₁.mem j) ∧
        s'.frame m₁.mem j = Mm.v2p v := by
    intro j hj hj' hp
    obtain ⟨v, hv, hv', hoff, hentry⟩ := hreg.taken j hj hj' hp
    refine ⟨v, hv, hv', hoff, ?_, ?_⟩
    · rw [hentry]
      exact (Mm.mkPte_spec hperm).1
    · rw [Mm.Space.frame, hentry, Mm.pteAddr_copy (h.caller.pool.page v hv) hperm]
  have hcase : ∀ j, U j ∨ n ≤ j ∧ j < n + k →
      U j ∨ n ≤ j ∧ j < n + k ∧ ¬ Mm.present (s.entry m.mem j) := by
    rintro j (hj | ⟨hj, hj'⟩)
    · exact Or.inl hj
    · by_cases hp : Mm.present (s.entry m.mem j)
      · exact Or.inl (h.user j (by omega) hp)
      · exact Or.inr ⟨hj, hj', hp⟩
  have hfree : ∀ v ∈ l, v ∉ l' → ¬ d.Has (Mm.v2p v) ∧ ¬ Mm.framesOf l' (Mm.v2p v) :=
    fun v hv hv' => ⟨h.program.off v hv, fun hf =>
      hv' (Mm.mem_of_framesOf hreg.held.pool (h.caller.pool.page v hv) hf)⟩
  refine ⟨s', l', hreg.dir, ⟨?_, hreg.held, ⟨hdat, hreg.held.pool, fun v hv =>
    h.program.off v (hreg.off v hv)⟩, ⟨?_, ?_⟩, ?_, ?_, ?_, ?_, ?_, ?_⟩, hreg.few, hreg.off,
    fun p => hreg.origin, hkept, hd, ?_, ?_, hreg.regs⟩
  · rw [hreg.regs, hreg.dir]
    exact h.cr3
  · intro p hp hdp
    rcases hreg.origin hp with hp | ⟨v, hv, he⟩
    · exact h.apart.space p hp hdp
    · exact h.program.off v hv (he ▸ hdp)
  · rintro p hp ⟨v, hv, he⟩
    exact hreg.held.off v hv (he ▸ hp)
  · intro j hj hp
    by_cases hin : n ≤ j ∧ j < n + k
    · exact Or.inr hin
    · rw [hreg.kept j (by omega)] at hp
      exact Or.inl (h.user j hj hp)
  · intro j hj
    rcases hcase j hj with hj | ⟨hj, hj', hp⟩
    · rw [hkept j (Or.inr hj)]
      exact h.present j hj
    · obtain ⟨-, -, -, -, hp', -⟩ := hnew j hj hj' hp
      exact hp'
  · intro j hj
    rcases hcase j hj with hj | ⟨hj, hj', hp⟩
    · rw [hsf j hj]
      exact ⟨(h.frame j hj).1, off_caller (h.frame j hj).2 hreg.toExtends⟩
    · obtain ⟨v, hv, hv', hoff, -, hf⟩ := hnew j hj hj' hp
      rw [hf]
      exact ⟨(h.caller.pool.page v hv).isFrame, hoff, hfree v hv hv'⟩
  · intro i j hi hj he
    rcases hcase i hi with hi | ⟨hi, hi', hpi⟩ <;> rcases hcase j hj with hj | ⟨hj, hj', hpj⟩
    · rw [hsf i hi, hsf j hj] at he
      exact h.inj i j hi hj he
    · obtain ⟨v, hv, -, -, -, hf⟩ := hnew j hj hj' hpj
      rw [hsf i hi, hf] at he
      exact absurd ⟨v, hv, he⟩ (h.frame i hi).2.2.2
    · obtain ⟨v, hv, -, -, -, hf⟩ := hnew i hi hi' hpi
      rw [hsf j hj, hf] at he
      exact absurd ⟨v, hv, he.symm⟩ (h.frame j hj).2.2.2
    · exact hreg.inj i j hi hi' hj hj' hpi hpj he
  · intro j hj
    rw [hd, hdf]
    obtain ⟨hp, hf, hoff⟩ := h.copied j hj
    exact ⟨hp, hf, off_caller hoff hreg.toExtends⟩
  · intro i j hi hj
    rw [hdf]
    rcases hcase i hi with hi | ⟨hi, hi', hp⟩
    · rw [hsf i hi]
      exact h.own i j hi hj
    · obtain ⟨v, hv, -, -, -, hf⟩ := hnew i hi hi' hp
      rw [hf]
      exact fun he => (h.copied j hj).2.2.2.2 ⟨v, hv, he.symm⟩
  · intro a ha
    obtain ⟨hf, hoff⟩ := h.frame _ ha
    exact byte_agree hagree hP hf (fun hp => hp.elim hoff.1 hoff.2.2) (hkept _ (Or.inr ha))
  · intro a ha
    obtain ⟨-, hf, hoff⟩ := h.copied _ ha
    exact byte_agree hagree hP hf (fun hp => hp.elim hoff.1 hoff.2.2) (hd _)

/-- The same for the new program. -/
theorem off_program {p : Nat} (h : Mm.Off s d l p) (hgrown : Mm.Grown d d' l l' m m') :
    Mm.Off s d' l' p :=
  ⟨h.1, fun hp => (hgrown.origin p hp).elim h.2.1 h.2.2,
    fun ⟨v, hv, he⟩ => h.2.2 ⟨v, hgrown.list v hv, he⟩⟩

/-- The new program has changed, and its copies are still there. -/
theorem Loading.grown (h : Loading m s d l U C) (hgrown : Mm.Grown d d' l l' m m')
    (hentry : ∀ j, Mm.present (d.entry m.mem j) → d'.entry m'.mem j = d.entry m.mem j) :
    Loading m' s d' l' U C ∧ (∀ j, s.entry m'.mem j = s.entry m.mem j) ∧
      (∀ a, U (a / 4096) → s.byte m'.mem a = s.byte m.mem a) ∧
      ∀ a, C (a / 4096) → d'.byte m'.mem a = d.byte m.mem a := by
  have hP : ∀ p, d.Has p ∨ Mm.framesOf l p → Mm.IsFrame p := fun p => h.program.frame
  obtain ⟨hat, hs⟩ := hgrown.other h.program h.caller.space h.apart
  have hsf : ∀ j, s.frame m'.mem j = s.frame m.mem j := fun j => frame_congr (hs j)
  have hd : ∀ j, C j → d'.entry m'.mem j = d.entry m.mem j :=
    fun j hj => hentry j (h.copied j hj).1
  have hdf : ∀ j, C j → d'.frame m'.mem j = d.frame m.mem j := fun j hj => frame_congr (hd j hj)
  refine ⟨⟨?_, ⟨hat, hgrown.held.pool, fun v hv => h.caller.off v (hgrown.list v hv)⟩, hgrown.held,
    hgrown.apart h.apart, ?_, ?_, ?_, ?_, ?_, ?_⟩, hs, ?_, ?_⟩
  · rw [hgrown.regs]
    exact h.cr3
  · intro j hj hp
    rw [hs] at hp
    exact h.user j hj hp
  · intro j hj
    rw [hs]
    exact h.present j hj
  · intro j hj
    rw [hsf]
    exact ⟨(h.frame j hj).1, off_program (h.frame j hj).2 hgrown⟩
  · intro i j hi hj
    rw [hsf, hsf]
    exact h.inj i j hi hj
  · intro j hj
    rw [hd j hj, hdf j hj]
    obtain ⟨hp, hf, hoff⟩ := h.copied j hj
    exact ⟨hp, hf, off_program hoff hgrown⟩
  · intro i j hi hj
    rw [hsf, hdf j hj]
    exact h.own i j hi hj
  · intro a ha
    obtain ⟨hf, hoff⟩ := h.frame _ ha
    exact byte_agree hgrown.agree hP hf (fun hp => hp.elim hoff.2.1 hoff.2.2) (hs _)
  · intro a ha
    obtain ⟨-, hf, hoff⟩ := h.copied _ ha
    exact byte_agree hgrown.agree hP hf (fun hp => hp.elim hoff.2.1 hoff.2.2) (hd _ ha)

/-- The page `v` becomes one of the copies. -/
theorem Loading.copy {v flags : Nat} (h : Loading m s d l U C) (hv : Mm.IsPage v)
    (hoff : Mm.Off s d l (Mm.v2p v)) (hown : ∀ j, U j → s.frame m.mem j ≠ Mm.v2p v)
    (hflags : flags < 4096) (hentry : d.entry m.mem n = Mm.mkPte (Mm.v2p v) flags) :
    Loading m s d l U (fun j => C j ∨ j = n) ∧ d.frame m.mem n = Mm.v2p v := by
  have hf : d.frame m.mem n = Mm.v2p v := by
    rw [Mm.Space.frame, hentry, Mm.pteAddr_copy hv hflags]
  refine ⟨⟨h.cr3, h.caller, h.program, h.apart, h.user, h.present, h.frame, h.inj, ?_, ?_⟩, hf⟩
  · rintro j (hj | rfl)
    · exact h.copied j hj
    · rw [hf, hentry]
      exact ⟨(Mm.mkPte_spec hflags).1, hv.isFrame, hoff⟩
  · rintro i j hi (hj | rfl)
    · exact h.own i j hi hj
    · rw [hf]
      exact hown i hi

/-- The copy of a page of the caller. -/
theorem Loading.copyPage {r : Nat} (h : Loading m s d l U C) (hva : va + 4096 ≤ 4294963200)
    (hn : va / 4096 = n)
    (hrun : Mm.copyPage (Mm.p2v s.dir) (Mm.p2v d.dir) va m = .ok (r, m')) :
    ∃ d' l' C', d'.dir = d.dir ∧ Loading m' s d' l' U C' ∧ (∀ j, C j → C' j) ∧
      l.length ≤ l'.length + 3 ∧ (∀ u ∈ l', u ∈ l) ∧
      (∀ p, d'.Has p → d.Has p ∨ Mm.framesOf l p) ∧
      (∀ j, C' j → C j ∨ Mm.framesOf l (d'.frame m'.mem j)) ∧
      (∀ j, j < n ∨ (va + 4095) / 4096 < j ∨ Mm.present (d.entry m.mem j) →
        d'.entry m'.mem j = d.entry m.mem j) ∧
      (∀ j, s.entry m'.mem j = s.entry m.mem j) ∧
      (∀ a, U (a / 4096) → s.byte m'.mem a = s.byte m.mem a) ∧
      (∀ a, C (a / 4096) → d'.byte m'.mem a = d.byte m.mem a) ∧
      (3 ≤ l.length → C' n ∧ ∀ a, a / 4096 = n → d'.byte m'.mem a = s.byte m.mem a) ∧
      m' = { m with mem := m'.mem, freeList := m'.freeList } := by
  obtain ⟨d', l', hgrown, hlen, hpres, hout, hcase⟩ :=
    Mm.copyPage_grown h.program h.caller.space hva hrun
  rw [hn] at hout hcase
  have hentry : ∀ j, j < n ∨ (va + 4095) / 4096 < j ∨ Mm.present (d.entry m.mem j) →
      d'.entry m'.mem j = d.entry m.mem j := by
    rintro j (hj | hj | hj)
    · exact hout j (Or.inl hj)
    · exact hout j (Or.inr hj)
    · exact hpres j hj
  obtain ⟨hload, hs, hsb, hdb⟩ := h.grown hgrown hpres
  rcases hcase with hshort | ⟨v, hv, hoff, hv', hbytes, hnew⟩
  · exact ⟨d', l', C, hgrown.dir, hload, fun _ hj => hj, hlen, hgrown.list, hgrown.origin,
      fun _ hj => Or.inl hj, hentry, hs, hsb, hdb, fun hlong => absurd hlong (by omega), hgrown.regs⟩
  have hpage := h.program.pool.page v hv
  obtain ⟨hload', hf⟩ := hload.copy hpage
    ⟨h.caller.off v hv, hoff, fun hp => hv' (Mm.mem_of_framesOf hgrown.held.pool hpage hp)⟩
    (fun j hj he => (h.frame j hj).2.2.2 ⟨v, hv, (frame_congr (hs j)).symm.trans he⟩)
    (Nat.mod_lt _ (by decide)) hnew
  refine ⟨d', l', _, hgrown.dir, hload', fun _ hj => Or.inl hj, hlen, hgrown.list, hgrown.origin,
    fun j hj => hj.imp_right ?_, hentry, hs, hsb, hdb, fun _ => ⟨Or.inr rfl, fun a ha => ?_⟩,
    hgrown.regs⟩
  · rintro rfl
    exact ⟨v, hv, hf⟩
  rw [Mm.Space.byte, Mm.Space.addr, ha, hf, hbytes _ (Nat.mod_lt _ (by decide)), Mm.Space.byte,
    Mm.Space.addr, ha]
  rfl

end

/-- The address spaces while a program is loaded. -/
structure Stage where
  m : Mm
  s : Mm.Space
  d : Mm.Space
  l : List Nat
  U : Nat → Prop
  C : Nat → Prop
  loading : Loading m s d l U C

/-- The memory of the caller. -/
def Stage.view (x : Stage) : Memory := x.s.byte x.m.mem

/-- The memory of the new program. -/
def Stage.image (x : Stage) : Memory := x.d.byte x.m.mem

/-- The pages of the new program: its tables and the copies. -/
def Stage.Program (x : Stage) (p : Nat) : Prop :=
  x.d.Has p ∨ ∃ n, x.C n ∧ x.d.frame x.m.mem n = p

theorem Stage.program_congr {x y : Stage} {p : Nat} (hd : y.d = x.d) (hC : y.C = x.C)
    (hentry : ∀ j, x.d.entry y.m.mem j = x.d.entry x.m.mem j) (h : y.Program p) : x.Program p := by
  unfold Stage.Program at h ⊢
  rw [hd, hC] at h
  refine h.imp_right fun ⟨n, hn, hf⟩ => ⟨n, hn, ?_⟩
  rw [← hf]
  exact (frame_congr (hentry n)).symm

/-- What is kept from one stage to another. -/
structure Later (x y : Stage) : Prop where
  caller : y.s.dir = x.s.dir
  program : y.d.dir = x.d.dir
  user : ∀ j, x.U j → y.U j
  low : ∀ j, y.U j → j < 524288 ∨ x.U j
  copies : ∀ j, x.C j → y.C j
  list : ∀ u ∈ y.l, u ∈ x.l
  origin : ∀ p, y.s.Has p → x.s.Has p ∨ Mm.framesOf x.l p
  fresh : ∀ p, y.Program p → x.Program p ∨ Mm.framesOf x.l p
  entry : ∀ j, 524288 ≤ j ∨ x.U j → y.s.entry y.m.mem j = x.s.entry x.m.mem j
  present : ∀ j, Mm.present (x.d.entry x.m.mem j) → y.d.entry y.m.mem j = x.d.entry x.m.mem j
  image : ∀ a, x.C (a / 4096) → y.image a = x.image a
  regs : y.m = { x.m with mem := y.m.mem, freeList := y.m.freeList }

theorem Later.refl (x : Stage) : Later x x :=
  ⟨rfl, rfl, fun _ h => h, fun _ h => Or.inr h, fun _ h => h, fun _ h => h, fun _ h => Or.inl h,
    fun _ h => Or.inl h, fun _ _ => rfl, fun _ _ => rfl, fun _ _ => rfl, rfl⟩

theorem Later.trans {x y z : Stage} (h : Later x y) (h' : Later y z) : Later x z where
  caller := h'.caller.trans h.caller
  program := h'.program.trans h.program
  user := fun j hj => h'.user j (h.user j hj)
  low := fun j hj => (h'.low j hj).elim Or.inl (h.low j)
  copies := fun j hj => h'.copies j (h.copies j hj)
  list := fun u hu => h.list u (h'.list u hu)
  origin := fun p hp => (h'.origin p hp).elim (h.origin p) fun ⟨u, hu, he⟩ =>
    Or.inr ⟨u, h.list u hu, he⟩
  fresh := fun p hp => (h'.fresh p hp).elim (h.fresh p) fun ⟨u, hu, he⟩ =>
    Or.inr ⟨u, h.list u hu, he⟩
  entry := fun j hj => (h'.entry j (hj.imp_right (h.user j))).trans (h.entry j hj)
  present := fun j hj =>
    (h'.present j (by rw [h.present j hj]; exact hj)).trans (h.present j hj)
  image := fun a ha => (h'.image a (h.copies _ ha)).trans (h.image a ha)
  regs := by rw [h'.regs, h.regs]

section

variable {x y : Stage} {m' : Mm} {va len n k : Nat} {v : Memory}

/-- The stage with another memory. -/
def Stage.put (x : Stage) (m : Mm) (h : Loading m x.s x.d x.l x.U x.C) : Stage :=
  { x with m := m, loading := h }

/-- What is written to pages of the caller leaves the rest of the stage as it is. -/
theorem Stage.write (x : Stage) (m' : Mm) {P : Nat → Prop}
    (hP : ∀ p, P p → ∃ n, x.U n ∧ p = x.s.frame x.m.mem n) (hagree : Mm.AgreeOff P x.m.mem m'.mem)
    (hregs : m' = { x.m with mem := m'.mem }) :
    ∃ h : Loading m' x.s x.d x.l x.U x.C, Later x (x.put m' h) ∧
      ∀ j, x.d.entry m'.mem j = x.d.entry x.m.mem j := by
  obtain ⟨h, hs, hd, himage⟩ := x.loading.write m' hP hagree hregs
  have hlist : m'.freeList = x.m.freeList := by rw [hregs]
  exact ⟨h, ⟨rfl, rfl, fun _ h => h, fun _ h => Or.inr h, fun _ h => h, fun _ h => h,
    fun _ h => Or.inl h, fun _ hp => Or.inl (Stage.program_congr (y := x.put m' h) rfl rfl hd hp),
    fun j _ => hs j, fun j _ => hd j, himage,
    show m' = { x.m with mem := m'.mem, freeList := m'.freeList } by rw [hlist]; exact hregs⟩, hd⟩

/-- The memory of the caller while it is written, from the stage `x` on. -/
noncomputable def Stage.writing (x : Stage) : Abstraction Mm Memory where
  ok m := ∃ h : Loading m x.s x.d x.l x.U x.C, Later x (x.put m h) ∧
    ∀ j, x.d.entry m.mem j = x.d.entry x.m.mem j
  view := (Mm.seen x.s x.U).view

theorem Stage.writing_ok (x : Stage) : x.writing.ok x.m :=
  ⟨x.loading, Later.refl x, fun _ => rfl⟩

theorem gives_vload8 (hva : va < 4294967296) (hU : x.U (va / 4096)) :
    Act.Gives x.writing v (Mm.vload8 va) (v va) v := by
  rintro m ⟨h, hlater⟩ rfl
  refine ⟨_, m, Mm.vload8_of_walk (h.sees.walk hva hU), ⟨h, hlater⟩, ?_, rfl⟩
  exact (Mm.seen_view hU).symm

theorem gives_vload32 (hva : va + 4 ≤ 4294967296) (hU : ∀ i, i < 4 → x.U ((va + i) / 4096)) :
    Act.Gives x.writing v (Mm.vload32 va) (load32 v va) v := by
  unfold Mm.vload32
  refine (gives_vload8 (by omega) (hU 0 (by decide))).bind ?_
  refine (gives_vload8 (by omega) (hU 1 (by decide))).bind ?_
  refine (gives_vload8 (by omega) (hU 2 (by decide))).bind ?_
  refine (gives_vload8 (by omega) (hU 3 (by decide))).bind ?_
  rw [load32, u32_eq_self (by omega), u32_eq_self (by omega), u32_eq_self (by omega),
    u32_eq_self (by omega)]
  exact Act.gives_pure _

theorem gives_vstore8 (hva : va < 4294967296) (hU : x.U (va / 4096)) (b : UInt8) :
    Act.Gives x.writing v (Mm.vstore8 va b) () (Function.update v va b) := by
  rintro m ⟨h, hlater, hd⟩ hv
  obtain ⟨_, m', hstore, -, -, hview⟩ := Mm.gives_vstore8 hva hU b m h.sees hv
  obtain ⟨-, rfl⟩ := Prod.mk.inj (Except.ok.inj
    ((Mm.vstore8_of_walk (h.sees.walk hva hU) b).symm.trans hstore))
  have hagree : Mm.AgreeOff (fun p => p = x.s.frame m.mem (va / 4096)) m.mem
      (Function.update m.mem (x.s.addr m.mem va) b) := by
    intro a ha
    refine Function.update_of_ne (fun he => ha _ rfl ?_) _ _
    rw [he]
    exact Mm.inPage_addr x.s m.mem va
  obtain ⟨h', hlater', hd'⟩ := (x.put m h).write
    { m with mem := Function.update m.mem (x.s.addr m.mem va) b } (fun p hp => ⟨_, hU, hp⟩) hagree rfl
  exact ⟨(), _, hstore, ⟨h', hlater.trans hlater', fun j => (hd' j).trans (hd j)⟩, rfl, hview⟩

/-- A `memmove` to lower addresses, none of which are read. -/
theorem gives_moveUp {dst src i : Nat} (hsrc : src + (i + n) ≤ 4294967296)
    (hdst : dst + (i + n) ≤ src)
    (hread : ∀ j, i ≤ j → j < i + n → x.U ((src + j) / 4096))
    (hwrite : ∀ j, i ≤ j → j < i + n → x.U ((dst + j) / 4096)) :
    Act.Gives x.writing v (moveUp dst src n i) () fun a =>
      if dst + i ≤ a ∧ a < dst + (i + n) then v (src + (a - dst)) else v a := by
  induction n generalizing i v with
  | zero =>
      have hv : (fun a => if dst + i ≤ a ∧ a < dst + (i + 0) then v (src + (a - dst)) else v a) =
          v := by
        funext a
        rw [if_neg (by omega)]
      rw [hv]
      exact Act.gives_pure ()
  | succ n ih =>
      rw [moveUp]
      refine (gives_vload8 (by omega) (hread i le_rfl (by omega))).bind ?_
      refine (gives_vstore8 (by omega) (hwrite i le_rfl (by omega)) _).bind ?_
      refine (ih (i := i + 1) (by omega) (by omega) (fun j hj hj' => hread j (by omega) (by omega))
        fun j hj hj' => hwrite j (by omega) (by omega)).mono ?_
      rintro _ w ⟨-, rfl⟩
      refine ⟨rfl, funext fun a => ?_⟩
      by_cases ha : a = dst + i
      · rw [if_neg (by omega), if_pos (by omega), ha, Function.update_self, Nat.add_sub_cancel_left]
      · by_cases hin : dst + i ≤ a ∧ a < dst + (i + (n + 1))
        · rw [if_pos (by omega), if_pos hin, Function.update_of_ne (by omega)]
        · rw [if_neg (by omega), if_neg hin, Function.update_of_ne ha]

theorem gives_vwrite {f : Nat → UInt8} {i : Nat} (hva : va + (i + n) ≤ 4294967296)
    (hwrite : ∀ j, i ≤ j → j < i + n → x.U ((va + j) / 4096)) :
    Act.Gives x.writing v (Mm.vwrite va f n i) () fun a =>
      if va + i ≤ a ∧ a < va + (i + n) then f (a - va) else v a := by
  induction n generalizing i v with
  | zero =>
      have hv : (fun a => if va + i ≤ a ∧ a < va + (i + 0) then f (a - va) else v a) = v := by
        funext a
        rw [if_neg (by omega)]
      rw [hv]
      exact Act.gives_pure ()
  | succ n ih =>
      rw [Mm.vwrite]
      refine (gives_vstore8 (by omega) (hwrite i le_rfl (by omega)) _).bind ?_
      refine (ih (i := i + 1) (by omega) fun j hj hj' => hwrite j (by omega) (by omega)).mono ?_
      rintro _ w ⟨-, rfl⟩
      refine ⟨rfl, funext fun a => ?_⟩
      by_cases ha : a = va + i
      · rw [if_neg (by omega), if_pos (by omega), ha, Function.update_self, Nat.add_sub_cancel_left]
      · by_cases hin : va + i ≤ a ∧ a < va + (i + (n + 1))
        · rw [if_pos (by omega), if_pos hin]
        · rw [if_neg (by omega), if_neg hin, Function.update_of_ne ha]

end

end Exec

end Chunix
